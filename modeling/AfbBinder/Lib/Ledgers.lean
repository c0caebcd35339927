import Mathlib.Data.List.Basic
import Mathlib.Data.List.Nodup

/-! A ledger of references: each gets the next number when it is held, until it is dropped. -/
namespace AfbBinder.Lib.Ledgers

inductive Event where
  | hold (ref : Nat)
  | drop (ref : Nat)
  deriving DecidableEq, Repr

def Event.ref : Event → Nat
  | .hold r => r
  | .drop r => r

def HeldAfter (events : List Event) (r : Nat) : Prop := .hold r ∈ events ∧ .drop r ∉ events

instance (events : List Event) (r : Nat) : Decidable (HeldAfter events r) := inferInstanceAs (Decidable (_ ∧ _))

/-- The references that are held after the events, each once. -/
structure Ledger (refs : List Nat) (events : List Event) : Prop where
  nodup : refs.Nodup
  held : ∀ r, r ∈ refs ↔ HeldAfter events r
  fresh : ∀ e ∈ events, e.ref < events.length

variable {refs refs' : List Nat} {events : List Event} {r : Nat}

theorem ledger_nil : Ledger [] [] where
  nodup := List.nodup_nil
  held _ := ⟨fun h => absurd h List.not_mem_nil, fun h => absurd h.1 List.not_mem_nil⟩
  fresh _ h := absurd h List.not_mem_nil

private theorem Ledger.perm (h : Ledger refs events) (hperm : refs'.Perm refs) : Ledger refs' events where
  nodup := hperm.nodup_iff.mpr h.nodup
  held r := hperm.mem_iff.trans (h.held r)
  fresh := h.fresh

/-- One more reference, the next one. -/
theorem Ledger.hold (h : Ledger refs events) : Ledger (events.length :: refs) (events ++ [.hold events.length]) where
  nodup := by
    refine List.nodup_cons.mpr ⟨fun hmem => ?_, h.nodup⟩
    exact absurd (h.fresh _ ((h.held _).mp hmem).1) (Nat.lt_irrefl _)
  held r := by
    have hnot : .drop events.length ∉ events := fun hmem => absurd (h.fresh _ hmem) (Nat.lt_irrefl _)
    simp only [List.mem_cons, h.held, HeldAfter, List.mem_append, List.not_mem_nil, or_false, Event.hold.injEq,
      reduceCtorEq]
    constructor
    · rintro (rfl | hr)
      · exact ⟨.inr rfl, hnot⟩
      · exact ⟨.inl hr.1, hr.2⟩
    · rintro ⟨hr | rfl, hd⟩
      · exact .inr ⟨hr, hd⟩
      · exact .inl rfl
  fresh e he := by
    rw [List.length_append, List.length_singleton]
    rcases List.mem_append.mp he with he | he
    · exact Nat.lt_succ_of_lt (h.fresh e he)
    · rw [List.mem_singleton.mp he]
      exact Nat.lt_succ_self _

/-- One reference less. -/
theorem Ledger.drop (h : Ledger (r :: refs) events) : Ledger refs (events ++ [.drop r]) where
  nodup := (List.nodup_cons.mp h.nodup).2
  held q := by
    have hq := h.held q
    have hnot := (List.nodup_cons.mp h.nodup).1
    simp only [List.mem_cons, HeldAfter] at hq
    simp only [HeldAfter, List.mem_append, List.mem_singleton, reduceCtorEq, or_false, Event.drop.injEq, not_or]
    constructor
    · intro hmem
      obtain ⟨hhold, hdrop⟩ := hq.mp (.inr hmem)
      exact ⟨hhold, hdrop, fun heq => hnot (heq ▸ hmem)⟩
    · rintro ⟨hhold, hdrop, hne⟩
      exact (hq.mpr ⟨hhold, hdrop⟩).resolve_left hne
  fresh e he := by
    rw [List.length_append, List.length_singleton]
    rcases List.mem_append.mp he with he | he
    · exact Nat.lt_succ_of_lt (h.fresh e he)
    · rw [List.mem_singleton.mp he]
      have hold := ((h.held r).mp List.mem_cons_self).1
      exact Nat.lt_succ_of_lt (h.fresh (.hold r) hold)

/-- How many times a reference is in the list. -/
theorem Ledger.count (h : Ledger refs events) (r : Nat) : refs.count r = if HeldAfter events r then 1 else 0 := by
  by_cases hr : r ∈ refs
  · rw [List.count_eq_one_of_mem h.nodup hr, if_pos ((h.held r).mp hr)]
  · rw [List.count_eq_zero_of_not_mem hr, if_neg fun hheld => hr ((h.held r).mpr hheld)]

end AfbBinder.Lib.Ledgers
