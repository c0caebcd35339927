import Mathlib.Data.List.Basic
import Mathlib.Data.List.Nodup
import Mathlib.Data.List.Perm.Subperm
import Mathlib.Logic.Function.Basic
import Mathlib.Logic.Relation

/-! Chains of pointers: the nodes met from a node by following its link, and the loop that
follows the links with a bound on its length. -/
namespace AfbBinder.Lib.Chains
variable {α : Type*} {next : α → Option α} {a b : α} {l m : List α}

/-- The links from a to the last node, which has none. -/
inductive Chain (next : α → Option α) : α → List α → Prop
  | last {a : α} (h : next a = none) : Chain next a [a]
  | link {a b : α} {l : List α} (h : next a = some b) (hl : Chain next b l) : Chain next a (a :: l)

/-- Some node is met again from itself. -/
def Cycle (next : α → Option α) : Prop :=
  ∃ a, Relation.TransGen (fun x y => next x = some y) a a

/-- The nodes met by at most fuel links. -/
def walk (next : α → Option α) : Nat → α → List α
  | 0, a => [a]
  | fuel + 1, a => a :: match next a with
    | some b => walk next fuel b
    | none => []

theorem Chain.unique (h : Chain next a l) (h' : Chain next a m) : l = m := by
  induction h generalizing m with
  | last hn =>
    cases h' with
    | last => rfl
    | link hs => cases hn.symm.trans hs
  | link hs _ ih =>
    cases h' with
    | last hn => cases hn.symm.trans hs
    | link hs' hm =>
      rw [hs, Option.some.injEq] at hs'
      subst hs'
      rw [ih hm]

theorem Chain.mem_self (h : Chain next a l) : a ∈ l := by
  cases h with
  | last => exact List.mem_singleton_self a
  | link => exact List.mem_cons_self

/-- From each node of the chain starts a chain, its end. -/
theorem Chain.from_mem (h : Chain next a l) (hb : b ∈ l) : ∃ m, Chain next b m ∧ m <:+ l := by
  induction h with
  | last hn =>
    rw [List.mem_singleton] at hb
    subst hb
    exact ⟨_, .last hn, List.suffix_refl _⟩
  | link hs hl ih =>
    rcases List.mem_cons.mp hb with rfl | hb
    · exact ⟨_, .link hs hl, List.suffix_refl _⟩
    · obtain ⟨m, hm, hsuf⟩ := ih hb
      exact ⟨m, hm, hsuf.trans (List.suffix_cons _ _)⟩

/-- A node met twice would start two chains of different lengths. -/
theorem Chain.nodup (h : Chain next a l) : l.Nodup := by
  induction h with
  | last => exact List.nodup_singleton _
  | link hs hl ih =>
    refine List.nodup_cons.mpr ⟨fun hmem => ?_, ih⟩
    obtain ⟨m, hm, hsuf⟩ := hl.from_mem hmem
    have heq := hm.unique (.link hs hl)
    subst heq
    exact absurd hsuf.length_le (by simp)

/-- The chain shortens along the links. -/
theorem Chain.shorter (h : Chain next a l) (hr : Relation.TransGen (fun x y => next x = some y) a b) :
    ∃ m, Chain next b m ∧ m.length < l.length := by
  induction hr with
  | single hs =>
    cases h with
    | last hn => cases hn.symm.trans hs
    | link hn hl =>
      obtain rfl := Option.some.inj (hn.symm.trans hs)
      exact ⟨_, hl, Nat.lt_succ_self _⟩
  | tail _ hs ih =>
    obtain ⟨m, hm, hlt⟩ := ih
    cases hm with
    | last hn => cases hn.symm.trans hs
    | link hn hl =>
      obtain rfl := Option.some.inj (hn.symm.trans hs)
      exact ⟨_, hl, Nat.lt_of_succ_lt hlt⟩

theorem not_cycle (hall : ∀ a, ∃ l, Chain next a l) : ¬ Cycle next := by
  rintro ⟨a, hr⟩
  obtain ⟨l, hl⟩ := hall a
  obtain ⟨m, hm, hlt⟩ := hl.shorter hr
  rw [hl.unique hm] at hlt
  exact Nat.lt_irrefl _ hlt

/-- The links being the same along the chain, it is a chain. -/
theorem Chain.congr {next' : α → Option α} (h : Chain next a l)
    (he : ∀ b ∈ l, next' b = next b) : Chain next' a l := by
  induction h with
  | last hn => exact .last ((he _ List.mem_cons_self).trans hn)
  | link hs _ ih =>
    exact .link ((he _ List.mem_cons_self).trans hs)
      (ih fun b hb => he b (List.mem_cons_of_mem _ hb))

theorem Chain.walk_eq (h : Chain next a l) {fuel : Nat} (hf : l.length ≤ fuel + 1) :
    walk next fuel a = l := by
  induction h generalizing fuel with
  | last hn =>
    cases fuel with
    | zero => rfl
    | succ fuel => simp [walk, hn]
  | link hs hl ih =>
    cases fuel with
    | zero =>
      have := List.length_pos_of_mem hl.mem_self
      simp only [List.length_cons] at hf
      omega
    | succ fuel =>
      simp only [walk, hs]
      rw [ih (by simpa using hf)]

/-- Distinct nodes below a bound are at most that many. -/
theorem length_le_of_nodup {l : List Nat} {n : Nat} (hl : l.Nodup) (hlt : ∀ a ∈ l, a < n) :
    l.length ≤ n := by
  have hsub : l ⊆ List.range n := fun a ha => List.mem_range.mpr (hlt a ha)
  simpa using (List.subperm_of_subset hl hsub).length_le

section
variable [DecidableEq α] {t : Option α}

/-- A link is changed to a node whose chain does not come back: every chain still ends. -/
theorem chains_update (hall : ∀ a, ∃ l, Chain next a l)
    (ht : ∀ b l, t = some b → Chain next b l → a ∉ l) (x : α) :
    ∃ l, Chain (Function.update next a t) x l := by
  have hself : ∃ l, Chain (Function.update next a t) a l := by
    cases t with
    | none => exact ⟨[a], .last (Function.update_self a _ _)⟩
    | some b =>
      obtain ⟨l, hl⟩ := hall b
      refine ⟨a :: l, .link (Function.update_self a _ _) (hl.congr fun c hc => ?_)⟩
      exact Function.update_of_ne (fun he : c = a => ht b l rfl hl (he ▸ hc)) _ _
  obtain ⟨l, hl⟩ := hall x
  induction hl with
  | @last x hn =>
    by_cases hx : x = a
    · exact hx ▸ hself
    · exact ⟨[x], .last ((Function.update_of_ne hx _ _).trans hn)⟩
  | @link x y l hs _ ih =>
    by_cases hx : x = a
    · exact hx ▸ hself
    · obtain ⟨m, hm⟩ := ih
      exact ⟨x :: m, .link ((Function.update_of_ne hx _ _).trans hs) hm⟩

/-- The link of a node of the chain is changed: the chain goes on as the new one of the node. -/
theorem Chain.relinked (h : Chain next b l) (ha : a ∈ l)
    (hm : Chain (Function.update next a t) a m) :
    Chain (Function.update next a t) b (l.takeWhile (· ≠ a) ++ m) := by
  induction h with
  | last =>
    obtain rfl := List.mem_singleton.mp ha
    simpa using hm
  | @link b c l hs _ ih =>
    by_cases hb : b = a
    · subst hb
      simpa using hm
    · have hin : a ∈ l := (List.mem_cons.mp ha).resolve_left (Ne.symm hb)
      rw [List.takeWhile_cons_of_pos (by simpa using hb), List.cons_append]
      exact .link ((Function.update_of_ne hb _ _).trans hs) (ih hin)

/-- A new node is put after a: it follows a in the chains that have it. -/
theorem Chain.spliced {next' : α → Option α} {c : α} (h : Chain next b l) (hc : c ∉ l)
    (ha : next' a = some c) (hnew : next' c = next a)
    (hothers : ∀ x, x ≠ a → x ≠ c → next' x = next x) :
    Chain next' b (l.flatMap fun x => if x = a then [x, c] else [x]) := by
  induction h with
  | @last b hn =>
    have hbc : b ≠ c := fun he => hc (he ▸ List.mem_singleton_self b)
    by_cases hb : b = a
    · subst hb
      simpa using Chain.link ha (.last (hnew.trans hn))
    · simpa [hb] using Chain.last ((hothers b hb hbc).trans hn)
  | @link b d l hs _ ih =>
    have hbc : b ≠ c := fun he => hc (he ▸ List.mem_cons_self)
    have hrest := ih fun hm => hc (List.mem_cons_of_mem _ hm)
    rw [List.flatMap_cons]
    by_cases hb : b = a
    · subst hb
      simpa using Chain.link ha (.link (hnew.trans hs) hrest)
    · simpa [hb] using Chain.link ((hothers b hb hbc).trans hs) hrest

/-- A node of a chain is still reached when its own link changes. -/
theorem Chain.reaches_update (h : Chain next b l) (ha : a ∈ l) :
    Relation.ReflTransGen (fun x y => Function.update next a t x = some y) b a := by
  induction h with
  | last => exact List.mem_singleton.mp ha ▸ .refl
  | @link b c l hs _ ih =>
    by_cases hb : b = a
    · exact hb ▸ .refl
    · have hin : a ∈ l := (List.mem_cons.mp ha).resolve_left (Ne.symm hb)
      exact .head ((Function.update_of_ne hb _ _).trans hs) (ih hin)

/-- A changed link closes a cycle exactly when the chain that it leads to comes back. -/
theorem cycle_update_iff (hall : ∀ a, ∃ l, Chain next a l) :
    Cycle (Function.update next a t) ↔ ∃ b l, t = some b ∧ Chain next b l ∧ a ∈ l := by
  constructor
  · intro hcycle
    by_contra hno
    refine not_cycle (chains_update hall fun b l hb hl ha => ?_) hcycle
    exact hno ⟨b, l, hb, hl, ha⟩
  · rintro ⟨b, l, rfl, hl, ha⟩
    exact ⟨a, .head' (Function.update_self ..) (hl.reaches_update ha)⟩

end

end AfbBinder.Lib.Chains
