import Mathlib.Data.List.Basic
import AfbBinder.Lib.Cstrings

/-! Readers of a window of memory that record the addresses they read, parsers of byte
lists, and what it takes for a reader to do what a parser says: both compose. -/
namespace AfbBinder.Lib.Reader
open Cstrings

abbrev Memory := Nat → UInt8

/-- A window [base, stop) of memory, the next address to read, the addresses read. -/
structure Window where
  base : Nat
  head : Nat
  stop : Nat
  reads : List Nat
  deriving DecidableEq, Repr

/-- A reader gives a value or fails, and says where it left the window. -/
def Rd (α : Type) := Window → Option α × Window

instance : Monad Rd where
  pure a := fun rb => (some a, rb)
  bind p f := fun rb =>
    match p rb with
    | (some a, rb) => f a rb
    | (none, rb) => (none, rb)

def Rd.fail {α : Type} : Rd α := fun rb => (none, rb)

/-- A parser gives a value and the bytes it leaves, or fails. -/
abbrev Parser := StateT Bytes Option

theorem bind_some {α β : Type} {p : Rd α} {f : α → Rd β} {rb rb' : Window} {a : α}
    (h : p rb = (some a, rb')) : (p >>= f) rb = f a rb' := by
  change (match p rb with
    | (some a, rb) => f a rb
    | (none, rb) => (none, rb)) = f a rb'
  rw [h]

theorem bind_none {α β : Type} {p : Rd α} {f : α → Rd β} {rb : Window}
    (h : (p rb).1 = none) : (p >>= f) rb = (none, (p rb).2) := by
  change (match p rb with
    | (some a, rb) => f a rb
    | (none, rb) => (none, rb)) = _
  cases hp : p rb with
  | mk r rb' =>
    rw [hp] at h
    subst h
    rfl

theorem parser_bind {α β : Type} (p : Parser α) (f : α → Parser β) (b : Bytes) :
    (p >>= f) b = (p b).bind fun r => f r.1 r.2 := rfl

/-- The window is this one and has been used within its bounds. -/
structure Within (base stop : Nat) (rb : Window) : Prop where
  base_eq : rb.base = base
  stop_eq : rb.stop = stop
  low : base ≤ rb.head
  high : rb.head ≤ stop
  reads : ∀ a ∈ rb.reads, base ≤ a ∧ a < stop

/-- The reader stays within the bounds and what it gives satisfies the postcondition. -/
def Safe {α : Type} (base stop : Nat) (p : Rd α) (P : α → Prop) : Prop :=
  ∀ rb, Within base stop rb → Within base stop (p rb).2 ∧ ∀ a, (p rb).1 = some a → P a

section
variable {α β : Type} {base stop : Nat} {P : α → Prop} {Q : β → Prop}

theorem safe_pure {a : α} (h : P a) : Safe base stop (pure a) P := by
  intro rb hrb
  refine ⟨hrb, fun a' ha => ?_⟩
  cases ha
  exact h

theorem safe_fail : Safe base stop (Rd.fail : Rd α) P :=
  fun _ hrb => ⟨hrb, fun _ ha => by cases ha⟩

theorem safe_bind {p : Rd α} {f : α → Rd β} (hp : Safe base stop p P)
    (hf : ∀ a, P a → Safe base stop (f a) Q) : Safe base stop (p >>= f) Q := by
  intro rb hrb
  obtain ⟨hin, hpost⟩ := hp rb hrb
  cases h : p rb with
  | mk r rb' =>
    rw [h] at hin hpost
    cases r with
    | none =>
      rw [bind_none (by rw [h]), h]
      exact ⟨hin, fun _ ha => by cases ha⟩
    | some a =>
      rw [bind_some h]
      exact hf a (hpost a rfl) rb' hin

end

/-- What is left to read in the window is these bytes. -/
structure Holds (mem : Memory) (rb : Window) (b : Bytes) : Prop where
  size : rb.head + b.length = rb.stop
  bytes : ∀ i (h : i < b.length), mem (rb.head + i) = b[i]

theorem Holds.drop {mem : Memory} {rb : Window} {b : Bytes} (h : Holds mem rb b) {n : Nat}
    (hn : n ≤ b.length) (reads : List Nat) :
    Holds mem { rb with head := rb.head + n, reads := reads } (b.drop n) where
  size := by
    have := h.size
    simp only [List.length_drop]
    omega
  bytes i hi := by
    rw [List.length_drop] at hi
    rw [List.getElem_drop, ← h.bytes (n + i) (by omega), Nat.add_assoc]

theorem Holds.take {mem : Memory} {rb : Window} {b : Bytes} (h : Holds mem rb b) {n : Nat}
    (hn : n ≤ b.length) : ((List.range n).map fun i => mem (rb.head + i)) = b.take n := by
  refine List.ext_getElem (by simp [hn]) fun i hi _ => ?_
  rw [List.length_map, List.length_range] at hi
  simp [h.bytes i (by omega)]

/-- The reader fails where the parser fails, and otherwise gives a related value and
leaves what the parser leaves. -/
def Refines {α β : Type} (mem : Memory) (p : Rd α) (q : Parser β) (R : α → β → Prop) : Prop :=
  ∀ rb b, Holds mem rb b →
    (q b = none → (p rb).1 = none) ∧
    ∀ y rest, q b = some (y, rest) → ∃ x rb', p rb = (some x, rb') ∧ R x y ∧ Holds mem rb' rest

theorem refines_pure {α β : Type} {mem : Memory} {R : α → β → Prop} {x : α} {y : β} (h : R x y) :
    Refines mem (pure x) (pure y) R := by
  intro rb b hb
  refine ⟨fun hn => (by cases hn), fun y' rest hy => ?_⟩
  cases hy
  exact ⟨x, rb, rfl, h, hb⟩

theorem refines_fail {α β : Type} {mem : Memory} {R : α → β → Prop} :
    Refines mem (Rd.fail : Rd α) (failure : Parser β) R :=
  fun _ _ _ => ⟨fun _ => rfl, fun _ _ h => by cases h⟩

theorem refines_bind {α β γ δ : Type} {mem : Memory} {p : Rd α} {q : Parser β}
    {R : α → β → Prop} {f : α → Rd γ} {g : β → Parser δ} {S : γ → δ → Prop}
    (hp : Refines mem p q R) (hf : ∀ x y, R x y → Refines mem (f x) (g y) S) :
    Refines mem (p >>= f) (q >>= g) S := by
  intro rb b hb
  obtain ⟨hnone, hsome⟩ := hp rb b hb
  rw [parser_bind]
  cases hq : q b with
  | none => exact ⟨fun _ => by rw [bind_none (hnone hq)], fun _ _ h => by cases h⟩
  | some r =>
    obtain ⟨y, rest⟩ := r
    obtain ⟨x, rb', hx, hR, hb'⟩ := hsome y rest hq
    rw [bind_some hx]
    exact hf x y hR rb' rest hb'

end AfbBinder.Lib.Reader
