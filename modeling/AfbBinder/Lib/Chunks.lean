import Mathlib.Data.List.Basic

/-! Machines fed one item at a time, and sources whose items come chunk after chunk: what
is read of a source, and conditions on the state of the machine at the cuts. -/
namespace AfbBinder.Lib.Chunks
variable {σ α ε : Type*}

/-- The state after the items and what the machine gave for them. -/
def run (feed : σ → α → σ × List ε) : σ → List α → σ × List ε
  | s, [] => (s, [])
  | s, a :: as => ((run feed (feed s a).1 as).1, (feed s a).2 ++ (run feed (feed s a).1 as).2)

section
variable {feed : σ → α → σ × List ε}

@[simp] theorem run_nil (s : σ) : run feed s [] = (s, []) := rfl

theorem run_cons (s : σ) (a : α) (as : List α) : run feed s (a :: as) =
    ((run feed (feed s a).1 as).1, (feed s a).2 ++ (run feed (feed s a).1 as).2) := rfl

theorem run_append (s : σ) (as bs : List α) :
    run feed s (as ++ bs) = ((run feed (run feed s as).1 bs).1,
      (run feed s as).2 ++ (run feed (run feed s as).1 bs).2) := by
  induction as generalizing s with
  | nil => simp
  | cons a as ih => simp only [List.cons_append, run_cons, ih, List.append_assoc]

/-- A state that every item leaves silently. -/
theorem run_fixed {s : σ} (h : ∀ a, feed s a = (s, [])) (as : List α) : run feed s as = (s, []) := by
  induction as with
  | nil => rfl
  | cons a as ih => rw [run_cons, h a, ih]; rfl

end

/-- Reading these items leads from a source to another: a source has the items that are
there and the chunks to come, the next of which comes when nothing is left. -/
inductive Reads : List α → List (List α) → List α → List α → List (List α) → Prop
  | none (a : List α) (l : List (List α)) : Reads a l [] a l
  | some (x : List α) {a : List α} {l : List (List α)} {y a' : List α} {l' : List (List α)} :
    Reads a l y a' l' → Reads (x ++ a) l (x ++ y) a' l'
  | next (c : List α) {cs : List (List α)} {y a' : List α} {l' : List (List α)} :
    Reads c cs y a' l' → Reads [] (c :: cs) y a' l'

/-- The state of the machine at each cut that items follow. -/
def AtCuts (feed : σ → α → σ × List ε) (P : σ → Prop) : σ → List α → List (List α) → Prop
  | _, _, [] => True
  | s, a, c :: cs => ((c :: cs).flatten ≠ [] → P (run feed s a).1) ∧
    AtCuts feed P (run feed s a).1 c cs

instance decidableAtCuts [DecidableEq α] (feed : σ → α → σ × List ε) {P : σ → Prop}
    [DecidablePred P] : ∀ s a l, Decidable (AtCuts feed P s a l)
  | _, _, [] => isTrue trivial
  | s, a, c :: cs =>
    have : Decidable (AtCuts feed P (run feed s a).1 c cs) := decidableAtCuts feed _ c cs
    inferInstanceAs (Decidable (((c :: cs).flatten ≠ [] → P (run feed s a).1) ∧
      AtCuts feed P (run feed s a).1 c cs))

section
variable {feed : σ → α → σ × List ε} {P : σ → Prop} {a y a' : List α} {l l' : List (List α)}

theorem Reads.append (h : Reads a l y a' l') : a ++ l.flatten = y ++ (a' ++ l'.flatten) := by
  induction h with
  | none a l => rfl
  | some x _ ih => rw [List.append_assoc, ih, List.append_assoc]
  | next c _ ih => rw [← ih]; rfl

theorem Reads.length_le (h : Reads a l y a' l') : l'.length ≤ l.length := by
  induction h with
  | none a l => exact Nat.le_refl _
  | some x _ ih => exact ih
  | next c _ ih => exact Nat.le_succ_of_le ih

theorem Reads.trans {z b : List α} {m : List (List α)} (h : Reads a l y a' l')
    (h' : Reads a' l' z b m) : Reads a l (y ++ z) b m := by
  induction h with
  | none a l => exact h'
  | some x _ ih =>
    rw [List.append_assoc]
    exact .some x (ih h')
  | next c _ ih => exact .next c (ih h')

/-- The items at hand. -/
theorem Reads.take (a : List α) (l : List (List α)) (n : Nat) :
    Reads a l (a.take n) (a.drop n) l := by
  have h := Reads.some (a.take n) (.none (a.drop n) l)
  rwa [List.take_append_drop, List.append_nil] at h

private theorem AtCuts.read (x : List α) {s : σ} :
    AtCuts feed P s (x ++ a) l ↔ AtCuts feed P (run feed s x).1 a l := by
  cases l with
  | nil => exact Iff.rfl
  | cons c cs => simp only [AtCuts, run_append]

/-- The cuts that remain. -/
theorem AtCuts.reads {s : σ} (hs : AtCuts feed P s a l) (h : Reads a l y a' l') :
    AtCuts feed P (run feed s y).1 a' l' := by
  induction h generalizing s with
  | none a l => exact hs
  | some x _ ih =>
    rw [run_append]
    exact ih ((AtCuts.read x).mp hs)
  | next c _ ih => exact ih hs.2

end

end AfbBinder.Lib.Chunks
