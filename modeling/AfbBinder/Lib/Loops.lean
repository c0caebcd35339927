import Mathlib.Logic.Relation

/-! Endless loops that leave from their body: an iteration goes on, or gives a result, or fails. -/
namespace AfbBinder.Lib.Loops
variable {σ ε α : Type*} {step : σ → Except ε (σ ⊕ α)} {s t : σ} {r r' : Except ε α}

/-- At most so many iterations, none when they are not enough. -/
def iterate (step : σ → Except ε (σ ⊕ α)) : Nat → σ → Option (Except ε α)
  | 0, _ => none
  | count + 1, s =>
    match step s with
    | .ok (.inl t) => iterate step count t
    | .ok (.inr a) => some (.ok a)
    | .error e => some (.error e)

/-- The loop ends so, from the state. -/
inductive Ends (step : σ → Except ε (σ ⊕ α)) : σ → Except ε α → Prop
  | next {s t : σ} {r : Except ε α} (h : step s = .ok (.inl t)) (ht : Ends step t r) : Ends step s r
  | done {s : σ} {a : α} (h : step s = .ok (.inr a)) : Ends step s (.ok a)
  | error {s : σ} {e : ε} (h : step s = .error e) : Ends step s (.error e)

/-- The loop ends so, once an iteration has given this. -/
def Goes (step : σ → Except ε (σ ⊕ α)) : Except ε (σ ⊕ α) → Except ε α → Prop
  | .ok (.inl s), r => Ends step s r
  | .ok (.inr a), r => r = .ok a
  | .error e, r => r = .error e

theorem ends_iff_goes : Ends step s r ↔ Goes step (step s) r := by
  constructor
  · intro h
    cases h with
    | next h ht => rwa [h]
    | done h =>
      rw [h]
      rfl
    | error h =>
      rw [h]
      rfl
  · intro h
    cases hs : step s with
    | ok x =>
      rw [hs] at h
      cases x with
      | inl t => exact .next hs h
      | inr a => exact h ▸ .done hs
    | error e =>
      rw [hs] at h
      exact h ▸ .error hs

theorem Ends.unique (h : Ends step s r) (h' : Ends step s r') : r = r' := by
  induction h with
  | next h _ ih =>
    cases h' with
    | next h' ht' =>
      cases h.symm.trans h'
      exact ih ht'
    | done h' => cases h.symm.trans h'
    | error h' => cases h.symm.trans h'
  | done h =>
    cases h' with
    | next h' _ => cases h.symm.trans h'
    | done h' =>
      cases h.symm.trans h'
      rfl
    | error h' => cases h.symm.trans h'
  | error h =>
    cases h' with
    | next h' _ => cases h.symm.trans h'
    | done h' => cases h.symm.trans h'
    | error h' =>
      cases h.symm.trans h'
      rfl

theorem ends_of_iterate {count : Nat} (h : iterate step count s = some r) : Ends step s r := by
  induction count generalizing s with
  | zero => cases h
  | succ count ih =>
    rw [iterate] at h
    split at h
    · next hs => exact .next hs (ih h)
    · next hs =>
      cases h
      exact .done hs
    · next hs =>
      cases h
      exact .error hs

/-- A loop whose iterations make a size less ends, within as many iterations. -/
theorem exists_iterate {size : σ → Nat} (hsize : ∀ s t, step s = .ok (.inl t) → size t < size s)
    {count : Nat} (h : size s < count) : ∃ r, iterate step count s = some r := by
  induction count generalizing s with
  | zero => exact absurd h (Nat.not_lt_zero _)
  | succ count ih =>
    cases hs : step s with
    | ok x =>
      cases x with
      | inl t =>
        obtain ⟨r, hr⟩ := ih (Nat.lt_of_lt_of_le (hsize s t hs) (Nat.le_of_lt_succ h))
        exact ⟨r, by rw [iterate, hs]; exact hr⟩
      | inr a => exact ⟨.ok a, by rw [iterate, hs]⟩
    | error e => exact ⟨.error e, by rw [iterate, hs]⟩

theorem iterate_iff {size : σ → Nat} (hsize : ∀ s t, step s = .ok (.inl t) → size t < size s)
    {count : Nat} (h : size s < count) : iterate step count s = some r ↔ Ends step s r := by
  refine ⟨ends_of_iterate, fun hr => ?_⟩
  obtain ⟨r', hr'⟩ := exists_iterate hsize h
  rw [hr', (ends_of_iterate hr').unique hr]

/-- The states that follow, one iteration after the other. -/
def Steps (step : σ → Except ε (σ ⊕ α)) : σ → σ → Prop :=
  Relation.ReflTransGen fun s t => step s = .ok (.inl t)

theorem Ends.of_steps (h : Steps step s t) (ht : Ends step t r) : Ends step s r := by
  induction h using Relation.ReflTransGen.head_induction_on with
  | refl => exact ht
  | head h _ ih => exact .next h ih

/-- What an iteration does last. -/
theorem Ends.last {e : ε} (h : Ends step s (.error e)) : ∃ t, Steps step s t ∧ step t = .error e := by
  generalize hr : (.error e : Except ε α) = r at h
  induction h with
  | next h _ ih =>
    obtain ⟨t, ht, hlast⟩ := ih hr
    exact ⟨t, .head h ht, hlast⟩
  | done h => cases hr
  | error h =>
    cases hr
    exact ⟨_, .refl, h⟩

/-- An invariant of the iterations holds of the states that follow. -/
theorem Steps.keeps {I : σ → Prop} (hstep : ∀ s t, I s → step s = .ok (.inl t) → I t) (h : Steps step s t)
    (hs : I s) : I t := by
  induction h with
  | refl => exact hs
  | tail _ ht ih => exact hstep _ _ ih ht

/-! Iterations with a common last part. -/

/-- After the iterations that follow, the last part is at the state. -/
inductive Leads (step next : σ → Except ε (σ ⊕ α)) (t : σ) : Except ε (σ ⊕ α) → Prop
  | here : Leads step next t (next t)
  | later {s : σ} (h : Leads step next t (step s)) : Leads step next t (.ok (.inl s))

section
variable {next next' : σ → Except ε (σ ⊕ α)} {x : Except ε (σ ⊕ α)} {u : σ}

theorem Leads.goes (h : Leads step next t x) : Goes step x r ↔ Goes step (next t) r := by
  induction h with
  | here => exact Iff.rfl
  | later h ih => exact ends_iff_goes.trans ih

theorem Leads.trans (h : Leads step next t x) (ht : Leads step next' u (next t)) : Leads step next' u x := by
  induction h with
  | here => exact ht
  | later h ih => exact .later ih

/-- The state that the last part leaves is reached. -/
theorem Leads.steps (h : Leads step next t x) (hs : step s = x) (ht : next t = .ok (.inl u)) : Steps step s u := by
  induction h generalizing s with
  | here => exact .single (hs.trans ht)
  | later h ih => exact .head hs (ih rfl)

end

end AfbBinder.Lib.Loops
