import Mathlib.Logic.Basic

/-! Computations that may stop with an error: what their results and their errors meet. -/
namespace AfbBinder.Lib.Checked
variable {ε α β : Type*}

/-- The result meets the one condition, the error the other. -/
def Meets (P : α → Prop) (E : ε → Prop) : Except ε α → Prop
  | .ok a => P a
  | .error e => E e

section
variable {P P' : α → Prop} {E E' : ε → Prop} {Q : β → Prop} {r : Except ε α} {f : α → Except ε β}

theorem Meets.bind (hr : Meets P E r) (hf : ∀ a, P a → Meets Q E (f a)) : Meets Q E (r.bind f) := by
  cases r with
  | ok a => exact hf a hr
  | error e => exact hr

theorem Meets.map {g : α → β} (hr : Meets (fun a => Q (g a)) E r) : Meets Q E (r.map g) := by
  cases r with
  | ok a => exact hr
  | error e => exact hr

theorem Meets.mono (hr : Meets P E r) (hP : ∀ a, P a → P' a) (hE : ∀ e, E e → E' e) : Meets P' E' r := by
  cases r with
  | ok a => exact hP a hr
  | error e => exact hE e hr

/-- The same errors, a weaker condition on the result. -/
theorem Meets.imp (hr : Meets P E r) (hP : ∀ a, P a → P' a) : Meets P' E r := hr.mono hP fun _ => id

theorem meets_iff : Meets P E r ↔ (∀ a, r = .ok a → P a) ∧ ∀ e, r = .error e → E e := by
  cases r with
  | ok a =>
    constructor
    · intro h
      exact ⟨fun b hb => Except.ok.inj hb ▸ h, fun e he => (nomatch he)⟩
    · exact fun h => h.1 a rfl
  | error e =>
    constructor
    · intro h
      exact ⟨fun b hb => (nomatch hb), fun f hf => Except.error.inj hf ▸ h⟩
    · exact fun h => h.2 e rfl

end

/-! Two computations, the second doing as the first. -/

/-- A result of the first that meets the condition has its like in the second. -/
def Carries {ε' : Type*} (P : α → Prop) (R : α → β → Prop) (r : Except ε α) (r' : Except ε' β) : Prop :=
  ∀ a, r = .ok a → P a → ∃ b, r' = .ok b ∧ R a b

section
variable {ε' α' β' : Type*} {P : α → Prop} {Q : β → Prop} {R : α → α' → Prop} {S : β → β' → Prop}
  {r : Except ε α} {r' : Except ε' α'} {f : α → Except ε β} {f' : α' → Except ε' β'}

theorem carries_ok {a : α} {a' : α'} (h : R a a') : Carries P R (.ok a : Except ε α) (.ok a' : Except ε' α') := by
  intro b hb _
  cases hb
  exact ⟨a', rfl, h⟩

theorem carries_error {e : ε} : Carries P R (.error e) r' := fun _ h => nomatch h

theorem Carries.bind (h : Carries P R r r') (hback : ∀ a b, f a = .ok b → Q b → P a)
    (hf : ∀ a a', R a a' → Carries Q S (f a) (f' a')) : Carries Q S (r.bind f) (r'.bind f') := by
  intro b hb hq
  cases r with
  | error e => cases hb
  | ok a =>
    obtain ⟨a', ha', hr⟩ := h a rfl (hback a b hb hq)
    rw [ha']
    exact hf a a' hr b hb hq

end

/-! What a result tells of its parts. -/

section
variable {r : Except ε α} {f : α → Except ε β} {a : α} {b : β} {e : ε} {p : Prop} [Decidable p]

theorem ok_bind : (Except.ok a : Except ε α).bind f = f a := rfl

theorem bind_ok : r.bind f = .ok b ↔ ∃ a, r = .ok a ∧ f a = .ok b := by
  cases r with
  | ok a => simp [Except.bind]
  | error e => simp [Except.bind]

theorem map_ok {g : α → β} : r.map g = .ok b ↔ ∃ a, r = .ok a ∧ g a = b := by
  cases r with
  | ok a => simp [Except.map]
  | error e => simp [Except.map]

theorem guard_ok : (if p then .error e else r) = .ok a ↔ ¬p ∧ r = .ok a := by
  by_cases hp : p <;> simp [hp]

theorem unless_ok : (if p then r else .error e) = .ok a ↔ p ∧ r = .ok a := by
  by_cases hp : p <;> simp [hp]

end

end AfbBinder.Lib.Checked
