/-! The connectives of C over checks that may not end: the second check is made only when the
first one does not settle the result. -/
namespace AfbBinder.Lib.Shortcuts

/-- The operator && -/
def both (a b : Option Bool) : Option Bool := a.bind fun r => if r then b else some false

/-- The operator || -/
def either (a b : Option Bool) : Option Bool := a.bind fun r => if r then some true else b

section
variable (a b c : Option Bool)

@[simp] theorem both_true : both (some true) b = b := rfl

@[simp] theorem both_false : both (some false) b = some false := rfl

@[simp] theorem either_true : either (some true) b = some true := rfl

@[simp] theorem either_false : either (some false) b = b := rfl

theorem both_assoc : both (both a b) c = both a (both b c) := by
  cases a with
  | none => rfl
  | some r => cases r <;> rfl

theorem either_assoc : either (either a b) c = either a (either b c) := by
  cases a with
  | none => rfl
  | some r => cases r <;> rfl

theorem both_yes : both a (some true) = a := by
  cases a with
  | none => rfl
  | some r => cases r <;> rfl

theorem either_no : either a (some false) = a := by
  cases a with
  | none => rfl
  | some r => cases r <;> rfl

end

end AfbBinder.Lib.Shortcuts
