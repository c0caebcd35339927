import Mathlib.Data.List.Basic
import Mathlib.Tactic.ByContra

/-! Runs of a partial step function: a schedule is a list of actions, and a run
exists when every action of the schedule is enabled in the state it meets. -/
namespace AfbBinder.Lib.Runs
variable {σ ι : Type*} {step : σ → ι → Option σ}

/-- The state reached by a schedule, none when some action is not enabled. -/
def exec (step : σ → ι → Option σ) : σ → List ι → Option σ
  | s, [] => some s
  | s, i :: is => (step s i).bind fun t => exec step t is

/-- Every action of the schedule meets the condition in the state it is taken from. -/
def Along (step : σ → ι → Option σ) (C : σ → ι → Prop) : σ → List ι → Prop
  | _, [] => True
  | s, i :: is => C s i ∧ ∀ t, step s i = some t → Along step C t is

instance decidableAlong {C : σ → ι → Prop} [∀ s i, Decidable (C s i)] :
    ∀ s is, Decidable (Along step C s is)
  | _, [] => isTrue trivial
  | s, i :: is =>
    match h : step s i with
    | none => decidable_of_iff (C s i) ⟨fun hc => ⟨hc, fun _ ht => by simp [h] at ht⟩, And.left⟩
    | some t =>
      have : Decidable (Along step C t is) := decidableAlong t is
      decidable_of_iff (C s i ∧ Along step C t is)
        ⟨fun ⟨hc, ha⟩ => ⟨hc, fun _ ht => Option.some.inj (h.symm.trans ht) ▸ ha⟩,
          fun ⟨hc, ha⟩ => ⟨hc, ha t h⟩⟩

theorem Along.mono {C D : σ → ι → Prop} (h : ∀ s i, C s i → D s i) {s : σ} {is : List ι}
    (hc : Along step C s is) : Along step D s is := by
  induction is generalizing s with
  | nil => trivial
  | cons i is ih => exact ⟨h s i hc.1, fun t ht => ih (hc.2 t ht)⟩

/-- A condition on the actions alone. -/
theorem along_of_forall {C : ι → Prop} {is : List ι} (h : ∀ i ∈ is, C i) (s : σ) :
    Along step (fun _ i => C i) s is := by
  induction is generalizing s with
  | nil => trivial
  | cons i is ih =>
    rw [List.forall_mem_cons] at h
    exact ⟨h.1, fun t _ => ih h.2 t⟩

theorem along_cons {C : σ → ι → Prop} {s t : σ} {i : ι} {is : List ι} (h : step s i = some t)
    (hc : C s i) (hrest : Along step C t is) : Along step C s (i :: is) :=
  ⟨hc, fun _ hu => Option.some.inj (h.symm.trans hu) ▸ hrest⟩

/-- Every state the schedule goes through satisfies the predicate. -/
def Always (step : σ → ι → Option σ) (P : σ → Prop) : σ → List ι → Prop
  | s, [] => P s
  | s, i :: is => P s ∧ ∀ t, step s i = some t → Always step P t is

@[simp] theorem exec_nil (s : σ) : exec step s [] = some s := rfl

theorem exec_cons {s u : σ} {i : ι} {is : List ι} :
    exec step s (i :: is) = some u ↔ ∃ t, step s i = some t ∧ exec step t is = some u :=
  Option.bind_eq_some_iff

theorem exec_append {s t : σ} {is js : List ι} (h : exec step s is = some t) :
    exec step s (is ++ js) = exec step t js := by
  induction is generalizing s with
  | nil =>
    rw [exec_nil, Option.some.injEq] at h
    rw [h, List.nil_append]
  | cons i is ih =>
    obtain ⟨u, hu, ht⟩ := exec_cons.mp h
    rw [List.cons_append, exec, hu]
    exact ih ht

/-- What holds along a schedule holds of an action taken after its first ones. -/
theorem along_at {C : σ → ι → Prop} {s t : σ} {is js : List ι} {i : ι}
    (hc : Along step C s (is ++ i :: js)) (h : exec step s is = some t) : C t i := by
  induction is generalizing s with
  | nil =>
    rw [exec_nil, Option.some.injEq] at h
    exact h ▸ hc.1
  | cons i is ih =>
    obtain ⟨u, hu, ht⟩ := exec_cons.mp h
    exact ih (hc.2 u hu) ht

/-- What every enabled action keeps under its condition, a guarded run keeps. -/
theorem exec_keeps_along {C : σ → ι → Prop} {I : σ → Prop}
    (hstep : ∀ s i t, I s → C s i → step s i = some t → I t)
    {s u : σ} {is : List ι} (hs : I s) (hc : Along step C s is)
    (h : exec step s is = some u) : I u := by
  induction is generalizing s with
  | nil =>
    rw [exec_nil, Option.some.injEq] at h
    exact h ▸ hs
  | cons i is ih =>
    obtain ⟨t, ht, hu⟩ := exec_cons.mp h
    exact ih (hstep s i t hs hc.1 ht) (hc.2 t ht) hu

/-- What the invariant and the condition give holds all along a guarded run. -/
theorem along_keeps {C P : σ → ι → Prop} {I : σ → Prop} (hp : ∀ s i, I s → C s i → P s i)
    (hstep : ∀ s i t, I s → C s i → step s i = some t → I t) {s : σ} {is : List ι} (hs : I s)
    (hc : Along step C s is) : Along step P s is := by
  induction is generalizing s with
  | nil => trivial
  | cons i is ih => exact ⟨hp s i hs hc.1, fun t ht => ih (hstep s i t hs hc.1 ht) (hc.2 t ht)⟩

/-- When each action is enabled under its condition, a guarded run exists. -/
theorem exec_ends_along {C : σ → ι → Prop} {I : σ → Prop}
    (hstep : ∀ s i, I s → C s i → ∃ t, step s i = some t ∧ I t)
    {s : σ} {is : List ι} (hs : I s) (hc : Along step C s is) : ∃ u, exec step s is = some u ∧ I u := by
  induction is generalizing s with
  | nil => exact ⟨s, rfl, hs⟩
  | cons i is ih =>
    obtain ⟨t, ht, hi⟩ := hstep s i hs hc.1
    obtain ⟨u, hu, hi'⟩ := ih hi (hc.2 t ht)
    exact ⟨u, exec_cons.mpr ⟨t, ht, hu⟩, hi'⟩

/-- What every enabled action keeps, every run keeps. -/
theorem exec_keeps {I : σ → Prop} (hstep : ∀ s i t, I s → step s i = some t → I t)
    {s u : σ} {is : List ι} (hs : I s) (h : exec step s is = some u) : I u := by
  induction is generalizing s with
  | nil =>
    rw [exec_nil, Option.some.injEq] at h
    exact h ▸ hs
  | cons i is ih =>
    obtain ⟨t, ht, hu⟩ := exec_cons.mp h
    exact ih (hstep s i t hs ht) hu

/-- What an invariant gives holds in every state of every run. -/
theorem always_keeps {P I : σ → Prop} (hp : ∀ s, I s → P s)
    (hstep : ∀ s i t, I s → step s i = some t → I t) {s : σ} (hs : I s) (is : List ι) :
    Always step P s is := by
  induction is generalizing s with
  | nil => exact hp s hs
  | cons i is ih => exact ⟨hp s hs, fun t ht => ih (hstep s i t hs ht)⟩

/-- Two conditions that agree under an invariant hold along the same schedules. -/
theorem along_iff {C D : σ → ι → Prop} {I : σ → Prop}
    (hstep : ∀ s i t, I s → step s i = some t → I t) (h : ∀ s i, I s → (C s i ↔ D s i))
    {s : σ} (hs : I s) (is : List ι) : Along step C s is ↔ Along step D s is := by
  induction is generalizing s with
  | nil => exact Iff.rfl
  | cons i is ih =>
    exact and_congr (h s i hs) (forall_congr' fun t => forall_congr' fun ht =>
      ih (hstep s i t hs ht))

/-- When the invariant gives the property, survives the guarded actions, and any other
action breaks the property, the runs with the property are the guarded ones. -/
theorem always_iff_along {P I : σ → Prop} {C : σ → ι → Prop} (hp : ∀ s, I s → P s)
    (hkeep : ∀ s i t, I s → C s i → step s i = some t → I t)
    (hbreak : ∀ s i, I s → ¬ C s i → ∃ t, step s i = some t ∧ ¬ P t)
    {s : σ} (hs : I s) (is : List ι) : Always step P s is ↔ Along step C s is := by
  induction is generalizing s with
  | nil => exact iff_of_true (hp s hs) trivial
  | cons i is ih =>
    constructor
    · rintro ⟨-, h⟩
      have hc : C s i := by
        by_contra hc
        obtain ⟨t, ht, hn⟩ := hbreak s i hs hc
        have := h t ht
        cases is with
        | nil => exact hn this
        | cons j is => exact hn this.1
      exact ⟨hc, fun t ht => (ih (hkeep s i t hs hc ht)).mp (h t ht)⟩
    · rintro ⟨hc, h⟩
      exact ⟨hp s hs, fun t ht => (ih (hkeep s i t hs hc ht)).mpr (h t ht)⟩

/-- When the guarded actions keep one invariant, and any other action leads to a second one that all
actions keep, the invariant where a run ends tells whether the run was guarded. -/
theorem along_or_broken {C : σ → ι → Prop} {I J : σ → Prop}
    (hkeep : ∀ s i t, I s → C s i → step s i = some t → I t)
    (hbreak : ∀ s i t, I s → ¬ C s i → step s i = some t → J t)
    (hstay : ∀ s i t, J s → step s i = some t → J t) {s u : σ} {is : List ι} (hs : I s)
    (h : exec step s is = some u) : Along step C s is ∧ I u ∨ ¬ Along step C s is ∧ J u := by
  induction is generalizing s with
  | nil =>
    rw [exec_nil, Option.some.injEq] at h
    exact .inl ⟨trivial, h ▸ hs⟩
  | cons i is ih =>
    obtain ⟨t, ht, hu⟩ := exec_cons.mp h
    by_cases hc : C s i
    · rcases ih (hkeep s i t hs hc ht) hu with ⟨hrest, hi⟩ | ⟨hrest, hj⟩
      · exact .inl ⟨along_cons ht hc hrest, hi⟩
      · exact .inr ⟨fun halong => hrest (halong.2 t ht), hj⟩
    · exact .inr ⟨fun halong => hc halong.1, exec_keeps hstay (hbreak s i t hs hc ht) hu⟩

/-- A fold that may fail is a run. -/
theorem foldlM_eq_exec (s : σ) (is : List ι) : is.foldlM step s = exec step s is := by
  induction is generalizing s with
  | nil => rfl
  | cons i is ih =>
    rw [List.foldlM_cons, exec]
    exact congrArg ((step s i).bind ·) (funext ih)

theorem foldlM_keeps {I : σ → Prop} (hstep : ∀ s i t, I s → step s i = some t → I t) {s t : σ}
    {is : List ι} (hs : I s) (h : is.foldlM step s = some t) : I t := by
  rw [foldlM_eq_exec] at h
  exact exec_keeps hstep hs h

/-- When every action is enabled wherever the invariant holds, every schedule has a run. -/
theorem foldlM_isSome {I : σ → Prop} (hsome : ∀ s i, I s → (step s i).isSome)
    (hstep : ∀ s i t, I s → step s i = some t → I t) (is : List ι) {s : σ} (hs : I s) :
    (is.foldlM step s).isSome := by
  induction is generalizing s with
  | nil => rfl
  | cons i is ih =>
    obtain ⟨t, ht⟩ := Option.isSome_iff_exists.mp (hsome s i hs)
    rw [List.foldlM_cons, ht]
    exact ih (hstep s i t hs ht)

theorem foldl_keeps {f : σ → ι → σ} {I : σ → Prop} (hstep : ∀ s i, I s → I (f s i)) (is : List ι)
    {s : σ} (hs : I s) : I (is.foldl f s) := by
  induction is generalizing s with
  | nil => exact hs
  | cons i is ih => exact ih (hstep s i hs)

end AfbBinder.Lib.Runs
