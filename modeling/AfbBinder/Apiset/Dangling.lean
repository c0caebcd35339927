import AfbBinder.Lib.Runs
import AfbBinder.Apiset.Shares

/-! The descriptors that the global list and the classes still have when a set is freed. -/
namespace AfbBinder.Apiset
open Lib.Runs Lib.Chains Lib.Cstrings

/-- Each descriptor of the global list and each provider of a class belongs to a set that is
not freed. -/
structure Unfreed (s : Shared) : Prop where
  allApis : ∀ d ∈ s.allApis, ∃ set, s.Live set ∧ d ∈ (s.sets set).apis
  providers : ∀ c ∈ s.allClasses, ∀ d ∈ (s.classes c).providers,
    ∃ set, s.Live set ∧ d ∈ (s.sets set).apis

/-- The call drops the last reference of no set that holds an api. -/
def FreesEmpty (s : Shared) : Shared.Act → Prop
  | .unref set => 0 < s.owned set → ∀ x ∈ lastRefs s (some set), (s.sets x).apis = []
  | .subsetSet set subset => s.Live set → (∀ x, subset = some x → s.Live x) →
      (∀ x, subset = some x → set ∉ subsets s.toWorld x) →
      ∀ x ∈ lastRefs (relinked s set subset) (s.links set), (s.sets x).apis = []
  | _ => True

section
variable {s t : Shared} {set : SetId}

/-- A freed set holds nothing, so a set that holds a descriptor is not freed. -/
theorem unfreed_iff (h : Shares s none) : Unfreed s ↔ Attached s.toWorld := by
  have hheld : ∀ d, Held s.toWorld d → ∃ set, s.Live set ∧ d ∈ (s.sets set).apis := by
    rintro d ⟨set, hd⟩
    have hne : s.sets set ≠ blank := by
      intro he
      rw [he] at hd
      cases hd
    refine ⟨set, ⟨?_, ?_⟩, hd⟩
    · by_contra hge
      exact hne (h.linked.unmade set (Nat.not_lt.mp hge))
    · cases hf : s.freed set with
      | false => rfl
      | true => exact absurd (h.freed set hf).2 hne
  constructor
  · intro hu
    refine ⟨fun d hd => ?_, fun c hc d hd => ?_⟩
    · obtain ⟨set, -, hs⟩ := hu.allApis d hd
      exact ⟨set, hs⟩
    · obtain ⟨set, -, hs⟩ := hu.providers c hc d hd
      exact ⟨set, hs⟩
  · intro ha
    exact ⟨fun d hd => hheld d (ha.allApis d hd), fun c hc d hd => hheld d (ha.providers c hc d hd)⟩

/-- The freed sets being empty, nothing is lost. -/
theorem attached_frees {gone : List SetId} (h : Attached s.toWorld) (hf : Frees s t gone)
    (hgone : ∀ x ∈ gone, (s.sets x).apis = []) : Attached t.toWorld := by
  have hheld : ∀ d, Held s.toWorld d → Held t.toWorld d := by
    rintro d ⟨x, hd⟩
    have hx : x ∉ gone := by
      intro hx
      rw [hgone x hx] at hd
      cases hd
    refine ⟨x, ?_⟩
    rw [hf.sets, if_neg hx]
    exact hd
  have hrest := hf.rest
  refine ⟨fun d hd => hheld d (h.allApis d ?_), fun c hc d hd => hheld d (h.providers c ?_ d ?_)⟩
  · rw [hrest] at hd
    exact hd
  · rw [hrest] at hc
    exact hc
  · rw [hrest] at hd
    exact hd

/-- A freed set that holds an api leaves it in the global list. -/
theorem not_attached_frees {gone : List SetId} (hl : Linked s.toWorld) (hs : Stocked s.toWorld)
    (hf : Frees s t gone) {x : SetId} (hx : x ∈ gone) (hapis : (s.sets x).apis ≠ []) :
    ¬ Attached t.toWorld := by
  intro h
  obtain ⟨d, hd⟩ := List.exists_mem_of_ne_nil _ hapis
  have hall : d ∈ t.allApis := by
    have hrest := congrArg World.allApis hf.rest
    rw [hrest]
    exact hs.listed x d hd
  obtain ⟨y, hy⟩ := h.allApis d hall
  rw [hf.sets] at hy
  by_cases hyg : y ∈ gone
  · rw [if_pos hyg] at hy
    cases hy
  · rw [if_neg hyg] at hy
    exact hyg (hl.oneSet y x d hy hd ▸ hx)

private theorem attached_relinked {subset : Option SetId} (h : Attached s.toWorld) :
    Attached (relinked s set subset).toWorld :=
  h.same (fun x => (held_setSubset _ _ _ x).1) rfl fun _ hc _ hd => ⟨hc, hd⟩

private theorem apis_relinked (subset : Option SetId) (x : SetId) :
    ((relinked s set subset).sets x).apis = (s.sets x).apis :=
  (held_setSubset s.toWorld set subset x).1

private theorem attached_createSubsetFirst (h : Shares s none) (ha : Attached s.toWorld) (set : SetId) :
    Attached (s.afbApisetCreateSubsetFirst set).toWorld := by
  refine ha.same (fun x => ?_) rfl fun _ hc _ hd => ⟨hc, hd⟩
  exact (held_setSubset _ _ _ x).1.trans ((held_setSubset _ _ _ x).1.trans
    (by rw [sets_create h.linked]))

private theorem attached_create (h : Shares s none) (ha : Attached s.toWorld) :
    Attached (Shared.own s.afbApisetCreate s.setCount 1).toWorld :=
  ha.same (fun x => by rw [← sets_create h.linked]; rfl) rfl fun _ hc _ hd => ⟨hc, hd⟩

private theorem unref_frees (h : Shares s none) (hs : 0 < s.owned set) :
    Frees s ((Shared.own s set (s.owned set - 1)).afbApisetUnref (some set))
      (lastRefs s (some set)) := by
  have hlt := owned_lt h hs
  have hfrees := (unref_spec (shares_disown h hs) fun x hx => Option.some.inj hx ▸ hlt).2
  exact ⟨hfrees.sets, hfrees.rest, hfrees.freed⟩

private theorem attached_step {a : Shared.Act} (h : Shares s none) (ha : Attached s.toWorld)
    (hc : FreesEmpty s a) (hstep : s.step a = some t) : Attached t.toWorld := by
  cases a with
  | create =>
    cases hstep
    exact attached_create h ha
  | createSubsetFirst set =>
    cases set with
    | none =>
      cases hstep
      exact attached_create h ha
    | some set =>
      obtain ⟨-, rfl⟩ := Option.ite_some_none_eq_some.mp hstep
      exact attached_createSubsetFirst h ha set
  | createSubsetLast set =>
    cases set with
    | none =>
      cases hstep
      exact attached_create h ha
    | some set =>
      obtain ⟨-, rfl⟩ := Option.ite_some_none_eq_some.mp hstep
      exact attached_createSubsetFirst h ha _
  | subsetSet set subset =>
    obtain ⟨⟨hs, hsub⟩, rfl⟩ := Option.ite_some_none_eq_some.mp hstep
    rcases subsetSet_cases s set subset with ⟨-, heq⟩ | ⟨hout, heq⟩
    · rw [heq]
      exact ha
    · rw [heq]
      have hlive : ∀ x, subset = some x → s.Live x := fun x hx => by
        subst hx
        simpa using hsub
      have hfrees := (unref_spec (shares_relinked h hs hlive hout)
        fun x hx => h.linked.below set x hx).2
      refine attached_frees (attached_relinked ha) hfrees fun x hx => ?_
      rw [apis_relinked]
      exact hc hs hlive hout x hx
  | addref set =>
    obtain ⟨-, rfl⟩ := Option.ite_some_none_eq_some.mp hstep
    exact ha
  | unref set =>
    obtain ⟨hs, rfl⟩ := Option.ite_some_none_eq_some.mp hstep
    exact attached_frees ha (unref_frees h hs) (hc hs)
  | add set name serviceStart mem =>
    obtain ⟨-, rfl⟩ := Option.ite_some_none_eq_some.mp hstep
    exact settle_keeps ha fun v hv => attached_add ha hv
  | addAlias set name aliasName mem =>
    obtain ⟨-, rfl⟩ := Option.ite_some_none_eq_some.mp hstep
    exact settle_keeps ha fun v hv => attached_addAlias ha hv
  | del set name =>
    obtain ⟨-, rfl⟩ := Option.ite_some_none_eq_some.mp hstep
    exact settle_keeps ha fun v hv => attached_del h.stocked ha hv
  | require set name required mem =>
    obtain ⟨-, rfl⟩ := Option.ite_some_none_eq_some.mp hstep
    exact (quiet_require s.toWorld set name required mem).attached ha
  | requireClass set apiname classname memClass mem =>
    obtain ⟨-, rfl⟩ := Option.ite_some_none_eq_some.mp hstep
    exact (quiet_requireClass s.toWorld set apiname classname memClass mem).attached ha
  | provideClass set apiname classname memClass mem =>
    obtain ⟨-, rfl⟩ := Option.ite_some_none_eq_some.mp hstep
    exact attached_provideClass h.stocked ha set apiname classname memClass mem

private theorem not_freesEmpty {a : Shared.Act} (h : Shares s none) (hc : ¬ FreesEmpty s a) :
    ∃ t, s.step a = some t ∧ ¬ Attached t.toWorld := by
  cases a with
  | unref set =>
    simp only [FreesEmpty, not_forall] at hc
    obtain ⟨hs, x, hx, hapis⟩ := hc
    exact ⟨_, if_pos hs, not_attached_frees h.linked h.stocked (unref_frees h hs) hx hapis⟩
  | subsetSet set subset =>
    simp only [FreesEmpty, not_forall] at hc
    obtain ⟨hs, hsub, hout, x, hx, hapis⟩ := hc
    have hshares := shares_relinked h hs hsub hout
    have hfrees := (unref_spec hshares fun x hx => h.linked.below set x hx).2
    have hall : subset.all (fun x => decide (s.Live x)) = true := by
      cases subset with
      | none => rfl
      | some x => simpa using hsub x rfl
    refine ⟨_, if_pos ⟨hs, hall⟩, ?_⟩
    rcases subsetSet_cases s set subset with ⟨⟨x, hx, hm⟩, -⟩ | ⟨-, heq⟩
    · exact absurd hm (hout x hx)
    · rw [heq]
      refine not_attached_frees hshares.linked hshares.stocked hfrees hx ?_
      rw [apis_relinked]
      exact hapis
  | _ => exact absurd trivial hc

end

/-- In exactly the runs where no set is freed with an api, whatever is linked in the global list
or provides a class belongs to a set that is not freed. -/
theorem unfreed_iff_frees_empty (acts : List Shared.Act) :
    Always Shared.step Unfreed .empty acts ↔ Along Shared.step FreesEmpty .empty acts := by
  have hstart : Attached World.empty := by
    constructor
    · exact fun d hd => absurd hd List.not_mem_nil
    · exact fun c hc => absurd hc List.not_mem_nil
  refine always_iff_along (I := fun s => Shares s none ∧ Attached s.toWorld)
    (fun s hs => (unfreed_iff hs.1).mpr hs.2)
    (fun s a t hs hc ht => ⟨shares_step hs.1 ht, attached_step hs.1 hs.2 hc ht⟩)
    (fun s a hs hc => ?_) ⟨shares_empty, hstart⟩ acts
  obtain ⟨t, ht, hnot⟩ := not_freesEmpty hs.1 hc
  exact ⟨t, ht, fun hu => hnot ((unfreed_iff (shares_step hs.1 ht)).mp hu)⟩

/-- A set is freed with its api. -/
def freedWithApi : List Shared.Act := [.create, .add 0 [97] false true, .unref 0]

theorem freed_descriptor_listed : ¬ Always Shared.step Unfreed .empty freedWithApi := by
  rintro ⟨-, h⟩
  have hlast := (((h _ rfl).2 _ rfl).2 _ rfl).allApis 0 (by decide)
  obtain ⟨set, ⟨hlt, hlive⟩, -⟩ := hlast
  obtain rfl : set = 0 := Nat.lt_one_iff.mp hlt
  cases hlive

end AfbBinder.Apiset
