import AfbBinder.Lib.Updates
import AfbBinder.Apiset.Links
import AfbBinder.Apiset.Shared

/-! What the sets, the global list and the classes hold, under every call that changes it. -/
namespace AfbBinder.Apiset
open Lib.Chains Lib.Cstrings Lib.Updates

/-- The descriptors of a set are in the global list, an alias is for an api of its set, and no
descriptor is twice in an array or a list. -/
structure Stocked (w : World) : Prop where
  listed : ∀ set, ∀ d ∈ (w.sets set).apis, d ∈ w.allApis
  below : ∀ d ∈ w.allApis, d < w.descCount
  allNodup : w.allApis.Nodup
  apisNodup : ∀ set, (w.sets set).apis.Nodup
  target : ∀ set, ∀ a ∈ (w.sets set).aliases, a.api ∈ (w.sets set).apis
  providersBelow : ∀ c, ∀ d ∈ (w.classes c).providers, d < w.descCount
  providersNodup : ∀ c, (w.classes c).providers.Nodup

/-- A descriptor of a set. -/
def Held (w : World) (d : DescId) : Prop := ∃ set, d ∈ (w.sets set).apis

/-- What is linked in the global list or provides a class is a descriptor of a set. -/
structure Attached (w : World) : Prop where
  allApis : ∀ d ∈ w.allApis, Held w d
  providers : ∀ c ∈ w.allClasses, ∀ d ∈ (w.classes c).providers, Held w d

section
variable {w v : World} {set : SetId} {d : DescId}

theorem stocked_empty : Stocked .empty where
  listed _ _ hd := absurd hd List.not_mem_nil
  below _ hd := absurd hd List.not_mem_nil
  allNodup := List.nodup_nil
  apisNodup _ := List.nodup_nil
  target _ _ ha := absurd ha List.not_mem_nil
  providersBelow _ _ hd := absurd hd List.not_mem_nil
  providersNodup _ := List.nodup_nil

/-- A call that keeps the arrays of the sets, and takes providers away, if any. -/
theorem Stocked.same (h : Stocked w) (hapis : ∀ s, (v.sets s).apis = (w.sets s).apis)
    (haliases : ∀ s, (v.sets s).aliases = (w.sets s).aliases) (hall : v.allApis = w.allApis)
    (hcount : v.descCount = w.descCount)
    (hprov : ∀ c, (v.classes c).providers.Sublist (w.classes c).providers) : Stocked v where
  listed set d hd := hall ▸ h.listed set d (hapis set ▸ hd)
  below d hd := hcount ▸ h.below d (hall ▸ hd)
  allNodup := hall ▸ h.allNodup
  apisNodup set := hapis set ▸ h.apisNodup set
  target set a ha := hapis set ▸ h.target set a (haliases set ▸ ha)
  providersBelow c d hd := hcount ▸ h.providersBelow c d ((hprov c).subset hd)
  providersNodup c := (hprov c).nodup (h.providersNodup c)

theorem Attached.same (h : Attached w) (hapis : ∀ s, (v.sets s).apis = (w.sets s).apis)
    (hall : v.allApis = w.allApis)
    (hprov : ∀ c ∈ v.allClasses, ∀ d ∈ (v.classes c).providers,
      c ∈ w.allClasses ∧ d ∈ (w.classes c).providers) : Attached v where
  allApis d hd := by
    obtain ⟨set, hs⟩ := h.allApis d (hall ▸ hd)
    exact ⟨set, hapis set ▸ hs⟩
  providers c hc d hd := by
    obtain ⟨hc', hd'⟩ := hprov c hc d hd
    obtain ⟨set, hs⟩ := h.providers c hc' d hd'
    exact ⟨set, hapis set ▸ hs⟩

private theorem insertApi_perm (descs : DescId → ApiDesc) (name : Bytes) (d : DescId) (l : List DescId) :
    (insertApi descs name d l).Perm (d :: l) := by
  induction l with
  | nil => exact .refl _
  | cons a l ih =>
    rw [insertApi]
    split
    · exact .refl _
    · exact (ih.cons a).trans (.swap d a l)

/-- The item at the end takes the place of the last occurrence. -/
theorem set_last_perm {l : List Nat} {i : Nat} (hi : i < l.length) :
    ((l.set i (l.getLastD 0)).dropLast).Perm (l.eraseIdx i) := by
  rcases List.eq_nil_or_concat l with rfl | ⟨m, y, rfl⟩
  · exact absurd hi (Nat.not_lt_zero i)
  · rw [List.concat_eq_append, List.getLastD_concat]
    by_cases hm : i < m.length
    · rw [List.set_append_left _ _ hm, List.dropLast_concat, List.eraseIdx_append_of_lt_length hm]
      refine (List.set_perm_cons_eraseIdx hm y).trans ?_
      exact (List.perm_append_singleton y _).symm
    · have hlast : i = m.length := by
        rw [List.concat_eq_append, List.length_append, List.length_singleton] at hi
        omega
      subst hlast
      rw [List.eraseIdx_append_of_length_le (Nat.le_refl _), Nat.sub_self]
      simp

private theorem apiArrayDel_perm {l : List Nat} {x n : Nat} (hn : x ∈ l.take n) :
    (apiArrayDel l x n).Perm (l.erase x) := by
  induction n with
  | zero => simp at hn
  | succ n ih =>
    rw [apiArrayDel]
    split
    · rename_i hx
      obtain ⟨hlt, rfl⟩ := List.getElem?_eq_some_iff.mp hx
      refine (set_last_perm hlt).trans ?_
      have hcons := (List.getElem_cons_eraseIdx_perm hlt).trans
        (List.perm_cons_erase (List.getElem_mem hlt))
      exact hcons.cons_inv
    · rename_i hx
      refine ih ?_
      rw [List.take_add_one] at hn
      rcases List.mem_append.mp hn with hn | hn
      · exact hn
      · exact absurd (Option.mem_toList.mp hn) hx

private theorem apiArrayDel_not_mem {l : List Nat} {x n : Nat} (hx : x ∉ l) : apiArrayDel l x n = l := by
  induction n with
  | zero => rfl
  | succ n ih =>
    rw [apiArrayDel, if_neg fun h => hx (List.mem_of_getElem? h)]
    exact ih

private theorem mem_apiArrayDel {l : List Nat} (hl : l.Nodup) {x y : Nat} :
    y ∈ apiArrayDel l x l.length ↔ y ≠ x ∧ y ∈ l := by
  by_cases hx : x ∈ l
  · rw [(apiArrayDel_perm (by rwa [List.take_length])).mem_iff, hl.mem_erase_iff]
  · rw [apiArrayDel_not_mem hx]
    exact ⟨fun hy => ⟨fun he => hx (he ▸ hy), hy⟩, And.right⟩

private theorem apiArrayDel_nodup {l : List Nat} (hl : l.Nodup) (x : Nat) :
    (apiArrayDel l x l.length).Nodup := by
  by_cases hx : x ∈ l
  · rw [(apiArrayDel_perm (by rwa [List.take_length])).nodup_iff]
    exact hl.erase x
  · rw [apiArrayDel_not_mem hx]
    exact hl

private theorem apis_update (w : World) (set : SetId) {x : ApiSet} (hx : x.apis = (w.sets set).apis)
    (s : SetId) : (Function.update w.sets set x s).apis = (w.sets s).apis :=
  update_field w.sets set s ApiSet.apis hx

private theorem mem_aliases_update {x : ApiSet} {s : SetId} {a : Alias}
    (ha : a ∈ (Function.update w.sets set x s).aliases) :
    s = set ∧ a ∈ x.aliases ∨ s ≠ set ∧ a ∈ (w.sets s).aliases := by
  by_cases hs : s = set
  · subst hs
    rw [Function.update_self] at ha
    exact .inl ⟨rfl, ha⟩
  · rw [Function.update_of_ne hs] at ha
    exact .inr ⟨hs, ha⟩

private theorem find_held (h : Stocked w) {name : Bytes} (hf : w.find set name = some d) : Held w d := by
  rw [World.find, searchrec_walk] at hf
  obtain ⟨s, -, hs⟩ := List.exists_of_findSome?_eq_some hf
  rcases search_sound hs with ⟨hd, -⟩ | ⟨a, ha, -, rfl⟩
  · exact ⟨s, hd⟩
  · exact ⟨s, h.target s a ha⟩

private theorem Held.lt (hd : Held w d) (h : Stocked w) : d < w.descCount := by
  obtain ⟨set, hs⟩ := hd
  exact h.below d (h.listed set d hs)

theorem stocked_add (h : Stocked w) {name : Bytes} {serviceStart mem : Bool}
    (hv : afbApisetAdd w set name serviceStart mem = .ok v) : Stocked v := by
  obtain ⟨-, -, rfl⟩ := add_ok hv
  have hsets : ∀ s, (Function.update w.sets set { w.sets set with
      apis := insertApi w.descs name w.descCount (w.sets set).apis } s).apis.Perm
        (if s = set then w.descCount :: (w.sets s).apis else (w.sets s).apis) := by
    intro s
    by_cases hs : s = set
    · subst hs
      rw [Function.update_self, if_pos rfl]
      exact insertApi_perm _ _ _ _
    · rw [Function.update_of_ne hs, if_neg hs]
  have hfresh : ∀ s, w.descCount ∉ (w.sets s).apis := fun s hd =>
    Nat.lt_irrefl _ (h.below _ (h.listed s _ hd))
  refine ⟨fun s d hd => ?_, fun d hd => ?_, ?_, fun s => ?_, fun s a ha => ?_, ?_, h.providersNodup⟩
  · rw [(hsets s).mem_iff] at hd
    split at hd
    · rcases List.mem_cons.mp hd with rfl | hd
      · exact List.mem_cons_self
      · exact List.mem_cons_of_mem _ (h.listed s d hd)
    · exact List.mem_cons_of_mem _ (h.listed s d hd)
  · rcases List.mem_cons.mp hd with rfl | hd
    · exact Nat.lt_succ_self _
    · exact Nat.lt_succ_of_lt (h.below d hd)
  · exact List.nodup_cons.mpr ⟨fun hd => Nat.lt_irrefl _ (h.below _ hd), h.allNodup⟩
  · rw [(hsets s).nodup_iff]
    split
    · exact List.nodup_cons.mpr ⟨hfresh s, h.apisNodup s⟩
    · exact h.apisNodup s
  · have hold : a ∈ (w.sets s).aliases :=
      update_field w.sets set s ApiSet.aliases (v := { w.sets set with
        apis := insertApi w.descs name w.descCount (w.sets set).apis }) rfl ▸ ha
    rw [(hsets s).mem_iff]
    split
    · exact List.mem_cons_of_mem _ (h.target s a hold)
    · exact h.target s a hold
  · exact fun c d hd => Nat.lt_succ_of_lt (h.providersBelow c d hd)

theorem stocked_addAlias (h : Stocked w) {name aliasName : Bytes} {mem : Bool}
    (hv : afbApisetAddAlias w set name aliasName mem = .ok v) : Stocked v := by
  obtain ⟨-, -, api, hs, rfl⟩ := addAlias_ok hv
  have hapis := apis_update w set (x := { w.sets set with
    aliases := insertAlias ⟨api, aliasName⟩ (w.sets set).aliases }) rfl
  have hin : api ∈ (w.sets set).apis := by
    rcases search_sound hs with ⟨hd, -⟩ | ⟨a, ha, -, rfl⟩
    · exact hd
    · exact h.target set a ha
  refine ⟨fun s d hd => h.listed s d (hapis s ▸ hd), h.below, h.allNodup,
    fun s => (hapis s).symm ▸ h.apisNodup s, fun s a ha => ?_, h.providersBelow, h.providersNodup⟩
  rw [hapis s]
  rcases mem_aliases_update ha with ⟨rfl, ha⟩ | ⟨-, ha⟩
  · rcases mem_insertAlias.mp ha with rfl | ha
    · exact hin
    · exact h.target s a ha
  · exact h.target s a ha

/-- The two ways a deletion succeeds. -/
theorem del_ok {name : Bytes} (hv : afbApisetDel w set name = .ok v) :
    (∃ rest : List Alias, rest.Sublist (w.sets set).aliases ∧
      v = { w with sets := Function.update w.sets set { w.sets set with aliases := rest } }) ∨
    ∃ d ∈ (w.sets set).apis, v = { w with
        classes := fun c => if c ∈ w.allClasses then
          { w.classes c with
            providers := apiArrayDel (w.classes c).providers d (w.classes c).providers.length }
          else w.classes c
        allApis := w.allApis.erase d
        sets := Function.update w.sets set { w.sets set with
          aliases := (w.sets set).aliases.filter (·.api ≠ d)
          apis := (w.sets set).apis.erase d } } := by
  unfold afbApisetDel at hv
  split at hv
  · rename_i rest hrest
    cases hv
    exact .inl ⟨rest, delAlias_sublist hrest, rfl⟩
  · split at hv
    · cases hv
    · rename_i d hd
      cases hv
      exact .inr ⟨d, findApi_mem hd, rfl⟩

/-- The deleted descriptor leaves the set; the others stay where they are. -/
theorem mem_del {x : ApiSet} (h : Stocked w) (hx : x.apis = (w.sets set).apis.erase d)
    (s : SetId) (e : DescId) : e ∈ (Function.update w.sets set x s).apis ↔
      (s = set → e ≠ d) ∧ e ∈ (w.sets s).apis := by
  by_cases hs : s = set
  · subst hs
    rw [Function.update_self, hx, (h.apisNodup s).mem_erase_iff]
    simp
  · rw [Function.update_of_ne hs]
    simp [hs]

private theorem mem_providers_del (h : Stocked w) (d : DescId) (c : ClassId) (e : DescId) :
    e ∈ (if c ∈ w.allClasses then { w.classes c with
        providers := apiArrayDel (w.classes c).providers d (w.classes c).providers.length }
      else w.classes c).providers ↔ (c ∈ w.allClasses → e ≠ d) ∧ e ∈ (w.classes c).providers := by
  by_cases hc : c ∈ w.allClasses
  · rw [if_pos hc, mem_apiArrayDel (h.providersNodup c)]
    simp [hc]
  · rw [if_neg hc]
    simp [hc]

theorem stocked_del (hw : Linked w) (h : Stocked w) {name : Bytes}
    (hv : afbApisetDel w set name = .ok v) : Stocked v := by
  rcases del_ok hv with ⟨rest, hrest, rfl⟩ | ⟨d, hd, rfl⟩
  · have hapis := apis_update w set (x := { w.sets set with aliases := rest }) rfl
    refine ⟨fun s d hd => h.listed s d (hapis s ▸ hd), h.below, h.allNodup,
      fun s => (hapis s).symm ▸ h.apisNodup s, fun s a ha => ?_, h.providersBelow, h.providersNodup⟩
    rw [hapis s]
    rcases mem_aliases_update ha with ⟨rfl, ha⟩ | ⟨-, ha⟩
    · exact h.target s a (hrest.subset ha)
    · exact h.target s a ha
  · have hmem := mem_del (d := d) h (x := { w.sets set with
      aliases := (w.sets set).aliases.filter (·.api ≠ d)
      apis := (w.sets set).apis.erase d }) rfl
    constructor
    case listed =>
      intro s e he
      obtain ⟨hne, he⟩ := (hmem s e).mp he
      refine h.allNodup.mem_erase_iff.mpr ⟨fun hed => ?_, h.listed s e he⟩
      exact hne (hw.oneSet s set e he (hed ▸ hd)) hed
    case below => exact fun e he => h.below e (List.mem_of_mem_erase he)
    case allNodup => exact h.allNodup.erase d
    case apisNodup =>
      intro s
      by_cases hs : s = set
      · subst hs
        simp only [Function.update_self]
        exact (h.apisNodup s).erase d
      · simp only [Function.update_of_ne hs]
        exact h.apisNodup s
    case target =>
      intro s a ha
      rw [hmem]
      rcases mem_aliases_update ha with ⟨rfl, ha⟩ | ⟨hs, ha⟩
      · obtain ⟨ha, hne⟩ := List.mem_filter.mp ha
        exact ⟨fun _ => by simpa using hne, h.target s a ha⟩
      · exact ⟨fun he => absurd he hs, h.target s a ha⟩
    case providersBelow =>
      exact fun c e he => h.providersBelow c e ((mem_providers_del h d c e).mp he).2
    case providersNodup =>
      intro c
      dsimp only
      split
      · exact apiArrayDel_nodup (h.providersNodup c) d
      · exact h.providersNodup c

theorem attached_del (hs : Stocked w) (h : Attached w) {name : Bytes}
    (hv : afbApisetDel w set name = .ok v) : Attached v := by
  rcases del_ok hv with ⟨rest, -, rfl⟩ | ⟨d, hd, rfl⟩
  · exact h.same (apis_update w set (x := { w.sets set with aliases := rest }) rfl) rfl
      fun c hc e he => ⟨hc, he⟩
  · have hmem := mem_del (d := d) hs (x := { w.sets set with
      aliases := (w.sets set).aliases.filter (·.api ≠ d)
      apis := (w.sets set).apis.erase d }) rfl
    constructor
    · intro e he
      obtain ⟨hne, he⟩ := hs.allNodup.mem_erase_iff.mp he
      obtain ⟨s, hse⟩ := h.allApis e he
      exact ⟨s, (hmem s e).mpr ⟨fun _ => hne, hse⟩⟩
    · intro c hc e he
      obtain ⟨hne, he⟩ := (mem_providers_del hs d c e).mp he
      obtain ⟨s, hse⟩ := h.providers c hc e he
      exact ⟨s, (hmem s e).mpr ⟨fun _ => hne hc, hse⟩⟩

theorem attached_add (h : Attached w) {name : Bytes} {serviceStart mem : Bool}
    (hv : afbApisetAdd w set name serviceStart mem = .ok v) : Attached v := by
  obtain ⟨-, -, rfl⟩ := add_ok hv
  have hold : ∀ d, Held w d → ∃ s, d ∈ (Function.update w.sets set { w.sets set with
      apis := insertApi w.descs name w.descCount (w.sets set).apis } s).apis := by
    rintro d ⟨s, hs⟩
    refine ⟨s, ?_⟩
    by_cases he : s = set
    · subst he
      simp [mem_insertApi, hs]
    · simp [he, hs]
  refine ⟨fun d hd => ?_, fun c hc d hd => hold d (h.providers c hc d hd)⟩
  rcases List.mem_cons.mp hd with rfl | hd
  · refine ⟨set, ?_⟩
    simp [mem_insertApi]
  · exact hold d (h.allApis d hd)

theorem attached_addAlias (h : Attached w) {name aliasName : Bytes} {mem : Bool}
    (hv : afbApisetAddAlias w set name aliasName mem = .ok v) : Attached v := by
  obtain ⟨-, -, api, -, rfl⟩ := addAlias_ok hv
  exact h.same (apis_update w set (x := { w.sets set with
    aliases := insertAlias ⟨api, aliasName⟩ (w.sets set).aliases }) rfl) rfl
    fun c hc e he => ⟨hc, he⟩

/-- A call that keeps the sets and the global list; a class that it creates has no provider. -/
structure Quiet (w v : World) : Prop where
  sets : v.sets = w.sets
  setCount : v.setCount = w.setCount
  allApis : v.allApis = w.allApis
  descCount : v.descCount = w.descCount
  providers : ∀ c, (v.classes c).providers.Sublist (w.classes c).providers
  classes : ∀ c ∈ v.allClasses, ∀ d ∈ (v.classes c).providers, c ∈ w.allClasses

private theorem Quiet.refl (w : World) : Quiet w w :=
  ⟨rfl, rfl, rfl, rfl, fun _ => .refl _, fun _ hc _ _ => hc⟩

theorem Quiet.linked (h : Quiet w v) (hw : Linked w) : Linked v := by
  refine hw.fewer ?_ h.setCount h.descCount (fun s _ => by rw [h.sets]) fun s => ?_
  · unfold World.links
    rw [h.sets]
  · rw [h.sets]
    exact List.Subset.refl _

theorem Quiet.stocked (h : Quiet w v) (hs : Stocked w) : Stocked v :=
  hs.same (fun s => by rw [h.sets]) (fun s => by rw [h.sets]) h.allApis h.descCount h.providers

theorem Quiet.attached (h : Quiet w v) (ha : Attached w) : Attached v :=
  ha.same (fun s => by rw [h.sets]) h.allApis fun c hc d hd =>
    ⟨h.classes c hc d hd, (h.providers c).subset hd⟩

private theorem quiet_classSearch (w : World) (name : Bytes) (mem : Bool) :
    Quiet w (classSearchCreate w name mem).2 := by
  unfold classSearchCreate
  split
  · exact .refl w
  split
  · refine ⟨rfl, rfl, rfl, rfl, fun c => ?_, fun c hc d hd => ?_⟩
    · by_cases hc : c = w.classCount
      · subst hc
        simp
      · simp [hc]
    · by_cases hc' : c = w.classCount
      · subst hc'
        simp at hd
      · exact (List.mem_cons.mp hc).resolve_left hc'
  · exact .refl w

theorem quiet_require (w : World) (set : SetId) (name required : Bytes) (mem : Bool) :
    Quiet w (afbApisetRequire w set name required mem) := by
  unfold afbApisetRequire
  split
  · exact .refl w
  split
  · exact ⟨rfl, rfl, rfl, rfl, fun _ => .refl _, fun _ hc _ _ => hc⟩
  · exact .refl w

theorem quiet_requireClass (w : World) (set : SetId) (apiname classname : Bytes)
    (memClass mem : Bool) : Quiet w (afbApisetRequireClass w set apiname classname memClass mem) := by
  have h := quiet_classSearch w classname memClass
  unfold afbApisetRequireClass
  generalize classSearchCreate w classname memClass = r at h
  obtain ⟨c, w'⟩ := r
  split
  · rename_i a c _ _ heq
    cases heq
    split
    · exact ⟨h.sets, h.setCount, h.allApis, h.descCount, h.providers, h.classes⟩
    · exact h
  · rename_i heq _
    cases heq
    exact h

theorem provideClass_cases (w : World) (set : SetId) (apiname classname : Bytes)
    (memClass mem : Bool) : ∃ w', Quiet w w' ∧
      (afbApisetProvideClass w set apiname classname memClass mem = w' ∨ ∃ a c,
        w.find set apiname = some a ∧ a ∉ (w'.classes c).providers ∧
          afbApisetProvideClass w set apiname classname memClass mem = { w' with
            classes := Function.update w'.classes c { w'.classes c with
              providers := (w'.classes c).providers ++ [a] } }) := by
  have h := quiet_classSearch w classname memClass
  unfold afbApisetProvideClass
  generalize classSearchCreate w classname memClass = r at h
  obtain ⟨c, w'⟩ := r
  refine ⟨w', h, ?_⟩
  split
  · rename_i a c' w'' hf heq
    cases heq
    rw [apiArrayAdd]
    by_cases hin : a ∈ (w'.classes c').providers
    · rw [if_pos hin]
      refine .inl ?_
      simp
    · rw [if_neg hin]
      cases mem with
      | false => exact .inl rfl
      | true => exact .inr ⟨a, c', hf, hin, rfl⟩
  · rename_i heq _
    cases heq
    exact .inl rfl

theorem linked_provideClass (hw : Linked w) (set : SetId) (apiname classname : Bytes)
    (memClass mem : Bool) :
    Linked (afbApisetProvideClass w set apiname classname memClass mem) := by
  obtain ⟨w', hq, heq | ⟨a, c, -, -, heq⟩⟩ := provideClass_cases w set apiname classname memClass mem
  · rw [heq]
    exact hq.linked hw
  · rw [heq]
    exact (hq.linked hw).fewer rfl rfl rfl (fun _ _ => rfl) fun _ => List.Subset.refl _

/-- The provider that is added is a descriptor of a set, and no provider yet. -/
theorem stocked_provideClass (h : Stocked w) (set : SetId) (apiname classname : Bytes)
    (memClass mem : Bool) :
    Stocked (afbApisetProvideClass w set apiname classname memClass mem) := by
  obtain ⟨w', hq, heq | ⟨a, c, hf, hnew, heq⟩⟩ :=
    provideClass_cases w set apiname classname memClass mem
  · rw [heq]
    exact hq.stocked h
  · rw [heq]
    have h' := hq.stocked h
    have hlt : a < w'.descCount := hq.descCount ▸ (find_held h hf).lt h
    refine ⟨h'.listed, h'.below, h'.allNodup, h'.apisNodup, h'.target, fun x d hd => ?_, fun x => ?_⟩
    · by_cases hx : x = c
      · subst hx
        simp only [Function.update_self, List.mem_append, List.mem_singleton] at hd
        rcases hd with hd | rfl
        · exact h'.providersBelow x d hd
        · exact hlt
      · simp only [Function.update_of_ne hx] at hd
        exact h'.providersBelow x d hd
    · by_cases hx : x = c
      · subst hx
        simp only [Function.update_self]
        refine List.nodup_append.mpr ⟨h'.providersNodup x, List.nodup_singleton a, fun y hy z hz => ?_⟩
        rw [List.mem_singleton.mp hz]
        rintro rfl
        exact hnew hy
      · simp only [Function.update_of_ne hx]
        exact h'.providersNodup x

theorem attached_provideClass (h : Stocked w) (ha : Attached w) (set : SetId)
    (apiname classname : Bytes) (memClass mem : Bool) :
    Attached (afbApisetProvideClass w set apiname classname memClass mem) := by
  obtain ⟨w', hq, heq | ⟨a, c, hf, -, heq⟩⟩ :=
    provideClass_cases w set apiname classname memClass mem
  · rw [heq]
    exact hq.attached ha
  · rw [heq]
    have ha' := hq.attached ha
    refine ⟨ha'.allApis, fun x hx d hd => ?_⟩
    by_cases hxc : x = c
    · subst hxc
      simp only [Function.update_self, List.mem_append, List.mem_singleton] at hd
      rcases hd with hd | rfl
      · exact ha'.providers x hx d hd
      · obtain ⟨s, hs⟩ := find_held h hf
        refine ⟨s, ?_⟩
        change d ∈ (w'.sets s).apis
        rw [hq.sets]
        exact hs
    · simp only [Function.update_of_ne hxc] at hd
      exact ha'.providers x hx d hd

/-- A call that links sets or creates one keeps what the sets hold. -/
theorem held_setSubset (w : World) (set : SetId) (subset : Option SetId) (s : SetId) :
    ((setSubset w set subset).sets s).apis = (w.sets s).apis ∧
      ((setSubset w set subset).sets s).aliases = (w.sets s).aliases :=
  ⟨update_field w.sets set s ApiSet.apis rfl, update_field w.sets set s ApiSet.aliases rfl⟩

end

end AfbBinder.Apiset
