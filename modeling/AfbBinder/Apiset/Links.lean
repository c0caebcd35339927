import AfbBinder.Apiset.Names

/-! The links between a set and its subset, under every call that builds sets. -/
namespace AfbBinder.Apiset
open Lib.Chains Lib.Cstrings

abbrev World.links (w : World) (set : SetId) : Option SetId := (w.sets set).subset

/-- Chains end, and a descriptor belongs to one set. -/
structure Linked (w : World) : Prop where
  chains : ∀ set, ∃ l, Chain w.links set l
  below : ∀ set sub, w.links set = some sub → sub < w.setCount
  unmade : ∀ set, w.setCount ≤ set → w.sets set = ⟨[], [], none⟩
  allocated : ∀ set, ∀ d ∈ (w.sets set).apis, d < w.descCount
  oneSet : ∀ set set' d, d ∈ (w.sets set).apis → d ∈ (w.sets set').apis → set = set'

section
variable {w v : World} {set : SetId} {l : List SetId}

theorem chain_below (hw : Linked w) (h : Chain w.links set l) (hs : set < w.setCount) :
    ∀ s ∈ l, s < w.setCount := by
  induction h with
  | last => exact fun s hm => List.mem_singleton.mp hm ▸ hs
  | link hn _ ih =>
    intro s hm
    rcases List.mem_cons.mp hm with rfl | hm
    · exact hs
    · exact ih (hw.below _ _ hn) s hm

/-- The bound on the loops is never reached. -/
theorem subsets_eq (hw : Linked w) (h : Chain w.links set l) : subsets w set = l := by
  refine h.walk_eq ?_
  cases h with
  | last => simp
  | link hn hl =>
    simpa using length_le_of_nodup hl.nodup (chain_below hw hl (hw.below _ _ hn))

theorem searchrec_walk (descs : DescId → ApiDesc) (sets : SetId → ApiSet) (name : Bytes)
    (fuel : Nat) (set : SetId) :
    searchrec descs sets name fuel set =
      (walk (fun s => (sets s).subset) fuel set).findSome? fun s => search descs (sets s) name := by
  induction fuel generalizing set with
  | zero =>
    rw [searchrec, walk, List.findSome?_cons]
    cases search descs (sets set) name <;> rfl
  | succ fuel ih =>
    rw [searchrec, walk, List.findSome?_cons]
    cases search descs (sets set) name with
    | some d => rfl
    | none =>
      cases hs : (sets set).subset with
      | none => rfl
      | some sub => exact ih sub

theorem linked_empty : Linked .empty where
  chains set := ⟨[set], .last rfl⟩
  below := by rintro _ _ ⟨⟩
  unmade _ _ := rfl
  allocated _ _ hd := absurd hd List.not_mem_nil
  oneSet _ _ _ hd := absurd hd List.not_mem_nil

theorem sets_create (hw : Linked w) : (afbApisetCreate w).sets = w.sets := by
  rw [afbApisetCreate, ← hw.unmade w.setCount (Nat.le_refl _), Function.update_eq_self]

theorem links_create (hw : Linked w) : (afbApisetCreate w).links = w.links := by
  unfold World.links
  rw [sets_create hw]

theorem linked_create (hw : Linked w) : Linked (afbApisetCreate w) := by
  have hsets := sets_create hw
  refine ⟨?_, fun set sub hs => ?_, fun set hs => ?_, ?_, ?_⟩
  · unfold World.links
    rw [hsets]
    exact hw.chains
  · unfold World.links at hs
    rw [hsets] at hs
    exact Nat.lt_succ_of_lt (hw.below set sub hs)
  · rw [hsets]
    exact hw.unmade set (Nat.le_of_succ_le hs)
  · rw [hsets]
    exact hw.allocated
  · rw [hsets]
    exact hw.oneSet

/-- A call that keeps the links and takes apis away, if any. -/
theorem Linked.fewer (hw : Linked w) (hlinks : v.links = w.links)
    (hcount : v.setCount = w.setCount) (hdescs : v.descCount = w.descCount)
    (hunmade : ∀ s, w.setCount ≤ s → v.sets s = w.sets s)
    (hapis : ∀ s, (v.sets s).apis ⊆ (w.sets s).apis) : Linked v where
  chains := hlinks ▸ hw.chains
  below set sub hs := hcount ▸ hw.below set sub (hlinks ▸ hs)
  unmade set hs := (hunmade set (hcount ▸ hs)).trans (hw.unmade set (hcount ▸ hs))
  allocated set d hd := hdescs ▸ hw.allocated set d (hapis set hd)
  oneSet set set' d hd hd' := hw.oneSet set set' d (hapis set hd) (hapis set' hd')

/-- A set is rewritten with its link: the others and the links stay. -/
theorem links_update (w : World) (set : SetId) {x : ApiSet}
    (hx : x.subset = (w.sets set).subset) :
    (World.links { w with sets := Function.update w.sets set x }) = w.links := by
  funext s
  by_cases hs : s = set
  · subst hs
    simp [World.links, hx]
  · simp [World.links, hs]

theorem linked_add (hw : Linked w) {name : Bytes} {serviceStart mem : Bool}
    (hs : set < w.setCount) (h : afbApisetAdd w set name serviceStart mem = .ok v) :
    Linked v := by
  obtain ⟨-, -, rfl⟩ := add_ok h
  have hlinks := links_update w set
    (x := { w.sets set with apis := insertApi w.descs name w.descCount (w.sets set).apis }) rfl
  refine ⟨?_, ?_, fun s hle => ?_, fun s d hd => ?_, fun s s' d hd hd' => ?_⟩
  · exact hlinks ▸ hw.chains
  · exact fun s sub hl => hw.below s sub (hlinks ▸ hl)
  · have hne : s ≠ set := fun he => absurd hs (Nat.not_lt.mpr (he ▸ hle))
    exact (Function.update_of_ne hne _ _).trans (hw.unmade s hle)
  · rcases mem_apis_add hd with ⟨-, rfl⟩ | hd
    · exact Nat.lt_succ_self _
    · exact Nat.lt_succ_of_lt (hw.allocated s d hd)
  · -- the new descriptor is above every other one
    rcases mem_apis_add hd with ⟨rfl, rfl⟩ | hold <;> rcases mem_apis_add hd' with ⟨rfl, he⟩ | hold'
    · rfl
    · exact absurd (hw.allocated s' _ hold') (Nat.lt_irrefl _)
    · exact absurd (hw.allocated s _ hold) (he ▸ Nat.lt_irrefl _)
    · exact hw.oneSet s s' d hold hold'

theorem linked_rewrite (hw : Linked w) {x : ApiSet} (hs : set < w.setCount)
    (hx : x.subset = (w.sets set).subset) (hapis : x.apis ⊆ (w.sets set).apis)
    (hsets : v.sets = Function.update w.sets set x) (hcount : v.setCount = w.setCount)
    (hdescs : v.descCount = w.descCount) : Linked v := by
  refine hw.fewer ?_ hcount hdescs (fun s hle => ?_) fun s => ?_
  · rw [← links_update w set hx]
    unfold World.links
    rw [hsets]
  · rw [hsets]
    exact Function.update_of_ne (fun he : s = set => absurd hs (Nat.not_lt.mpr (he ▸ hle))) _ _
  · rw [hsets]
    by_cases he : s = set
    · subst he
      simpa using hapis
    · simp [he]

theorem linked_addAlias (hw : Linked w) {name aliasName : Bytes} {mem : Bool}
    (hs : set < w.setCount) (h : afbApisetAddAlias w set name aliasName mem = .ok v) :
    Linked v := by
  obtain ⟨-, -, api, -, rfl⟩ := addAlias_ok h
  exact linked_rewrite hw hs (x := { w.sets set with
    aliases := insertAlias ⟨api, aliasName⟩ (w.sets set).aliases }) rfl (List.Subset.refl _) rfl
    rfl rfl

theorem linked_del (hw : Linked w) {name : Bytes} (hs : set < w.setCount)
    (h : afbApisetDel w set name = .ok v) : Linked v := by
  unfold afbApisetDel at h
  split at h
  · rename_i rest _
    cases h
    exact linked_rewrite hw hs (x := { w.sets set with aliases := rest }) rfl
      (List.Subset.refl _) rfl rfl rfl
  · split at h
    · cases h
    · rename_i d _
      cases h
      exact linked_rewrite hw hs (x := { w.sets set with
        aliases := (w.sets set).aliases.filter (·.api ≠ d), apis := (w.sets set).apis.erase d })
        rfl List.erase_subset rfl rfl rfl

theorem apis_setSubset (w : World) (set : SetId) (subset : Option SetId) (s : SetId) :
    ((setSubset w set subset).sets s).apis = (w.sets s).apis := by
  by_cases he : s = set
  · subst he
    simp [setSubset]
  · simp [setSubset, he]

theorem links_setSubset (w : World) (set : SetId) (subset : Option SetId) :
    (setSubset w set subset).links = Function.update w.links set subset := by
  funext s
  by_cases hs : s = set
  · subst hs
    simp [World.links, setSubset]
  · simp [World.links, setSubset, hs]

theorem linked_setSubset (hw : Linked w) {subset : Option SetId} (hs : set < w.setCount)
    (hsub : ∀ b, subset = some b → b < w.setCount)
    (hout : ∀ b l, subset = some b → Chain w.links b l → set ∉ l) :
    Linked (setSubset w set subset) := by
  refine ⟨?_, fun s sub hl => ?_, fun s hle => ?_, fun s d hd => ?_, fun s s' d hd hd' => ?_⟩
  · rw [links_setSubset]
    exact chains_update hw.chains hout
  · rw [links_setSubset] at hl
    by_cases he : s = set
    · subst he
      rw [Function.update_self] at hl
      exact hsub sub hl
    · rw [Function.update_of_ne he] at hl
      exact hw.below s sub hl
  · have hne : s ≠ set := fun he => absurd hs (Nat.not_lt.mpr (he ▸ hle))
    exact (Function.update_of_ne hne _ _).trans (hw.unmade s hle)
  · rw [apis_setSubset] at hd
    exact hw.allocated s d hd
  · rw [apis_setSubset] at hd hd'
    exact hw.oneSet s s' d hd hd'

/-- The new set takes the subset of the set, which then takes the new one. -/
theorem linked_createSubsetFirst (hw : Linked w) (hs : set < w.setCount) :
    Linked (afbApisetCreateSubsetFirst w set) := by
  have hc := linked_create hw
  have hlinks := links_create hw
  -- neither the new set nor the set itself is in the chain of its subset
  have hout : ∀ b l, (w.sets set).subset = some b → Chain w.links b l →
      w.setCount ∉ l ∧ set ∉ l := by
    intro b l hb hl
    have hchain : Chain w.links set (set :: l) := .link hb hl
    exact ⟨fun hm => Nat.lt_irrefl _ (chain_below hw hl (hw.below set b hb) _ hm),
      (List.nodup_cons.mp hchain.nodup).1⟩
  have hnew : Linked (setSubset (afbApisetCreate w) w.setCount (w.sets set).subset) := by
    refine linked_setSubset hc (Nat.lt_succ_self _) (fun b hb => ?_) fun b l hb hl => ?_
    · exact Nat.lt_succ_of_lt (hw.below set b hb)
    · exact (hout b l hb (hlinks ▸ hl)).1
  refine linked_setSubset hnew (Nat.lt_succ_of_lt hs) (fun b hb => ?_) fun b l hb hl => ?_
  · cases hb
    exact Nat.lt_succ_self _
  · cases hb
    rw [links_setSubset, hlinks] at hl
    have hne : set ≠ w.setCount := Nat.ne_of_lt hs
    cases hl with
    | last => simpa using hne
    | @link _ c m hn hm =>
      rw [Function.update_self] at hn
      obtain ⟨m', hm'⟩ := hw.chains c
      have hsame : Chain (Function.update w.links w.setCount (w.sets set).subset) c m' :=
        hm'.congr fun x hx => Function.update_of_ne
          (fun he : x = w.setCount => (hout c m' hn hm').1 (he ▸ hx)) _ _
      rw [hm.unique hsame]
      simpa [hne] using (hout c m' hn hm').2

theorem linked_subsetSet (hw : Linked w) {subset : Option SetId} (hs : set < w.setCount)
    (hsub : subset.all (· < w.setCount) = true) : Linked (afbApisetSubsetSet w set subset) := by
  unfold afbApisetSubsetSet
  split
  · exact hw
  · rename_i hout
    refine linked_setSubset hw hs (fun b hb => ?_) fun b l hb hl hm => hout ?_
    · subst hb
      simpa using hsub
    · subst hb
      simpa [subsets_eq hw hl] using hm

theorem last_below (hw : Linked w) (hs : set < w.setCount) :
    (subsets w set).getLastD set < w.setCount := by
  obtain ⟨l, hl⟩ := hw.chains set
  rw [subsets_eq hw hl]
  have hlast : l.getLastD set ∈ set :: l := List.getLastD_mem_cons
  rcases List.mem_cons.mp hlast with hlast | hlast
  · rw [hlast]
    exact hs
  · exact chain_below hw hl hs _ hlast

theorem linked_build {op : Build} (hw : Linked w) (h : build w op = some v) :
    Linked v := by
  cases op with
  | op op =>
    cases op with
    | create =>
      cases h
      exact linked_create hw
    | add set name serviceStart mem =>
      obtain ⟨hs, rfl⟩ := Option.ite_some_none_eq_some.mp h
      exact settle_keeps hw fun v hv => linked_add hw hs hv
    | addAlias set name aliasName mem =>
      obtain ⟨hs, rfl⟩ := Option.ite_some_none_eq_some.mp h
      exact settle_keeps hw fun v hv => linked_addAlias hw hs hv
    | del set name =>
      obtain ⟨hs, rfl⟩ := Option.ite_some_none_eq_some.mp h
      exact settle_keeps hw fun v hv => linked_del hw hs hv
  | createSubsetFirst set =>
    obtain ⟨hs, rfl⟩ := Option.ite_some_none_eq_some.mp h
    exact linked_createSubsetFirst hw hs
  | createSubsetLast set =>
    obtain ⟨hs, rfl⟩ := Option.ite_some_none_eq_some.mp h
    exact linked_createSubsetFirst hw (last_below hw hs)
  | subsetSet set subset =>
    obtain ⟨⟨hs, hsub⟩, rfl⟩ := Option.ite_some_none_eq_some.mp h
    exact linked_subsetSet hw hs hsub

end

end AfbBinder.Apiset
