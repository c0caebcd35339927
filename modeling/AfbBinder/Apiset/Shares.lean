import AfbBinder.Apiset.Contents

/-! The counts of references against the links, and the sets that a last reference frees. -/
namespace AfbBinder.Apiset
open Lib.Chains Lib.Cstrings Lib.Updates

/-- How many sets have the given set as subset. -/
def linksTo (links : SetId → Option SetId) (n : Nat) (set : SetId) : Nat :=
  (List.range n).countP fun i => links i = some set

/-- The contents of a set that is freed. -/
abbrev blank : ApiSet := ⟨[], [], none⟩

/-- A set has the references of the users, those of the links to it, and maybe an extra one
that it is about to lose. -/
structure Shares (s : Shared) (extra : Option SetId) : Prop where
  linked : Linked s.toWorld
  stocked : Stocked s.toWorld
  refcount : ∀ x, s.refcount x =
    ((s.owned x + linksTo s.links s.setCount x + if extra = some x then 1 else 0 : Nat) : Int)
  freed : ∀ x, s.freed x = true → s.refcount x = 0 ∧ s.sets x = blank
  unmade : ∀ x, s.setCount ≤ x → s.owned x = 0 ∧ s.freed x = false

/-- The sets of the chain that a reference to its first is the last to keep. -/
def lastRefs (s : Shared) : Option SetId → List SetId
  | none => []
  | some set => (subsets s.toWorld set).takeWhile fun x => s.refcount x = 1

/-- The sets are freed, nothing else changes in the memory. -/
structure Frees (s t : Shared) (gone : List SetId) : Prop where
  sets : ∀ x, t.sets x = if x ∈ gone then blank else s.sets x
  rest : t.toWorld = { s.toWorld with sets := t.sets }
  freed : ∀ x, t.freed x = (decide (x ∈ gone) || s.freed x)

section
variable (links : SetId → Option SetId) {n : Nat} {set : SetId}

private theorem linksTo_update (hs : set < n) (v : Option SetId) (x : SetId) :
    linksTo (Function.update links set v) n x + (if links set = some x then 1 else 0) =
      linksTo links n x + if v = some x then 1 else 0 := by
  obtain ⟨pre, post, he⟩ := List.append_of_mem (List.mem_range.mpr hs)
  have hnd := he ▸ List.nodup_range (n := n)
  have hne := List.nodup_middle.mp hnd
  have hrest : ∀ l : List SetId, (∀ i ∈ l, i ∈ pre ++ post) →
      l.countP (fun i => Function.update links set v i = some x) =
        l.countP fun i => links i = some x := by
    intro l hl
    refine List.countP_congr fun i hi => ?_
    have hi' : i ≠ set := fun he => (List.nodup_cons.mp hne).1 (he ▸ hl i hi)
    rw [Function.update_of_ne hi']
  unfold linksTo
  rw [he]
  simp only [List.countP_append, List.countP_cons, Function.update_self, decide_eq_true_eq]
  rw [hrest pre fun i hi => List.mem_append_left _ hi,
    hrest post fun i hi => List.mem_append_right _ hi]
  omega

private theorem takeWhile_congr {p q : SetId → Bool} {l : List SetId} (h : ∀ x ∈ l, p x = q x) :
    l.takeWhile p = l.takeWhile q := by
  induction l with
  | nil => rfl
  | cons a l ih =>
    rw [List.takeWhile_cons, List.takeWhile_cons, h a List.mem_cons_self,
      ih fun x hx => h x (List.mem_cons_of_mem _ hx)]

private theorem linksTo_succ (n : Nat) (x : SetId) :
    linksTo links (n + 1) x = linksTo links n x + if links n = some x then 1 else 0 := by
  simp [linksTo, List.range_succ, List.countP_append, List.countP_singleton]

private theorem linksTo_unmade {w : World} (hw : Linked w) {x : SetId} (hx : w.setCount ≤ x) (n : Nat) :
    linksTo w.links n x = 0 := by
  refine List.countP_eq_zero.mpr fun i _ hi => ?_
  exact absurd (hw.below i x (by simpa using hi)) (Nat.not_lt.mpr hx)

end

section
variable {s t : Shared} {set : SetId} {l : List SetId} {extra : Option SetId}

theorem shares_empty : Shares .empty none where
  linked := linked_empty
  stocked := stocked_empty
  refcount _ := rfl
  freed x hx := by cases hx
  unmade _ _ := ⟨rfl, rfl⟩

private theorem stocked_blank {w : World} (h : Stocked w) (set : SetId) :
    Stocked { w with sets := Function.update w.sets set blank } := by
  have hsets : ∀ x, Function.update w.sets set blank x = blank ∨
      Function.update w.sets set blank x = w.sets x := by
    intro x
    by_cases hx : x = set
    · subst hx
      exact .inl (Function.update_self ..)
    · exact .inr (Function.update_of_ne hx ..)
  refine ⟨fun x d hd => ?_, h.below, h.allNodup, fun x => ?_, fun x a ha => ?_, h.providersBelow,
    h.providersNodup⟩
  · rcases hsets x with hx | hx <;> simp only [hx] at hd
    · cases hd
    · exact h.listed x d hd
  · rcases hsets x with hx | hx <;> simp only [hx]
    · exact List.nodup_nil
    · exact h.apisNodup x
  · rcases hsets x with hx | hx <;> simp only [hx] at ha ⊢
    · cases ha
    · exact h.target x a ha

private theorem linked_blank {w : World} (hw : Linked w) (hs : set < w.setCount) :
    Linked { w with sets := Function.update w.sets set blank } := by
  have hcut : Linked (setSubset w set none) :=
    linked_setSubset hw hs (by rintro b ⟨⟩) (by rintro b l ⟨⟩)
  refine linked_rewrite hcut (x := blank) hs ?_ (List.nil_subset _) ?_ rfl rfl
  · simp [setSubset]
  · exact (Function.update_idem ..).symm

/-- The extra reference was not the last. -/
theorem Shares.lose (h : Shares s (some set)) (h1 : s.refcount set ≠ 1) :
    Shares { s with refcount := Function.update s.refcount set (s.refcount set - 1) } none := by
  have hset := h.refcount set
  rw [if_pos rfl] at hset
  refine ⟨h.linked, h.stocked, fun x => ?_, fun x hx => ?_, h.unmade⟩
  · by_cases hx : x = set
    · subst hx
      simp only [Function.update_self, reduceCtorEq, if_false]
      omega
    · simpa [hx, Ne.symm hx] using h.refcount x
  · by_cases he : x = set
    · subst he
      have := (h.freed x hx).1
      omega
    · simpa [he] using h.freed x hx

/-- The extra reference was the last: the set dies and its subset is about to lose one. -/
theorem Shares.die (h : Shares s (some set)) (hs : set < s.setCount) (h1 : s.refcount set = 1) :
    Shares (Shared.free { s with
      refcount := Function.update s.refcount set (s.refcount set - 1) } set) (s.links set) := by
  have hset := h.refcount set
  rw [if_pos rfl] at hset
  refine ⟨linked_blank h.linked hs, stocked_blank h.stocked set, fun x => ?_, fun x hx => ?_,
    fun x hx => ?_⟩
  · have hlinks : World.links { s.toWorld with sets := Function.update s.sets set blank } =
        Function.update s.links set none := by
      funext y
      by_cases hy : y = set
      · subst hy
        simp [World.links]
      · simp [World.links, hy]
    have hcount := linksTo_update s.links hs none x
    rw [if_neg (by simp : ¬ none = some x)] at hcount
    change Function.update s.refcount set (s.refcount set - 1) x = ((s.owned x +
      linksTo (World.links { s.toWorld with sets := Function.update s.sets set blank })
        s.setCount x + if s.links set = some x then 1 else 0 : Nat) : Int)
    rw [hlinks, Nat.add_assoc, hcount]
    by_cases hx : x = set
    · subst hx
      rw [Function.update_self]
      omega
    · have hold := h.refcount x
      rw [if_neg (by simpa using Ne.symm hx)] at hold
      rw [Function.update_of_ne hx, hold, Nat.add_assoc]
  · by_cases he : x = set
    · subst he
      exact ⟨by simp [Shared.free, h1], Function.update_self ..⟩
    · have hold := h.freed x (by simpa [Shared.free, he] using hx)
      exact ⟨by simpa [Shared.free, he] using hold.1, (Function.update_of_ne he ..).trans hold.2⟩
  · have hne : x ≠ set := fun he => absurd hs (Nat.not_lt.mpr (he ▸ hx))
    have hold := h.unmade x hx
    exact ⟨hold.1, (Function.update_of_ne hne ..).trans hold.2⟩

private theorem unrefFrom_none (fuel : Nat) (s : Shared) : Shared.unrefFrom fuel s none = s := by
  cases fuel <;> rfl

private theorem Frees.nil (h : t.toWorld = s.toWorld) (hf : t.freed = s.freed) : Frees s t [] := by
  refine ⟨fun x => ?_, ?_, fun x => ?_⟩
  · simp [h]
  · rw [h]
  · simp [hf]

private theorem Frees.cons {u : Shared} {gone : List SetId} (h : Frees s u [set]) (h' : Frees u t gone) :
    Frees s t (set :: gone) := by
  refine ⟨fun x => ?_, ?_, fun x => ?_⟩
  · rw [h'.sets, h.sets]
    by_cases hx : x = set
    · simp [hx]
    · simp [hx]
  · rw [h'.rest, h.rest]
  · rw [h'.freed, h.freed]
    by_cases hx : x = set
    · simp [hx]
    · simp [hx]

private theorem frees_free (s : Shared) (set : SetId) (refcount : SetId → Int) :
    Frees s (Shared.free { s with refcount } set) [set] := by
  refine ⟨fun x => ?_, rfl, fun x => ?_⟩
  · simp only [List.mem_singleton]
    exact Function.update_apply ..
  · by_cases hx : x = set
    · subst hx
      simp [Shared.free]
    · simp [Shared.free, hx]

private theorem links_free (s : Shared) (set : SetId) :
    (Shared.free s set).links = Function.update s.links set none := by
  funext x
  by_cases hx : x = set
  · subst hx
    simp [World.links, Shared.free]
  · simp [World.links, Shared.free, hx]

/-- The reference is dropped along the chain, as long as it is the last one. -/
theorem unrefFrom_spec {fuel : Nat} (hl : Chain s.links set l) (h : Shares s (some set))
    (hs : set < s.setCount) (hf : l.length ≤ fuel) :
    Shares (Shared.unrefFrom fuel s (some set)) none ∧
      Frees s (Shared.unrefFrom fuel s (some set)) (l.takeWhile fun x => s.refcount x = 1) := by
  induction fuel generalizing s set l with
  | zero =>
    have := List.length_pos_of_mem hl.mem_self
    omega
  | succ fuel ih =>
    by_cases h1 : s.refcount set = 1
    · have hdie := h.die hs h1
      have hfree := frees_free s set (Function.update s.refcount set (s.refcount set - 1))
      have hlinks := links_free { s with
        refcount := Function.update s.refcount set (s.refcount set - 1) } set
      have heq : Shared.unrefFrom (fuel + 1) s (some set) = Shared.unrefFrom fuel (Shared.free { s with
          refcount := Function.update s.refcount set (s.refcount set - 1) } set) (s.links set) :=
        if_pos (by omega)
      rw [heq]
      cases hl with
      | last hn =>
        rw [hn] at hdie ⊢
        rw [unrefFrom_none, List.takeWhile_cons_of_pos (by simp [h1])]
        exact ⟨hdie, hfree⟩
      | @link _ b m hn hm =>
        have hnd := (List.nodup_cons.mp (Chain.link hn hm).nodup).1
        have hne : ∀ x ∈ m, x ≠ set := fun x hx he => hnd (he ▸ hx)
        have hchain : Chain (Function.update s.links set none) b m :=
          hm.congr fun x hx => Function.update_of_ne (hne x hx) _ _
        rw [← hlinks] at hchain
        rw [hn] at hdie ⊢
        obtain ⟨hshares, hfrees⟩ := ih hchain hdie (h.linked.below set b hn) (by simpa using hf)
        -- the counts of the other sets are still the same
        have htake := takeWhile_congr (l := m)
          (p := fun x => Function.update s.refcount set (s.refcount set - 1) x = 1)
          (q := fun x => s.refcount x = 1) fun x hx => by rw [Function.update_of_ne (hne x hx)]
        rw [List.takeWhile_cons_of_pos (by simp [h1])]
        exact ⟨hshares, hfree.cons (htake ▸ hfrees)⟩
    · have heq : Shared.unrefFrom (fuel + 1) s (some set) =
          { s with refcount := Function.update s.refcount set (s.refcount set - 1) } :=
        if_neg (by omega)
      have hnil : (l.takeWhile fun x => decide (s.refcount x = 1)) = [] := by
        cases hl with
        | last => simp [h1]
        | link => simp [h1]
      rw [heq, hnil]
      exact ⟨h.lose h1, Frees.nil rfl rfl⟩

/-- The bound on the recursion is never reached. -/
theorem unref_spec (h : Shares s extra) (hs : ∀ x, extra = some x → x < s.setCount) :
    Shares (s.afbApisetUnref extra) none ∧ Frees s (s.afbApisetUnref extra) (lastRefs s extra) := by
  cases extra with
  | none =>
    rw [Shared.afbApisetUnref, unrefFrom_none]
    exact ⟨h, Frees.nil rfl rfl⟩
  | some set =>
    obtain ⟨l, hl⟩ := h.linked.chains set
    have hlen := length_le_of_nodup hl.nodup (chain_below h.linked hl (hs set rfl))
    rw [lastRefs, subsets_eq h.linked hl]
    exact unrefFrom_spec hl h (hs set rfl) hlen

/-- A call that changes what live sets hold, and links nothing. -/
theorem Shares.world (h : Shares s none) {v : World} (hv : Linked v) (hst : Stocked v)
    (hlinks : v.links = s.links) (hcount : v.setCount = s.setCount)
    (hfreed : ∀ x, s.freed x = true → v.sets x = s.sets x) :
    Shares { s with toWorld := v } none := by
  refine ⟨hv, hst, fun x => ?_, fun x hx => ?_, fun x hx => h.unmade x (hcount ▸ hx)⟩
  · change s.refcount x = ((s.owned x + linksTo v.links v.setCount x + _ : Nat) : Int)
    rw [hlinks, hcount]
    exact h.refcount x
  · exact ⟨(h.freed x hx).1, (hfreed x hx).trans (h.freed x hx).2⟩

/-- One live set is rewritten, with its link. -/
theorem Shares.rewrite (h : Shares s none) {v : World} (hs : s.Live set) {y : ApiSet}
    (hv : Linked v) (hst : Stocked v) (hsets : v.sets = Function.update s.sets set y)
    (hy : y.subset = (s.sets set).subset) (hcount : v.setCount = s.setCount) :
    Shares { s with toWorld := v } none := by
  refine h.world hv hst ?_ hcount fun x hx => ?_
  · rw [← links_update s.toWorld set hy]
    unfold World.links
    rw [hsets]
  · have hne : x ≠ set := by
      rintro rfl
      exact absurd (hx.symm.trans hs.2) (by decide)
    rw [hsets, Function.update_of_ne hne]

private theorem shares_create (h : Shares s none) :
    Shares (Shared.own s.afbApisetCreate s.setCount 1) none := by
  have hsets := sets_create h.linked
  have hlinks : (Shared.own s.afbApisetCreate s.setCount 1).links = s.links := by
    funext x
    change ((Apiset.afbApisetCreate s.toWorld).sets x).subset = _
    rw [hsets]
  have hlast : s.links s.setCount = none := by
    rw [World.links, h.linked.unmade _ (Nat.le_refl _)]
  refine ⟨linked_create h.linked, ?_, fun x => ?_, fun x hx => ?_, fun x hx => ?_⟩
  · exact h.stocked.same (fun x => by rw [← hsets]; rfl) (fun x => by rw [← hsets]; rfl) rfl rfl
      fun _ => .refl _
  · change Function.update s.refcount s.setCount 1 x = ((Function.update s.owned s.setCount 1 x +
      linksTo (Shared.own s.afbApisetCreate s.setCount 1).links (s.setCount + 1) x + _ : Nat) : Int)
    rw [hlinks, linksTo_succ, hlast]
    by_cases hx : x = s.setCount
    · subst hx
      simp [linksTo_unmade h.linked (Nat.le_refl _)]
    · simpa [hx] using h.refcount x
  · have hne : x ≠ s.setCount := by
      rintro rfl
      exact absurd (hx.symm.trans (h.unmade _ (Nat.le_refl _)).2) (by decide)
    have hold := h.freed x hx
    refine ⟨(Function.update_of_ne hne _ _).trans hold.1, ?_⟩
    change (Apiset.afbApisetCreate s.toWorld).sets x = blank
    rw [hsets]
    exact hold.2
  · have hle : s.setCount + 1 ≤ x := hx
    have hne : x ≠ s.setCount := by omega
    have hold := h.unmade x (by omega)
    exact ⟨(Function.update_of_ne hne _ _).trans hold.1, hold.2⟩

private theorem shares_createSubsetFirst (h : Shares s none) (hs : s.Live set) :
    Shares (s.afbApisetCreateSubsetFirst set) none := by
  have hsets := sets_create h.linked
  have hlinks : (s.afbApisetCreateSubsetFirst set).links = Function.update
      (Function.update s.links s.setCount (s.links set)) set (some s.setCount) := by
    change World.links (setSubset (setSubset (Apiset.afbApisetCreate s.toWorld) s.setCount
      (s.links set)) set (some s.setCount)) = _
    rw [links_setSubset, links_setSubset]
    congr 2
    funext x
    rw [World.links, hsets]
  have hlast : s.links s.setCount = none := by
    rw [World.links, h.linked.unmade _ (Nat.le_refl _)]
  have hne : set ≠ s.setCount := Nat.ne_of_lt hs.1
  refine ⟨linked_createSubsetFirst h.linked hs.1, ?_, fun x => ?_, fun x hx => ?_, fun x hx => ?_⟩
  · refine h.stocked.same (fun x => ?_) (fun x => ?_) rfl rfl fun _ => .refl _
    · exact (held_setSubset _ _ _ x).1.trans ((held_setSubset _ _ _ x).1.trans (by rw [hsets]))
    · exact (held_setSubset _ _ _ x).2.trans ((held_setSubset _ _ _ x).2.trans (by rw [hsets]))
  · -- the link to the older subset is now from the new set
    have hlt : s.setCount < s.setCount + 1 := Nat.lt_succ_self _
    have hset : set < s.setCount + 1 := Nat.lt_succ_of_lt hs.1
    have hnew := linksTo_update s.links hlt (s.links set) x
    have hfirst := linksTo_update (Function.update s.links s.setCount (s.links set)) hset
      (some s.setCount) x
    have hsucc := linksTo_succ s.links s.setCount x
    rw [hlast] at hnew hsucc
    rw [Function.update_of_ne hne] at hfirst
    have hold := h.refcount x
    change Function.update s.refcount s.setCount 1 x = ((s.owned x +
      linksTo (s.afbApisetCreateSubsetFirst set).links (s.setCount + 1) x + _ : Nat) : Int)
    rw [hlinks]
    by_cases hx : x = s.setCount
    · subst hx
      have hzero := linksTo_unmade h.linked (Nat.le_refl s.setCount) s.setCount
      have howned := (h.unmade s.setCount (Nat.le_refl _)).1
      rw [Function.update_self]
      simp only [reduceCtorEq, reduceIte] at hnew hsucc hfirst ⊢
      omega
    · have hsome : (some s.setCount = some x) = False := by simp [Ne.symm hx]
      rw [Function.update_of_ne hx, hold]
      simp only [reduceCtorEq, reduceIte, hsome] at hnew hsucc hfirst ⊢
      omega
  · have hlive : x ≠ set := by
      rintro rfl
      exact absurd (hx.symm.trans hs.2) (by decide)
    have hmade : x ≠ s.setCount := by
      rintro rfl
      exact absurd (hx.symm.trans (h.unmade _ (Nat.le_refl _)).2) (by decide)
    have hold := h.freed x hx
    refine ⟨(Function.update_of_ne hmade _ _).trans hold.1, ?_⟩
    refine (Function.update_of_ne hlive _ _).trans ((Function.update_of_ne hmade _ _).trans ?_)
    rw [hsets]
    exact hold.2
  · exact h.unmade x (Nat.le_of_succ_le hx)

/-- The state where afb_apiset_subset_set drops the reference to the older subset. -/
def relinked (s : Shared) (set : SetId) (subset : Option SetId) : Shared :=
  { s.afbApisetAddref subset with toWorld := setSubset s.toWorld set subset }

theorem subsetSet_cases (s : Shared) (set : SetId) (subset : Option SetId) :
    ((∃ x, subset = some x ∧ set ∈ subsets s.toWorld x) ∧
      s.afbApisetSubsetSet set subset = (-1, s)) ∨
    ((∀ x, subset = some x → set ∉ subsets s.toWorld x) ∧
      s.afbApisetSubsetSet set subset =
        (0, (relinked s set subset).afbApisetUnref (s.sets set).subset)) := by
  unfold Shared.afbApisetSubsetSet
  split
  · rename_i hin
    obtain ⟨x, hx, hm⟩ := Option.any_eq_true _ _ |>.mp hin
    exact .inl ⟨⟨x, hx, by simpa using hm⟩, rfl⟩
  · rename_i hout
    refine .inr ⟨fun x hx hm => hout ?_, rfl⟩
    rw [hx]
    simpa using hm

private theorem refcount_addref (s : Shared) (subset : Option SetId) (x : SetId) :
    (s.afbApisetAddref subset).refcount x = s.refcount x + if subset = some x then 1 else 0 := by
  cases subset with
  | none => simp [Shared.afbApisetAddref]
  | some y =>
    by_cases hx : x = y
    · subst hx
      simp [Shared.afbApisetAddref]
    · simp [Shared.afbApisetAddref, hx, Ne.symm hx]

private theorem addref_frame (s : Shared) (subset : Option SetId) :
    (s.afbApisetAddref subset).owned = s.owned ∧ (s.afbApisetAddref subset).freed = s.freed ∧
      (s.afbApisetAddref subset).toWorld = s.toWorld := by
  cases subset <;> exact ⟨rfl, rfl, rfl⟩

/-- The new subset has one reference more, and the older one is about to lose its own. -/
theorem shares_relinked (h : Shares s none) {subset : Option SetId} (hs : s.Live set)
    (hsub : ∀ x, subset = some x → s.Live x) (hout : ∀ x, subset = some x → set ∉ subsets s.toWorld x) :
    Shares (relinked s set subset) (s.links set) := by
  obtain ⟨howned, hfreed, -⟩ := addref_frame s subset
  refine ⟨linked_setSubset h.linked hs.1 (fun b hb => (hsub b hb).1) fun b l hb hl hm => ?_, ?_,
    fun x => ?_, fun x hx => ?_, fun x hx => ?_⟩
  · rw [← subsets_eq h.linked hl] at hm
    exact hout b hb hm
  · exact h.stocked.same (fun x => (held_setSubset _ _ _ x).1) (fun x => (held_setSubset _ _ _ x).2)
      rfl rfl fun _ => .refl _
  · have hlinks := linksTo_update s.links hs.1 subset x
    have hold := h.refcount x
    simp only [reduceCtorEq, reduceIte] at hold
    change (s.afbApisetAddref subset).refcount x = (((s.afbApisetAddref subset).owned x +
      linksTo (World.links (setSubset s.toWorld set subset)) s.setCount x + _ : Nat) : Int)
    rw [refcount_addref, howned, links_setSubset, Nat.add_assoc, hlinks, hold]
    split <;> omega
  · have hx' : s.freed x = true := hfreed ▸ hx
    have hold := h.freed x hx'
    have hne : x ≠ set := by
      rintro rfl
      exact absurd (hx'.symm.trans hs.2) (by decide)
    have hnot : subset ≠ some x := fun he => absurd (hx'.symm.trans (hsub x he).2) (by decide)
    refine ⟨?_, (Function.update_of_ne hne _ _).trans hold.2⟩
    change (s.afbApisetAddref subset).refcount x = 0
    rw [refcount_addref, if_neg hnot, hold.1]
    rfl
  · have hold := h.unmade x hx
    exact ⟨(congrFun howned x).trans hold.1, (congrFun hfreed x).trans hold.2⟩

private theorem shares_addref (h : Shares s none) (hs : s.Live set) :
    Shares (Shared.own (s.afbApisetAddref (some set)) set (s.owned set + 1)) none := by
  refine ⟨h.linked, h.stocked, fun x => ?_, fun x hx => ?_, fun x hx => ?_⟩
  · have hold := h.refcount x
    by_cases hx : x = set
    · subst hx
      simp only [Shared.own, Shared.afbApisetAddref, Function.update_self] at hold ⊢
      omega
    · simpa [Shared.own, Shared.afbApisetAddref, hx] using hold
  · have hne : x ≠ set := by
      rintro rfl
      exact absurd (hx.symm.trans hs.2) (by decide)
    have hold := h.freed x hx
    exact ⟨(Function.update_of_ne hne _ _).trans hold.1, hold.2⟩
  · have hne : x ≠ set := fun he => absurd hs.1 (Nat.not_lt.mpr (he ▸ hx))
    have hold := h.unmade x hx
    exact ⟨(Function.update_of_ne hne _ _).trans hold.1, hold.2⟩

theorem owned_lt (h : Shares s none) (hs : 0 < s.owned set) : set < s.setCount := by
  by_contra hge
  have := (h.unmade set (Nat.not_lt.mp hge)).1
  omega

/-- What the user owned is what the set is about to lose. -/
theorem shares_disown (h : Shares s none) (hs : 0 < s.owned set) :
    Shares (Shared.own s set (s.owned set - 1)) (some set) := by
  have hlt := owned_lt h hs
  refine ⟨h.linked, h.stocked, fun x => ?_, h.freed, fun x hx => ?_⟩
  · have hold := h.refcount x
    change s.refcount x = ((Function.update s.owned set (s.owned set - 1) x +
      linksTo s.links s.setCount x + _ : Nat) : Int)
    rw [hold]
    by_cases hx : x = set
    · subst hx
      simp only [Function.update_self, reduceCtorEq, reduceIte]
      omega
    · simp [hx, Ne.symm hx]
  · have hne : x ≠ set := fun he => absurd hlt (Nat.not_lt.mpr (he ▸ hx))
    have hold := h.unmade x hx
    exact ⟨(Function.update_of_ne hne _ _).trans hold.1, hold.2⟩

/-- The call rewrites one set and keeps its link. -/
def Rewrites (w v : World) (set : SetId) : Prop :=
  ∃ y : ApiSet, v.sets = Function.update w.sets set y ∧ y.subset = (w.sets set).subset ∧
    v.setCount = w.setCount

private theorem rewrites_self (w : World) (set : SetId) : Rewrites w w set :=
  ⟨w.sets set, (Function.update_eq_self ..).symm, rfl, rfl⟩

private theorem rewrites_add {w v : World} {name : Bytes} {serviceStart mem : Bool}
    (hv : afbApisetAdd w set name serviceStart mem = .ok v) : Rewrites w v set := by
  obtain ⟨-, -, rfl⟩ := add_ok hv
  exact ⟨_, rfl, rfl, rfl⟩

private theorem rewrites_addAlias {w v : World} {name aliasName : Bytes} {mem : Bool}
    (hv : afbApisetAddAlias w set name aliasName mem = .ok v) : Rewrites w v set := by
  obtain ⟨-, -, api, -, rfl⟩ := addAlias_ok hv
  exact ⟨_, rfl, rfl, rfl⟩

private theorem rewrites_del {w v : World} {name : Bytes} (hv : afbApisetDel w set name = .ok v) :
    Rewrites w v set := by
  rcases del_ok hv with ⟨rest, -, rfl⟩ | ⟨d, -, rfl⟩
  · exact ⟨_, rfl, rfl, rfl⟩
  · exact ⟨_, rfl, rfl, rfl⟩

private theorem Shares.rewrites (h : Shares s none) (hs : s.Live set) {v : World} (hv : Linked v)
    (hst : Stocked v) (hr : Rewrites s.toWorld v set) : Shares { s with toWorld := v } none := by
  obtain ⟨y, hsets, hy, hcount⟩ := hr
  exact h.rewrite hs hv hst hsets hy hcount

private theorem Shares.quiet (h : Shares s none) {v : World} (hq : Quiet s.toWorld v) :
    Shares { s with toWorld := v } none := by
  refine h.world (hq.linked h.linked) (hq.stocked h.stocked) ?_ hq.setCount fun x _ => ?_
  · unfold World.links
    rw [hq.sets]
  · rw [hq.sets]

private theorem shares_provideClass (h : Shares s none) (apiname classname : Bytes) (memClass mem : Bool) :
    Shares { s with toWorld :=
      afbApisetProvideClass s.toWorld set apiname classname memClass mem } none := by
  have hst := stocked_provideClass h.stocked set apiname classname memClass mem
  obtain ⟨w', hq, heq | ⟨a, c, hf, hnew, heq⟩⟩ :=
    provideClass_cases s.toWorld set apiname classname memClass mem
  · rw [heq]
    exact h.quiet hq
  · have hv := linked_provideClass h.linked set apiname classname memClass mem
    rw [heq] at hv hst ⊢
    refine h.world hv hst ?_ hq.setCount fun x _ => ?_
    · unfold World.links
      rw [hq.sets]
    · rw [hq.sets]

/-- A set that another one has as subset is not freed. -/
theorem live_link (h : Shares s none) {x : SetId} (hn : s.links set = some x) : s.Live x := by
  refine ⟨h.linked.below set x hn, ?_⟩
  have hmade : set < s.setCount := by
    by_contra hge
    rw [World.links, h.linked.unmade set (Nat.not_lt.mp hge)] at hn
    cases hn
  have hpos : 0 < linksTo s.links s.setCount x :=
    List.countP_pos_iff.mpr ⟨set, List.mem_range.mpr hmade, by simpa using hn⟩
  have hcount := h.refcount x
  cases hf : s.freed x with
  | false => rfl
  | true =>
    have hzero := (h.freed x hf).1
    simp only [reduceCtorEq, reduceIte] at hcount
    omega

private theorem live_chain (h : Shares s none) (hl : Chain s.links set l) (hs : s.Live set) :
    ∀ x ∈ l, s.Live x := by
  induction hl with
  | last =>
    intro x hx
    exact List.mem_singleton.mp hx ▸ hs
  | link hn _ ih =>
    intro x hx
    rcases List.mem_cons.mp hx with rfl | hx
    · exact hs
    · exact ih (live_link h hn) x hx

private theorem live_last (h : Shares s none) (hs : s.Live set) :
    s.Live ((subsets s.toWorld set).getLastD set) := by
  obtain ⟨l, hl⟩ := h.linked.chains set
  rw [subsets_eq h.linked hl]
  have hlast : l.getLastD set ∈ set :: l := List.getLastD_mem_cons
  rcases List.mem_cons.mp hlast with hlast | hlast
  · rw [hlast]
    exact hs
  · exact live_chain h hl hs _ hlast

theorem shares_step {a : Shared.Act} (h : Shares s none) (hstep : s.step a = some t) :
    Shares t none := by
  cases a with
  | create =>
    cases hstep
    exact shares_create h
  | createSubsetFirst set =>
    cases set with
    | none =>
      cases hstep
      exact shares_create h
    | some set =>
      obtain ⟨hs, rfl⟩ := Option.ite_some_none_eq_some.mp hstep
      exact shares_createSubsetFirst h hs
  | createSubsetLast set =>
    cases set with
    | none =>
      cases hstep
      exact shares_create h
    | some set =>
      obtain ⟨hs, rfl⟩ := Option.ite_some_none_eq_some.mp hstep
      exact shares_createSubsetFirst h (live_last h hs)
  | subsetSet set subset =>
    obtain ⟨⟨hs, hsub⟩, rfl⟩ := Option.ite_some_none_eq_some.mp hstep
    rcases subsetSet_cases s set subset with ⟨-, heq⟩ | ⟨hout, heq⟩
    · rw [heq]
      exact h
    · rw [heq]
      have hlive : ∀ x, subset = some x → s.Live x := fun x hx => by
        subst hx
        simpa using hsub
      exact (unref_spec (shares_relinked h hs hlive hout) fun x hx => h.linked.below set x hx).1
  | addref set =>
    obtain ⟨hs, rfl⟩ := Option.ite_some_none_eq_some.mp hstep
    exact shares_addref h hs
  | unref set =>
    obtain ⟨hs, rfl⟩ := Option.ite_some_none_eq_some.mp hstep
    have hlt := owned_lt h hs
    refine (unref_spec (shares_disown h hs) fun x hx => ?_).1
    cases hx
    exact hlt
  | add set name serviceStart mem =>
    obtain ⟨hs, rfl⟩ := Option.ite_some_none_eq_some.mp hstep
    exact h.rewrites hs (settle_keeps h.linked fun v hv => linked_add h.linked hs.1 hv)
      (settle_keeps h.stocked fun v hv => stocked_add h.stocked hv)
      (settle_keeps (rewrites_self ..) fun v hv => rewrites_add hv)
  | addAlias set name aliasName mem =>
    obtain ⟨hs, rfl⟩ := Option.ite_some_none_eq_some.mp hstep
    exact h.rewrites hs (settle_keeps h.linked fun v hv => linked_addAlias h.linked hs.1 hv)
      (settle_keeps h.stocked fun v hv => stocked_addAlias h.stocked hv)
      (settle_keeps (rewrites_self ..) fun v hv => rewrites_addAlias hv)
  | del set name =>
    obtain ⟨hs, rfl⟩ := Option.ite_some_none_eq_some.mp hstep
    exact h.rewrites hs (settle_keeps h.linked fun v hv => linked_del h.linked hs.1 hv)
      (settle_keeps h.stocked fun v hv => stocked_del h.linked h.stocked hv)
      (settle_keeps (rewrites_self ..) fun v hv => rewrites_del hv)
  | require set name required mem =>
    obtain ⟨-, rfl⟩ := Option.ite_some_none_eq_some.mp hstep
    exact h.quiet (quiet_require s.toWorld set name required mem)
  | requireClass set apiname classname memClass mem =>
    obtain ⟨-, rfl⟩ := Option.ite_some_none_eq_some.mp hstep
    exact h.quiet (quiet_requireClass s.toWorld set apiname classname memClass mem)
  | provideClass set apiname classname memClass mem =>
    obtain ⟨-, rfl⟩ := Option.ite_some_none_eq_some.mp hstep
    exact shares_provideClass h apiname classname memClass mem

end

end AfbBinder.Apiset
