import AfbBinder.Lib.Runs
import AfbBinder.Lib.Updates
import AfbBinder.Locale.Folders

/-! The cache of the searches, against the searches that would be created anew. -/
namespace AfbBinder.Locale
open Lib.Bsearch Lib.Cstrings Lib.Runs

/-- What follows a definition. -/
def tail (blank : Bool) : Bytes := if blank then [space] else []

/-- A search in the cache was created under the flag of the call, with no blank behind its
definition, or these make no difference for the definition of the call. -/
def Unaffected (s : Root) : Action → Prop
  | .search definition immediate mem =>
    let d := normalStart definition
    let length := normalLength d
    let same (flag blank : Bool) : Prop :=
      createFolders s.container (d.take length ++ tail blank) length flag =
        createFolders s.container (d.take length) length immediate
    match s.lru.findIdx? (searchMatches s d length) with
    | some i => ∀ e, s.lru[i]? = some (some e) → same (s.search e).immediate (s.search e).blank
    | none => mem = true → same immediate (isBlank (charAt d length))
  | _ => True

/-- The call returns the folders that create_search builds for the normalised definition. -/
def Transparent (s : Root) : Action → Prop
  | .search definition immediate mem =>
    let d := normalStart definition
    let length := normalLength d
    (mem = true → (localeRootSearch s definition immediate mem).1.isSome) ∧
      ∀ i t, localeRootSearch s definition immediate mem = (some i, t) →
        (t.search i).folders = createFolders s.container (d.take length) length immediate
  | _ => True

/-- What a search is made of; only the count of its references changes. -/
def made (x : Search) : Bytes × List FolderId × Bool × Bool :=
  (x.definition, x.folders, x.immediate, x.blank)

/-- The searches of the cache exist; each one has the folders of its definition. -/
structure Cached (c : Container) (s : Root) : Prop where
  container : s.container = c
  lru : ∀ i, some i ∈ s.lru → i < s.count
  noNul : ∀ i < s.count, 0 ∉ (s.search i).definition
  folders : ∀ i < s.count, (s.search i).folders = createFolders c
    ((s.search i).definition ++ tail (s.search i).blank) (s.search i).definition.length
    (s.search i).immediate

section
variable {c : Container} {s t : Root} {d : Bytes} {length : Nat}

theorem made_setRefcount (s : Root) (i j : SearchId) (n : Int) :
    made ((setRefcount s i n).search j) = made (s.search j) :=
  Lib.Updates.update_field s.search i j made rfl

theorem made_unref (s : Root) (x : Option SearchId) (j : SearchId) :
    made ((localeSearchUnref s x).search j) = made (s.search j) := by
  cases x with
  | none => rfl
  | some i =>
    rw [localeSearchUnref]
    split
    · exact made_setRefcount s i j _
    · exact made_setRefcount s i j _

/-- What an unreference leaves alone. -/
theorem unref_frame (s : Root) (x : Option SearchId) :
    (localeSearchUnref s x).container = s.container ∧ (localeSearchUnref s x).lru = s.lru ∧
      (localeSearchUnref s x).count = s.count := by
  cases x with
  | none => exact ⟨rfl, rfl, rfl⟩
  | some i =>
    rw [localeSearchUnref]
    split <;> exact ⟨rfl, rfl, rfl⟩

/-- A state whose searches are made the same, with a cache among the old one. -/
theorem Cached.same (h : Cached c s) (hc : t.container = s.container) (hn : t.count = s.count)
    (hl : ∀ i, some i ∈ t.lru → some i ∈ s.lru) (hm : ∀ i, made (t.search i) = made (s.search i)) :
    Cached c t := by
  refine ⟨hc.trans h.container, fun i hi => hn ▸ h.lru i (hl i hi), fun i hi => ?_, fun i hi => ?_⟩
  · have := hm i
    simp only [made, Prod.mk.injEq] at this
    rw [this.1]
    exact h.noNul i (hn ▸ hi)
  · have := hm i
    simp only [made, Prod.mk.injEq] at this
    obtain ⟨hdef, hfolders, himm, hblank⟩ := this
    rw [hdef, hfolders, himm, hblank]
    exact h.folders i (hn ▸ hi)

private theorem Cached.unref (h : Cached c s) (x : Option SearchId) : Cached c (localeSearchUnref s x) := by
  obtain ⟨hc, hl, hn⟩ := unref_frame s x
  exact h.same hc hn (fun i hi => hl ▸ hi) (made_unref s x)

private theorem Cached.addref (h : Cached c s) (i : SearchId) : Cached c (localeSearchAddref s i) :=
  h.same rfl rfl (fun _ hi => hi) (made_setRefcount s i · _)

private theorem Cached.foldl_unref (h : Cached c s) (l : List (Option SearchId)) :
    Cached c (l.foldl localeSearchUnref s) := by
  induction l generalizing s with
  | nil => exact h
  | cons x l ih => exact ih (h.unref x)

private theorem isBlank_tail (d : Bytes) (b : Bool) : isBlank (charAt (d ++ tail b) d.length) = b := by
  cases b
  · simp [tail, charAt, isBlank, space, tab]
  · simp [tail, charAt, isBlank]

theorem normalLength_le (d : Bytes) : normalLength d ≤ d.length := by
  have h := (List.dropWhile_suffix isSeparator (l := d.reverse)).length_le
  rwa [List.length_reverse] at h

/-- A definition, by its own characters and the blank behind. -/
theorem alike_tail (h : length ≤ d.length) :
    Alike d (d.take length ++ tail (isBlank (charAt d length))) length := by
  have hlen : (d.take length).length = length := by rw [List.length_take, Nat.min_eq_left h]
  refine ⟨h, by rw [List.length_append]; omega, ?_, ?_⟩
  · rw [List.take_append_of_le_length hlen.ge, List.take_take, Nat.min_self]
  · have hb := isBlank_tail (d.take length) (isBlank (charAt d length))
    rw [hlen] at hb
    rw [hb]

private theorem Cached.create (h : Cached c s) (hd : 0 ∉ d) (hlen : length ≤ d.length) (immediate : Bool) :
    Cached c (createSearch s d length immediate) := by
  have hold : ∀ i < s.count, (createSearch s d length immediate).search i = s.search i :=
    fun i hi => Function.update_of_ne (Nat.ne_of_lt hi) ..
  have hnew : (createSearch s d length immediate).search s.count = ⟨d.take length,
      createFolders s.container d length immediate, 1, immediate, isBlank (charAt d length)⟩ :=
    Function.update_self ..
  refine ⟨h.container, fun i hi => Nat.lt_succ_of_lt (h.lru i hi), fun i hi => ?_, fun i hi => ?_⟩
  · rcases Nat.lt_succ_iff_lt_or_eq.mp hi with hi | rfl
    · rw [hold i hi]
      exact h.noNul i hi
    · rw [hnew]
      exact fun hm => hd (List.mem_of_mem_take hm)
  · rcases Nat.lt_succ_iff_lt_or_eq.mp hi with hi | rfl
    · rw [hold i hi]
      exact h.folders i hi
    · rw [hnew]
      dsimp only
      rw [h.container, List.length_take, Nat.min_eq_left hlen]
      exact createFolders_alike c immediate (alike_tail hlen)

private theorem normalStart_noNul (definition : Option CString) : 0 ∉ normalStart definition := by
  cases definition with
  | none => exact List.not_mem_nil
  | some x => exact fun hm => x.2 ((List.dropWhile_suffix _).subset hm)

private theorem Cached.search (h : Cached c s) (definition : Option CString) (immediate mem : Bool) :
    Cached c (localeRootSearch s definition immediate mem).2 := by
  rcases search_cases s definition immediate mem with ⟨i, e, -, hget, -, heq⟩ | ⟨-, heq⟩
  · rw [heq]
    have hlru : Cached c { s with lru := some e :: s.lru.eraseIdx i } := by
      refine h.same rfl rfl (fun j hj => ?_) fun _ => rfl
      rcases List.mem_cons.mp hj with hj | hj
      · cases hj
        exact List.mem_of_getElem? hget
      · exact List.mem_of_mem_eraseIdx hj
    exact hlru.addref e
  · rw [heq]
    split
    · have hcreate := h.create (normalStart_noNul definition)
        (normalLength_le (normalStart definition)) immediate
      have hunref := hcreate.unref (s.lru.getLastD none)
      obtain ⟨-, -, hcount⟩ := unref_frame (createSearch s (normalStart definition)
        (normalLength (normalStart definition)) immediate) (s.lru.getLastD none)
      have hlru : Cached c { localeSearchUnref (createSearch s (normalStart definition)
          (normalLength (normalStart definition)) immediate) (s.lru.getLastD none) with
            lru := some s.count :: s.lru.dropLast } := by
        refine ⟨hunref.container, fun j hj => ?_, hunref.noNul, hunref.folders⟩
        have hlt : j < s.count + 1 := by
          rcases List.mem_cons.mp hj with hj | hj
          · cases hj
            exact Nat.lt_succ_self _
          · exact Nat.lt_succ_of_lt (h.lru j (List.dropLast_subset _ hj))
        exact Nat.lt_of_lt_of_eq hlt hcount.symm
      exact hlru.addref s.count
    · exact h

private theorem cached_step {x : Action} (h : Cached c s) (hstep : step s x = some t) : Cached c t := by
  cases x with
  | addref =>
    obtain ⟨-, rfl⟩ := Option.ite_some_none_eq_some.mp hstep
    exact h.same rfl rfl (fun _ hi => hi) fun _ => rfl
  | unref =>
    obtain ⟨-, rfl⟩ := Option.ite_some_none_eq_some.mp hstep
    have hroot : Cached c (localeRootUnref s) := by
      rw [localeRootUnref]
      have hdec : Cached c { s with refcount := s.refcount - 1 } :=
        h.same rfl rfl (fun _ hi => hi) fun _ => rfl
      split
      · exact (hdec.foldl_unref s.lru).same rfl rfl (fun _ hi => hi) fun _ => rfl
      · exact hdec
    exact hroot.same rfl rfl (fun _ hi => hi) fun _ => rfl
  | search definition immediate mem =>
    obtain ⟨-, rfl⟩ := Option.ite_some_none_eq_some.mp hstep
    have hsearch := h.search definition immediate mem
    cases hr : localeRootSearch s definition immediate mem with
    | mk r u =>
      rw [hr] at hsearch
      cases r with
      | none => exact hsearch
      | some i => exact hsearch.same rfl rfl (fun _ hi => hi) fun _ => rfl
  | searchAddref i =>
    obtain ⟨-, rfl⟩ := Option.ite_some_none_eq_some.mp hstep
    exact (h.addref i).same rfl rfl (fun _ hi => hi) fun _ => rfl
  | searchUnref i =>
    obtain ⟨-, rfl⟩ := Option.ite_some_none_eq_some.mp hstep
    exact (h.unref (some i)).same rfl rfl (fun _ hi => hi) fun _ => rfl
  | setDefaultSearch x =>
    obtain ⟨-, rfl⟩ := Option.ite_some_none_eq_some.mp hstep
    have hset : Cached c { s with defaultSearch := x } :=
      h.same rfl rfl (fun _ hi => hi) fun _ => rfl
    cases x with
    | none => exact hset.unref s.defaultSearch
    | some i => exact (hset.addref i).unref s.defaultSearch

/-- A search that matches has the folders of the definition of the call, under its own flag and
with its own blank behind. -/
theorem matched_folders (h : Cached c s) {e : SearchId} (he : e < s.count)
    (hlen : length ≤ d.length) (hm : searchMatches s d length (some e)) :
    (s.search e).folders = createFolders c (d.take length ++ tail (s.search e).blank) length
      (s.search e).immediate := by
  simp only [searchMatches, Bool.and_eq_true, decide_eq_true_eq] at hm
  obtain ⟨hcmp, hend⟩ := hm
  have hlower := strcasecmp_eq.mp hcmp
  have htake : ((s.search e).definition.take length).length = length := by
    have := congrArg List.length hlower
    rwa [List.length_map, List.length_map, List.length_take (l := d), Nat.min_eq_left hlen] at this
  have hge : length ≤ (s.search e).definition.length := by
    rw [List.length_take] at htake
    omega
  -- a character of the definition at that place would be the NUL
  have heq : (s.search e).definition.length = length := by
    refine Nat.le_antisymm (Nat.not_lt.mp fun hlt => h.noNul e he ?_) hge
    rw [charAt, List.getD_eq_getElem?_getD, List.getElem?_eq_getElem hlt, Option.getD_some] at hend
    rw [← hend]
    exact List.getElem_mem hlt
  rw [h.folders e he, heq]
  refine createFolders_alike c _ ⟨?_, ?_, ?_, ?_⟩
  · rw [List.length_append]
    omega
  · rw [List.length_append, List.length_take]
    omega
  · rw [List.take_append_of_le_length hge, hlower, List.take_append_of_le_length
      (by rw [List.length_take, Nat.min_eq_left hlen]), List.take_take, Nat.min_self]
  · have h₁ := isBlank_tail (s.search e).definition (s.search e).blank
    have h₂ := isBlank_tail (d.take length) (s.search e).blank
    rw [heq] at h₁
    rw [List.length_take, Nat.min_eq_left hlen] at h₂
    rw [h₁, h₂]

private theorem created_folders (s : Root) (d : Bytes) (hlen : length ≤ d.length) (immediate : Bool) :
    ((localeSearchAddref { localeSearchUnref (createSearch s d length immediate)
      (s.lru.getLastD none) with lru := some s.count :: s.lru.dropLast } s.count).search
        s.count).folders =
      createFolders s.container (d.take length ++ tail (isBlank (charAt d length))) length
        immediate := by
  have haddref := made_setRefcount { localeSearchUnref (createSearch s d length immediate)
    (s.lru.getLastD none) with lru := some s.count :: s.lru.dropLast } s.count s.count
    (((localeSearchUnref (createSearch s d length immediate)
      (s.lru.getLastD none)).search s.count).refcount + 1)
  have hunref := made_unref (createSearch s d length immediate) (s.lru.getLastD none) s.count
  have hnew : (createSearch s d length immediate).search s.count = ⟨d.take length,
      createFolders s.container d length immediate, 1, immediate, isBlank (charAt d length)⟩ :=
    Function.update_self ..
  have hall := haddref.trans (hunref.trans (congrArg made hnew))
  simp only [made, Prod.mk.injEq] at hall
  rw [← createFolders_alike s.container immediate (alike_tail hlen)]
  exact hall.2.1

private theorem transparent_iff (h : Cached c s) (x : Action) : Transparent s x ↔ Unaffected s x := by
  obtain rfl : s.container = c := h.container
  cases x with
  | search definition immediate mem =>
    have hlen := normalLength_le (normalStart definition)
    unfold Transparent Unaffected
    dsimp only
    rcases search_cases s definition immediate mem with ⟨i, e, hf, hget, hm, heq⟩ | ⟨hf, heq⟩
    · have he := h.lru e (List.mem_of_getElem? hget)
      have hfolders := matched_folders h he hlen hm
      have hmade := made_setRefcount { s with lru := some e :: s.lru.eraseIdx i } e e
        ((s.search e).refcount + 1)
      simp only [made, Prod.mk.injEq] at hmade
      rw [hf, heq]
      constructor
      · rintro ⟨-, hall⟩ e' he'
        cases hget.symm.trans he'
        rw [← hfolders, ← hmade.2.1]
        exact hall e _ rfl
      · intro hsame
        refine ⟨fun _ => rfl, fun j t ht => ?_⟩
        cases ht
        rw [← hsame e hget, ← hfolders]
        exact hmade.2.1
    · rw [hf, heq]
      cases mem with
      | false => exact iff_of_true ⟨fun h => (by cases h), fun i t ht => by cases ht⟩ fun h => by cases h
      | true =>
        have hnew := created_folders s (normalStart definition) hlen immediate
        simp only [if_true, Option.isSome_some, true_and, forall_const]
        constructor
        · intro hall
          rw [← hnew]
          exact hall _ _ rfl
        · intro hsame j t ht
          cases ht
          rw [← hsame]
          exact hnew
  | _ => exact Iff.rfl

end

/-- In exactly the runs where no call is affected by the flag or the blank of another, or by a
blank behind its own definition, each call returns the folders of its normalised definition. -/
theorem cache_transparent_iff (container : Container) (acts : List Action) :
    Along step Transparent (localeRootCreate container) acts ↔
      Along step Unaffected (localeRootCreate container) acts := by
  refine along_iff (I := Cached container) (fun s x t h ht => cached_step h ht)
    (fun s x h => transparent_iff h x) ⟨rfl, fun i hi => ?_, fun i hi => ?_, fun i hi => ?_⟩ acts
  · have hnone : some i ∈ [none, none, none] := hi
    simp at hnone
  · exact absurd hi (Nat.not_lt_zero i)
  · exact absurd hi (Nat.not_lt_zero i)

/-- The folders en, en-GB and en-US. -/
def english : Container where
  folders := [⟨[0x65, 0x6E], none⟩, ⟨[0x65, 0x6E, 0x2D, 0x47, 0x42], some 0⟩,
    ⟨[0x65, 0x6E, 0x2D, 0x55, 0x53], some 0⟩]
  parentsLt := by decide

/-- The definition en-US,en-GB. -/
def preferences : CString := ⟨[0x65, 0x6E, 0x2D, 0x55, 0x53, 0x2C, 0x65, 0x6E, 0x2D, 0x47, 0x42],
  by decide⟩

/-- The second call returns the search of the first, made without the flag. -/
theorem cached_flag_returned :
    ¬ ∀ acts, Along step Transparent (localeRootCreate english) acts := by
  intro h
  have hruns := h [.search (some preferences) false true, .search (some preferences) true true]
  have hsecond := (hruns.2 _ rfl).1.2 0 _ rfl
  exact absurd hsecond (by decide)

end AfbBinder.Locale
