import AfbBinder.Lib.Lists
import AfbBinder.Lib.Words
import AfbBinder.Locale.Tags

/-! The order of the folders of a search: those of the tags, and then their ancestors. -/
namespace AfbBinder.Locale
open Lib.Bsearch Lib.Cstrings Lib.Lists Lib.Words

/-! The folder of a name, in a container that is sorted. -/

/-- Comparing a name with a shorter one by its first characters. -/
theorem compare_take (a b : Bytes) :
    compare a b = (compare (a.take b.length) b).then (if a.length ≤ b.length then .eq else .gt) := by
  induction b generalizing a with
  | nil =>
    cases a with
    | nil => rfl
    | cons x a => rfl
  | cons y b ih =>
    cases a with
    | nil => rfl
    | cons x a =>
      rw [List.length_cons, List.take_succ_cons, List.compare_cons_cons, List.compare_cons_cons, ih a,
        Ordering.then_assoc, List.length_cons]
      simp only [Nat.add_le_add_iff_right]

/-- The folders in the order of their names. -/
def Sorted (c : Container) : Prop := c.folders.Pairwise fun f g => (strcasecmp f.name g.name).isLE

/-- What the folder of a name is: one that has it, or none where there is none. -/
def Finds (c : Container) (t : Bytes) : Option FolderId → Prop
  | some i => i < c.folders.length ∧ strcasecmp (c.folder i).name t = .eq
  | none => ∀ i < c.folders.length, strcasecmp (c.folder i).name t ≠ .eq

section
variable {c : Container} {t : Bytes} {i j : Nat}

private theorem folder_getElem (h : i < c.folders.length) : c.folder i = c.folders[i] := by
  rw [Container.folder, List.getD_eq_getElem?_getD, List.getElem?_eq_getElem h, Option.getD_some]

private theorem length_le_of_strncasecmp {f name : Bytes} {length : Nat} (hlen : length ≤ name.length)
    (h : strncasecmp f name length = .eq) : length ≤ f.length := by
  have heq := congrArg List.length (strcasecmp_eq.mp h)
  rw [List.length_map, List.length_map, List.length_take, List.length_take] at heq
  omega

/-- The test of the search is the comparison of the whole names. -/
theorem lookup_eq (hnul : ∀ i, 0 ∉ (c.folder i).name) (t : Bytes) :
    lookup c t = bsearch (fun i => strcasecmp (c.folder i).name t) c.folders.length 0 c.folders.length := by
  rw [lookup, searchFolder]
  congr 1
  funext i
  have hname := hnul i
  generalize (c.folder i).name = name at *
  have hcmp := compare_take (name.map tolower) (t.map tolower)
  rw [List.length_map, List.length_map, ← List.map_take] at hcmp
  rw [strncasecmp, List.take_length, strcasecmp, strcasecmp, hcmp]
  cases hprefix : compare ((name.take t.length).map tolower) (t.map tolower) with
  | lt => rfl
  | gt => rfl
  | eq =>
    have htest : strncasecmp name t t.length = .eq := by
      rw [strncasecmp, List.take_length]
      exact hprefix
    have hlen := length_le_of_strncasecmp (Nat.le_refl _) htest
    dsimp only [Ordering.then]
    by_cases hend : name.length ≤ t.length
    · rw [if_pos hend, if_pos (by simp [charAt, hend])]
    · have hchar : charAt name t.length ≠ 0 := by
        intro hzero
        rw [charAt, List.getD_eq_getElem?_getD, List.getElem?_eq_getElem (by omega), Option.getD_some] at hzero
        exact hname (hzero ▸ List.getElem_mem _)
      rw [if_neg hend, if_neg hchar]

private theorem sorted_le (hs : Sorted c) (hij : i ≤ j) (hj : j < c.folders.length) :
    (strcasecmp (c.folder i).name (c.folder j).name).isLE := by
  rcases Nat.lt_or_eq_of_le hij with hlt | rfl
  · rw [folder_getElem (by omega), folder_getElem hj]
    exact List.pairwise_iff_getElem.mp hs i j (by omega) hj hlt
  · rw [strcasecmp_self]
    rfl

/-- In a sorted container the search finds a folder of the name when there is one. -/
theorem finds_lookup (hs : Sorted c) (hnul : ∀ i, 0 ∉ (c.folder i).name) (t : Bytes) : Finds c t (lookup c t) := by
  rw [lookup_eq hnul]
  cases h : bsearch (fun i => strcasecmp (c.folder i).name t) c.folders.length 0 c.folders.length with
  | some i => exact ⟨(bsearch_sound h).2.1, (bsearch_sound h).2.2⟩
  | none =>
    intro k hk heq
    have hfound := @bsearch_exists (fun i => strcasecmp (c.folder i).name t) c.folders.length 0 c.folders.length k
      (by omega) ?_ ?_ heq (Nat.zero_le k) hk
    · rw [h] at hfound
      obtain ⟨i, hi⟩ := hfound
      cases hi
    · intro i j hij hj hlt
      have hle := sorted_le hs hij hj
      by_contra hge
      have hback : (strcasecmp t (c.folder i).name).isLE := by
        cases h : strcasecmp (c.folder i).name t with
        | lt => exact absurd h hge
        | eq =>
          rw [strcasecmp_comm.mp h]
          rfl
        | gt =>
          rw [strcasecmp_gt.mp h]
          rfl
      have htrans := strcasecmp_isLE_trans hback hle
      rw [strcasecmp_gt.mpr hlt] at htrans
      cases htrans
    · intro i j hij hj hgt
      have hle := sorted_le hs hij hj
      by_contra hnot
      have hafter : (strcasecmp (c.folder j).name t).isLE := by
        cases h : strcasecmp (c.folder j).name t with
        | lt => rfl
        | eq => rfl
        | gt => exact absurd h hnot
      have htrans := strcasecmp_isLE_trans hle hafter
      rw [hgt] at htrans
      cases htrans

end

private theorem sorted_located (sort : FolderSort) (r : Scanned) : Sorted (r.located sort).container := by
  rw [Sorted, Scanned.located]
  exact List.pairwise_map.mpr (sort.sorted r.names)

theorem sorted_initContainer (sort : FolderSort) (l : Locales) : Sorted (initContainer sort l).2.container := by
  cases l with
  | missing => exact sorted_located sort .start
  | unreadable => exact sorted_located sort .start
  | entries l => exact sorted_located sort _

section
variable {c : Container} {name : Bytes} {length : Nat}

/-- The search by the first characters finds a folder exactly when one has them for name,
without regard to the case, and finds one that has. -/
theorem searchFolder_finds (hs : Sorted c) (hnul : ∀ f ∈ c.folders, 0 ∉ f.name)
    (hlen : length ≤ name.length) :
    ((searchFolder c name length).isSome ↔
      ∃ f ∈ c.folders, f.name.map tolower = (name.take length).map tolower) ∧
    ∀ i, searchFolder c name length = some i → ∃ f, c.folders[i]? = some f ∧
      f.name.map tolower = (name.take length).map tolower := by
  have hnames : ∀ i, 0 ∉ (c.folder i).name := by
    intro i
    by_cases hi : i < c.folders.length
    · rw [folder_getElem hi]
      exact hnul _ (List.getElem_mem hi)
    · rw [Container.folder, List.getD_eq_getElem?_getD, List.getElem?_eq_none (Nat.le_of_not_lt hi)]
      exact List.not_mem_nil
  have hfinds := finds_lookup hs hnames (name.take length)
  rw [← searchFolder_eq hlen] at hfinds
  cases hfound : searchFolder c name length with
  | none =>
    rw [hfound] at hfinds
    have hnone : ¬ ∃ f ∈ c.folders, f.name.map tolower = (name.take length).map tolower := by
      rintro ⟨f, hf, heq⟩
      obtain ⟨i, hi, rfl⟩ := List.getElem_of_mem hf
      apply absurd _ (hfinds i hi)
      rw [folder_getElem hi]
      exact strcasecmp_eq.mpr heq
    refine ⟨iff_of_false Bool.false_ne_true hnone, ?_⟩
    rintro i ⟨⟩
  | some i =>
    rw [hfound] at hfinds
    obtain ⟨hi, heq⟩ := hfinds
    rw [folder_getElem hi] at heq
    have hname := strcasecmp_eq.mp heq
    refine ⟨iff_of_true rfl ⟨_, List.getElem_mem hi, hname⟩, ?_⟩
    rintro j ⟨⟩
    exact ⟨_, List.getElem?_eq_getElem hi, hname⟩

end

/-- Folders whose names are longer than what is looked for, and one that is not. -/
def threeFolders : Container where
  folders := [⟨[0x45, 0x4E], none⟩, ⟨[0x65, 0x6E, 0x2D, 0x55, 0x53], some 0⟩, ⟨[0x66, 0x72], none⟩]
  parentsLt := by decide

theorem searchFolder_finds_prefix :
    searchFolder threeFolders [0x65, 0x6E, 0x2D, 0x47, 0x42] 2 = some 0 ∧
      ((searchFolder threeFolders [0x65, 0x6E, 0x2D, 0x47, 0x42] 2).isSome ↔
        ∃ f ∈ threeFolders.folders,
          f.name.map tolower = (([0x65, 0x6E, 0x2D, 0x47, 0x42] : Bytes).take 2).map tolower) ∧
      ∀ i, searchFolder threeFolders [0x65, 0x6E, 0x2D, 0x47, 0x42] 2 = some i →
        ∃ f, threeFolders.folders[i]? = some f ∧
          f.name.map tolower = (([0x65, 0x6E, 0x2D, 0x47, 0x42] : Bytes).take 2).map tolower :=
  ⟨by decide, searchFolder_finds (by unfold Sorted; decide) (by decide) (by decide)⟩

/-! The ancestors. -/

/-- A folder and its parent. -/
def ParentOf (c : Container) (f p : FolderId) : Prop := (c.folder f).parent = some p

/-- Ancestors. -/
def AncestorOf (c : Container) : FolderId → FolderId → Prop := Relation.TransGen (ParentOf c)

section
variable {c : Container} {l : List FolderId} {i f p : FolderId}

private theorem parent_lt (hf : f < c.folders.length) (h : ParentOf c f p) : p < c.folders.length := by
  rw [ParentOf, folder_getElem hf] at h
  exact c.parentsLt _ (List.getElem_mem hf) p h

private theorem length_le_count (hl : l.Nodup) (hlt : ∀ f ∈ l, f < c.folders.length) :
    l.length ≤ c.folders.length := by
  have hle := (List.subperm_of_subset hl fun f hf => List.mem_range.mpr (hlt f hf)).length_le
  rwa [List.length_range] at hle

/-- The parents of the folders before a place are in the list. -/
def ClosedBefore (c : Container) (i : Nat) (l : List FolderId) : Prop :=
  ∀ k < i, ∀ f, l[k]? = some f → ∀ p, ParentOf c f p → p ∈ l

private theorem ClosedBefore.all (h : ClosedBefore c i l) (hlen : l.length ≤ i) :
    ∀ f ∈ l, ∀ p, ParentOf c f p → p ∈ l := by
  intro f hf p hp
  obtain ⟨k, hk, rfl⟩ := List.getElem_of_mem hf
  exact h k (Nat.lt_of_lt_of_le hk hlen) _ (List.getElem?_eq_getElem hk) p hp

/-- A place further, when the parent of the folder there is in the list. -/
theorem ClosedBefore.next (h : ClosedBefore c i l) (hget : l[i]? = some f) (hf : ∀ p, ParentOf c f p → p ∈ l) :
    ClosedBefore c (i + 1) l := by
  intro k hk g hg p hp
  rcases Nat.lt_or_eq_of_le (Nat.le_of_lt_succ hk) with hlt | rfl
  · exact h k hlt g hg p hp
  · rw [hget] at hg
    cases hg
    exact hf p hp

/-- The same when the parent is appended. -/
theorem ClosedBefore.append (h : ClosedBefore c i l) (hget : l[i]? = some f) (hp : ParentOf c f p) :
    ClosedBefore c (i + 1) (l ++ [p]) := by
  have hi : i < l.length := (List.getElem?_eq_some_iff.mp hget).1
  intro k hk g hg q hq
  have hkl : k < l.length := Nat.lt_of_le_of_lt (Nat.le_of_lt_succ hk) hi
  rw [List.getElem?_append_left hkl] at hg
  rcases Nat.lt_or_eq_of_le (Nat.le_of_lt_succ hk) with hlt | rfl
  · exact List.mem_append_left _ (h k hlt g hg q hq)
  · rw [hget] at hg
    cases hg
    rw [ParentOf, hp] at hq
    cases hq
    simp

/-- The loop goes over the folders that it appends too; what it appends are ancestors. -/
theorem appendParents_spec (fuel : Nat) (hl : l.Nodup) (hlt : ∀ f ∈ l, f < c.folders.length)
    (hfuel : c.folders.length ≤ fuel + i) (hclosed : ClosedBefore c i l) :
    ∃ rest, appendParents c fuel i l = l ++ rest ∧ (l ++ rest).Nodup ∧
      (∀ f ∈ l ++ rest, ∀ p, ParentOf c f p → p ∈ l ++ rest) ∧ ∀ p ∈ rest, ∃ f ∈ l, AncestorOf c f p := by
  induction fuel generalizing i l with
  | zero =>
    have hlen := length_le_count hl hlt
    exact ⟨[], by simp [appendParents], by simpa using hl, by simpa using hclosed.all (by omega), by simp⟩
  | succ fuel ih =>
    rw [appendParents]
    cases hget : l[i]? with
    | none =>
      have hlen := List.getElem?_eq_none_iff.mp hget
      exact ⟨[], by simp, by simpa using hl, by simpa using hclosed.all hlen, by simp⟩
    | some folder =>
      have hfolder := List.mem_of_getElem? hget
      dsimp only
      cases hparent : (c.folder folder).parent with
      | none =>
        refine ih hl hlt (by omega) (hclosed.next hget fun p hp => ?_)
        rw [ParentOf, hparent] at hp
        cases hp
      | some parent =>
        have hstep : ParentOf c folder parent := hparent
        dsimp only
        rw [searchAppendFolder]
        split
        next hmem =>
          refine ih hl hlt (by omega) (hclosed.next hget fun p hp => ?_)
          rw [ParentOf, hparent] at hp
          cases hp
          exact hmem
        next hnew =>
          have hnodup : (l ++ [parent]).Nodup := by
            refine List.nodup_append.mpr ⟨hl, List.nodup_singleton _, ?_⟩
            intro a ha b hb heq
            rw [List.mem_singleton.mp hb] at heq
            exact hnew (heq ▸ ha)
          have hbound : ∀ f ∈ l ++ [parent], f < c.folders.length := by
            intro f hf
            rcases List.mem_append.mp hf with hf | hf
            · exact hlt f hf
            · rw [List.mem_singleton.mp hf]
              exact parent_lt (hlt folder hfolder) hstep
          obtain ⟨rest, heq, hall, hparents, hancestors⟩ := ih hnodup hbound (by omega) (hclosed.append hget hstep)
          rw [List.append_assoc] at *
          refine ⟨parent :: rest, heq, hall, hparents, ?_⟩
          intro p hp
          rcases List.mem_cons.mp hp with rfl | hp
          · exact ⟨folder, hfolder, .single hstep⟩
          · obtain ⟨f, hf, hancestor⟩ := hancestors p hp
            rcases List.mem_append.mp hf with hf | hf
            · exact ⟨f, hf, hancestor⟩
            · rw [List.mem_singleton.mp hf] at hancestor
              exact ⟨folder, hfolder, .head hstep hancestor⟩

end

/-! The tags of a definition without blanks. -/

/-- The tags: what is between commas, up to a semicolon. -/
def tags (w : Bytes) : List Bytes := (words (· = comma) w).map fun part => part.takeWhile (· ≠ semicolon)

section
variable {w : Bytes}

theorem usedTag_plain (w : Bytes) : usedTag false w = w.takeWhile inTag := by
  rw [usedTag, if_neg fun h => Bool.false_ne_true h.1]

private theorem takeWhile_inTag (w : Bytes) :
    w.takeWhile inTag = (w.takeWhile fun x => !decide (x = comma)).takeWhile (· ≠ semicolon) := by
  induction w with
  | nil => rfl
  | cons x w ih =>
    by_cases hcomma : x = comma
    · rw [List.takeWhile_cons_of_neg (by simp [inTag, hcomma]), List.takeWhile_cons_of_neg (by simp [hcomma])]
      rfl
    · rw [List.takeWhile_cons_of_pos (p := fun x => !decide (x = comma)) (by simp [hcomma])]
      by_cases hsemicolon : x = semicolon
      · rw [List.takeWhile_cons_of_neg (by simp [inTag, hsemicolon]),
          List.takeWhile_cons_of_neg (by simp [hsemicolon])]
      · rw [List.takeWhile_cons_of_pos (by simp [inTag, hcomma, hsemicolon]),
          List.takeWhile_cons_of_pos (by simp [hsemicolon]), ih]

private theorem ne_comma : (fun x : UInt8 => decide (x ≠ comma)) = fun x => !decide (x = comma) := by
  funext x
  exact decide_not

private theorem dropWhile_separator (h : ∀ b ∈ w, isBlank b = false) :
    w.dropWhile isSeparator = w.dropWhile fun x => decide (x = comma) := by
  induction w with
  | nil => rfl
  | cons x w ih =>
    obtain ⟨hx, hw⟩ := List.forall_mem_cons.mp h
    have hsep : isSeparator x = decide (x = comma) := by rw [isSeparator, hx, Bool.false_or]
    rw [List.dropWhile_cons, List.dropWhile_cons, hsep, ih hw]

private theorem tags_nil : tags [] = [] := rfl

private theorem tags_skip (w : Bytes) : tags (w.dropWhile fun x => decide (x = comma)) = tags w := by
  rw [tags, words_skip, tags]

private theorem tags_cons {x : UInt8} (h : x ≠ comma) : tags (x :: w) =
    (x :: w).takeWhile inTag :: tags ((x :: w).dropWhile fun y => !decide (y = comma)) := by
  have hx : decide (x = comma) = false := decide_eq_false h
  have hfirst : (x :: w).takeWhile (fun y => !decide (y = comma)) = x :: w.takeWhile fun y => !decide (y = comma) :=
    List.takeWhile_cons_of_pos (by simp [h])
  have hrest : (x :: w).dropWhile (fun y => !decide (y = comma)) = w.dropWhile fun y => !decide (y = comma) :=
    List.dropWhile_cons_of_pos (by simp [h])
  rw [tags, words_cons w hx, List.map_cons, takeWhile_inTag, hfirst, hrest, tags]

/-- The tags that are looked for are those of the definition, but for empty ones. -/
theorem usedTags_flatMap {F : Bytes → List FolderId} (hF : F [] = []) {fuel : Nat} (hfuel : w.length ≤ fuel)
    (h : ∀ b ∈ w, isBlank b = false) : (usedTags false fuel w).flatMap F = (tags w).flatMap F := by
  induction fuel generalizing w with
  | zero => rw [List.length_eq_zero_iff.mp (Nat.le_zero.mp hfuel), usedTags, tags_nil]
  | succ fuel ih =>
    cases w with
    | nil => rfl
    | cons x w =>
      have hdrop : ∀ b ∈ (x :: w).dropWhile (· ≠ comma), isBlank b = false :=
        fun b hb => h b ((List.dropWhile_sublist _).subset hb)
      have hafter : afterTag (x :: w) = ((x :: w).dropWhile (· ≠ comma)).dropWhile fun y => decide (y = comma) :=
        dropWhile_separator hdrop
      have hblank : ∀ b ∈ afterTag (x :: w), isBlank b = false := by
        rw [hafter]
        exact fun b hb => hdrop b ((List.dropWhile_sublist _).subset hb)
      have hlen : (afterTag (x :: w)).length ≤ fuel := by
        rw [List.length_cons] at hfuel
        rw [hafter]
        by_cases hx : x = comma
        · rw [List.dropWhile_cons_of_neg (by simp [hx]), List.dropWhile_cons_of_pos (by simp [hx])]
          have := (List.dropWhile_sublist (fun y => decide (y = comma)) (l := w)).length_le
          omega
        · rw [List.dropWhile_cons_of_pos (by simp [hx])]
          have h1 := (List.dropWhile_sublist (· ≠ comma) (l := w)).length_le
          have h2 := (List.dropWhile_sublist (fun y => decide (y = comma)) (l := w.dropWhile (· ≠ comma))).length_le
          omega
      rw [usedTags, if_neg (List.cons_ne_nil x w), List.flatMap_cons, ih hlen hblank, hafter, tags_skip, usedTag_plain]
      by_cases hx : x = comma
      · have hempty : (x :: w).takeWhile inTag = [] := List.takeWhile_cons_of_neg (by simp [inTag, hx])
        rw [hempty, hF, List.nil_append, List.dropWhile_cons_of_neg (by simp [hx])]
      · rw [tags_cons hx, List.flatMap_cons, ne_comma]

end

private theorem foldl_searchAppendFolder (folders : List FolderId) :
    folders.foldl searchAppendFolder [] = folders.eraseDups := by
  have h := foldl_append_eraseDups folders []
  rw [List.nil_append, List.filter_eq_self.mpr (by simp)] at h
  exact h

/-- A folder that is found is that of some name. -/
theorem mem_foundFolders {find : Bytes → Option FolderId} {immediate : Bool} {t : Bytes} {f : FolderId}
    (h : f ∈ foundFolders find immediate t) : ∃ t', find t' = some f := by
  cases immediate with
  | true =>
    obtain ⟨t', -, ht'⟩ := List.mem_filterMap.mp h
    exact ⟨t', ht'⟩
  | false =>
    obtain ⟨t', -, ht'⟩ := List.exists_of_findSome?_eq_some (Option.mem_toList.mp h)
    exact ⟨t', ht'⟩

/-- The folders found for a definition without blanks, tag after tag, each at its first place;
after them come ancestors only, and all of them. -/
theorem createFolders_order (sort : FolderSort) (entries : Locales) (d : CString) (length : Nat)
    (hlen : length ≤ d.1.length) (hblank : ∀ b ∈ d.1, isBlank b = false) (immediate : Bool) :
    ∃ find : Bytes → Option FolderId, (∀ t, Finds (initContainer sort entries).2.container t (find t)) ∧
    ∃ rest, createFolders (initContainer sort entries).2.container d.1 length immediate =
        ((tags (d.1.take length)).flatMap (foundFolders find immediate)).eraseDups ++ rest ∧
      (createFolders (initContainer sort entries).2.container d.1 length immediate).Nodup ∧
      (∀ f ∈ createFolders (initContainer sort entries).2.container d.1 length immediate, ∀ p,
        ParentOf (initContainer sort entries).2.container f p →
          p ∈ createFolders (initContainer sort entries).2.container d.1 length immediate) ∧
      ∀ p ∈ rest, ∃ f ∈ (tags (d.1.take length)).flatMap (foundFolders find immediate),
        AncestorOf (initContainer sort entries).2.container f p := by
  have hsorted := sorted_initContainer sort entries
  have hnul : ∀ i, 0 ∉ ((initContainer sort entries).2.container.folder i).name :=
    fun i => (holds_located (s := localeRootCreate _) rfl i).2
  generalize (initContainer sort entries).2.container = c at *
  have hfinds := finds_lookup hsorted hnul
  have hlookups : createFolders c d.1 length immediate = appendParents c c.folders.length 0
      ((tags (d.1.take length)).flatMap (foundFolders (lookup c) immediate)).eraseDups := by
    have hfree : ∀ b ∈ d.1.take length, isBlank b = false := fun b hb => hblank b (List.mem_of_mem_take hb)
    have hempty : foundFolders (lookup c) immediate [] = [] := by cases immediate <;> rfl
    have hend : isBlank (charAt d.1 length) = false := by
      rw [charAt, List.getD_eq_getElem?_getD]
      cases hget : d.1[length]? with
      | none => rfl
      | some b => exact hblank b (List.mem_of_getElem? hget)
    rw [createFolders, appendTags_eq hlen, hend, usedTags_flatMap hempty (by rw [List.length_take]; omega) hfree]
    exact congrArg _ (foldl_searchAppendFolder _)
  have hbound : ∀ f ∈ ((tags (d.1.take length)).flatMap (foundFolders (lookup c) immediate)).eraseDups,
      f < c.folders.length := by
    intro f hf
    obtain ⟨t, -, hf⟩ := List.mem_flatMap.mp (List.mem_eraseDups.mp hf)
    obtain ⟨t', ht'⟩ := mem_foundFolders hf
    have hfound := hfinds t'
    rw [ht'] at hfound
    exact hfound.1
  obtain ⟨rest, heq, hnodup, hclosed, hancestors⟩ := appendParents_spec (c := c) (i := 0) c.folders.length
    (nodup_eraseDups _) hbound (Nat.le_refl _) fun k hk => absurd hk (Nat.not_lt_zero k)
  refine ⟨lookup c, hfinds, rest, ?_⟩
  rw [hlookups, heq]
  refine ⟨rfl, hnodup, hclosed, ?_⟩
  intro p hp
  obtain ⟨f, hf, hancestor⟩ := hancestors p hp
  exact ⟨f, List.mem_eraseDups.mp hf, hancestor⟩

/-- The folders en, fr and fr-CA of a root, in the order of its directory. -/
def entriesFr : List Entry :=
  [⟨⟨[0x66, 0x72, 0x2D, 0x43, 0x41], by decide⟩, .directory⟩, folderEn, ⟨linkFr.name, .directory⟩]

/-- The definition fr-CA-x,en-US. -/
def definitionFr : CString :=
  ⟨[0x66, 0x72, 0x2D, 0x43, 0x41, 0x2D, 0x78, 0x2C, 0x65, 0x6E, 0x2D, 0x55, 0x53], by decide⟩

/-- Its tags are truncated to fr-CA and to en, then comes fr, the parent of fr-CA. -/
theorem createFolders_order_truncated : ∃ find : Bytes → Option FolderId,
    (∀ t, Finds (initContainer insertionSort (.entries entriesFr)).2.container t (find t)) ∧
      ∃ rest, [2, 0, 1] = ((tags (definitionFr.1.take 13)).flatMap (foundFolders find false)).eraseDups ++ rest ∧
        ∀ p ∈ rest, ∃ f, AncestorOf (initContainer insertionSort (.entries entriesFr)).2.container f p := by
  have hblank : (definitionFr.1.all fun b => !isBlank b) = true := by decide
  obtain ⟨find, hfind, rest, heq, -, -, hrest⟩ := createFolders_order insertionSort (.entries entriesFr)
    definitionFr 13 (by decide) (by simpa using hblank) false
  have hfound : createFolders (initContainer insertionSort (.entries entriesFr)).2.container
      definitionFr.1 13 false = [2, 0, 1] := by
    decide
  refine ⟨find, hfind, rest, hfound.symm.trans heq, fun p hp => ?_⟩
  obtain ⟨f, -, hancestor⟩ := hrest p hp
  exact ⟨f, hancestor⟩

end AfbBinder.Locale
