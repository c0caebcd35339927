import Mathlib.Data.List.TakeWhile
import AfbBinder.Locale.Cache
import AfbBinder.Locale.Orders

/-! Blanks around a tag of a definition: those before it are skipped, those after it are not. -/
namespace AfbBinder.Locale
open Lib.Bsearch Lib.Cstrings

/-- The folders of the search that locale_root_search returns. -/
def searchedFolders (s : Root) (definition : CString) (immediate : Bool) : List FolderId :=
  match localeRootSearch s (some definition) immediate true with
  | (some i, t) => (t.search i).folders
  | (none, _) => []

def EmptyCache (s : Root) : Prop := ∀ e ∈ s.lru, e = none

instance (s : Root) : Decidable (EmptyCache s) := inferInstanceAs (Decidable (∀ e ∈ s.lru, e = none))

def Blanks (x : Bytes) : Prop := ∀ b ∈ x, isBlank b = true

instance (x : Bytes) : Decidable (Blanks x) := List.decidableBAll (fun b => isBlank b = true) x

/-- A tag, without blank at its ends; it can be the name of a folder. -/
structure Tag (t : Bytes) : Prop where
  ne_nil : t ≠ []
  chars : ∀ b ∈ t, inTag b = true ∧ b ≠ 0
  name : special t = false
  head : ∀ b, t.head? = some b → isBlank b = false
  last : ∀ b, t.getLast? = some b → isBlank b = false

/-- In every definition, the blanks x before the tag and y after it, before the separator, make
no difference. -/
def Harmless (x t y sep : Bytes) : Prop :=
  ∀ (sort : FolderSort) (entries : Locales) (s : Root) (immediate : Bool) (pre rest : Bytes) (d e : CString),
    s.container = (initContainer sort entries).2.container → EmptyCache s →
    (pre = [] ∨ pre.getLast? = some comma) → (sep = [] → rest = []) →
    d.1 = pre ++ (x ++ (t ++ (y ++ (sep ++ rest)))) → e.1 = pre ++ (t ++ (sep ++ rest)) →
    searchedFolders s d immediate = searchedFolders s e immediate

/-! The tags that are looked for in a definition. -/

section
variable {w x y z t : Bytes} {blank : Bool} {fuel fuel' : Nat}

private theorem afterTag_length (h : w ≠ []) : (afterTag w).length < w.length := by
  cases w with
  | nil => exact absurd rfl h
  | cons c w =>
    rw [afterTag]
    by_cases hc : c = comma
    · rw [List.dropWhile_cons_of_neg (by simp [hc]), List.dropWhile_cons_of_pos (by simp [isSeparator, hc])]
      exact Nat.lt_succ_of_le (List.dropWhile_sublist isSeparator).length_le
    · rw [List.dropWhile_cons_of_pos (by simp [hc])]
      exact Nat.lt_succ_of_le ((List.dropWhile_sublist isSeparator).trans (List.dropWhile_sublist _)).length_le

/-- As much fuel as there are characters is enough. -/
theorem usedTags_fuel (h : w.length ≤ fuel) (h' : w.length ≤ fuel') :
    usedTags blank fuel w = usedTags blank fuel' w := by
  induction fuel generalizing fuel' w with
  | zero =>
    rw [List.length_eq_zero_iff.mp (Nat.le_zero.mp h)]
    cases fuel' <;> rfl
  | succ fuel ih =>
    by_cases hnil : w = []
    · rw [hnil]
      cases fuel' <;> rfl
    · have hlt := afterTag_length hnil
      cases fuel' with
      | zero => exact absurd (List.length_eq_zero_iff.mp (Nat.le_zero.mp h')) hnil
      | succ fuel' =>
        have hrest : usedTags blank fuel (afterTag w) = usedTags blank fuel' (afterTag w) := ih (by omega) (by omega)
        rw [usedTags, usedTags, if_neg hnil, if_neg hnil, hrest]

private theorem dropWhile_all {p : UInt8 → Bool} (h : ∀ b ∈ x, p b = true) : (x ++ z).dropWhile p =
    z.dropWhile p := by
  rw [List.dropWhile_append_of_pos h]

private theorem blanks_separators (h : Blanks x) : ∀ b ∈ x, isSeparator b = true := fun b hb => by
  rw [isSeparator, h b hb, Bool.true_or]

/-- A text that does not start with a separator, after another one. -/
theorem dropWhile_before (hz : ∀ b, z.head? = some b → isSeparator b = false) :
    (x ++ z).dropWhile isSeparator = x.dropWhile isSeparator ++ z := by
  induction x with
  | nil =>
    cases z with
    | nil => rfl
    | cons b z => exact List.dropWhile_cons_of_neg (by simp [hz b rfl])
  | cons c x ih =>
    rw [List.cons_append, List.dropWhile_cons, List.dropWhile_cons, ih]
    split <;> rfl

private theorem normalLength_append (ht : ∀ b, t.getLast? = some b → isSeparator b = false) :
    normalLength (t ++ z) = t.length + normalLength z := by
  rw [normalLength, normalLength, List.reverse_append, dropWhile_before, List.length_append, List.length_reverse,
    Nat.add_comm]
  intro b hb
  rw [List.head?_reverse] at hb
  exact ht b hb

/-- What ends with a comma still does without its start. -/
theorem last_suffix {q r : Bytes} (hsuffix : r <:+ q) (hq : q = [] ∨ q.getLast? = some comma) :
    r = [] ∨ r.getLast? = some comma := by
  obtain ⟨p, rfl⟩ := hsuffix
  by_cases hr : r = []
  · exact .inl hr
  · rcases hq with hnil | hlast
    · exact .inl (List.append_eq_nil_iff.mp hnil).2
    · rw [List.getLast?_append_of_ne_nil _ hr] at hlast
      exact .inr hlast

/-- The first tag of a text with a comma, and what follows it. -/
theorem comma_split {q : Bytes} (hmem : comma ∈ q) : ∃ r, q.dropWhile (· ≠ comma) = comma :: r ∧
    ∀ z, (q ++ z).takeWhile inTag = q.takeWhile inTag ∧ (q ++ z).dropWhile (· ≠ comma) = comma :: (r ++ z) := by
  induction q with
  | nil => exact absurd hmem List.not_mem_nil
  | cons c q ih =>
    by_cases hc : c = comma
    · refine ⟨q, by rw [hc]; exact List.dropWhile_cons_of_neg (by simp), fun z => ?_⟩
      rw [hc, List.cons_append, List.takeWhile_cons_of_neg (by decide), List.takeWhile_cons_of_neg (by decide),
        List.dropWhile_cons_of_neg (by simp)]
      exact ⟨rfl, rfl⟩
    · obtain ⟨r, hr, hall⟩ := ih ((List.mem_cons.mp hmem).resolve_left (Ne.symm hc))
      refine ⟨r, by rw [List.dropWhile_cons_of_pos (by simp [hc]), hr], fun z => ?_⟩
      obtain ⟨htake, hdrop⟩ := hall z
      rw [List.cons_append, List.takeWhile_cons, List.takeWhile_cons, htake,
        List.dropWhile_cons_of_pos (by simp [hc]), hdrop]
      exact ⟨rfl, rfl⟩

/-- Before a comma the end of the text does not matter. -/
theorem usedTag_comma {q : Bytes} (hmem : comma ∈ q) (z : Bytes) :
    usedTag blank (q ++ z) = q.takeWhile inTag := by
  obtain ⟨r, -, hall⟩ := comma_split hmem
  have hlt : (q.takeWhile inTag).length < q.length := by
    refine Nat.lt_of_le_of_ne (List.takeWhile_sublist _).length_le fun heq => ?_
    have hall := (List.takeWhile_sublist inTag).eq_of_length heq
    rw [← hall] at hmem
    exact absurd (List.all_eq_true.mp List.all_takeWhile comma hmem) (by decide)
  rw [usedTag, (hall z).1, if_neg]
  intro h
  rw [List.length_append] at h
  omega

/-- Blanks after a comma do not change the tags. -/
theorem usedTags_blanks {q : Bytes} (hq : q = [] ∨ q.getLast? = some comma) (hx : Blanks x)
    (hz : ∀ b, z.head? = some b → isSeparator b = false)
    (h : ((q ++ x).dropWhile isSeparator ++ z).length ≤ fuel) (h' : (q.dropWhile isSeparator ++ z).length ≤ fuel') :
    usedTags blank fuel ((q ++ x).dropWhile isSeparator ++ z) = usedTags blank fuel' (q.dropWhile isSeparator ++ z) := by
  induction hn : q.length using Nat.strong_induction_on generalizing q fuel fuel' with
  | _ n ih =>
    have happend := @List.dropWhile_append _ isSeparator q x
    by_cases hnil : q.dropWhile isSeparator = []
    · have hall : x.dropWhile isSeparator = [] := by
        have := dropWhile_all (z := []) (blanks_separators hx)
        rwa [List.append_nil] at this
      rw [hnil, List.isEmpty_nil, if_pos rfl, hall] at happend
      rw [happend] at h ⊢
      rw [hnil] at h' ⊢
      exact usedTags_fuel h h'
    · have hcons : (q ++ x).dropWhile isSeparator = q.dropWhile isSeparator ++ x := by
        rw [happend, if_neg (by simpa using hnil)]
      have hsuffix := List.dropWhile_suffix isSeparator (l := q)
      have hlast := (last_suffix hsuffix hq).resolve_left hnil
      have hmem : comma ∈ q.dropWhile isSeparator := List.mem_of_getLast? hlast
      obtain ⟨r, hr, hall⟩ := comma_split hmem
      have hrsuffix : r <:+ q :=
        ((List.suffix_cons comma r).trans (hr ▸ List.dropWhile_suffix _)).trans hsuffix
      have hrlen : r.length < q.length := by
        have hle := ((hr ▸ List.dropWhile_suffix (· ≠ comma) : comma :: r <:+ q.dropWhile isSeparator).trans
          hsuffix).length_le
        rw [List.length_cons] at hle
        omega
      have hafter (y : Bytes) : afterTag (q.dropWhile isSeparator ++ (y ++ z)) =
          (r ++ y).dropWhile isSeparator ++ z := by
        rw [afterTag, (hall (y ++ z)).2, List.dropWhile_cons_of_pos (by decide), ← List.append_assoc,
          dropWhile_before hz]
      have hne (y : Bytes) : q.dropWhile isSeparator ++ (y ++ z) ≠ [] := fun h => hnil (List.append_eq_nil_iff.mp h).1
      have hlen1 := afterTag_length (hne x)
      have hlen2 := afterTag_length (hne [])
      have hplain : q.dropWhile isSeparator ++ z = q.dropWhile isSeparator ++ ([] ++ z) := rfl
      rw [hcons, List.append_assoc] at h ⊢
      rw [hplain] at h' ⊢
      rw [hafter] at hlen1 hlen2
      rw [List.append_nil] at hlen2
      cases fuel with
      | zero => exact absurd (List.length_eq_zero_iff.mp (Nat.le_zero.mp h)) (hne x)
      | succ fuel =>
        cases fuel' with
        | zero => exact absurd (List.length_eq_zero_iff.mp (Nat.le_zero.mp h')) (hne [])
        | succ fuel' =>
          have htags := ih r.length (by omega) (last_suffix hrsuffix hq) (Nat.le_of_lt_succ (Nat.lt_of_lt_of_le hlen1 h))
            (Nat.le_of_lt_succ (Nat.lt_of_lt_of_le hlen2 h')) rfl
          rw [usedTags, usedTags, if_neg (hne x), if_neg (hne []), usedTag_comma hmem, usedTag_comma hmem, hafter,
            hafter, List.append_nil, htags]

/-- A text without comma is one tag. -/
theorem usedTags_single (hne : w ≠ []) (hcomma : comma ∉ w) : usedTags blank w.length w = [usedTag blank w] := by
  cases hlen : w.length with
  | zero => exact absurd (List.length_eq_zero_iff.mp hlen) hne
  | succ n =>
    have hafter : afterTag w = [] := by
      have hall : w.dropWhile (· ≠ comma) = [] := List.dropWhile_eq_nil_iff.mpr fun b hb => by
        have hne : b ≠ comma := fun h => hcomma (h ▸ hb)
        simpa using hne
      rw [afterTag, hall]
      rfl
    rw [usedTags, if_neg hne, hafter]
    cases n <;> rfl

private theorem usedTag_blank (ht : Tag t) : usedTag true t = t.take (t.length - 1) := by
  have hall : t.takeWhile inTag = t := List.takeWhile_eq_self_iff.mpr fun b hb => (ht.chars b hb).1
  rw [usedTag, hall, if_pos ⟨rfl, rfl⟩, trim_of_not_blank]
  have hpos := List.length_pos_iff.mpr ht.ne_nil
  rw [charAt, List.getD_eq_getElem?_getD, ← List.getLast?_eq_getElem?, List.getLast?_eq_some_getLast ht.ne_nil]
  exact ht.last _ (List.getLast?_eq_some_getLast ht.ne_nil)

/-- A truncation ends before a dash. -/
theorem mem_truncations {u v : Bytes} (h : v ∈ truncations u) : v = u ∨ ∃ j, charAt u j = dash ∧ v = u.take j := by
  have hbelow (k : Nat) (h : v ∈ truncationsBelow u k) : ∃ j, charAt u j = dash ∧ v = u.take j := by
    induction k with
    | zero => exact absurd h List.not_mem_nil
    | succ k ih =>
      rw [truncationsBelow] at h
      split at h
      next hdash =>
        rcases List.mem_cons.mp h with heq | h
        · exact ⟨k, hdash.2.1, heq⟩
        · exact ih h
      next => exact ih h
  rw [truncations] at h
  split at h
  · exact absurd h List.not_mem_nil
  · exact (List.mem_cons.mp h).imp_right (hbelow _)

end

/-! The folders of a definition with the tag. -/

section
variable {s : Root} {c : Container} {t w : Bytes} {d : CString} {immediate : Bool}

private theorem searchedFolders_eq (h : EmptyCache s) (d : CString) (immediate : Bool) :
    searchedFolders s d immediate =
    createFolders s.container (normalStart (some d)) (normalLength (normalStart (some d))) immediate := by
  rcases search_cases s (some d) immediate true with ⟨i, e, -, hget, -⟩ | ⟨-, heq⟩
  · exact absurd (h _ (List.mem_of_getElem? hget)) (by simp)
  · rw [if_pos rfl] at heq
    rw [searchedFolders, heq]
    have hunref := made_unref (createSearch s (normalStart (some d)) (normalLength (normalStart (some d))) immediate)
      (s.lru.getLastD none) s.count
    refine (congrArg (fun m => m.2.1) (made_setRefcount _ s.count s.count _)).trans ?_
    refine (congrArg (fun m => m.2.1) hunref).trans ?_
    simp only [createSearch, Function.update_self, made]

private theorem Tag.head_separator (ht : Tag t) (w : Bytes) : ∀ b, (t ++ w).head? = some b → isSeparator b =
    false := by
  intro b hb
  rw [List.head?_append_of_ne_nil _ ht.ne_nil] at hb
  have hcomma : b ≠ comma := by
    rintro rfl
    exact absurd (ht.chars _ (List.mem_of_head? hb)).1 (by decide)
  simp [isSeparator, ht.head b hb, hcomma]

private theorem Tag.last_separator (ht : Tag t) (p : Bytes) : ∀ b, (p ++ t).getLast? = some b →
    isSeparator b = false := by
  intro b hb
  rw [List.getLast?_append_of_ne_nil _ ht.ne_nil] at hb
  have hcomma : b ≠ comma := by
    rintro rfl
    exact absurd (ht.chars _ (List.mem_of_getLast? hb)).1 (by decide)
  simp [isSeparator, ht.last b hb, hcomma]

/-- The folders, by the text before the tag and the text after it. -/
theorem folders_around {p : Bytes} (ht : Tag t) (hd : d.1 = p ++ (t ++ w)) :
    createFolders c (normalStart (some d)) (normalLength (normalStart (some d))) immediate =
      appendParents c c.folders.length 0 (((usedTags (isBlank (charAt w (normalLength w)))
        (p.dropWhile isSeparator ++ (t ++ w.take (normalLength w))).length
        (p.dropWhile isSeparator ++ (t ++ w.take (normalLength w)))).flatMap
          (foundFolders (lookup c) immediate)).foldl searchAppendFolder []) := by
  have hstart : normalStart (some d) = (p.dropWhile isSeparator ++ t) ++ w := by
    rw [normalStart, hd, dropWhile_before (ht.head_separator w), List.append_assoc]
  have hlen := normalLength_append (ht.last_separator (p.dropWhile isSeparator)) (z := w)
  have hle := normalLength_le w
  have htake : ((p.dropWhile isSeparator ++ t) ++ w).take (normalLength ((p.dropWhile isSeparator ++ t) ++ w)) =
      p.dropWhile isSeparator ++ (t ++ w.take (normalLength w)) := by
    rw [hlen, List.take_length_add_append, List.append_assoc]
  have hlength : (p.dropWhile isSeparator ++ (t ++ w.take (normalLength w))).length =
      normalLength ((p.dropWhile isSeparator ++ t) ++ w) := by
    rw [hlen, List.length_append, List.length_append, List.length_append, List.length_take, Nat.min_eq_left hle,
      Nat.add_assoc]
  have hbound : normalLength ((p.dropWhile isSeparator ++ t) ++ w) ≤ ((p.dropWhile isSeparator ++ t) ++ w).length := by
    rw [hlen, @List.length_append _ (p.dropWhile isSeparator ++ t) w]
    omega
  have hchar : charAt ((p.dropWhile isSeparator ++ t) ++ w) (normalLength ((p.dropWhile isSeparator ++ t) ++ w)) =
      charAt w (normalLength w) := by
    rw [hlen, charAt, charAt, List.getD_eq_getElem?_getD, List.getD_eq_getElem?_getD,
      List.getElem?_append_right (Nat.le_add_right ..), Nat.add_sub_cancel_left]
  rw [createFolders, hstart, appendTags_eq hbound, hchar, htake, hlength]

/-- The folders of a definition with one tag. -/
theorem folders_single {p : Bytes} (hp : Blanks p) (ht : Tag t) (hd : d.1 = p ++ (t ++ w)) (hcomma : comma ∉ w.take (normalLength w)) :
    createFolders c (normalStart (some d)) (normalLength (normalStart (some d))) false =
      appendParents c c.folders.length 0 ((((truncations (usedTag (isBlank (charAt w (normalLength w)))
        (t ++ w.take (normalLength w)))).findSome? (lookup c)).toList).foldl searchAppendFolder []) := by
  have hfree : comma ∉ t ++ w.take (normalLength w) := by
    intro h
    rcases List.mem_append.mp h with h | h
    · exact absurd (ht.chars _ h).1 (by decide)
    · exact hcomma h
  rw [folders_around ht hd, List.dropWhile_eq_nil_iff.mpr (blanks_separators hp), List.nil_append,
    usedTags_single (fun h => ht.ne_nil (List.append_eq_nil_iff.mp h).1) hfree, List.flatMap_singleton]
  rfl

/-! A root with the only folder of the tag. -/

/-- The container of the only folder t. -/
def folderOf (t : CString) : Container := (initContainer insertionSort (.entries [⟨t, .directory⟩])).2.container

private theorem folderOf_folders {t : CString} (h : special t = false) :
    (folderOf t).folders.length = 1 ∧ ((folderOf t).folder 0).name = t := by
  have hscan : ([⟨t, .directory⟩] : List Entry).foldl scanEntry (.start, 0) = (addFolder .start t, 0) := by
    rw [List.foldl_cons, List.foldl_nil, scanEntry, h]
    rfl
  rw [folderOf, initContainer, hscan]
  exact ⟨rfl, rfl⟩

private theorem folderOf_finds {t : CString} (u : Bytes) : Finds (folderOf t) u (lookup (folderOf t) u) :=
  finds_lookup (sorted_initContainer _ _) (fun i => (holds_located (s := localeRootCreate _) rfl i).2) u

private theorem lookup_self {t : CString} (h : special t = false) : lookup (folderOf t) t ≠ none := by
  have hfinds := folderOf_finds (t := t) t
  obtain ⟨hlen, hname⟩ := folderOf_folders h
  intro hnone
  rw [hnone] at hfinds
  exact hfinds 0 (by omega) (by rw [hname]; exact strcasecmp_self)

/-- It is not found by a name of another length. -/
theorem lookup_other {t : CString} (h : special t = false) {u : Bytes} (hu : u.length ≠ t.1.length) :
    lookup (folderOf t) u = none := by
  have hfinds := folderOf_finds (t := t) u
  obtain ⟨hlen, hname⟩ := folderOf_folders h
  cases hfound : lookup (folderOf t) u with
  | none => rfl
  | some i =>
    rw [hfound] at hfinds
    obtain ⟨hi, heq⟩ := hfinds
    rw [hlen] at hi
    rw [Nat.lt_one_iff.mp hi, hname, strcasecmp_eq] at heq
    have hsame := congrArg List.length heq
    rw [List.length_map, List.length_map] at hsame
    exact absurd hsame.symm hu

end

section
variable {x y t sep : Bytes}

private theorem harmless_before (hx : Blanks x) (ht : Tag t) : Harmless x t [] sep := by
  intro sort entries s immediate pre rest d e _ hcache hpre _ hd he
  have hd' : d.1 = (pre ++ x) ++ (t ++ (sep ++ rest)) := by rw [hd, List.nil_append, List.append_assoc]
  rw [searchedFolders_eq hcache, searchedFolders_eq hcache, folders_around ht hd', folders_around ht he,
    usedTags_blanks hpre hx (ht.head_separator _) (Nat.le_refl _) (Nat.le_refl _)]

private theorem blank_dropped (hy : Blanks y) (w : Bytes) (hw : ∀ b ∈ w, b = comma) : normalLength
    (y ++ w) = 0 := by
  have hall : (y ++ w).reverse.dropWhile isSeparator = [] := List.dropWhile_eq_nil_iff.mpr fun b hb => by
    rcases List.mem_append.mp (List.mem_reverse.mp hb) with hb | hb
    · exact blanks_separators hy b hb
    · rw [hw b hb]
      rfl
  rw [normalLength, hall]
  rfl

/-- With blanks after it, before the separator, another tag is looked for: none of its
truncations is as long. -/
theorem truncations_length (ht : Tag t) (hy : Blanks y) (hne : y ≠ []) (hsep : sep ∈ [[], [comma], [semicolon]])
    {v : Bytes} (hv : v ∈ truncations (usedTag (isBlank (charAt (y ++ sep) (normalLength (y ++ sep))))
      (t ++ (y ++ sep).take (normalLength (y ++ sep))))) : v.length ≠ t.length := by
  have hpos := List.length_pos_iff.mpr ht.ne_nil
  have hypos := List.length_pos_iff.mpr hne
  by_cases hlast : sep = [semicolon]
  · have hlen : normalLength (y ++ sep) = (y ++ sep).length := by
      have h := normalLength_append (t := y ++ sep) (z := []) fun b hb => by
        rw [hlast, List.getLast?_concat, Option.some.injEq] at hb
        rw [← hb]
        rfl
      rwa [List.append_nil] at h
    have hend : charAt (y ++ sep) (y ++ sep).length = 0 := by simp [charAt]
    have htag : (t ++ (y ++ sep)).takeWhile inTag = t ++ y := by
      rw [← List.append_assoc, List.takeWhile_append_of_pos, hlast]
      · rw [List.takeWhile_cons_of_neg (by decide), List.append_nil]
      · intro b hb
        rcases List.mem_append.mp hb with hb | hb
        · exact (ht.chars b hb).1
        · have hblank := hy b hb
          rw [isBlank, Bool.or_eq_true, decide_eq_true_eq, decide_eq_true_eq] at hblank
          rcases hblank with rfl | rfl <;> rfl
    rw [hlen, List.take_length, hend, show isBlank 0 = false from rfl, usedTag_plain, htag] at hv
    rcases mem_truncations hv with rfl | ⟨j, hdash, rfl⟩
    · rw [List.length_append]
      omega
    · have hj : j < t.length := by
        by_contra hge
        rw [charAt, List.getD_eq_getElem?_getD, List.getElem?_append_right (by omega)] at hdash
        cases hget : y[j - t.length]? with
        | none =>
          rw [hget] at hdash
          exact absurd hdash (by decide)
        | some b =>
          rw [hget, Option.getD_some] at hdash
          exact absurd (hdash ▸ hy b (List.mem_of_getElem? hget)) (by decide)
      rw [List.length_take]
      omega
  · have hcommas : ∀ b ∈ sep, b = comma := by
      simp only [List.mem_cons, List.not_mem_nil, or_false] at hsep
      rcases hsep with rfl | rfl | rfl
      · exact fun b hb => absurd hb List.not_mem_nil
      · exact fun b hb => List.mem_singleton.mp hb
      · exact absurd rfl hlast
    obtain ⟨b, y', rfl⟩ := List.exists_cons_of_ne_nil hne
    have hblank : isBlank (charAt (b :: y' ++ sep) 0) = true := hy b List.mem_cons_self
    rw [blank_dropped hy sep hcommas, List.take_zero, List.append_nil, hblank, usedTag_blank ht] at hv
    rcases mem_truncations hv with rfl | ⟨j, -, rfl⟩
    · rw [List.length_take]
      omega
    · rw [List.length_take, List.length_take]
      omega

private theorem Tag.noNul (ht : Tag t) : 0 ∉ t := fun h => (ht.chars 0 h).2 rfl

private theorem blanks_noNul (hx : Blanks x) : 0 ∉ x := fun h => absurd (hx 0 h) (by decide)

/-- No comma is left between the blanks and the separator. -/
theorem comma_dropped (hy : Blanks y) (hsep : sep ∈ [[], [comma], [semicolon]]) :
    comma ∉ (y ++ sep).take (normalLength (y ++ sep)) := by
  have hcomma : comma ∉ y := fun h => absurd (hy comma h) (by decide)
  by_cases hlast : sep = [comma]
  · rw [hlast, blank_dropped hy _ fun b hb => List.mem_singleton.mp hb, List.take_zero]
    exact List.not_mem_nil
  · intro h
    rcases List.mem_append.mp (List.mem_of_mem_take h) with h | h
    · exact hcomma h
    · simp only [List.mem_cons, List.not_mem_nil, or_false] at hsep
      rcases hsep with rfl | rfl | rfl
      · exact absurd h List.not_mem_nil
      · exact hlast rfl
      · exact absurd h (by decide)

/-- Without blanks the tag is looked for. -/
theorem usedTag_alone (ht : Tag t) (hsep : sep ∈ [[], [comma], [semicolon]]) :
    usedTag (isBlank (charAt sep (normalLength sep))) (t ++ sep.take (normalLength sep)) = t := by
  have hall (w : Bytes) (hw : w.takeWhile inTag = []) : (t ++ w).takeWhile inTag = t := by
    rw [List.takeWhile_append_of_pos fun b hb => (ht.chars b hb).1, hw, List.append_nil]
  have hblank : isBlank (charAt sep (normalLength sep)) = false := by
    simp only [List.mem_cons, List.not_mem_nil, or_false] at hsep
    rcases hsep with rfl | rfl | rfl <;> rfl
  rw [hblank, usedTag_plain, hall]
  simp only [List.mem_cons, List.not_mem_nil, or_false] at hsep
  rcases hsep with rfl | rfl | rfl <;> rfl

private theorem mem_appendParents {c : Container} {fuel i : Nat} {l : List FolderId} {f : FolderId}
    (h : f ∈ l) :
    f ∈ appendParents c fuel i l := by
  induction fuel generalizing i l with
  | zero => exact h
  | succ fuel ih =>
    rw [appendParents]
    split
    · exact h
    · split
      · exact ih h
      · apply ih
        rw [searchAppendFolder]
        split
        · exact h
        · exact List.mem_append_left _ h

/-- The blanks that make no difference in any definition are those before the tags. -/
theorem blanks_harmless_iff (hx : Blanks x) (ht : Tag t) (hy : Blanks y) (hsep : sep ∈ [[], [comma], [semicolon]]) :
    Harmless x t y sep ↔ y = [] := by
  constructor
  · intro hall
    by_contra hne
    have hnul : 0 ∉ sep := by
      simp only [List.mem_cons, List.not_mem_nil, or_false] at hsep
      rcases hsep with rfl | rfl | rfl <;> decide
    have hd : 0 ∉ x ++ (t ++ (y ++ sep)) := by
      simp [blanks_noNul hx, ht.noNul, blanks_noNul hy, hnul]
    have he : 0 ∉ t ++ sep := by simp [ht.noNul, hnul]
    have hnil : Blanks [] := fun b hb => absurd hb List.not_mem_nil
    have hcache : EmptyCache (localeRootCreate (folderOf ⟨t, ht.noNul⟩)) := by simp [EmptyCache, localeRootCreate]
    have hsame := hall insertionSort (.entries [⟨⟨t, ht.noNul⟩, .directory⟩]) (localeRootCreate (folderOf ⟨t, ht.noNul⟩))
      false [] [] ⟨_, hd⟩ ⟨_, he⟩ rfl hcache (.inl rfl) (fun _ => rfl) (by simp) (by simp)
    rw [searchedFolders_eq hcache, searchedFolders_eq hcache, folders_single hx ht rfl (comma_dropped hy hsep),
      folders_single (w := sep) hnil ht rfl (comma_dropped hnil hsep), usedTag_alone ht hsep] at hsame
    have hnone : (truncations (usedTag (isBlank (charAt (y ++ sep) (normalLength (y ++ sep))))
        (t ++ (y ++ sep).take (normalLength (y ++ sep))))).findSome? (lookup (folderOf ⟨t, ht.noNul⟩)) = none :=
      List.findSome?_eq_none_iff.mpr fun v hv => lookup_other ht.name (truncations_length ht hy hne hsep hv)
    obtain ⟨i, hi⟩ := Option.ne_none_iff_exists'.mp (lookup_self (t := ⟨t, ht.noNul⟩) ht.name)
    have hsome : (truncations t).findSome? (lookup (folderOf ⟨t, ht.noNul⟩)) = some i := by
      rw [truncations, if_neg ht.ne_nil, List.findSome?_cons, hi]
    have hmem : i ∈ appendParents (folderOf ⟨t, ht.noNul⟩) (folderOf ⟨t, ht.noNul⟩).folders.length 0 [i] :=
      mem_appendParents (List.mem_singleton_self i)
    simp only [localeRootCreate, hnone, hsome, Option.toList, List.foldl_nil, List.foldl_cons, searchAppendFolder,
      List.not_mem_nil, if_false, List.nil_append] at hsame
    rw [← hsame, (folderOf_folders ht.name).1] at hmem
    exact List.not_mem_nil hmem
  · rintro rfl
    exact harmless_before hx ht

private theorem tag_en : Tag [0x65, 0x6E] where
  ne_nil := by decide
  chars := List.forall_mem_cons.mpr ⟨by decide, List.forall_mem_singleton.mpr (by decide)⟩
  name := by decide
  head := by
    rintro b ⟨⟩
    decide
  last := by
    rintro b ⟨⟩
    decide

/-- A space before the tag en, before a comma. -/
theorem blanks_harmless_en : Harmless [space] [0x65, 0x6E] [] [comma] :=
  (blanks_harmless_iff (by decide) tag_en (by decide) (by decide)).mpr rfl

/-- A space between the tag en and a comma makes its folder not found. -/
theorem blanks_after_en : ¬ Harmless [] [0x65, 0x6E] [space] [comma] := by
  intro hall
  have h := hall insertionSort (.entries [⟨⟨[0x65, 0x6E], by decide⟩, .directory⟩])
    (localeRootCreate (folderOf ⟨[0x65, 0x6E], by decide⟩)) false [] [0x66, 0x72]
    ⟨[0x65, 0x6E, space, comma, 0x66, 0x72], by decide⟩ ⟨[0x65, 0x6E, comma, 0x66, 0x72], by decide⟩ rfl (by decide)
    (.inl rfl) (fun h => nomatch h) rfl rfl
  exact absurd h (by decide)

end

end AfbBinder.Locale
