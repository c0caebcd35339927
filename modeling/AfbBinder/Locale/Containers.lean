import Mathlib.Data.List.Sort
import AfbBinder.Locale.Model

/-! The folders of a root: what init_container finds in the directory of the locales. -/
namespace AfbBinder.Locale
open Lib.Bsearch Lib.Cstrings

/-- What fstatat tells of an entry: an error for a link that leads nowhere. -/
inductive Stat where
  | directory
  | other
  | error
  deriving DecidableEq, Repr

/-- An entry as readdir returns it, with what fstatat tells of it. -/
structure Entry where
  name : CString
  stat : Stat
  deriving DecidableEq

/-- The directory of the locales: there is none, an error occurs while it is read, or these
are its entries. -/
inductive Locales where
  | missing
  | unreadable
  | entries (l : List Entry)

/-- qsort with compare_folders_for_qsort; where it puts names that compare equal is not told. -/
structure FolderSort where
  run : List Bytes → List Bytes
  perm : ∀ names, (run names).Perm names
  sorted : ∀ names, (run names).Pairwise fun a b => (strcasecmp a b).isLE

abbrev dot : UInt8 := 0x2E

/-- The names . and .. -/
def special (name : Bytes) : Bool :=
  charAt name 0 = dot && (charAt name 1 = 0 || (charAt name 1 = dot && charAt name 2 = 0))

/-- The folders added so far, before they have parents. -/
structure Scanned where
  names : List Bytes
  maxlength : Nat
  lengthLe : ∀ n ∈ names, n.length ≤ maxlength
  noNul : ∀ n ∈ names, 0 ∉ n
  attained : maxlength = 0 ∨ ∃ n ∈ names, n.length = maxlength

def Scanned.start : Scanned where
  names := []
  maxlength := 0
  lengthLe _ h := absurd h List.not_mem_nil
  noNul _ h := absurd h List.not_mem_nil
  attained := .inl rfl

/-- The memory suffices. -/
def addFolder (c : Scanned) (name : CString) : Scanned where
  names := c.names ++ [name.1]
  maxlength := if name.1.length > c.maxlength then name.1.length else c.maxlength
  lengthLe n hn := by
    rcases List.mem_append.mp hn with hn | hn
    · have := c.lengthLe n hn
      split <;> omega
    · rw [List.mem_singleton.mp hn]
      split <;> omega
  noNul n hn := by
    rcases List.mem_append.mp hn with hn | hn
    · exact c.noNul n hn
    · rw [List.mem_singleton.mp hn]
      exact name.2
  attained := by
    split
    · exact .inr ⟨name.1, by simp, rfl⟩
    · rcases c.attained with h | ⟨n, hn, heq⟩
      · exact .inl h
      · exact .inr ⟨n, List.mem_append_left _ hn, heq⟩

/-- An iteration over the entries; rc is the one of its last call. -/
def scanEntry (r : Scanned × Int) (dent : Entry) : Scanned × Int :=
  match dent.stat with
  | .error => (r.1, -1)
  | .other => (r.1, 0)
  | .directory => (if special dent.name then r.1 else addFolder r.1 dent.name, 0)

/-- Folders without parents. -/
def named (names : List Bytes) : Container where
  folders := names.map fun name => ⟨name, none⟩
  parentsLt := by
    intro f hf p hp
    obtain ⟨name, -, rfl⟩ := List.mem_map.mp hf
    cases hp

/-- From the end of the name, the first folder before a dash. -/
def findParent (c : Container) (name : Bytes) : Nat → Option FolderId
  | 0 => none
  | j + 1 =>
    match (if charAt name j = dash then searchFolder c name j else none) with
    | some parent => some parent
    | none => findParent c name j

private theorem searchFolder_lt {c : Container} {name : Bytes} {n i : Nat}
    (h : searchFolder c name n = some i) :
    i < c.folders.length := (bsearch_sound h).2.1

private theorem findParent_lt {c : Container} {name : Bytes} {j i : Nat} (h : findParent c name j = some i) :
    i < c.folders.length := by
  induction j with
  | zero => cases h
  | succ j ih =>
    rw [findParent] at h
    split at h
    next parent hfound =>
      cases h
      split at hfound
      · exact searchFolder_lt hfound
      · cases hfound
    next => exact ih h

/-- The folders of these names, with the links to their parents. -/
def linkParents (names : List Bytes) : Container where
  folders := names.map fun name => ⟨name, findParent (named names) name name.length⟩
  parentsLt := by
    intro f hf p hp
    obtain ⟨name, -, rfl⟩ := List.mem_map.mp hf
    have hlt := findParent_lt hp
    rwa [named, List.length_map] at hlt ⊢

/-- A container with its maxlength, that no name exceeds. -/
structure Located where
  container : Container
  maxlength : Nat
  lengthLe : ∀ f ∈ container.folders, f.name.length ≤ maxlength
  noNul : ∀ f ∈ container.folders, 0 ∉ f.name

private theorem Located.ext {a b : Located} (hc : a.container = b.container)
    (hm : a.maxlength = b.maxlength) : a = b := by
  obtain ⟨c, m, hle, hnul⟩ := a
  obtain ⟨d, n, hle', hnul'⟩ := b
  cases hc
  cases hm
  rfl

/-- The container of a root, that init_container built. -/
def Holds (s : Root) (maxlength : Nat) : Prop :=
  ∀ i, (s.container.folder i).name.length ≤ maxlength ∧ 0 ∉ (s.container.folder i).name

theorem holds_located {s : Root} {c : Located} (h : s.container = c.container) : Holds s c.maxlength := by
  intro i
  rw [h, Container.folder, List.getD_eq_getElem?_getD]
  cases hi : c.container.folders[i]? with
  | none => exact ⟨Nat.zero_le _, List.not_mem_nil⟩
  | some f =>
    have hf := List.mem_of_getElem? hi
    exact ⟨c.lengthLe f hf, c.noNul f hf⟩

/-- The folders found, sorted and linked. -/
def Scanned.located (sort : FolderSort) (r : Scanned) : Located where
  container := linkParents (sort.run r.names)
  maxlength := r.maxlength
  lengthLe f hf := by
    obtain ⟨name, hname, rfl⟩ := List.mem_map.mp hf
    exact r.lengthLe name ((sort.perm r.names).mem_iff.mp hname)
  noNul f hf := by
    obtain ⟨name, hname, rfl⟩ := List.mem_map.mp hf
    exact r.noNul name ((sort.perm r.names).mem_iff.mp hname)

/-- The status and the container. -/
def initContainer (sort : FolderSort) : Locales → Int × Located
  | .missing => (0, Scanned.start.located sort)
  | .unreadable => (-1, Scanned.start.located sort)
  | .entries l =>
    let r := l.foldl scanEntry (.start, 0)
    (r.2, r.1.located sort)

/-! What the scan of the entries gives. -/

/-- The folder of an entry. -/
def folderName (dent : Entry) : Option Bytes :=
  if dent.stat = .directory ∧ special dent.name = false then some dent.name.1 else none

section
variable {sort : FolderSort} {l l' : List Entry} {dent : Entry} {r : Scanned × Int}

private theorem scanEntry_names (r : Scanned × Int) (dent : Entry) :
    (scanEntry r dent).1.names = r.1.names ++ (folderName dent).toList := by
  unfold scanEntry folderName
  cases hstat : dent.stat with
  | error => simp
  | other => simp
  | directory => cases hspecial : special dent.name <;> simp [addFolder]

private theorem foldl_names (r : Scanned × Int) (l : List Entry) :
    (l.foldl scanEntry r).1.names = r.1.names ++ l.filterMap folderName := by
  induction l generalizing r with
  | nil => simp
  | cons dent l ih =>
    rw [List.foldl_cons, ih, scanEntry_names, List.append_assoc]
    cases hname : folderName dent <;> simp [hname]

private theorem scanEntry_status (r : Scanned × Int) (dent : Entry) :
    (scanEntry r dent).2 = if dent.stat = .error then -1 else 0 := by
  unfold scanEntry
  cases dent.stat <;> rfl

private theorem foldl_status (r : Scanned × Int) (l : List Entry) (dent : Entry) :
    ((l ++ [dent]).foldl scanEntry r).2 = if dent.stat = .error then -1 else 0 := by
  rw [List.foldl_append, List.foldl_cons, List.foldl_nil, scanEntry_status]

/-- The greatest length depends on the names only. -/
theorem maxlength_unique {a b : Scanned} (h : ∀ n, n ∈ a.names ↔ n ∈ b.names) : a.maxlength = b.maxlength := by
  have hle {a b : Scanned} (h : ∀ n, n ∈ a.names ↔ n ∈ b.names) : a.maxlength ≤ b.maxlength := by
    rcases a.attained with hzero | ⟨n, hn, heq⟩
    · rw [hzero]
      exact Nat.zero_le _
    · rw [← heq]
      exact b.lengthLe n ((h n).mp hn)
  exact Nat.le_antisymm (hle h) (hle fun n => (h n).symm)

/-- Sorting distinct names forgets their order. -/
theorem sort_unique {names names' : List Bytes} (hperm : names'.Perm names)
    (hne : names.Pairwise fun a b => strcasecmp a b ≠ .eq) : sort.run names' = sort.run names := by
  apply List.Perm.eq_of_pairwise _ (sort.sorted names') (sort.sorted names)
  · exact ((sort.perm names').trans hperm).trans (sort.perm names).symm
  · intro a b ha hb hab hba
    have hmem {n : Bytes} (l : List Bytes) (hl : l.Perm names) (hn : n ∈ sort.run l) : n ∈ names :=
      hl.mem_iff.mp ((sort.perm l).mem_iff.mp hn)
    by_contra hdiff
    have hsymm : Std.Symm fun a b => strcasecmp a b ≠ .eq := ⟨fun _ _ h heq => h (strcasecmp_comm.mp heq)⟩
    have hcmp : strcasecmp a b ≠ .eq := hne.forall (hmem names' hperm ha) (hmem names .rfl hb) hdiff
    have hlt : strcasecmp a b = .lt := by
      cases h : strcasecmp a b with
      | lt => rfl
      | eq => exact absurd h hcmp
      | gt =>
        rw [h] at hab
        cases hab
    rw [strcasecmp_gt.mpr hlt] at hba
    cases hba

/-- The names of the folders, among those of the entries. -/
theorem folderNames_pairwise (h : l.Pairwise fun d e => strcasecmp d.name e.name ≠ .eq) :
    (l.filterMap folderName).Pairwise fun a b => strcasecmp a b ≠ .eq := by
  rw [List.pairwise_filterMap]
  apply h.imp
  intro d e hne a ha b hb
  unfold folderName at ha hb
  split at ha
  · split at hb
    · cases ha
      cases hb
      exact hne
    · cases hb
  · cases ha

/-- The container does not depend on the order of the entries. -/
theorem container_unique (hperm : l'.Perm l) (h : l.Pairwise fun d e => strcasecmp d.name e.name ≠ .eq) :
    (initContainer sort (.entries l')).2 = (initContainer sort (.entries l)).2 := by
  have hnames (l : List Entry) : (l.foldl scanEntry (.start, 0)).1.names = l.filterMap folderName :=
    foldl_names _ l
  have hfolders := hperm.filterMap folderName
  apply Located.ext
  · exact congrArg linkParents (by rw [hnames, hnames, sort_unique hfolders (folderNames_pairwise h)])
  · exact maxlength_unique fun n => by rw [hnames, hnames, hfolders.mem_iff]

private theorem status_of_last (l : List Entry) (dent : Entry) :
    (initContainer sort (.entries (l ++ [dent]))).1 = if dent.stat = .error then -1 else 0 :=
  foldl_status _ l dent

private theorem perm_last (h : dent ∈ l) : (l.erase dent ++ [dent]).Perm l :=
  (List.perm_append_singleton dent _).trans (List.perm_cons_erase h).symm

/-- Entries that all resolve, or none of them, give the same in any order; others do not. -/
theorem initContainer_order_iff (sort : FolderSort) (l : List Entry)
    (h : l.Pairwise fun d e => strcasecmp d.name e.name ≠ .eq) :
    (∀ l', l'.Perm l → initContainer sort (.entries l') = initContainer sort (.entries l)) ↔
      (∀ dent ∈ l, dent.stat ≠ .error) ∨ ∀ dent ∈ l, dent.stat = .error := by
  constructor
  · intro hall
    by_contra hmixed
    push Not at hmixed
    obtain ⟨⟨bad, hbad, herror⟩, good, hgood, hok⟩ := hmixed
    have hstatus := congrArg Prod.fst ((hall _ (perm_last hbad)).trans (hall _ (perm_last hgood)).symm)
    rw [status_of_last, status_of_last, if_pos herror, if_neg hok] at hstatus
    cases hstatus
  · intro hsame l' hperm
    refine Prod.ext ?_ (container_unique hperm h)
    rcases List.eq_nil_or_concat l with rfl | ⟨k, last, rfl⟩
    · rw [List.perm_nil.mp hperm]
    rcases List.eq_nil_or_concat l' with rfl | ⟨k', last', rfl⟩
    · exact absurd hperm.nil_eq.symm (by simp)
    simp only [List.concat_eq_append] at *
    rw [status_of_last, status_of_last]
    have hlast' : last' ∈ k ++ [last] := hperm.mem_iff.mp (by simp)
    rcases hsame with hok | herror
    · rw [if_neg (hok last' hlast'), if_neg (hok last (by simp))]
    · rw [if_pos (herror last' hlast'), if_pos (herror last (by simp))]

/-- Names in the order of strcasecmp. -/
def Before (a b : Bytes) : Prop := (strcasecmp a b).isLE

instance : DecidableRel Before := fun _ _ => inferInstanceAs (Decidable (_ = _))

/-- Sorting by insertion. -/
def insertionSort : FolderSort where
  run := List.insertionSort Before
  perm := List.perm_insertionSort Before
  sorted :=
    have : Std.Total Before := ⟨fun _ _ => Bool.or_eq_true_iff.mp strcasecmp_isLE_total⟩
    have : IsTrans Bytes Before := ⟨fun _ _ _ => strcasecmp_isLE_trans⟩
    List.pairwise_insertionSort Before

def folderEn : Entry := ⟨⟨[0x65, 0x6E], by decide⟩, .directory⟩

def linkFr : Entry := ⟨⟨[0x66, 0x72], by decide⟩, .error⟩

/-- A link that leads nowhere makes the call fail when it comes last. -/
theorem initContainer_last_link :
    ¬ ∀ l l' : List Entry, (l.Pairwise fun d e => strcasecmp d.name e.name ≠ .eq) → l'.Perm l →
      initContainer insertionSort (.entries l') = initContainer insertionSort (.entries l) := by
  intro hall
  have h := congrArg Prod.fst (hall [folderEn, linkFr] [linkFr, folderEn] (by decide) (by decide))
  exact absurd h (by decide)

/-- A folder and a file, in both orders. -/
theorem initContainer_order_files :
    initContainer insertionSort (.entries [⟨⟨[0x66, 0x72], by decide⟩, .other⟩, folderEn]) =
      initContainer insertionSort (.entries [folderEn, ⟨⟨[0x66, 0x72], by decide⟩, .other⟩]) :=
  (initContainer_order_iff insertionSort _ (by decide)).mpr (.inl (by decide)) _ (.swap _ _ _)

end

end AfbBinder.Locale
