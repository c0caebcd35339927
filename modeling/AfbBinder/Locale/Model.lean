import Mathlib.Logic.Function.Basic
import AfbBinder.Lib.Bsearch
import AfbBinder.Lib.Cstrings

/-! A locale root, its searches and their references. A search belongs to one root and roots
share nothing: the state is the one of a root. -/
namespace AfbBinder.Locale
open Lib.Bsearch Lib.Cstrings

abbrev FolderId := Nat
abbrev SearchId := Nat

structure Folder where
  name : Bytes
  parent : Option FolderId
  deriving DecidableEq, Repr

/-- The folders, that the parents are among. -/
structure Container where
  folders : List Folder
  parentsLt : ∀ f ∈ folders, ∀ p, f.parent = some p → p < folders.length

def Container.folder (c : Container) (i : FolderId) : Folder := c.folders.getD i ⟨[], none⟩

/-- A character of a string; a NUL follows the last. -/
def charAt (d : Bytes) (i : Nat) : UInt8 := d.getD i 0

abbrev space : UInt8 := 0x20
abbrev tab : UInt8 := 0x09
abbrev comma : UInt8 := 0x2C
abbrev dash : UInt8 := 0x2D
abbrev semicolon : UInt8 := 0x3B

def isBlank (c : UInt8) : Bool := c = space || c = tab

def isSeparator (c : UInt8) : Bool := isBlank c || c = comma

def strncasecmp (a b : Bytes) (n : Nat) : Ordering := strcasecmp (a.take n) (b.take n)

def searchFolder (c : Container) (name : Bytes) (length : Nat) : Option FolderId :=
  bsearch (fun i =>
    match strncasecmp (c.folder i).name name length with
    | .eq => if charAt (c.folder i).name length = 0 then .eq else .gt
    | o => o) c.folders.length 0 c.folders.length

/-- Append, if needed, a folder to the search. -/
def searchAppendFolder (l : List FolderId) (folder : FolderId) : List FolderId :=
  if folder ∈ l then l else l ++ [folder]

/-- Advance from stop while the test holds. -/
def scan (p : UInt8 → Bool) (d : Bytes) (length stop : Nat) : Nat :=
  stop + (((d.take length).drop stop).takeWhile p).length

/-- Go back over blanks. The first character looked at is the one after the tag. -/
def trim (d : Bytes) : Nat → Nat
  | 0 => 0
  | back + 1 => if isBlank (charAt d (back + 1)) then trim d back else back + 1

/-- Go back to the previous dash. -/
def backToDash (d : Bytes) : Nat → Nat
  | 0 => 0
  | back + 1 => if charAt d back = dash then back else backToDash d back

/-- Go back to the first of the dashes. -/
def backOverDashes (d : Bytes) : Nat → Nat
  | 0 => 0
  | back + 1 =>
    if charAt d (back + 1) = dash ∧ charAt d back = dash then backOverDashes d back else back + 1

/-- The folders of a tag and of its shorter forms; each turn shortens it. -/
def appendTag (c : Container) (d : Bytes) (immediate : Bool) :
    Nat → Nat → List FolderId → List FolderId
  | 0, _, l => l
  | fuel + 1, back, l =>
    if back = 0 then l
    else
      let next := backOverDashes d (backToDash d back)
      match searchFolder c d back with
      | none => appendTag c d immediate fuel next l
      | some folder =>
        if immediate then appendTag c d immediate fuel next (searchAppendFolder l folder)
        else searchAppendFolder l folder

/-- The tags of the definition, one a turn. -/
def appendTags (c : Container) (immediate : Bool) :
    Nat → Bytes → Nat → List FolderId → List FolderId
  | 0, _, _, l => l
  | fuel + 1, d, length, l =>
    if length = 0 then l
    else
      let stop := scan (fun c => c ≠ comma && c ≠ semicolon) d length 0
      let back := trim d stop
      let l := appendTag c d immediate back back l
      let stop := scan (· ≠ comma) d length stop
      let stop := scan isSeparator d length stop
      appendTags c immediate fuel (d.drop stop) (length - stop) l

/-- Append the parents of the folders, those appended included. -/
def appendParents (c : Container) : Nat → Nat → List FolderId → List FolderId
  | 0, _, l => l
  | fuel + 1, i, l =>
    match l[i]? with
    | none => l
    | some folder =>
      match (c.folder folder).parent with
      | none => appendParents c fuel (i + 1) l
      | some parent => appendParents c fuel (i + 1) (searchAppendFolder l parent)

/-- The list of folders that create_search builds. -/
def createFolders (c : Container) (d : Bytes) (length : Nat) (immediate : Bool) : List FolderId :=
  appendParents c c.folders.length 0 (appendTags c immediate length d length [])

/-- The flag immediate and whether a blank follows the definition are ghosts. -/
structure Search where
  definition : Bytes
  folders : List FolderId
  refcount : Int
  immediate : Bool
  blank : Bool
  deriving DecidableEq, Repr

/-- Ghosts: how many times it was destroyed, the references that the users own on the root and
on each search. -/
structure Root where
  container : Container
  refcount : Int
  intcount : Int
  lru : List (Option SearchId)
  defaultSearch : Option SearchId
  search : SearchId → Search
  count : Nat
  destroyed : Nat
  owned : Nat
  held : SearchId → Nat

def localeRootCreate (container : Container) : Root where
  container
  refcount := 1
  intcount := 1
  lru := [none, none, none]
  defaultSearch := none
  search _ := ⟨[], [], 0, false, false⟩
  count := 0
  destroyed := 0
  owned := 1
  held _ := 0

def internalUnref (s : Root) : Root :=
  { s with
    intcount := s.intcount - 1
    destroyed := if s.intcount - 1 = 0 then s.destroyed + 1 else s.destroyed }

def setRefcount (s : Root) (i : SearchId) (n : Int) : Root :=
  { s with search := Function.update s.search i { s.search i with refcount := n } }

def localeSearchAddref (s : Root) (i : SearchId) : Root :=
  setRefcount s i ((s.search i).refcount + 1)

def localeSearchUnref (s : Root) : Option SearchId → Root
  | none => s
  | some i =>
    let t := setRefcount s i ((s.search i).refcount - 1)
    if (s.search i).refcount - 1 = 0 then internalUnref t else t

def localeRootAddref (s : Root) : Root := { s with refcount := s.refcount + 1 }

def localeRootUnref (s : Root) : Root :=
  let t := { s with refcount := s.refcount - 1 }
  if s.refcount - 1 = 0 then internalUnref (s.lru.foldl localeSearchUnref t) else t

/-- A string, that holds no NUL. -/
abbrev CString := { s : Bytes // 0 ∉ s }

/-- The definition without separators at its start; the string goes on to its end. -/
def normalStart (definition : Option CString) : Bytes :=
  match definition with
  | none => []
  | some s => s.1.dropWhile isSeparator

/-- Its length without separators at its end. -/
def normalLength (d : Bytes) : Nat := (d.reverse.dropWhile isSeparator).length

def searchMatches (s : Root) (d : Bytes) (length : Nat) : Option SearchId → Bool
  | none => false
  | some i => strncasecmp (s.search i).definition d length = .eq &&
      charAt (s.search i).definition length = 0

/-- A new search, with its reference for the cache. -/
def createSearch (s : Root) (d : Bytes) (length : Nat) (immediate : Bool) : Root :=
  { s with
    intcount := s.intcount + 1
    search := Function.update s.search s.count ⟨d.take length,
      createFolders s.container d length immediate, 1, immediate, isBlank (charAt d length)⟩
    count := s.count + 1 }

/-- The flag tells whether the memory suffices. -/
def localeRootSearch (s : Root) (definition : Option CString) (immediate mem : Bool) :
    Option SearchId × Root :=
  let d := normalStart definition
  let length := normalLength d
  match s.lru.findIdx? (searchMatches s d length) with
  | some i =>
    match (s.lru.getD i none) with
    | none => (none, s)
    | some search => (some search,
        localeSearchAddref { s with lru := some search :: s.lru.eraseIdx i } search)
  | none =>
    if mem then
      let t := createSearch s d length immediate
      let t := localeSearchUnref t (s.lru.getLastD none)
      (some s.count, localeSearchAddref { t with lru := some s.count :: s.lru.dropLast } s.count)
    else (none, s)

def localeRootSetDefaultSearch (s : Root) (search : Option SearchId) : Root :=
  let older := s.defaultSearch
  let t := { s with defaultSearch := search }
  localeSearchUnref (match search with
    | some i => localeSearchAddref t i
    | none => t) older

inductive Action where
  | addref
  | unref
  | search (definition : Option CString) (immediate mem : Bool)
  | searchAddref (i : SearchId)
  | searchUnref (i : SearchId)
  | setDefaultSearch (search : Option SearchId)

def hold (s : Root) (i : SearchId) (n : Nat) : Root :=
  { s with held := Function.update s.held i n }

/-- The users act on what they own a reference of. -/
def step (s : Root) : Action → Option Root
  | .addref => if 0 < s.owned then some { localeRootAddref s with owned := s.owned + 1 } else none
  | .unref => if 0 < s.owned then some { localeRootUnref s with owned := s.owned - 1 } else none
  | .search definition immediate mem =>
    if 0 < s.owned then
      some (match localeRootSearch s definition immediate mem with
        | (none, t) => t
        | (some i, t) => hold t i (s.held i + 1))
    else none
  | .searchAddref i =>
    if 0 < s.held i then some (hold (localeSearchAddref s i) i (s.held i + 1)) else none
  | .searchUnref i =>
    if 0 < s.held i then some (hold (localeSearchUnref s (some i)) i (s.held i - 1)) else none
  | .setDefaultSearch search =>
    if 0 < s.owned ∧ ∀ i, search = some i → 0 < s.held i then
      some (localeRootSetDefaultSearch s search)
    else none

/-- The two ends of a search call. -/
theorem search_cases (s : Root) (definition : Option CString) (immediate mem : Bool) :
    (∃ i e, s.lru.findIdx? (searchMatches s (normalStart definition)
        (normalLength (normalStart definition))) = some i ∧ s.lru[i]? = some (some e) ∧
      searchMatches s (normalStart definition) (normalLength (normalStart definition)) (some e) ∧
      localeRootSearch s definition immediate mem =
        (some e, localeSearchAddref { s with lru := some e :: s.lru.eraseIdx i } e)) ∨
    s.lru.findIdx? (searchMatches s (normalStart definition)
        (normalLength (normalStart definition))) = none ∧
      localeRootSearch s definition immediate mem = if mem then
        (some s.count, localeSearchAddref { localeSearchUnref (createSearch s
          (normalStart definition) (normalLength (normalStart definition)) immediate)
          (s.lru.getLastD none) with lru := some s.count :: s.lru.dropLast } s.count)
      else (none, s) := by
  unfold localeRootSearch
  dsimp only
  cases hf : s.lru.findIdx? (searchMatches s (normalStart definition)
    (normalLength (normalStart definition))) with
  | none => exact .inr ⟨rfl, rfl⟩
  | some i =>
    obtain ⟨hi, hm, -⟩ := List.findIdx?_eq_some_iff_getElem.mp hf
    cases he : s.lru[i] with
    | none =>
      rw [he] at hm
      cases hm
    | some e =>
      have hget : s.lru[i]? = some (some e) := by rw [List.getElem?_eq_getElem hi, he]
      refine .inl ⟨i, e, rfl, hget, he ▸ hm, ?_⟩
      have hget' : s.lru.getD i none = some e := by rw [List.getD_eq_getElem?_getD, hget, Option.getD_some]
      simp only [hget']

end AfbBinder.Locale
