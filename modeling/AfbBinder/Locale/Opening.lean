import AfbBinder.Lib.Buffers
import AfbBinder.Locale.Cache
import AfbBinder.Locale.Containers
import AfbBinder.Paths.Subpath

/-! The files of a root: the paths that do_open and do_resolve try, each of them written in a
buffer before the name of the file. -/
namespace AfbBinder.Locale
open Lib.Buffers Lib.Cstrings Paths

/-- The array locales: its size counts the NUL. -/
def locales : Bytes := [0x6C, 0x6F, 0x63, 0x61, 0x6C, 0x65, 0x73, 0x2F]

def sizeofLocales : Nat := 9

def PATH_MAX : Nat := 4096

def O_CREAT : UInt32 := 0x40

/-- The folders of a search. -/
def nodes (s : Root) (search : Option SearchId) : List FolderId :=
  match search with
  | some i => (s.search i).folders
  | none => []

/-- The buffer with its end: a slash and the name of the file. -/
def initBuffer (maxlength : Nat) (filename : Bytes) : Option Cells :=
  (write (block (filename.length + maxlength + sizeofLocales + 1)) (maxlength + sizeofLocales - 1)
    [slash]).bind fun buffer => write buffer (sizeofLocales + maxlength) (filename ++ [0])

/-- The buffer with the path of a folder, that ends with that of the file; the path is read
where it starts. -/
def putFolder (maxlength : Nat) (buffer : Cells) (folder : Folder) : Option (Cells × Bytes) :=
  if maxlength < folder.name.length then none
  else
    let p := maxlength - folder.name.length
    (write buffer p locales).bind fun buffer =>
      (write buffer (p + sizeofLocales - 1) folder.name).bind fun buffer =>
        (text (buffer.drop p)).map fun path => (buffer, path)

/-! Opening. -/

inductive Opened where
  | fd (n : Nat)
  | EINVAL
  | error
  deriving DecidableEq, Repr

/-- The calls of openat, by their paths, and the result. -/
structure Opening where
  tried : List Bytes
  result : Opened
  deriving DecidableEq, Repr

section
variable (openat : Bytes → UInt32 → Option Nat) (maxlength : Nat) (s : Root) (flags : UInt32)

/-- The loop over some nodes; what follows it is given. -/
def openNodes (next : Cells → Option Opening) : Cells → List FolderId → Option Opening
  | buffer, [] => next buffer
  | buffer, folder :: rest =>
    (putFolder maxlength buffer (s.container.folder folder)).bind fun (buffer, path) =>
      match openat path flags with
      | some fd => some ⟨[path], .fd fd⟩
      | none => (openNodes next buffer rest).map fun o => { o with tried := path :: o.tried }

/-- The root search. -/
def openRoot (filename : Bytes) : Option Opening :=
  some ⟨[filename], match openat filename flags with
    | some fd => .fd fd
    | none => .error⟩

/-- None is an access outside of the buffer. After the last node of a search that is not the
default one come those of the default one. -/
def doOpen (search : Option SearchId) (filename : Option Bytes) : Option Opening :=
  match subpathForce filename with
  | none => some ⟨[], .EINVAL⟩
  | some filename =>
    if flags &&& O_CREAT ≠ 0 then some ⟨[], .EINVAL⟩
    else if nodes s search = [] then openRoot openat flags filename
    else if filename.length > PATH_MAX then some ⟨[], .EINVAL⟩
    else
      (initBuffer maxlength filename).bind fun buffer =>
        openNodes openat maxlength s flags (fun buffer =>
          if search ≠ s.defaultSearch then
            openNodes openat maxlength s flags (fun _ => openRoot openat flags filename) buffer
              (nodes s s.defaultSearch)
          else openRoot openat flags filename) buffer (nodes s search)

end

/-! Resolving. -/

inductive Resolved where
  | path (p : Bytes)
  | EINVAL
  | ENOENT
  | ENOMEM
  deriving DecidableEq, Repr

/-- The calls of faccessat, by their paths, and the result. -/
structure Resolving where
  tried : List Bytes
  result : Resolved
  deriving DecidableEq, Repr

section
variable (faccessat : Bytes → Bool) (mem : Bool) (maxlength : Nat) (s : Root)

/-- A copy of the path found, when the memory suffices. -/
def found (path : Bytes) : Resolved := if mem then .path path else .ENOMEM

def resolveNodes (next : Cells → Option Resolving) : Cells → List FolderId → Option Resolving
  | buffer, [] => next buffer
  | buffer, folder :: rest =>
    (putFolder maxlength buffer (s.container.folder folder)).bind fun (buffer, path) =>
      if faccessat path then some ⟨[path], found mem path⟩
      else (resolveNodes next buffer rest).map fun r => { r with tried := path :: r.tried }

def resolveRoot (filename : Bytes) : Option Resolving :=
  some ⟨[filename], if faccessat filename then found mem filename else .ENOENT⟩

def doResolve (search : Option SearchId) (filename : Option Bytes) : Option Resolving :=
  match subpathForce filename with
  | none => some ⟨[], .EINVAL⟩
  | some filename =>
    if nodes s search = [] then resolveRoot faccessat mem filename
    else if filename.length > PATH_MAX then some ⟨[], .EINVAL⟩
    else
      (initBuffer maxlength filename).bind fun buffer =>
        resolveNodes faccessat mem maxlength s (fun buffer =>
          if search ≠ s.defaultSearch then
            resolveNodes faccessat mem maxlength s (fun _ => resolveRoot faccessat mem filename) buffer
              (nodes s s.defaultSearch)
          else resolveRoot faccessat mem filename) buffer (nodes s search)

end

/-! The paths, without the buffer. -/

def pathOf (c : Container) (filename : Bytes) (folder : FolderId) : Bytes :=
  locales ++ (c.folder folder).name ++ slash :: filename

/-- The folders tried, in order. -/
def triedFolders (s : Root) (search : Option SearchId) : List FolderId :=
  match nodes s search with
  | [] => []
  | l => l ++ if search ≠ s.defaultSearch then nodes s s.defaultSearch else []

def triedPaths (s : Root) (search : Option SearchId) (filename : Bytes) : List Bytes :=
  (triedFolders s search).map (pathOf s.container filename) ++ [filename]

/-- The calls made until one succeeds. -/
def attempts (succeeds : Bytes → Bool) : List Bytes → List Bytes
  | [] => []
  | p :: paths => if succeeds p then [p] else p :: attempts succeeds paths

/-- The buffer at the start of an iteration, whatever it has before its end. -/
def Ready (maxlength : Nat) (filename : Bytes) (buffer : Cells) : Prop :=
  buffer.drop (maxlength + 8) = (slash :: filename).map some ++ [some 0] ∧ maxlength + 8 ≤ buffer.length

section
variable {maxlength : Nat} {filename : Bytes} {buffer : Cells} {folder : Folder}

private theorem initBuffer_ready (maxlength : Nat) (filename : Bytes) :
    ∃ buffer, initBuffer maxlength filename = some buffer ∧ Ready maxlength filename buffer := by
  obtain ⟨b, b', hwrite, hwrite', hlen, hdrop⟩ := writes_fit (block (filename.length + maxlength + sizeofLocales + 1))
    (maxlength + 8) [slash] (filename ++ [0]) (by simp [sizeofLocales]; omega)
  refine ⟨b', ?_, ?_, ?_⟩
  · rw [initBuffer, show maxlength + sizeofLocales - 1 = maxlength + 8 from rfl, hwrite, Option.bind_some,
      Nat.add_comm sizeofLocales maxlength]
    exact hwrite'
  · rw [hdrop, List.drop_of_length_le (by simp [sizeofLocales]; omega)]
    simp
  · rw [hlen, length_block, sizeofLocales]
    omega

/-- The path of a folder is written and read in the buffer, that is ready again. -/
theorem putFolder_ready (h : Ready maxlength filename buffer) (hle : folder.name.length ≤ maxlength)
    (hname : 0 ∉ folder.name) (hfile : 0 ∉ filename) :
    ∃ buffer', putFolder maxlength buffer folder =
      some (buffer', locales ++ folder.name ++ slash :: filename) ∧ Ready maxlength filename buffer' := by
  obtain ⟨htail, hlen⟩ := h
  obtain ⟨b, b', hwrite, hwrite', hlen', hdrop⟩ := writes_fit buffer (maxlength - folder.name.length) locales
    folder.name (by rw [show locales.length = 8 from rfl]; omega)
  have hend : maxlength - folder.name.length + locales.length + folder.name.length = maxlength + 8 := by
    rw [show locales.length = 8 from rfl]
    omega
  rw [hend, htail] at hdrop
  have hready : b'.drop (maxlength + 8) = (slash :: filename).map some ++ [some 0] := by
    have hpath := congrArg (List.drop (8 + folder.name.length)) hdrop
    rw [List.drop_drop, List.drop_left' (by simp [locales]; omega)] at hpath
    rw [← hpath]
    congr 1
    omega
  refine ⟨b', ?_, hready, by omega⟩
  rw [putFolder, if_neg (by omega)]
  dsimp only
  rw [hwrite, Option.bind_some, show maxlength - folder.name.length + sizeofLocales - 1 =
    maxlength - folder.name.length + locales.length from rfl, hwrite', Option.bind_some, hdrop,
    ← List.append_assoc, ← List.map_append, text_string]
  · rfl
  · simp only [List.mem_append, List.mem_cons, not_or]
    exact ⟨⟨by decide, hname⟩, by decide, hfile⟩

end

/-! The loops. -/

/-- What the calls give for paths in order, and then what is given. -/
def openPaths (openat : Bytes → UInt32 → Option Nat) (flags : UInt32) (o : Opening) : List Bytes → Opening
  | [] => o
  | p :: paths =>
    match openat p flags with
    | some fd => ⟨[p], .fd fd⟩
    | none => { openPaths openat flags o paths with tried := p :: (openPaths openat flags o paths).tried }

def resolvePaths (faccessat : Bytes → Bool) (mem : Bool) (r : Resolving) : List Bytes → Resolving
  | [] => r
  | p :: paths =>
    if faccessat p then ⟨[p], found mem p⟩
    else { resolvePaths faccessat mem r paths with tried := p :: (resolvePaths faccessat mem r paths).tried }

section
variable {openat : Bytes → UInt32 → Option Nat} {faccessat : Bytes → Bool} {mem : Bool} {maxlength : Nat}
  {s : Root} {flags : UInt32} {filename : Bytes} {buffer : Cells} {l : List FolderId}

private theorem openNodes_eq {next : Cells → Option Opening} {o : Opening} (hs : Holds s maxlength)
    (hfile : 0 ∉ filename)
    (hnext : ∀ b, Ready maxlength filename b → next b = some o) (hb : Ready maxlength filename buffer) :
    openNodes openat maxlength s flags next buffer l =
      some (openPaths openat flags o (l.map (pathOf s.container filename))) := by
  induction l generalizing buffer with
  | nil => exact hnext buffer hb
  | cons folder l ih =>
    obtain ⟨hle, hname⟩ := hs folder
    obtain ⟨b, hput, hb'⟩ := putFolder_ready hb hle hname hfile
    rw [openNodes, hput, Option.bind_some, List.map_cons, openPaths]
    dsimp only
    rw [← pathOf]
    cases openat (pathOf s.container filename folder) flags with
    | some fd => rfl
    | none =>
      dsimp only
      rw [ih hb']
      rfl

private theorem resolveNodes_eq {next : Cells → Option Resolving} {r : Resolving} (hs : Holds s maxlength)
    (hfile : 0 ∉ filename) (hnext : ∀ b, Ready maxlength filename b → next b = some r)
    (hb : Ready maxlength filename buffer) : resolveNodes faccessat mem maxlength s next buffer l =
      some (resolvePaths faccessat mem r (l.map (pathOf s.container filename))) := by
  induction l generalizing buffer with
  | nil => exact hnext buffer hb
  | cons folder l ih =>
    obtain ⟨hle, hname⟩ := hs folder
    obtain ⟨b, hput, hb'⟩ := putFolder_ready hb hle hname hfile
    rw [resolveNodes, hput, Option.bind_some, List.map_cons, resolvePaths]
    dsimp only
    rw [← pathOf]
    split
    · rfl
    · rw [ih hb']
      rfl

private theorem subpathForce_noNul {f name : Bytes} (h : subpathForce (some f) = some name) (hf : 0 ∉ f) :
    0 ∉ name := by
  rw [subpathForce, subpath, Option.map_some, Option.bind_some] at h
  split at h
  · cases h
    split
    · decide
    · exact fun hm => hf ((List.dropWhile_sublist _).subset hm)
  · cases h

private theorem openPaths_append (o : Opening) (paths paths' : List Bytes) :
    openPaths openat flags o (paths ++ paths') = openPaths openat flags (openPaths openat flags o paths') paths := by
  induction paths with
  | nil => rfl
  | cons p paths ih => rw [List.cons_append, openPaths, openPaths, ih]

private theorem resolvePaths_append (r : Resolving) (paths paths' : List Bytes) :
    resolvePaths faccessat mem r (paths ++ paths') =
      resolvePaths faccessat mem (resolvePaths faccessat mem r paths') paths := by
  induction paths with
  | nil => rfl
  | cons p paths ih => rw [List.cons_append, resolvePaths, resolvePaths, ih]

private theorem openRoot_eq : openRoot openat flags filename = some
    (openPaths openat flags ⟨[], .error⟩ [filename]) := by
  rw [openRoot, openPaths, openPaths]
  cases openat filename flags <;> rfl

private theorem resolveRoot_eq :
    resolveRoot faccessat mem filename = some (resolvePaths faccessat mem ⟨[], .ENOENT⟩ [filename]) := by
  rw [resolveRoot, resolvePaths, resolvePaths]
  split <;> rfl

private theorem triedFolders_of_ne {search : Option SearchId} (h : nodes s search ≠ []) :
    triedFolders s search =
    nodes s search ++ if search ≠ s.defaultSearch then nodes s s.defaultSearch else [] := by
  rw [triedFolders]
  split
  · next hnil => exact absurd hnil h
  · rfl

/-- do_open tries the paths in order, and no access leaves the buffer. -/
theorem doOpen_eq {search : Option SearchId} {f : Bytes} (hs : Holds s maxlength) (hflags : flags &&& O_CREAT = 0)
    (hvalid : subpathForce (some f) = some filename) (hlen : filename.length ≤ PATH_MAX) (hnul : 0 ∉ filename) :
    doOpen openat maxlength s flags search (some f) =
      some (openPaths openat flags ⟨[], .error⟩ (triedPaths s search filename)) := by
  rw [doOpen, hvalid]
  dsimp only
  rw [if_neg (not_not.mpr hflags), triedPaths]
  split
  next hnil =>
    rw [triedFolders, hnil]
    exact openRoot_eq
  next hne =>
    obtain ⟨buffer, hbuffer, hready⟩ := initBuffer_ready maxlength filename
    rw [if_neg (Nat.not_lt.mpr hlen), hbuffer, Option.bind_some, triedFolders_of_ne hne, List.map_append,
      List.append_assoc, openPaths_append]
    apply openNodes_eq hs hnul _ hready
    intro b hb
    split
    · rw [openPaths_append]
      exact openNodes_eq hs hnul (fun _ _ => openRoot_eq) hb
    · exact openRoot_eq

/-- So does do_resolve. -/
theorem doResolve_eq {search : Option SearchId} {f : Bytes} (hs : Holds s maxlength)
    (hvalid : subpathForce (some f) = some filename) (hlen : filename.length ≤ PATH_MAX) (hnul : 0 ∉ filename) :
    doResolve faccessat mem maxlength s search (some f) =
      some (resolvePaths faccessat mem ⟨[], .ENOENT⟩ (triedPaths s search filename)) := by
  rw [doResolve, hvalid]
  dsimp only
  rw [triedPaths]
  split
  next hnil =>
    rw [triedFolders, hnil]
    exact resolveRoot_eq
  next hne =>
    obtain ⟨buffer, hbuffer, hready⟩ := initBuffer_ready maxlength filename
    rw [if_neg (Nat.not_lt.mpr hlen), hbuffer, Option.bind_some, triedFolders_of_ne hne, List.map_append,
      List.append_assoc, resolvePaths_append]
    apply resolveNodes_eq hs hnul _ hready
    intro b hb
    split
    · rw [resolvePaths_append]
      exact resolveNodes_eq hs hnul (fun _ _ => resolveRoot_eq) hb
    · exact resolveRoot_eq

private theorem openPaths_tried (paths : List Bytes) : (openPaths openat flags ⟨[], .error⟩ paths).tried =
    attempts (fun p => (openat p flags).isSome) paths := by
  induction paths with
  | nil => rfl
  | cons p paths ih =>
    rw [openPaths, attempts]
    cases openat p flags with
    | some fd => rfl
    | none =>
      simp only [Option.isSome_none, Bool.false_eq_true, if_false]
      rw [ih]

private theorem resolvePaths_tried (paths : List Bytes) :
    (resolvePaths faccessat mem ⟨[], .ENOENT⟩ paths).tried =
    attempts faccessat paths := by
  induction paths with
  | nil => rfl
  | cons p paths ih =>
    rw [resolvePaths, attempts]
    split
    · rfl
    · simp only [ih]

private theorem doOpen_tried {search : Option SearchId} {f : Bytes} (hs : Holds s maxlength)
    (hflags : flags &&& O_CREAT = 0)
    (hvalid : subpathForce (some f) = some filename) (hlen : filename.length ≤ PATH_MAX) (hnul : 0 ∉ filename) :
    (doOpen openat maxlength s flags search (some f)).map Opening.tried =
      some (attempts (fun p => (openat p flags).isSome) (triedPaths s search filename)) := by
  rw [doOpen_eq hs hflags hvalid hlen hnul, Option.map_some, openPaths_tried]

private theorem doResolve_tried {search : Option SearchId} {f : Bytes} (hs : Holds s maxlength)
    (hvalid : subpathForce (some f) = some filename) (hlen : filename.length ≤ PATH_MAX) (hnul : 0 ∉ filename) :
    (doResolve faccessat mem maxlength s search (some f)).map Resolving.tried =
      some (attempts faccessat (triedPaths s search filename)) := by
  rw [doResolve_eq hs hvalid hlen hnul, Option.map_some, resolvePaths_tried]

/-- The first path that succeeds is the one selected by both. -/
theorem paths_selected (h : ∀ p, faccessat p = (openat p flags).isSome) (paths : List Bytes) :
    (∃ p fd, openat p flags = some fd ∧ (openPaths openat flags ⟨[], .error⟩ paths).result = .fd fd ∧
      (resolvePaths faccessat mem ⟨[], .ENOENT⟩ paths).result = found mem p ∧
      (attempts faccessat paths).getLast? = some p) ∨
    (openPaths openat flags ⟨[], .error⟩ paths).result = .error ∧
      (resolvePaths faccessat mem ⟨[], .ENOENT⟩ paths).result = .ENOENT := by
  induction paths with
  | nil => exact .inr ⟨rfl, rfl⟩
  | cons p paths ih =>
    rw [openPaths, resolvePaths, attempts, h p]
    cases hfd : openat p flags with
    | some fd => exact .inl ⟨p, fd, hfd, rfl, rfl, rfl⟩
    | none =>
      simp only [Option.isSome_none, Bool.false_eq_true, if_false]
      rcases ih with ⟨q, fd, hq, hopen, hresolve, hlast⟩ | hnone
      · refine .inl ⟨q, fd, hq, hopen, hresolve, ?_⟩
        rw [List.getLast?_cons, hlast]
        rfl
      · exact .inr hnone

end

/-- For a valid name do_open and do_resolve stay in the buffer and try the same paths, those of
the folders and then the name itself; where the calls agree both select the same path. -/
theorem doOpen_doResolve_agree (c : Located) (s : Root) (hs : s.container = c.container) (search : Option SearchId)
    (filename : CString) (name : Bytes) (hvalid : subpathForce (some filename.1) = some name)
    (hlen : name.length ≤ PATH_MAX) (flags : UInt32) (hflags : flags &&& O_CREAT = 0)
    (openat : Bytes → UInt32 → Option Nat) (faccessat : Bytes → Bool) (mem : Bool) :
    ∃ o r, doOpen openat c.maxlength s flags search (some filename.1) = some o ∧
      doResolve faccessat mem c.maxlength s search (some filename.1) = some r ∧
      o.tried = attempts (fun p => (openat p flags).isSome) (triedPaths s search name) ∧
      r.tried = attempts faccessat (triedPaths s search name) ∧
      ((∀ p, faccessat p = (openat p flags).isSome) → o.tried = r.tried ∧
        ((∃ p fd, openat p flags = some fd ∧ o.result = .fd fd ∧ r.result = found mem p ∧
            r.tried.getLast? = some p) ∨
          (o.result = .error ∧ r.result = .ENOENT))) := by
  have hholds := holds_located hs
  have hnul := subpathForce_noNul hvalid filename.2
  refine ⟨_, _, doOpen_eq hholds hflags hvalid hlen hnul, doResolve_eq hholds hvalid hlen hnul,
    openPaths_tried _, resolvePaths_tried _, ?_⟩
  intro hagree
  rw [openPaths_tried, resolvePaths_tried, funext hagree]
  exact ⟨rfl, funext hagree ▸ paths_selected hagree _⟩

/-! A root whose only folder is en, its default search, and a search that finds no folder. -/

def sample : Located := (initContainer insertionSort (.entries [folderEn])).2

def sampleRoot : Root :=
  let found := localeRootSearch (localeRootCreate sample.container) (some folderEn.name) false true
  (localeRootSearch (localeRootSetDefaultSearch found.2 found.1) (some ⟨[0x78, 0x78], by decide⟩) false true).2

def sampleName : CString := ⟨[0x66], by decide⟩

private theorem sampleName_valid : subpathForce (some sampleName.1) = some [0x66] := by
  simp [subpathForce, subpath, subpathIsValid, sampleName, inspect, turn, skipName, stuckLevel, slash, Paths.dot]

/-- The file is there for no path. -/
theorem doOpen_doResolve_agree_default : ∃ o r,
    doOpen (fun _ _ => none) sample.maxlength sampleRoot 0 (some 0) (some sampleName.1) = some o ∧
      doResolve (fun _ => false) true sample.maxlength sampleRoot (some 0) (some sampleName.1) = some r ∧
      o.tried = r.tried := by
  obtain ⟨o, r, ho, hr, -, -, h⟩ := doOpen_doResolve_agree sample sampleRoot rfl (some 0) sampleName [0x66]
    sampleName_valid (by decide) 0 (by decide) (fun _ _ => none) (fun _ => false) true
  exact ⟨o, r, ho, hr, (h fun _ => rfl).1⟩

/-! The four functions that look for a file. -/

section
variable (openat : Bytes → UInt32 → Option Nat) (faccessat : Bytes → Bool) (mem : Bool) (maxlength : Nat) (s : Root)

def localeSearchOpen (search : SearchId) (filename : Option Bytes) (flags : UInt32) : Option Opening :=
  doOpen openat maxlength s flags (some search) filename

/-- The search of a locale, none without locale or when the memory does not suffice. -/
def searchOfLocale (locale : Option CString) : Option SearchId × Root :=
  match locale with
  | some l => localeRootSearch s (some l) false mem
  | none => (none, s)

def localeRootOpen (filename : Option Bytes) (flags : UInt32) (locale : Option CString) : Option (Opening × Root) :=
  let (search, t) := searchOfLocale mem s locale
  (doOpen openat maxlength t flags (search <|> t.defaultSearch) filename).map fun o => (o, localeSearchUnref t search)

def localeSearchResolve (search : SearchId) (filename : Option Bytes) : Option Resolving :=
  doResolve faccessat mem maxlength s (some search) filename

def localeRootResolve (filename : Option Bytes) (locale : Option CString) : Option (Resolving × Root) :=
  let (search, t) := searchOfLocale mem s locale
  (doResolve faccessat mem maxlength t (search <|> t.defaultSearch) filename).map fun r =>
    (r, localeSearchUnref t search)

end

/-- A call of one of them. -/
inductive Look where
  | searchOpen (search : SearchId) (flags : UInt32)
  | rootOpen (locale : Option CString) (flags : UInt32)
  | searchResolve (search : SearchId)
  | rootResolve (locale : Option CString)

/-- The search that the call requests, and the root once it is made. -/
def Look.requested (mem : Bool) (s : Root) : Look → Option SearchId × Root
  | .searchOpen search _ | .searchResolve search => (some search, s)
  | .rootOpen locale _ | .rootResolve locale =>
    ((searchOfLocale mem s locale).1 <|> (searchOfLocale mem s locale).2.defaultSearch,
      (searchOfLocale mem s locale).2)

/-- No flag of the call is refused. -/
def Look.Accepted : Look → Prop
  | .searchOpen _ flags | .rootOpen _ flags => flags &&& O_CREAT = 0
  | .searchResolve _ | .rootResolve _ => True

def Look.succeeds (openat : Bytes → UInt32 → Option Nat) (faccessat : Bytes → Bool) : Look → Bytes → Bool
  | .searchOpen _ flags, p | .rootOpen _ flags, p => (openat p flags).isSome
  | .searchResolve _, p | .rootResolve _, p => faccessat p

/-- The paths that the call tries. -/
def Look.tried (openat : Bytes → UInt32 → Option Nat) (faccessat : Bytes → Bool) (mem : Bool) (maxlength : Nat)
    (s : Root) (filename : Option Bytes) : Look → Option (List Bytes)
  | .searchOpen search flags => (localeSearchOpen openat maxlength s search filename flags).map Opening.tried
  | .rootOpen locale flags => (localeRootOpen openat mem maxlength s filename flags locale).map fun x => x.1.tried
  | .searchResolve search => (localeSearchResolve faccessat mem maxlength s search filename).map Resolving.tried
  | .rootResolve locale => (localeRootResolve faccessat mem maxlength s filename locale).map fun x => x.1.tried

/-- The paths that must be tried: those of the search, those of the default search when it is
another one, and the file in the root directory. -/
def wantedPaths (s : Root) (search : Option SearchId) (filename : Bytes) : List Bytes :=
  (nodes s search ++ if search ≠ s.defaultSearch then nodes s s.defaultSearch else []).map
    (pathOf s.container filename) ++ [filename]

/-- When no path of the search exists the ones of the default search come before the root. -/
def FallsBack (mem : Bool) (maxlength : Nat) (s : Root) (filename : CString) (name : Bytes) (look : Look) : Prop :=
  ∀ (openat : Bytes → UInt32 → Option Nat) (faccessat : Bytes → Bool),
    (∀ folder ∈ nodes (look.requested mem s).2 (look.requested mem s).1,
      look.succeeds openat faccessat (pathOf (look.requested mem s).2.container name folder) = false) →
    look.tried openat faccessat mem maxlength s (some filename.1) = some (attempts (look.succeeds openat faccessat)
      (wantedPaths (look.requested mem s).2 (look.requested mem s).1 name))

private theorem search_container (s : Root) (definition : Option CString) (immediate mem : Bool) :
    (localeRootSearch s definition immediate mem).2.container = s.container := by
  rcases search_cases s definition immediate mem with ⟨i, e, -, -, -, heq⟩ | ⟨-, heq⟩
  · rw [heq]
    rfl
  · rw [heq]
    split
    · exact (unref_frame _ _).1
    · rfl

section
variable {openat : Bytes → UInt32 → Option Nat} {faccessat : Bytes → Bool} {mem : Bool} {s : Root} {c : Located}
  {filename : CString} {name : Bytes} {look : Look}

private theorem requested_container (look : Look) (mem : Bool) : (look.requested mem s).2.container =
    s.container := by
  have hlocale (locale : Option CString) : (searchOfLocale mem s locale).2.container = s.container := by
    cases locale with
    | none => rfl
    | some l => exact search_container s (some l) false mem
  cases look with
  | searchOpen => rfl
  | searchResolve => rfl
  | rootOpen locale => exact hlocale locale
  | rootResolve locale => exact hlocale locale

/-- The paths of the search that the call requests are tried. -/
theorem look_tried (hs : s.container = c.container) (hlook : look.Accepted)
    (hvalid : subpathForce (some filename.1) = some name) (hlen : name.length ≤ PATH_MAX) :
    look.tried openat faccessat mem c.maxlength s (some filename.1) = some (attempts (look.succeeds openat faccessat)
      (triedPaths (look.requested mem s).2 (look.requested mem s).1 name)) := by
  have hnul := subpathForce_noNul hvalid filename.2
  have hholds := holds_located ((requested_container look mem).trans hs)
  cases look with
  | searchOpen search flags => exact doOpen_tried hholds hlook hvalid hlen hnul
  | rootOpen locale flags =>
    rw [Look.tried, localeRootOpen, Option.map_map]
    exact doOpen_tried hholds hlook hvalid hlen hnul
  | searchResolve search => exact doResolve_tried hholds hvalid hlen hnul
  | rootResolve locale =>
    rw [Look.tried, localeRootResolve, Option.map_map]
    exact doResolve_tried hholds hvalid hlen hnul

private theorem attempts_all (paths : List Bytes) : attempts (fun _ => false) paths = paths := by
  induction paths with
  | nil => rfl
  | cons p paths ih => rw [attempts, if_neg Bool.false_ne_true, ih]

end

/-- The default search serves unless the one requested has no folder while it has some. -/
theorem look_falls_back_iff (c : Located) (s : Root) (hs : s.container = c.container) (filename : CString)
    (name : Bytes) (hvalid : subpathForce (some filename.1) = some name) (hlen : name.length ≤ PATH_MAX)
    (mem : Bool) (look : Look) (hlook : look.Accepted) : FallsBack mem c.maxlength s filename name look ↔
      nodes (look.requested mem s).2 (look.requested mem s).1 ≠ [] ∨
        nodes (look.requested mem s).2 (look.requested mem s).2.defaultSearch = [] := by
  constructor
  · intro h
    by_contra hnone
    rw [not_or, not_not] at hnone
    obtain ⟨hnil, hdefault⟩ := hnone
    have hother : (look.requested mem s).1 ≠ (look.requested mem s).2.defaultSearch :=
      fun heq => hdefault (heq ▸ hnil)
    have hfail : look.succeeds (fun _ _ => none) (fun _ => false) = fun _ => false := by
      cases look <;> rfl
    have htried := h (fun _ _ => none) (fun _ => false) fun folder _ => congrFun hfail _
    rw [look_tried hs hlook hvalid hlen, hfail, attempts_all, attempts_all, triedPaths, triedFolders, wantedPaths,
      hnil, if_pos hother] at htried
    have hlength := congrArg List.length (Option.some.inj htried)
    simp [hdefault] at hlength
  · intro h openat faccessat _
    rw [look_tried hs hlook hvalid hlen, triedPaths, wantedPaths]
    rcases h with hne | hdefault
    · rw [triedFolders_of_ne hne]
    · rw [triedFolders]
      cases hnodes : nodes (look.requested mem s).2 (look.requested mem s).1 with
      | nil => simp [hdefault]
      | cons i l => rfl

/-- The search that found no folder, though the default one has the folder en. -/
theorem searchOpen_skips_default : ¬ FallsBack true sample.maxlength sampleRoot sampleName [0x66] (.searchOpen 1 0) := by
  intro h
  have htried := h (fun _ _ => none) (fun _ => false) fun _ _ => rfl
  have hlook : (Look.searchOpen 1 0).Accepted := show (0 : UInt32) &&& O_CREAT = 0 by decide
  rw [look_tried (c := sample) rfl hlook sampleName_valid (by decide)] at htried
  exact absurd htried (by decide)

/-- A root with the folders en and fr, its default search being en. -/
def bothFolders : Located := (initContainer insertionSort (.entries [folderEn, ⟨linkFr.name, .directory⟩])).2

def bothRoot : Root :=
  let found := localeRootSearch (localeRootCreate bothFolders.container) (some folderEn.name) false true
  localeRootSetDefaultSearch found.2 found.1

/-- The file f for the locale fr: the folder of fr, then that of the default search, then the root. -/
theorem look_falls_back_other :
    FallsBack true bothFolders.maxlength bothRoot sampleName [0x66] (.rootOpen (some linkFr.name) 0) ∧
      let r := (Look.rootOpen (some linkFr.name) 0).requested true bothRoot
      wantedPaths r.2 r.1 [0x66] = [1, 0].map (pathOf bothFolders.container [0x66]) ++ [[0x66]] := by
  have haccepted : (Look.rootOpen (some linkFr.name) 0).Accepted :=
    show (0 : UInt32) &&& O_CREAT = 0 by decide
  exact ⟨(look_falls_back_iff bothFolders bothRoot rfl sampleName [0x66] sampleName_valid (by decide) true _
    haccepted).mpr (.inl (by decide)), by decide⟩

end AfbBinder.Locale
