import Mathlib.Data.List.Nodup
import AfbBinder.Lib.Bsearch
import AfbBinder.Lib.Words
import AfbBinder.HookFlags.Tables

/-! The search of a flag by its name, in a table that is not sorted for its comparison, and the
value of a text of names. -/
namespace AfbBinder.HookFlags
open Lib.Bsearch Lib.Cstrings Lib.Words
open Lib.Json (ascii)

def underscore : UInt8 := 95
def dash : UInt8 := 45

def toupper (c : UInt8) : UInt8 := if 97 ≤ c ∧ c ≤ 122 then c - 32 else c

/-- What is compared of a character. -/
def folded (c : UInt8) : UInt8 := if c = underscore then dash else toupper c

/-- A char is signed. -/
def signed (c : UInt8) : Int := c.toInt8.toInt

/-- The query is cut at its length. -/
def compare : Bytes → Bytes → Int
  | [], [] => 0
  | [], _ :: _ => 1
  | _ :: _, [] => -1
  | q :: query, v :: value =>
    if folded q = folded v then compare query value else signed (folded q) - signed (folded v)

/-- Where the dichotomic search goes from the index. -/
def direction (name : Bytes) (flags : List Flag) (mid : Nat) : Ordering :=
  match flags[mid]? with
  | none => .gt
  | some flag =>
    if compare name flag.name = 0 then .eq else if compare name flag.name < 0 then .gt else .lt

def search (name : Bytes) (flags : List Flag) : Option Flag :=
  (bsearch (direction name flags) flags.length 0 flags.length).bind (flags[·]?)

def getFlag (name : Bytes) (flags : List Flag) : BitVec 32 :=
  let name := if name = ascii "*" then ascii "all" else name
  match search name flags with
  | some flag => flag.value
  | none => if compare name (ascii "no") ≠ 0 ∧ compare name (ascii "none") ≠ 0 then -1 else 0

/-- A space, a tabulation or a comma. -/
def sep (c : UInt8) : Bool := c = 32 ∨ c = 9 ∨ c = 44

/-- The loop of from_text: c is the first character of the name. -/
def fromTextLoop (flags : List Flag) (text : Bytes) (result : BitVec 32) : BitVec 32 :=
  match _h : text.dropWhile sep with
  | [] => result
  | c :: rest =>
    let val := getFlag (c :: rest.takeWhile fun c => !sep c) flags
    if val = -1 then val
    else fromTextLoop flags (rest.dropWhile fun c => !sep c) (result ||| val)
  termination_by text.length
  decreasing_by
    have hskip := (List.dropWhile_sublist sep (l := text)).length_le
    have hname := (List.dropWhile_sublist (fun c => !sep c) (l := rest)).length_le
    rw [_h] at hskip
    exact Nat.lt_of_le_of_lt hname hskip

/-- The text is none for NULL. -/
def fromText (text : Option Bytes) (flags : List Flag) : BitVec 32 :=
  match text with
  | none => 0
  | some text => fromTextLoop flags text 0

/-- The same name but for the case, an underscore being a dash. -/
def Alike (a b : Bytes) : Prop := a.map folded = b.map folded

instance (a b : Bytes) : Decidable (Alike a b) := inferInstanceAs (Decidable (_ = _))

/-- The value that a token stands for in a table. -/
inductive Stands (flags : List Flag) : Bytes → BitVec 32 → Prop where
  | name {token : Bytes} (flag : Flag) (listed : flag ∈ flags) (alike : Alike token flag.name) :
      Stands flags token flag.value
  | star (flag : Flag) (listed : flag ∈ flags) (all : flag.name = ascii "all") :
      Stands flags (ascii "*") flag.value
  | none {token : Bytes} (alike : Alike token (ascii "no") ∨ Alike token (ascii "none")) :
      Stands flags token 0

def tokens (text : Option Bytes) : List Bytes := text.elim [] (words sep)

def orAll (values : List (BitVec 32)) : BitVec 32 := values.foldl (· ||| ·) 0

/-- What from_text is for. -/
structure FromTextRight (table : Table) (text : Option Bytes) : Prop where
  value : ∀ values, List.Forall₂ (Stands table.flags) (tokens text) values →
    fromText text table.flags = orAll values
  unknown : fromText text table.flags = -1 ↔
    ∃ token ∈ tokens text, ∀ value, ¬Stands table.flags token value

/-- The names of the table that the search goes past. The comparison puts a name after the longer
names that begin with it; the tables put most of them before. -/
def Table.lost : Table → List Bytes
  | .xreq =>
    [ascii "context", ascii "get", ascii "get_application_id", ascii "session", ascii "store",
      ascii "subcall", ascii "subcalls", ascii "subcallsync"]
  | .api =>
    [ascii "api", ascii "call", ascii "event", ascii "event_broadcast", ascii "on_event_handler"]
  | .evt => []
  | .session => []
  | .global => []
  | .legacyDitf => [ascii "require_api_result"]
  | .legacySvc => [ascii "call", ascii "callsync"]

section
variable {a b c q r v name token : Bytes} {flags : List Flag} {flag : Flag} {table : Table}

private theorem signed_injective {x y : UInt8} (h : signed x - signed y = 0) : x = y := by
  have hint : x.toInt8 = y.toInt8 := Int8.toInt_inj.mp (Int.sub_eq_zero.mp h)
  rw [← UInt8.toUInt8_toInt8 x, hint, UInt8.toUInt8_toInt8]

private theorem compare_eq_zero : compare q v = 0 ↔ Alike q v := by
  fun_induction compare q v with
  | case1 => exact iff_of_true rfl rfl
  | case2 => exact iff_of_false (by decide) (by simp [Alike])
  | case3 => exact iff_of_false (by decide) (by simp [Alike])
  | case4 q query v value h ih =>
    rw [ih, Alike, Alike, List.map_cons, List.map_cons, h, List.cons.injEq]
    exact (and_iff_right rfl).symm
  | case5 q query v value h =>
    refine iff_of_false (fun hz => h (signed_injective hz)) fun halike => ?_
    rw [Alike, List.map_cons, List.map_cons, List.cons.injEq] at halike
    exact h halike.1

/-- The comparison sees the folded characters only. -/
theorem compare_congr (h : Alike q r) : compare q v = compare r v := by
  induction q generalizing r v with
  | nil =>
    rw [List.map_eq_nil_iff.mp h.symm]
  | cons x q ih =>
    cases r with
    | nil => cases List.map_eq_nil_iff.mp h
    | cons y r =>
      rw [Alike, List.map_cons, List.map_cons, List.cons.injEq] at h
      cases v with
      | nil => rfl
      | cons z v => rw [compare, compare, h.1, ih h.2]

private theorem search_congr (h : Alike a b) : search a flags = search b flags := by
  have hdirection : direction a flags = direction b flags := by
    funext mid
    unfold direction
    cases flags[mid]? with
    | none => rfl
    | some flag =>
      dsimp only
      rw [compare_congr h]
  rw [search, hdirection]
  rfl

private theorem direction_eq {mid : Nat} (h : direction name flags mid = .eq) :
    ∃ flag, flags[mid]? = some flag ∧ Alike name flag.name := by
  unfold direction at h
  cases hflag : flags[mid]? with
  | none =>
    rw [hflag] at h
    cases h
  | some flag =>
    rw [hflag] at h
    dsimp only at h
    by_cases hzero : compare name flag.name = 0
    · exact ⟨flag, rfl, compare_eq_zero.mp hzero⟩
    · rw [if_neg hzero] at h
      split at h
      · cases h
      · cases h

private theorem search_sound (h : search name flags = some flag) :
    flag ∈ flags ∧ Alike name flag.name := by
  obtain ⟨mid, hmid, hflag⟩ := Option.bind_eq_some_iff.mp h
  obtain ⟨found, hfound, halike⟩ := direction_eq (bsearch_sound hmid).2.2
  obtain rfl := Option.some.inj (hfound.symm.trans hflag)
  exact ⟨List.mem_of_getElem? hflag, halike⟩

/-- What the tables hold: the names that the search goes past, the other ones, the group of all the
flags, and no two names alike. -/
theorem table_facts (table : Table) :
    (∀ flag ∈ table.flags, flag.name ∉ table.lost → search flag.name table.flags = some flag) ∧
    (∀ name ∈ table.lost, search name table.flags = none ∧ ∃ flag ∈ table.flags, flag.name = name) ∧
    (∃ flag ∈ table.flags, flag.name = ascii "all" ∧ flag.name ∉ table.lost) ∧
    (table.flags.map fun flag => flag.name.map folded).Nodup ∧
    ∀ flag ∈ table.flags, (¬Alike (ascii "*") flag.name ∧ ¬Alike flag.name (ascii "no") ∧
      ¬Alike flag.name (ascii "none")) ∧ flag.value.msb = false := by
  cases table <;> decide +kernel

private theorem search_kept (h : flag ∈ table.flags) (hkept : flag.name ∉ table.lost) :
    search flag.name table.flags = some flag :=
  (table_facts table).1 flag h hkept

private theorem search_lost (h : name ∈ table.lost) : search name table.flags = none :=
  ((table_facts table).2.1 name h).1

theorem lost_listed (h : name ∈ table.lost) : ∃ flag ∈ table.flags, flag.name = name :=
  ((table_facts table).2.1 name h).2

theorem all_listed (table : Table) :
    ∃ flag ∈ table.flags, flag.name = ascii "all" ∧ flag.name ∉ table.lost :=
  (table_facts table).2.2.1

/-- The names of a table are unlike one another. -/
theorem names_unlike {f g : Flag} (hf : f ∈ table.flags) (hg : g ∈ table.flags)
    (h : Alike f.name g.name) : f = g :=
  List.inj_on_of_nodup_map (table_facts table).2.2.2.1 hf hg h

/-- No name of a table is like one of the words with a meaning of their own. -/
theorem words_unlike (h : flag ∈ table.flags) : ¬Alike (ascii "*") flag.name ∧
    ¬Alike flag.name (ascii "no") ∧ ¬Alike flag.name (ascii "none") :=
  ((table_facts table).2.2.2.2 flag h).1

private theorem value_msb (h : flag ∈ table.flags) : flag.value.msb = false :=
  ((table_facts table).2.2.2.2 flag h).2

/-- The name that get_flag searches. -/
theorem not_star (h : flag ∈ table.flags) (halike : Alike token flag.name) : token ≠ ascii "*" := by
  rintro rfl
  exact (words_unlike h).1 halike

theorem getFlag_star (table : Table) (h : flag ∈ table.flags) (hall : flag.name = ascii "all") :
    getFlag (ascii "*") table.flags = flag.value := by
  obtain ⟨entry, hentry, hname, hkept⟩ := all_listed table
  have hsame : entry = flag := names_unlike hentry h (by rw [hname, hall]; rfl)
  have hfound := search_kept hentry hkept
  rw [hname, hsame] at hfound
  unfold getFlag
  rw [if_pos rfl]
  dsimp only
  rw [hfound]

theorem getFlag_name (h : flag ∈ table.flags) (halike : Alike token flag.name)
    (hkept : flag.name ∉ table.lost) : getFlag token table.flags = flag.value := by
  unfold getFlag
  rw [if_neg (not_star h halike)]
  dsimp only
  rw [search_congr halike, search_kept h hkept]

/-- A name that the search goes past is taken for an unknown one. -/
theorem getFlag_lost (h : name ∈ table.lost) (halike : Alike token name) :
    getFlag token table.flags = -1 := by
  obtain ⟨flag, hflag, rfl⟩ := lost_listed h
  have hwords := words_unlike hflag
  unfold getFlag
  rw [if_neg (not_star hflag halike)]
  dsimp only
  rw [search_congr halike, search_lost h]
  refine if_pos ⟨fun hno => hwords.2.1 ?_, fun hnone => hwords.2.2 ?_⟩
  · exact halike.symm.trans (compare_eq_zero.mp hno)
  · exact halike.symm.trans (compare_eq_zero.mp hnone)

theorem getFlag_none (halike : Alike token (ascii "no") ∨ Alike token (ascii "none")) :
    getFlag token table.flags = 0 := by
  have hstar : token ≠ ascii "*" := by
    rintro rfl
    revert halike
    decide
  have hsearch : search token table.flags = none := by
    cases hfound : search token table.flags with
    | none => rfl
    | some flag =>
      obtain ⟨hflag, hname⟩ := search_sound hfound
      have hwords := words_unlike hflag
      rcases halike with hno | hnone
      · exact absurd (hname.symm.trans hno) hwords.2.1
      · exact absurd (hname.symm.trans hnone) hwords.2.2
  unfold getFlag
  rw [if_neg hstar]
  dsimp only
  rw [hsearch]
  refine if_neg fun hneither => ?_
  rcases halike with hno | hnone
  · exact hneither.1 (compare_eq_zero.mpr hno)
  · exact hneither.2 (compare_eq_zero.mpr hnone)

/-- A token that stands for nothing. -/
theorem getFlag_unknown (h : ∀ value, ¬Stands table.flags token value) :
    getFlag token table.flags = -1 := by
  have hstar : token ≠ ascii "*" := by
    rintro rfl
    obtain ⟨entry, hentry, hname, -⟩ := all_listed table
    exact h _ (.star entry hentry hname)
  have hsearch : search token table.flags = none := by
    cases hfound : search token table.flags with
    | none => rfl
    | some flag =>
      obtain ⟨hflag, hname⟩ := search_sound hfound
      exact absurd (.name flag hflag hname) (h _)
  unfold getFlag
  rw [if_neg hstar]
  dsimp only
  rw [hsearch]
  refine if_pos ⟨fun hno => ?_, fun hnone => ?_⟩
  · exact h 0 (.none (.inl (compare_eq_zero.mp hno)))
  · exact h 0 (.none (.inr (compare_eq_zero.mp hnone)))

theorem getFlag_stands {value : BitVec 32} (h : Stands table.flags token value)
    (hkept : ∀ name ∈ table.lost, ¬Alike token name) : getFlag token table.flags = value := by
  cases h with
  | name flag hflag halike => exact getFlag_name hflag halike fun hlost => hkept _ hlost halike
  | star flag hflag hall => exact getFlag_star table hflag hall
  | none halike => exact getFlag_none halike

private theorem map_getFlag {names : List Bytes} {values : List (BitVec 32)}
    (h : List.Forall₂ (Stands table.flags) names values)
    (hkept : ∀ token ∈ names, ∀ name ∈ table.lost, ¬Alike token name) :
    names.map (getFlag · table.flags) = values := by
  induction h with
  | nil => rfl
  | cons hstands _ ih =>
    rw [List.map_cons, getFlag_stands hstands (hkept _ List.mem_cons_self),
      ih fun token htoken => hkept token (List.mem_cons_of_mem _ htoken)]

private theorem exists_of_mem_left {names : List Bytes} {values : List (BitVec 32)}
    (h : List.Forall₂ (Stands flags) names values) (htoken : token ∈ names) :
    ∃ value, Stands flags token value := by
  induction h with
  | nil => cases htoken
  | cons hstands _ ih =>
    rcases List.mem_cons.mp htoken with rfl | htoken
    · exact ⟨_, hstands⟩
    · exact ih htoken

theorem stands_msb {value : BitVec 32} (h : Stands table.flags token value) :
    value.msb = false := by
  cases h with
  | name flag hflag halike => exact value_msb hflag
  | star flag hflag hall => exact value_msb hflag
  | none halike => rfl

theorem ne_minus_one {value : BitVec 32} (h : value.msb = false) : value ≠ -1 := by
  rintro rfl
  exact absurd h (by decide)

theorem foldl_or_msb {values : List (BitVec 32)} {result : BitVec 32}
    (h : ∀ value ∈ values, value.msb = false) (hresult : result.msb = false) :
    (values.foldl (· ||| ·) result).msb = false := by
  induction values generalizing result with
  | nil => exact hresult
  | cons value values ih =>
    refine ih (fun v hv => h v (List.mem_cons_of_mem _ hv)) ?_
    rw [BitVec.msb_or, hresult, h value List.mem_cons_self]
    rfl

/-- The loop ends at the first token that is not found. -/
theorem loop_unknown {text : Bytes} {result : BitVec 32}
    (h : ∃ token ∈ words sep text, getFlag token flags = -1) :
    fromTextLoop flags text result = -1 := by
  fun_induction fromTextLoop flags text result with
  | case1 text result hskip =>
    obtain ⟨token, htoken, -⟩ := h
    rw [← words_skip, hskip] at htoken
    cases htoken
  | case2 text result c rest hskip val hval => exact hval
  | case3 text result c rest hskip val hval ih =>
    refine ih ?_
    obtain ⟨token, htoken, hlost⟩ := h
    rw [← words_skip, hskip, words_cons rest (stop_of_dropWhile hskip)] at htoken
    rcases List.mem_cons.mp htoken with rfl | htoken
    · exact absurd hlost hval
    · exact ⟨token, htoken, hlost⟩

private theorem loop_known {text : Bytes} {result : BitVec 32}
    (h : ∀ token ∈ words sep text, getFlag token flags ≠ -1) :
    fromTextLoop flags text result =
      ((words sep text).map (getFlag · flags)).foldl (· ||| ·) result := by
  fun_induction fromTextLoop flags text result with
  | case1 text result hskip =>
    rw [← words_skip, hskip]
    rfl
  | case2 text result c rest hskip val hval =>
    rw [← words_skip, hskip, words_cons rest (stop_of_dropWhile hskip)] at h
    exact absurd hval (h _ List.mem_cons_self)
  | case3 text result c rest hskip val hval ih =>
    rw [← words_skip, hskip, words_cons rest (stop_of_dropWhile hskip)] at h ⊢
    exact ih fun token htoken => h token (List.mem_cons_of_mem _ htoken)

theorem fromText_unknown {text : Option Bytes}
    (h : ∃ token ∈ tokens text, getFlag token flags = -1) : fromText text flags = -1 := by
  cases text with
  | none =>
    obtain ⟨token, htoken, -⟩ := h
    cases htoken
  | some text => exact loop_unknown h

theorem fromText_known {text : Option Bytes}
    (h : ∀ token ∈ tokens text, getFlag token flags ≠ -1) :
    fromText text flags = orAll ((tokens text).map (getFlag · flags)) := by
  cases text with
  | none => rfl
  | some text => exact loop_known h

end

/-- From_text is right on the texts with no token that its search goes past, and on those that
have an unknown token anyway. -/
theorem fromText_right_iff (table : Table) (text : Option Bytes) :
    FromTextRight table text ↔
      (∀ token ∈ tokens text, ∀ name ∈ table.lost, ¬Alike token name) ∨
        ∃ token ∈ tokens text, ∀ value, ¬Stands table.flags token value := by
  constructor
  · intro h
    by_cases hlost : ∃ token ∈ tokens text, ∃ name ∈ table.lost, Alike token name
    · obtain ⟨token, htoken, name, hname, halike⟩ := hlost
      exact .inr (h.unknown.mp (fromText_unknown ⟨token, htoken, getFlag_lost hname halike⟩))
    · exact .inl fun token htoken name hname halike => hlost ⟨token, htoken, name, hname, halike⟩
  · intro h
    by_cases hunknown : ∃ token ∈ tokens text, ∀ value, ¬Stands table.flags token value
    · refine ⟨fun values hvalues => ?_, iff_of_true ?_ hunknown⟩
      · obtain ⟨token, htoken, hno⟩ := hunknown
        obtain ⟨value, hstands⟩ := exists_of_mem_left hvalues htoken
        exact absurd hstands (hno value)
      · obtain ⟨token, htoken, hno⟩ := hunknown
        exact fromText_unknown ⟨token, htoken, getFlag_unknown hno⟩
    · push Not at hunknown
      have hkept : ∀ token ∈ tokens text, ∀ name ∈ table.lost, ¬Alike token name := by
        rcases h with h | ⟨token, htoken, hno⟩
        · exact h
        · obtain ⟨value, hvalue⟩ := hunknown token htoken
          exact absurd hvalue (hno value)
      have hmsb : ∀ token ∈ tokens text, (getFlag token table.flags).msb = false := by
        intro token htoken
        obtain ⟨value, hvalue⟩ := hunknown token htoken
        rw [getFlag_stands hvalue (hkept token htoken)]
        exact stands_msb hvalue
      have hknown := fromText_known fun token htoken => ne_minus_one (hmsb token htoken)
      refine ⟨fun values hvalues => ?_, iff_of_false ?_ ?_⟩
      · rw [hknown]
        refine congrArg orAll ?_
        exact map_getFlag hvalues hkept
      · rw [hknown]
        refine ne_minus_one (foldl_or_msb ?_ rfl)
        simpa using hmsb
      · rintro ⟨token, htoken, hno⟩
        obtain ⟨value, hvalue⟩ := hunknown token htoken
        exact hno value hvalue

/-- The group of the context flags, a name of the table, is not found. -/
theorem fromText_context_lost : ¬FromTextRight .xreq (some (ascii "context")) := by
  intro h
  have htokens : tokens (some (ascii "context")) = [ascii "context"] := by decide +kernel
  have hlost : getFlag (ascii "context") Table.xreq.flags = -1 :=
    getFlag_lost (show ascii "context" ∈ Table.xreq.lost by decide +kernel) rfl
  obtain ⟨token, htoken, hno⟩ := h.unknown.mp (fromText_unknown ⟨_, by simp [htokens], hlost⟩)
  rw [htokens, List.mem_singleton] at htoken
  subst htoken
  obtain ⟨flag, hflag, hname⟩ := lost_listed
    (show ascii "context" ∈ Table.xreq.lost by decide +kernel)
  exact hno _ (.name flag hflag (by rw [hname]; rfl))

end AfbBinder.HookFlags
