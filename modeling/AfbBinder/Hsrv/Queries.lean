import AfbBinder.Lib.Forms

/-! The query that is added to a url for a redirection, in a buffer that grows by steps. -/
namespace AfbBinder.Hsrv
open Lib.Cstrings Lib.Forms
open Lib.Scanf (hexValue)

/-- The buffer; the text is the part of it that was written. -/
structure Mkq where
  count : Nat
  length : Nat
  alloc : Nat
  text : Option Bytes
  deriving DecidableEq, Repr

section
variable (mem : Nat → Bool)

/-- An allocation of n bytes succeeds if mem n. -/
def mkqAdd (mkq : Mkq) (value : UInt8) : Mkq :=
  match mkq.text with
  | none => mkq
  | some text =>
    if mkq.length = mkq.alloc then
      let alloc := mkq.alloc + 100
      if mem alloc then { mkq with alloc, length := mkq.length + 1, text := some (text ++ [value]) }
      else { mkq with alloc, text := none }
    else { mkq with length := mkq.length + 1, text := some (text ++ [value]) }

def mkqAddHex (mkq : Mkq) (value : UInt8) : Mkq :=
  mkqAdd mem mkq (if value < 10 then value + 48 else value + 65 - 10)

def mkqAddEsc (mkq : Mkq) (value : UInt8) : Mkq :=
  mkqAddHex mem (mkqAddHex mem (mkqAdd mem mkq percent) ((value >>> 4) &&& 15)) (value &&& 15)

/-- A char above 127 is a negative one where it is signed: it is escaped then too. -/
def mkqAddChar (mkq : Mkq) (value : UInt8) : Mkq :=
  if value ≤ 32 ∨ 127 ≤ value then mkqAddEsc mem mkq value
  else if value = equal ∨ value = ampersand ∨ value = percent then mkqAddEsc mem mkq value
  else mkqAdd mem mkq value

def mkqAppend (mkq : Mkq) (value : Bytes) : Mkq := value.foldl (mkqAddChar mem) mkq

def mkquery (mkq : Mkq) (arg : Bytes × Option Bytes) : Mkq :=
  let first := mkq.count
  let mkq := mkqAdd mem { mkq with count := mkq.count + 1 } (if first ≠ 0 then ampersand else question)
  let mkq := mkqAppend mem mkq arg.1
  match arg.2 with
  | some value => mkqAppend mem (mkqAdd mem mkq equal) value
  | none => mkq

/-- The arguments are those that microhttpd gives, in its order. The text has its end. -/
def urlWithQuery (url : Bytes) (args : List (Bytes × Option Bytes)) : Option Bytes :=
  let alloc := url.length + 1000
  if mem alloc then
    (mkqAdd mem (args.foldl (mkquery mem) ⟨0, url.length, alloc, some url⟩) 0).text
  else none

end

def hexChar (value : UInt8) : UInt8 := if value < 10 then value + 48 else value + 65 - 10

def escapeChar (c : UInt8) : Bytes :=
  if c ≤ 32 ∨ 127 ≤ c ∨ c = equal ∨ c = ampersand ∨ c = percent then
    [percent, hexChar ((c >>> 4) &&& 15), hexChar (c &&& 15)]
  else [c]

def escape (s : Bytes) : Bytes := s.flatMap escapeChar

def pairText (arg : Bytes × Option Bytes) : Bytes :=
  escape arg.1 ++ (arg.2.map fun value => equal :: escape value).getD []

def queryText : List (Bytes × Option Bytes) → Bytes
  | [] => []
  | arg :: args => question :: (pairText arg ++ (args.map pairText).flatMap (ampersand :: ·))

/-- The buffer has got these bytes at its end, unless memory lacked. -/
structure Adds (t : Bytes) (q r : Mkq) : Prop where
  text : ∀ x, r.text = some x → ∃ y, q.text = some y ∧ x = y ++ t
  count : r.count = q.count

section
variable (mem : Nat → Bool) {t u : Bytes} {q r s : Mkq}

private theorem Adds.refl (q : Mkq) : Adds [] q q :=
  ⟨fun x hx => ⟨x, hx, (List.append_nil x).symm⟩, rfl⟩

private theorem Adds.trans (h : Adds t q r) (h' : Adds u r s) : Adds (t ++ u) q s where
  text x hx := by
    obtain ⟨y, hy, rfl⟩ := h'.text x hx
    obtain ⟨z, hz, rfl⟩ := h.text y hy
    exact ⟨z, hz, List.append_assoc ..⟩
  count := h'.count.trans h.count

/-- The byte is written after the others, in the buffer as it is or as it grew. -/
theorem adds_add (q : Mkq) (value : UInt8) : Adds [value] q (mkqAdd mem q value) := by
  unfold mkqAdd
  cases hq : q.text with
  | none =>
    refine ⟨fun x hx => ?_, rfl⟩
    dsimp only at hx
    rw [hq] at hx
    cases hx
  | some text =>
    dsimp only
    split_ifs
    · exact ⟨fun x hx => ⟨text, hq, (Option.some.inj hx).symm⟩, rfl⟩
    · refine ⟨fun x hx => ?_, rfl⟩
      cases hx
    · exact ⟨fun x hx => ⟨text, hq, (Option.some.inj hx).symm⟩, rfl⟩

private theorem adds_addEsc (q : Mkq) (c : UInt8) :
    Adds [percent, hexChar ((c >>> 4) &&& 15), hexChar (c &&& 15)] q (mkqAddEsc mem q c) :=
  ((adds_add mem q percent).trans (adds_add mem _ _)).trans (adds_add mem _ _)

private theorem adds_addChar (q : Mkq) (c : UInt8) : Adds (escapeChar c) q (mkqAddChar mem q c) := by
  unfold escapeChar mkqAddChar
  by_cases hrange : c ≤ 32 ∨ 127 ≤ c
  · rw [if_pos hrange, if_pos (by tauto)]
    exact adds_addEsc mem q c
  · rw [if_neg hrange]
    by_cases hmark : c = equal ∨ c = ampersand ∨ c = percent
    · rw [if_pos hmark, if_pos (by tauto)]
      exact adds_addEsc mem q c
    · rw [if_neg hmark, if_neg (by tauto)]
      exact adds_add mem q c

private theorem adds_append (q : Mkq) (value : Bytes) : Adds (escape value) q (mkqAppend mem q value) := by
  unfold mkqAppend
  induction value generalizing q with
  | nil => exact .refl q
  | cons c value ih =>
    rw [escape, List.flatMap_cons]
    exact (adds_addChar mem q c).trans (ih _)

private theorem adds_mkquery (q : Mkq) (arg : Bytes × Option Bytes) :
    Adds ((if q.count ≠ 0 then ampersand else question) :: pairText arg)
      { q with count := q.count + 1 } (mkquery mem q arg) := by
  obtain ⟨key, value⟩ := arg
  have hkey := (adds_add mem { q with count := q.count + 1 }
    (if q.count ≠ 0 then ampersand else question)).trans (adds_append mem _ key)
  cases value with
  | none =>
    rw [pairText, Option.map_none, Option.getD_none, List.append_nil]
    exact hkey
  | some value =>
    have hvalue := hkey.trans ((adds_add mem _ equal).trans (adds_append mem _ value))
    rw [List.append_assoc] at hvalue
    exact hvalue

private theorem Adds.counted (h : Adds t q r) (n : Nat) :
    Adds t { q with count := n } { r with count := n } where
  text := h.text
  count := rfl

/-- The arguments after the first one. -/
theorem adds_more (args : List (Bytes × Option Bytes)) (q : Mkq) (hq : q.count ≠ 0) :
    Adds ((args.map pairText).flatMap (ampersand :: ·)) { q with count := q.count + args.length }
      (args.foldl (mkquery mem) q) := by
  induction args generalizing q with
  | nil => exact .refl q
  | cons arg args ih =>
    have hfirst := adds_mkquery mem q arg
    rw [if_pos hq] at hfirst
    have hrest := ih (mkquery mem q arg) (by rw [hfirst.count]; exact Nat.succ_ne_zero _)
    rw [List.map_cons, List.flatMap_cons, List.foldl_cons, List.length_cons, Nat.add_comm args.length,
      ← Nat.add_assoc]
    refine (hfirst.counted (q.count + 1 + args.length)).trans ?_
    rw [hfirst.count] at hrest
    exact hrest

/-- What is made of a url and its arguments. -/
theorem urlWithQuery_text {url text : Bytes} {args : List (Bytes × Option Bytes)}
    (h : urlWithQuery mem url args = some text) : text = url ++ queryText args ++ [0] := by
  unfold urlWithQuery at h
  dsimp only at h
  split_ifs at h
  cases args with
  | nil =>
    obtain ⟨y, hy, rfl⟩ := (adds_add mem _ 0).text text h
    obtain rfl := Option.some.inj hy
    rw [queryText, List.append_nil]
  | cons arg args =>
    have hfirst := adds_mkquery mem ⟨0, url.length, url.length + 1000, some url⟩ arg
    rw [if_neg (not_not_intro rfl)] at hfirst
    have hrest := adds_more mem args (mkquery mem ⟨0, url.length, url.length + 1000, some url⟩ arg)
      (by rw [hfirst.count]; exact Nat.succ_ne_zero _)
    obtain ⟨y, hy, rfl⟩ := (adds_add mem _ 0).text text h
    obtain ⟨z, hz, rfl⟩ := hrest.text y hy
    obtain ⟨x, hx, rfl⟩ := hfirst.text z hz
    obtain rfl := Option.some.inj hx
    rw [queryText, List.append_assoc _ (question :: pairText arg), List.cons_append]

end

section
variable {c x : UInt8} {s url : Bytes}

/-- The digits of a byte, with their values. -/
theorem hexChars (c : UInt8) : ∃ m n : Fin 16, c = UInt8.ofNat (16 * m.val + n.val) ∧
    (c >>> 4) &&& 15 = UInt8.ofNat m.val ∧ c &&& 15 = UInt8.ofNat n.val := by
  have hc := c.toNat_lt
  have hmask : ∀ n, n &&& 15 = n % 16 := fun n => Nat.and_two_pow_sub_one_eq_mod n 4
  refine ⟨⟨c.toNat / 16, by omega⟩, ⟨c.toNat % 16, by omega⟩, ?_, ?_, ?_⟩
  · rw [Nat.div_add_mod, UInt8.ofNat_toNat]
  · rw [← UInt8.toNat_inj, UInt8.toNat_and, UInt8.toNat_shiftRight, UInt8.toNat_ofNat']
    change c.toNat >>> 4 &&& 15 = c.toNat / 16 % 256
    rw [hmask, Nat.shiftRight_eq_div_pow]
    omega
  · rw [← UInt8.toNat_inj, UInt8.toNat_and, UInt8.toNat_ofNat']
    change c.toNat &&& 15 = c.toNat % 16 % 256
    rw [hmask]
    omega

private theorem hexValue_hexChar : ∀ d : Fin 16,
    hexValue (hexChar (UInt8.ofNat d.val)) = some d.val := by decide

private theorem hexChar_ne : ∀ d : Fin 16, hexChar (UInt8.ofNat d.val) ≠ 0 ∧
    hexChar (UInt8.ofNat d.val) ≠ hash ∧ hexChar (UInt8.ofNat d.val) ≠ ampersand ∧
    hexChar (UInt8.ofNat d.val) ≠ equal := by decide

/-- The decoder undoes the escape of a byte, but for plus. -/
theorem unescape_escapeChar (c : UInt8) (s : Bytes) :
    unescape (escapeChar c ++ s) = unplus c :: unescape s := by
  unfold escapeChar
  split_ifs with h
  · obtain ⟨m, n, hc, hm, hn⟩ := hexChars c
    have hplus : c ≠ plus := by
      rintro rfl
      exact absurd h (by decide)
    rw [hm, hn]
    change unescape (percent :: _ :: _ :: s) = _
    rw [unescape_percent (hexValue_hexChar m) (hexValue_hexChar n), ← hc, unplus, if_neg hplus]
  · exact unescape_cons (fun hc => h (by simp [hc])) s

private theorem unescape_escape (s : Bytes) : unescape (escape s) = s.map unplus := by
  induction s with
  | nil => rfl
  | cons c s ih =>
    rw [escape, List.flatMap_cons, unescape_escapeChar, List.map_cons]
    exact congrArg _ ih

/-- What is never written for a byte, and hash that is only written for itself. -/
theorem escapeChar_ne (h : x ∈ escapeChar c) :
    x ≠ 0 ∧ x ≠ ampersand ∧ x ≠ equal ∧ (x = hash → escapeChar c = [hash] ∧ c = hash) := by
  unfold escapeChar at h ⊢
  split_ifs at h ⊢ with hc
  · obtain ⟨m, n, -, hm, hn⟩ := hexChars c
    rw [hm, hn] at h
    rcases List.mem_cons.mp h with rfl | h
    · exact ⟨by decide, by decide, by decide, fun he => absurd he (by decide)⟩
    rcases List.mem_cons.mp h with rfl | h
    · exact ⟨(hexChar_ne m).1, (hexChar_ne m).2.2.1, (hexChar_ne m).2.2.2, fun he => absurd he (hexChar_ne m).2.1⟩
    · rw [List.mem_singleton.mp h]
      exact ⟨(hexChar_ne n).1, (hexChar_ne n).2.2.1, (hexChar_ne n).2.2.2, fun he => absurd he (hexChar_ne n).2.1⟩
  · obtain rfl := List.mem_singleton.mp h
    refine ⟨?_, ?_, ?_, fun he => ⟨by rw [he], he⟩⟩
    · rintro rfl
      exact hc (by decide)
    · rintro rfl
      exact hc (by decide)
    · rintro rfl
      exact hc (by decide)

private theorem escape_ne (h : x ∈ escape s) :
    x ≠ 0 ∧ x ≠ ampersand ∧ x ≠ equal ∧ (x = hash → hash ∈ s) := by
  obtain ⟨c, hc, hx⟩ := List.mem_flatMap.mp h
  obtain ⟨h0, hamp, heq, hhash⟩ := escapeChar_ne hx
  exact ⟨h0, hamp, heq, fun he => (hhash he).2 ▸ hc⟩

/-- Escaping goes with the cut at the first hash. -/
theorem escape_takeWhile (s : Bytes) :
    (escape s).takeWhile (· ≠ hash) = escape (s.takeWhile (· ≠ hash)) := by
  induction s with
  | nil => rfl
  | cons c s ih =>
    by_cases hc : c = hash
    · subst hc
      rfl
    · have hall : ∀ x ∈ escapeChar c, decide (x ≠ hash) = true := fun x hx =>
        decide_eq_true fun he => hc ((escapeChar_ne hx).2.2.2 he).2
      have hnext : (c :: s).takeWhile (· ≠ hash) = c :: s.takeWhile (· ≠ hash) :=
        List.takeWhile_cons_of_pos (decide_eq_true hc)
      rw [hnext, escape, List.flatMap_cons, List.takeWhile_append_of_pos hall, escape,
        List.flatMap_cons]
      exact congrArg _ ih

private theorem takeWhile_ne (s : Bytes) : hash ∉ s.takeWhile (· ≠ hash) := fun h =>
  absurd rfl (of_decide_eq_true (List.all_eq_true.mp List.all_takeWhile hash h))

private theorem takeWhile_free {a : Bytes} (h : hash ∉ a) (b : Bytes) :
    (a ++ b).takeWhile (· ≠ hash) = a ++ b.takeWhile (· ≠ hash) :=
  List.takeWhile_append_of_pos (all_ne h)

private theorem takeWhile_found {a : Bytes} (h : hash ∈ a) (b : Bytes) :
    (a ++ b).takeWhile (· ≠ hash) = a.takeWhile (· ≠ hash) := by
  induction a with
  | nil => cases h
  | cons c a ih =>
    rw [List.cons_append, List.takeWhile_cons, List.takeWhile_cons]
    by_cases hc : c = hash
    · simp [hc]
    · rw [ih ((List.mem_cons.mp h).resolve_left (Ne.symm hc))]

private theorem hash_mem_escape : hash ∈ escape s ↔ hash ∈ s :=
  ⟨fun h => (escape_ne h).2.2.2 rfl, fun h => List.mem_flatMap.mpr ⟨hash, h, by decide⟩⟩

end

/-- An argument up to its first hash. -/
def trimArg (arg : Bytes × Option Bytes) : Bytes × Option Bytes :=
  (arg.1.takeWhile (· ≠ hash), if hash ∈ arg.1 then none else arg.2.map (·.takeWhile (· ≠ hash)))

/-- The arguments up to the first hash in them. -/
def trimArgs : List (Bytes × Option Bytes) → List (Bytes × Option Bytes)
  | [] => []
  | arg :: args => if hash ∈ pairText arg then [trimArg arg] else arg :: trimArgs args

def plainArg (arg : Bytes × Option Bytes) : Bytes × Option Bytes :=
  (arg.1.map unplus, arg.2.map (·.map unplus))

/-- Neither hash nor plus in the key and in the value. -/
def Clean (arg : Bytes × Option Bytes) : Prop :=
  ∀ s, s = arg.1 ∨ arg.2 = some s → hash ∉ s ∧ plus ∉ s

private theorem hash_mem_pairText {arg : Bytes × Option Bytes} :
    hash ∈ pairText arg ↔ hash ∈ arg.1 ∨ ∃ s, arg.2 = some s ∧ hash ∈ s := by
  obtain ⟨key, value⟩ := arg
  rw [pairText, List.mem_append, hash_mem_escape]
  cases value with
  | none => simp
  | some value =>
    have hne : hash ≠ equal := by decide
    simp [hne, hash_mem_escape]

private theorem pairText_takeWhile (arg : Bytes × Option Bytes) :
    (pairText arg).takeWhile (· ≠ hash) = pairText (trimArg arg) := by
  obtain ⟨key, value⟩ := arg
  by_cases hkey : hash ∈ key
  · rw [pairText, takeWhile_found (hash_mem_escape.mpr hkey), escape_takeWhile, trimArg, if_pos hkey,
      pairText, Option.map_none, Option.getD_none, List.append_nil]
  · have htrim : key.takeWhile (· ≠ hash) = key := by
      rw [← List.append_nil key, takeWhile_free hkey, List.takeWhile_nil]
    rw [pairText, takeWhile_free (fun h => hkey (hash_mem_escape.mp h)), trimArg, if_neg hkey, htrim]
    cases value with
    | none => rfl
    | some value =>
      refine congrArg (escape key ++ ·) ?_
      rw [Option.map_some, Option.getD_some, List.takeWhile_cons_of_pos (by decide), escape_takeWhile]
      rfl

/-- The arguments after the first one, up to the first hash in them. -/
theorem more_takeWhile (args : List (Bytes × Option Bytes)) :
    ((args.map pairText).flatMap (ampersand :: ·)).takeWhile (· ≠ hash) =
      ((trimArgs args).map pairText).flatMap (ampersand :: ·) := by
  induction args with
  | nil => rfl
  | cons arg args ih =>
    rw [List.map_cons, List.flatMap_cons, List.cons_append,
      List.takeWhile_cons_of_pos (by decide), trimArgs]
    by_cases harg : hash ∈ pairText arg
    · rw [takeWhile_found harg, pairText_takeWhile, if_pos harg]
      simp
    · rw [takeWhile_free harg, ih, if_neg harg]
      rfl

private theorem queryText_takeWhile (args : List (Bytes × Option Bytes)) :
    (queryText args).takeWhile (· ≠ hash) = queryText (trimArgs args) := by
  cases args with
  | nil => rfl
  | cons arg args =>
    rw [queryText, List.takeWhile_cons_of_pos (by decide), trimArgs]
    by_cases harg : hash ∈ pairText arg
    · rw [takeWhile_found harg, pairText_takeWhile, if_pos harg, queryText, List.map_nil,
        List.flatMap_nil, List.append_nil]
    · rw [takeWhile_free harg, more_takeWhile, if_neg harg, queryText]

private theorem decodePair_pairText (arg : Bytes × Option Bytes) :
    decodePair (pairText arg) = plainArg arg := by
  obtain ⟨key, value⟩ := arg
  have hkey : equal ∉ escape key := fun h => (escape_ne h).2.2.1 rfl
  rw [decodePair, pairText, plainArg]
  cases value with
  | none =>
    rw [Option.map_none, Option.getD_none, List.append_nil, cut_of_notMem hkey]
    exact congrArg (·, none) (unescape_escape key)
  | some value =>
    rw [Option.map_some, Option.getD_some, cut_append hkey]
    exact congrArg₂ (fun k v => (k, some v)) (unescape_escape key) (unescape_escape value)

private theorem ampersand_pairText (arg : Bytes × Option Bytes) : ampersand ∉ pairText arg := by
  obtain ⟨key, value⟩ := arg
  rw [pairText, List.mem_append, not_or]
  refine ⟨fun h => (escape_ne h).2.1 rfl, fun h => ?_⟩
  cases value with
  | none => cases h
  | some value =>
    rcases List.mem_cons.mp h with h | h
    · exact absurd h (by decide)
    · exact (escape_ne h).2.1 rfl

private theorem zero_queryText (args : List (Bytes × Option Bytes)) : 0 ∉ queryText args := by
  have hpair : ∀ arg : Bytes × Option Bytes, 0 ∉ pairText arg := by
    rintro ⟨key, value⟩ h
    rcases List.mem_append.mp h with h | h
    · exact (escape_ne h).1 rfl
    cases value with
    | none => cases h
    | some value =>
      rcases List.mem_cons.mp h with h | h
      · exact absurd h (by decide)
      · exact (escape_ne h).1 rfl
  cases args with
  | nil => simp [queryText]
  | cons arg args =>
    intro h
    rcases List.mem_cons.mp h with h | h
    · exact absurd h (by decide)
    rcases List.mem_append.mp h with h | h
    · exact hpair arg h
    obtain ⟨t, ht, hmem⟩ := List.mem_flatMap.mp h
    obtain ⟨x, -, rfl⟩ := List.mem_map.mp ht
    rcases List.mem_cons.mp hmem with hmem | hmem
    · exact absurd hmem (by decide)
    · exact hpair x hmem

/-- What the decoder makes of a url and its arguments: it cuts them at the first hash, and has
spaces for the plus signs. -/
theorem decodeUrl_query {url : Bytes} (hquestion : question ∉ url) (hhash : hash ∉ url)
    (args : List (Bytes × Option Bytes)) :
    decodeUrl (url ++ queryText args) = (url, (trimArgs args).map plainArg) := by
  have hpairs : ∀ l : List (Bytes × Option Bytes), (l.map pairText).map decodePair = l.map plainArg := by
    intro l
    rw [List.map_map]
    exact List.map_congr_left fun arg _ => decodePair_pairText arg
  rw [decodeUrl, cut_fst, takeWhile_free hhash, queryText_takeWhile]
  cases trimArgs args with
  | nil =>
    rw [queryText, List.append_nil, cut_of_notMem hquestion]
    rfl
  | cons arg args =>
    rw [queryText, cut_append hquestion]
    dsimp only
    rw [splitOnP_join (ampersand_pairText arg), ← List.map_cons, hpairs]
    intro q hq
    obtain ⟨arg, -, rfl⟩ := List.mem_map.mp hq
    exact ampersand_pairText arg

private theorem trimArgs_free (args : List (Bytes × Option Bytes)) :
    ∀ arg ∈ trimArgs args, hash ∉ pairText arg := by
  induction args with
  | nil => simp [trimArgs]
  | cons arg args ih =>
    rw [trimArgs]
    split_ifs with h
    · intro x hx
      rw [List.mem_singleton.mp hx, ← pairText_takeWhile]
      exact takeWhile_ne _
    · intro x hx
      rcases List.mem_cons.mp hx with rfl | hx
      · exact h
      · exact ih x hx

private theorem trimArgs_self {args : List (Bytes × Option Bytes)} (h : ∀ arg ∈ args, hash ∉ pairText arg) :
    trimArgs args = args := by
  induction args with
  | nil => rfl
  | cons arg args ih =>
    rw [trimArgs, if_neg (h arg List.mem_cons_self), ih fun x hx => h x (List.mem_cons_of_mem _ hx)]

private theorem map_unplus {s : Bytes} (h : plus ∉ s) : s.map unplus = s := by
  refine (List.map_congr_left fun c hc => ?_).trans (List.map_id s)
  have hplus : c ≠ plus := by
    rintro rfl
    exact h hc
  rw [unplus, if_neg hplus, id]

private theorem plus_unplus (s : Bytes) : plus ∉ s.map unplus := by
  intro h
  obtain ⟨c, -, hc⟩ := List.mem_map.mp h
  unfold unplus at hc
  split_ifs at hc with hplus
  · exact absurd hc (by decide)
  · exact hplus hc

private theorem hash_unplus {s : Bytes} : hash ∈ s.map unplus ↔ hash ∈ s := by
  refine ⟨fun h => ?_, fun h => List.mem_map.mpr ⟨hash, h, by decide⟩⟩
  obtain ⟨c, hmem, hc⟩ := List.mem_map.mp h
  unfold unplus at hc
  split_ifs at hc
  · exact absurd hc (by decide)
  · exact hc ▸ hmem

private theorem clean_plainArg {arg : Bytes × Option Bytes} (h : hash ∉ pairText arg) :
    Clean (plainArg arg) := by
  rw [hash_mem_pairText, not_or, not_exists] at h
  rintro s (rfl | hs)
  · exact ⟨fun hmem => h.1 (hash_unplus.mp hmem), plus_unplus _⟩
  · obtain ⟨value, hvalue, rfl⟩ := Option.map_eq_some_iff.mp hs
    exact ⟨fun hmem => h.2 value ⟨hvalue, hash_unplus.mp hmem⟩, plus_unplus _⟩

private theorem plainArg_clean {arg : Bytes × Option Bytes} (h : Clean arg) :
    hash ∉ pairText arg ∧ plainArg arg = arg := by
  obtain ⟨key, value⟩ := arg
  have hkey := h key (.inl rfl)
  refine ⟨fun hmem => ?_, ?_⟩
  · rcases hash_mem_pairText.mp hmem with hmem | ⟨s, hs, hmem⟩
    · exact hkey.1 hmem
    · exact (h s (.inr hs)).1 hmem
  · rw [plainArg, map_unplus hkey.2]
    cases value with
    | none => rfl
    | some value => rw [Option.map_some, map_unplus (h value (.inr rfl)).2]

/-- Without plus and hash in the arguments they come back, and only then. -/
theorem map_plainArg_iff {args : List (Bytes × Option Bytes)} :
    (trimArgs args).map plainArg = args ↔ ∀ arg ∈ args, Clean arg := by
  constructor
  · intro h arg harg
    rw [← h] at harg
    obtain ⟨x, hx, rfl⟩ := List.mem_map.mp harg
    exact clean_plainArg (trimArgs_free args x hx)
  · intro h
    rw [trimArgs_self fun arg harg => (plainArg_clean (h arg harg)).1]
    exact (List.map_congr_left fun arg harg => (plainArg_clean (h arg harg)).2).trans (List.map_id args)

/-- For every url without query and all arguments: what is sent decodes to this url and these
arguments exactly when the url has no hash and the arguments neither hash nor plus. -/
theorem urlWithQuery_decodes_iff (mem : Nat → Bool) (url : Bytes)
    (args : List (Bytes × Option Bytes)) (text : Bytes) (hzero : 0 ∉ url) (hquestion : question ∉ url)
    (h : urlWithQuery mem url args = some text) :
    decodeUrl (text.takeWhile (· ≠ 0)) = (url, args) ↔
      hash ∉ url ∧ ∀ arg ∈ args, ∀ s, s = arg.1 ∨ arg.2 = some s → hash ∉ s ∧ plus ∉ s := by
  have htext : text.takeWhile (· ≠ 0) = url ++ queryText args := by
    have hfree : 0 ∉ url ++ queryText args := fun hmem =>
      (List.mem_append.mp hmem).elim hzero (zero_queryText args)
    rw [urlWithQuery_text mem h, List.takeWhile_append_of_pos (all_ne hfree),
      List.takeWhile_cons_of_neg (by decide), List.append_nil]
  rw [htext]
  by_cases hhash : hash ∈ url
  · refine iff_of_false (fun hd => ?_) fun hd => hd.1 hhash
    have hurl : (cut question (cut hash (url ++ queryText args)).1).1 = url := congrArg Prod.fst hd
    rw [cut_fst, cut_fst] at hurl
    rw [← hurl] at hhash
    exact takeWhile_ne _ ((List.takeWhile_sublist _).subset hhash)
  · rw [decodeUrl_query hquestion hhash, Prod.mk.injEq, map_plainArg_iff]
    simp only [hhash, not_false_eq_true, true_and]
    rfl

/-- The url / with the arguments "a b" of value "&" and "c" without value. -/
theorem urlWithQuery_decodes_marks : ∃ text,
    urlWithQuery (fun _ => true) [47] [([97, 32, 98], some [38]), ([99], none)] = some text ∧
    decodeUrl (text.takeWhile (· ≠ 0)) = ([47], [([97, 32, 98], some [38]), ([99], none)]) := by
  refine ⟨_, rfl, (urlWithQuery_decodes_iff (fun _ => true) [47] _ _ (by decide) (by decide)
    rfl).mpr ⟨by decide, ?_⟩⟩
  intro arg harg s hs
  rcases List.mem_cons.mp harg with rfl | harg
  · rcases hs with rfl | hs
    · decide
    · obtain rfl := Option.some.inj hs
      decide
  · obtain rfl := List.mem_singleton.mp harg
    rcases hs with rfl | hs
    · decide
    · cases hs

/-- The argument q=a+b comes back with a space for the plus. -/
theorem urlWithQuery_plus : ∃ text, urlWithQuery (fun _ => true) [47] [([113], some [97, 43, 98])] = some text ∧
    decodeUrl (text.takeWhile (· ≠ 0)) ≠ ([47], [([113], some [97, 43, 98])]) :=
  ⟨_, rfl, by decide⟩

end AfbBinder.Hsrv
