import Mathlib.Data.List.Basic
import AfbBinder.Lib.Cstrings

/-! Hexadecimal numbers as printf writes them and scanf reads them, and scanf for the formats
made of such numbers, of literal characters and of the count of what was read. -/
namespace AfbBinder.Lib.Scanf
open Cstrings

/-- The white spaces of the C library in the locale a program starts in. -/
def isspace (c : UInt8) : Bool := c = 32 ∨ 9 ≤ c ∧ c ≤ 13

/-- The %x of printf. -/
def hexText (n : Nat) : Bytes := (Nat.toDigits 16 n).map fun c => UInt8.ofNat c.toNat

def hexValue (c : UInt8) : Option Nat :=
  if 48 ≤ c ∧ c ≤ 57 then some (c.toNat - 48)
  else if 97 ≤ c ∧ c ≤ 102 then some (c.toNat - 87)
  else if 65 ≤ c ∧ c ≤ 70 then some (c.toNat - 55)
  else none

def isxdigit (c : UInt8) : Bool := (hexValue c).isSome

def hexNumber (digits : Bytes) : Nat := digits.foldl (fun n c => n * 16 + (hexValue c).getD 0) 0

def ULONG_MAX : Nat := 0xFFFFFFFFFFFFFFFF

/-- The value of strtoul for the sign and the digits: it is stopped by the greatest. -/
def strtoul (minus : Bool) (digits : Bytes) : UInt64 :=
  if ULONG_MAX < hexNumber digits then UInt64.ofNat ULONG_MAX
  else if minus then -UInt64.ofNat (hexNumber digits)
  else UInt64.ofNat (hexNumber digits)

/-- Whether there is a minus, and what follows the sign. -/
def scanSign (s : Bytes) : Bool × Bytes :=
  if s.head? = some 45 then (true, s.tail)
  else if s.head? = some 43 then (false, s.tail)
  else (false, s)

/-- Whether there is a 0x or 0X, and what follows it. -/
def scanPrefix (s : Bytes) : Bool × Bytes :=
  if s.head? = some 48 ∧ (s[1]? = some 120 ∨ s[1]? = some 88) then (true, s.drop 2) else (false, s)

/-- The %x of scanf: the int that it stores, and what follows. It fails on a prefix without
digits, but where the library is lax and reads zero. -/
def scanHex (lax : Bool) (s : Bytes) : Option (UInt32 × Bytes) :=
  let (minus, s) := scanSign (s.dropWhile isspace)
  let (pref, s) := scanPrefix s
  let digits := s.takeWhile isxdigit
  if digits = [] ∧ ¬(lax = true ∧ pref = true) then none
  else some ((strtoul minus digits).toUInt32, s.dropWhile isxdigit)

inductive Directive where
  | hex
  | literal (c : UInt8)
  | count
  deriving DecidableEq, Repr

/-- What the directives stored, those of numbers and those of counts. -/
structure Scanned where
  values : List UInt32
  counts : List Nat
  deriving DecidableEq, Repr

/-- The directives from the offset n on, until one fails. -/
def scan (lax : Bool) : List Directive → Nat → Bytes → Scanned
  | [], _, _ => ⟨[], []⟩
  | .hex :: format, n, s =>
    match scanHex lax s with
    | none => ⟨[], []⟩
    | some (v, rest) =>
      let r := scan lax format (n + (s.length - rest.length)) rest
      { r with values := v :: r.values }
  | .literal c :: format, n, s =>
    match s with
    | [] => ⟨[], []⟩
    | c' :: rest => if c' = c then scan lax format (n + 1) rest else ⟨[], []⟩
  | .count :: format, n, s =>
    let r := scan lax format n s
    { r with counts := n :: r.counts }

def sscanf (lax : Bool) (s : Bytes) (format : List Directive) : Scanned := scan lax format 0 s

/-- The texts that %x converts. -/
structure HexNumber (lax : Bool) (t : Bytes) : Prop where
  parts : ∃ blanks sign pref digits, t = blanks ++ (sign ++ (pref ++ digits)) ∧
    (∀ c ∈ blanks, isspace c = true) ∧ (sign = [] ∨ sign = [43] ∨ sign = [45]) ∧
    (pref = [] ∨ pref = [48, 120] ∨ pref = [48, 88]) ∧ (∀ c ∈ digits, isxdigit c = true) ∧
    (digits ≠ [] ∨ lax = true ∧ pref ≠ [])

private theorem scanSign_sound {s : Bytes} : ∃ sign, s = sign ++ (scanSign s).2 ∧
    (sign = [] ∨ sign = [43] ∨ sign = [45]) := by
  unfold scanSign
  split_ifs with h1 h2
  · exact ⟨[45], (List.cons_head?_tail h1).symm, .inr (.inr rfl)⟩
  · exact ⟨[43], (List.cons_head?_tail h2).symm, .inr (.inl rfl)⟩
  · exact ⟨[], rfl, .inl rfl⟩

private theorem scanPrefix_sound {s : Bytes} : ∃ pref, s = pref ++ (scanPrefix s).2 ∧
    (pref = [] ∨ pref = [48, 120] ∨ pref = [48, 88]) ∧ ((scanPrefix s).1 = true → pref ≠ []) := by
  unfold scanPrefix
  split_ifs with h
  · obtain ⟨h0, h1⟩ := h
    cases s with
    | nil => cases h0
    | cons c s =>
      obtain rfl : c = 48 := by simpa using h0
      cases s with
      | nil => simp at h1
      | cons x s =>
        have hx : x = 120 ∨ x = 88 := by simpa using h1
        refine ⟨[48, x], rfl, ?_, fun _ => by simp⟩
        rcases hx with rfl | rfl
        · exact .inr (.inl rfl)
        · exact .inr (.inr rfl)
  · exact ⟨[], rfl, .inl rfl, fun h => absurd h (by decide)⟩

/-- What %x converts is the text before what it leaves. -/
theorem scanHex_sound {lax : Bool} {s rest : Bytes} {v : UInt32}
    (h : scanHex lax s = some (v, rest)) : ∃ t, HexNumber lax t ∧ s = t ++ rest := by
  obtain ⟨sign, hsign, hplus⟩ := scanSign_sound (s := s.dropWhile isspace)
  obtain ⟨pref, hpref, hzero, hsome⟩ := scanPrefix_sound (s := (scanSign (s.dropWhile isspace)).2)
  unfold scanHex at h
  dsimp only at h
  split_ifs at h with hnone
  rw [Option.some.injEq, Prod.mk.injEq] at h
  obtain ⟨-, rfl⟩ := h
  generalize scanSign (s.dropWhile isspace) = r at hsign hpref hsome hnone
  obtain ⟨minus, s1⟩ := r
  generalize scanPrefix s1 = r at hpref hsome hnone ⊢
  obtain ⟨found, s2⟩ := r
  refine ⟨s.takeWhile isspace ++ (sign ++ (pref ++ s2.takeWhile isxdigit)),
    ⟨_, _, _, _, rfl, fun c hc => List.all_eq_true.mp List.all_takeWhile c hc, hplus, hzero,
      fun c hc => List.all_eq_true.mp List.all_takeWhile c hc, ?_⟩, ?_⟩
  · rw [not_and_or, not_not] at hnone
    exact hnone.imp_right fun hlax => ⟨hlax.1, hsome hlax.2⟩
  · dsimp only at hsign hpref ⊢
    rw [List.append_assoc, List.append_assoc, List.append_assoc, List.takeWhile_append_dropWhile,
      ← hpref, ← hsign, List.takeWhile_append_dropWhile]

private theorem hexValue_digitChar : ∀ d : Fin 16,
    hexValue (UInt8.ofNat (Nat.digitChar d.val).toNat) = some d.val := by decide

private theorem hexNumber_concat (digits : Bytes) (c : UInt8) :
    hexNumber (digits ++ [c]) = hexNumber digits * 16 + (hexValue c).getD 0 := by
  rw [hexNumber, List.foldl_append]
  rfl

/-- The text of a number is a digit, or the text of its sixteenth and a digit. -/
theorem hexText_cases (n : Nat) : ∃ d : Fin 16, d.val = n % 16 ∧
    (n < 16 ∧ hexText n = [UInt8.ofNat (Nat.digitChar d.val).toNat] ∨
      16 ≤ n ∧ hexText n = hexText (n / 16) ++ [UInt8.ofNat (Nat.digitChar d.val).toNat]) := by
  refine ⟨⟨n % 16, Nat.mod_lt n (by decide)⟩, rfl, ?_⟩
  rcases Nat.lt_or_ge n 16 with h | h
  · refine .inl ⟨h, ?_⟩
    change hexText n = [UInt8.ofNat (Nat.digitChar (n % 16)).toNat]
    rw [hexText, Nat.toDigits_of_lt_base h, Nat.mod_eq_of_lt h]
    rfl
  · refine .inr ⟨h, ?_⟩
    rw [hexText, Nat.toDigits_of_base_le (by decide) h, List.map_append]
    rfl

private theorem hexNumber_hexText (n : Nat) : hexNumber (hexText n) = n := by
  induction n using Nat.strongRecOn with
  | ind n ih =>
    obtain ⟨d, hd, ⟨hlt, htext⟩ | ⟨hle, htext⟩⟩ := hexText_cases n
    · rw [htext, hexNumber, List.foldl_cons, List.foldl_nil, hexValue_digitChar, Option.getD_some]
      omega
    · rw [htext, hexNumber_concat, ih (n / 16) (by omega), hexValue_digitChar, Option.getD_some]
      omega

private theorem hexText_digits (n : Nat) : ∀ c ∈ hexText n, isxdigit c = true := by
  induction n using Nat.strongRecOn with
  | ind n ih =>
    have hdigit : ∀ d : Fin 16, isxdigit (UInt8.ofNat (Nat.digitChar d.val).toNat) = true := by
      intro d
      rw [isxdigit, hexValue_digitChar]
      rfl
    intro c hc
    obtain ⟨d, hd, ⟨hlt, htext⟩ | ⟨hle, htext⟩⟩ := hexText_cases n
    · rw [htext, List.mem_singleton] at hc
      rw [hc]
      exact hdigit d
    · rw [htext, List.mem_append, List.mem_singleton] at hc
      rcases hc with hc | rfl
      · exact ih (n / 16) (by omega) c hc
      · exact hdigit d

private theorem hexText_ne_nil (n : Nat) : hexText n ≠ [] := by
  rw [hexText, ne_eq, List.map_eq_nil_iff]
  exact Nat.toDigits_ne_nil

/-- A digit is no white space, no sign and no mark of a prefix. -/
theorem isxdigit_ne {c : UInt8} (h : isxdigit c = true) :
    isspace c = false ∧ c ≠ 43 ∧ c ≠ 45 ∧ c ≠ 88 ∧ c ≠ 120 := by
  have hrange : 48 ≤ c.toNat ∧ c.toNat ≤ 57 ∨ 97 ≤ c.toNat ∧ c.toNat ≤ 102 ∨
      65 ≤ c.toNat ∧ c.toNat ≤ 70 := by
    unfold isxdigit hexValue at h
    split_ifs at h with h1 h2 h3
    · exact .inl ⟨UInt8.le_iff_toNat_le.mp h1.1, UInt8.le_iff_toNat_le.mp h1.2⟩
    · exact .inr (.inl ⟨UInt8.le_iff_toNat_le.mp h2.1, UInt8.le_iff_toNat_le.mp h2.2⟩)
    · exact .inr (.inr ⟨UInt8.le_iff_toNat_le.mp h3.1, UInt8.le_iff_toNat_le.mp h3.2⟩)
    · cases h
  refine ⟨?_, ?_, ?_, ?_, ?_⟩
  · have hne : c ≠ 32 := by
      rintro rfl
      exact absurd hrange (by decide)
    have hhigh : ¬c ≤ 13 := fun hle => by
      have := UInt8.le_iff_toNat_le.mp hle
      have h13 : (13 : UInt8).toNat = 13 := rfl
      omega
    simp [isspace, hne, hhigh]
  all_goals
    rintro rfl
    exact absurd hrange (by decide)

/-- The text of a number before no other digit, and no mark of a prefix, reads back. -/
theorem scanHex_hexText (lax : Bool) {n : Nat} (hn : n < 4294967296) {rest : Bytes}
    (h : ∀ c ∈ rest.head?, isxdigit c = false ∧ c ≠ 88 ∧ c ≠ 120) :
    scanHex lax (hexText n ++ rest) = some (UInt32.ofNat n, rest) := by
  have hdigits := hexText_digits n
  have hnumber := hexNumber_hexText n
  obtain ⟨c, t, htext⟩ := List.exists_cons_of_ne_nil (hexText_ne_nil n)
  rw [htext] at hdigits hnumber ⊢
  obtain ⟨hspace, hplus, hminus, -, -⟩ := isxdigit_ne (hdigits c List.mem_cons_self)
  -- what follows the first digit is another one or the rest
  have hsecond : ∀ x ∈ (t ++ rest).head?, x ≠ 88 ∧ x ≠ 120 := by
    intro x hx
    cases t with
    | nil => exact (h x hx).2
    | cons y t =>
      obtain rfl : y = x := by simpa using hx
      obtain ⟨-, -, -, hX, hx⟩ := isxdigit_ne (hdigits y (by simp))
      exact ⟨hX, hx⟩
  have hskip : (c :: t ++ rest).dropWhile isspace = c :: t ++ rest :=
    List.dropWhile_cons_of_neg (by simp [hspace])
  have hsign : scanSign (c :: t ++ rest) = (false, c :: t ++ rest) := by
    simp [scanSign, hplus, hminus]
  have hnopref : scanPrefix (c :: t ++ rest) = (false, c :: t ++ rest) := by
    have hone : (c :: t ++ rest)[1]? = (t ++ rest).head? := by
      rw [List.cons_append, List.getElem?_cons_succ, List.head?_eq_getElem?]
    refine if_neg fun hx => ?_
    rw [hone] at hx
    rcases hx.2 with hx | hx
    · exact (hsecond 120 hx).2 rfl
    · exact (hsecond 88 hx).1 rfl
  have htake : (c :: t ++ rest).takeWhile isxdigit = c :: t := by
    rw [List.takeWhile_append_of_pos hdigits]
    cases rest with
    | nil => simp
    | cons x rest =>
      rw [List.takeWhile_cons_of_neg (by simp [(h x rfl).1]), List.append_nil]
  have hdrop : (c :: t ++ rest).dropWhile isxdigit = rest := by
    rw [List.dropWhile_append_of_pos hdigits]
    cases rest with
    | nil => rfl
    | cons x rest => exact List.dropWhile_cons_of_neg (by simp [(h x rfl).1])
  have hvalue : (strtoul false (c :: t)).toUInt32 = UInt32.ofNat n := by
    rw [strtoul, hnumber, if_neg (by rw [ULONG_MAX]; omega), if_neg (by decide)]
    rw [← UInt32.toNat_inj, UInt64.toNat_toUInt32, UInt64.toNat_ofNat', UInt32.toNat_ofNat']
    omega
  unfold scanHex
  rw [hskip, hsign]
  dsimp only
  rw [hnopref]
  dsimp only
  rw [htake, hdrop, hvalue, if_neg (by simp)]

end AfbBinder.Lib.Scanf
