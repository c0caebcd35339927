import Mathlib.Algebra.Group.Nat.Defs
import Mathlib.Data.List.Basic
import AfbBinder.Lib.Cstrings

/-! The base64 coding of byte arrays. What is decoded is in any of the two alphabets. -/
namespace AfbBinder.WrapJson
open Lib.Cstrings

/-- The character of 6 bits. -/
def encodeChar (u8 : UInt8) (url : Bool) : UInt8 :=
  if u8 < 52 then
    if u8 < 26 then 65 + u8 else 97 + u8 - 26
  else if u8 < 62 then 48 + u8 - 52
  else if u8 = 62 then if url then 45 else 43
  else if url then 95 else 47

/-- result[out++] = c, and the end of the line when the line is full. -/
def putChar (width iw : Nat) (c : UInt8) : Bytes × Nat := if iw = 1 then ([c, 10], width) else ([c], iw - 1)

/-- The next byte of the data enters from the right, or none at the end. -/
def feed (u16 : UInt16) : Bytes → UInt16 × Bytes
  | [] => (u16 <<< 8, [])
  | b :: data => ((u16 <<< 8) ||| b.toUInt16, data)

/-- The bits of the character at the index iout, none when the data is read past its end. -/
def sextet (iout : Nat) (u16 : UInt16) (data : Bytes) : Option (UInt8 × UInt16 × Bytes) :=
  match iout % 4 with
  | 0 =>
    match data with
    | [] => none
    | b :: data => some ((b.toUInt16 >>> 2).toUInt8, b.toUInt16, data)
  | 1 => some (((feed u16 data).1 >>> 4).toUInt8, feed u16 data)
  | 2 => some (((feed u16 data).1 >>> 6).toUInt8, feed u16 data)
  | _ => some (u16.toUInt8, u16, data)

/-- The characters from the index iout on, and the place left on the last line. -/
def encodeLoop (width : Nat) (url : Bool) : Nat → Nat → UInt16 → Bytes → Nat → Option (Bytes × Nat)
  | 0, _, _, _, iw => some ([], iw)
  | count + 1, iout, u16, data, iw =>
    (sextet iout u16 data).bind fun (u8, u16, data) =>
      let (c, iw) := putChar width iw (encodeChar (u8 &&& 63) url)
      (encodeLoop width url count (iout + 1) u16 data iw).map fun (out, iw) => (c ++ out, iw)

def padLoop (width rlen : Nat) : Nat → Bytes → Nat → Bytes
  | 0, out, _ => out
  | count + 1, out, iw =>
    if out.length < rlen then
      let (c, iw) := putChar width iw 61
      padLoop width rlen count (out ++ c) iw
    else out

/-- The count of the characters without the format. -/
def nout (datalen : Nat) : Nat := 4 * (datalen / 3) + datalen % 3 + if datalen % 3 = 0 then 0 else 1

/-- What is written, but the NUL at its end, and the length that is allocated and returned. -/
def encodeBase64 (data : Bytes) (width : Nat) (pad url : Bool) : Option (Bytes × Nat) :=
  let rlen := nout data.length
  -- ((~rlen) + 1) & 3
  let rlen := if pad then rlen + (4 - rlen % 4) % 4 else rlen
  let rlen := if width = 0 then rlen else rlen + rlen / width
  (encodeLoop width url (nout data.length) 0 0 data width).map fun (out, iw) =>
    (padLoop width rlen rlen out iw, rlen)

def decodeChar (c : UInt8) : Option UInt8 :=
  if 65 ≤ c ∧ c ≤ 90 then some (c - 65)
  else if 97 ≤ c ∧ c ≤ 122 then some (c - 97 + 26)
  else if 48 ≤ c ∧ c ≤ 57 then some (c - 48 + 52)
  else if c = 43 ∨ c = 45 then some 62
  else if c = 47 ∨ c = 95 then some 63
  else none

/-- iin is the count of the bits of u16 that no byte of the result has, or 0 between two groups. -/
def decodeLoop : Bytes → Nat → UInt16 → Option Bytes
  | [], _, _ => some []
  | c :: data, iin, u16 =>
    if c ≠ 10 ∧ c ≠ 13 ∧ c ≠ 61 then
      (decodeChar c).bind fun u8 =>
        if iin = 0 then decodeLoop data 6 u8.toUInt16
        else
          let u16 := (u16 <<< 6) ||| u8.toUInt16
          (decodeLoop data (iin - 2) u16).map fun out => (u16 >>> (iin - 2).toUInt16).toUInt8 :: out
    else decodeLoop data iin u16

/-- The decoded bytes, none for a character of no alphabet. -/
def decodeBase64 (data : Bytes) : Option Bytes := decodeLoop data 0 0

section
variable {u16 : UInt16} {s b : UInt8}

private theorem toNat_and_63 (u8 : UInt8) : (u8 &&& 63).toNat = u8.toNat % 64 := by
  rw [UInt8.toNat_and]
  exact Nat.and_two_pow_sub_one_eq_mod u8.toNat 6

private theorem toNat_sextet (u16 : UInt16) (h : s.toNat < 64) :
    ((u16 <<< 6) ||| s.toUInt16).toNat = u16.toNat % 1024 * 64 + s.toNat := by
  have hshift : (u16 <<< 6).toNat = (u16.toNat % 1024) <<< 6 := by
    rw [UInt16.toNat_shiftLeft, Nat.shiftLeft_eq, Nat.shiftLeft_eq]
    show u16.toNat * 64 % 65536 = u16.toNat % 1024 * 64
    omega
  rw [UInt16.toNat_or, UInt8.toNat_toUInt16, hshift, ← Nat.shiftLeft_add_eq_or_of_lt h, Nat.shiftLeft_eq]

private theorem toNat_feed (u16 : UInt16) (b : UInt8) :
    ((u16 <<< 8) ||| b.toUInt16).toNat = u16.toNat % 256 * 256 + b.toNat := by
  have hshift : (u16 <<< 8).toNat = (u16.toNat % 256) <<< 8 := by
    rw [UInt16.toNat_shiftLeft, Nat.shiftLeft_eq, Nat.shiftLeft_eq]
    show u16.toNat * 256 % 65536 = u16.toNat % 256 * 256
    omega
  rw [UInt16.toNat_or, UInt8.toNat_toUInt16, hshift, ← Nat.shiftLeft_add_eq_or_of_lt b.toNat_lt,
    Nat.shiftLeft_eq]

private theorem toNat_end (u16 : UInt16) : (u16 <<< 8).toNat = u16.toNat % 256 * 256 := by
  rw [UInt16.toNat_shiftLeft, Nat.shiftLeft_eq]
  show u16.toNat * 256 % 65536 = u16.toNat % 256 * 256
  omega

private theorem toNat_low (u16 : UInt16) (k : Nat) (hk : k < 16) :
    (u16 >>> k.toUInt16).toUInt8.toNat = u16.toNat / 2 ^ k % 256 := by
  have hk' : k.toUInt16.toNat % 16 = k := by
    rw [Nat.toUInt16_eq, UInt16.toNat_ofNat']
    show k % 65536 % 16 = k
    omega
  rw [UInt16.toNat_toUInt8, UInt16.toNat_shiftRight, hk', Nat.shiftRight_eq_div_pow]

private theorem lt_and_63 (u8 : UInt8) : (u8 &&& 63).toNat < 64 := by
  rw [toNat_and_63]
  exact Nat.mod_lt _ (by decide)

/-- The characters of both alphabets are read back, and none is left out. -/
theorem decodeChar_encodeChar (url : Bool) (h : s.toNat < 64) :
    decodeChar (encodeChar s url) = some s ∧ encodeChar s url ≠ 10 ∧ encodeChar s url ≠ 13 ∧
      encodeChar s url ≠ 61 ∧ encodeChar s url ≠ 0 := by
  have hall : ∀ url, ∀ n < 64, decodeChar (encodeChar (UInt8.ofNat n) url) = some (UInt8.ofNat n) ∧
      encodeChar (UInt8.ofNat n) url ≠ 10 ∧ encodeChar (UInt8.ofNat n) url ≠ 13 ∧
      encodeChar (UInt8.ofNat n) url ≠ 61 ∧ encodeChar (UInt8.ofNat n) url ≠ 0 := by
    decide
  have hs := hall url s.toNat h
  rwa [UInt8.ofNat_toNat] at hs

private theorem decodeLoop_first (url : Bool) (h : s.toNat < 64) (data : Bytes) (u16 : UInt16) :
    decodeLoop (encodeChar s url :: data) 0 u16 = decodeLoop data 6 s.toUInt16 := by
  obtain ⟨hdecode, h10, h13, h61, -⟩ := decodeChar_encodeChar url h
  rw [decodeLoop, if_pos ⟨h10, h13, h61⟩, hdecode, Option.bind_some, if_pos rfl]

private theorem decodeLoop_more (url : Bool) (h : s.toNat < 64) (data : Bytes) {iin : Nat} (hiin : iin ≠ 0)
    (u16 : UInt16) : decodeLoop (encodeChar s url :: data) iin u16 =
      (decodeLoop data (iin - 2) ((u16 <<< 6) ||| s.toUInt16)).map fun out =>
        (((u16 <<< 6) ||| s.toUInt16) >>> (iin - 2).toUInt16).toUInt8 :: out := by
  obtain ⟨hdecode, h10, h13, h61, -⟩ := decodeChar_encodeChar url h
  rw [decodeLoop, if_pos ⟨h10, h13, h61⟩, hdecode, Option.bind_some, if_neg hiin]

end

section
variable {url : Bool} {count iout : Nat} {u16 u16' : UInt16} {data data' : Bytes} {u8 s s' a b c : UInt8}

/-! The bits of the three bytes of a group in its four characters. -/

private theorem first_bits (a b : Nat) (ha : a < 256) (hb : b < 256) :
    a = a / 2 ^ 2 % 64 * 4 + (a % 256 * 256 + b) / 2 ^ 4 % 64 / 16 := by
  omega

private theorem second_bits (a b c w : Nat) (hb : b < 256) (hc : c < 256) :
    b = (w % 1024 * 64 + (a % 256 * 256 + b) / 2 ^ 4 % 64) % 16 * 16 +
      ((a % 256 * 256 + b) % 256 * 256 + c) / 2 ^ 6 % 64 / 4 := by
  have hlow : (a % 256 * 256 + b) % 256 = b := by omega
  have hhigh : (a % 256 * 256 + b) / 2 ^ 4 % 64 % 16 = b / 2 ^ 4 := by omega
  rw [hlow]
  omega

private theorem third_bits (a c w : Nat) (hc : c < 256) :
    c = (w % 1024 * 64 + (a % 256 * 256 + c) / 2 ^ 6 % 64) % 4 * 64 + (a % 256 * 256 + c) % 2 ^ 8 % 64 := by
  omega

private theorem decodeLoop_a (hs : s.toNat < 64) (hs' : s'.toNat < 64)
    (h : a.toNat = s.toNat * 4 + s'.toNat / 16) :
    decodeLoop (encodeChar s url :: encodeChar s' url :: data) 0 u16 =
      (decodeLoop data 4 ((s.toUInt16 <<< 6) ||| s'.toUInt16)).map (a :: ·) := by
  have hbyte : (((s.toUInt16 <<< 6) ||| s'.toUInt16) >>> (6 - 2).toUInt16).toUInt8 = a := by
    rw [← UInt8.toNat_inj, toNat_low _ (6 - 2) (by decide), toNat_sextet _ hs', UInt8.toNat_toUInt16]
    omega
  rw [decodeLoop_first url hs, decodeLoop_more url hs' data (by decide), hbyte]

private theorem decodeLoop_b (hs : s.toNat < 64) (h : b.toNat = u16.toNat % 16 * 16 + s.toNat / 4) :
    decodeLoop (encodeChar s url :: data) 4 u16 =
      (decodeLoop data 2 ((u16 <<< 6) ||| s.toUInt16)).map (b :: ·) := by
  have hbyte : (((u16 <<< 6) ||| s.toUInt16) >>> (4 - 2).toUInt16).toUInt8 = b := by
    rw [← UInt8.toNat_inj, toNat_low _ (4 - 2) (by decide), toNat_sextet _ hs]
    omega
  rw [decodeLoop_more url hs data (by decide), hbyte]

private theorem decodeLoop_c (hs : s.toNat < 64) (h : c.toNat = u16.toNat % 4 * 64 + s.toNat) :
    decodeLoop (encodeChar s url :: data) 2 u16 =
      (decodeLoop data 0 ((u16 <<< 6) ||| s.toUInt16)).map (c :: ·) := by
  have hbyte : (((u16 <<< 6) ||| s.toUInt16) >>> (2 - 2).toUInt16).toUInt8 = c := by
    rw [← UInt8.toNat_inj, toNat_low _ (2 - 2) (by decide), toNat_sextet _ hs]
    omega
  rw [decodeLoop_more url hs data (by decide), hbyte]

private theorem encodeLoop_char (h : sextet iout u16 data = some (u8, u16', data')) :
    encodeLoop 0 url (count + 1) iout u16 data 0 =
      (encodeLoop 0 url count (iout + 1) u16' data' 0).map fun (out, iw) =>
        (encodeChar (u8 &&& 63) url :: out, iw) := by
  rw [encodeLoop, h, Option.bind_some]
  rfl

/-- Without lines, one character is written each time, and none is a NUL. -/
theorem encodeLoop_plain {out : Bytes} {iw : Nat}
    (h : encodeLoop 0 url count iout u16 data 0 = some (out, iw)) :
    iw = 0 ∧ out.length = count ∧ 0 ∉ out := by
  induction count generalizing iout u16 data out with
  | zero =>
    cases h
    exact ⟨rfl, rfl, List.not_mem_nil⟩
  | succ count ih =>
    rw [encodeLoop] at h
    obtain ⟨⟨u8, u16', data'⟩, -, hmap⟩ := Option.bind_eq_some_iff.mp h
    obtain ⟨⟨rest, iw'⟩, hrest, heq⟩ := Option.map_eq_some_iff.mp hmap
    cases heq
    obtain ⟨hiw, hlen, hnul⟩ := ih hrest
    refine ⟨hiw, congrArg Nat.succ hlen, List.not_mem_cons_of_ne_of_not_mem (Ne.symm ?_) hnul⟩
    exact (decodeChar_encodeChar url (lt_and_63 u8)).2.2.2.2

/-- What is written from an index that begins a group is decoded as the data. -/
def Codes (url : Bool) (count iout : Nat) (u16 : UInt16) (data : Bytes) : Prop :=
  ∃ out, encodeLoop 0 url count iout u16 data 0 = some (out, 0) ∧ ∀ u, decodeLoop out 0 u = some data

private theorem sextet_first (h : iout % 4 = 0) :
    sextet iout u16 (a :: data) = some ((a.toUInt16 >>> 2).toUInt8, a.toUInt16, data) := by
  unfold sextet
  rw [h]
  rfl

private theorem sextet_second (h : iout % 4 = 0) : sextet (iout + 1) u16 data =
    some (((feed u16 data).1 >>> 4).toUInt8, feed u16 data) := by
  have h1 : (iout + 1) % 4 = 1 := by omega
  unfold sextet
  rw [h1]
  rfl

private theorem sextet_third (h : iout % 4 = 0) : sextet (iout + 2) u16 data =
    some (((feed u16 data).1 >>> 6).toUInt8, feed u16 data) := by
  have h2 : (iout + 2) % 4 = 2 := by omega
  unfold sextet
  rw [h2]
  rfl

private theorem sextet_fourth (h : iout % 4 = 0) : sextet (iout + 3) u16 data = some
    (u16.toUInt8, u16, data) := by
  have h3 : (iout + 3) % 4 = 3 := by omega
  unfold sextet
  rw [h3]
  rfl

private theorem toNat_window (u16 : UInt16) (k : Nat) (hk : k < 16) :
    ((u16 >>> k.toUInt16).toUInt8 &&& 63).toNat = u16.toNat / 2 ^ k % 64 := by
  rw [toNat_and_63, toNat_low u16 k hk]
  omega

private theorem codes_group (h : iout % 4 = 0) (hrest : ∀ u, Codes url count (iout + 4) u data) :
    Codes url (count + 4) iout u16 (a :: b :: c :: data) := by
  have hu1 := UInt8.toNat_toUInt16 a
  have hu2 := toNat_feed a.toUInt16 b
  have hu3 := toNat_feed (a.toUInt16 <<< 8 ||| b.toUInt16) c
  generalize hdef : a.toUInt16 <<< 8 ||| b.toUInt16 = u2 at hu2 hu3
  generalize hdef' : u2 <<< 8 ||| c.toUInt16 = u3 at hu3
  obtain ⟨out, hout, hdecode⟩ := hrest u3
  have h1 : sextet iout u16 (a :: b :: c :: data) = _ := sextet_first h
  have h2 : sextet (iout + 1) a.toUInt16 (b :: c :: data) = some ((u2 >>> 4).toUInt8, u2, c :: data) :=
    hdef ▸ sextet_second h
  have h3 : sextet (iout + 2) u2 (c :: data) = some ((u3 >>> 6).toUInt8, u3, data) :=
    hdef' ▸ sextet_third h
  have hwritten : encodeLoop 0 url (count + 4) iout u16 (a :: b :: c :: data) 0 = _ := encodeLoop_char h1
  rw [encodeLoop_char h2, encodeLoop_char h3, encodeLoop_char (sextet_fourth h), hout] at hwritten
  refine ⟨_, hwritten, fun u => ?_⟩
  have ha := a.toNat_lt
  have hb := b.toNat_lt
  have hc := c.toNat_lt
  have hs0 : ((a.toUInt16 >>> 2).toUInt8 &&& 63).toNat = a.toUInt16.toNat / 2 ^ 2 % 64 :=
    toNat_window a.toUInt16 2 (by decide)
  have hs1 : ((u2 >>> 4).toUInt8 &&& 63).toNat = u2.toNat / 2 ^ 4 % 64 := toNat_window u2 4 (by decide)
  have hs2 : ((u3 >>> 6).toUInt8 &&& 63).toNat = u3.toNat / 2 ^ 6 % 64 := toNat_window u3 6 (by decide)
  have hs3 := toNat_and_63 u3.toUInt8
  rw [UInt16.toNat_toUInt8] at hs3
  have hw1 := toNat_sextet ((a.toUInt16 >>> 2).toUInt8 &&& 63).toUInt16 (lt_and_63 (u2 >>> 4).toUInt8)
  rw [UInt8.toNat_toUInt16] at hw1
  have hw2 := toNat_sextet (((a.toUInt16 >>> 2).toUInt8 &&& 63).toUInt16 <<< 6 |||
    ((u2 >>> 4).toUInt8 &&& 63).toUInt16) (lt_and_63 (u3 >>> 6).toUInt8)
  rw [decodeLoop_a (lt_and_63 _) (lt_and_63 _) (a := a)
      (by rw [hs0, hs1, hu2, hu1]; exact first_bits _ _ ha hb),
    decodeLoop_b (lt_and_63 _) (b := b)
      (by rw [hw1, hs1, hs2, hu3, hu2]; exact second_bits _ _ _ _ hb hc),
    decodeLoop_c (lt_and_63 _) (c := c)
      (by rw [hw2, hs2, hs3, hu3]; exact third_bits _ _ _ hc), hdecode]
  rfl

private theorem codes_one (h : iout % 4 = 0) : Codes url 2 iout u16 [a] := by
  have ha := a.toNat_lt
  have hu1 := UInt8.toNat_toUInt16 a
  have hu2 := toNat_end a.toUInt16
  have h2 : sextet (iout + 1) a.toUInt16 [] =
    some ((a.toUInt16 <<< 8 >>> 4).toUInt8, a.toUInt16 <<< 8, []) := sextet_second h
  have hwritten : encodeLoop 0 url 2 iout u16 [a] 0 = _ := encodeLoop_char (sextet_first h)
  rw [encodeLoop_char h2] at hwritten
  refine ⟨_, hwritten, fun u => ?_⟩
  have hs0 : ((a.toUInt16 >>> 2).toUInt8 &&& 63).toNat = a.toUInt16.toNat / 2 ^ 2 % 64 :=
    toNat_window a.toUInt16 2 (by decide)
  have hs1 : ((a.toUInt16 <<< 8 >>> 4).toUInt8 &&& 63).toNat = (a.toUInt16 <<< 8).toNat / 2 ^ 4 % 64 :=
    toNat_window (a.toUInt16 <<< 8) 4 (by decide)
  rw [decodeLoop_a (lt_and_63 _) (lt_and_63 _) (a := a)
    (by simpa only [hs0, hs1, hu2, hu1, Nat.add_zero] using first_bits _ 0 ha (by decide))]
  rfl

private theorem codes_two (h : iout % 4 = 0) : Codes url 3 iout u16 [a, b] := by
  have ha := a.toNat_lt
  have hb := b.toNat_lt
  have hu1 := UInt8.toNat_toUInt16 a
  have hu2 := toNat_feed a.toUInt16 b
  generalize hdef : a.toUInt16 <<< 8 ||| b.toUInt16 = u2 at hu2
  have hu3 := toNat_end u2
  have h2 : sextet (iout + 1) a.toUInt16 [b] = some ((u2 >>> 4).toUInt8, u2, []) := hdef ▸ sextet_second h
  have h3 : sextet (iout + 2) u2 [] = some ((u2 <<< 8 >>> 6).toUInt8, u2 <<< 8, []) := sextet_third h
  have hwritten : encodeLoop 0 url 3 iout u16 [a, b] 0 = _ := encodeLoop_char (sextet_first h)
  rw [encodeLoop_char h2, encodeLoop_char h3] at hwritten
  refine ⟨_, hwritten, fun u => ?_⟩
  have hs0 : ((a.toUInt16 >>> 2).toUInt8 &&& 63).toNat = a.toUInt16.toNat / 2 ^ 2 % 64 :=
    toNat_window a.toUInt16 2 (by decide)
  have hs1 : ((u2 >>> 4).toUInt8 &&& 63).toNat = u2.toNat / 2 ^ 4 % 64 := toNat_window u2 4 (by decide)
  have hs2 : ((u2 <<< 8 >>> 6).toUInt8 &&& 63).toNat = (u2 <<< 8).toNat / 2 ^ 6 % 64 :=
    toNat_window (u2 <<< 8) 6 (by decide)
  have hw1 := toNat_sextet ((a.toUInt16 >>> 2).toUInt8 &&& 63).toUInt16 (lt_and_63 (u2 >>> 4).toUInt8)
  rw [UInt8.toNat_toUInt16] at hw1
  rw [decodeLoop_a (lt_and_63 _) (lt_and_63 _) (a := a)
      (by rw [hs0, hs1, hu2, hu1]; exact first_bits _ _ ha hb),
    decodeLoop_b (lt_and_63 _) (b := b)
      (by simpa only [hw1, hs1, hs2, hu3, hu2, Nat.add_zero] using second_bits _ _ 0 _ hb (by decide))]
  rfl

private theorem nout_group (n : Nat) : nout (n + 3) = nout n + 4 := by
  unfold nout
  rw [Nat.add_mod_right, Nat.add_div_right n (by decide)]
  omega

theorem codes (url : Bool) : ∀ (data : Bytes) (iout : Nat) (u16 : UInt16), iout % 4 = 0 →
    Codes url (nout data.length) iout u16 data
  | [], _, _, _ => ⟨[], rfl, fun _ => rfl⟩
  | [_], _, _, h => by
    rw [List.length_singleton]
    exact codes_one h
  | [_, _], _, _, h => by
    rw [List.length_cons, List.length_singleton]
    exact codes_two h
  | a :: b :: c :: data, iout, u16, h => by
    rw [List.length_cons, List.length_cons, List.length_cons, nout_group]
    exact codes_group h fun u => codes url data (iout + 4) u (by omega)

/-- Without lines nor padding, the characters are as many as returned, and decoded as the data. -/
theorem decode_encode (data : Bytes) (url : Bool) : ∃ out,
    encodeBase64 data 0 false url = some (out, nout data.length) ∧ out.length = nout data.length ∧
      0 ∉ out ∧ decodeBase64 out = some data := by
  obtain ⟨out, hout, hdecode⟩ := codes url data 0 0 rfl
  obtain ⟨-, hlen, hnul⟩ := encodeLoop_plain hout
  refine ⟨out, ?_, hlen, hnul, hdecode 0⟩
  have hpad : ∀ count, padLoop 0 (nout data.length) count out 0 = out := by
    intro count
    cases count with
    | zero => rfl
    | succ count => rw [padLoop, hlen, if_neg (Nat.lt_irrefl _)]
  rw [encodeBase64, hout, if_neg Bool.false_ne_true, if_pos rfl, Option.map_some]
  exact congrArg (fun cs => some (cs, nout data.length)) (hpad _)

end

/-- Each byte that is decoded takes its 8 bits from characters of 6 bits. -/
theorem decodeLoop_length {chars out : Bytes} {iin : Nat} {u16 : UInt16} (hiin : iin % 2 = 0)
    (h : decodeLoop chars iin u16 = some out) : 8 * out.length ≤ 6 * chars.length + iin := by
  induction chars generalizing iin u16 out with
  | nil =>
    cases h
    exact Nat.zero_le _
  | cons c chars ih =>
    rw [List.length_cons]
    rw [decodeLoop] at h
    split at h
    · obtain ⟨u8, -, h⟩ := Option.bind_eq_some_iff.mp h
      split at h
      · have hrest := ih rfl h
        omega
      · next hne =>
        obtain ⟨rest, hdecode, rfl⟩ := Option.map_eq_some_iff.mp h
        have hrest := ih (by omega) hdecode
        rw [List.length_cons]
        omega
    · have hrest := ih hiin h
      omega

theorem nout_le_of_decode {chars data : Bytes} (h : decodeBase64 chars = some data) :
    nout data.length ≤ chars.length := by
  have hbits := decodeLoop_length rfl h
  unfold nout
  split <;> omega

end AfbBinder.WrapJson
