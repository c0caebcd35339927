import Mathlib.Tactic.NormNum
import AfbBinder.Websock.Interface

/-! The frames on the wire: their headings as the protocol has them, what the code reads in
them, what the sender makes, and the payloads that websock_read gives. -/
namespace AfbBinder.Websock
open Lib.Cstrings Decoder

/-- The three lengths of a heading: 7, 16 or 64 bits, the highest byte first. -/
inductive LengthField where
  | seven (n : Fin 126)
  | sixteen (b₁ b₀ : UInt8)
  | sixtyFour (b₇ b₆ b₅ b₄ b₃ b₂ b₁ b₀ : UInt8)
  deriving DecidableEq, Repr

namespace LengthField

def code : LengthField → UInt8
  | seven n => UInt8.ofNat n
  | sixteen _ _ => 126
  | sixtyFour _ _ _ _ _ _ _ _ => 127

def bytes : LengthField → Bytes
  | seven _ => []
  | sixteen b₁ b₀ => [b₁, b₀]
  | sixtyFour b₇ b₆ b₅ b₄ b₃ b₂ b₁ b₀ => [b₇, b₆, b₅, b₄, b₃, b₂, b₁, b₀]

def value : LengthField → Nat
  | seven n => n
  | sixteen b₁ b₀ => 256 * b₁.toNat + b₀.toNat
  | sixtyFour b₇ b₆ b₅ b₄ b₃ b₂ b₁ b₀ =>
    2 ^ 56 * b₇.toNat + 2 ^ 48 * b₆.toNat + 2 ^ 40 * b₅.toNat + 2 ^ 32 * b₄.toNat +
      2 ^ 24 * b₃.toNat + 2 ^ 16 * b₂.toNat + 2 ^ 8 * b₁.toNat + b₀.toNat

/-- The shortest one. -/
def shortest (n : Nat) : LengthField :=
  let byte (i : Nat) : UInt8 := UInt8.ofNat (n / 256 ^ i % 256)
  if h : n < 126 then seven ⟨n, h⟩
  else if n < 65536 then sixteen (byte 1) (byte 0)
  else sixtyFour (byte 7) (byte 6) (byte 5) (byte 4) (byte 3) (byte 2) (byte 1) (byte 0)

private theorem byte_add (n i : Nat) : n / 256 ^ i = n / 256 ^ (i + 1) * 256 + n / 256 ^ i % 256 := by
  rw [Nat.pow_succ, ← Nat.div_div_eq_div_mul]
  omega

private theorem bytes_add {n : Nat} (hn : n < 2 ^ 64) :
    2 ^ 56 * (n / 256 ^ 7 % 256) + 2 ^ 48 * (n / 256 ^ 6 % 256) + 2 ^ 40 * (n / 256 ^ 5 % 256) +
      2 ^ 32 * (n / 256 ^ 4 % 256) + 2 ^ 24 * (n / 256 ^ 3 % 256) + 2 ^ 16 * (n / 256 ^ 2 % 256) +
      2 ^ 8 * (n / 256 ^ 1 % 256) + n / 256 ^ 0 % 256 = n := by
  have htop : n / 256 ^ 8 = 0 := Nat.div_eq_of_lt (by omega)
  have h0 := byte_add n 0
  have h1 := byte_add n 1
  have h2 := byte_add n 2
  have h3 := byte_add n 3
  have h4 := byte_add n 4
  have h5 := byte_add n 5
  have h6 := byte_add n 6
  have h7 := byte_add n 7
  have hself : n = n / 256 ^ 0 := by rw [Nat.pow_zero, Nat.div_one]
  generalize n / 256 ^ 7 % 256 = b7, n / 256 ^ 6 % 256 = b6, n / 256 ^ 5 % 256 = b5, n / 256 ^ 4 % 256 = b4,
    n / 256 ^ 3 % 256 = b3, n / 256 ^ 2 % 256 = b2, n / 256 ^ 1 % 256 = b1, n / 256 ^ 0 % 256 = b0 at *
  generalize n / 256 ^ 8 = q8, n / 256 ^ 7 = q7, n / 256 ^ 6 = q6, n / 256 ^ 5 = q5, n / 256 ^ 4 = q4,
    n / 256 ^ 3 = q3, n / 256 ^ 2 = q2, n / 256 ^ 1 = q1, n / 256 ^ 0 = q0 at *
  omega

theorem value_shortest {n : Nat} (hn : n < 2 ^ 64) : (shortest n).value = n := by
  unfold shortest
  dsimp only
  split_ifs with h h'
  · rfl
  · simp only [value, UInt8.toNat_ofNat', pow_one, pow_zero]
    omega
  · simp only [value, UInt8.toNat_ofNat', Nat.mod_mod]
    exact bytes_add hn

end LengthField

def Mask.bytes (m : Mask) : Bytes := [m.b0, m.b1, m.b2, m.b3]

/-- The byte of the mask for a byte of the payload. -/
def Mask.at (m : Mask) (i : Nat) : UInt8 :=
  match i % 4 with
  | 0 => m.b0
  | 1 => m.b1
  | 2 => m.b2
  | _ => m.b3

/-- A payload and its mask, byte by byte. -/
def Mask.apply (m : Mask) (x : Bytes) : Bytes := x.mapIdx fun i b => b ^^^ m.at i

structure Heading where
  first : UInt8
  length : LengthField
  mask : Option Mask
  deriving DecidableEq, Repr

namespace Heading

def second (hd : Heading) : UInt8 := (if hd.mask.isSome then 0x80 else 0) ||| hd.length.code

def maskBytes (hd : Heading) : Bytes := (hd.mask.map Mask.bytes).getD []

def bytes (hd : Heading) : Bytes := hd.first :: hd.second :: (hd.length.bytes ++ hd.maskBytes)

def isClose (hd : Heading) : Prop := frameGetOpcode hd.first = OPCODE_CLOSE

instance (hd : Heading) : Decidable hd.isClose := inferInstanceAs (Decidable (_ = _))

end Heading

/-! What the code reads in a heading. -/

private theorem second_fields : ∀ (masked : Bool) (n : Fin 128),
    frameGetPayloadLen ((if masked then 0x80 else 0) ||| UInt8.ofNat n) = n ∧
      frameGetMask ((if masked then 0x80 else 0) ||| UInt8.ofNat n) = masked := by
  decide

section
variable {hd : Heading} {x : Bytes}

private theorem second_code (f : LengthField) : ∃ n : Fin 128, f.code = UInt8.ofNat n := by
  cases f with
  | seven n => exact ⟨⟨n, by omega⟩, rfl⟩
  | sixteen b₁ b₀ => exact ⟨126, rfl⟩
  | sixtyFour b₇ b₆ b₅ b₄ b₃ b₂ b₁ b₀ => exact ⟨127, rfl⟩

theorem payloadLen_second : frameGetPayloadLen hd.second = hd.length.code.toNat := by
  obtain ⟨n, hn⟩ := second_code hd.length
  rw [Heading.second, hn, (second_fields hd.mask.isSome n).1, UInt8.toNat_ofNat']
  omega

theorem mask_second : frameGetMask hd.second = hd.mask.isSome := by
  obtain ⟨n, hn⟩ := second_code hd.length
  rw [Heading.second, hn, (second_fields hd.mask.isSome n).2]

theorem length_bytes : hd.bytes.length = 2 + hd.length.bytes.length + hd.maskBytes.length := by
  simp only [Heading.bytes, List.length_cons, List.length_append]
  omega

private theorem length_maskBytes : hd.maskBytes.length = if hd.mask.isSome then 4 else 0 := by
  rw [Heading.maskBytes]
  cases hd.mask <;> rfl

variable (hd) in
/-- The two bytes of the code of a close are read with its heading. -/
theorem headingSize_bytes : headingSize (hd.bytes ++ x) =
    hd.bytes.length + if hd.isClose ∧ hd.length.code.toNat ≠ 0 then 2 else 0 := by
  have hfirst : byteAt (hd.bytes ++ x) 0 = hd.first := rfl
  have hsecond : byteAt (hd.bytes ++ x) 1 = hd.second := rfl
  have hlength : (if hd.length.code.toNat = 127 then 8 else if hd.length.code.toNat = 126 then 2 else 0) =
      hd.length.bytes.length := by
    cases hd.length with
    | seven n =>
      have hn : (UInt8.ofNat n).toNat = n := by rw [UInt8.toNat_ofNat']; omega
      simp only [LengthField.code, LengthField.bytes, hn]
      rw [if_neg (by omega), if_neg (by omega)]
      rfl
    | sixteen b₁ b₀ => rfl
    | sixtyFour b₇ b₆ b₅ b₄ b₃ b₂ b₁ b₀ => rfl
  rw [headingSize, hfirst, hsecond, payloadLen_second, mask_second]
  rw [hlength, ← length_maskBytes, length_bytes]
  unfold Heading.isClose
  split_ifs <;> omega

/-- The length decoded: the value of the field, less the code of a close. -/
def Heading.payloadLength (hd : Heading) : Nat :=
  if hd.isClose ∧ hd.length.value ≠ 0 then hd.length.value - 2 else hd.length.value

variable (hd) in
theorem headingLength_bytes : headingLength (hd.bytes ++ x) = hd.payloadLength := by
  have hfirst : byteAt (hd.bytes ++ x) 0 = hd.first := rfl
  have hsecond : byteAt (hd.bytes ++ x) 1 = hd.second := rfl
  have hvalue : (if hd.length.code.toNat = 127 then bigEndian (hd.bytes ++ x) 2 8
      else if hd.length.code.toNat = 126 then bigEndian (hd.bytes ++ x) 2 2
      else hd.length.code.toNat) = hd.length.value := by
    obtain ⟨first, length, mask⟩ := hd
    cases length with
    | seven n =>
      have hn : (UInt8.ofNat n).toNat = n := by rw [UInt8.toNat_ofNat']; omega
      simp only [LengthField.code, LengthField.value, hn]
      rw [if_neg (by omega), if_neg (by omega)]
    | sixteen b₁ b₀ =>
      change (0 * 256 + b₁.toNat) * 256 + b₀.toNat = 256 * b₁.toNat + b₀.toNat
      omega
    | sixtyFour b₇ b₆ b₅ b₄ b₃ b₂ b₁ b₀ =>
      change (((((((0 * 256 + b₇.toNat) * 256 + b₆.toNat) * 256 + b₅.toNat) * 256 + b₄.toNat) * 256 +
        b₃.toNat) * 256 + b₂.toNat) * 256 + b₁.toNat) * 256 + b₀.toNat = _
      simp only [LengthField.value]
      omega
  rw [headingLength, hfirst, hsecond, payloadLen_second]
  rw [hvalue]
  rfl

/-- Without a code after it the mask is the end of the heading. -/
theorem headingMask_bytes : headingMask hd.bytes hd.bytes.length = hd.mask.getD .zero := by
  have hsecond : byteAt hd.bytes 1 = hd.second := rfl
  rw [headingMask, hsecond, mask_second]
  obtain ⟨first, length, mask⟩ := hd
  cases mask with
  | none => rfl
  | some m => cases length <;> rfl

end

/-! The sender. -/

def frameSetFin (n : Int) : UInt8 := UInt8.ofNat (n % 2).toNat <<< 7
def frameSetRsv1 (n : Int) : UInt8 := UInt8.ofNat (n % 2).toNat <<< 6
def frameSetOpcode (b : UInt8) : UInt8 := b &&& 0x0F
def frameSetLength (size i : Nat) : UInt8 := UInt8.ofNat (size / 256 ^ i % 256)

/-- The vector given to writev, none when there are too many parts. -/
def websockSendInternalV (first : UInt8) (iovec : List Bytes) : Option (List Bytes) :=
  if iovec.length + 1 > 32 then none
  else
    let iov := iovec.filter (· ≠ [])
    let size := (iov.map List.length).sum % 2 ^ 64
    let header :=
      if size < 126 then [first, frameSetLength size 0]
      else if size < 65536 then [first, 126, frameSetLength size 1, frameSetLength size 0]
      else [first, 127, frameSetLength size 7, frameSetLength size 6, frameSetLength size 5,
        frameSetLength size 4, frameSetLength size 3, frameSetLength size 2, frameSetLength size 1,
        frameSetLength size 0]
    some (header :: iov)

/-- The three reserved bits are set at the same place. -/
def websockSendV (last rsv1 rsv2 rsv3 : Int) (opcode : UInt8) (iovec : List Bytes) :
    Option (List Bytes) :=
  websockSendInternalV (frameSetFin last ||| frameSetRsv1 rsv1 ||| frameSetRsv1 rsv2 |||
    frameSetRsv1 rsv3 ||| frameSetOpcode opcode) iovec

private theorem sum_length_filter (l : List Bytes) :
    ((l.filter (· ≠ [])).map List.length).sum = l.flatten.length := by
  rw [← List.length_flatten, List.flatten_filter_ne_nil]

/-- The frame of a payload without mask. -/
def plainHeading (first : UInt8) (n : Nat) : Heading := ⟨first, .shortest n, none⟩

theorem websockSend_eq (first : UInt8) (payload : Bytes) :
    websockSend first payload = (plainHeading first payload.length).bytes ++ payload := by
  unfold websockSend plainHeading Heading.bytes Heading.second LengthField.shortest
  dsimp only
  congr 1
  by_cases h : payload.length < 126
  · have hmod : payload.length / 256 ^ 0 % 256 = payload.length := by
      rw [pow_zero]
      omega
    rw [if_pos h, dif_pos h, hmod]
    simp [LengthField.code, LengthField.bytes, Heading.maskBytes]
  · rw [if_neg h, dif_neg h]
    by_cases h' : payload.length < 65536
    · rw [if_pos h', if_pos h']
      simp [LengthField.code, LengthField.bytes, Heading.maskBytes]
    · rw [if_neg h', if_neg h']
      simp [LengthField.code, LengthField.bytes, Heading.maskBytes]

theorem websockSendInternalV_eq (first : UInt8) {iovec : List Bytes} (hcount : iovec.length ≤ 31)
    (hsize : iovec.flatten.length < 2 ^ 64) :
    ∃ iov, websockSendInternalV first iovec = some iov ∧
      iov.flatten = websockSend first iovec.flatten := by
  rw [websockSendInternalV, if_neg (by omega)]
  dsimp only
  rw [sum_length_filter, Nat.mod_eq_of_lt hsize]
  refine ⟨_, rfl, ?_⟩
  rw [List.flatten_cons, List.flatten_filter_ne_nil]
  rfl

/-! The payload. -/

section
variable {m : Mask} {x : Bytes}

theorem at_rotate (i : Nat) : m.rotate.at i = m.at (i + 1) := by
  unfold Mask.at
  obtain h | h | h | h : i % 4 = 0 ∨ i % 4 = 1 ∨ i % 4 = 2 ∨ i % 4 = 3 := by omega
  · rw [h, show (i + 1) % 4 = 1 by omega]
    rfl
  · rw [h, show (i + 1) % 4 = 2 by omega]
    rfl
  · rw [h, show (i + 1) % 4 = 3 by omega]
    rfl
  · rw [h, show (i + 1) % 4 = 0 by omega]
    rfl

theorem unmaskBytes_apply : (unmaskBytes m x).1 = m.apply x := by
  induction x generalizing m with
  | nil => rfl
  | cons b x ih =>
    rw [Mask.apply, List.mapIdx_cons, unmaskBytes]
    dsimp only
    rw [ih, Mask.apply]
    simp only [at_rotate]
    rfl

theorem Mask.apply_apply : m.apply (m.apply x) = x := by
  apply List.ext_getElem
  · simp [Mask.apply]
  · intro i h₁ h₂
    simp only [Mask.apply, List.getElem_mapIdx, UInt8.xor_assoc, UInt8.xor_self, UInt8.xor_zero]

end

/-- Calls of websock_read one after the other, each with its address and its size, and the
bytes they gave. -/
def websockReads : List (Nat × Nat) → Conn → Bytes × Conn
  | [], s => ([], s)
  | (addr, size) :: rs, s =>
    match websockRead addr size s with
    | (.data b, t) => (b ++ (websockReads rs t).1, (websockReads rs t).2)
    | (_, t) => websockReads rs t

/-- Whatever the calls of websock_read they give a beginning of the payload, and the whole of
it when they are enough. -/
structure Gives (s : Conn) (payload rest : Bytes) : Prop where
  part : ∀ rs, ∃ left, (websockReads rs s).1 ++ left = payload ∧
    (websockReads rs s).2.length = left.length
  whole : ∀ rs, (∀ r ∈ rs, 0 < r.2) → payload.length + s.later.length ≤ rs.length →
    (websockReads rs s).1 = payload ∧ (websockReads rs s).2.stream = rest

section
variable {s : Conn} {x rest : Bytes} {addr size : Nat}

/-- These bytes of the stream are the payload left to read. -/
structure PayloadLeft (s : Conn) (x rest : Bytes) : Prop where
  data : s.wsState = .data
  stream : s.stream = x ++ rest
  length : s.length = x.length

variable (addr size) in
/-- A read takes bytes of the payload, or waits. -/
theorem websockRead_payload (h : PayloadLeft s x rest) :
    (∃ y z t, x = y ++ z ∧ websockRead addr size s = (.data (unmaskBytes s.mask y).1, t) ∧
      t.mask = (unmaskBytes s.mask y).2 ∧ t.later = s.later ∧ PayloadLeft t z rest ∧
      (0 < size → x ≠ [] → y ≠ [])) ∨
    ∃ rc t, websockRead addr size s = (rc, t) ∧ (∀ b, rc ≠ .data b) ∧ t.mask = s.mask ∧
      PayloadLeft t x rest ∧ (x ≠ [] → t.later.length < s.later.length) := by
  rcases websockRead_cases addr size h.data with ⟨y, t, hread, hstream, hdata, hlength, hmask, hlater, hsome⟩ |
    ⟨rc, t, hread, hrc, hstream, hdata, hlength, hmask, hless⟩
  · left
    have hall := h.stream
    have hlen := h.length
    have hle : y.length ≤ x.length := by omega
    obtain ⟨z, rfl⟩ := List.prefix_of_prefix_length_le ⟨_, hstream.symm⟩ ⟨_, hall.symm⟩ hle
    rw [hstream, List.append_assoc] at hall
    rw [List.length_append] at hlen
    refine ⟨y, z, t, rfl, hread, hmask, hlater, ⟨hdata, List.append_cancel_left hall, by omega⟩, fun hsize hne => ?_⟩
    exact hsome hsize (by rw [h.length]; exact List.length_pos_iff.mpr hne)
  · right
    refine ⟨rc, t, hread, hrc, hmask, ⟨hdata, hstream.trans h.stream, hlength.trans h.length⟩, fun hne => hless ?_⟩
    rw [h.stream]
    exact List.append_ne_nil_of_left_ne_nil hne rest

/-- Some bytes are read and the others left; none is left when the reads are enough. -/
theorem websockReads_spec (rs : List (Nat × Nat)) (h : PayloadLeft s x rest) :
    ∃ y z, x = y ++ z ∧ (websockReads rs s).1 = (unmaskBytes s.mask y).1 ∧
      PayloadLeft (websockReads rs s).2 z rest ∧
      ((∀ r ∈ rs, 0 < r.2) → x.length + s.later.length ≤ rs.length → z = []) := by
  induction rs generalizing s x with
  | nil =>
    refine ⟨[], x, rfl, rfl, h, fun _ henough => ?_⟩
    rw [List.length_nil] at henough
    exact List.length_eq_zero_iff.mp (by omega)
  | cons r rs ih =>
    obtain ⟨addr, size⟩ := r
    rw [websockReads]
    rcases websockRead_payload addr size h with
      ⟨y, x', t, rfl, hread, hmask, hlater, ht, hne⟩ | ⟨rc, t, hread, hrc, hmask, ht, hless⟩
    · obtain ⟨y', z, rfl, hbytes, hleft, hall⟩ := ih ht
      rw [hread]
      refine ⟨y ++ y', z, (List.append_assoc ..).symm, ?_, hleft, fun hpos henough => ?_⟩
      · dsimp only
        rw [hbytes, hmask, unmaskBytes_append]
      · rw [List.forall_mem_cons] at hpos
        rw [List.length_append, List.length_cons] at henough
        by_cases hnil : y ++ (y' ++ z) = []
        · exact (List.append_eq_nil_iff.mp (List.append_eq_nil_iff.mp hnil).2).2
        · have hy := List.length_pos_iff.mpr (hne hpos.1 hnil)
          exact hall hpos.2 (by rw [hlater]; omega)
    · obtain ⟨y, z, rfl, hbytes, hleft, hall⟩ := ih ht
      rw [hmask] at hbytes
      have hlast (hpos : ∀ r ∈ (addr, size) :: rs, 0 < r.2)
          (henough : (y ++ z).length + s.later.length ≤ ((addr, size) :: rs).length) : z = [] := by
        rw [List.forall_mem_cons] at hpos
        rw [List.length_cons] at henough
        by_cases hnil : y ++ z = []
        · exact (List.append_eq_nil_iff.mp hnil).2
        · have hlt := hless hnil
          exact hall hpos.2 (by omega)
      rw [hread]
      cases rc with
      | data b => exact absurd rfl (hrc b)
      | again => exact ⟨y, z, rfl, hbytes, hleft, hlast⟩
      | closed => exact ⟨y, z, rfl, hbytes, hleft, hlast⟩

/-- The calls of websock_read give the payload unmasked, and nothing else. -/
theorem gives_iff {payload : Bytes} (h : PayloadLeft s x rest) :
    Gives s payload rest ↔ s.mask.apply x = payload := by
  constructor
  · intro hg
    obtain ⟨y, z, rfl, hbytes, -, hall⟩ :=
      websockReads_spec (List.replicate (payload.length + (x.length + s.later.length)) (0, 1)) h
    have hpos : ∀ r ∈ List.replicate (payload.length + ((y ++ z).length + s.later.length)) (0, 1),
        0 < r.2 := fun r hr => by rw [List.eq_of_mem_replicate hr]; exact Nat.one_pos
    have hnil := hall hpos (by rw [List.length_replicate]; omega)
    have hwhole := (hg.whole _ hpos (by rw [List.length_replicate]; omega)).1
    rw [hbytes, unmaskBytes_apply] at hwhole
    rw [hnil, List.append_nil]
    exact hwhole
  · rintro rfl
    refine ⟨fun rs => ?_, fun rs hpos henough => ?_⟩
    · obtain ⟨y, z, rfl, hbytes, hleft, -⟩ := websockReads_spec rs h
      rw [← unmaskBytes_apply, unmaskBytes_append, hbytes]
      refine ⟨_, rfl, ?_⟩
      rw [length_unmaskBytes]
      exact hleft.length
    · obtain ⟨y, z, rfl, hbytes, hleft, hall⟩ := websockReads_spec rs h
      rw [← unmaskBytes_apply, length_unmaskBytes] at henough
      have hnil := hall hpos henough
      subst hnil
      rw [hbytes, List.append_nil, unmaskBytes_apply]
      exact ⟨rfl, hleft.stream⟩

end

end AfbBinder.Websock
