import AfbBinder.Lib.Le32
import AfbBinder.Lib.Reader

/-! The buffers of the binder protocol: what readbuf reads in memory, what writebuf
gathers, and the fields on the wire that both stand for. -/
namespace AfbBinder.ProtoWs
open Lib.Cstrings Lib.Le32 Lib.Reader

/-- A C string, without its terminator. -/
abbrev CString := { b : Bytes // 0 ∉ b }

/-- The library of json objects: null is the NULL object, parse fails where the
tokener reports an error. -/
structure Jsonc (J : Type) where
  null : J
  print : J → Option CString
  parse : Bytes → Option J
  newString : Bytes → J

/-- A string in a buffer: its address and the size read for it, terminator included. -/
structure Str where
  addr : Nat
  size : Nat
  deriving DecidableEq, Repr

/-- The C string found at the address. -/
def Str.content (mem : Memory) (s : Str) : Bytes :=
  ((List.range s.size).map fun i => mem (s.addr + i)).takeWhile (· ≠ 0)

section
variable (mem : Memory)

def readbufGet (length : Nat) : Rd Nat := fun rb =>
  if rb.stop < rb.head + length then (none, rb)
  else (some rb.head, { rb with head := rb.head + length })

/-- The byte before the head, as head[-1]. -/
def readbufLast : Rd UInt8 := fun rb =>
  (some (mem (rb.head - 1)), { rb with reads := rb.reads ++ [rb.head - 1] })

def readbufUint32 : Rd UInt32 := fun rb =>
  if rb.stop < rb.head + 4 then (none, rb)
  else
    (some (le32toh (mem rb.head) (mem (rb.head + 1)) (mem (rb.head + 2)) (mem (rb.head + 3))),
      { rb with
        head := rb.head + 4
        reads := rb.reads ++ [rb.head, rb.head + 1, rb.head + 2, rb.head + 3] })

/-- _readbuf_string_: none is the NULL string. -/
def readbufStringOr (nulok : Bool) : Rd (Option Str) := do
  let len ← readbufUint32 mem
  if len = 0 then
    if nulok then pure none else .fail
  else
    let value ← readbufGet len.toNat
    let last ← readbufLast mem
    if last = 0 then pure (some ⟨value, len.toNat⟩) else .fail

def readbufString : Rd Str := do
  match ← readbufStringOr mem false with
  | some value => pure value
  | none => .fail

def readbufNullstring : Rd (Option Str) := readbufStringOr mem true

/-- The text is taken as a string when it is not json. -/
def Jsonc.ofText {J : Type} (jc : Jsonc J) (text : Bytes) : J :=
  (jc.parse text).getD (jc.newString text)

/-- The reading of a string up to its terminator, by the tokener of json. -/
def readText (string : Str) : Rd Bytes := fun rb =>
  let text := string.content mem
  (some text, { rb with
    reads := rb.reads ++ (List.range (text.length + 1)).map (string.addr + ·) })

def readbufObject {J : Type} (jc : Jsonc J) : Rd J := do
  let string ← readbufString mem
  let text ← readText mem string
  pure (jc.ofText text)

end

def WRITEBUF_COUNT_MAX : Nat := 32

/-- The pieces of a message, in the order they are sent. -/
abbrev Writebuf := List Bytes

def writebufPut (wb : Writebuf) (value : Bytes) : Option Writebuf :=
  if wb.length = WRITEBUF_COUNT_MAX then none else some (wb ++ [value])

def writebufChar (wb : Writebuf) (value : UInt8) : Option Writebuf := writebufPut wb [value]

def writebufUint32 (wb : Writebuf) (value : UInt32) : Option Writebuf :=
  writebufPut wb (htole32 value)

/-- The length counts the terminator and is refused when it does not fit in 32 bits. -/
def writebufString (wb : Writebuf) (value : CString) : Option Writebuf := do
  let len := UInt32.ofNat (value.1.length + 1)
  if len.toNat = value.1.length + 1 ∧ len ≠ 0 then
    writebufPut (← writebufUint32 wb len) (value.1 ++ [0])
  else none

def writebufNullstring (wb : Writebuf) : Option CString → Option Writebuf
  | some value => writebufString wb value
  | none => writebufUint32 wb 0

def writebufObject {J : Type} (jc : Jsonc J) (wb : Writebuf) (object : J) : Option Writebuf := do
  writebufString wb (← jc.print object)

/-! The fields on the wire. -/

def parseUint32 : Parser UInt32
  | a :: b :: c :: d :: rest => some (le32toh a b c d, rest)
  | _ => none

def parseStringOr (nulok : Bool) : Parser (Option Bytes) := do
  let len ← parseUint32
  if len = 0 then
    if nulok then pure none else failure
  else fun b =>
    if len.toNat ≤ b.length ∧ b[len.toNat - 1]? = some 0 then
      some (some ((b.take len.toNat).takeWhile (· ≠ 0)), b.drop len.toNat)
    else none

def parseString : Parser Bytes := do
  match ← parseStringOr false with
  | some value => pure value
  | none => failure

def parseNullstring : Parser (Option Bytes) := parseStringOr true

def parseObject {J : Type} (jc : Jsonc J) : Parser J := do
  let text ← parseString
  pure (jc.ofText text)

section
variable {mem : Memory} {base stop : Nat}

/-- The string lies in the window and ends there with its terminator. -/
def Str.Terminated (mem : Memory) (base stop : Nat) (s : Str) : Prop :=
  base ≤ s.addr ∧ s.addr + s.size ≤ stop ∧ 0 < s.size ∧ mem (s.addr + s.size - 1) = 0

theorem safe_readbufUint32 : Safe base stop (readbufUint32 mem) fun _ => True := by
  intro rb hrb
  refine ⟨?_, fun _ _ => trivial⟩
  have hs := hrb.stop_eq
  have hl := hrb.low
  unfold readbufUint32
  split
  · exact hrb
  · refine ⟨hrb.base_eq, hs, by dsimp only; omega, by dsimp only; omega, fun a ha => ?_⟩
    rcases List.mem_append.mp ha with ha | ha
    · exact hrb.reads a ha
    · simp only [List.mem_cons, List.not_mem_nil, or_false] at ha
      omega

/-- The bytes of a string and the check of the last one. -/
theorem safe_terminated {n : Nat} (hn : 0 < n) :
    Safe base stop (do
      let value ← readbufGet n
      let last ← readbufLast mem
      if last = 0 then pure (some ⟨value, n⟩) else .fail)
      fun s : Option Str => ∀ x ∈ s, x.Terminated mem base stop := by
  intro rb hrb
  have hs := hrb.stop_eq
  have hl := hrb.low
  by_cases hfit : rb.stop < rb.head + n
  · have hget : readbufGet n rb = (none, rb) := if_pos hfit
    rw [bind_none (by rw [hget]), hget]
    exact ⟨hrb, fun _ h => by cases h⟩
  · have hget : readbufGet n rb = (some rb.head, { rb with head := rb.head + n }) := if_neg hfit
    have hlast : readbufLast mem { rb with head := rb.head + n } =
        (some (mem (rb.head + n - 1)), { rb with
          head := rb.head + n
          reads := rb.reads ++ [rb.head + n - 1] }) := rfl
    rw [bind_some hget, bind_some hlast]
    have hin : Within base stop { rb with
        head := rb.head + n
        reads := rb.reads ++ [rb.head + n - 1] } := by
      refine ⟨hrb.base_eq, hs, by dsimp only; omega, by dsimp only; omega, fun a ha => ?_⟩
      rcases List.mem_append.mp ha with ha | ha
      · exact hrb.reads a ha
      · rw [List.mem_singleton] at ha
        omega
    by_cases hz : mem (rb.head + n - 1) = 0
    · rw [if_pos hz]
      refine ⟨hin, fun s h => ?_⟩
      cases h
      rintro x ⟨⟩
      exact ⟨hl, by dsimp only; omega, hn, hz⟩
    · rw [if_neg hz]
      exact ⟨hin, fun _ h => by cases h⟩

theorem safe_readbufStringOr (nulok : Bool) :
    Safe base stop (readbufStringOr mem nulok)
      fun s => ∀ x ∈ s, x.Terminated mem base stop := by
  refine safe_bind safe_readbufUint32 fun len _ => ?_
  by_cases hz : len = 0
  · rw [if_pos hz]
    cases nulok with
    | true => exact safe_pure fun _ h => by cases h
    | false => exact safe_fail
  · rw [if_neg hz]
    exact safe_terminated (UInt32.pos_iff_ne_zero.mpr hz)

theorem safe_readbufString :
    Safe base stop (readbufString mem) fun s => s.Terminated mem base stop := by
  refine safe_bind (safe_readbufStringOr false) fun s hs => ?_
  cases s with
  | none => exact safe_fail
  | some x => exact safe_pure (hs x rfl)

/-- The terminator is found before the end of the string. -/
theorem Str.Terminated.length_content_lt {s : Str} (h : s.Terminated mem base stop) :
    (s.content mem).length < s.size := by
  obtain ⟨-, -, hpos, hz⟩ := h
  have hle : (s.content mem).length ≤ s.size := by
    have := (List.takeWhile_prefix (· ≠ 0)
      (l := (List.range s.size).map fun i => mem (s.addr + i))).length_le
    rwa [List.length_map, List.length_range] at this
  refine Nat.lt_of_le_of_ne hle fun heq => ?_
  have hall : s.content mem = (List.range s.size).map fun i => mem (s.addr + i) :=
    (List.takeWhile_prefix _).eq_of_length (by rw [List.length_map, List.length_range]; exact heq)
  have hmem : mem (s.addr + s.size - 1) ∈ s.content mem := by
    rw [hall, List.mem_map]
    exact ⟨s.size - 1, List.mem_range.mpr (by omega), by congr 1; omega⟩
  have hne := List.all_eq_true.mp List.all_takeWhile _ hmem
  simp [hz] at hne

private theorem safe_readText {s : Str} (h : s.Terminated mem base stop) :
    Safe base stop (readText mem s) fun _ => True := by
  intro rb hrb
  refine ⟨⟨hrb.base_eq, hrb.stop_eq, hrb.low, hrb.high, fun a ha => ?_⟩, fun _ _ => trivial⟩
  rcases List.mem_append.mp ha with ha | ha
  · exact hrb.reads a ha
  · obtain ⟨i, hi, rfl⟩ := List.mem_map.mp ha
    have hlt := h.length_content_lt
    obtain ⟨hlow, hhigh, -⟩ := h
    rw [List.mem_range] at hi
    omega

theorem safe_readbufObject {J : Type} (jc : Jsonc J) :
    Safe base stop (readbufObject mem jc) fun _ => True :=
  safe_bind safe_readbufString fun _ hs => safe_bind (safe_readText hs) fun _ _ => safe_pure trivial

theorem refines_readbufUint32 : Refines mem (readbufUint32 mem) parseUint32 (· = ·) := by
  intro rb b hb
  have hs := hb.size
  by_cases hlen : b.length < 4
  · have hnone : readbufUint32 mem rb = (none, rb) := if_pos (by omega)
    refine ⟨fun _ => by rw [hnone], fun y rest hy => ?_⟩
    unfold parseUint32 at hy
    split at hy
    · simp only [List.length_cons] at hlen
      omega
    · cases hy
  · match b with
    | [] | [_] | [_, _] | [_, _, _] => simp at hlen
    | b₀ :: b₁ :: b₂ :: b₃ :: rest =>
      refine ⟨fun h => (by cases h), fun y rest' hy => ?_⟩
      cases hy
      have hfit : ¬ rb.stop < rb.head + 4 := by
        simp only [List.length_cons] at hs
        omega
      have h₀ : mem rb.head = b₀ := hb.bytes 0 (by simp)
      have h₁ : mem (rb.head + 1) = b₁ := hb.bytes 1 (by simp)
      have h₂ : mem (rb.head + 2) = b₂ := hb.bytes 2 (by simp)
      have h₃ : mem (rb.head + 3) = b₃ := hb.bytes 3 (by simp)
      refine ⟨_, _, if_neg hfit, by rw [h₀, h₁, h₂, h₃], ?_⟩
      exact hb.drop (n := 4) (by simp) _

private theorem refines_terminated (n : Nat) (hn : 0 < n) :
    Refines mem (do
      let value ← readbufGet n
      let last ← readbufLast mem
      if last = 0 then pure (some ⟨value, n⟩) else .fail)
      (fun b => if n ≤ b.length ∧ b[n - 1]? = some 0 then
        some (some ((b.take n).takeWhile (· ≠ 0)), b.drop n) else none)
      fun s y => s.map (Str.content mem) = y := by
  intro rb b hb
  have hs := hb.size
  dsimp only
  by_cases hfit : n ≤ b.length
  · have hget : readbufGet n rb = (some rb.head, { rb with head := rb.head + n }) :=
      if_neg (by omega)
    have hlast : readbufLast mem { rb with head := rb.head + n } =
        (some (mem (rb.head + n - 1)), { rb with
          head := rb.head + n
          reads := rb.reads ++ [rb.head + n - 1] }) := rfl
    have hbyte : mem (rb.head + n - 1) = b[n - 1] := by
      rw [← hb.bytes (n - 1) (by omega)]
      congr 1
      omega
    have hread : b[n - 1]? = some (mem (rb.head + n - 1)) := by
      rw [hbyte, List.getElem?_eq_getElem]
    rw [bind_some hget, bind_some hlast, hread]
    by_cases hz : mem (rb.head + n - 1) = 0
    · rw [if_pos hz, if_pos ⟨hfit, by rw [hz]⟩]
      refine ⟨fun h => (by cases h), fun y rest hy => ?_⟩
      cases hy
      exact ⟨_, _, rfl, by simp [Str.content, hb.take hfit], hb.drop hfit _⟩
    · rw [if_neg hz, if_neg fun h => hz (Option.some.inj h.2)]
      exact ⟨fun _ => rfl, fun _ _ h => by cases h⟩
  · have hget : readbufGet n rb = (none, rb) := if_pos (by omega)
    rw [bind_none (by rw [hget]), if_neg fun h => hfit h.1]
    exact ⟨fun _ => rfl, fun _ _ h => by cases h⟩

theorem refines_readbufStringOr (nulok : Bool) :
    Refines mem (readbufStringOr mem nulok) (parseStringOr nulok)
      fun s y => s.map (Str.content mem) = y := by
  refine refines_bind refines_readbufUint32 fun len _ hlen => ?_
  subst hlen
  by_cases hz : len = 0
  · rw [if_pos hz, if_pos hz]
    cases nulok with
    | true => exact refines_pure rfl
    | false => exact refines_fail
  · rw [if_neg hz, if_neg hz]
    exact refines_terminated len.toNat (UInt32.pos_iff_ne_zero.mpr hz)

theorem refines_readbufString :
    Refines mem (readbufString mem) parseString fun s y => s.content mem = y := by
  refine refines_bind (refines_readbufStringOr false) fun s y hs => ?_
  subst hs
  cases s with
  | none => exact refines_fail
  | some x => exact refines_pure rfl

theorem refines_readbufObject {J : Type} (jc : Jsonc J) :
    Refines mem (readbufObject mem jc) (parseObject jc) (· = ·) := by
  refine refines_bind refines_readbufString fun s y hs rb b hb => ?_
  refine ⟨fun h => (by cases h), fun z rest hz => ?_⟩
  cases hz
  exact ⟨_, _, rfl, by rw [hs], hb.size, hb.bytes⟩

end

end AfbBinder.ProtoWs
