import Mathlib.Data.List.Basic
import AfbBinder.Lib.Cstrings

/-! A block of memory, with the accesses checked: a cell has no value before it is written. -/
namespace AfbBinder.Lib.Buffers
open Cstrings

abbrev Cells := List (Option UInt8)

/-- A block just allocated. -/
def block (size : Nat) : Cells := List.replicate size none

/-- Writing bytes from a position on, none when one of them falls outside. -/
def write (cells : Cells) (pos : Nat) (bytes : Bytes) : Option Cells :=
  if pos + bytes.length ≤ cells.length then
    some (cells.take pos ++ (bytes.map some ++ cells.drop (pos + bytes.length)))
  else none

/-- The string at the start of the cells, none when the reading leaves what is written. -/
def text : Cells → Option Bytes
  | some c :: cells => if c = 0 then some [] else (text cells).map (c :: ·)
  | _ => none

/-- A string in memory, with its terminator. -/
def stored (s : Bytes) : Bytes := s ++ [0]

def readBytes (memory : Bytes) (n : Nat) : Option Bytes :=
  if n ≤ memory.length then some (memory.take n) else none

section
variable {cells cells' : Cells} {pos k : Nat} {bytes s : Bytes}

@[simp] theorem length_block (size : Nat) : (block size).length = size := List.length_replicate

/-- A write that fits: what it leaves before, puts, and leaves after. -/
theorem write_fits (cells : Cells) (pos : Nat) (bytes : Bytes) (h : pos + bytes.length ≤ cells.length) :
    ∃ cells', write cells pos bytes = some cells' ∧ cells'.length = cells.length ∧
      cells'.take pos = cells.take pos ∧ cells'.drop pos = bytes.map some ++ cells.drop (pos + bytes.length) ∧
      ∀ k, pos + bytes.length ≤ k → cells'.drop k = cells.drop k := by
  have htake : (cells.take pos).length = pos := by
    rw [List.length_take]
    omega
  have hdrop : (cells.take pos ++ (bytes.map some ++ cells.drop (pos + bytes.length))).drop pos =
      bytes.map some ++ cells.drop (pos + bytes.length) := by
    rw [List.drop_append, List.drop_of_length_le (Nat.le_of_eq htake), htake, Nat.sub_self]
    rfl
  refine ⟨_, if_pos h, ?_, List.take_left' htake, hdrop, ?_⟩
  · simp only [List.length_append, List.length_map, List.length_drop, htake]
    omega
  · intro k hk
    obtain ⟨j, rfl⟩ := Nat.exists_eq_add_of_le hk
    rw [← List.drop_drop, ← List.drop_drop, hdrop, List.drop_left' (List.length_map _), List.drop_drop]

/-- A write that goes on where the one before stopped. -/
theorem writes_fit (cells : Cells) (pos : Nat) (bytes next : Bytes) (h : pos + bytes.length + next.length ≤ cells.length) :
    ∃ b b', write cells pos bytes = some b ∧ write b (pos + bytes.length) next = some b' ∧
      b'.length = cells.length ∧
      b'.drop pos = (bytes ++ next).map some ++ cells.drop (pos + bytes.length + next.length) := by
  obtain ⟨b, hwrite, hlen, -, hdrop, hkeep⟩ := write_fits cells pos bytes (by omega)
  obtain ⟨b', hwrite', hlen', htake', hdrop', -⟩ := write_fits b (pos + bytes.length) next (by omega)
  refine ⟨b, b', hwrite, hwrite', hlen'.trans hlen, ?_⟩
  have hfirst : (b'.take (pos + bytes.length)).drop pos = bytes.map some := by
    rw [htake', List.drop_take, hdrop, Nat.add_sub_cancel_left, List.take_left' (List.length_map _)]
  have hsecond : pos ≤ (b'.take (pos + bytes.length)).length := by
    rw [List.length_take]
    omega
  rw [← List.take_append_drop (pos + bytes.length) b', List.drop_append_of_le_length hsecond, hfirst, hdrop',
    hkeep _ (by omega), List.map_append, List.append_assoc]

/-- The reading of a string stops at its NUL. -/
theorem text_string (h : 0 ∉ s) : text (s.map some ++ some 0 :: cells) = some s := by
  induction s with
  | nil => rfl
  | cons c s ih =>
    rw [List.mem_cons, not_or] at h
    obtain ⟨hc, hs⟩ := h
    rw [List.map_cons, List.cons_append, text, if_neg (Ne.symm hc), ih hs]
    rfl

theorem text_stored (h0 : 0 ∉ s) : text ((stored s).map some) = some s := by
  rw [stored, List.map_append]
  exact text_string h0

/-- Writing after what is written, in a block that has room for it. -/
theorem write_next {a b : Bytes} {pos size room : Nat} (hpos : pos = a.length)
    (hsize : size = b.length + room) :
    write (a.map some ++ block size) pos b = some ((a ++ b).map some ++ block room) := by
  have hroom : pos + b.length ≤ (a.map some ++ block size).length := by
    simp only [List.length_append, List.length_map, length_block]
    omega
  have hdrop : (a.map some ++ block size).drop (pos + b.length) = block room := by
    rw [← List.drop_drop, hpos, List.drop_left' (List.length_map _), block, List.drop_replicate,
      hsize, Nat.add_sub_cancel_left]
    rfl
  rw [write, if_pos hroom, hdrop, hpos, List.take_left' (List.length_map _), List.map_append,
    List.append_assoc]

theorem readBytes_append (a b : Bytes) : readBytes (a ++ b) a.length = some a := by
  rw [readBytes, if_pos (by rw [List.length_append]; omega), List.take_left]

theorem readBytes_all (a : Bytes) : readBytes a a.length = some a := by
  rw [readBytes, if_pos (Nat.le_refl _), List.take_length]

end

end AfbBinder.Lib.Buffers
