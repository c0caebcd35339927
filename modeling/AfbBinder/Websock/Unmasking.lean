import AfbBinder.Websock.Frames

/-! The payload as its reader gets it: the pieces that are read, of any size and placed at
any address, are those of the payload whose byte i is combined with the byte i mod 4 of the
mask of the frame. -/
namespace AfbBinder.Websock
open Lib.Cstrings

/-- unmask on the pieces of a payload, each at its address. -/
def unmaskPieces : Mask → List (Nat × Bytes) → Bytes × Mask
  | m, [] => ([], m)
  | m, (addr, x) :: ps =>
    let r := unmask addr m x
    let rs := unmaskPieces r.2 ps
    (r.1 ++ rs.1, rs.2)

section
variable (m : Mask)

private theorem Mask.at_mod (i : Nat) : m.at (i % 4) = m.at i := by
  unfold Mask.at
  rw [Nat.mod_mod]

/-- The mask left is the one for the byte that follows. -/
theorem unmaskBytes_at (x : Bytes) (i : Nat) : (unmaskBytes m x).2.at i = m.at (x.length + i) := by
  induction x generalizing m with
  | nil => rw [unmaskBytes, List.length_nil, Nat.zero_add]
  | cons b x ih =>
    rw [unmaskBytes]
    dsimp only
    rw [ih, at_rotate, List.length_cons]
    congr 1
    omega

private theorem unmaskBytes_getElem? (x : Bytes) (i : Nat) :
    (unmaskBytes m x).1[i]? = x[i]?.map (· ^^^ m.at i) := by
  rw [unmaskBytes_apply]
  exact List.getElem?_mapIdx

private theorem unmaskPieces_eq (ps : List (Nat × Bytes)) :
    unmaskPieces m ps = unmaskBytes m (ps.flatMap Prod.snd) := by
  induction ps generalizing m with
  | nil => rfl
  | cons p ps ih =>
    obtain ⟨addr, x⟩ := p
    rw [unmaskPieces, unmask_eq, ih, List.flatMap_cons, unmaskBytes_append]

end

section
variable {s : Conn}

/-- Calls one after the other take bytes of the stream, the mask going from one to the next. -/
theorem websockReads_some (rs : List (Nat × Nat)) (hdata : s.wsState = .data) :
    ∃ x, s.stream = x ++ (websockReads rs s).2.stream ∧
      (websockReads rs s).2.length + x.length = s.length ∧
      (websockReads rs s).1 = (unmaskBytes s.mask x).1 ∧
      (websockReads rs s).2.mask = (unmaskBytes s.mask x).2 := by
  induction rs generalizing s with
  | nil => exact ⟨[], rfl, rfl, rfl, rfl⟩
  | cons r rs ih =>
    obtain ⟨addr, size⟩ := r
    rw [websockReads]
    rcases websockRead_cases addr size hdata with ⟨x, t, hread, hstream, hstate, hlength, hmask, -⟩ |
      ⟨rc, t, hread, hrc, hstream, hstate, hlength, hmask, -⟩
    · obtain ⟨y, hrest, hleft, hbytes, hlast⟩ := ih hstate
      rw [hread]
      refine ⟨x ++ y, ?_, ?_, ?_, ?_⟩
      · rw [hstream, hrest, List.append_assoc]
      · rw [List.length_append]
        dsimp only
        omega
      · rw [unmaskBytes_append, ← hmask, ← hbytes]
      · rw [unmaskBytes_append, ← hmask, ← hlast]
    · obtain ⟨y, hrest, hleft, hbytes, hlast⟩ := ih hstate
      rw [hread]
      rw [hmask] at hbytes hlast
      have hall : s.stream = y ++ (websockReads rs t).2.stream := hstream.symm.trans hrest
      have hsum : (websockReads rs t).2.length + y.length = s.length := hleft.trans hlength
      cases rc with
      | data b => exact absurd rfl (hrc b)
      | again => exact ⟨y, hall, hsum, hbytes, hlast⟩
      | closed => exact ⟨y, hall, hsum, hbytes, hlast⟩

end

/-- The pieces of a payload, given to unmask at any addresses or read by websock_read in
calls of any sizes: each byte is combined with the byte of the mask of its index modulo 4,
and the mask that is left is the one for the next byte. -/
theorem unmasked_in_pieces :
    (∀ (m : Mask) (ps : List (Nat × Bytes)),
      (∀ i, (unmaskPieces m ps).1[i]? = (ps.flatMap Prod.snd)[i]?.map (· ^^^ m.at (i % 4))) ∧
        ∀ i, (unmaskPieces m ps).2.at i = m.at (((ps.flatMap Prod.snd).length + i) % 4)) ∧
      ∀ (s : Conn) (rs : List (Nat × Nat)), s.wsState = .data →
        ∃ x, s.stream = x ++ (websockReads rs s).2.stream ∧
          (websockReads rs s).2.length + x.length = s.length ∧
          (∀ i, (websockReads rs s).1[i]? = x[i]?.map (· ^^^ s.mask.at (i % 4))) ∧
          ∀ i, (websockReads rs s).2.mask.at i = s.mask.at ((x.length + i) % 4) := by
  simp only [Mask.at_mod]
  constructor
  · intro m ps
    rw [unmaskPieces_eq]
    exact ⟨unmaskBytes_getElem? m _, unmaskBytes_at m _⟩
  · intro s rs hdata
    obtain ⟨x, hstream, hlength, hbytes, hmask⟩ := websockReads_some rs hdata
    refine ⟨x, hstream, hlength, ?_, ?_⟩
    · rw [hbytes]
      exact unmaskBytes_getElem? s.mask x
    · rw [hmask]
      exact unmaskBytes_at s.mask x

/-- A payload of six bytes that comes in two chunks. -/
def sixBytes : Conn :=
  { Conn.start [11, 12, 13, 14] [[15, 16, 17]] false with
    wsState := .data
    length := 6
    mask := ⟨1, 2, 3, 4⟩ }

theorem unmasked_in_pieces_six :
    (websockReads [(2, 8), (7, 8), (7, 8)] sixBytes).1 =
        [11 ^^^ 1, 12 ^^^ 2, 13 ^^^ 3, 14 ^^^ 4, 15 ^^^ 1, 16 ^^^ 2] ∧
      ∃ x, sixBytes.stream = x ++ (websockReads [(2, 8), (7, 8), (7, 8)] sixBytes).2.stream ∧
        (websockReads [(2, 8), (7, 8), (7, 8)] sixBytes).2.length + x.length = sixBytes.length ∧
        (∀ i, (websockReads [(2, 8), (7, 8), (7, 8)] sixBytes).1[i]? =
          x[i]?.map (· ^^^ sixBytes.mask.at (i % 4))) ∧
        ∀ i, (websockReads [(2, 8), (7, 8), (7, 8)] sixBytes).2.mask.at i =
          sixBytes.mask.at ((x.length + i) % 4) :=
  ⟨by decide, unmasked_in_pieces.2 sixBytes [(2, 8), (7, 8), (7, 8)] rfl⟩

end AfbBinder.Websock
