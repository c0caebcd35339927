import AfbBinder.Websock.FrameTrip

/-! The close frames, as websock_close sends them or masked, and what on_close is told. -/
namespace AfbBinder.Websock
open Lib.Cstrings Decoder
variable {e : Env}

/-- The payload that websock_close sends. -/
def closePayload (code : Nat) (reason : Bytes) : Bytes :=
  if code = WEBSOCKET_CODE_NOT_SET ∧ reason = [] then []
  else [UInt8.ofNat (code / 256 % 256), UInt8.ofNat (code % 256)] ++ reason

private theorem websockClose_eq {code : Nat} {reason : Bytes} (hlen : reason.length ≤ 123) :
    websockClose code reason = [.sent (finFrame OPCODE_CLOSE (closePayload code reason))] := by
  unfold websockClose closePayload
  split_ifs with h
  · rfl
  · omega
  · rfl

/-- A close frame with this payload, masked or not. -/
def closeHeading (mask : Option Mask) (payload : Bytes) : Heading :=
  ⟨0x80 ||| OPCODE_CLOSE, .shortest payload.length, mask⟩

def closeFrame (mask : Option Mask) (payload : Bytes) : Bytes :=
  (closeHeading mask payload).bytes ++ (closeHeading mask payload).unmasked payload

private theorem closeFrame_none (payload : Bytes) : closeFrame none payload = finFrame OPCODE_CLOSE payload :=
  (websockSend_eq (0x80 ||| OPCODE_CLOSE) payload).symm

/-- on_close is called for the frame with this code, and reading gives this reason. -/
def ReportsClose (e : Env) (s : Conn) (code : Nat) (reason rest : Bytes) : Prop :=
  ∀ (γ : Type) (itf : Itf γ) (g : γ), ∃ n t,
    dispatches e itf (n + 1) (s, g) = itf.call e (.onClose code reason.length) (t, g) ∧
      Gives t reason rest

/-! Only one callback is the first one. -/

/-- An interface that notes its calls and the connections they get. -/
def noteItf : Itf (List (Call × Conn)) where
  onContinue last size p := (p.1, p.2 ++ [(.onContinue last size, p.1)])
  onText last size p := (p.1, p.2 ++ [(.onText last size, p.1)])
  onBinary last size p := (p.1, p.2 ++ [(.onBinary last size, p.1)])
  onClose code size p := (p.1, p.2 ++ [(.onClose code size, p.1)])
  onError code p := (p.1, p.2 ++ [(.error code, p.1)])

section
variable {s : Conn} {l : List (Call × Conn)} {p : Conn × List (Call × Conn)}

private theorem call_notes (c : Call) : l <+: (noteItf.call e c (s, l)).2 := by
  cases c with
  | ping => exact List.prefix_refl _
  | pong => exact List.prefix_refl _
  | _ => exact List.prefix_append ..

private theorem dispatchLength_notes : l <+: (dispatchLengthWith e noteItf (s, l)).2.2 := by
  unfold dispatchLengthWith
  dsimp only
  cases readHeader s with
  | mk rc t =>
    cases rc with
    | again => exact List.prefix_refl _
    | closed => exact List.prefix_refl _
    | data b =>
      dsimp only
      split
      · exact List.prefix_refl _
      · exact call_notes _

private theorem dispatchStart_notes : l <+: (dispatchStartWith e noteItf (s, l)).2.2 := by
  unfold dispatchStartWith
  dsimp only
  cases readHeader s with
  | mk rc t =>
    cases rc with
    | again => exact List.prefix_refl _
    | closed => exact List.prefix_refl _
    | data b =>
      dsimp only
      split
      · exact List.prefix_refl _
      · split
        · exact call_notes (e := e) (.error WEBSOCKET_CODE_PROTOCOL_ERROR)
        · exact dispatchLength_notes

private theorem dispatch_notes : l <+: (websockDispatchWith e noteItf (s, l)).2.2 := by
  have hinit : l <+: (dispatchInitWith e noteItf (s, l)).2.2 := dispatchStart_notes
  unfold websockDispatchWith
  dsimp only
  cases s.wsState with
  | init => exact hinit
  | start => exact dispatchStart_notes
  | length => exact dispatchLength_notes
  | data =>
    dsimp only
    split
    · exact List.prefix_refl _
    · exact hinit

private theorem dispatches_notes (n : Nat) : p.2 <+: (dispatches e noteItf n p).2 := by
  induction n generalizing p with
  | zero => exact List.prefix_refl _
  | succ n ih => exact dispatch_notes.trans ih

private theorem dispatches_add (m n : Nat) :
    dispatches e noteItf (m + n) p = dispatches e noteItf n (dispatches e noteItf m p) := by
  induction m generalizing p with
  | zero => rw [Nat.zero_add]; rfl
  | succ m ih =>
    rw [Nat.succ_add]
    exact ih

private theorem note_unique {m n : Nat} {x y : Call × Conn}
    (hx : (dispatches e noteItf m p).2 = [x]) (hy : (dispatches e noteItf n p).2 = [y]) : x = y := by
  wlog hle : m ≤ n generalizing m n x y
  · exact (this hy hx (Nat.le_of_not_le hle)).symm
  obtain ⟨k, rfl⟩ := Nat.exists_eq_add_of_le hle
  have hpre := dispatches_notes (e := e) (p := dispatches e noteItf m p) k
  rw [← dispatches_add, hx, hy] at hpre
  simpa using hpre

end

/-! What the code makes of a close frame. -/

section
variable {mask : Option Mask} {payload : Bytes}

private theorem close_not_refused : ∀ (masked : Bool) (n : Fin 126), n.val ≠ 1 →
    startRefused [0x80 ||| OPCODE_CLOSE, (if masked then 0x80 else 0) ||| UInt8.ofNat n] = false := by
  decide +kernel

private theorem closeHeading_length (hlen : payload.length ≤ 125) :
    (closeHeading mask payload).length = .seven ⟨payload.length, Nat.lt_succ_of_le hlen⟩ :=
  dif_pos (Nat.lt_succ_of_le hlen)

private theorem closeHeading_not_refused (hlen : payload.length ≤ 125) (hone : payload.length ≠ 1) :
    startRefused (closeHeading mask payload).bytes = false := by
  have hbytes : (closeHeading mask payload).bytes =
      [0x80 ||| OPCODE_CLOSE, (closeHeading mask payload).second] ++
        ((closeHeading mask payload).length.bytes ++ (closeHeading mask payload).maskBytes) := rfl
  rw [hbytes, startRefused_append (h := [_, _]) (Nat.le_refl 2), Heading.second, closeHeading_length hlen]
  exact close_not_refused mask.isSome ⟨payload.length, Nat.lt_succ_of_le hlen⟩ hone

private theorem closeHeading_isClose : (closeHeading mask payload).isClose := by
  change frameGetOpcode (0x80 ||| OPCODE_CLOSE) = OPCODE_CLOSE
  decide

private theorem closeHeading_payloadLength (hlen : payload.length ≤ 125) :
    (closeHeading mask payload).payloadLength = payload.length - 2 := by
  have hvalue : (closeHeading mask payload).length.value = payload.length := by
    rw [closeHeading_length hlen]
    rfl
  rw [Heading.payloadLength, hvalue]
  split_ifs with h
  · rfl
  · have hzero : payload.length = 0 := by
      by_contra hne
      exact h ⟨closeHeading_isClose, hne⟩
    omega

/-- The beginning of the payload that is read with the heading, as it is received. -/
def closeHead (mask : Option Mask) (payload : Bytes) : Bytes :=
  ((closeHeading mask payload).unmasked payload).take 2

def closeTail (mask : Option Mask) (payload : Bytes) : Bytes :=
  ((closeHeading mask payload).unmasked payload).drop 2

private theorem length_unmasked (hd : Heading) : (hd.unmasked payload).length = payload.length := by
  unfold Heading.unmasked
  cases hd.mask with
  | none => rfl
  | some m => simp [Mask.apply]

variable (mask) in
private theorem length_closeHead (hlen : payload.length ≤ 125) (hone : payload.length ≠ 1) :
    (closeHead mask payload).length = (closeHeading mask payload).codeSize := by
  have hcode : (closeHeading mask payload).length.code.toNat = payload.length := by
    rw [closeHeading_length hlen, LengthField.code, UInt8.toNat_ofNat']
    exact Nat.mod_eq_of_lt (by omega)
  rw [closeHead, List.length_take, length_unmasked, Heading.codeSize, hcode]
  split_ifs with h
  · omega
  · have hzero : payload.length = 0 := by
      by_contra hne
      exact h ⟨closeHeading_isClose, hne⟩
    omega

/-- What is told of a close frame that is not too long. -/
def closeTold (mask : Option Mask) (payload : Bytes) : Nat :=
  closeCode ((closeHeading mask payload).bytes ++ closeHead mask payload)
    ((closeHeading mask payload).bytes ++ closeHead mask payload).length (payload.length - 2)

def closeMask (mask : Option Mask) (payload : Bytes) : Mask :=
  headingMask ((closeHeading mask payload).bytes ++ closeHead mask payload)
    (headingSize ((closeHeading mask payload).bytes ++ closeHead mask payload))

private theorem frameCall_close (hlen : payload.length ≤ 125) :
    frameCall e ((closeHeading mask payload).bytes ++ closeHead mask payload)
        ((closeHeading mask payload).bytes ++ closeHead mask payload).length =
      if payload.length - 2 > e.maxlength then .error WEBSOCKET_CODE_MESSAGE_TOO_LARGE
      else .onClose (closeTold mask payload) (payload.length - 2) := by
  have hfirst : byteAt ((closeHeading mask payload).bytes ++ closeHead mask payload) 0 =
      0x80 ||| OPCODE_CLOSE := rfl
  have hrsv : rsvClear ((closeHeading mask payload).bytes ++ closeHead mask payload) = true := by
    unfold rsvClear
    rw [hfirst]
    decide
  have hopcode : frameGetOpcode (0x80 ||| OPCODE_CLOSE) = OPCODE_CLOSE := by decide
  simp only [frameCall, headingLength_bytes, closeHeading_payloadLength hlen, hrsv, hfirst, hopcode]
  rfl

variable {s : Conn} {rest : Bytes}

private theorem dispatches_close {γ : Type} (itf : Itf γ) (g : γ) (hready : s.Ready)
    (hstream : s.stream = closeFrame mask payload ++ rest) (hlen : payload.length ≤ 125)
    (hone : payload.length ≠ 1) :
    ∃ n a l, a ++ l.flatten = closeTail mask payload ++ rest ∧ dispatches e itf (n + 1) (s, g) =
      itf.call e (if payload.length - 2 > e.maxlength then .error WEBSOCKET_CODE_MESSAGE_TOO_LARGE
        else .onClose (closeTold mask payload) (payload.length - 2))
        (s.after e ((closeHeading mask payload).bytes ++ closeHead mask payload) a l, g) := by
  rw [← frameCall_close hlen]
  refine dispatches_frame _ hready (closeHeading_not_refused hlen hone) (length_closeHead mask hlen hone) ?_
  rw [hstream, closeFrame, closeHead, closeTail]
  simp only [List.append_assoc]
  rw [← List.append_assoc (List.take 2 _), List.take_append_drop]

private theorem reportsClose_iff {code : Nat} {reason : Bytes} (hready : s.Ready)
    (hstream : s.stream = closeFrame mask payload ++ rest) (hlen : payload.length ≤ 125)
    (hone : payload.length ≠ 1) :
    ReportsClose e s code reason rest ↔ payload.length - 2 ≤ e.maxlength ∧
      code = closeTold mask payload ∧ (closeMask mask payload).apply (closeTail mask payload) = reason := by
  have htail : (closeTail mask payload).length = payload.length - 2 := by
    rw [closeTail, List.length_drop, length_unmasked]
  have hleft {a : Bytes} {l : List Bytes} (hfits : payload.length - 2 ≤ e.maxlength)
      (hrest : a ++ l.flatten = closeTail mask payload ++ rest) :
      PayloadLeft (s.after e ((closeHeading mask payload).bytes ++ closeHead mask payload) a l)
        (closeTail mask payload) rest :=
    after_payloadLeft (by rw [closeHeading_payloadLength hlen]; exact hfits) hrest
      (by rw [htail, closeHeading_payloadLength hlen])
  have hmask {a : Bytes} {l : List Bytes} (hfits : payload.length - 2 ≤ e.maxlength) :
      (s.after e ((closeHeading mask payload).bytes ++ closeHead mask payload) a l).mask =
        closeMask mask payload := by
    rw [after_fits (by rw [headingLength_bytes, closeHeading_payloadLength hlen]; exact hfits)]
    rfl
  constructor
  · intro hreports
    obtain ⟨n, t, hrun, hgives⟩ := hreports _ noteItf []
    obtain ⟨m, a, l, hrest, hclose⟩ := dispatches_close (e := e) noteItf [] hready hstream hlen hone
    have hnote : (dispatches e noteItf (n + 1) (s, [])).2 = [(.onClose code reason.length, t)] := by
      rw [hrun]
      rfl
    by_cases hfits : payload.length - 2 ≤ e.maxlength
    · rw [if_neg (by omega)] at hclose
      obtain ⟨hcall, rfl⟩ := Prod.mk.inj (note_unique hnote (congrArg Prod.snd hclose))
      injection hcall with hcode hsize
      rw [gives_iff (hleft hfits hrest), hmask hfits] at hgives
      exact ⟨hfits, hcode, hgives⟩
    · rw [if_pos (by omega)] at hclose
      exact nomatch (Prod.mk.inj (note_unique hnote (congrArg Prod.snd hclose))).1
  · rintro ⟨hfits, rfl, rfl⟩ γ itf g
    obtain ⟨n, a, l, hrest, hclose⟩ := dispatches_close (e := e) itf g hready hstream hlen hone
    rw [if_neg (by omega)] at hclose
    refine ⟨n, _, ?_, (gives_iff (hleft hfits hrest)).mpr (by rw [hmask hfits])⟩
    rw [hclose, Mask.apply, List.length_mapIdx, htail]

end

/-! Which close frames are told as they were sent. -/

section
variable {mask : Option Mask} {m : Mask} {k₀ k₁ : UInt8} {reason : Bytes}

private theorem xor_eq_left {a b : UInt8} : a ^^^ b = a ↔ b = 0 := by
  constructor
  · intro h
    have hcancel := congrArg (a ^^^ ·) h
    simpa [← UInt8.xor_assoc] using hcancel
  · rintro rfl
    exact UInt8.xor_zero

private theorem bigEndian_last (h : Bytes) (u₀ u₁ : UInt8) :
    bigEndian (h ++ [u₀, u₁]) ((h ++ [u₀, u₁]).length - 2) 2 = u₀.toNat * 256 + u₁.toNat := by
  simp [bigEndian, List.range_succ, byteAt]

private theorem closeTold_eq {u₀ u₁ : UInt8} (hhead : closeHead mask (k₀ :: k₁ :: reason) = [u₀, u₁])
    (hne : reason ≠ []) : closeTold mask (k₀ :: k₁ :: reason) = u₀.toNat * 256 + u₁.toNat := by
  have hpos := List.length_pos_iff.mpr hne
  rw [closeTold, closeCode, if_neg (by simp only [List.length_cons]; omega), hhead, bigEndian_last]

private theorem closeTold_none : closeTold mask [k₀, k₁] = WEBSOCKET_CODE_NOT_SET := by
  rw [closeTold, closeCode]
  exact if_pos rfl

private theorem closeMask_none : closeMask none (k₀ :: k₁ :: reason) = .zero := by
  rw [closeMask, headingMask, if_neg]
  have hsecond : byteAt ((closeHeading none (k₀ :: k₁ :: reason)).bytes ++
      closeHead none (k₀ :: k₁ :: reason)) 1 = (closeHeading none (k₀ :: k₁ :: reason)).second := rfl
  rw [hsecond, mask_second]
  exact Bool.false_ne_true

private theorem unmasked_some : (closeHeading (some m) (k₀ :: k₁ :: reason)).unmasked (k₀ :: k₁ :: reason) =
    (k₀ ^^^ m.b0) :: (k₁ ^^^ m.b1) :: reason.mapIdx fun i b => b ^^^ m.at (i + 2) := by
  change Mask.apply m _ = _
  rw [Mask.apply, List.mapIdx_cons, List.mapIdx_cons]
  rfl

private theorem closeHead_some :
    closeHead (some m) (k₀ :: k₁ :: reason) = [k₀ ^^^ m.b0, k₁ ^^^ m.b1] := by
  rw [closeHead, unmasked_some]
  rfl

private theorem closeTail_some : closeTail (some m) (k₀ :: k₁ :: reason) =
    reason.mapIdx fun i b => b ^^^ m.at (i + 2) := by
  rw [closeTail, unmasked_some]
  rfl

/-- The mask is taken four bytes before the end of the header, where the code is. -/
theorem closeMask_some (hlen : reason.length ≤ 123) : closeMask (some m) (k₀ :: k₁ :: reason) =
    ⟨m.b2, m.b3, k₀ ^^^ m.b0, k₁ ^^^ m.b1⟩ := by
  have hlen' : (k₀ :: k₁ :: reason).length ≤ 125 := by
    simp only [List.length_cons]
    omega
  have hhead : closeHead (some m) (k₀ :: k₁ :: reason) = [k₀ ^^^ m.b0, k₁ ^^^ m.b1] := closeHead_some
  have hbytes : (closeHeading (some m) (k₀ :: k₁ :: reason)).bytes =
      [0x80 ||| OPCODE_CLOSE, (closeHeading (some m) (k₀ :: k₁ :: reason)).second, m.b0, m.b1, m.b2,
        m.b3] := by
    rw [Heading.bytes, closeHeading_length hlen']
    rfl
  have hsize := headingSize_bytes (closeHeading (some m) (k₀ :: k₁ :: reason))
    (x := [k₀ ^^^ m.b0, k₁ ^^^ m.b1])
  have hcode := length_closeHead (some m) hlen' (by simp)
  rw [Heading.codeSize, hhead] at hcode
  rw [← hcode, hbytes] at hsize
  rw [closeMask, hhead, hbytes, hsize, headingMask, if_pos]
  · rfl
  · exact mask_second

private theorem apply_tail (M : Mask) :
    M.apply (reason.mapIdx fun i b => b ^^^ m.at (i + 2)) = reason ↔
      ∀ i < reason.length, m.at (i + 2) = M.at i := by
  have hbyte (b x y : UInt8) : b ^^^ x ^^^ y = b ↔ x = y := by
    rw [UInt8.xor_assoc, xor_eq_left, UInt8.xor_eq_zero_iff]
  rw [List.ext_getElem_iff]
  simp [Mask.apply, hbyte]

/-- The bytes of the mask that are read for those after the code. -/
theorem at_shifted (hb0 : m.b0 = 0) (hb1 : m.b1 = 0) (n : Nat) :
    (∀ i < n, m.at (i + 2) = Mask.at ⟨m.b2, m.b3, k₀, k₁⟩ i) ↔ (n ≤ 2 ∨ k₀ = 0) ∧ (n ≤ 3 ∨ k₁ = 0) := by
  constructor
  · intro h
    refine ⟨?_, ?_⟩
    · by_cases hn : n ≤ 2
      · exact .inl hn
      · have h2 := h 2 (by omega)
        exact .inr (h2.symm.trans hb0)
    · by_cases hn : n ≤ 3
      · exact .inl hn
      · have h3 := h 3 (by omega)
        exact .inr (h3.symm.trans hb1)
  · rintro ⟨hk0, hk1⟩ i hi
    unfold Mask.at
    obtain h | h | h | h : i % 4 = 0 ∨ i % 4 = 1 ∨ i % 4 = 2 ∨ i % 4 = 3 := by omega
    · rw [h, show (i + 2) % 4 = 2 by omega]
      rfl
    · rw [h, show (i + 2) % 4 = 3 by omega]
      rfl
    · rw [h, show (i + 2) % 4 = 0 by omega]
      exact hb0.trans (hk0.resolve_left (by omega)).symm
    · rw [h, show (i + 2) % 4 = 1 by omega]
      exact hb1.trans (hk1.resolve_left (by omega)).symm

end

/-- The close frames that are told as they were sent: without a code, or with a reason, and
then a mask must hide neither the code nor the bytes that are unmasked with it. -/
def CloseKept (maxlength code : Nat) (reason : Bytes) (mask : Option Mask) : Prop :=
  reason.length ≤ maxlength ∧
    ((code = WEBSOCKET_CODE_NOT_SET ∧ reason = []) ∨
      (reason ≠ [] ∧ ∀ m, mask = some m → m.b0 = 0 ∧ m.b1 = 0 ∧
        (reason.length ≤ 2 ∨ code < 256) ∧ (reason.length ≤ 3 ∨ code % 256 = 0)))

section
variable {mask : Option Mask} {code : Nat} {reason : Bytes} {s : Conn} {rest : Bytes}

variable (code) in
private theorem length_closePayload (hreason : reason.length ≤ 123) :
    (closePayload code reason).length ≤ 125 ∧ (closePayload code reason).length ≠ 1 ∧
      (closePayload code reason).length - 2 = reason.length := by
  unfold closePayload
  split_ifs with h
  · rw [h.2]
    decide
  · simp only [List.length_append, List.length_cons, List.length_nil]
    omega

private theorem code_bytes (hcode : code < 2 ^ 16) :
    (UInt8.ofNat (code / 256 % 256)).toNat = code / 256 ∧ (UInt8.ofNat (code % 256)).toNat = code % 256 := by
  rw [UInt8.toNat_ofNat', UInt8.toNat_ofNat']
  omega

private theorem told_some {m : Mask} (hcode : code < 2 ^ 16) :
    code = (UInt8.ofNat (code / 256 % 256) ^^^ m.b0).toNat * 256 + (UInt8.ofNat (code % 256) ^^^ m.b1).toNat ↔
      m.b0 = 0 ∧ m.b1 = 0 := by
  have h0 := (UInt8.ofNat (code / 256 % 256) ^^^ m.b0).toNat_lt
  have h1 := (UInt8.ofNat (code % 256) ^^^ m.b1).toNat_lt
  obtain ⟨hhigh, hlow⟩ := code_bytes hcode
  rw [← xor_eq_left (a := UInt8.ofNat (code / 256 % 256)) (b := m.b0),
    ← xor_eq_left (a := UInt8.ofNat (code % 256)) (b := m.b1), ← UInt8.toNat_inj, ← UInt8.toNat_inj,
    hhigh, hlow]
  omega

/-- What the code computes of a frame is what was sent when the condition holds. -/
theorem told_iff (hcode : code < 2 ^ 16) (hreason : reason.length ≤ 123) :
    (code = closeTold mask (closePayload code reason) ∧
      (closeMask mask (closePayload code reason)).apply (closeTail mask (closePayload code reason)) = reason) ↔
    ((code = WEBSOCKET_CODE_NOT_SET ∧ reason = []) ∨
      (reason ≠ [] ∧ ∀ m, mask = some m → m.b0 = 0 ∧ m.b1 = 0 ∧
        (reason.length ≤ 2 ∨ code < 256) ∧ (reason.length ≤ 3 ∨ code % 256 = 0))) := by
  by_cases hempty : code = WEBSOCKET_CODE_NOT_SET ∧ reason = []
  · obtain ⟨rfl, rfl⟩ := hempty
    have hpayload : closePayload WEBSOCKET_CODE_NOT_SET [] = [] := rfl
    rw [hpayload]
    refine iff_of_true ⟨?_, ?_⟩ (.inl ⟨rfl, rfl⟩)
    · rw [closeTold, closeCode]
      exact (if_pos rfl).symm
    · rw [closeTail, Heading.unmasked]
      cases mask <;> rfl
  · have hpayload : closePayload code reason =
        UInt8.ofNat (code / 256 % 256) :: UInt8.ofNat (code % 256) :: reason := if_neg hempty
    obtain ⟨hhigh, hlow⟩ := code_bytes hcode
    rw [hpayload, or_iff_right hempty]
    by_cases hnil : reason = []
    · subst hnil
      rw [closeTold_none]
      exact iff_of_false (fun h => hempty ⟨h.1, rfl⟩) fun h => h.1 rfl
    · cases mask with
      | none =>
        have hhead : closeHead none (UInt8.ofNat (code / 256 % 256) :: UInt8.ofNat (code % 256) :: reason) =
            [UInt8.ofNat (code / 256 % 256), UInt8.ofNat (code % 256)] := rfl
        have htail : closeTail none (UInt8.ofNat (code / 256 % 256) :: UInt8.ofNat (code % 256) :: reason) =
            reason := rfl
        rw [closeTold_eq hhead hnil, closeMask_none, htail, hhigh, hlow, ← unmaskBytes_apply, unmaskBytes_zero]
        exact iff_of_true ⟨by omega, rfl⟩ ⟨hnil, fun m hm => absurd hm (Option.some_ne_none m).symm⟩
      | some m =>
        rw [closeTold_eq closeHead_some hnil, told_some hcode, closeMask_some hreason, closeTail_some, apply_tail]
        have hk0 : UInt8.ofNat (code / 256 % 256) = 0 ↔ code < 256 := by
          rw [← UInt8.toNat_inj, hhigh, UInt8.toNat_zero]
          omega
        have hk1 : UInt8.ofNat (code % 256) = 0 ↔ code % 256 = 0 := by
          rw [← UInt8.toNat_inj, hlow, UInt8.toNat_zero]
        constructor
        · rintro ⟨⟨hb0, hb1⟩, h⟩
          rw [hb0, hb1, UInt8.xor_zero, UInt8.xor_zero, at_shifted hb0 hb1, hk0, hk1] at h
          refine ⟨hnil, ?_⟩
          rintro _ ⟨⟩
          exact ⟨hb0, hb1, h⟩
        · rintro ⟨-, h⟩
          obtain ⟨hb0, hb1, hbytes⟩ := h m rfl
          rw [hb0, hb1, UInt8.xor_zero, UInt8.xor_zero, at_shifted hb0 hb1, hk0, hk1]
          exact ⟨⟨rfl, rfl⟩, hbytes⟩

variable (mask) in
private theorem reportsClose_iff_kept (hcode : code < 2 ^ 16) (hreason : reason.length ≤ 123)
    (hready : s.Ready) (hstream : s.stream = closeFrame mask (closePayload code reason) ++ rest) :
    ReportsClose e s code reason rest ↔ CloseKept e.maxlength code reason mask := by
  obtain ⟨hlen, hone, hsub⟩ := length_closePayload code hreason
  rw [reportsClose_iff hready hstream hlen hone, hsub, told_iff hcode hreason]
  rfl

end

/-- A close frame, as websock_close makes it or masked, is told as it was sent exactly under
the condition. -/
theorem close_told_iff (e : Env) (code : Nat) (hcode : code < 2 ^ 16) (reason : Bytes)
    (hreason : reason.length ≤ 123) :
    websockClose code reason = [.sent (closeFrame none (closePayload code reason))] ∧
      ∀ (mask : Option Mask) (s : Conn) (rest : Bytes), s.Ready →
        s.stream = closeFrame mask (closePayload code reason) ++ rest →
        (ReportsClose e s code reason rest ↔ CloseKept e.maxlength code reason mask) := by
  refine ⟨?_, fun mask s rest hready hstream => reportsClose_iff_kept mask hcode hreason hready hstream⟩
  rw [closeFrame_none]
  exact websockClose_eq hreason

private def closeEnv : Env := ⟨true, true, true, true, true, 1048500, 0, 0⟩

/-- Code 1000 with the reason "bye", as sent. -/
theorem close_told_iff_sample :
    ReportsClose closeEnv (Conn.start [0x88, 5, 0x03, 0xE8, 0x62, 0x79, 0x65] [] false) 1000
      [0x62, 0x79, 0x65] [] := by
  refine ((close_told_iff closeEnv 1000 (by decide) [0x62, 0x79, 0x65] (by decide)).2 none
    (Conn.start [0x88, 5, 0x03, 0xE8, 0x62, 0x79, 0x65] [] false) [] (.inl rfl) (by decide)).mpr ?_
  exact ⟨by decide, .inr ⟨by decide, fun m hm => nomatch hm⟩⟩

/-- Code 1000 without a reason as it is sent, and code 1000 with the reason "bye" masked. -/
theorem close_told_otherwise :
    ¬ ReportsClose closeEnv (Conn.start (closeFrame none (closePayload 1000 [])) [] false) 1000 [] [] ∧
      ¬ ReportsClose closeEnv (Conn.start (closeFrame (some ⟨0x37, 0xFA, 0x21, 0x3D⟩)
        (closePayload 1000 [0x62, 0x79, 0x65])) [] false) 1000 [0x62, 0x79, 0x65] [] := by
  constructor
  · rw [reportsClose_iff_kept none (by decide) (by decide) (.inl rfl) rfl]
    rintro ⟨-, ⟨hcode, -⟩ | ⟨hne, -⟩⟩
    · exact absurd hcode (by decide)
    · exact hne rfl
  · rw [reportsClose_iff_kept (some ⟨0x37, 0xFA, 0x21, 0x3D⟩) (by decide) (by decide) (.inl rfl) rfl]
    rintro ⟨-, ⟨hcode, -⟩ | ⟨-, hmask⟩⟩
    · exact absurd hcode (by decide)
    · exact absurd (hmask _ rfl).1 (by decide)

end AfbBinder.Websock
