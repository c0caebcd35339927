import AfbBinder.Connections.Model

/-! How many times a connection drops the reference it was given on its fdev. afb_ws drops
it once; the structures that keep the pointer beside afb_ws drop it again. -/
namespace AfbBinder.Connections
open Lib.Runs

/-- The constructor and the allocations for which one layer only drops the reference. -/
def ConsumesOnce (layer : Layer) (a : Allocs) : Prop :=
  match layer with
  | .ws => True
  | .proto => a.proto ∧ ¬ (a.ws ∧ a.websock)
  | .stubClient => ¬ (a.stub ∧ a.proto)
  | .stubServer => ¬ (a.stub ∧ a.proto)
  | .wsj1 => a.wsj1 ∧ a.tokener → a.ws ∧ a.websock
  | .json1 => a.json1 ∧ a.session → (a.wsj1 ∧ a.tokener) ∧ (a.ws ∧ a.websock) ∧ a.listener

/-- The connection itself called fdev_unref n times, kept being what the others hold. -/
def Called (f : Fdev) (kept n : Nat) : Prop := f.unrefs + kept = f.addrefs + n

/-- The fdev counts the references of the others and n of the connection. -/
structure Backed (others : Nat) (autoclose : Bool) (f : Fdev) (kept n : Nat) : Prop where
  refcount : f.refcount = 2 * (others + kept + n) + autoclose.toNat
  freed : f.freed = true ↔ others + kept + n = 0
  late : f.late = 0

/-- The accounts of a connection that calls fdev_unref k times when its websock goes. -/
structure Ledger (others : Nat) (autoclose : Bool) (k : Nat) (f : Fdev) (kept : Nat)
    (connected : Bool) : Prop where
  called : Called f kept (if connected then 0 else k)
  backed : k = 1 → Backed others autoclose f kept (if connected then 1 else 0)

section
variable {others : Nat} {autoclose : Bool} {f : Fdev} {kept n k : Nat} {c : Conn}

private theorem called_unref (h : Called f kept n) : Called (fdevUnref f) kept (n + 1) := by
  unfold Called fdevUnref at *
  split
  · simp only
    omega
  · simp only
    omega

private theorem autoclose_le (b : Bool) : b.toNat ≤ 1 := by
  cases b with
  | false => exact Nat.zero_le 1
  | true => exact Nat.le_refl 1

/-- A reference is left, so the fdev is not freed yet. -/
theorem backed_unref (h : Backed others autoclose f kept (n + 1)) :
    Backed others autoclose (fdevUnref f) kept n := by
  have hf : f.freed = false := by
    rw [← Bool.not_eq_true, h.freed]
    omega
  have hr := h.refcount
  have hb := autoclose_le autoclose
  refine ⟨?_, ?_, ?_⟩
  · simp only [fdevUnref, hf, Bool.false_eq_true, if_false]
    omega
  · simp only [fdevUnref, hf, Bool.false_eq_true, if_false, decide_eq_true_eq]
    omega
  · simp only [fdevUnref, hf, Bool.false_eq_true, if_false]
    exact h.late

private theorem Ledger.unref (h : Ledger others autoclose 1 f kept true) :
    Ledger others autoclose 1 (fdevUnref f) kept false :=
  ⟨called_unref h.called, fun _ => backed_unref (h.backed rfl)⟩

/-- Another user of the fdev takes a reference, which the connection does not see. -/
theorem Ledger.taken {connected : Bool} (h : Ledger others autoclose k f kept connected)
    (hf : f.freed = false) : Ledger others autoclose k (fdevAddref f) (kept + 1) connected := by
  have hc := h.called
  refine ⟨?_, fun hk => ?_⟩
  · unfold Called fdevAddref at *
    simp only
    omega
  · have hb := h.backed hk
    have hr := hb.refcount
    refine ⟨?_, ?_, hb.late⟩
    · simp only [fdevAddref]
      omega
    · simp only [fdevAddref, hf, Bool.false_eq_true, false_iff]
      omega

private theorem Ledger.dropped {connected : Bool} (h : Ledger others autoclose k f kept connected)
    (hk : 0 < kept) : Ledger others autoclose k (fdevUnref f) (kept - 1) connected := by
  obtain ⟨m, rfl⟩ : ∃ m, kept = m + 1 := ⟨kept - 1, by omega⟩
  have hc := called_unref h.called
  refine ⟨?_, fun hone => ?_⟩
  · unfold Called at *
    omega
  · have hb := h.backed hone
    refine backed_unref ⟨?_, ?_, hb.late⟩
    · rw [hb.refcount]
      omega
    · rw [hb.freed]
      omega

/-- A connection where afb_ws alone has the pointer. -/
structure Once (others : Nat) (autoclose : Bool) (c : Conn) : Prop where
  ledger : Ledger others autoclose 1 c.fdev c.kept c.connected
  layer : c.layer = .ws ∨ c.layer = .wsj1 ∨ c.layer = .json1
  wired : c.connected = true → c.ws = true
  proto : c.protoRefs = 0
  stub : c.stubRefs = 0

private theorem once_unref (h : Once others autoclose c) (hc : c.connected = true) :
    Once others autoclose { c with connected := false }.unref :=
  ⟨Ledger.unref (hc ▸ h.ledger), h.layer, by rintro ⟨⟩, h.proto, h.stub⟩

private theorem once_destroy (h : Once others autoclose c) :
    Once others autoclose (afbWsDestroy c) := by
  unfold afbWsDestroy awsDisconnect
  split
  · rename_i hc
    have hu := once_unref h hc
    exact ⟨hu.ledger, hu.layer, by rintro ⟨⟩, hu.proto, hu.stub⟩
  · rename_i hc
    exact ⟨h.ledger, h.layer, fun hf => absurd hf hc, h.proto, h.stub⟩

private theorem once_wsj1Unref (h : Once others autoclose c) :
    Once others autoclose (afbWsj1Unref c) := by
  unfold afbWsj1Unref
  split
  · exact h
  · exact once_destroy ⟨h.ledger, h.layer, h.wired, h.proto, h.stub⟩
  · exact ⟨h.ledger, h.layer, h.wired, h.proto, h.stub⟩

private theorem once_json1Unref (h : Once others autoclose c) :
    Once others autoclose (afbWsJson1Unref c) := by
  unfold afbWsJson1Unref
  split
  · exact h
  · exact once_wsj1Unref ⟨h.ledger, h.layer, h.wired, h.proto, h.stub⟩
  · exact ⟨h.ledger, h.layer, h.wired, h.proto, h.stub⟩

private theorem once_onHangup (hangup : Conn → Conn) (release : Bool)
    (h : Once others autoclose c) : Once others autoclose (onHangup hangup release c) := by
  unfold onHangup
  rcases h.layer with hl | hl | hl <;> rw [hl]
  · cases release with
    | true => exact once_destroy h
    | false => exact h
  · cases release with
    | true => exact once_wsj1Unref h
    | false => exact h
  · exact once_json1Unref h

private theorem once_hangup (release : Bool) (fuel : Nat) (h : Once others autoclose c) :
    Once others autoclose (afbWsHangup release fuel c) := by
  cases fuel with
  | zero => exact h
  | succ fuel =>
    rw [afbWsHangup, awsDisconnect]
    split
    · rename_i hc
      exact once_onHangup _ release (once_unref h hc)
    · exact h

/-- A connection where afb_proto_ws keeps the pointer too: both drop it at the hangup. -/
structure Twice (others : Nat) (autoclose : Bool) (c : Conn) : Prop where
  ledger : Ledger others autoclose 2 c.fdev c.kept c.connected
  layer : c.layer = .proto ∨ c.layer = .stubClient ∨ c.layer = .stubServer
  wired : c.connected = true → c.ws = true
  fdev : c.protoFdev = c.connected
  wsj1 : c.wsj1Refs = 0
  json1 : c.json1Refs = 0

/-- Once the websock is gone nothing is left to drop. -/
def Quiet (others : Nat) (autoclose : Bool) (c : Conn) : Prop :=
  Twice others autoclose c ∧ c.connected = false

section
variable {hangup : Conn → Conn} (hid : ∀ c : Conn, c.connected = false → hangup c = c)
include hid

private theorem quiet_protoUnref (h : Quiet others autoclose c) :
    Quiet others autoclose (afbProtoWsUnref hangup c) := by
  obtain ⟨h, hc⟩ := h
  unfold afbProtoWsUnref
  split
  · exact ⟨h, hc⟩
  · rw [hid { c with protoRefs := 0 } hc, afbWsDestroy, awsDisconnect]
    simp only [hc, Bool.false_eq_true, if_false]
    exact ⟨⟨hc ▸ h.ledger, h.layer, by rintro ⟨⟩, h.fdev.trans hc, h.wsj1, h.json1⟩, rfl⟩
  · exact ⟨⟨h.ledger, h.layer, h.wired, h.fdev, h.wsj1, h.json1⟩, hc⟩

private theorem quiet_disconnect (h : Quiet others autoclose c) :
    Quiet others autoclose (disconnect hangup c) := by
  unfold disconnect
  split
  · exact quiet_protoUnref hid
      ⟨⟨h.1.ledger, h.1.layer, h.1.wired, h.1.fdev, h.1.wsj1, h.1.json1⟩, h.2⟩
  · exact h

private theorem quiet_stubUnref (h : Quiet others autoclose c) :
    Quiet others autoclose (afbStubWsUnref hangup c) := by
  unfold afbStubWsUnref
  split
  · exact h
  · exact quiet_disconnect hid
      ⟨⟨h.1.ledger, h.1.layer, h.1.wired, h.1.fdev, h.1.wsj1, h.1.json1⟩, h.2⟩
  · exact ⟨⟨h.1.ledger, h.1.layer, h.1.wired, h.1.fdev, h.1.wsj1, h.1.json1⟩, h.2⟩

private theorem quiet_stubOnHangup (release : Bool) (h : Quiet others autoclose c) :
    Quiet others autoclose (stubOnHangup hangup release c) := by
  unfold stubOnHangup
  split
  · have hd := quiet_disconnect (c := { c with stubRefs := c.stubRefs + 1 }) hid
      ⟨⟨h.1.ledger, h.1.layer, h.1.wired, h.1.fdev, h.1.wsj1, h.1.json1⟩, h.2⟩
    cases release with
    | true => exact quiet_stubUnref hid (quiet_stubUnref hid hd)
    | false => exact quiet_stubUnref hid hd
  · exact h

private theorem quiet_onHangup (release : Bool)
    (hl : c.layer = .proto ∨ c.layer = .stubClient ∨ c.layer = .stubServer)
    (hf : c.protoFdev = true) (h : Quiet others autoclose { c.unref with protoFdev := false }) :
    Quiet others autoclose (onHangup hangup release c) := by
  unfold onHangup
  rcases hl with hl | hl | hl <;> simp only [hl, protoOnHangup, hf, if_true]
  · cases release with
    | true => exact quiet_protoUnref hid h
    | false => exact h
  · exact quiet_stubOnHangup hid release h
  · exact quiet_stubOnHangup hid release h

end

private theorem hangup_gone (release : Bool) (fuel : Nat) (c : Conn) (hc : c.connected = false) :
    afbWsHangup release fuel c = c := by
  cases fuel with
  | zero => rfl
  | succ fuel => simp [afbWsHangup, awsDisconnect, hc]

private theorem twice_hangup (release : Bool) (fuel : Nat) (h : Twice others autoclose c) :
    Quiet others autoclose (afbWsHangup release (fuel + 1) c) := by
  rw [afbWsHangup, awsDisconnect]
  split
  swap
  · rename_i hc
    exact ⟨h, Bool.not_eq_true _ ▸ hc⟩
  rename_i hc
  have hcalled := h.ledger.called
  rw [hc] at hcalled
  -- the call of afb_ws, then the one of afb_proto_ws
  refine quiet_onHangup (hangup_gone release fuel) release h.layer (h.fdev.trans hc) ⟨?_, rfl⟩
  exact ⟨⟨called_unref (called_unref hcalled), by rintro ⟨⟩⟩, h.layer, by rintro ⟨⟩, rfl,
    h.wsj1, h.json1⟩

private theorem twice_protoUnref (h : Twice others autoclose c) :
    Twice others autoclose (afbProtoWsUnref afbProtoWsHangup c) := by
  unfold afbProtoWsUnref
  split
  · exact h
  · have hq : Quiet others autoclose (afbProtoWsHangup { c with protoRefs := 0 }) :=
      twice_hangup false 1 ⟨h.ledger, h.layer, h.wired, h.fdev, h.wsj1, h.json1⟩
    generalize afbProtoWsHangup { c with protoRefs := 0 } = d at hq
    obtain ⟨hq, hc⟩ := hq
    simp only [afbWsDestroy, awsDisconnect, hc, Bool.false_eq_true, if_false]
    exact ⟨hc ▸ hq.ledger, hq.layer, by rintro ⟨⟩, hq.fdev.trans hc, hq.wsj1, hq.json1⟩
  · exact ⟨h.ledger, h.layer, h.wired, h.fdev, h.wsj1, h.json1⟩

private theorem twice_stubUnref (h : Twice others autoclose c) :
    Twice others autoclose (afbStubWsUnref afbProtoWsHangup c) := by
  unfold afbStubWsUnref disconnect
  split
  · exact h
  · split
    · exact twice_protoUnref ⟨h.ledger, h.layer, h.wired, h.fdev, h.wsj1, h.json1⟩
    · exact ⟨h.ledger, h.layer, h.wired, h.fdev, h.wsj1, h.json1⟩
  · exact ⟨h.ledger, h.layer, h.wired, h.fdev, h.wsj1, h.json1⟩

/-- A constructor that failed, after k calls of fdev_unref. -/
structure Gone (others : Nat) (autoclose : Bool) (k : Nat) (c : Conn) : Prop where
  ledger : Ledger others autoclose k c.fdev c.kept c.connected
  connected : c.connected = false
  ws : c.ws = false
  proto : c.protoRefs = 0
  stub : c.stubRefs = 0
  wsj1 : c.wsj1Refs = 0
  json1 : c.json1Refs = 0

/-- What the constructor leaves, and what the calls on the connection keep. -/
inductive Inv (others : Nat) (autoclose : Bool) : Nat → Conn → Prop
  | once {c : Conn} (h : Once others autoclose c) : Inv others autoclose 1 c
  | twice {c : Conn} (h : Twice others autoclose c) : Inv others autoclose 2 c
  | gone {k : Nat} {c : Conn} (h : Gone others autoclose k c) : Inv others autoclose k c

private theorem once_step {d : Conn} {op : Op} (h : Once others autoclose c)
    (hs : step c op = some d) : Once others autoclose d := by
  cases op with
  | hangup release =>
    obtain ⟨-, rfl⟩ := Option.ite_some_none_eq_some.mp hs
    exact once_hangup release 2 h
  | wsDestroy =>
    obtain ⟨-, rfl⟩ := Option.ite_some_none_eq_some.mp hs
    exact once_destroy h
  | protoAddref =>
    obtain ⟨hp, -⟩ := Option.ite_some_none_eq_some.mp hs
    exact absurd h.proto (Nat.ne_of_gt hp)
  | protoUnref =>
    obtain ⟨hp, -⟩ := Option.ite_some_none_eq_some.mp hs
    exact absurd h.proto (Nat.ne_of_gt hp)
  | stubAddref =>
    obtain ⟨hp, -⟩ := Option.ite_some_none_eq_some.mp hs
    exact absurd h.stub (Nat.ne_of_gt hp)
  | stubUnref =>
    obtain ⟨hp, -⟩ := Option.ite_some_none_eq_some.mp hs
    exact absurd h.stub (Nat.ne_of_gt hp)
  | wsj1Addref =>
    obtain ⟨-, rfl⟩ := Option.ite_some_none_eq_some.mp hs
    exact ⟨h.ledger, h.layer, h.wired, h.proto, h.stub⟩
  | wsj1Unref =>
    obtain ⟨-, rfl⟩ := Option.ite_some_none_eq_some.mp hs
    exact once_wsj1Unref h
  | json1Addref =>
    obtain ⟨-, rfl⟩ := Option.ite_some_none_eq_some.mp hs
    exact ⟨h.ledger, h.layer, h.wired, h.proto, h.stub⟩
  | json1Unref =>
    obtain ⟨-, rfl⟩ := Option.ite_some_none_eq_some.mp hs
    exact once_json1Unref h
  | fdevAddref =>
    obtain ⟨hf, hs⟩ := Option.ite_none_left_eq_some.mp hs
    cases hs
    exact ⟨h.ledger.taken (Bool.not_eq_true _ ▸ hf), h.layer, h.wired, h.proto, h.stub⟩
  | fdevUnref =>
    obtain ⟨hk, rfl⟩ := Option.ite_some_none_eq_some.mp hs
    exact ⟨h.ledger.dropped hk, h.layer, h.wired, h.proto, h.stub⟩

private theorem twice_step {d : Conn} {op : Op} (h : Twice others autoclose c)
    (hs : step c op = some d) : Twice others autoclose d := by
  cases op with
  | hangup release =>
    obtain ⟨-, rfl⟩ := Option.ite_some_none_eq_some.mp hs
    exact (twice_hangup release 1 h).1
  | wsDestroy =>
    obtain ⟨hw, -⟩ := Option.ite_some_none_eq_some.mp hs
    rcases h.layer with hl | hl | hl <;> rw [hl] at hw <;> cases hw.1
  | protoAddref =>
    obtain ⟨-, rfl⟩ := Option.ite_some_none_eq_some.mp hs
    exact ⟨h.ledger, h.layer, h.wired, h.fdev, h.wsj1, h.json1⟩
  | protoUnref =>
    obtain ⟨-, rfl⟩ := Option.ite_some_none_eq_some.mp hs
    exact twice_protoUnref h
  | stubAddref =>
    obtain ⟨-, rfl⟩ := Option.ite_some_none_eq_some.mp hs
    exact ⟨h.ledger, h.layer, h.wired, h.fdev, h.wsj1, h.json1⟩
  | stubUnref =>
    obtain ⟨-, rfl⟩ := Option.ite_some_none_eq_some.mp hs
    exact twice_stubUnref h
  | wsj1Addref =>
    obtain ⟨hp, -⟩ := Option.ite_some_none_eq_some.mp hs
    exact absurd h.wsj1 (Nat.ne_of_gt hp)
  | wsj1Unref =>
    obtain ⟨hp, -⟩ := Option.ite_some_none_eq_some.mp hs
    exact absurd h.wsj1 (Nat.ne_of_gt hp)
  | json1Addref =>
    obtain ⟨hp, -⟩ := Option.ite_some_none_eq_some.mp hs
    exact absurd h.json1 (Nat.ne_of_gt hp)
  | json1Unref =>
    obtain ⟨hp, -⟩ := Option.ite_some_none_eq_some.mp hs
    exact absurd h.json1 (Nat.ne_of_gt hp)
  | fdevAddref =>
    obtain ⟨hf, hs⟩ := Option.ite_none_left_eq_some.mp hs
    cases hs
    exact ⟨h.ledger.taken (Bool.not_eq_true _ ▸ hf), h.layer, h.wired, h.fdev, h.wsj1, h.json1⟩
  | fdevUnref =>
    obtain ⟨hk, rfl⟩ := Option.ite_some_none_eq_some.mp hs
    exact ⟨h.ledger.dropped hk, h.layer, h.wired, h.fdev, h.wsj1, h.json1⟩

private theorem gone_step {d : Conn} {op : Op} (h : Gone others autoclose k c)
    (hs : step c op = some d) : Gone others autoclose k d := by
  cases op with
  | fdevAddref =>
    obtain ⟨hf, hs⟩ := Option.ite_none_left_eq_some.mp hs
    cases hs
    exact ⟨h.ledger.taken (Bool.not_eq_true _ ▸ hf), h.connected, h.ws, h.proto, h.stub, h.wsj1,
      h.json1⟩
  | fdevUnref =>
    obtain ⟨hk, rfl⟩ := Option.ite_some_none_eq_some.mp hs
    exact ⟨h.ledger.dropped hk, h.connected, h.ws, h.proto, h.stub, h.wsj1, h.json1⟩
  | _ => simp [step, h.ws, h.proto, h.stub, h.wsj1, h.json1] at hs

private theorem inv_step {d : Conn} {op : Op} (h : Inv others autoclose k c)
    (hs : step c op = some d) : Inv others autoclose k d := by
  cases h with
  | once h => exact .once (once_step h hs)
  | twice h => exact .twice (twice_step h hs)
  | gone h => exact .gone (gone_step h hs)

private theorem ledger_given (others : Nat) (autoclose : Bool) (k : Nat) :
    Ledger others autoclose k (given others autoclose) 0 true :=
  ⟨rfl, fun _ => ⟨rfl, by simp [given], rfl⟩⟩

private theorem ledger_twice (others : Nat) (autoclose : Bool) :
    Ledger others autoclose 2 (fdevUnref (fdevUnref (given others autoclose))) 0 false :=
  ⟨called_unref (called_unref (ledger_given others autoclose 2).called), by rintro ⟨⟩⟩

private theorem ledger_thrice (others : Nat) (autoclose : Bool) :
    Ledger others autoclose 3 (fdevUnref (fdevUnref (fdevUnref (given others autoclose)))) 0
      false :=
  ⟨called_unref (ledger_twice others autoclose).called, by rintro ⟨⟩⟩

private theorem gone_start {layer : Layer} {f : Fdev} (h : Ledger others autoclose k f 0 false) :
    Inv others autoclose k (Conn.start layer f) :=
  .gone ⟨h, rfl, rfl, rfl, rfl, rfl, rfl⟩

private theorem twice_start {layer : Layer} (stubRefs : Nat) (stubProto : Bool)
    (hl : layer = .proto ∨ layer = .stubClient ∨ layer = .stubServer) :
    Twice others autoclose { Conn.start layer (given others autoclose) with
      ws := true, connected := true, protoRefs := 1, protoFdev := true, stubRefs, stubProto } :=
  ⟨ledger_given others autoclose 2, hl, fun _ => rfl, rfl, rfl, rfl⟩

private theorem inv_stubCreate (others : Nat) (autoclose : Bool) (layer : Layer) (a : Allocs)
    (hl : layer = .stubClient ∨ layer = .stubServer) :
    ∃ k, (k = 1 ↔ ¬ (a.stub ∧ a.proto)) ∧
      Inv others autoclose k (afbStubWsCreate a (Conn.start layer (given others autoclose))).2 ∧
      ((afbStubWsCreate a (Conn.start layer (given others autoclose))).1 = true →
        k = 2 ∧ Twice others autoclose
          (afbStubWsCreate a (Conn.start layer (given others autoclose))).2) := by
  have hone := (ledger_given others autoclose 1).unref
  unfold afbStubWsCreate afbProtoWsCreate afbWsCreate
  cases a.stub with
  | false => exact ⟨1, by simp, gone_start hone, by rintro ⟨⟩⟩
  | true =>
    cases a.proto with
    | false => exact ⟨1, by simp, gone_start hone, by rintro ⟨⟩⟩
    | true =>
      refine ⟨2, by simp, ?_⟩
      by_cases hws : a.ws = true ∧ a.websock = true
      · simp only [if_pos hws, if_true]
        have ht : Twice others autoclose _ := twice_start 1 true (.inr hl)
        exact ⟨.twice ht, fun _ => ⟨trivial, ht⟩⟩
      · simp only [if_neg hws, if_true]
        exact ⟨gone_start (ledger_twice others autoclose), by rintro ⟨⟩⟩

/-- What each constructor leaves: it drops the reference on failure, afb_proto_ws apart,
whatever the structure under it has done. -/
theorem inv_construct (others : Nat) (autoclose : Bool) (layer : Layer) (a : Allocs) :
    ∃ k, (k = 1 ↔ ConsumesOnce layer a) ∧
      Inv others autoclose k (construct layer a (given others autoclose)).2 := by
  have hone := (ledger_given others autoclose 1).unref
  have htwo := ledger_twice others autoclose
  cases layer with
  | ws =>
    refine ⟨1, by simp [ConsumesOnce], ?_⟩
    simp only [construct, afbWsCreate]
    split
    · exact .once ⟨ledger_given others autoclose 1, .inl rfl, fun _ => rfl, rfl, rfl⟩
    · exact gone_start hone
  | proto =>
    simp only [construct, afbProtoWsCreate, afbWsCreate, ConsumesOnce]
    cases a.proto with
    | false => exact ⟨0, by simp, gone_start ⟨rfl, by rintro ⟨⟩⟩⟩
    | true =>
      by_cases hws : a.ws = true ∧ a.websock = true
      · simp only [if_pos hws, if_true]
        exact ⟨2, by simp [hws], .twice (twice_start 0 false (.inl rfl))⟩
      · simp only [if_neg hws, if_true]
        exact ⟨1, by simp [hws], gone_start hone⟩
  | stubClient =>
    obtain ⟨k, hk, hi, -⟩ := inv_stubCreate others autoclose .stubClient a (.inl rfl)
    exact ⟨k, hk, hi⟩
  | stubServer =>
    obtain ⟨k, hk, hi, ht⟩ := inv_stubCreate others autoclose .stubServer a (.inr rfl)
    refine ⟨k, hk, ?_⟩
    simp only [construct, afbStubWsCreateServer]
    split
    · rename_i d hd
      rw [hd] at hi ht
      obtain ⟨rfl, htwice⟩ := ht rfl
      split
      · exact .twice htwice
      · exact .twice (twice_stubUnref htwice)
    · rename_i d hd
      rw [hd] at hi
      exact hi
  | wsj1 =>
    simp only [construct, afbWsj1Create, afbWsCreate, ConsumesOnce]
    by_cases hj : a.wsj1 = true ∧ a.tokener = true
    · by_cases hws : a.ws = true ∧ a.websock = true
      · simp only [if_pos hj, if_pos hws]
        exact ⟨1, by simp [hws],
          .once ⟨ledger_given others autoclose 1, .inr (.inl rfl), fun _ => rfl, rfl, rfl⟩⟩
      · simp only [if_pos hj, if_neg hws]
        exact ⟨2, by simp [hj, hws], gone_start htwo⟩
    · simp only [if_neg hj]
      exact ⟨1, by simp [hj], gone_start hone⟩
  | json1 =>
    simp only [construct, afbWsJson1Create, afbWsj1Create, afbWsCreate, ConsumesOnce]
    by_cases hs : a.json1 = true ∧ a.session = true
    swap
    · simp only [if_neg hs]
      exact ⟨1, by simp [hs], gone_start hone⟩
    by_cases hj : a.wsj1 = true ∧ a.tokener = true
    swap
    · simp only [if_pos hs, if_neg hj]
      exact ⟨2, by simp [hs, hj], gone_start htwo⟩
    by_cases hws : a.ws = true ∧ a.websock = true
    swap
    · simp only [if_pos hs, if_pos hj, if_neg hws]
      exact ⟨3, by simp [hs, hj, hws], gone_start (ledger_thrice others autoclose)⟩
    simp only [if_pos hs, if_pos hj, if_pos hws]
    cases a.listener with
    | true =>
      exact ⟨1, by simp [hj, hws],
        .once ⟨ledger_given others autoclose 1, .inr (.inr rfl), fun _ => rfl, rfl, rfl⟩⟩
    | false => exact ⟨2, by simp [hs], gone_start htwo⟩

/-- When the run is over the connection called fdev_unref k times in all. -/
theorem Inv.over (h : Inv others autoclose k c) (ho : Over c) :
    c.fdev.unrefs = c.fdev.addrefs + k := by
  have hgone : ∀ {d : Conn}, Ledger others autoclose k d.fdev d.kept d.connected →
      d.connected = false → d.kept = 0 → d.fdev.unrefs = d.fdev.addrefs + k := by
    intro d hl hc hk
    have hcalled := hl.called
    rw [hc, hk] at hcalled
    exact hcalled
  have hconn : ∀ {d : Conn}, (d.connected = true → d.ws = true) → d.ws = false →
      d.connected = false := by
    intro d hw hn
    rw [← Bool.not_eq_true]
    exact fun hc => absurd (hw hc) (hn ▸ Bool.false_ne_true)
  cases h with
  | once h => exact hgone h.ledger (hconn h.wired ho.ws) ho.kept
  | twice h => exact hgone h.ledger (hconn h.wired ho.ws) ho.kept
  | gone h => exact hgone h.ledger h.connected ho.kept

private theorem Inv.inTime (h : Inv others autoclose 1 c) : c.fdev.late = 0 := by
  cases h with
  | once h => exact (h.ledger.backed rfl).late
  | gone h => exact (h.ledger.backed rfl).late

end

/-- Whatever the constructor, the allocations that fail and the hangups and releases that
follow, a connection that is over has dropped the reference on its fdev exactly once, and
never after the release of the fdev, if and only if one layer alone drops it. -/
theorem fdev_consumed_iff (layer : Layer) (a : Allocs) (others : Nat) (autoclose : Bool)
    (ops : List Op) (c : Conn)
    (h : exec step (construct layer a (given others autoclose)).2 ops = some c) :
    (ConsumesOnce layer a → c.fdev.late = 0) ∧
      (Over c → (c.fdev.unrefs = 1 + c.fdev.addrefs ∧ c.fdev.late = 0 ↔
        ConsumesOnce layer a)) := by
  obtain ⟨k, hk, hstart⟩ := inv_construct others autoclose layer a
  have hi : Inv others autoclose k c := exec_keeps (fun _ _ _ => inv_step) hstart h
  refine ⟨fun honce => ?_, fun ho => ⟨fun hp => ?_, fun honce => ?_⟩⟩
  · rw [← hk] at honce
    exact Inv.inTime (honce ▸ hi)
  · have hover := hi.over ho
    rw [← hk]
    omega
  · rw [← hk] at honce
    subst honce
    exact ⟨(hi.over ho).trans (Nat.add_comm _ _), hi.inTime⟩

def allAllocs : Allocs := ⟨true, true, true, true, true, true, true, true, true⟩

/-- A peer of afb_ws_json1 hangs up while a request and a message hold it. -/
def sampleLife : List Op := [.json1Addref, .wsj1Addref, .hangup false, .json1Unref, .wsj1Unref]

theorem fdev_consumed_iff_sample :
    ∃ c, exec step (construct .json1 allAllocs (given 0 true)).2 sampleLife = some c ∧ Over c ∧
      c.fdev.unrefs = 1 + c.fdev.addrefs ∧ c.fdev.late = 0 := by
  have hover : Over ⟨.json1, ⟨1, true, 0, 1, 0⟩, 0, false, false, 0, false, 0, false, 0, 0⟩ :=
    ⟨rfl, rfl, rfl, rfl, rfl, rfl⟩
  exact ⟨_, rfl, hover,
    ((fdev_consumed_iff .json1 allAllocs 0 true sampleLife _ rfl).2 hover).mpr
      fun _ => ⟨⟨rfl, rfl⟩, ⟨rfl, rfl⟩, rfl⟩⟩

/-- A client stub is made and released: its fdev is dropped again after its release. -/
theorem stub_drops_twice :
    ∃ c, exec step (construct .stubClient allAllocs (given 0 true)).2 [.stubUnref] = some c ∧
      Over c ∧ c.fdev.unrefs = 2 ∧ c.fdev.addrefs = 0 ∧ c.fdev.late = 1 :=
  ⟨_, rfl, ⟨rfl, rfl, rfl, rfl, rfl, rfl⟩, rfl, rfl, rfl⟩

end AfbBinder.Connections
