import AfbBinder.Lib.Runs
import Mathlib.Data.List.Nodup
import Mathlib.Logic.Function.Basic

/-! The pending calls of a client: afb_proto_ws_client_call, the jobs of client_on_reply and
on_hangup as threads over one list, with a step for each block under the mutex, atomic
exchange, callback and free. The records are numbered in the order of their allocation, so
that a number is never used again; the request of a call has the number of its record. -/
namespace AfbBinder.ProtoWs.Calls
open Lib.Runs

/-- Where a call of afb_proto_ws_client_call is. -/
inductive Caller where
  | idle
  | registered
  | built
  | clean
  | unlinked
  | failed
  | sent
  deriving DecidableEq, Repr

/-- Where the job of the reply to a call is, with the record that it holds. -/
inductive Job where
  | unanswered
  | queued
  | found (call : Nat)
  | told (call : Nat)
  | unlinked (call : Nat)
  | done
  deriving DecidableEq, Repr

/-- Where the hangup is: the websocket is disconnected before on_hangup is called, which
takes the list and then tells and frees the calls one by one. -/
inductive Hangup where
  | connected
  | disconnected
  | taken (current : Option Nat) (ncall : List Nat)
  deriving DecidableEq, Repr

structure Record where
  addr : Nat
  callid : UInt32
  deriving DecidableEq, Repr

/-- The proto of a client. replies has the requests given to on_reply, misuse tells that a
record was used or freed after it was freed. -/
structure Client where
  calls : List Nat
  record : Nat → Record
  live : Nat → Bool
  caller : Nat → Caller
  job : Nat → Job
  hangup : Hangup
  next : Nat
  replies : List Nat
  misuse : Bool

namespace Client

def start : Client where
  calls := []
  record _ := ⟨0, 0⟩
  live _ := false
  caller _ := .idle
  job _ := .unanswered
  hangup := .connected
  next := 0
  replies := []
  misuse := false

variable (s : Client)

def use (ks : List Nat) : Client := { s with misuse := s.misuse || ks.any fun k => !s.live k }

def free (k : Nat) : Client :=
  { s.use [k] with live := Function.update s.live k false }

def setCaller (k : Nat) (c : Caller) : Client := { s with caller := Function.update s.caller k c }

def setJob (k : Nat) (j : Job) : Client := { s with job := Function.update s.job k j }

def onReply (k : Nat) : Client := { s.use [k] with replies := s.replies ++ [k] }

end Client

/-- The number made of the address of a record. -/
def ptr2id (addr : Nat) : UInt32 := UInt32.ofNat (addr >>> 6)

def clientCallSearchLocked (s : Client) (callid : UInt32) : Option Nat :=
  s.calls.find? fun k => (s.record k).callid = callid

/-- The first callid that is not used, from the one of the address on. -/
def newCallid (s : Client) (addr : Nat) : Option UInt32 :=
  ((List.range (s.calls.length + 1)).map fun i => ptr2id addr + UInt32.ofNat i).find?
    fun callid => (clientCallSearchLocked s callid).isNone

/-- The block under the mutex of client_call_destroy. -/
def clientCallUnlink (s : Client) (k : Nat) : Client :=
  { s.use (k :: s.calls) with calls := s.calls.erase k }

inductive Action where
  | register (addr : Nat)
  | build (k : Nat) (ok : Bool)
  | send (k : Nat) (ok : Bool)
  | unlink (k : Nat)
  | free (k : Nat)
  | answer (k : Nat)
  | search (k : Nat)
  | replyCallback (k : Nat)
  | replyUnlink (k : Nat)
  | replyFree (k : Nat)
  | disconnect
  | exchange
  | hangupCallback
  | hangupFree
  deriving DecidableEq, Repr

/-- malloc gives memory that is not in use. -/
def available (s : Client) (addr : Nat) : Bool :=
  (List.range s.next).all fun k => !s.live k || (s.record k).addr != addr

def step (s : Client) : Action → Option Client
  | .register addr =>
    if available s addr then
      (newCallid s addr).map fun callid =>
        { (s.use s.calls).setCaller s.next .registered with
          calls := s.next :: s.calls
          record := Function.update s.record s.next ⟨addr, callid⟩
          live := Function.update s.live s.next true
          next := s.next + 1 }
    else none
  | .build k ok =>
    if s.caller k = .registered then
      some ((s.use [k]).setCaller k (if ok then .built else .clean))
    else none
  | .send k ok =>
    if s.caller k = .built then
      -- without websocket the message is refused, else its writing may fail
      some (s.setCaller k (if s.hangup = .connected ∧ ok then .sent else .clean))
    else none
  | .unlink k =>
    if s.caller k = .clean then some ((clientCallUnlink s k).setCaller k .unlinked) else none
  | .free k =>
    if s.caller k = .unlinked then some ((s.free k).setCaller k .failed) else none
  | .answer k =>
    -- the server answers once to a call it received
    if s.caller k = .sent ∧ s.job k = .unanswered ∧ s.hangup = .connected then
      some (s.setJob k .queued)
    else none
  | .search k =>
    if s.job k = .queued then
      some ((s.use s.calls).setJob k
        (match clientCallSearchLocked s (s.record k).callid with
          | some call => .found call
          | none => .done))
    else none
  | .replyCallback k =>
    match s.job k with
    | .found call => some ((s.onReply call).setJob k (.told call))
    | _ => none
  | .replyUnlink k =>
    match s.job k with
    | .told call => some ((clientCallUnlink s call).setJob k (.unlinked call))
    | _ => none
  | .replyFree k =>
    match s.job k with
    | .unlinked call => some ((s.free call).setJob k .done)
    | _ => none
  | .disconnect => if s.hangup = .connected then some { s with hangup := .disconnected } else none
  | .exchange =>
    if s.hangup = .disconnected then some { s with hangup := .taken none s.calls, calls := [] }
    else none
  | .hangupCallback =>
    match s.hangup with
    | .taken none (k :: ncall) => some { s.onReply k with hangup := .taken (some k) ncall }
    | _ => none
  | .hangupFree =>
    match s.hangup with
    | .taken (some k) ncall => some { s.free k with hangup := .taken none ncall }
    | _ => none

/-- The calls that on_hangup has still to tell. -/
def Hangup.waiting : Hangup → List Nat
  | taken _ ncall => ncall
  | _ => []

/-- Each call has one outcome: it fails and its request gets no reply, or it succeeds and
its request gets one reply, at the latest when the reply or the hangup is processed. No
record is used after it is freed. -/
structure OneOutcome (s : Client) : Prop where
  failed : ∀ k, s.caller k = .failed → s.replies.count k = 0
  succeeds : ∀ k ∈ s.replies, s.caller k = .sent
  once : ∀ k, s.replies.count k ≤ 1
  replied : ∀ k, s.job k = .done → s.replies.count k = 1 ∨ k ∈ s.hangup.waiting
  hungup : s.hangup = .taken none [] → ∀ k, s.caller k = .sent → s.replies.count k = 1
  memory : s.misuse = false

/-- What keeps the threads apart: the list is taken when each call in it is sent and held by
no job of reply, and a job of reply finds only calls that are sent. -/
def Apart (s : Client) : Action → Prop
  | .exchange => ∀ k ∈ s.calls, s.caller k = .sent ∧
      ∀ j < s.next, s.job j ≠ .found k ∧ s.job j ≠ .told k
  | .search k => ∀ call ∈ clientCallSearchLocked s (s.record k).callid, s.caller call = .sent
  | _ => True

instance decidableApart (s : Client) : ∀ a, Decidable (Apart s a)
  | .exchange => inferInstanceAs (Decidable (∀ k ∈ s.calls, s.caller k = .sent ∧
      ∀ j < s.next, s.job j ≠ .found k ∧ s.job j ≠ .told k))
  | .search k => inferInstanceAs (Decidable (∀ call ∈ clientCallSearchLocked s (s.record k).callid,
      s.caller call = .sent))
  | .register _ | .build _ _ | .send _ _ | .unlink _ | .free _ | .answer _ | .replyCallback _
  | .replyUnlink _ | .replyFree _ | .disconnect | .hangupCallback | .hangupFree => isTrue trivial

end AfbBinder.ProtoWs.Calls
