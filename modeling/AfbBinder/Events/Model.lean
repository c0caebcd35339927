import Mathlib.Algebra.Group.Int.Defs
import Mathlib.Algebra.Group.Nat.Defs
import Mathlib.Data.List.Basic
import Mathlib.Logic.Function.Basic
import AfbBinder.Lib.Cstrings

/-! Events, listeners and the watches between them: a watch is linked in the list of its
event and in the list of its listener, with the count of its activity. The hooks are
left out. Callbacks of listeners are recorded in the order of the calls. -/
namespace AfbBinder.Events
open Lib.Cstrings

abbrev Evt := Nat
abbrev Lis := Nat
abbrev Wat := Nat

/-- Interface of listeners: which of its callbacks are not NULL. -/
structure Itf where
  push : Bool
  broadcast : Bool
  add : Bool
  remove : Bool
  deriving DecidableEq, Repr

structure Listener where
  itf : Nat
  closure : Nat
  watchs : List Wat
  refcount : Nat
  deriving DecidableEq, Repr

structure Evtid where
  fullname : Bytes
  id : Int
  watchs : List Wat
  refcount : Nat
  deriving DecidableEq, Repr

/-- The activity is an unsigned of 32 bits. -/
structure Watch where
  evtid : Evt
  listener : Lis
  activity : Nat
  deriving DecidableEq, Repr

/-- What a callback about an event is called for: the two parties, the closure of the
listener, the name and the id of the event. -/
structure Target where
  listener : Lis
  evtid : Evt
  closure : Nat
  event : Bytes
  id : Int
  deriving DecidableEq, Repr

/-- Calls of the callbacks of listeners; obj is the json object. -/
inductive Call (J : Type) where
  | add (target : Target)
  | remove (target : Target)
  | push (target : Target) (obj : J)
  | broadcast (listener : Lis) (closure : Nat) (event : Bytes) (id : Int) (obj : J)
  deriving DecidableEq, Repr

inductive Errno where
  | einval
  | enomem
  | enoent
  deriving DecidableEq, Repr

/-- The two global lists, the memory (a freed watch is none), the next free addresses,
the references owned by the users, the additions made for each pair, the calls. -/
structure Store (J : Type) where
  listeners : List Lis
  evtids : List Evt
  eventIdCounter : Int
  eventIdWrapped : Bool
  listener : Lis → Listener
  evtid : Evt → Evtid
  watch : Wat → Option Watch
  nextListener : Lis
  nextEvtid : Evt
  nextWatch : Wat
  ownedEvt : Evt → Nat
  ownedLis : Lis → Nat
  adds : Lis → Evt → Nat
  calls : List (Call J)

variable {J : Type}

def Store.start : Store J where
  listeners := []
  evtids := []
  eventIdCounter := 0
  eventIdWrapped := false
  listener _ := ⟨0, 0, [], 0⟩
  evtid _ := ⟨[], 0, [], 0⟩
  watch _ := none
  nextListener := 0
  nextEvtid := 0
  nextWatch := 0
  ownedEvt _ := 0
  ownedLis _ := 0
  adds _ _ := 0
  calls := []

namespace Store
variable (s : Store J)

def call (l : List (Call J)) : Store J := { s with calls := s.calls ++ l }

def modifyEvtid (e : Evt) (f : Evtid → Evtid) : Store J :=
  { s with evtid := Function.update s.evtid e (f (s.evtid e)) }

def modifyListener (l : Lis) (f : Listener → Listener) : Store J :=
  { s with listener := Function.update s.listener l (f (s.listener l)) }

def setWatch (w : Wat) (x : Option Watch) : Store J :=
  { s with watch := Function.update s.watch w x }

def target (l : Lis) (e : Evt) : Target :=
  ⟨l, e, (s.listener l).closure, (s.evtid e).fullname, (s.evtid e).id⟩

end Store

/-- The interfaces, by address: constant memory of the program. -/
abbrev Itfs := Nat → Itf

/-- The listeners that have the callback, called in the order of their list. -/
def broadcast (itfs : Itfs) (s : Store J) (event : Bytes) (obj : J) (id : Int) : Nat × Store J :=
  let called := s.listeners.filter fun l => (itfs (s.listener l).itf).broadcast
  (called.length,
    s.call (called.map fun l => .broadcast l (s.listener l).closure event id obj))

def afbEvtEvtidBroadcast (itfs : Itfs) (s : Store J) (e : Evt) (obj : J) : Nat × Store J :=
  broadcast itfs s (s.evtid e).fullname obj (s.evtid e).id

/-- The loop over the watches of the event: the calls it makes. -/
def pushes (s : Store J) (e : Evt) (obj : J) : List Wat → List (Call J)
  | [] => []
  | w :: rest =>
    match s.watch w with
    | some watch =>
      if watch.activity ≠ 0 then
        .push (s.target watch.listener e) obj :: pushes s e obj rest
      else pushes s e obj rest
    | none => pushes s e obj rest

def afbEvtEvtidPush (s : Store J) (e : Evt) (obj : J) : Nat × Store J :=
  let called := pushes s e obj (s.evtid e).watchs
  (called.length, s.call called)

def removeWatch (itfs : Itfs) (s : Store J) (w : Wat) : Store J :=
  match s.watch w with
  | some watch =>
    let called := if watch.activity ≠ 0 ∧ (itfs (s.listener watch.listener).itf).remove then
      [.remove (s.target watch.listener watch.evtid)] else []
    (((s.call called).modifyEvtid watch.evtid fun e =>
        { e with watchs := e.watchs.erase w }).modifyListener watch.listener fun l =>
        { l with watchs := l.watchs.erase w }).setWatch w none
  | none => s

/-- Search of an id that no event has, at most fuel times; ids are looked up only once
the counter has wrapped. -/
def nextEventId (ids : List Int) : Nat → Int → Bool → Option (Int × Bool)
  | 0, _, _ => none
  | fuel + 1, counter, wrapped =>
    let wraps := 2 ^ 31 ≤ counter + 1
    let id := if wraps then 1024 else counter + 1
    let wrapped := wrapped || wraps
    if wrapped ∧ id ∈ ids then nextEventId ids fuel id wrapped else some (id, wrapped)

def afbEvtEvtidCreate (s : Store J) (fullname : Bytes) (mem : Bool) :
    Option (Option Evt × Store J) :=
  if mem then
    let ids := s.evtids.map fun e => (s.evtid e).id
    (nextEventId ids (ids.length + 1) s.eventIdCounter s.eventIdWrapped).map fun r =>
      (some s.nextEvtid, { s.modifyEvtid s.nextEvtid fun _ => ⟨fullname, r.1, [], 1⟩ with
        evtids := s.nextEvtid :: s.evtids
        eventIdCounter := r.1
        eventIdWrapped := r.2
        nextEvtid := s.nextEvtid + 1 })
  else some (none, s)

def afbEvtEvtidAddref (s : Store J) (e : Evt) : Store J :=
  s.modifyEvtid e fun x => { x with refcount := x.refcount + 1 }

/-- The last reference unlinks the event and removes its watches from the head on. -/
def afbEvtEvtidUnref (itfs : Itfs) (s : Store J) (e : Evt) : Store J :=
  let s := s.modifyEvtid e fun x => { x with refcount := x.refcount - 1 }
  if (s.evtid e).refcount = 0 ∧ e ∈ s.evtids then
    (s.evtid e).watchs.foldl (removeWatch itfs) { s with evtids := s.evtids.erase e }
  else s

def afbEvtListenerAddref (s : Store J) (l : Lis) : Store J :=
  s.modifyListener l fun x => { x with refcount := x.refcount + 1 }

/-- The listener that has the interface and the closure, or else a new one. -/
def afbEvtListenerCreate (s : Store J) (itf closure : Nat) (mem : Bool) :
    Option Lis × Store J :=
  match s.listeners.find? fun l =>
      (s.listener l).itf = itf ∧ (s.listener l).closure = closure with
  | some l => (some l, afbEvtListenerAddref s l)
  | none =>
    if mem then
      (some s.nextListener, { s.modifyListener s.nextListener fun _ => ⟨itf, closure, [], 1⟩ with
        listeners := s.nextListener :: s.listeners
        nextListener := s.nextListener + 1 })
    else (none, s)

def afbEvtListenerUnref (itfs : Itfs) (s : Store J) (l : Lis) : Store J :=
  let s := s.modifyListener l fun x => { x with refcount := x.refcount - 1 }
  if (s.listener l).refcount = 0 then
    (s.listener l).watchs.foldl (removeWatch itfs) { s with listeners := s.listeners.erase l }
  else s

/-- The watch of the event in the list of the listener. -/
def findWatch (s : Store J) (l : Lis) (e : Evt) : Option Wat :=
  (s.listener l).watchs.find? fun w => (s.watch w).any (·.evtid = e)

/-- End of an addition: the notification when the watch was idle, then the count. -/
def activate (itfs : Itfs) (s : Store J) (w : Wat) : Store J :=
  match s.watch w with
  | some watch =>
    let called := if watch.activity = 0 ∧ (itfs (s.listener watch.listener).itf).add then
      [.add (s.target watch.listener watch.evtid)] else []
    (s.call called).setWatch w (some { watch with activity := (watch.activity + 1) % 2 ^ 32 })
  | none => s

def afbEvtWatchAddEvtid (itfs : Itfs) (s : Store J) (l : Lis) (e : Evt) (mem : Bool) :
    Except Errno (Store J) :=
  if (itfs (s.listener l).itf).push then
    match findWatch s l e with
    | some w => .ok (activate itfs s w)
    | none =>
      if mem then
        let w := s.nextWatch
        let linked := (({ s with nextWatch := w + 1 }.setWatch w (some ⟨e, l, 0⟩)).modifyListener l
          fun x => { x with watchs := w :: x.watchs }).modifyEvtid e
          fun x => { x with watchs := w :: x.watchs }
        .ok (activate itfs linked w)
      else .error .enomem
  else .error .einval

def afbEvtWatchSubEvtid (itfs : Itfs) (s : Store J) (l : Lis) (e : Evt) :
    Except Errno (Store J) :=
  match findWatch s l e with
  | some w =>
    match s.watch w with
    | some watch =>
      if watch.activity ≠ 0 then
        let called := if watch.activity - 1 = 0 ∧ (itfs (s.listener l).itf).remove then
          [.remove (s.target l e)] else []
        .ok ((s.call called).setWatch w (some { watch with activity := watch.activity - 1 }))
      else .ok s
    | none => .ok s
  | none => .error .enoent

/-- The operations of the users; mem tells whether an allocation succeeds. -/
inductive Op (J : Type) where
  | evtidCreate (fullname : Bytes) (mem : Bool)
  | evtidAddref (e : Evt)
  | evtidUnref (e : Evt)
  | listenerCreate (itf closure : Nat) (mem : Bool)
  | listenerAddref (l : Lis)
  | listenerUnref (l : Lis)
  | watchAdd (l : Lis) (e : Evt) (mem : Bool)
  | watchSub (l : Lis) (e : Evt)
  | push (e : Evt) (obj : J)
  | evtidBroadcast (e : Evt) (obj : J)

namespace Store
variable (s : Store J)

def setOwnedEvt (e : Evt) (n : Nat) : Store J :=
  { s with ownedEvt := Function.update s.ownedEvt e n }

def setOwnedLis (l : Lis) (n : Nat) : Store J :=
  { s with ownedLis := Function.update s.ownedLis l n }

/-- One more addition for the pair. -/
def added (l : Lis) (e : Evt) : Store J :=
  { s with adds := Function.update s.adds l (Function.update (s.adds l) e (s.adds l e + 1)) }

end Store

/-- Users only use the events and the listeners that they own a reference of. -/
def step (itfs : Itfs) (s : Store J) : Op J → Option (Store J)
  | .evtidCreate fullname mem =>
    (afbEvtEvtidCreate s fullname mem).map fun
      | (some e, t) => t.setOwnedEvt e 1
      | (none, t) => t
  | .evtidAddref e =>
    if 0 < s.ownedEvt e then some ((afbEvtEvtidAddref s e).setOwnedEvt e (s.ownedEvt e + 1))
    else none
  | .evtidUnref e =>
    if 0 < s.ownedEvt e then some ((afbEvtEvtidUnref itfs s e).setOwnedEvt e (s.ownedEvt e - 1))
    else none
  | .listenerCreate itf closure mem =>
    match afbEvtListenerCreate s itf closure mem with
    | (some l, t) => some (t.setOwnedLis l (s.ownedLis l + 1))
    | (none, t) => some t
  | .listenerAddref l =>
    if 0 < s.ownedLis l then some ((afbEvtListenerAddref s l).setOwnedLis l (s.ownedLis l + 1))
    else none
  | .listenerUnref l =>
    if 0 < s.ownedLis l then
      some ((afbEvtListenerUnref itfs s l).setOwnedLis l (s.ownedLis l - 1))
    else none
  | .watchAdd l e mem =>
    if 0 < s.ownedLis l ∧ 0 < s.ownedEvt e then
      match afbEvtWatchAddEvtid itfs s l e mem with
      | .ok t => some (t.added l e)
      | .error _ => some s
    else none
  | .watchSub l e =>
    if 0 < s.ownedLis l ∧ 0 < s.ownedEvt e then
      some ((afbEvtWatchSubEvtid itfs s l e).toOption.getD s)
    else none
  | .push e obj => if 0 < s.ownedEvt e then some (afbEvtEvtidPush s e obj).2 else none
  | .evtidBroadcast e obj =>
    if 0 < s.ownedEvt e then some (afbEvtEvtidBroadcast itfs s e obj).2 else none

end AfbBinder.Events
