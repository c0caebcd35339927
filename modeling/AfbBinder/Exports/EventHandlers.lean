import AfbBinder.Lib.Cstrings
import AfbBinder.Lib.Json

/-! The event handlers of an api: their registration by pattern, and the events transmitted. -/
namespace AfbBinder.Exports
open Lib.Cstrings
open Lib.Json (ascii)

structure EventHandler where
  pattern : Bytes
  callback : Nat
  closure : Nat
  deriving DecidableEq, Repr

/-- The part of an api that its events use, and the two flags of its hooks for them. -/
structure Export where
  listener : Bool
  eventHandlers : List EventHandler
  onAnyEventV12 : Option Nat
  onAnyEventV3 : Option Nat
  hookOnEvent : Bool
  hookOnEventHandler : Bool
  deriving DecidableEq, Repr

def same (pattern : Bytes) (handler : EventHandler) : Bool :=
  strcasecmp handler.pattern pattern = .eq

/-- The listener that ensure_listener creates may be missing, and so may the memory. -/
def eventHandlerAdd (e : Export) (handler : EventHandler) (created mem : Bool) : Export × Int :=
  if e.listener = false ∧ created = false then (e, -1)
  else
    let e := { e with listener := true }
    if e.eventHandlers.any (same handler.pattern) then (e, -1)
    else if mem then ({ e with eventHandlers := e.eventHandlers ++ [handler] }, 0)
    else (e, -1)

def eventHandlerDel (e : Export) (pattern : Bytes) : Export × Int :=
  match e.eventHandlers.find? (same pattern) with
  | none => (e, -1)
  | some _ => ({ e with eventHandlers := e.eventHandlers.eraseP (same pattern) }, 0)

inductive Op where
  | add (handler : EventHandler) (created mem : Bool)
  | del (pattern : Bytes)
  deriving DecidableEq, Repr

def step (e : Export) : Op → Export × Int
  | .add handler created mem => eventHandlerAdd e handler created mem
  | .del pattern => eventHandlerDel e pattern

/-- The calls with what they returned. -/
abbrev History := List (Op × Int)

def run (e : Export) (history : History) : List Op → Export × History
  | [] => (e, history)
  | op :: ops => run (step e op).1 (history ++ [(op, (step e op).2)]) ops

/-- What a transmission does, in order; all get the same event and the same object. -/
inductive Effect where
  | onEventBefore
  | onEventHandlerBefore (pattern : Bytes)
  | callback (handler : EventHandler)
  | onEventHandlerAfter (pattern : Bytes)
  | anyEventV3 (callback : Nat)
  | anyEventV12 (callback : Nat)
  | onEventAfter
  | objectPut
  deriving DecidableEq, Repr

section
variable (fnmatch : Bytes → Bytes → Int)

/-- A turn of the loop over the handlers. -/
def transmit (e : Export) (event : Bytes) (handler : EventHandler) : List Effect :=
  if fnmatch handler.pattern event ≠ 0 then
    if e.hookOnEventHandler then
      [.onEventHandlerBefore handler.pattern, .callback handler,
        .onEventHandlerAfter handler.pattern]
    else [.callback handler]
  else []

def anyEvent (e : Export) : List Effect :=
  match e.onAnyEventV3, e.onAnyEventV12 with
  | some callback, _ => [.anyEventV3 callback]
  | none, some callback => [.anyEventV12 callback]
  | none, none => []

def listenerOfEvents (e : Export) (event : Bytes) : List Effect :=
  (if e.hookOnEvent then [.onEventBefore] else []) ++
    e.eventHandlers.flatMap (transmit fnmatch e event) ++ anyEvent e ++
    (if e.hookOnEvent then [.onEventAfter] else []) ++ [.objectPut]

end

/-- The calls of handlers among the effects. -/
def Effect.isCall : Effect → Bool
  | .callback _ => true
  | .anyEventV3 _ => true
  | .anyEventV12 _ => true
  | _ => false

/-- The handlers that a history leaves registered, in the order of their registration. -/
def registered (history : History) : List EventHandler :=
  history.foldl (fun handlers call =>
    match call with
    | (.add handler _ _, 0) => handlers ++ [handler]
    | (.del pattern, 0) => handlers.filter fun handler => !same pattern handler
    | _ => handlers) []

/-- What listener_of_events is for: libc fnmatch is 0 on a match. -/
def Transmitted (fnmatch : Bytes → Bytes → Int) (e : Export) (history : History) (event : Bytes) :
    Prop :=
  (listenerOfEvents fnmatch e event).filter Effect.isCall =
    ((registered history).filter fun handler => fnmatch handler.pattern event = 0).map
      Effect.callback ++ anyEvent e

instance (fnmatch : Bytes → Bytes → Int) (e : Export) (history : History) (event : Bytes) :
    Decidable (Transmitted fnmatch e history event) :=
  inferInstanceAs (Decidable (_ = _))

/-- An api with no handler yet. -/
def Export.new (listener : Bool) (onAnyEventV12 onAnyEventV3 : Option Nat)
    (hookOnEvent hookOnEventHandler : Bool) : Export :=
  ⟨listener, [], onAnyEventV12, onAnyEventV3, hookOnEvent, hookOnEventHandler⟩

/-- The list is the registered handlers, no two of them with the same pattern. -/
structure Inv (e : Export) (history : History) : Prop where
  handlers : e.eventHandlers = registered history
  apart : e.eventHandlers.Pairwise fun a b => strcasecmp a.pattern b.pattern ≠ .eq

section
variable {e : Export} {history : History} {event pattern : Bytes} {handler : EventHandler}
  {fnmatch : Bytes → Bytes → Int}

theorem registered_snoc (call : Op × Int) : registered (history ++ [call]) =
    match call with
    | (.add handler _ _, 0) => registered history ++ [handler]
    | (.del pattern, 0) => (registered history).filter fun handler => !same pattern handler
    | _ => registered history := by
  rw [registered, List.foldl_append]
  rfl

private theorem registered_failed (op : Op) : registered (history ++ [(op, -1)]) = registered history := by
  rw [registered_snoc]
  cases op <;> rfl

private theorem inv_add (h : Inv e history) (handler : EventHandler) (created mem : Bool) :
    Inv (eventHandlerAdd e handler created mem).1
      (history ++ [(.add handler created mem, (eventHandlerAdd e handler created mem).2)]) := by
  unfold eventHandlerAdd
  split
  · exact ⟨by rw [registered_failed, h.handlers], h.apart⟩
  · dsimp only
    split
    · exact ⟨by rw [registered_failed, ← h.handlers], h.apart⟩
    · rename_i hnew
      split
      · refine ⟨by rw [registered_snoc, ← h.handlers]; rfl, ?_⟩
        refine List.pairwise_append.mpr ⟨h.apart, List.pairwise_singleton _ _, fun a ha b hb => ?_⟩
        obtain rfl := List.mem_singleton.mp hb
        exact fun heq => hnew (List.any_eq_true.mpr ⟨a, ha, decide_eq_true heq⟩)
      · exact ⟨by rw [registered_failed, ← h.handlers], h.apart⟩

/-- One handler at most has the pattern. -/
theorem eraseP_eq_filter {handlers : List EventHandler}
    (h : handlers.Pairwise fun a b => strcasecmp a.pattern b.pattern ≠ .eq) :
    handlers.eraseP (same pattern) = handlers.filter fun handler => !same pattern handler := by
  induction handlers with
  | nil => rfl
  | cons handler handlers ih =>
    obtain ⟨hhead, htail⟩ := List.pairwise_cons.mp h
    cases hsame : same pattern handler with
    | false =>
      rw [List.eraseP_cons_of_neg (by simp [hsame]), List.filter_cons_of_pos (by simp [hsame]),
        ih htail]
    | true =>
      rw [List.eraseP_cons_of_pos hsame, List.filter_cons_of_neg (by simp [hsame])]
      refine (List.filter_eq_self.mpr fun a ha => ?_).symm
      rw [Bool.not_eq_true', same, decide_eq_false_iff_not]
      intro heq
      have hhandler : strcasecmp handler.pattern pattern = .eq := of_decide_eq_true hsame
      refine hhead a ha ?_
      rw [strcasecmp_eq] at *
      exact hhandler.trans heq.symm

private theorem inv_del (h : Inv e history) (pattern : Bytes) :
    Inv (eventHandlerDel e pattern).1
      (history ++ [(.del pattern, (eventHandlerDel e pattern).2)]) := by
  unfold eventHandlerDel
  split
  · exact ⟨by rw [registered_failed, h.handlers], h.apart⟩
  · refine ⟨?_, h.apart.sublist (List.eraseP_sublist)⟩
    rw [registered_snoc, ← h.handlers]
    exact eraseP_eq_filter h.apart

private theorem inv_run (h : Inv e history) (ops : List Op) :
    Inv (run e history ops).1 (run e history ops).2 := by
  induction ops generalizing e history with
  | nil => exact h
  | cons op ops ih =>
    apply ih
    cases op with
    | add handler created mem => exact inv_add h handler created mem
    | del pattern => exact inv_del h pattern

/-- The handlers that are called are those whose pattern does not match. -/
theorem filter_transmit (handlers : List EventHandler) :
    (handlers.flatMap (transmit fnmatch e event)).filter Effect.isCall =
      (handlers.filter fun handler => fnmatch handler.pattern event ≠ 0).map Effect.callback := by
  induction handlers with
  | nil => rfl
  | cons handler handlers ih =>
    rw [List.flatMap_cons, List.filter_append, ih, transmit]
    by_cases hmatch : fnmatch handler.pattern event = 0
    · rw [if_neg (not_not.mpr hmatch), List.filter_cons_of_neg (by simp [hmatch])]
      rfl
    · rw [if_pos hmatch, List.filter_cons_of_pos (by simp [hmatch]), List.map_cons]
      split
      · rfl
      · rfl

private theorem filter_listener : (listenerOfEvents fnmatch e event).filter Effect.isCall =
    (e.eventHandlers.filter fun handler => fnmatch handler.pattern event ≠ 0).map Effect.callback ++
      anyEvent e := by
  have hany : (anyEvent e).filter Effect.isCall = anyEvent e := by
    unfold anyEvent
    cases e.onAnyEventV3 <;> cases e.onAnyEventV12 <;> rfl
  have hhook : ∀ (b : Bool) (x : Effect), x.isCall = false →
      (if b then [x] else []).filter Effect.isCall = [] := by
    intro b x hx
    cases b with
    | false => rfl
    | true => exact List.filter_cons_of_neg (by simp [hx])
  rw [listenerOfEvents, List.filter_append, List.filter_append, List.filter_append,
    List.filter_append, hhook _ _ rfl, hhook _ _ rfl, filter_transmit, hany,
    List.filter_cons_of_neg (by decide), List.nil_append, List.filter_nil, List.append_nil,
    List.append_nil]

/-- Where a handler is registered, it is called when it should not be, or it is not called. -/
theorem transmitted_iff (h : Inv e history) :
    Transmitted fnmatch e history event ↔ registered history = [] := by
  rw [Transmitted, filter_listener, h.handlers]
  constructor
  · intro heq
    have hmap := List.append_cancel_right heq
    have hfilter := List.map_injective_iff.mpr (fun a b hab => Effect.callback.inj hab) hmap
    cases hhandlers : registered history with
    | nil => rfl
    | cons handler handlers =>
      have hmem : ∀ x, x ∈ (registered history).filter (fun x => fnmatch x.pattern event ≠ 0) ↔
          x ∈ (registered history).filter fun x => fnmatch x.pattern event = 0 := by
        intro x
        rw [hfilter]
      have hin : handler ∈ registered history := by
        rw [hhandlers]
        exact List.mem_cons_self
      have := hmem handler
      simp [hin] at this
  · intro hnil
    rw [hnil]
    rfl

end

/-- The events are transmitted right as long as no handler is registered. -/
theorem events_transmitted_iff (fnmatch : Bytes → Bytes → Int) (listener : Bool)
    (onAnyEventV12 onAnyEventV3 : Option Nat) (hookOnEvent hookOnEventHandler : Bool)
    (ops : List Op) (event : Bytes) :
    let out := run (.new listener onAnyEventV12 onAnyEventV3 hookOnEvent hookOnEventHandler) [] ops
    Transmitted fnmatch out.1 out.2 event ↔ registered out.2 = [] :=
  transmitted_iff (inv_run ⟨rfl, List.Pairwise.nil⟩ ops)

/-- Fnmatch on patterns with no special character; 1 is FNM_NOMATCH. -/
def fnmatchPlain (pattern event : Bytes) : Int := if pattern = event then 0 else 1

/-- The handler of a/b is not called for a/b. -/
theorem handler_not_called :
    ¬Transmitted fnmatchPlain
      (run (.new false none none false false) [] [.add ⟨ascii "a/b", 1, 2⟩ true true]).1
      (run (.new false none none false false) [] [.add ⟨ascii "a/b", 1, 2⟩ true true]).2
      (ascii "a/b") := by
  decide +kernel

end AfbBinder.Exports
