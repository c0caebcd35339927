import AfbBinder.Lib.Traces
import AfbBinder.Jobs.Schedule
import AfbBinder.Stub.Model

/-! The jobs of the received messages have no group, so that they may end in another order
than the one of reception. The messages that do not conflict may be exchanged. -/
namespace AfbBinder.Stub
open Lib.Runs Lib.Lists Lib.Traces Events
variable {J : Type}

/-- What a client is observed by: the pending calls, and for each event of the server the
references of its replica and the activity of its watches. -/
structure View where
  calls : List ClientCall
  replica : Key → Option (Nat × (Lis → Option Nat))

def view (c : Client J) : View where
  calls := c.calls
  replica key := (clientEventSearch c key).map fun ev => (ev.refcount, ev.activity)

inductive Kind where
  | create
  | remove
  | subscribe
  | unsubscribe
  deriving DecidableEq, Repr

/-- What a message is for the replicas: the event and what is done with it. -/
def Message.about : Message J → Option (Key × Kind)
  | .eventCreate key => some (key, .create)
  | .eventRemove key => some (key, .remove)
  | .eventSubscribe _ key => some (key, .subscribe)
  | .eventUnsubscribe _ key => some (key, .unsubscribe)
  | _ => none

/-- The call that a subscription is made in. -/
def Message.caller : Message J → Option UInt32
  | .eventSubscribe callid _ | .eventUnsubscribe callid _ => some callid
  | _ => none

/-- Two messages whose order counts: they do different things with one event, or one is
the reply to the call that the other is made in. -/
def Conflict (m m' : Message J) : Prop :=
  (∃ key kind kind', m.about = some (key, kind) ∧ m'.about = some (key, kind') ∧ kind ≠ kind') ∨
  (∃ callid, m = .reply callid ∧ m'.caller = some callid) ∨
  ∃ callid, m' = .reply callid ∧ m.caller = some callid

def callOf (calls : List ClientCall) (callid : UInt32) : Option ClientCall :=
  calls.find? (·.callid = callid)

/-- The calls that remain after a message. -/
def remaining (calls : List ClientCall) : Message J → List ClientCall
  | .reply callid =>
    match callOf calls callid with
    | some call => calls.erase call
    | none => calls
  | _ => calls

/-- The activity of one listener rewritten. -/
def recounted (f : Option Nat → Option Nat) (l : Lis) (activity : Lis → Option Nat) :
    Lis → Option Nat :=
  Function.update activity l (f (activity l))

def countUp : Lis → (Lis → Option Nat) → Lis → Option Nat := recounted fun
  | some n => some ((n + 1) % 2 ^ 32)
  | none => some 1

def countDown : Lis → (Lis → Option Nat) → Lis → Option Nat := recounted (Option.map (· - 1))

/-- What a message does to the replica of its event. -/
def change (listener : Nat → Option Lis) (calls : List ClientCall) :
    Message J → Option (Nat × (Lis → Option Nat)) → Option (Nat × (Lis → Option Nat))
  | .eventCreate _, some (n, activity) => some (n + 1, activity)
  | .eventCreate _, none => some (1, fun _ => none)
  | .eventRemove _, some (n, activity) => if n - 1 ≠ 0 then some (n - 1, activity) else none
  | .eventSubscribe callid _, some (n, activity) =>
    match (callOf calls callid).bind fun call => listener call.request with
    | some l => some (n, countUp l activity)
    | none => some (n, activity)
  | .eventUnsubscribe callid _, some (n, activity) =>
    match (callOf calls callid).bind fun call => listener call.request with
    | some l => some (n, countDown l activity)
    | none => some (n, activity)
  | _, r => r

def viewStep (listener : Nat → Option Lis) (v : View) (m : Message J) : View where
  calls := remaining v.calls m
  replica := match m.about with
    | some (key, _) => Function.update v.replica key (change listener v.calls m (v.replica key))
    | none => v.replica

section
variable {c : Client J} {key : Key} {f : ClientEvent → ClientEvent}

private theorem find_modify (hf : ∀ ev, (f ev).key = ev.key) (l : List ClientEvent) (key' : Key) :
    (modifyEvent key f l).find? (·.key = key') =
      if key' = key then (l.find? (·.key = key')).map f else l.find? (·.key = key') := by
  induction l with
  | nil => simp [modifyEvent]
  | cons ev l ih =>
    by_cases he : ev.key = key
    · by_cases hk : key' = key
      · simp [modifyEvent, he, hf, hk]
      · simp [modifyEvent, he, hf, hk, Ne.symm hk]
    · by_cases hk : ev.key = key'
      · simp [modifyEvent, hk, hk ▸ he]
      · simp [modifyEvent, he, hk, ih]

private theorem keys_modify (hf : ∀ ev, (f ev).key = ev.key) (l : List ClientEvent) :
    (modifyEvent key f l).map ClientEvent.key = l.map ClientEvent.key := by
  induction l with
  | nil => rfl
  | cons ev l ih =>
    by_cases he : ev.key = key
    · simp [modifyEvent, he, hf]
    · simp [modifyEvent, he, ih]

private theorem find_erase {l : List ClientEvent} (hl : (l.map ClientEvent.key).Nodup) (key' : Key) :
    (l.eraseP (·.key = key)).find? (·.key = key') =
      if key' = key then none else l.find? (·.key = key') := by
  induction l with
  | nil => simp
  | cons ev l ih =>
    obtain ⟨hev, hl⟩ := List.nodup_cons.mp hl
    by_cases he : ev.key = key
    · rw [List.eraseP_cons_of_pos (by simp [he])]
      split
      · rename_i hk
        refine List.find?_eq_none.mpr fun x hx hxk => hev ?_
        exact List.mem_map.mpr ⟨x, hx, by simpa [hk, he] using hxk⟩
      · rename_i hk
        rw [List.find?_cons_of_neg (by simp [he, Ne.symm hk])]
    · rw [List.eraseP_cons_of_neg (by simp [he])]
      by_cases hk : ev.key = key'
      · simp [hk, hk ▸ he]
      · simp [hk, ih hl]

/-- An event rewritten, seen from outside. -/
theorem view_modify (hf : ∀ ev, (f ev).key = ev.key)
    {g : Nat × (Lis → Option Nat) → Nat × (Lis → Option Nat)}
    (hg : ∀ ev, ((f ev).refcount, (f ev).activity) = g (ev.refcount, ev.activity)) :
    view { c with events := modifyEvent key f c.events } =
      ⟨c.calls, Function.update (view c).replica key (((view c).replica key).map g)⟩ := by
  simp only [view, clientEventSearch, View.mk.injEq, true_and]
  funext key'
  rw [find_modify hf]
  by_cases hk : key' = key
  · subst hk
    rw [if_pos rfl, Function.update_self, Option.map_map, Option.map_map]
    congr 1
    funext ev
    exact hg ev
  · rw [if_neg hk, Function.update_of_ne hk]

private theorem replica_none (h : clientEventSearch c key = none) : (view c).replica key = none := by
  simp [view, h]

private theorem replica_some {ev : ClientEvent} (h : clientEventSearch c key = some ev) :
    (view c).replica key = some (ev.refcount, ev.activity) := by
  simp [view, h]

private theorem view_same (c : Client J) (key : Key) :
    view c = ⟨c.calls, Function.update (view c).replica key ((view c).replica key)⟩ := by
  rw [Function.update_eq_self]
  rfl

private theorem view_create (c : Client J) (key : Key) :
    view (clientOnEventCreateCb true c key) = ⟨c.calls, Function.update (view c).replica key
      (match (view c).replica key with
        | some (n, activity) => some (n + 1, activity)
        | none => some (1, fun _ => none))⟩ := by
  unfold clientOnEventCreateCb
  cases hs : clientEventSearch c key with
  | some ev =>
    refine (view_modify (f := fun ev => { ev with refcount := ev.refcount + 1 })
      (g := fun r => (r.1 + 1, r.2)) (fun _ => rfl) fun _ => rfl).trans ?_
    rw [replica_some hs]
    rfl
  | none =>
    simp only [if_true, replica_none hs]
    simp only [view, clientEventSearch, View.mk.injEq, true_and]
    funext key'
    by_cases hk : key' = key
    · subst hk
      rw [Function.update_self, List.find?_cons_of_pos (by simp)]
      rfl
    · rw [Function.update_of_ne hk, List.find?_cons_of_neg (by simp [Ne.symm hk])]

private theorem view_remove (hc : (c.events.map ClientEvent.key).Nodup) (key : Key) :
    view (clientOnEventRemoveCb c key) = ⟨c.calls, Function.update (view c).replica key
      (match (view c).replica key with
        | some (n, activity) => if n - 1 ≠ 0 then some (n - 1, activity) else none
        | none => none)⟩ := by
  unfold clientOnEventRemoveCb
  cases hs : clientEventSearch c key with
  | some ev =>
    simp only [replica_some hs]
    by_cases hr : ev.refcount - 1 = 0
    · simp only [hr, ne_eq, not_true, if_false]
      simp only [view, clientEventSearch, View.mk.injEq, true_and]
      funext key'
      rw [find_erase hc]
      by_cases hk : key' = key
      · subst hk
        rw [if_pos rfl, Function.update_self, Option.map_none]
      · rw [if_neg hk, Function.update_of_ne hk]
    · simp only [ne_eq, hr, not_false_iff, if_true]
      refine (view_modify (f := fun ev => { ev with refcount := ev.refcount - 1 })
        (g := fun r => (r.1 - 1, r.2)) (fun _ => rfl) fun _ => rfl).trans ?_
      rw [replica_some hs]
      rfl
  | none =>
    have hsame := view_same c key
    simp only [replica_none hs] at hsame ⊢
    exact hsame

private theorem watchAdd_eq (l : Lis) (ev : ClientEvent) :
    watchAdd true l ev = { ev with activity := countUp l ev.activity } := by
  unfold watchAdd countUp recounted
  cases ev.activity l <;> rfl

private theorem watchSub_eq (l : Lis) (ev : ClientEvent) :
    watchSub l ev = { ev with activity := countDown l ev.activity } := by
  unfold watchSub countDown recounted
  cases h : ev.activity l with
  | some n => rfl
  | none =>
    have hsame : Function.update ev.activity l none = ev.activity := by
      rw [← h, Function.update_eq_self]
    simp only [Option.map_none, hsame]

private theorem view_subscribe (listener : Nat → Option Lis) (c : Client J) (request : Nat)
    (key : Key) :
    view (clientOnEventSubscribeCb listener true c request key) =
      ⟨c.calls, Function.update (view c).replica key (match listener request with
        | some l => ((view c).replica key).map fun r => (r.1, countUp l r.2)
        | none => (view c).replica key)⟩ := by
  unfold clientOnEventSubscribeCb
  cases hl : listener request with
  | none => cases clientEventSearch c key <;> exact view_same c key
  | some l =>
    cases hs : clientEventSearch c key with
    | some ev =>
      refine view_modify (fun ev => ?_) fun ev => ?_
      · rw [watchAdd_eq]
      · rw [watchAdd_eq]
    | none =>
      have hsame := view_same c key
      simp only [replica_none hs, Option.map_none] at hsame ⊢
      exact hsame

private theorem view_unsubscribe (listener : Nat → Option Lis) (c : Client J) (request : Nat)
    (key : Key) :
    view (clientOnEventUnsubscribeCb listener c request key) =
      ⟨c.calls, Function.update (view c).replica key (match listener request with
        | some l => ((view c).replica key).map fun r => (r.1, countDown l r.2)
        | none => (view c).replica key)⟩ := by
  unfold clientOnEventUnsubscribeCb
  cases hl : listener request with
  | none => cases clientEventSearch c key <;> exact view_same c key
  | some l =>
    cases hs : clientEventSearch c key with
    | some ev =>
      refine view_modify (fun ev => ?_) fun ev => ?_
      · rw [watchSub_eq]
      · rw [watchSub_eq]
    | none =>
      have hsame := view_same c key
      simp only [replica_none hs, Option.map_none] at hsame ⊢
      exact hsame

/-- The client seen from outside takes the step of the view. -/
theorem view_clientOnMessage (listener : Nat → Option Lis)
    (hc : (c.events.map ClientEvent.key).Nodup) (m : Message J) :
    view (clientOnMessage listener true c m) = viewStep listener (view c) m := by
  cases m with
  | reply callid =>
    simp only [clientOnMessage, clientOnReply, viewStep, Message.about, remaining, view, callOf,
      clientCallSearch]
    cases c.calls.find? (·.callid = callid) <;> rfl
  | eventCreate key =>
    refine (view_create c key).trans ?_
    simp only [viewStep, Message.about, remaining, View.mk.injEq]
    refine ⟨rfl, ?_⟩
    cases (view c).replica key <;> rfl
  | eventRemove key =>
    refine (view_remove hc key).trans ?_
    simp only [viewStep, Message.about, remaining, View.mk.injEq]
    refine ⟨rfl, ?_⟩
    cases (view c).replica key <;> rfl
  | eventSubscribe callid key =>
    have hcall : callOf (view c).calls callid = clientCallSearch c callid := rfl
    simp only [clientOnMessage, viewStep, Message.about, remaining]
    cases hf : clientCallSearch c callid with
    | none =>
      refine (view_same c key).trans ?_
      cases hr : (view c).replica key <;> simp [change, hcall, hf] <;> rfl
    | some call =>
      refine (view_subscribe listener c call.request key).trans ?_
      cases hr : (view c).replica key <;> cases hl : listener call.request <;>
        simp [change, hcall, hf, hl] <;> rfl
  | eventUnsubscribe callid key =>
    have hcall : callOf (view c).calls callid = clientCallSearch c callid := rfl
    simp only [clientOnMessage, viewStep, Message.about, remaining]
    cases hf : clientCallSearch c callid with
    | none =>
      refine (view_same c key).trans ?_
      cases hr : (view c).replica key <;> simp [change, hcall, hf] <;> rfl
    | some call =>
      refine (view_unsubscribe listener c call.request key).trans ?_
      cases hr : (view c).replica key <;> cases hl : listener call.request <;>
        simp [change, hcall, hf, hl] <;> rfl
  | eventPush key obj =>
    simp only [clientOnMessage, clientOnEventPushCb]
    cases clientEventSearch c key <;> rfl
  | eventBroadcast name obj => rfl

private theorem keys_clientOnMessage (listener : Nat → Option Lis)
    (hc : (c.events.map ClientEvent.key).Nodup) (m : Message J) :
    ((clientOnMessage listener true c m).events.map ClientEvent.key).Nodup := by
  have hmodify : ∀ {f : ClientEvent → ClientEvent} {key : Key}, (∀ ev, (f ev).key = ev.key) →
      ((modifyEvent key f c.events).map ClientEvent.key).Nodup := by
    intro f key hf
    rw [keys_modify hf]
    exact hc
  cases m with
  | reply callid =>
    simp only [clientOnMessage, clientOnReply]
    split <;> exact hc
  | eventCreate key =>
    simp only [clientOnMessage, clientOnEventCreateCb, if_true]
    split
    · exact hmodify fun _ => rfl
    · rename_i hs
      refine List.nodup_cons.mpr ⟨fun hm => ?_, hc⟩
      obtain ⟨ev, hev, hk⟩ := List.mem_map.mp hm
      exact List.find?_eq_none.mp hs ev hev (decide_eq_true hk)
  | eventRemove key =>
    simp only [clientOnMessage, clientOnEventRemoveCb]
    split
    · split
      · exact hmodify fun _ => rfl
      · exact hc.sublist ((List.eraseP_sublist).map _)
    · exact hc
  | eventSubscribe callid key =>
    simp only [clientOnMessage, clientOnEventSubscribeCb]
    split
    · split
      · exact hmodify fun ev => by rw [watchAdd_eq]
      · exact hc
    · exact hc
  | eventUnsubscribe callid key =>
    simp only [clientOnMessage, clientOnEventUnsubscribeCb]
    split
    · split
      · exact hmodify fun ev => by rw [watchSub_eq]
      · exact hc
    · exact hc
  | eventPush key obj =>
    simp only [clientOnMessage, clientOnEventPushCb]
    split <;> exact hc
  | eventBroadcast name obj => exact hc

private theorem view_processed (listener : Nat → Option Lis)
    (hc : (c.events.map ClientEvent.key).Nodup) (ms : List (Message J)) :
    view (processed listener c ms) = ms.foldl (viewStep listener) (view c) := by
  induction ms generalizing c with
  | nil => rfl
  | cons m ms ih =>
    rw [List.foldl_cons, ← view_clientOnMessage listener hc m]
    exact ih (keys_clientOnMessage listener hc m)

end

section
variable {listener : Nat → Option Lis} {m m' : Message J}

private theorem callOf_erase {calls : List ClientCall} {callid callid' : UInt32} {call : ClientCall}
    (hcall : callOf calls callid = some call) (hne : callid' ≠ callid) :
    callOf (calls.erase call) callid' = callOf calls callid' := by
  have hid : call.callid = callid := by simpa using List.find?_some hcall
  clear hcall
  unfold callOf
  induction calls with
  | nil => rfl
  | cons x calls ih =>
    by_cases hx : x = call
    · subst hx
      rw [List.erase_cons_head, List.find?_cons_of_neg (by simp [hid, Ne.symm hne])]
    · rw [List.erase_cons_tail (by simp [hx]), List.find?_cons, List.find?_cons, ih]

private theorem callOf_remaining (calls : List ClientCall) (m : Message J) (callid : UInt32)
    (h : m ≠ .reply callid) : callOf (remaining calls m) callid = callOf calls callid := by
  cases m with
  | reply other =>
    have hne : callid ≠ other := fun heq => h (heq ▸ rfl)
    simp only [remaining]
    cases hs : callOf calls other with
    | some call => exact callOf_erase hs hne
    | none => rfl
  | _ => rfl

private theorem remaining_comm (calls : List ClientCall) (m m' : Message J) :
    remaining (remaining calls m) m' = remaining (remaining calls m') m := by
  by_cases hm : ∃ callid, m = .reply callid
  swap
  · cases m with
    | reply callid => exact absurd ⟨callid, rfl⟩ hm
    | _ => rfl
  by_cases hm' : ∃ callid, m' = .reply callid
  swap
  · cases m' with
    | reply callid => exact absurd ⟨callid, rfl⟩ hm'
    | _ => rfl
  obtain ⟨callid, rfl⟩ := hm
  obtain ⟨callid', rfl⟩ := hm'
  by_cases hne : callid' = callid
  · rw [hne]
  have hother := callOf_remaining calls (.reply callid : Message J) callid'
    (by simp [Ne.symm hne])
  have hother' := callOf_remaining calls (.reply callid' : Message J) callid
    (by simp [hne])
  simp only [remaining] at hother hother' ⊢
  cases hs : callOf calls callid <;> cases hs' : callOf calls callid' <;>
    simp only [hs, hs'] at hother hother' ⊢ <;> simp only [hother, hother', List.erase_comm]

private theorem change_remaining (calls : List ClientCall)
    (h : ∀ callid, m = .reply callid → m'.caller ≠ some callid) :
    change listener (remaining calls m) m' = change listener calls m' := by
  cases m' with
  | eventSubscribe callid key =>
    have := callOf_remaining calls m callid fun heq => h callid heq rfl
    funext r
    cases r <;> simp only [change, this]
  | eventUnsubscribe callid key =>
    have := callOf_remaining calls m callid fun heq => h callid heq rfl
    funext r
    cases r <;> simp only [change, this]
  | _ =>
    funext r
    cases r <;> rfl

private theorem recounted_comm (f : Option Nat → Option Nat) (l l' : Lis)
    (activity : Lis → Option Nat) :
    recounted f l (recounted f l' activity) = recounted f l' (recounted f l activity) := by
  by_cases hl : l = l'
  · rw [hl]
  · simp only [recounted, Function.update_of_ne hl, Function.update_of_ne (Ne.symm hl)]
    exact Function.update_comm (Ne.symm hl) _ _ _

/-- The same thing done twice with one event. -/
theorem change_comm (calls : List ClientCall) {key key' : Key} {kind : Kind}
    (hm : m.about = some (key, kind)) (hm' : m'.about = some (key', kind))
    (r : Option (Nat × (Lis → Option Nat))) :
    change listener calls m (change listener calls m' r) =
      change listener calls m' (change listener calls m r) := by
  cases r with
  | none => cases m <;> cases hm <;> cases m' <;> cases hm' <;> rfl
  | some r =>
    obtain ⟨n, activity⟩ := r
    cases m <;> cases hm <;> cases m' <;> cases hm'
    · rfl
    · have hsame : change listener calls (.eventRemove key : Message J) =
          change listener calls (.eventRemove key' : Message J) := by
        funext r
        cases r <;> rfl
      rw [hsame]
    · rename_i callid callid'
      cases hl : (callOf calls callid).bind fun call => listener call.request <;>
        cases hl' : (callOf calls callid').bind fun call => listener call.request <;>
        simp only [change, hl, hl', countUp]
      rw [recounted_comm]
    · rename_i callid callid'
      cases hl : (callOf calls callid).bind fun call => listener call.request <;>
        cases hl' : (callOf calls callid').bind fun call => listener call.request <;>
        simp only [change, hl, hl', countDown]
      rw [recounted_comm]

/-- Messages that do not conflict may be exchanged. -/
theorem viewStep_comm (h : ¬ Conflict m m') (v : View) :
    viewStep listener (viewStep listener v m) m' = viewStep listener (viewStep listener v m') m := by
  have hcaller : change listener (remaining v.calls m) m' = change listener v.calls m' :=
    change_remaining v.calls fun callid heq hc => h (.inr (.inl ⟨callid, heq, hc⟩))
  have hcaller' : change listener (remaining v.calls m') m = change listener v.calls m :=
    change_remaining v.calls fun callid heq hc => h (.inr (.inr ⟨callid, heq, hc⟩))
  simp only [viewStep, View.mk.injEq]
  refine ⟨remaining_comm v.calls m m', ?_⟩
  rw [hcaller, hcaller']
  cases hm : m.about with
  | none => cases hm' : m'.about <;> rfl
  | some r =>
    cases hm' : m'.about with
    | none => rfl
    | some r' =>
      obtain ⟨key, kind⟩ := r
      obtain ⟨key', kind'⟩ := r'
      simp only
      by_cases hk : key = key'
      · subst hk
        have hkind : kind = kind' := by
          by_contra hne
          exact h (.inl ⟨key, kind, kind', hm, hm', hne⟩)
        subst hkind
        simp only [Function.update_self, Function.update_idem]
        rw [change_comm v.calls hm' hm]
      · rw [Function.update_of_ne (Ne.symm hk), Function.update_of_ne hk,
          Function.update_comm hk]

end

/-- A job is taken when the earlier messages that its own conflicts with are processed.
The jobs are named by their rank in the queue, and msg tells the message of a job. -/
def InOrder (msg : Nat → Option (Message J)) (s : Jobs.State) : Jobs.Action → Prop
  | .take _ => ∀ a ∈ Jobs.jobGet s, ∀ n < (s.recs a).serial, ∀ m ∈ msg n,
      ∀ m' ∈ msg (s.recs a).serial, Conflict m m' → n ∈ Jobs.finishes s.history
  | _ => True

/-- An order in which the jobs may have had their effects: all are done, and one that was
done before another started comes before it. -/
structure Effects (s : Jobs.State) (order : List Nat) : Prop where
  perm : order.Perm (Jobs.queues s.history)
  done : ∀ n ∈ Jobs.queues s.history, n ∈ Jobs.finishes s.history
  follows : ∀ n m group, [Jobs.Event.finished n, .started m group].Sublist s.history →
    [n, m].Sublist order

section
variable {s t : Jobs.State} {msg : Nat → Option (Message J)}

/-- The earlier messages that a started one conflicts with were processed before. -/
private def Ordered (msg : Nat → Option (Message J)) (s : Jobs.State) : Prop :=
  ∀ k group, Jobs.Event.started k group ∈ s.history → ∀ n < k, ∀ m ∈ msg n, ∀ m' ∈ msg k,
    Conflict m m' → [Jobs.Event.finished n, .started k group].Sublist s.history

private theorem mem_finishes {n : Nat} (h : n ∈ Jobs.finishes s.history) :
    Jobs.Event.finished n ∈ s.history := by
  obtain ⟨ev, hev, hn⟩ := List.mem_filterMap.mp h
  cases ev <;> cases hn
  exact hev

private theorem mem_starts {n : Nat} (h : n ∈ Jobs.starts s.history) :
    ∃ group, Jobs.Event.started n group ∈ s.history := by
  obtain ⟨ev, hev, hn⟩ := List.mem_filterMap.mp h
  cases ev <;> cases hn
  exact ⟨_, hev⟩

private theorem ordered_step (ho : Ordered msg s) {x : Jobs.Action} (hx : InOrder msg s x)
    (h : Jobs.step s x = some t) : Ordered msg t := by
  rcases Jobs.history_step h with heq | ⟨ev, heq, hev⟩
  · rw [Ordered, heq]
    exact ho
  · rw [Ordered, heq]
    intro k group hk n hn m hm m' hm' hc
    rcases List.mem_append.mp hk with hold | hnew
    · exact (ho k group hold n hn m hm m' hm' hc).trans (List.sublist_append_left _ _)
    · obtain rfl := List.mem_singleton.mp hnew
      obtain ⟨u, a, rfl, ha, rfl⟩ := hev k group rfl
      have hdone := mem_finishes (hx a ha n hn m hm m' hm' hc)
      exact (List.singleton_sublist.mpr hdone).append (List.Sublist.refl _)

end

/-- Whatever the order in which the jobs of the received messages have their effects: when
no job is taken before the messages it conflicts with are processed, the pending calls,
the replicas and the subscriptions end as in the order of reception. -/
theorem reordered_same (listener : Nat → Option Lis) (c : Client J)
    (hc : (c.events.map ClientEvent.key).Nodup) (msg : Nat → Option (Message J))
    (acts : List Jobs.Action) (s : Jobs.State) (h : exec Jobs.step Jobs.init acts = some s)
    (hin : Along Jobs.step (InOrder msg) Jobs.init acts) (order : List Nat) (ho : Effects s order) :
    view (processed listener c (order.filterMap msg)) =
      view (processed listener c ((Jobs.queues s.history).filterMap msg)) := by
  have hi := Jobs.inv_exec h
  have hord : Ordered msg s := by
    refine exec_keeps_along (fun s x t hs hx ht => ordered_step hs hx ht) (fun k group hk => ?_) hin h
    cases hk
  have hnodup : order.Nodup := by
    rw [ho.perm.nodup_iff, hi.queuedAll]
    exact List.nodup_range
  rw [view_processed listener hc, view_processed listener hc, List.foldl_filterMap,
    List.foldl_filterMap]
  refine (foldl_reordered ho.perm.symm (fun a b hab hba v => ?_) (view c)).symm
  have hlt : a < b := by
    rw [hi.queuedAll] at hab
    simpa using List.pairwise_lt_range.sublist hab
  have hfree : ∀ m ∈ msg a, ∀ m' ∈ msg b, ¬ Conflict m m' := by
    intro m hm m' hm' hconf
    -- the second was started once the first was done, and the order follows this
    have hdone := ho.done b (hab.subset (by simp))
    obtain ⟨group, hstart⟩ := mem_starts (hi.gone b hdone).1
    have hfollows := ho.follows a b group (hord b group hstart a hlt m hm m' hm' hconf)
    exact not_sublist_swap hnodup hfollows hba
  cases ha : msg a with
  | none => simp
  | some m =>
    cases hb : msg b with
    | none => simp
    | some m' => simpa [ha, hb] using viewStep_comm (hfree m ha m' hb) v

/-- An event is created, a call subscribes to it, then the call is replied. -/
def subscription : Nat → Option (Message Nat)
  | 1 => some (.eventCreate ⟨5, [101]⟩)
  | 2 => some (.eventSubscribe 9 ⟨5, [101]⟩)
  | 3 => some (.reply 9)
  | _ => none

/-- The client that made the call, and the listener of its request. -/
def subscriber : Client Nat := { Client.start with calls := [⟨9, 6⟩] }

def subscriberListener : Nat → Option Lis := fun _ => some 0

/-- The three messages are queued while two threads wait for jobs. -/
def received : List Jobs.Action :=
  [.jobsStart 3 3 9, .malloc, .startJob 0 (some 0) 7, .take 0, .threadMain 1, .threadMain 2,
    .malloc, .jobsQueue (some 1) none 0 8 true, .malloc, .jobsQueue (some 2) none 0 8 true,
    .malloc, .jobsQueue (some 3) none 0 8 true]

/-- The messages are taken one after the other. -/
def inTurn : List Jobs.Action :=
  received ++ [.take 1, .release 1, .take 2, .release 2, .take 1, .release 1, .release 0]

private def follow (order : List Nat) : Jobs.Event → Jobs.Event → Bool
  | .finished n, .started m _ => [n, m].isSublist order
  | _, _ => true

private theorem follows_of_all {h : List Jobs.Event} {order : List Nat}
    (hall : (h.all fun ev => h.all fun ev' => !([ev, ev'].isSublist h) || follow order ev ev') = true)
    (n m : Nat) (group : Option Nat)
    (hsub : [Jobs.Event.finished n, .started m group].Sublist h) : [n, m].Sublist order := by
  have hn := List.all_eq_true.mp hall (.finished n) (hsub.subset (by simp))
  have hm := List.all_eq_true.mp hn (.started m group) (hsub.subset (by simp))
  rw [List.isSublist_iff_sublist.mpr hsub, Bool.not_true, Bool.false_or] at hm
  exact List.isSublist_iff_sublist.mp hm

/-- A job is taken when all the earlier messages are processed. -/
private def InTurn (msg : Nat → Option (Message J)) (s : Jobs.State) : Jobs.Action → Prop
  | .take _ => ∀ a ∈ Jobs.jobGet s, ∀ n < (s.recs a).serial, (msg n).isSome →
      n ∈ Jobs.finishes s.history
  | _ => True

private instance decidableInTurn (msg : Nat → Option (Message J)) (s : Jobs.State) :
    ∀ x, Decidable (InTurn msg s x)
  | .take _ => inferInstanceAs (Decidable (∀ a ∈ Jobs.jobGet s, ∀ n < (s.recs a).serial,
      (msg n).isSome → n ∈ Jobs.finishes s.history))
  | .malloc | .jobsQueue _ _ _ _ _ | .doSync _ _ _ _ _ | .jobsStart _ _ _ | .startJob _ _ _
  | .threadMain _ | .release _ | .idle _ _ | .wake _ | .jobsLeave _ _ | .exit _ => isTrue trivial

private theorem inOrder_of_inTurn (msg : Nat → Option (Message J)) (s : Jobs.State)
    (x : Jobs.Action) (h : InTurn msg s x) : InOrder msg s x := by
  cases x with
  | take t => exact fun a ha n hn m hm _ _ _ => h a ha n hn (Option.isSome_of_mem hm)
  | _ => trivial

theorem reordered_same_sample :
    ∃ s, exec Jobs.step Jobs.init inTurn = some s ∧
      Along Jobs.step (InOrder subscription) Jobs.init inTurn ∧ Effects s [1, 2, 3, 0] ∧
      view (processed subscriberListener subscriber ([1, 2, 3, 0].filterMap subscription)) =
        view (processed subscriberListener subscriber
          ((Jobs.queues s.history).filterMap subscription)) := by
  have hturn : Along Jobs.step (InTurn subscription) Jobs.init inTurn := by decide
  have hin := hturn.mono (inOrder_of_inTurn subscription)
  have ho : ∀ s, exec Jobs.step Jobs.init inTurn = some s → Effects s [1, 2, 3, 0] := by
    rintro _ ⟨⟩
    refine ⟨?_, ?_, follows_of_all ?_⟩
    · decide
    · decide
    · decide
  exact ⟨_, rfl, hin, ho _ rfl, reordered_same subscriberListener subscriber (by decide) subscription
    inTurn _ rfl hin [1, 2, 3, 0] (ho _ rfl)⟩

/-- The threads take the first two messages, and the second is done first. -/
def overtaken : List Jobs.Action :=
  received ++ [.take 1, .take 2, .release 2, .release 1, .take 1, .release 1, .release 0]

theorem subscription_lost :
    ∃ s, exec Jobs.step Jobs.init overtaken = some s ∧ Effects s [0, 2, 1, 3] ∧
      view (processed subscriberListener subscriber ([0, 2, 1, 3].filterMap subscription)) ≠
        view (processed subscriberListener subscriber
          ((Jobs.queues s.history).filterMap subscription)) := by
  refine ⟨_, rfl, ⟨?_, ?_, follows_of_all ?_⟩, fun heq => ?_⟩
  · decide
  · decide
  · decide
  · have := congrArg (fun v => (v.replica ⟨5, [101]⟩).map fun r => r.2 0) heq
    revert this
    decide

end AfbBinder.Stub
