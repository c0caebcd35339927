import AfbBinder.Lib.Runs

/-! A stub and the proto attached to it, from its creation to its release, with the client
operations and the replies that reach the proto. -/
namespace AfbBinder.Stub.Proto
open Lib.Runs

/-- The interface a proto has: what afb_proto_ws_is_client and afb_proto_ws_is_server tell. -/
inductive Side where
  | client
  | server
  deriving DecidableEq, Repr

/-- The flags tell that the pointers are not NULL. -/
structure Stubws where
  proto : Option Side
  isClient : Bool
  reopen : Bool
  listener : Bool
  refcount : Nat
  deriving DecidableEq, Repr

/-- What a proto was used for: a call or a request of description sent by a client, a
message of reply given to its dispatcher. -/
inductive Use where
  | call
  | describe
  | reply
  deriving DecidableEq, Repr

/-- The stub, none when there is none, and the uses of its protos. -/
structure Connection where
  stub : Option Stubws
  uses : List (Use × Side)
  deriving DecidableEq, Repr

def Connection.start : Connection := ⟨none, []⟩

/-- mem tells whether the proto can be created. -/
def afbStubWsCreateProto (st : Stubws) (isClient mem : Bool) : Option Side × Stubws :=
  let proto := if mem then some (if isClient then .client else .server) else none
  (proto, { st with proto })

def afbStubWsCreate (isClient mem memProto : Bool) : Option Stubws :=
  if mem then
    match afbStubWsCreateProto ⟨none, false, false, false, 0⟩ isClient memProto with
    | (some _, st) => some { st with refcount := 1, isClient }
    | (none, _) => none
  else none

def disconnect (st : Stubws) : Stubws :=
  { st with proto := none, listener := if st.isClient then st.listener else false }

def afbStubWsAddref (st : Stubws) : Stubws := { st with refcount := st.refcount + 1 }

/-- The last reference disconnects and frees the stub. -/
def afbStubWsUnref (st : Stubws) : Option Stubws :=
  let st := { st with refcount := st.refcount - 1 }
  if st.refcount = 0 then none else some st

def afbStubWsCreateClient (mem memProto : Bool) : Option Stubws := afbStubWsCreate true mem memProto

def afbStubWsCreateServer (mem memProto memListener : Bool) : Option Stubws :=
  match afbStubWsCreate false mem memProto with
  | some st =>
    if memListener then some { st with listener := true } else afbStubWsUnref st
  | none => none

/-- What the user does in its own callback is left to the operations that follow. -/
def onHangup (st : Stubws) : Option Stubws :=
  if st.proto.isSome then afbStubWsUnref (disconnect (afbStubWsAddref st)) else some st

/-- reopened tells whether the function given for reopening returns a connection. -/
def clientGetProto (st : Stubws) (reopened mem : Bool) : Option Side × Stubws :=
  if st.proto = none ∧ st.reopen = true ∧ reopened = true then afbStubWsCreateProto st false mem
  else (st.proto, st)

inductive Op where
  | createClient (mem memProto : Bool)
  | createServer (mem memProto memListener : Bool)
  | robustify (reopen : Bool)
  | addref
  | unref
  | hangup
  | call (reopened mem : Bool)
  | describe (reopened mem : Bool)
  | reply
  deriving DecidableEq, Repr

/-- A client operation: the proto is asked for and used when there is one. -/
def clientUse (w : Connection) (st : Stubws) (use : Use) (reopened mem : Bool) : Connection :=
  let r := clientGetProto st reopened mem
  ⟨some r.2, w.uses ++ (r.1.map fun side => (use, side)).toList⟩

/-- The api of a client and its robustness are given for clients only, as they assert. The
peer of a client is a server, which is the one to send replies. -/
def step (w : Connection) : Op → Option Connection
  | .createClient mem memProto =>
    if w.stub = none then some { w with stub := afbStubWsCreateClient mem memProto } else none
  | .createServer mem memProto memListener =>
    if w.stub = none then some { w with stub := afbStubWsCreateServer mem memProto memListener }
    else none
  | .robustify reopen =>
    w.stub.bind fun st =>
      if st.isClient then some { w with stub := some { st with reopen } } else none
  | .addref => w.stub.map fun st => { w with stub := some (afbStubWsAddref st) }
  | .unref => w.stub.map fun st => { w with stub := afbStubWsUnref st }
  | .hangup => w.stub.map fun st => { w with stub := onHangup st }
  | .call reopened mem =>
    w.stub.bind fun st => if st.isClient then some (clientUse w st .call reopened mem) else none
  | .describe reopened mem =>
    w.stub.bind fun st => if st.isClient then some (clientUse w st .describe reopened mem) else none
  | .reply =>
    w.stub.bind fun st => st.proto.bind fun side =>
      if st.isClient then some { w with uses := w.uses ++ [(.reply, side)] } else none

/-- The proto is a client exactly when the stub is one, and only client protos were used
for calls, descriptions and replies. -/
structure Matched (w : Connection) : Prop where
  proto : ∀ st ∈ w.stub, ∀ side ∈ st.proto, side = .client ↔ st.isClient = true
  uses : ∀ u ∈ w.uses, u.2 = .client

/-- No client that lost its proto reopens its connection. -/
def NotReopened (w : Connection) : Op → Prop
  | .call true true | .describe true true =>
    ∀ st ∈ w.stub, st.isClient = true → st.proto = none → st.reopen = false
  | _ => True

section
variable {w t : Connection} {st : Stubws}

private theorem matched_stub (h : Matched w) {stub : Option Stubws}
    (hs : ∀ st ∈ stub, ∀ side ∈ st.proto, side = .client ↔ st.isClient = true) :
    Matched { w with stub } := ⟨hs, h.uses⟩

private theorem create_matches {isClient mem memProto : Bool}
    (h : afbStubWsCreate isClient mem memProto = some st) :
    ∀ side ∈ st.proto, side = .client ↔ st.isClient = true := by
  cases mem <;> cases memProto <;> cases isClient <;> cases h <;> rintro _ ⟨⟩ <;> simp

private theorem unref_keeps {st' : Stubws} (h : afbStubWsUnref st = some st') :
    st'.proto = st.proto ∧ st'.isClient = st.isClient := by
  simp only [afbStubWsUnref] at h
  split at h
  · cases h
  · cases h
    exact ⟨rfl, rfl⟩

/-- Without reopening, what is there is used. -/
theorem getProto_kept {reopened mem : Bool}
    (h : reopened = true → mem = true → st.proto = none → st.reopen = false) :
    clientGetProto st reopened mem = (st.proto, st) := by
  unfold clientGetProto
  split
  · rename_i hr
    obtain ⟨hp, hro, rfl⟩ := hr
    cases mem with
    | true =>
      rw [h rfl rfl hp] at hro
      cases hro
    | false =>
      simp only [afbStubWsCreateProto, Bool.false_eq_true, if_false]
      rw [← hp]
  · rfl

private theorem matched_use (h : Matched w) (hs : st ∈ w.stub) (hc : st.isClient = true)
    (use : Use) {reopened mem : Bool}
    (hn : reopened = true → mem = true → st.proto = none → st.reopen = false) :
    Matched (clientUse w st use reopened mem) := by
  rw [clientUse, getProto_kept hn]
  refine ⟨fun st' hst => ?_, fun u hu => ?_⟩
  · cases hst
    exact h.proto st hs
  · rcases List.mem_append.mp hu with hold | hnew
    · exact h.uses u hold
    · obtain ⟨side, hside, rfl⟩ := Option.map_eq_some_iff.mp (Option.mem_toList.mp hnew)
      exact (h.proto st hs side hside).mpr hc

private theorem matched_step (h : Matched w) (op : Op) (hop : NotReopened w op)
    (ht : step w op = some t) : Matched t := by
  cases op with
  | createClient mem memProto =>
    obtain ⟨-, ht⟩ := Option.ite_none_right_eq_some.mp ht
    cases ht
    exact matched_stub h fun st hst => create_matches hst
  | createServer mem memProto memListener =>
    obtain ⟨-, ht⟩ := Option.ite_none_right_eq_some.mp ht
    cases ht
    refine matched_stub h fun st hst => ?_
    simp only [afbStubWsCreateServer] at hst
    split at hst
    · rename_i st' hst'
      split at hst
      · cases hst
        have hcreated := create_matches hst'
        exact hcreated
      · obtain ⟨hp, hc⟩ := unref_keeps hst
        rw [hp, hc]
        exact create_matches hst'
    · cases hst
  | robustify reopen =>
    obtain ⟨st, hst, ht⟩ := Option.bind_eq_some_iff.mp ht
    obtain ⟨-, ht⟩ := Option.ite_none_right_eq_some.mp ht
    cases ht
    refine matched_stub h fun st' hst' => ?_
    cases hst'
    exact h.proto st hst
  | addref =>
    obtain ⟨st, hst, rfl⟩ := Option.map_eq_some_iff.mp ht
    refine matched_stub h fun st' hst' => ?_
    cases hst'
    exact h.proto st hst
  | unref =>
    obtain ⟨st, hst, rfl⟩ := Option.map_eq_some_iff.mp ht
    refine matched_stub h fun st' hst' => ?_
    obtain ⟨hp, hc⟩ := unref_keeps hst'
    rw [hp, hc]
    exact h.proto st hst
  | hangup =>
    obtain ⟨st, hst, rfl⟩ := Option.map_eq_some_iff.mp ht
    refine matched_stub h fun st' hst' => ?_
    simp only [onHangup] at hst'
    split at hst'
    · obtain ⟨hp, -⟩ := unref_keeps hst'
      rw [hp]
      rintro _ ⟨⟩
    · cases hst'
      exact h.proto st hst
  | call reopened mem =>
    obtain ⟨st, hst, ht⟩ := Option.bind_eq_some_iff.mp ht
    obtain ⟨hc, ht⟩ := Option.ite_none_right_eq_some.mp ht
    cases ht
    refine matched_use h hst hc .call fun hr hm hp => ?_
    subst hr hm
    exact hop st hst hc hp
  | describe reopened mem =>
    obtain ⟨st, hst, ht⟩ := Option.bind_eq_some_iff.mp ht
    obtain ⟨hc, ht⟩ := Option.ite_none_right_eq_some.mp ht
    cases ht
    refine matched_use h hst hc .describe fun hr hm hp => ?_
    subst hr hm
    exact hop st hst hc hp
  | reply =>
    obtain ⟨st, hst, ht⟩ := Option.bind_eq_some_iff.mp ht
    obtain ⟨side, hside, ht⟩ := Option.bind_eq_some_iff.mp ht
    obtain ⟨hc, ht⟩ := Option.ite_none_right_eq_some.mp ht
    cases ht
    refine ⟨h.proto, fun u hu => ?_⟩
    rcases List.mem_append.mp hu with hold | hnew
    · exact h.uses u hold
    · rw [List.mem_singleton.mp hnew]
      exact (h.proto st hst side hside).mpr hc

private theorem reopened_unmatched (hc : st.isClient = true) (hp : st.proto = none)
    (hr : st.reopen = true) (use : Use) :
    ¬ Matched (clientUse w st use true true) := by
  intro h
  have hget : clientGetProto st true true = (some .server, { st with proto := some .server }) := by
    simp [clientGetProto, afbStubWsCreateProto, hp, hr]
  have hproto := h.proto _ (Option.mem_some.mpr rfl)
  simp only [hget] at hproto
  have := (hproto .server rfl).mpr hc
  cases this

end

/-- In every run the proto matches the stub in each state gone through, and only client
protos are used as such, exactly when no client that lost its proto reopens its
connection: the reopening asks for a server. -/
theorem proto_matches_iff (ops : List Op) :
    Always step Matched .start ops ↔ Along step NotReopened .start ops := by
  refine always_iff_along (I := Matched) (fun _ h => h) (fun w op t h hop ht => ?_)
    (fun w op h hop => ?_) ⟨by simp [Connection.start], by simp [Connection.start]⟩ ops
  · exact matched_step h op hop ht
  · have hlost : ∀ use, (¬ ∀ st ∈ w.stub, st.isClient = true → st.proto = none → st.reopen = false) →
        ∃ st, w.stub = some st ∧ st.isClient = true ∧ ¬ Matched (clientUse w st use true true) := by
      intro use hnot
      simp only [not_forall, Bool.not_eq_false] at hnot
      obtain ⟨st, hst, hc, hp, hr⟩ := hnot
      exact ⟨st, hst, hc, reopened_unmatched hc hp hr use⟩
    cases op with
    | call reopened mem =>
      cases reopened <;> cases mem <;> try exact absurd trivial hop
      obtain ⟨st, hst, hc, hbad⟩ := hlost .call hop
      exact ⟨_, by simp [step, hst, hc], hbad⟩
    | describe reopened mem =>
      cases reopened <;> cases mem <;> try exact absurd trivial hop
      obtain ⟨st, hst, hc, hbad⟩ := hlost .describe hop
      exact ⟨_, by simp [step, hst, hc], hbad⟩
    | _ => exact absurd trivial hop

/-- A robust client that is hung up and called again has a server proto, used for the call. -/
theorem reopened_as_server :
    ∃ w, exec step .start [.createClient true true, .robustify true, .hangup, .call true true] =
        some w ∧
      w.stub = some ⟨some .server, true, true, false, 1⟩ ∧ w.uses = [(.call, .server)] ∧
      ¬ Matched w := by
  refine ⟨_, rfl, rfl, rfl, fun h => ?_⟩
  have := h.uses (.call, .server) List.mem_cons_self
  cases this

end AfbBinder.Stub.Proto
