import AfbBinder.ProtoWs.Pending

/-! A client stub asks for the description of its api in a loop of jobs, that the callback of the
description leaves, or the hangup, or client_send_describe_cb itself. -/
namespace AfbBinder.Stub.Describing
open Lib.Runs ProtoWs

/-- Where an execution of client_send_describe_cb is: in afb_proto_ws_client_describe of a
proto, returned after its request was sent, or returned without. -/
inductive Sending where
  | calling (proto : Nat)
  | asked (proto number : Nat)
  | over
  deriving DecidableEq, Repr

/-- The protos have the numbers of their creations. The closure of a describe is the execution
that made it; leaves counts the jobs_leave of the loop of each execution. -/
structure Client where
  proto : Option Nat
  reopen : Bool
  isClient : Nat → Bool
  protos : Nat → Pending.Proto
  created : Nat
  sending : Nat → Sending
  closure : Nat → Nat → Nat
  count : Nat
  leaves : Nat → Nat

def start (reopen : Bool) : Client where
  proto := some 0
  reopen
  isClient _ := true
  protos _ := .start
  created := 1
  sending _ := .over
  closure _ _ := 0
  count := 0
  leaves _ := 0

def jobsLeave (s : Client) (e : Nat) : Client :=
  { s with leaves := Function.update s.leaves e (s.leaves e + 1) }

/-- A reopened connection gets a proto of server. -/
def clientGetProto (s : Client) (reopened mem : Bool) : Option Nat × Client :=
  if s.proto = none ∧ s.reopen = true ∧ reopened = true then
    if mem then
      (some s.created, { s with
        proto := some s.created
        isClient := Function.update s.isClient s.created false
        created := s.created + 1 })
    else (none, s)
  else (s.proto, s)

def setSending (s : Client) (e : Nat) (x : Sending) : Client :=
  { s with sending := Function.update s.sending e x }

/-- client_send_describe_cb up to the call of afb_proto_ws_client_describe. -/
def clientSendDescribe (s : Client) (signum reopened mem : Bool) : Client :=
  let (proto, s) := clientGetProto s reopened mem
  let e := s.count
  let s := { s with count := e + 1 }
  match proto with
  | none => jobsLeave (setSending s e .over) e
  | some p => if signum then jobsLeave (setSending s e .over) e else setSending s e (.calling p)

/-- The proto calls the callbacks of the describes that it told of, which leave their loops. -/
def callbacks (s : Client) (p : Nat) (l : Pending.Proto) : Client :=
  (l.told.drop (s.protos p).told.length).foldl (fun s x => jobsLeave s (s.closure p x.2))
    { s with protos := Function.update s.protos p l }

/-- The result of afb_proto_ws_client_describe is not looked at. -/
def afbProtoWsClientDescribe (s : Client) (e p addr : Nat) (mem ok : Bool) : Option Client :=
  if mem then
    (Pending.step (s.protos p) (.describe addr ok)).map fun l =>
      let number := (s.protos p).next
      let sent : Bool := (s.protos p).calls.hangup = .connected && ok
      setSending { s with
        protos := Function.update s.protos p l
        closure := Function.update s.closure p (Function.update (s.closure p) number e) } e
        (if sent then .asked p number else .over)
  else some (setSending s e .over)

/-- The flags tell whether there is memory, whether the message is written, whether the job is
called with a signal. -/
inductive Action where
  | robustify (reopen : Bool)
  | execute (signum reopened mem : Bool)
  | describe (e addr : Nat) (mem ok : Bool)
  | receive (p : Nat) (d : Pending.Describe) (mem : Bool)
  | description (p : Nat) (d : Pending.Describe) (sig : Bool)
  | call (p : Nat) (a : Calls.Action)
  | exchangeDescribes (p : Nat)
  | hangupDescribe (p : Nat)
  | lost (p : Nat)

def setProto (s : Client) (p : Nat) (l : Pending.Proto) : Client :=
  { s with protos := Function.update s.protos p l }

/-- The steps of the protos, of the jobs and of the hangups of each proto created. -/
def step (s : Client) : Action → Option Client
  | .robustify reopen => some { s with reopen }
  | .execute signum reopened mem => some (clientSendDescribe s signum reopened mem)
  | .describe e addr mem ok =>
    match s.sending e with
    | .calling p => afbProtoWsClientDescribe s e p addr mem ok
    | _ => none
  | .receive p d mem =>
    if p < s.created then
      (Pending.step (s.protos p) (.answerDescribe d)).map fun l =>
        setProto s p (if mem then l else { s.protos p with asked := (s.protos p).asked.erase d })
    else none
  | .description p d sig =>
    if p < s.created ∧ d ∈ (s.protos p).received then
      -- the proto of a server does not know the message
      if s.isClient p = true ∧ sig = false then
        (Pending.step (s.protos p) (.description d)).map (callbacks s p)
      else some (setProto s p { s.protos p with received := (s.protos p).received.erase d })
    else none
  | .call p a =>
    if p < s.created then (Pending.step (s.protos p) (.call a)).map (setProto s p) else none
  | .exchangeDescribes p =>
    if p < s.created then (Pending.step (s.protos p) .exchangeDescribes).map (setProto s p) else none
  | .hangupDescribe p =>
    if p < s.created then (Pending.step (s.protos p) .hangupDescribe).map (callbacks s p) else none
  | .lost p =>
    if s.proto = some p ∧ (s.protos p).calls.hangup = .taken none [] ∧ (s.protos p).ncd = some []
    then some { s with proto := none } else none

/-- The request has no answer yet on a living connection, or the hangup has still to tell. -/
def Waits (l : Pending.Proto) (number : Nat) : Prop :=
  (l.calls.hangup = .connected ∧ ∃ d ∈ l.asked ++ l.received, d.number = number) ∨
    (l.calls.hangup ≠ .connected ∧ ∃ d ∈ l.describes ++ l.ncd.getD [], d.number = number)

/-- Nothing is to come for the execution: its request was not sent, or its description was
processed, or its connection hung up. -/
def Settled (s : Client) (e : Nat) : Prop :=
  match s.sending e with
  | .calling _ => False
  | .asked p number => ¬ Waits (s.protos p) number
  | .over => True

/-- The request is sent; on a living connection, the description gets its memory and its job is
processed by a proto of client. -/
def Delivers (s : Client) : Action → Prop
  | .describe e addr mem ok => ∀ p, s.sending e = .calling p → mem = true ∧
      ((Pending.newDescid (s.protos p) addr).isSome →
        (s.protos p).calls.hangup = .connected ∧ ok = true)
  | .receive p d mem => p < s.created → d ∈ (s.protos p).asked →
      (s.protos p).calls.hangup = .connected → mem = true
  | .description p d sig => p < s.created → d ∈ (s.protos p).received →
      (s.protos p).calls.hangup = .connected → s.isClient p = true ∧ sig = false
  | _ => True

/-- The numbers of the describes in the list, taken by the hangup or told. -/
def numbers (l : Pending.Proto) : List Nat :=
  (l.describes ++ l.ncd.getD []).map Pending.Describe.number ++ l.told.map Prod.snd

/-- Each describe sent is in the list, taken or told, once; those of the list of a living
connection wait for their description. -/
structure Kept (l : Pending.Proto) : Prop where
  inv : Pending.Inv l
  once : (numbers l).Perm (List.range l.next)
  pending : l.calls.hangup = .connected → ∀ d ∈ l.describes, d ∈ l.asked ++ l.received
  taken : l.ncd ≠ none → l.describes = [] ∧ l.calls.hangup ≠ .connected

/-- How often the describe of the number was told. -/
def told (l : Pending.Proto) (number : Nat) : Nat := (l.told.map Prod.snd).count number

section
variable {l m : Pending.Proto} {d : Pending.Describe} {n : Nat}

private theorem kept_start : Kept .start where
  inv := Pending.inv_start
  once := .refl _
  pending _ _ hd := absurd hd List.not_mem_nil
  taken h := absurd rfl h

private theorem Kept.ncd (h : Kept l) (hon : l.calls.hangup = .connected) : l.ncd = none := by
  cases hn : l.ncd with
  | none => rfl
  | some x => exact absurd hon (h.taken (by rw [hn]; exact Option.some_ne_none x)).2

private theorem Kept.count_numbers (h : Kept l) (hn : n < l.next) : (numbers l).count n = 1 := by
  rw [h.once.count_eq]
  exact List.count_eq_one_of_mem List.nodup_range (List.mem_range.mpr hn)

/-- A describe in the list was not told. -/
theorem Kept.untold (h : Kept l) (hd : d ∈ l.describes) : told l d.number = 0 := by
  have hmem : d.number ∈ (l.describes ++ l.ncd.getD []).map Pending.Describe.number :=
    List.mem_map_of_mem (List.mem_append_left _ hd)
  have hnext : d.number < l.next := by
    have hin := h.once.mem_iff.mp (List.mem_append_left (l.told.map Prod.snd) hmem)
    exact List.mem_range.mp hin
  have hcount := h.count_numbers hnext
  have hpos := List.count_pos_iff.mpr hmem
  rw [numbers, List.count_append] at hcount
  change (l.told.map Prod.snd).count d.number = 0
  omega

private theorem kept_describe (h : Kept l) {addr : Nat} {ok : Bool}
    (hstep : Pending.step l (.describe addr ok) = some m) (hon : l.calls.hangup = .connected)
    (hok : ok = true) : Kept m ∧ m.next = l.next + 1 ∧ m.told = l.told := by
  have hinv := Pending.inv_step h.inv hstep
  simp only [Pending.step, Option.map_eq_some_iff] at hstep
  obtain ⟨descid, -, rfl⟩ := hstep
  have hsent : l.calls.hangup = .connected ∧ ok = true := ⟨hon, hok⟩
  rw [if_pos hsent] at hinv ⊢
  refine ⟨⟨hinv, ?_, fun _ d hd => ?_, fun hn => absurd (h.ncd hon) hn⟩, rfl, rfl⟩
  · change (l.next :: numbers l).Perm (List.range (l.next + 1))
    rw [List.range_succ]
    exact (h.once.cons _).trans (List.perm_append_singleton _ _).symm
  · rcases List.mem_cons.mp hd with rfl | hd
    · exact List.mem_cons_self
    · exact List.mem_cons_of_mem _ (h.pending hon d hd)

private theorem kept_answer (h : Kept l) (hstep : Pending.step l (.answerDescribe d) = some m) :
    Kept m ∧ m.next = l.next ∧ m.told = l.told := by
  have hinv := Pending.inv_step h.inv hstep
  simp only [Pending.step, Option.ite_none_right_eq_some, Option.some.injEq] at hstep
  obtain ⟨⟨hd, -⟩, rfl⟩ := hstep
  refine ⟨⟨hinv, h.once, fun hon e he => ?_, h.taken⟩, rfl, rfl⟩
  rcases List.mem_append.mp (h.pending hon e he) with he | he
  · by_cases hed : e = d
    · exact List.mem_append_right _ (List.mem_append_right _ (List.mem_singleton.mpr hed))
    · exact List.mem_append_left _ ((List.mem_erase_of_ne hed).mpr he)
  · exact List.mem_append_right _ (List.mem_append_left _ he)

/-- The job of a description does nothing, or tells of a describe of the list. -/
theorem kept_description (h : Kept l) (hstep : Pending.step l (.description d) = some m) :
    Kept m ∧ m.next = l.next ∧ (m.told = l.told ∨ ∃ x, m.told = l.told ++ [x]) := by
  have hinv := Pending.inv_step h.inv hstep
  simp only [Pending.step, Option.ite_none_right_eq_some] at hstep
  obtain ⟨hd, hstep⟩ := hstep
  have hfound := fun hon => Pending.find_described h.inv (h.ncd hon) hd
  split at hstep
  next hnone =>
    cases hstep
    refine ⟨⟨hinv, h.once, fun hon => ?_, h.taken⟩, rfl, .inl rfl⟩
    exact absurd ((hfound hon).symm.trans hnone) (Option.some_ne_none d)
  next desc hdesc =>
    cases hstep
    have hmem := List.mem_of_find?_eq_some hdesc
    refine ⟨⟨hinv, ?_, fun hon e he => ?_, fun hn => ?_⟩, rfl, .inr ⟨_, rfl⟩⟩
    · refine List.Perm.trans ?_ h.once
      have hperm : (desc :: (l.describes.erase desc ++ l.ncd.getD [])).Perm
          (l.describes ++ l.ncd.getD []) := (List.perm_cons_erase hmem).symm.append_right _
      have hmap := hperm.map Pending.Describe.number
      simp only [numbers, List.map_append, List.map_cons, List.map_nil] at hmap ⊢
      rw [← List.append_assoc]
      exact (List.perm_append_singleton _ _).trans (hmap.append_right _)
    · obtain rfl : desc = d := Option.some.inj (hdesc.symm.trans (hfound hon))
      have hne : e ≠ desc := by
        rintro rfl
        have hnodup : l.describes.Nodup := h.inv.descids.of_map
        exact hnodup.not_mem_erase he
      rcases List.mem_append.mp (h.pending hon e (List.mem_of_mem_erase he)) with he | he
      · exact List.mem_append_left _ he
      · exact List.mem_append_right _ ((List.mem_erase_of_ne hne).mpr he)
    · exact absurd hmem (by rw [(h.taken hn).1]; exact List.not_mem_nil)

private theorem kept_drop (h : Kept l) (hoff : l.calls.hangup ≠ .connected) :
    Kept { l with received := l.received.erase d } := by
  have hsub : (l.asked ++ l.received.erase d).Sublist (l.asked ++ l.received) :=
    (List.Sublist.refl _).append List.erase_sublist
  exact ⟨⟨h.inv.calls, h.inv.descids, h.inv.apart.sublist hsub,
    fun e he => h.inv.allocated e (hsub.subset he),
    fun hn e he => h.inv.listed hn e (hsub.subset he)⟩, h.once, fun hon => absurd hon hoff, h.taken⟩

/-- A connection does not live again. -/
theorem hangup_connected {c t : Calls.Client} {a : Calls.Action} (h : Calls.step c a = some t)
    (hon : t.hangup = .connected) : c.hangup = .connected := by
  cases a with
  | register addr =>
    obtain ⟨-, h⟩ := Option.ite_none_right_eq_some.mp h
    obtain ⟨callid, -, rfl⟩ := Option.map_eq_some_iff.mp h
    exact hon
  | disconnect =>
    obtain ⟨-, rfl⟩ := Option.ite_some_none_eq_some.mp h
    cases hon
  | exchange =>
    obtain ⟨-, rfl⟩ := Option.ite_some_none_eq_some.mp h
    cases hon
  | replyCallback k | replyUnlink k | replyFree k | hangupCallback | hangupFree =>
    simp only [Calls.step] at h
    split at h <;> cases h
    first
    | exact hon
    | cases hon
  | _ =>
    obtain ⟨-, rfl⟩ := Option.ite_some_none_eq_some.mp h
    exact hon

private theorem kept_call (h : Kept l) {a : Calls.Action} (hstep : Pending.step l (.call a) = some m) :
    Kept m ∧ m.next = l.next ∧ m.told = l.told := by
  have hinv := Pending.inv_step h.inv hstep
  simp only [Pending.step, Option.ite_none_left_eq_some, Option.map_eq_some_iff] at hstep
  obtain ⟨-, calls, hcalls, rfl⟩ := hstep
  refine ⟨⟨hinv, h.once, fun hon => h.pending (hangup_connected hcalls hon), fun hn => ?_⟩, rfl, rfl⟩
  exact ⟨(h.taken hn).1, fun hon => (h.taken hn).2 (hangup_connected hcalls hon)⟩

private theorem kept_exchange (h : Kept l) (hstep : Pending.step l .exchangeDescribes = some m) :
    Kept m ∧ m.next = l.next ∧ m.told = l.told := by
  have hinv := Pending.inv_step h.inv hstep
  simp only [Pending.step, Option.ite_none_right_eq_some, Option.some.injEq] at hstep
  obtain ⟨⟨hoff, hnone⟩, rfl⟩ := hstep
  have hne : l.calls.hangup ≠ .connected := by rw [hoff]; rintro ⟨⟩
  refine ⟨⟨hinv, ?_, fun hon => absurd hon hne, fun _ => ⟨rfl, hne⟩⟩, rfl, rfl⟩
  have honce := h.once
  rw [numbers, hnone] at honce
  simpa [numbers] using honce

private theorem kept_hangup (h : Kept l) (hstep : Pending.step l .hangupDescribe = some m) :
    Kept m ∧ m.next = l.next ∧ ∃ x, m.told = l.told ++ [x] := by
  have hinv := Pending.inv_step h.inv hstep
  simp only [Pending.step] at hstep
  split at hstep
  next d ncd hncd =>
    simp only [Option.ite_none_right_eq_some, Option.some.injEq] at hstep
    obtain ⟨hoff, rfl⟩ := hstep
    have htaken := h.taken (by rw [hncd]; exact Option.some_ne_none _)
    refine ⟨⟨hinv, ?_, fun hon => absurd hon htaken.2, fun _ => htaken⟩, rfl, _, rfl⟩
    refine List.Perm.trans ?_ h.once
    simp only [numbers, hncd, htaken.1, Option.getD_some, List.nil_append, List.map_cons,
      List.map_append, List.map_nil]
    rw [← List.append_assoc]
    exact List.perm_append_singleton _ _
  next => cases hstep

end

/-- How often an execution has left its loop. -/
def expected (s : Client) (e : Nat) : Nat :=
  match s.sending e with
  | .calling _ => 0
  | .asked p number => told (s.protos p) number
  | .over => 1

structure Inv (s : Client) : Prop where
  kept : ∀ p, Kept (s.protos p)
  asked : ∀ e p n, s.sending e = .asked p n → n < (s.protos p).next ∧ s.closure p n = e
  made : ∀ p n, n < (s.protos p).next → s.sending (s.closure p n) = .asked p n ∧
    s.closure p n < s.count
  leaves : ∀ e < s.count, s.leaves e = expected s e
  unmade : ∀ e, s.count ≤ e → s.sending e = .over ∧ s.leaves e = 0

section
variable {s t : Client} {l : Pending.Proto} {e p : Nat}

private theorem inv_start (reopen : Bool) : Inv (start reopen) where
  kept _ := kept_start
  asked _ _ _ h := by cases h
  made _ _ h := absurd h (Nat.not_lt_zero _)
  leaves _ h := absurd h (Nat.not_lt_zero _)
  unmade _ _ := ⟨rfl, rfl⟩

/-- The executions and the protos only matter. -/
theorem Inv.congr (h : Inv s) (hp : t.protos = s.protos) (hs : t.sending = s.sending)
    (hc : t.closure = s.closure) (hn : t.count = s.count) (hl : t.leaves = s.leaves) : Inv t := by
  refine ⟨fun p => hp ▸ h.kept p, fun e p n he => ?_, fun p n hlt => ?_, fun e he => ?_, fun e he => ?_⟩
  · rw [hs] at he
    rw [hp, hc]
    exact h.asked e p n he
  · rw [hp] at hlt
    rw [hs, hc, hn]
    exact h.made p n hlt
  · rw [hl, expected, hs, hp]
    exact h.leaves e (hn ▸ he)
  · rw [hs, hl]
    exact h.unmade e (hn ▸ he)

/-- The steps of a proto that tell of no describe and send none. -/
theorem Inv.moved (h : Inv s) (hk : Kept l) (hnext : l.next = (s.protos p).next)
    (htold : l.told = (s.protos p).told) : Inv (setProto s p l) := by
  have hproto : ∀ q, ((setProto s p l).protos q).next = (s.protos q).next ∧
      ((setProto s p l).protos q).told = (s.protos q).told := by
    intro q
    by_cases hq : q = p
    · subst hq
      simp [setProto, hnext, htold]
    · simp [setProto, hq]
  refine ⟨fun q => ?_, fun e q n he => ?_, fun q n hlt => ?_, fun e he => ?_, h.unmade⟩
  · by_cases hq : q = p
    · subst hq
      simpa [setProto] using hk
    · simpa [setProto, hq] using h.kept q
  · rw [(hproto q).1]
    exact h.asked e q n he
  · rw [(hproto q).1] at hlt
    exact h.made q n hlt
  · refine (h.leaves e he).trans ?_
    unfold expected told
    change _ = match s.sending e with
      | .calling _ => 0
      | .asked p' number => (List.map Prod.snd
          ((setProto s p l).protos p').told).count number
      | .over => 1
    cases s.sending e with
    | calling => rfl
    | asked q n => simp only [(hproto q).2]
    | _ => rfl

/-- A describe is told of and its execution leaves its loop. -/
theorem Inv.tell (h : Inv s) (hk : Kept l) (hnext : l.next = (s.protos p).next) {x : Option Nat × Nat}
    (htold : l.told = (s.protos p).told ++ [x]) : Inv (callbacks s p l) := by
  have hcallbacks : callbacks s p l = jobsLeave (setProto s p l) (s.closure p x.2) := by
    rw [callbacks, htold, List.drop_left]
    rfl
  have hx : x.2 < (s.protos p).next := by
    have hmem : x.2 ∈ numbers l := by
      rw [numbers, htold]
      simp
    rw [← hnext]
    exact List.mem_range.mp (hk.once.mem_iff.mp hmem)
  have hself : (setProto s p l).protos p = l := Function.update_self ..
  have hother : ∀ q, q ≠ p → (setProto s p l).protos q = s.protos q := fun q hq =>
    Function.update_of_ne hq ..
  have hnexts : ∀ q, ((setProto s p l).protos q).next = (s.protos q).next := by
    intro q
    by_cases hq : q = p
    · rw [hq, hself, hnext]
    · rw [hother q hq]
  rw [hcallbacks]
  refine ⟨fun q => ?_, fun e q n he => ?_, fun q n hlt => ?_, fun e he => ?_, fun e he => ?_⟩
  · change Kept ((setProto s p l).protos q)
    by_cases hq : q = p
    · rw [hq, hself]
      exact hk
    · rw [hother q hq]
      exact h.kept q
  · change n < ((setProto s p l).protos q).next ∧ _
    rw [hnexts q]
    exact h.asked e q n he
  · change n < ((setProto s p l).protos q).next at hlt
    rw [hnexts q] at hlt
    exact h.made q n hlt
  · have hold := h.leaves e he
    have hmade := (h.made p x.2 hx).1
    change Function.update s.leaves (s.closure p x.2) (s.leaves (s.closure p x.2) + 1) e =
      match s.sending e with
      | .calling _ => 0
      | .asked q n => told ((setProto s p l).protos q) n
      | .over => 1
    by_cases heq : e = s.closure p x.2
    · subst heq
      rw [Function.update_self, hold, expected, hmade]
      simp only [hself, told, htold, List.map_append, List.map_cons, List.map_nil,
        List.count_append, List.count_singleton_self]
    · rw [Function.update_of_ne heq, hold, expected]
      cases hse : s.sending e with
      | calling => rfl
      | asked q n =>
        by_cases hq : q = p
        · subst hq
          have hn : x.2 ≠ n := fun hn => heq (hn ▸ (h.asked e q n hse).2.symm)
          simp only [hself, told, htold, List.map_append, List.map_cons, List.map_nil,
            List.count_append, List.count_singleton]
          simp [hn]
        · simp only [hother q hq]
      | _ => rfl

  · have hne : e ≠ s.closure p x.2 := by
      rintro rfl
      exact absurd (h.made p x.2 hx).2 (Nat.not_lt.mpr he)
    exact ⟨(h.unmade e he).1, (Function.update_of_ne hne ..).trans (h.unmade e he).2⟩

/-- A new execution, that returned at once or goes on. -/
theorem inv_execute (h : Inv s) (hp : t.protos = s.protos) (hc : t.closure = s.closure)
    (hn : t.count = s.count + 1) {x : Sending} {k : Nat}
    (hs : t.sending = Function.update s.sending s.count x)
    (hl : t.leaves = Function.update s.leaves s.count k)
    (hx : x = .over ∧ k = 1 ∨ ∃ p, x = .calling p ∧ k = 0) : Inv t := by
  have hother : ∀ e, e ≠ s.count → t.sending e = s.sending e ∧ t.leaves e = s.leaves e := by
    intro e he
    rw [hs, hl, Function.update_of_ne he, Function.update_of_ne he]
    exact ⟨rfl, rfl⟩
  have hself : t.sending s.count = x ∧ t.leaves s.count = k := by
    rw [hs, hl, Function.update_self, Function.update_self]
    exact ⟨rfl, rfl⟩
  refine ⟨fun p => hp ▸ h.kept p, fun e p n he => ?_, fun p n hlt => ?_, fun e he => ?_, fun e he => ?_⟩
  · have hne : e ≠ s.count := by
      rintro rfl
      rcases hx with ⟨rfl, -⟩ | ⟨q, rfl, -⟩
      · cases hself.1.symm.trans he
      · cases hself.1.symm.trans he
    rw [(hother e hne).1] at he
    rw [hp, hc]
    exact h.asked e p n he
  · rw [hp] at hlt
    obtain ⟨hasked, hmade⟩ := h.made p n hlt
    rw [hc, hn, (hother _ (Nat.ne_of_lt hmade)).1]
    exact ⟨hasked, Nat.lt_succ_of_lt hmade⟩
  · by_cases hec : e = s.count
    · subst hec
      rw [hself.2, expected, hself.1]
      rcases hx with ⟨rfl, rfl⟩ | ⟨q, rfl, rfl⟩
      · rfl
      · rfl
    · rw [expected, hp, (hother e hec).1, (hother e hec).2]
      exact h.leaves e (by omega)
  · rw [hn] at he
    have hec : e ≠ s.count := by omega
    rw [(hother e hec).1, (hother e hec).2]
    exact h.unmade e (Nat.le_of_succ_le he)

private theorem inv_clientSendDescribe (h : Inv s) (signum reopened mem : Bool) :
    Inv (clientSendDescribe s signum reopened mem) := by
  have hnone := (h.unmade s.count (Nat.le_refl _)).2
  have hzero : s.leaves = Function.update s.leaves s.count 0 := by
    rw [← hnone, Function.update_eq_self]
  have hone : Function.update s.leaves s.count (s.leaves s.count + 1) =
      Function.update s.leaves s.count 1 := by rw [hnone]
  have hframe : (clientGetProto s reopened mem).2.protos = s.protos ∧
      (clientGetProto s reopened mem).2.closure = s.closure ∧
      (clientGetProto s reopened mem).2.count = s.count ∧
      (clientGetProto s reopened mem).2.sending = s.sending ∧
      (clientGetProto s reopened mem).2.leaves = s.leaves := by
    unfold clientGetProto
    split
    · split
      · exact ⟨rfl, rfl, rfl, rfl, rfl⟩
      · exact ⟨rfl, rfl, rfl, rfl, rfl⟩
    · exact ⟨rfl, rfl, rfl, rfl, rfl⟩
  unfold clientSendDescribe
  generalize clientGetProto s reopened mem = r at hframe
  obtain ⟨proto, u⟩ := r
  obtain ⟨hp, hc, hn, hs, hl⟩ := hframe
  dsimp only at hp hc hn hs hl ⊢
  cases proto with
  | none =>
    refine inv_execute h hp hc (congrArg (· + 1) hn) ?_ ?_ (.inl ⟨rfl, rfl⟩)
    · exact hs ▸ hn ▸ rfl
    · rw [← hone, ← hl, ← hn]
      rfl
  | some p =>
    cases signum with
    | true =>
      refine inv_execute h hp hc (congrArg (· + 1) hn) ?_ ?_ (.inl ⟨rfl, rfl⟩)
      · exact hs ▸ hn ▸ rfl
      · rw [← hone, ← hl, ← hn]
        rfl
    | false =>
      refine inv_execute h hp hc (congrArg (· + 1) hn) ?_ ?_ (.inr ⟨p, rfl, rfl⟩)
      · exact hs ▸ hn ▸ rfl
      · rw [← hzero]
        exact hl

private theorem calling_lt (h : Inv s) (he : s.sending e = .calling p) : e < s.count := by
  by_contra hge
  cases he.symm.trans (h.unmade e (Nat.not_lt.mp hge)).1

/-- The request is sent: its number was never told. -/
theorem inv_asked (h : Inv s) (he : s.sending e = .calling p) (hk : Kept l)
    (hnext : l.next = (s.protos p).next + 1) (htold : l.told = (s.protos p).told) :
    Inv (setSending { s with
      protos := Function.update s.protos p l
      closure := Function.update s.closure p
        (Function.update (s.closure p) (s.protos p).next e) } e (.asked p (s.protos p).next)) := by
  have hlt := calling_lt h he
  have hself : (Function.update s.protos p l) p = l := Function.update_self ..
  have hother : ∀ q, q ≠ p → (Function.update s.protos p l) q = s.protos q := fun q hq =>
    Function.update_of_ne hq ..
  have hclosure : ∀ q n, (q = p → n ≠ (s.protos p).next) → Function.update s.closure p
      (Function.update (s.closure p) (s.protos p).next e) q n = s.closure q n := by
    intro q n hn
    by_cases hq : q = p
    · subst hq
      rw [Function.update_self, Function.update_of_ne (hn rfl)]
    · rw [Function.update_of_ne hq]
  have hnew : Function.update s.closure p (Function.update (s.closure p) (s.protos p).next e) p
      (s.protos p).next = e := by
    rw [Function.update_self, Function.update_self]
  have hsending : ∀ x, x ≠ e → Function.update s.sending e (.asked p (s.protos p).next) x =
      s.sending x := fun x hx => Function.update_of_ne hx ..
  constructor
  case kept =>
    intro q
    change Kept (Function.update s.protos p l q)
    by_cases hq : q = p
    · rw [hq, hself]
      exact hk
    · rw [hother q hq]
      exact h.kept q
  case asked =>
    intro x q n hx
    change Function.update s.sending e (.asked p (s.protos p).next) x = _ at hx
    change n < (Function.update s.protos p l q).next ∧ Function.update s.closure p
      (Function.update (s.closure p) (s.protos p).next e) q n = x
    by_cases hxe : x = e
    · subst hxe
      rw [Function.update_self] at hx
      cases hx
      rw [hself, hnext]
      exact ⟨Nat.lt_succ_self _, hnew⟩
    · rw [hsending x hxe] at hx
      obtain ⟨hn, hc⟩ := h.asked x q n hx
      rw [hclosure q n fun hq hn' => by subst hq; omega]
      refine ⟨?_, hc⟩
      by_cases hq : q = p
      · subst hq
        rw [hself, hnext]
        exact Nat.lt_succ_of_lt hn
      · rw [hother q hq]
        exact hn
  case made =>
    intro q n hn
    change n < (Function.update s.protos p l q).next at hn
    change Function.update s.sending e _ (Function.update s.closure p
      (Function.update (s.closure p) (s.protos p).next e) q n) = _ ∧ Function.update s.closure p
      (Function.update (s.closure p) (s.protos p).next e) q n < s.count
    by_cases hqn : q = p ∧ n = (s.protos p).next
    · obtain ⟨rfl, rfl⟩ := hqn
      rw [hnew, Function.update_self]
      exact ⟨rfl, hlt⟩
    · have hold : n < (s.protos q).next := by
        by_cases hq : q = p
        · subst hq
          rw [hself, hnext] at hn
          have hne : n ≠ (s.protos q).next := fun hne => hqn ⟨rfl, hne⟩
          omega
        · rwa [hother q hq] at hn
      obtain ⟨hasked, hmade⟩ := h.made q n hold
      rw [hclosure q n fun hq hn' => hqn ⟨hq, hn'⟩]
      have hne : s.closure q n ≠ e := by
        intro hce
        rw [hce, he] at hasked
        cases hasked
      rw [hsending _ hne]
      exact ⟨hasked, hmade⟩
  case leaves =>
    intro x hx
    have hold := h.leaves x hx
    change s.leaves x = match Function.update s.sending e (.asked p (s.protos p).next) x with
      | .calling _ => 0
      | .asked q n => told (Function.update s.protos p l q) n
      | .over => 1
    rw [hold, expected]
    by_cases hxe : x = e
    · subst hxe
      have hzero : told (s.protos p) (s.protos p).next = 0 := by
        refine List.count_eq_zero.mpr fun hm => ?_
        have hin := (h.kept p).once.mem_iff.mp (List.mem_append_right _ hm)
        exact Nat.lt_irrefl _ (List.mem_range.mp hin)
      rw [Function.update_self, he]
      simp only [hself, told, htold]
      exact hzero.symm
    · rw [hsending x hxe]
      cases s.sending x with
      | calling => rfl
      | asked q n =>
        by_cases hq : q = p
        · subst hq
          simp only [hself, told, htold]
        · simp only [hother q hq]
      | _ => rfl
  case unmade =>
    intro x hx
    have hne : x ≠ e := by
      rintro rfl
      exact absurd hlt (Nat.not_lt.mpr hx)
    refine ⟨(hsending x hne).trans (h.unmade x hx).1, (h.unmade x hx).2⟩

private theorem describe_eq {addr : Nat} {mem ok : Bool}
    (hs : afbProtoWsClientDescribe s e p addr mem ok = some t) :
    mem = false ∧ t = setSending s e .over ∨ mem = true ∧ ∃ l,
      Pending.step (s.protos p) (.describe addr ok) = some l ∧ t = setSending { s with
        protos := Function.update s.protos p l
        closure := Function.update s.closure p
          (Function.update (s.closure p) (s.protos p).next e) } e
        (if (s.protos p).calls.hangup = .connected ∧ ok = true then .asked p (s.protos p).next
          else .over) := by
  unfold afbProtoWsClientDescribe at hs
  cases mem with
  | false => exact .inl ⟨rfl, (Option.some.inj hs).symm⟩
  | true =>
    obtain ⟨l, hl, rfl⟩ := Option.map_eq_some_iff.mp hs
    refine .inr ⟨rfl, l, hl, ?_⟩
    simp

private theorem newDescid_of_step {addr : Nat} {ok : Bool}
    (h : Pending.step (s.protos p) (.describe addr ok) = some l) :
    (Pending.newDescid (s.protos p) addr).isSome := by
  obtain ⟨descid, hd, -⟩ := Option.map_eq_some_iff.mp h
  rw [hd]
  rfl

private theorem inv_step {a : Action} (h : Inv s) (hd : Delivers s a) (hs : step s a = some t) : Inv t := by
  cases a with
  | robustify reopen =>
    cases hs
    exact h.congr rfl rfl rfl rfl rfl
  | execute signum reopened mem =>
    cases hs
    exact inv_clientSendDescribe h signum reopened mem
  | describe e addr mem ok =>
    simp only [step] at hs
    split at hs
    next p hcalling =>
      obtain ⟨hmem, hsent⟩ := hd p hcalling
      rcases describe_eq hs with ⟨hno, -⟩ | ⟨-, l, hl, rfl⟩
      · rw [hmem] at hno
        cases hno
      · obtain ⟨hon, hok⟩ := hsent (newDescid_of_step hl)
        obtain ⟨hk, hnext, htold⟩ := kept_describe (h.kept p) hl hon hok
        rw [if_pos ⟨hon, hok⟩]
        exact inv_asked h hcalling hk hnext htold
    next => cases hs
  | receive p d mem =>
    obtain ⟨hp, hs⟩ := Option.ite_none_right_eq_some.mp hs
    obtain ⟨l, hl, rfl⟩ := Option.map_eq_some_iff.mp hs
    have hin := (Option.ite_none_right_eq_some.mp hl).1
    rw [hd hp hin.1 hin.2, if_pos rfl]
    obtain ⟨hk, hnext, htold⟩ := kept_answer (h.kept p) hl
    exact h.moved hk hnext htold
  | description p d sig =>
    obtain ⟨⟨hp, hin⟩, hs⟩ := Option.ite_none_right_eq_some.mp hs
    by_cases hside : s.isClient p = true ∧ sig = false
    · rw [if_pos hside] at hs
      obtain ⟨l, hl, rfl⟩ := Option.map_eq_some_iff.mp hs
      obtain ⟨hk, hnext, htold | ⟨x, htold⟩⟩ := kept_description (h.kept p) hl
      · have hnone : callbacks s p l = setProto s p l := by
          rw [callbacks, htold, List.drop_length]
          rfl
        rw [hnone]
        exact h.moved hk hnext htold
      · exact h.tell hk hnext htold
    · rw [if_neg hside] at hs
      cases hs
      have hoff : (s.protos p).calls.hangup ≠ .connected := fun hon => hside (hd hp hin hon)
      exact h.moved (kept_drop (h.kept p) hoff) rfl rfl
  | call p a =>
    obtain ⟨-, hs⟩ := Option.ite_none_right_eq_some.mp hs
    obtain ⟨l, hl, rfl⟩ := Option.map_eq_some_iff.mp hs
    obtain ⟨hk, hnext, htold⟩ := kept_call (h.kept p) hl
    exact h.moved hk hnext htold
  | exchangeDescribes p =>
    obtain ⟨-, hs⟩ := Option.ite_none_right_eq_some.mp hs
    obtain ⟨l, hl, rfl⟩ := Option.map_eq_some_iff.mp hs
    obtain ⟨hk, hnext, htold⟩ := kept_exchange (h.kept p) hl
    exact h.moved hk hnext htold
  | hangupDescribe p =>
    obtain ⟨-, hs⟩ := Option.ite_none_right_eq_some.mp hs
    obtain ⟨l, hl, rfl⟩ := Option.map_eq_some_iff.mp hs
    obtain ⟨hk, hnext, x, htold⟩ := kept_hangup (h.kept p) hl
    exact h.tell hk hnext htold
  | lost p =>
    obtain ⟨-, rfl⟩ := Option.ite_some_none_eq_some.mp hs
    exact h.congr rfl rfl rfl rfl rfl

end

end AfbBinder.Stub.Describing
