import Mathlib.Tactic.SplitIfs
import AfbBinder.Lib.Runs
import AfbBinder.Request.Model

/-! Every request is answered once and then released once. The count of references is
the number of references held by the users, by afb_xreq_process and by the job, so
the finaliser runs when nobody can use the request any more. -/
namespace AfbBinder.Request
open Lib.Runs

inductive Answer where
  | reply
  | unref
  deriving DecidableEq, Repr

def Event.answer {J : Type} : Event J → Option Answer
  | .reply _ => some .reply
  | .unref => some .unref
  | _ => none

/-- The calls of reply and unref of the query interface, in order. -/
def answers {J : Type} (events : List (Event J)) : List Answer := events.filterMap Event.answer

/-- References that an activity holds: it releases one by unref, takes one by addref and
gives one by queue. -/
def held : List Instr → Int
  | [] => 0
  | .addref :: l => held l - 1
  | .queue :: l => held l + 1
  | .unref :: l => held l + 1
  | .initHooking :: l => held l
  | .replyV _ _ :: l => held l
  | .call :: l => held l

/-- The activity holds a reference until its last operation. -/
def Holding : List Instr → Prop
  | [] => True
  | i :: l => 0 < held (i :: l) ∧ Holding l

variable {J : Type}

/-- The calls that a request has made when its count and its flag are these. -/
def due (refcount : Int) (replied : Bool) : List Answer :=
  if refcount = 0 then [.reply, .unref] else if replied then [.reply] else []

/-- The references are those held, and the calls are those due. -/
structure Inv (s : State J) : Prop where
  count : s.xreq.refcount = s.users + held (s.process.getD []) + held s.job
  process : Holding (s.process.getD [])
  queueOnce : (s.process.getD []).count .queue ≤ 1
  job : ∃ sig, s.job <:+ processAsync sig
  unqueued : s.process = none ∨ .queue ∈ s.process.getD [] → s.job = []
  answers : answers s.xreq.events = due s.xreq.refcount s.xreq.replied

private theorem Holding.pos {l : List Instr} (h : Holding l) (hl : l ≠ []) : 0 < held l := by
  cases l with
  | nil => exact absurd rfl hl
  | cons i l => exact h.1

private theorem Holding.nonneg {l : List Instr} (h : Holding l) : 0 ≤ held l := by
  cases l with
  | nil => exact Int.le_refl 0
  | cons i l => exact Int.le_of_lt h.1

private theorem suffix_processAsync {l : List Instr} {sig : Option Signal}
    (h : l <:+ processAsync sig) : Holding l ∧ .queue ∉ l ∧ (l ≠ [] → held l = 1) := by
  cases sig <;>
  · simp only [processAsync, List.suffix_cons_iff, List.suffix_nil] at h
    rcases h with rfl | h
    · simp [Holding, held]
    rcases h with rfl | h
    · simp [Holding, held]
    rcases h with rfl | rfl <;> simp [Holding, held]

section
variable (x : Xreq J)

@[simp] private theorem answers_emit (e : Event J) :
    answers (x.emit e).events = answers x.events ++ e.answer.toList := by
  cases h : e.answer <;> simp [answers, Xreq.emit, List.filterMap_append, h]

@[simp] private theorem emit_refcount (e : Event J) : (x.emit e).refcount = x.refcount := rfl

@[simp] private theorem emit_replied (e : Event J) : (x.emit e).replied = x.replied := rfl

/-- What a request has called while it is referenced. -/
def Alive (x : Xreq J) : Prop := answers x.events = if x.replied then [.reply] else []

private theorem Alive.emit {x : Xreq J} (h : Alive x) {e : Event J} (he : e.answer = none) :
    Alive (x.emit e) := by
  have hsame : answers (x.emit e).events = answers x.events := by simp [he]
  exact hsame.trans h

private theorem alive_replyCb {x : Xreq J} (h : Alive x) (r : Reply J) :
    Alive (xreqReplyCb x r) ∧ (xreqReplyCb x r).refcount = x.refcount ∧
      (xreqReplyCb x r).replied = true := by
  unfold xreqReplyCb
  by_cases hr : x.replied = true
  · rw [if_pos hr]
    exact ⟨h, rfl, hr⟩
  · rw [if_neg hr]
    refine ⟨?_, rfl, rfl⟩
    simpa [Alive, Event.answer, hr] using h

theorem alive_reply {x : Xreq J} (h : Alive x) (r : Reply J) :
    Alive (afbXreqReply x r) ∧ (afbXreqReply x r).refcount = x.refcount ∧
      (afbXreqReply x r).replied = true := by
  unfold afbXreqReply xreqHookedReplyCb
  split
  · exact alive_replyCb (h.emit rfl) r
  · exact alive_replyCb h r

theorem alive_initHooking {x : Xreq J} (h : Alive x) (b : Bool) :
    Alive (initHooking x b) ∧ (initHooking x b).refcount = x.refcount := by
  cases b with
  | false => exact ⟨h, rfl⟩
  | true =>
    refine ⟨Alive.emit (x := { x with hookflags := true, hooked := true }) ?_ rfl, rfl⟩
    exact h

/-- The finaliser replies if nobody did, and its last call is the unref. -/
theorem finalize_answers {x : Xreq J} (h : Alive x) :
    answers (xreqFinalize x).events = [.reply, .unref] ∧
      (xreqFinalize x).refcount = x.refcount ∧ (xreqFinalize x).replied = true := by
  obtain ⟨y, hy⟩ : ∃ y, y = (if x.replied then x
    else afbXreqReply x ⟨none, some "error", some "no reply"⟩) := ⟨_, rfl⟩
  have halive : answers y.events = [.reply] ∧ y.refcount = x.refcount ∧ y.replied = true := by
    rw [hy]
    by_cases hr : x.replied = true
    · rw [if_pos hr]
      exact ⟨by simpa [Alive, hr] using h, rfl, hr⟩
    · rw [if_neg hr]
      obtain ⟨ha, hc, hr⟩ := alive_reply h ⟨none, some "error", some "no reply"⟩
      exact ⟨by simpa [Alive, hr] using ha, hc, hr⟩
  unfold xreqFinalize
  rw [← hy]
  dsimp only
  split_ifs <;> simp [halive, Event.answer]

theorem unref_answers {x : Xreq J} (h : Alive x) :
    (afbXreqUnhookedUnref x).refcount = x.refcount - 1 ∧
      answers (afbXreqUnhookedUnref x).events =
        due (x.refcount - 1) (afbXreqUnhookedUnref x).replied ∧
      ((afbXreqUnhookedUnref x).refcount = 0 → (afbXreqUnhookedUnref x).replied = true) := by
  have hd : Alive { x with refcount := x.refcount - 1 } := h
  unfold afbXreqUnhookedUnref
  by_cases hz : x.refcount - 1 = 0
  · rw [if_pos hz, due, if_pos hz]
    obtain ⟨ha, hc, hr⟩ := finalize_answers hd
    exact ⟨hc, ha, fun _ => hr⟩
  · rw [if_neg hz, due, if_neg hz]
    exact ⟨rfl, h, fun hc => absurd hc hz⟩

end

private theorem Inv.alive {s : State J} (hi : Inv s) (h : s.xreq.refcount ≠ 0) : Alive s.xreq := by
  have := hi.answers
  rwa [due, if_neg h] at this

/-- While someone holds a reference the request is not finalised. -/
theorem Inv.referenced {s : State J} (hi : Inv s)
    (h : 0 < s.users ∨ s.process.getD [] ≠ [] ∨ s.job ≠ []) : 0 < s.xreq.refcount := by
  have hp := hi.process.nonneg
  obtain ⟨sig, hsig⟩ := hi.job
  have hj := (suffix_processAsync hsig).1.nonneg
  rw [hi.count]
  rcases h with h | h | h
  · omega
  · have := hi.process.pos h
    omega
  · have := (suffix_processAsync hsig).1.pos h
    omega

theorem Alive.due {x : Xreq J} (h : Alive x) (hc : x.refcount ≠ 0) :
    answers x.events = due x.refcount x.replied := by
  rw [Request.due, if_neg hc]
  exact h

private theorem Inv.usable {s : State J} (hi : Inv s) (h : s.usable) : 0 < s.xreq.refcount := by
  refine hi.referenced (h.imp_right fun hj => .inr ?_)
  rintro he
  rw [he] at hj
  cases hj

/-- An operation of an activity: what the activity holds follows the count. -/
theorem runInstr_answers {x : Xreq J} (h : Alive x) (hpos : 0 < x.refcount)
    (hookflags mem : Bool) (i : Instr) (hq : i ≠ .queue) (l : List Instr) :
    (runInstr x hookflags mem i).refcount = x.refcount - held (i :: l) + held l ∧
      answers (runInstr x hookflags mem i).events =
        due (runInstr x hookflags mem i).refcount (runInstr x hookflags mem i).replied := by
  have hkeep : ∀ {y : Xreq J}, Alive y → y.refcount = x.refcount →
      y.refcount = x.refcount - held l + held l ∧
        answers y.events = due y.refcount y.replied := by
    intro y hy hc
    exact ⟨by omega, hy.due (by omega)⟩
  cases i with
  | initHooking =>
    obtain ⟨ha, hc⟩ := alive_initHooking h hookflags
    exact hkeep ha hc
  | replyV error info =>
    obtain ⟨ha, hc, -⟩ := alive_reply h ⟨none, some error, if mem then some info else none⟩
    exact hkeep ha hc
  | addref =>
    have hup : Alive (afbXreqUnhookedAddref x) := h
    have hc : (afbXreqUnhookedAddref x).refcount = x.refcount + 1 := rfl
    refine ⟨?_, hup.due (by omega)⟩
    simp only [runInstr, hc, held]
    omega
  | queue => exact absurd rfl hq
  | call => exact hkeep h rfl
  | unref =>
    obtain ⟨hc, ha, -⟩ := unref_answers h
    simp only [runInstr, hc, held]
    exact ⟨by omega, ha⟩

private theorem holding_afbXreqProcess (x : Xreq J) (lookup : Lookup) :
    Holding (afbXreqProcess x lookup) ∧ held (afbXreqProcess x lookup) = 1 ∧
      (afbXreqProcess x lookup).count .queue ≤ 1 := by
  cases lookup with
  | failed errno message =>
    simp only [afbXreqProcess]
    split_ifs <;> simp [earlyFailure, Holding, held]
  | found group =>
    simp only [afbXreqProcess]
    split_ifs <;> simp [earlyFailure, Holding, held]

private theorem holding_notQueued {l : List Instr} (h : Holding l) :
    Holding (notQueued ++ l) ∧ held (notQueued ++ l) = held l + 1 := by
  have hl : 0 < held l + 1 := Int.lt_add_one_of_le h.nonneg
  exact ⟨⟨hl, hl, hl, h⟩, rfl⟩

theorem inv_init (callers : List (Option Group)) (api verb : String) :
    Inv (State.init callers api verb : State J) :=
  ⟨rfl, trivial, Nat.zero_le 1, ⟨none, List.nil_suffix⟩, fun _ => rfl, rfl⟩

/-- The processing goes on by one instruction: the queueing of the job is the one that splits. -/
theorem inv_process {s t : State J} (hi : Inv s) (hookflags mem queued : Bool)
    (h : step s (.process hookflags mem queued) = some t) : Inv t := by
  simp only [step] at h
  split at h
  · rename_i rest hp
    have hh := hi.process
    have hc := hi.count
    have hjob := hi.unqueued (.inr (by simp [hp]))
    have hq := hi.queueOnce
    rw [hp, Option.getD_some] at hh hc hq
    have hrest : .queue ∉ rest := by
      rw [List.count_cons_self] at hq
      exact List.count_eq_zero.mp (by omega)
    cases queued with
    | true =>
      cases h
      refine ⟨?_, hh.2, ?_, ⟨none, List.suffix_refl _⟩, fun hq => ?_, hi.answers⟩
      · simp only [Option.getD_some, hjob, held, processAsync] at hc ⊢
        omega
      · simp [List.count_eq_zero_of_not_mem hrest]
      · simp [hrest] at hq
    | false =>
      cases h
      obtain ⟨hh', hone⟩ := holding_notQueued hh.2
      refine ⟨?_, hh', ?_, hi.job, fun _ => hjob, hi.answers⟩
      · simp only [Option.getD_some, hone, held] at hc ⊢
        omega
      · simp [notQueued, earlyFailure, List.count_eq_zero_of_not_mem hrest]
  · rename_i i rest hq hp
    cases h
    have hh := hi.process
    have hc := hi.count
    have hpos := hi.referenced (.inr (.inl (by simp [hp])))
    have honce := hi.queueOnce
    rw [hp, Option.getD_some] at hh hc honce
    obtain ⟨hcount, ha⟩ := runInstr_answers (hi.alive (by omega)) hpos hookflags mem i hq rest
    refine ⟨?_, hh.2, ?_, hi.job, fun hq => hi.unqueued (.inr ?_), ha⟩
    · simp only [Option.getD_some]
      omega
    · exact Nat.le_trans List.count_le_count_cons honce
    · simp only [Option.getD_some, reduceCtorEq, false_or] at hq
      simp [hp, hq]
  all_goals cases h

private theorem inv_job {s t : State J} (hi : Inv s) (hookflags mem : Bool)
    (h : step s (.job hookflags mem) = some t) : Inv t := by
  simp only [step] at h
  split at h
  · rename_i i rest hj
    cases h
    obtain ⟨sig, hsig⟩ := hi.job
    have hpos := hi.referenced (.inr (.inr (by simp [hj])))
    have hc := hi.count
    rw [hj] at hsig hc
    have hq : i ≠ .queue := fun he => (suffix_processAsync hsig).2.1 (by simp [he])
    obtain ⟨hcount, ha⟩ := runInstr_answers (hi.alive (by omega)) hpos hookflags mem i hq rest
    refine ⟨?_, hi.process, hi.queueOnce, ⟨sig, (List.suffix_cons i rest).trans hsig⟩, fun hn => ?_, ha⟩
    · dsimp only
      omega
    · have := hi.unqueued hn
      rw [hj] at this
      cases this
  · cases h

theorem inv_step {s t : State J} (hi : Inv s) (a : Action J) (h : step s a = some t) :
    Inv t := by
  cases a with
  | addref =>
    obtain ⟨hu, h⟩ := Option.ite_none_right_eq_some.mp h
    cases h
    have hpos := hi.usable hu
    have hup : Alive (afbXreqUnhookedAddref s.xreq) := hi.alive (by omega)
    have hc : (afbXreqUnhookedAddref s.xreq).refcount = s.xreq.refcount + 1 := rfl
    refine ⟨?_, hi.process, hi.queueOnce, hi.job, hi.unqueued, hup.due (by omega)⟩
    have := hi.count
    dsimp only
    omega
  | unref =>
    obtain ⟨hu, h⟩ := Option.ite_none_right_eq_some.mp h
    cases h
    have hpos := hi.referenced (.inl hu)
    obtain ⟨hc, ha, -⟩ := unref_answers (hi.alive (by omega))
    refine ⟨?_, hi.process, hi.queueOnce, hi.job, hi.unqueued, by rw [ha, hc]⟩
    have := hi.count
    dsimp only
    omega
  | reply r =>
    obtain ⟨hu, h⟩ := Option.ite_none_right_eq_some.mp h
    cases h
    have hpos := hi.usable hu
    obtain ⟨ha, hc, -⟩ := alive_reply (hi.alive (by omega)) r
    exact ⟨hc.trans hi.count, hi.process, hi.queueOnce, hi.job, hi.unqueued, ha.due (by omega)⟩
  | submit lookup =>
    obtain ⟨⟨hn, hu⟩, h⟩ := Option.ite_none_right_eq_some.mp h
    cases h
    obtain ⟨hh, hone, hq⟩ := holding_afbXreqProcess s.xreq lookup
    refine ⟨?_, hh, hq, hi.job, fun _ => hi.unqueued (.inl hn), hi.answers⟩
    have hc := hi.count
    rw [hn] at hc
    simp only [Option.getD_some, Option.getD_none, hone, held] at hc ⊢
    omega
  | process hookflags mem queued => exact inv_process hi hookflags mem queued h
  | job hookflags mem => exact inv_job hi hookflags mem h
  | signal sig =>
    obtain ⟨⟨hu, -⟩, h⟩ := Option.ite_none_right_eq_some.mp h
    cases h
    obtain ⟨sig', hsig⟩ := hi.job
    have hone := (suffix_processAsync hsig).2.2 hu
    have hnew : held (processAsync (some sig)) = 1 := rfl
    refine ⟨?_, hi.process, hi.queueOnce, ⟨some sig, List.suffix_refl _⟩, fun hn => absurd (hi.unqueued hn) hu,
      hi.answers⟩
    rw [hi.count, hone]
    simp only [hnew]

/-- Nobody holds a reference any more. -/
def State.released (s : State J) : Prop :=
  s.users = 0 ∧ s.process.getD [] = [] ∧ s.job = []

private theorem release (s : State J) :
    ∃ more t, exec step s more = some t ∧ t.released := by
  induction hn : s.users + 4 * (s.process.getD []).length + s.job.length using
    Nat.strongRecOn generalizing s with
  | _ n ih =>
    have advance : ∀ a t, step s a = some t →
        t.users + 4 * (t.process.getD []).length + t.job.length < n →
        ∃ more t, exec step s more = some t ∧ t.released := by
      intro a t ht hlt
      obtain ⟨more, u, hu, hr⟩ := ih _ hlt t rfl
      exact ⟨a :: more, u, exec_cons.mpr ⟨t, ht, hu⟩, hr⟩
    by_cases hu : 0 < s.users
    · refine advance .unref _ (if_pos hu) ?_
      dsimp only
      omega
    match hp : s.process.getD [], hj : s.job with
    | [], [] => exact ⟨[], s, rfl, by omega, hp, hj⟩
    | _, i :: rest =>
      refine advance (.job false true) { s with
        xreq := runInstr s.xreq false true i
        job := rest } (by simp only [step, hj]) ?_
      simp only [hj, List.length_cons] at hn ⊢
      omega
    | i :: rest, [] =>
      have hs : s.process = some (i :: rest) := by
        cases hx : s.process with
        | none => simp [hx] at hp
        | some l => simpa [hx] using hp
      by_cases hi : i = .queue
      · subst hi
        refine advance (.process false true true) { s with
          process := some rest
          job := processAsync none } (by simp only [step, hs, if_true]) ?_
        simp only [Option.getD_some, processAsync, List.length_cons, List.length_nil, hp, hj]
          at hn ⊢
        omega
      · refine advance (.process false true true) { s with
          xreq := runInstr s.xreq false true i
          process := some rest } ?_ ?_
        · simp only [step, hs]
        · simp only [Option.getD_some, List.length_cons, hp, hj] at hn ⊢
          omega

private theorem Inv.answers_iff {s : State J} (hi : Inv s) :
    Request.answers s.xreq.events = [.reply, .unref] ↔ s.released := by
  constructor
  · intro ha
    by_contra hr
    have hpos : 0 < s.xreq.refcount := by
      refine hi.referenced ?_
      by_contra hn
      simp only [not_or, ne_eq, not_not, Nat.not_lt, Nat.le_zero] at hn
      exact hr hn
    rw [hi.answers, due, if_neg (by omega)] at ha
    split_ifs at ha
    cases ha
  · rintro ⟨hu, hp, hj⟩
    have hc : s.xreq.refcount = 0 := by
      rw [hi.count, hu, hp, hj]
      rfl
    rw [hi.answers, due, if_pos hc]

/-- In every run of a request, on every path of afb_xreq_process and of its job and
whatever its users do, the query interface is called at most for one reply and then
for one unref; both were called exactly when nobody holds a reference any more, and
the references can always be released. -/
theorem request_replied_then_released (callers : List (Option Group)) (api verb : String)
    (acts : List (Action J)) (s : State J)
    (h : exec step (.init callers api verb) acts = some s) :
    answers s.xreq.events <+: [.reply, .unref] ∧
      (answers s.xreq.events = [.reply, .unref] ↔ s.released) ∧
      ∃ more t, exec step s more = some t ∧ t.released ∧
        answers t.xreq.events = [.reply, .unref] := by
  have hi : Inv s := exec_keeps (fun _ a _ hi h => inv_step hi a h) (inv_init callers api verb) h
  refine ⟨?_, hi.answers_iff, ?_⟩
  · rw [hi.answers, due]
    split_ifs <;> decide
  · obtain ⟨more, t, ht, hr⟩ := release s
    have hi' : Inv t := exec_keeps (fun _ a _ hi h => inv_step hi a h) hi ht
    exact ⟨more, t, ht, hr, hi'.answers_iff.mpr hr⟩

/-- The api replies twice and keeps a reference, then is stopped by a signal: the reply
counts once and the unref waits for the reference kept. -/
def sampleRun : List (Action Nat) :=
  [.submit (.found (some 3)), .process false true true, .process false true true,
    .process false true true, .job true true, .reply ⟨some 7, none, none⟩,
    .reply ⟨some 8, none, none⟩, .addref, .signal ⟨14, "Alarm clock"⟩, .job true false,
    .job true true, .unref]

theorem request_replied_then_released_sample :
    ∃ s, exec step (.init [none, some 2] "api" "verb") sampleRun = some s ∧ s.released ∧
      s.xreq.events = [.hookBegin, .hookReply ⟨some 7, none, none⟩, .reply ⟨some 7, none, none⟩,
        .hookReply ⟨some 8, none, none⟩, .hookReply ⟨none, some "aborted", none⟩, .hookEnd,
        .callerUnref, .unref] ∧ answers s.xreq.events <+: [.reply, .unref] :=
  ⟨_, rfl, ⟨rfl, rfl, rfl⟩, rfl,
    (request_replied_then_released [none, some 2] "api" "verb" sampleRun _ rfl).1⟩

end AfbBinder.Request
