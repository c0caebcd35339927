import AfbBinder.Lib.Runs
import AfbBinder.Hsrv.Offers

/-! A connection that waits for its reply is suspended by the thread of the server and resumed by
the thread that replies. Both read and write the flags of the request without a lock. -/
namespace AfbBinder.Hsrv.Suspensions
open Lib.Runs

/-- Where the thread of the server is in access_handler: out of it, up to the end of the handlers,
before the test of replied, before the test of suspended, before MHD_suspend_connection, and before
the flag is set. -/
inductive Place where
  | out
  | handlers
  | tests
  | second
  | suspends
  | marks
  deriving DecidableEq, Repr

/-- Where a call of afb_hreq_reply_v is: before the test of replied, before MHD_queue_response, before
the flag is set, before the test of suspended, before MHD_resume_connection, and before the flag of
the suspension is cleared and the server is run. -/
inductive Stage where
  | tests
  | queues
  | marks
  | asks
  | resumes
  | clears
  deriving DecidableEq, Repr

/-- The flags of a request, what the library knows of its connection (suspended, responses queued),
the thread of the server, and the call of afb_hreq_reply_v in progress. The server makes direct calls
as long as the request is not given to be processed; once it is, the request replies once. -/
structure Con where
  scanned : Bool
  replied : Bool
  suspended : Bool
  asleep : Bool
  responses : Nat
  place : Place
  reply : Option Stage
  direct : Bool
  given : Bool
  called : Bool
  deriving DecidableEq, Repr

def start : Con where
  scanned := false
  replied := false
  suspended := false
  asleep := false
  responses := 0
  place := .out
  reply := none
  direct := false
  given := false
  called := false

inductive Action where
  | access
  | scan
  | giveBack
  | replyDirect
  | give
  | accept
  | testReplied
  | testSuspended
  | suspend
  | mark
  | reply
  | next
  | send
  deriving DecidableEq, Repr

/-- The thread of the server is in a call that it makes itself. -/
def Con.busy (c : Con) : Bool := c.direct && c.reply.isSome

/-- The library calls access_handler while the connection is not suspended and has no response, and
sends a response then; a call for more data or after an error ends before the handlers do. -/
def step (c : Con) : Action → Option Con
  | .access =>
    if c.place = .out ∧ c.asleep = false ∧ c.responses = 0 then
      some { c with place := if c.scanned then .tests else .handlers }
    else none
  | .scan => if c.place = .handlers ∧ c.busy = false then some { c with scanned := true } else none
  | .giveBack =>
    if c.place = .handlers ∧ c.busy = false ∧ c.given = false ∧ (c.scanned = false ∨ c.replied) then
      some { c with place := .out }
    else none
  | .replyDirect =>
    if c.place = .handlers ∧ c.given = false ∧ c.reply = none then
      some { c with reply := some .tests, direct := true }
    else none
  | .give =>
    if c.place = .handlers ∧ c.scanned ∧ c.given = false ∧ c.reply = none then some { c with given := true } else none
  | .accept => if c.place = .handlers ∧ c.scanned ∧ c.busy = false then some { c with place := .tests } else none
  | .testReplied =>
    if c.place = .tests then some { c with place := if c.replied then .out else .second } else none
  | .testSuspended =>
    if c.place = .second then some { c with place := if c.suspended then .out else .suspends } else none
  | .suspend => if c.place = .suspends then some { c with asleep := true, place := .marks } else none
  | .mark => if c.place = .marks then some { c with suspended := true, place := .out } else none
  | .reply =>
    if c.given ∧ c.called = false ∧ c.reply = none then
      some { c with called := true, reply := some .tests, direct := false }
    else none
  | .next =>
    match c.reply with
    | none => none
    | some .tests => some { c with reply := if c.replied then none else some .queues }
    | some .queues => some { c with responses := c.responses + 1, reply := some .marks }
    | some .marks => some { c with replied := true, reply := some .asks }
    | some .asks => some { c with reply := if c.suspended then some .resumes else none }
    | some .resumes => some { c with asleep := false, reply := some .clears }
    | some .clears => some { c with suspended := false, reply := none }
  | .send => if c.place = .out ∧ c.asleep = false ∧ 0 < c.responses then some c else none

/-- The thread of the server has seen a request without reply and did not record the suspension yet. -/
def Con.deciding (c : Con) : Bool := c.place = .second || c.place = .suspends || c.place = .marks

/-- The call of the reply reads the flag of the suspension while the server is deciding. -/
def Misses (c : Con) (a : Action) : Prop := a = .next ∧ c.reply = some .asks ∧ c.deciding = true

instance (c : Con) (a : Action) : Decidable (Misses c a) := inferInstanceAs (Decidable (_ ∧ _))

/-- Nobody is inside access_handler or afb_hreq_reply_v. -/
def Con.settled (c : Con) : Prop := c.place = .out ∧ c.reply = none

/-- What a stage tells of the flag of the reply. -/
def Stage.replied : Stage → Option Bool
  | .tests => none
  | .queues => some false
  | .marks => some false
  | .asks => some true
  | .resumes => some true
  | .clears => some true

/-- The flags and the connection in every run. -/
structure Kept (c : Con) : Prop where
  responses : c.responses = if c.replied = true ∨ c.reply = some .marks then 1 else 0
  stage : ∀ st b, c.reply = some st → st.replied = some b → c.replied = b
  asleep : c.asleep = true ↔ c.place = .marks ∨ c.suspended = true ∧ c.reply ≠ some .clears
  suspended : c.suspended = true → c.place = .out
  resumes : c.reply = some .resumes ∨ c.reply = some .clears → c.suspended = true
  direct : c.direct = true → c.reply ≠ none → c.place = .handlers
  called : c.direct = false → c.reply ≠ none → c.called = true

/-- The reply did not miss the suspension so far. -/
def Seen (c : Con) : Prop :=
  c.replied = true → c.suspended = true ∨ c.deciding = true →
    c.reply = some .asks ∨ c.reply = some .resumes ∨ c.reply = some .clears

/-- The reply is over, and the connection sleeps or is about to. -/
structure Missed (c : Con) : Prop where
  replied : c.replied = true
  reply : c.reply = none
  called : c.called = true
  sleeps : c.suspended = true ∨ c.deciding = true

private theorem kept_start : Kept start := by
  constructor <;> simp [start]

section
variable {c d : Con} {a : Action}

private theorem Kept.unsuspended (hk : Kept c) (h : c.place ≠ .out) : c.suspended = false :=
  Bool.eq_false_iff.mpr fun hs => h (hk.suspended hs)

/-- A connection that the library gives to access_handler is not marked suspended. -/
theorem Kept.unmarked (hk : Kept c) (hasleep : c.asleep = false) (hresponses : c.responses = 0) :
    c.suspended = false := by
  refine Bool.eq_false_iff.mpr fun hs => ?_
  have hclears : c.reply = some .clears := by
    by_contra hne
    exact absurd (hk.asleep.mpr (.inr ⟨hs, hne⟩)) (by simp [hasleep])
  have hone := hk.responses
  rw [if_pos (.inl (hk.stage _ _ hclears rfl)), hresponses] at hone
  cases hone

private theorem Kept.elsewhere (hk : Kept c) {P : Prop} (h : c.place ≠ .handlers) (hd : c.direct = true)
    (hr : c.reply ≠ none) : P :=
  absurd (hk.direct hd hr) h

private theorem Con.not_busy (h : c.busy = false) (hd : c.direct = true) : c.reply = none := by
  simpa [Con.busy, hd] using h

/-- The thread of the server goes to another place. -/
theorem Kept.move (hk : Kept c) {p : Place} (hold : c.place ≠ .marks) (hnew : p ≠ .marks)
    (hs : c.suspended = false ∨ p = .out) (hd : c.direct = true → c.reply ≠ none → p = .handlers) :
    Kept { c with place := p } :=
  { hk with
    asleep := by
      have hasleep := hk.asleep
      simp only [hold, false_or] at hasleep
      simp only [hnew, false_or]
      exact hasleep
    suspended := fun h => hs.resolve_left (Bool.eq_false_iff.not_left.mpr h)
    direct := hd }

/-- A reply goes on without a change of the flags. -/
theorem Kept.goOn (hk : Kept c) (r : Option Stage) (hold : c.reply ≠ none) (hm : c.reply ≠ some .marks)
    (hc : c.reply ≠ some .clears) (hm' : r ≠ some .marks) (hc' : r ≠ some .clears)
    (hstage : ∀ st b, r = some st → st.replied = some b → c.replied = b)
    (hresumes : r = some .resumes → c.suspended = true) : Kept { c with reply := r } :=
  { hk with
    responses := by
      have hresponses := hk.responses
      simp only [hm, or_false] at hresponses
      simp only [hm', or_false]
      exact hresponses
    stage := hstage
    asleep := by
      have hasleep := hk.asleep
      simp only [hc, ne_eq, not_false_iff, and_true] at hasleep
      simp only [hc', ne_eq, not_false_iff, and_true]
      exact hasleep
    resumes := fun h => hresumes (h.resolve_right hc')
    direct := fun hd _ => hk.direct hd hold
    called := fun hd _ => hk.called hd hold }

/-- A step of a reply. -/
theorem kept_next (hk : Kept c) (h : step c .next = some d) : Kept d := by
  rw [step] at h
  cases hr : c.reply with
  | none =>
    rw [hr] at h
    cases h
  | some st =>
    rw [hr] at h
    have hold : c.reply ≠ none := by simp [hr]
    have hdirect (hd : c.direct = true) : c.place = .handlers := hk.direct hd hold
    have hcalled (hd : c.direct = false) : c.called = true := hk.called hd hold
    have hasleep := hk.asleep
    have hresponses := hk.responses
    have hstage (b : Bool) := hk.stage st b hr
    cases st with
    | tests =>
      cases h
      cases hreplied : c.replied with
      | true =>
        rw [if_pos rfl, ← hreplied]
        exact hk.goOn none hold (by simp [hr]) (by simp [hr]) (by simp) (by simp) (by simp) (by simp)
      | false =>
        rw [if_neg Bool.false_ne_true, ← hreplied]
        refine hk.goOn (some .queues) hold (by simp [hr]) (by simp [hr]) (by simp) (by simp) ?_ (by simp)
        rintro _ b ⟨⟩ ⟨⟩
        exact hreplied
    | queues =>
      cases h
      have hreplied : c.replied = false := hstage false rfl
      refine ⟨?_, ?_, ?_, hk.suspended, ?_, fun hd _ => hdirect hd, fun hd _ => hcalled hd⟩
      · simp [hresponses, hreplied, hr]
      · rintro _ b ⟨⟩ ⟨⟩
        exact hreplied
      · simpa [hr] using hasleep
      · simp
    | marks =>
      cases h
      refine ⟨?_, ?_, ?_, hk.suspended, ?_, fun hd _ => hdirect hd, fun hd _ => hcalled hd⟩
      · simp [hresponses, hr]
      · rintro _ b ⟨⟩ ⟨⟩
        rfl
      · simpa [hr] using hasleep
      · simp
    | asks =>
      cases h
      have hreplied : c.replied = true := hstage true rfl
      cases hs : c.suspended with
      | true =>
        rw [if_pos rfl, ← hs]
        refine hk.goOn (some .resumes) hold (by simp [hr]) (by simp [hr]) (by simp) (by simp) ?_ fun _ => hs
        rintro _ b ⟨⟩ ⟨⟩
        exact hreplied
      | false =>
        rw [if_neg Bool.false_ne_true, ← hs]
        exact hk.goOn none hold (by simp [hr]) (by simp [hr]) (by simp) (by simp) (by simp) (by simp)
    | resumes =>
      cases h
      have hs : c.suspended = true := hk.resumes (.inl hr)
      have hreplied : c.replied = true := hstage true rfl
      refine ⟨?_, ?_, ?_, hk.suspended, fun _ => hs, fun hd _ => hdirect hd, fun hd _ => hcalled hd⟩
      · simp [hresponses, hreplied]
      · rintro _ b ⟨⟩ ⟨⟩
        exact hreplied
      · simp [hk.suspended hs]
    | clears =>
      cases h
      have hs : c.suspended = true := hk.resumes (.inr hr)
      have hreplied : c.replied = true := hstage true rfl
      refine ⟨?_, by simp, ?_, by simp, by simp, by simp, by simp⟩
      · simp [hresponses, hreplied]
      · simpa [hr, hk.suspended hs] using hasleep

private theorem kept_step (hk : Kept c) (h : step c a = some d) : Kept d := by
  cases a with
  | next => exact kept_next hk h
  | access =>
    obtain ⟨⟨hout, hasleep, hresponses⟩, h⟩ := Option.ite_none_right_eq_some.mp h
    cases h
    refine hk.move (by simp [hout]) ?_ (.inl (hk.unmarked hasleep hresponses)) (hk.elsewhere (by simp [hout]))
    split <;> simp
  | scan =>
    obtain ⟨-, h⟩ := Option.ite_none_right_eq_some.mp h
    cases h
    exact { hk with }
  | giveBack =>
    obtain ⟨⟨hplace, hbusy, -⟩, h⟩ := Option.ite_none_right_eq_some.mp h
    cases h
    exact hk.move (by simp [hplace]) (by simp) (.inr rfl) fun hd hr => absurd (Con.not_busy hbusy hd) hr
  | replyDirect =>
    obtain ⟨⟨hplace, -, hnone⟩, h⟩ := Option.ite_none_right_eq_some.mp h
    cases h
    refine ⟨?_, ?_, ?_, hk.suspended, by simp, fun _ _ => hplace, by simp⟩
    · simpa [hnone] using hk.responses
    · rintro _ b ⟨⟩ ⟨⟩
    · simpa [hnone] using hk.asleep
  | give =>
    obtain ⟨-, h⟩ := Option.ite_none_right_eq_some.mp h
    cases h
    exact { hk with }
  | accept =>
    obtain ⟨⟨hplace, -, hbusy⟩, h⟩ := Option.ite_none_right_eq_some.mp h
    cases h
    exact hk.move (by simp [hplace]) (by simp) (.inl (hk.unsuspended (by simp [hplace])))
      fun hd hr => absurd (Con.not_busy hbusy hd) hr
  | testReplied =>
    obtain ⟨hplace, h⟩ := Option.ite_none_right_eq_some.mp h
    cases h
    refine hk.move (by simp [hplace]) ?_ (.inl (hk.unsuspended (by simp [hplace]))) (hk.elsewhere (by simp [hplace]))
    split <;> simp
  | testSuspended =>
    obtain ⟨hplace, h⟩ := Option.ite_none_right_eq_some.mp h
    cases h
    refine hk.move (by simp [hplace]) ?_ (.inl (hk.unsuspended (by simp [hplace]))) (hk.elsewhere (by simp [hplace]))
    split <;> simp
  | suspend =>
    obtain ⟨hplace, h⟩ := Option.ite_none_right_eq_some.mp h
    cases h
    have hs := hk.unsuspended (by simp [hplace])
    exact { hk with
      asleep := by simp
      suspended := fun h => absurd h (by simp [hs])
      direct := hk.elsewhere (by simp [hplace]) }
  | mark =>
    obtain ⟨hplace, h⟩ := Option.ite_none_right_eq_some.mp h
    cases h
    have hs := hk.unsuspended (by simp [hplace])
    have hclears : c.reply ≠ some .clears := fun hr => absurd (hk.resumes (.inr hr)) (by simp [hs])
    exact { hk with
      asleep := by simp [hk.asleep, hplace, hclears]
      suspended := fun _ => rfl
      resumes := fun _ => rfl
      direct := hk.elsewhere (by simp [hplace]) }
  | reply =>
    obtain ⟨⟨-, -, hnone⟩, h⟩ := Option.ite_none_right_eq_some.mp h
    cases h
    refine ⟨?_, ?_, ?_, hk.suspended, by simp, by simp, fun _ _ => rfl⟩
    · simpa [hnone] using hk.responses
    · rintro _ b ⟨⟩ ⟨⟩
    · simpa [hnone] using hk.asleep
  | send =>
    obtain ⟨-, h⟩ := Option.ite_none_right_eq_some.mp h
    cases h
    exact hk

private theorem deciding_iff : c.deciding = true ↔ c.place = .second ∨ c.place = .suspends ∨ c.place =
    .marks := by
  simp [Con.deciding, or_assoc]

private theorem Kept.undecided (hk : Kept c) (hs : c.suspended = true) : c.deciding = false := by
  simp [Con.deciding, hk.suspended hs]

/-- A reply that does not miss the suspension sees it. -/
theorem seen_next (hk : Kept c) (hs : Seen c) (hm : ¬ Misses c .next) (h : step c .next = some d) : Seen d := by
  rw [step] at h
  cases hr : c.reply with
  | none =>
    rw [hr] at h
    cases h
  | some st =>
    rw [hr] at h
    intro hreplied hsleeps
    cases st with
    | tests =>
      cases h
      have := hs hreplied hsleeps
      simp [hr] at this
    | queues =>
      cases h
      exact absurd (hk.stage _ false hr rfl) (by simp [show c.replied = true from hreplied])
    | marks =>
      cases h
      exact .inl rfl
    | asks =>
      cases h
      have hundecided : c.deciding = false := Bool.eq_false_iff.mpr fun hd => hm ⟨rfl, hr, hd⟩
      have hsuspended : c.suspended = true := hsleeps.resolve_right (Bool.eq_false_iff.mp hundecided)
      exact .inr (.inl (if_pos hsuspended))
    | resumes =>
      cases h
      exact .inr (.inr rfl)
    | clears =>
      cases h
      have hundecided := hk.undecided (hk.resumes (.inr hr))
      rcases hsleeps with hsleeps | hsleeps
      · cases hsleeps
      · exact absurd hsleeps (Bool.eq_false_iff.mp hundecided)

private theorem seen_step (hk : Kept c) (hs : Seen c) (hm : ¬ Misses c a) (h : step c a = some d) : Seen d := by
  cases a with
  | next => exact seen_next hk hs hm h
  | access =>
    obtain ⟨-, h⟩ := Option.ite_none_right_eq_some.mp h
    cases h
    refine fun hr hsleeps => hs hr (hsleeps.imp_right fun hd => ?_)
    rw [deciding_iff] at hd
    cases hscanned : c.scanned <;> simp [hscanned] at hd
  | scan =>
    obtain ⟨-, h⟩ := Option.ite_none_right_eq_some.mp h
    cases h
    exact hs
  | giveBack =>
    obtain ⟨-, h⟩ := Option.ite_none_right_eq_some.mp h
    cases h
    exact fun hr hsleeps => hs hr (hsleeps.imp_right fun hd => by simp [Con.deciding] at hd)
  | replyDirect =>
    obtain ⟨⟨hplace, -, hnone⟩, h⟩ := Option.ite_none_right_eq_some.mp h
    cases h
    intro hr hsleeps
    have := hs hr hsleeps
    simp [hnone] at this
  | give =>
    obtain ⟨-, h⟩ := Option.ite_none_right_eq_some.mp h
    cases h
    exact hs
  | accept =>
    obtain ⟨-, h⟩ := Option.ite_none_right_eq_some.mp h
    cases h
    exact fun hr hsleeps => hs hr (hsleeps.imp_right fun hd => by simp [Con.deciding] at hd)
  | testReplied =>
    obtain ⟨-, h⟩ := Option.ite_none_right_eq_some.mp h
    cases h
    intro hr hsleeps
    refine hs hr (hsleeps.imp_right fun hd => ?_)
    simp [Con.deciding, show c.replied = true from hr] at hd
  | testSuspended =>
    obtain ⟨hplace, h⟩ := Option.ite_none_right_eq_some.mp h
    cases h
    exact fun hr _ => hs hr (.inr (deciding_iff.mpr (.inl hplace)))
  | suspend =>
    obtain ⟨hplace, h⟩ := Option.ite_none_right_eq_some.mp h
    cases h
    exact fun hr _ => hs hr (.inr (deciding_iff.mpr (.inr (.inl hplace))))
  | mark =>
    obtain ⟨hplace, h⟩ := Option.ite_none_right_eq_some.mp h
    cases h
    exact fun hr _ => hs hr (.inr (deciding_iff.mpr (.inr (.inr hplace))))
  | reply =>
    obtain ⟨⟨-, -, hnone⟩, h⟩ := Option.ite_none_right_eq_some.mp h
    cases h
    intro hr hsleeps
    have := hs hr hsleeps
    simp [hnone] at this
  | send =>
    obtain ⟨-, h⟩ := Option.ite_none_right_eq_some.mp h
    cases h
    exact hs

private theorem Missed.place (hk : Kept c) (hm : Missed c) :
    c.suspended = true ∧ c.place = .out ∧ c.asleep = true ∨ c.deciding = true := by
  refine hm.sleeps.imp_left fun hs => ⟨hs, hk.suspended hs, hk.asleep.mpr (.inr ⟨hs, ?_⟩)⟩
  simp [hm.reply]

/-- After a reply that missed the suspension, the server only goes on to suspend the connection. -/
theorem missed_step (hk : Kept c) (hm : Missed c) (h : step c a = some d) : Missed d := by
  have hplace := hm.place hk
  rw [deciding_iff] at hplace
  have hcalled := hm.called
  have hreply := hm.reply
  have hreplied := hm.replied
  cases a with
  | next => simp [step, hreply] at h
  | access =>
    obtain ⟨⟨hout, hasleep, -⟩, h⟩ := Option.ite_none_right_eq_some.mp h
    simp [hout, hasleep] at hplace
  | scan =>
    obtain ⟨⟨hhandlers, -⟩, h⟩ := Option.ite_none_right_eq_some.mp h
    simp [hhandlers] at hplace
  | giveBack =>
    obtain ⟨⟨hhandlers, -⟩, h⟩ := Option.ite_none_right_eq_some.mp h
    simp [hhandlers] at hplace
  | replyDirect =>
    obtain ⟨⟨hhandlers, -⟩, h⟩ := Option.ite_none_right_eq_some.mp h
    simp [hhandlers] at hplace
  | give =>
    obtain ⟨⟨hhandlers, -⟩, h⟩ := Option.ite_none_right_eq_some.mp h
    simp [hhandlers] at hplace
  | accept =>
    obtain ⟨⟨hhandlers, -⟩, h⟩ := Option.ite_none_right_eq_some.mp h
    simp [hhandlers] at hplace
  | testReplied =>
    obtain ⟨htests, h⟩ := Option.ite_none_right_eq_some.mp h
    simp [htests] at hplace
  | testSuspended =>
    obtain ⟨hsecond, h⟩ := Option.ite_none_right_eq_some.mp h
    cases h
    refine ⟨hreplied, hreply, hcalled, .inr (deciding_iff.mpr (.inr (.inl ?_)))⟩
    simp [hk.unsuspended (by simp [hsecond])]
  | suspend =>
    obtain ⟨-, h⟩ := Option.ite_none_right_eq_some.mp h
    cases h
    exact ⟨hreplied, hreply, hcalled, .inr (deciding_iff.mpr (.inr (.inr rfl)))⟩
  | mark =>
    obtain ⟨-, h⟩ := Option.ite_none_right_eq_some.mp h
    cases h
    exact ⟨hreplied, hreply, hcalled, .inl rfl⟩
  | reply => simp [step, hcalled] at h
  | send =>
    obtain ⟨⟨hout, hasleep, -⟩, h⟩ := Option.ite_none_right_eq_some.mp h
    simp [hout, hasleep] at hplace

end

/-- The reply that misses the suspension is over, and nothing will wake the connection. -/
theorem missed_start {c d : Con} {a : Action} (hk : Kept c) (hm : Misses c a) (h : step c a = some d) : Missed d := by
  obtain ⟨rfl, hasks, hdeciding⟩ := hm
  have hflag : c.suspended = false := Bool.eq_false_iff.mpr fun hs =>
    absurd hdeciding (Bool.eq_false_iff.mp (hk.undecided hs))
  have hdirect : c.direct = false := by
    refine Bool.eq_false_iff.mpr fun hd => ?_
    simp [Con.deciding, hk.direct hd (by simp [hasks])] at hdeciding
  simp only [step, hasks, hflag, Bool.false_eq_true, if_false] at h
  cases h
  exact ⟨hk.stage _ true hasks rfl, rfl, hk.called hdirect (by simp [hasks]), .inr hdeciding⟩

private theorem kept_run {c : Con} {as : List Action} (h : exec step start as = some c) : Kept c :=
  exec_keeps (fun _ _ _ hk h => kept_step hk h) kept_start h

private theorem seen_or_missed {c : Con} {as : List Action} (h : exec step start as = some c) :
    Along step (fun c a => ¬ Misses c a) start as ∧ Seen c ∨
      ¬ Along step (fun c a => ¬ Misses c a) start as ∧ Missed c := by
  have hsplit := along_or_broken (C := fun c a => ¬ Misses c a) (I := fun c => Kept c ∧ Seen c)
    (J := fun c => Kept c ∧ Missed c)
    (fun c a d hi hm h => ⟨kept_step hi.1 h, seen_step hi.1 hi.2 hm h⟩)
    (fun c a d hi hm h => ⟨kept_step hi.1 h, missed_start hi.1 (not_not.mp hm) h⟩)
    (fun c a d hi h => ⟨kept_step hi.1 h, missed_step hi.1 hi.2 h⟩)
    ⟨kept_start, by simp [Seen, start]⟩ h
  exact hsplit.imp (And.imp_right And.right) (And.imp_right And.right)

/-- Without a reply meanwhile, the end of access_handler is suspendPending. -/
theorem suspends_alone {c : Con} {hreq : Hreq} (hplace : c.place = .tests) (hr : hreq.replied.isSome = c.replied)
    (hs : hreq.suspended = c.suspended) : ∃ as d, exec step c as = some d ∧ d.place = .out ∧
      d.replied = (suspendPending hreq).replied.isSome ∧ d.suspended = (suspendPending hreq).suspended := by
  cases hreplied : c.replied with
  | true =>
    have hsome : hreq.replied ≠ none := Option.isSome_iff_ne_none.mp (hr.trans hreplied)
    exact ⟨[.testReplied], { c with place := .out }, by simp [exec, step, hplace, hreplied], rfl,
      by simp [suspendPending, hsome, hr], by simp [suspendPending, hsome, hs]⟩
  | false =>
    have hnone : hreq.replied = none := by simpa [hreplied] using hr
    cases hsuspended : c.suspended with
    | true =>
      exact ⟨[.testReplied, .testSuspended], { c with place := .out }, by
        simp [exec, step, hplace, hreplied, hsuspended], rfl, by simp [suspendPending, hs, hsuspended, hr],
        by simp [suspendPending, hs, hsuspended]⟩
    | false =>
      exact ⟨[.testReplied, .testSuspended, .suspend, .mark],
        { c with asleep := true, suspended := true, place := .out }, by
          simp [exec, step, hplace, hreplied, hsuspended], rfl,
        by simp [suspendPending, hnone, hs, hsuspended, hreplied], by simp [suspendPending, hnone, hs, hsuspended]⟩

/-- Without the server meanwhile, a call of afb_hreq_reply_v is what replyError does to the flags. -/
theorem replies_alone {c : Con} {hreq : Hreq} (status : Nat) (hreply : c.reply = some .tests)
    (hr : hreq.replied.isSome = c.replied) (hs : hreq.suspended = c.suspended) :
    ∃ n d, exec step c (List.replicate n .next) = some d ∧ d.reply = none ∧
      d.replied = (replyError hreq status).replied.isSome ∧ d.suspended = (replyError hreq status).suspended := by
  cases hreplied : c.replied with
  | true =>
    exact ⟨1, { c with reply := none }, by simp [exec, step, hreply, hreplied, List.replicate], rfl,
      by simp [replyError, hr, hreplied], by simp [replyError, hr, hreplied, hs]⟩
  | false =>
    cases hsuspended : c.suspended with
    | true =>
      exact ⟨6, { c with
          responses := c.responses + 1, replied := true, asleep := false, suspended := false, reply := none },
        by simp [exec, step, hreply, hreplied, hsuspended, List.replicate], rfl, by simp [replyError, hr, hreplied],
        by simp [replyError, hr, hreplied]⟩
    | false =>
      exact ⟨4, { c with responses := c.responses + 1, replied := true, reply := none },
        by simp [exec, step, hreply, hreplied, hsuspended, List.replicate], rfl, by simp [replyError, hr, hreplied],
        by simp [replyError, hr, hreplied, hsuspended]⟩

/-- In every run of the server and of the replies to a request: at most one response is queued, and
one as soon as the request is replied; only an awake connection is suspended, and only a sleeping one
is resumed. Once both are at rest, the response of a replied request can be sent if and only if no
reply read the flag of the suspension while the server was between its test of replied and its own
write of the flag; after such a reply nothing more can happen to the connection. -/
theorem replies_sent_iff (as : List Action) (c : Con) (h : exec step start as = some c) :
    c.responses ≤ 1 ∧ (c.replied = true → c.responses = 1) ∧
    (c.place = .suspends → c.asleep = false) ∧ (c.reply = some .resumes → c.asleep = true) ∧
    (c.settled → c.replied = true →
      ((step c .send).isSome ↔ Along step (fun c a => ¬ Misses c a) start as) ∧
      (¬ Along step (fun c a => ¬ Misses c a) start as → ∀ a, step c a = none)) := by
  have hk := kept_run h
  have hone (hr : c.replied = true) : c.responses = 1 := by rw [hk.responses, if_pos (.inl hr)]
  refine ⟨?_, hone, fun hp => ?_, fun hr => ?_, fun ⟨hout, hnone⟩ hr => ?_⟩
  · rw [hk.responses]
    split <;> simp
  · cases hs : c.asleep with
    | false => rfl
    | true =>
      rcases hk.asleep.mp hs with hmarks | ⟨hflag, -⟩
      · cases hp.symm.trans hmarks
      · cases hp.symm.trans (hk.suspended hflag)
  · exact hk.asleep.mpr (.inr ⟨hk.resumes (.inl hr), by simp [hr]⟩)
  · have hawake : c.asleep = true ↔ c.suspended = true := by
      rw [hk.asleep, hout, hnone]
      simp
    rcases seen_or_missed h with ⟨halong, hseen⟩ | ⟨halong, hmissed⟩
    · refine ⟨iff_of_true ?_ halong, fun hn => absurd halong hn⟩
      have hup : c.asleep = false := by
        rw [← Bool.not_eq_true, hawake]
        intro hs
        have := hseen hr (.inl hs)
        simp [hnone] at this
      simp [step, hout, hup, hone hr]
    · have hs : c.suspended = true := hmissed.sleeps.resolve_right (by simp [Con.deciding, hout])
      have hasleep := hawake.mpr hs
      refine ⟨iff_of_false (by simp [step, hasleep]) halong, fun _ a => ?_⟩
      cases a <;> simp [step, hout, hnone, hasleep, hmissed.called]

/-- The reply comes between the two tests of the server. -/
private def missing : List Action :=
  [.access, .scan, .give, .accept, .testReplied, .reply, .next, .next, .next, .next, .testSuspended, .suspend, .mark]

theorem replies_sent_iff_sample : ∃ c, exec step start missing = some c ∧ c.responses ≤ 1 ∧
    (step c .send).isSome = false ∧ ¬ Along step (fun c a => ¬ Misses c a) start missing := by
  refine ⟨_, rfl, (replies_sent_iff missing _ rfl).1, rfl, fun halong => ?_⟩
  obtain ⟨hsent, -⟩ := (replies_sent_iff missing _ rfl).2.2.2.2 ⟨rfl, rfl⟩ rfl
  exact absurd (hsent.mpr halong) (by decide)

end AfbBinder.Hsrv.Suspensions
