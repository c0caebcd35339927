import Mathlib.Algebra.GroupWithZero.Nat
import AfbBinder.Request.Subcalls

/-! How the calls end. When nothing is left to do, what is not released is what a synchronous call
leaked, with the callers above it; and unless a synchronous call waits for a reply that nobody can
make, such an end can be reached. -/
namespace AfbBinder.Request
open Lib.Runs Lib.Forests
variable {J : Type} {s t : Forest J} {i : Nat} {n m : Node J}

/-- Nothing is left to do with the request: the users have no reference, its processing and do_sync
are at their end, and its caller is released when the request is finalised. -/
structure Node.Idle (n : Node J) : Prop where
  own : n.own = 0
  process : n.request.process.getD [] = []
  job : n.request.job = []
  sync : n.sync = .none ∨ n.sync = .returned ∨ n.sync = .leaked
  released : n.request.xreq.refcount = 0 → n.caller.isSome = true → n.released = true

private theorem Inv.answered {r : State J} (h : Inv r) :
    Request.answers r.xreq.events = [.reply, .unref] ↔ r.xreq.refcount = 0 := by
  rw [h.answers, due]
  constructor
  · intro hd
    by_contra hne
    rw [if_neg hne] at hd
    split at hd <;> cases hd
  · intro hz
    rw [if_pos hz]

private theorem Sound.idle_refcount (hs : Sound s none) (hn : s[i]? = some n) (hidle : n.Idle) :
    n.request.xreq.refcount = n.sync.references + subcalls s i := by
  rw [hs.refcount hn, hidle.own, hidle.process, hidle.job]
  simp [held]

private theorem idle_sync (hidle : n.Idle) : n.sync.references = 0 ↔ n.sync ≠ .leaked := by
  rcases hidle.sync with h | h | h <;> rw [h] <;> decide

/-- Requests below which nothing leaked are finalised, the deepest ones first. -/
theorem idle_finalised (hs : Sound s none) (hidle : ∀ n ∈ s, n.Idle) (i : Nat) (n : Node J)
    (hn : s[i]? = some n) (hsync : n.sync ≠ .leaked)
    (hbelow : ∀ j m, s.Below j i → s[j]? = some m → m.sync ≠ .leaked) : n.request.xreq.refcount = 0 := by
  induction i using children_induction hs.earlier generalizing n with
  | hstep i ih =>
    have hi := hidle n (List.mem_of_getElem? hn)
    have hnone : subcalls s i = 0 := by
      by_contra hne
      obtain ⟨m, hm, hkept, hcaller⟩ := children_pos.mp (Nat.pos_of_ne_zero hne)
      obtain ⟨j, hj⟩ := List.mem_iff_getElem?.mp hm
      have hchild : Child Node.caller s j i := ⟨m, hj, hcaller⟩
      have hzero := ih j hchild m hj (hbelow j m (.single hchild) hj) fun k o hk ho =>
        hbelow k o (.tail hk hchild) ho
      have hreleased := (hidle m hm).released hzero (by rw [hcaller]; rfl)
      rw [hreleased] at hkept
      exact absurd hkept Bool.false_ne_true
    rw [hs.idle_refcount hn hi, (idle_sync hi).mpr hsync, hnone]
    rfl

/-- In every state that a run reaches where nothing is left to do, a request was answered once and
released once if and only if it is not a synchronous call that leaked its reference, and
no call below it is. -/
theorem idle_answered_iff (as : List (ForestAction J)) (s : Forest J) (h : exec Forest.step [] as = some s)
    (hidle : ∀ n ∈ s, n.Idle) (i : Nat) (n : Node J) (hn : s[i]? = some n) :
    answers n.request.xreq.events = [.reply, .unref] ↔
      n.sync ≠ .leaked ∧ ∀ j m, s.Below j i → s[j]? = some m → m.sync ≠ .leaked := by
  have hs := sound_run h
  have hleaked (j : Nat) (m : Node J) (hm : s[j]? = some m) (hzero : m.request.xreq.refcount = 0) :
      m.sync ≠ .leaked := by
    have hj := hidle m (List.mem_of_getElem? hm)
    have hcount := hs.idle_refcount hm hj
    exact (idle_sync hj).mp (by omega)
  rw [(hs.own i n hn).reached.inv.answered]
  constructor
  · intro hzero
    have hall : ∀ k, s[i]? = some k → k.request.xreq.refcount = 0 := fun k hk => by
      rw [hn, Option.some.injEq] at hk
      rwa [← hk]
    exact ⟨hleaked i n hn hzero, fun j m hb hm => hleaked j m hm (hs.below_finalised hall hb hm)⟩
  · rintro ⟨hsync, hbelow⟩
    exact idle_finalised hs hidle i n hn hsync hbelow

/-- A request makes a synchronous call that sync_enter gets with a signal, then replies and ends. -/
def abortedCall : List (ForestAction Nat) :=
  sampleCalls.take 6 ++ [.create (some 0) true "second" "verb", .abort 1, .leave 1, .reply 0 ⟨some 5, none, none⟩,
    .job 0 false true, .job 0 false true]

theorem idle_answered_iff_sample :
    ∃ s n, exec Forest.step [] abortedCall = some s ∧ (∀ n ∈ s, n.Idle) ∧ s[0]? = some n ∧ n.sync = .none ∧
      answers n.request.xreq.events ≠ [.reply, .unref] := by
  obtain ⟨n, m, hs, hleaked, hcaller, hsync⟩ : ∃ n m, exec Forest.step [] abortedCall = some [n, m] ∧ m.sync = .leaked ∧
      m.caller = some 0 ∧ n.sync = .none :=
    ⟨_, _, rfl, rfl, rfl, rfl⟩
  have hidle : ∀ k ∈ [n, m], k.Idle := by
    cases hs
    intro k hk
    rcases List.mem_cons.mp hk with rfl | hk
    · exact ⟨rfl, rfl, rfl, .inl rfl, fun _ h => absurd h Bool.false_ne_true⟩
    · rw [List.mem_singleton.mp hk]
      exact ⟨rfl, rfl, rfl, .inr (.inr rfl), fun h => absurd h (by decide)⟩
  refine ⟨[n, m], n, hs, hidle, rfl, hsync, fun hanswered => ?_⟩
  have hbelow := ((idle_answered_iff abortedCall _ hs hidle 0 n rfl).mp hanswered).2
  exact hbelow 1 m (.single ⟨m, rfl, hcaller⟩) rfl hleaked

/-! The way to the end. -/

/-- The synchronous call leaks a reference, now or when do_sync ends. -/
def Sync.leaks : Sync → Bool
  | .failed | .leaked => true
  | _ => false

/-- What the way to the end keeps: the callers, and the calls that leak. -/
def Forest.fates (s : Forest J) : List (Option Nat × Bool) := s.map fun n => (n.caller, n.sync.leaks)

/-- The synchronous call that is processed was replied, or it can be: someone may use it, or its
processing or its job has still to reply, or to call the api. -/
def Node.Answerable (n : Node J) : Prop :=
  n.request.xreq.replied = true ∨ n.usable = true ∨
    (∃ i ∈ n.request.process.getD [], i = .queue ∨ ∃ error info, i = .replyV error info) ∨
    ∃ i ∈ n.request.job, i = .call ∨ ∃ error info, i = .replyV error info

/-- The synchronous call waits neither for sync_enter nor for a reply. -/
private structure Node.Settled (n : Node J) : Prop where
  entering : n.sync ≠ .entering
  replied : n.sync = .entered → n.request.xreq.replied = true

/-- What is left to do with a synchronous call before it is settled. -/
private def Node.waiting (n : Node J) : Nat :=
  if n.sync = .entering then 20
  else if n.sync = .entered ∧ n.request.xreq.replied = false then
    1 + 4 * (n.request.process.getD []).length + n.request.job.length
  else 0

/-- What do_sync still has to do. -/
private def Sync.left : Sync → Nat
  | .entered | .failed => 1
  | .none | .entering | .returned | .leaked => 0

/-- What is left to do with the request. -/
private def Node.left (n : Node J) : Nat :=
  n.own + 4 * (n.request.process.getD []).length + n.request.job.length + n.sync.left + (!n.released).toNat

/-! A request that is replied stays so. -/

section
variable {x : Xreq J}

private theorem xreqReplyCb_replied (x : Xreq J) (r : Reply J) : (xreqReplyCb x r).replied = true := by
  unfold xreqReplyCb
  split
  next h => exact h
  next => rfl

private theorem afbXreqReply_replied (x : Xreq J) (r : Reply J) : (afbXreqReply x r).replied = true := by
  unfold afbXreqReply xreqHookedReplyCb
  split <;> exact xreqReplyCb_replied _ _

private theorem xreqFinalize_replied (x : Xreq J) : (xreqFinalize x).replied = true := by
  have hreply := afbXreqReply_replied x ⟨none, some "error", some "no reply"⟩
  unfold xreqFinalize
  dsimp only
  split_ifs <;> simp [Xreq.emit, *]

private theorem unref_replied (h : x.replied = true) : (afbXreqUnhookedUnref x).replied = true := by
  unfold afbXreqUnhookedUnref
  dsimp only
  split
  · exact xreqFinalize_replied _
  · exact h

private theorem runInstr_replied (h : x.replied = true) (hookflags mem : Bool) (i : Instr) :
    (runInstr x hookflags mem i).replied = true := by
  cases i with
  | replyV error info => exact afbXreqReply_replied _ _
  | unref => exact unref_replied h
  | initHooking => cases hookflags <;> exact h
  | _ => exact h

private theorem step_replied {r u : State J} {a : Action J} (h : step r a = some u)
    (hr : r.xreq.replied = true) :
    u.xreq.replied = true := by
  cases a with
  | addref =>
    obtain ⟨-, h⟩ := Option.ite_none_right_eq_some.mp h
    cases h
    exact hr
  | unref =>
    obtain ⟨-, h⟩ := Option.ite_none_right_eq_some.mp h
    cases h
    exact unref_replied hr
  | reply answer =>
    obtain ⟨-, h⟩ := Option.ite_none_right_eq_some.mp h
    cases h
    exact afbXreqReply_replied _ _
  | submit lookup =>
    obtain ⟨-, h⟩ := Option.ite_none_right_eq_some.mp h
    cases h
    exact hr
  | process hookflags mem queued =>
    simp only [step] at h
    split at h
    · cases queued
      all_goals
        cases h
        exact hr
    · cases h
      exact runInstr_replied hr _ _ _
    all_goals cases h
  | job hookflags mem =>
    simp only [step] at h
    split at h
    · cases h
      exact runInstr_replied hr _ _ _
    · cases h
  | signal sig =>
    obtain ⟨-, h⟩ := Option.ite_none_right_eq_some.mp h
    cases h
    exact hr

end

/-! The lists of what is left. -/

private def Forest.left (s : Forest J) : Nat := (s.map Node.left).sum

private def Forest.waiting (s : Forest J) : Nat := (s.map Node.waiting).sum

private theorem sum_set {l : List Nat} {a : Nat} (h : l[i]? = some a) (b : Nat) :
    (l.set i b).sum + a = l.sum + b := by
  induction l generalizing i with
  | nil => simp at h
  | cons x l ih =>
    cases i with
    | zero =>
      rw [List.getElem?_cons_zero, Option.some.injEq] at h
      simp only [List.set_cons_zero, List.sum_cons, h]
      omega
    | succ i =>
      have hrest := ih (i := i) (by simpa using h)
      simp only [List.set_cons_succ, List.sum_cons]
      omega

private theorem sum_map_set (f : Node J → Nat) (hn : s[i]? = some n) (m : Node J) :
    ((s.set i m).map f).sum + f n = (s.map f).sum + f m := by
  have hget : (s.map f)[i]? = some (f n) := by rw [List.getElem?_map, hn, Option.map_some]
  rw [List.map_set]
  exact sum_set hget (f m)

private theorem fates_set (hn : s[i]? = some n) (hcaller : m.caller = n.caller)
    (hleaks : m.sync.leaks = n.sync.leaks) :
    Forest.fates (s.set i m) = s.fates := by
  rw [Forest.fates, Forest.fates, List.map_set, hcaller, hleaks]
  refine List.ext_getElem? fun j => ?_
  rw [List.getElem?_set]
  split_ifs with hj hlen
  · rw [← hj, List.getElem?_map, hn, Option.map_some]
  · rw [← hj, List.getElem?_eq_none (by omega)]
  · rfl

private theorem forall_set {P : Node J → Prop} (hs : ∀ k ∈ s, P k) (hm : P m) : ∀ k ∈ s.set i m, P k := by
  intro k hk
  rcases List.mem_or_eq_of_mem_set hk with hk | rfl
  · exact hs k hk
  · exact hm

/-! The synchronous calls settle first. -/

/-- There is something to do that leaves less to wait for. -/
private def Settles (s : Forest J) : Prop :=
  ∃ a t, s.step a = some t ∧ t.waiting < s.waiting ∧ t.fates = s.fates ∧ ∀ n ∈ t, n.sync = .entered → n.Answerable

private theorem settles_act {a : ForestAction J} {b : Action J} {guard : Node J → Bool} {f : Node J → Node J}
    {r : State J} (ha : s.step a = s.act i b guard f) (hs : ∀ n ∈ s, n.sync = .entered → n.Answerable)
    (hn : s[i]? = some n) (hg : guard n = true) (hr : step n.request b = some r)
    (hless : (f (n.after b r)).waiting < n.waiting) (hcaller : (f (n.after b r)).caller = n.caller)
    (hleaks : (f (n.after b r)).sync.leaks = n.sync.leaks)
    (hnext : (f (n.after b r)).sync = .entered → (f (n.after b r)).Answerable) : Settles s := by
  refine ⟨a, s.set i (f (n.after b r)), ?_, ?_, fates_set hn hcaller hleaks, forall_set hs hnext⟩
  · rw [ha, Forest.act, hn, Option.bind_some, if_pos hg, hr, Option.map_some]
  · have hset := sum_map_set Node.waiting hn (f (n.after b r))
    unfold Forest.waiting
    omega

private theorem waiting_replied (hsync : n.sync = .entered) (h : n.request.xreq.replied = true) :
    n.waiting = 0 := by
  simp [Node.waiting, hsync, h]

private theorem waiting_le (hsync : n.sync = .entered) :
    n.waiting ≤ 1 + 4 * (n.request.process.getD []).length + n.request.job.length := by
  rw [Node.waiting, if_neg (by rw [hsync]; decide)]
  split
  · exact Nat.le_refl _
  · exact Nat.zero_le _

private theorem waiting_entered (hsync : n.sync = .entered) (h : n.request.xreq.replied = false) :
    n.waiting = 1 + 4 * (n.request.process.getD []).length + n.request.job.length := by
  rw [Node.waiting, if_neg (by rw [hsync]; decide), if_pos ⟨hsync, h⟩]

/-- sync_enter processes the call, whose api is not found. -/
theorem settles_entering (hs : Sound s none) (hwait : ∀ n ∈ s, n.sync = .entered → n.Answerable)
    (hn : s[i]? = some n) (hsync : n.sync = .entering) : Settles s := by
  have ho := hs.own i n hn
  have hp := ho.entering hsync
  have hjob := ho.reached.inv.unqueued (.inl hp)
  have husers := ho.users
  rw [hsync, Sync.references] at husers
  have hr : step n.request (.submit (.failed ENOENT "")) = some { n.request with
      users := n.request.users - 1
      process := some (afbXreqProcess n.request.xreq (.failed ENOENT "")) } := if_pos ⟨hp, by omega⟩
  have hlength : (afbXreqProcess n.request.xreq (.failed ENOENT "")).length = 3 := rfl
  have ha : s.step (.submit i (.failed ENOENT "")) =
      s.act i (.submit (.failed ENOENT "")) (fun n => 0 < n.own ∨ n.sync = .entering) fun n =>
        if n.sync = .entering then { n with sync := .entered } else { n with own := n.own - 1 } := rfl
  refine settles_act ha hwait hn (decide_eq_true (.inr hsync)) hr ?_ ?_ ?_ ?_
  all_goals simp only [Node.after, hsync, if_true]
  · refine Nat.lt_of_le_of_lt (waiting_le rfl) ?_
    simp [Node.waiting, hsync, hlength, hjob]
  · rfl
  · exact fun _ => .inr (.inr (.inl ⟨_, List.mem_cons_of_mem _ List.mem_cons_self, .inr ⟨_, _, rfl⟩⟩))

private theorem settles_reply (hwait : ∀ n ∈ s, n.sync = .entered → n.Answerable) (hn : s[i]? = some n)
    (hsync : n.sync = .entered) (hopen : n.request.xreq.replied = false) (husable : n.usable = true) : Settles s := by
  have hstate : n.request.usable := by
    rcases of_decide_eq_true husable with h | h
    · exact .inl (by omega)
    · exact .inr h
  have hreplied := afbXreqReply_replied n.request.xreq (internalError (J := J))
  refine settles_act (a := .reply i internalError) rfl hwait hn husable (if_pos hstate) ?_ rfl rfl
    fun _ => .inl hreplied
  refine Nat.lt_of_le_of_lt (Nat.le_of_eq (waiting_replied ?_ ?_)) ?_
  · exact hsync
  · exact hreplied
  · rw [waiting_entered hsync hopen]
    omega

private theorem settles_process (hwait : ∀ n ∈ s, n.sync = .entered → n.Answerable) (hn : s[i]? = some n)
    (hsync : n.sync = .entered) (hopen : n.request.xreq.replied = false)
    (hleft : ∃ i ∈ n.request.process.getD [], i = .queue ∨ ∃ error info, i = .replyV error info) : Settles s := by
  obtain ⟨k, hk, hkind⟩ := hleft
  obtain ⟨j, rest, hj⟩ := List.exists_cons_of_ne_nil (List.ne_nil_of_mem hk)
  have hp : n.request.process = some (j :: rest) := by
    cases hx : n.request.process with
    | none => simp [hx] at hj
    | some l => simpa [hx] using hj
  have hwaiting := waiting_entered hsync hopen
  rw [hp, Option.getD_some, List.length_cons] at hwaiting
  by_cases hqueue : j = .queue
  · subst hqueue
    refine settles_act (a := .process i false true true) rfl hwait hn rfl (by simp only [step, hp, if_true]; rfl) ?_ rfl
      rfl fun _ => .inr (.inr (.inr ⟨.call, by simp [Node.after, processAsync], .inl rfl⟩))
    refine Nat.lt_of_le_of_lt (waiting_le hsync) ?_
    simp only [id, Node.after, Option.getD_some, processAsync, List.length_cons, List.length_nil]
    omega
  · refine settles_act (a := .process i false true true) rfl hwait hn rfl (by simp only [step, hp]; rfl) ?_ rfl rfl
      fun _ => ?_
    · refine Nat.lt_of_le_of_lt (waiting_le hsync) ?_
      simp only [id, Node.after, Option.getD_some]
      omega
    · rw [hj] at hk
      rcases List.mem_cons.mp hk with rfl | hk
      · obtain ⟨error, info, rfl⟩ := hkind.resolve_left hqueue
        exact .inl (afbXreqReply_replied _ _)
      · exact .inr (.inr (.inl ⟨k, hk, hkind⟩))

private theorem settles_job (hwait : ∀ n ∈ s, n.sync = .entered → n.Answerable) (hn : s[i]? = some n)
    (hsync : n.sync = .entered) (hopen : n.request.xreq.replied = false)
    (hleft : ∃ i ∈ n.request.job, i = .call ∨ ∃ error info, i = .replyV error info) : Settles s := by
  obtain ⟨k, hk, hkind⟩ := hleft
  obtain ⟨j, rest, hj⟩ := List.exists_cons_of_ne_nil (List.ne_nil_of_mem hk)
  have hwaiting := waiting_entered hsync hopen
  rw [hj, List.length_cons] at hwaiting
  rw [hj] at hk
  by_cases hcall : j = .call
  · exact settles_reply hwait hn hsync hopen (decide_eq_true (.inr (by rw [hj, hcall]; rfl)))
  refine settles_act (a := .job i false true) rfl hwait hn rfl (by simp only [step, hj]; rfl) ?_ rfl rfl fun _ => ?_
  · refine Nat.lt_of_le_of_lt (waiting_le hsync) ?_
    simp only [id, Node.after]
    omega
  · rcases List.mem_cons.mp hk with rfl | hk
    · obtain ⟨error, info, rfl⟩ := hkind.resolve_left hcall
      exact .inl (afbXreqReply_replied _ _)
    · exact .inr (.inr (.inr ⟨k, hk, hkind⟩))

private theorem settles (hs : Sound s none) (hwait : ∀ n ∈ s, n.sync = .entered → n.Answerable)
    (hnot : ¬∀ n ∈ s, n.Settled) : Settles s := by
  simp only [not_forall] at hnot
  obtain ⟨n, hmem, hn⟩ := hnot
  obtain ⟨i, hi⟩ := List.mem_iff_getElem?.mp hmem
  by_cases hentering : n.sync = .entering
  · exact settles_entering hs hwait hi hentering
  have hopen : n.sync = .entered ∧ n.request.xreq.replied = false := by
    by_contra hno
    refine hn ⟨hentering, fun hsync => ?_⟩
    by_contra hreplied
    exact hno ⟨hsync, by simpa using hreplied⟩
  rcases hwait n hmem hopen.1 with h | h | h | h
  · rw [hopen.2] at h
    cases h
  · exact settles_reply hwait hi hopen.1 hopen.2 h
  · exact settles_process hwait hi hopen.1 hopen.2 h
  · exact settles_job hwait hi hopen.1 hopen.2 h

private theorem settled_reachable (hs : Sound s none) (hwait : ∀ n ∈ s, n.sync = .entered → n.Answerable) :
    ∃ more t, exec Forest.step s more = some t ∧ (∀ n ∈ t, n.Settled) ∧ t.fates = s.fates := by
  induction hl : s.waiting using Nat.strongRecOn generalizing s with
  | _ l ih =>
    by_cases hsettled : ∀ n ∈ s, n.Settled
    · exact ⟨[], s, rfl, hsettled, rfl⟩
    · obtain ⟨a, u, hu, hless, hfates, hnext⟩ := settles hs hwait hsettled
      obtain ⟨more, t, ht, hend, hkept⟩ := ih u.waiting (hl ▸ hless) (sound_step hs hu) hnext rfl
      exact ⟨a :: more, t, exec_cons.mpr ⟨u, hu, ht⟩, hend, hkept.trans hfates⟩

/-! Then everything ends. -/

/-- There is something to do that leaves less to do. -/
private def Advances (s : Forest J) : Prop :=
  ∃ a t, s.step a = some t ∧ t.left < s.left ∧ t.fates = s.fates ∧ ∀ n ∈ t, n.Settled

private theorem settled_after {b : Action J} {r : State J} (h : n.Settled) (hr : step n.request b = some r)
    (hrequest : m.request = r) (hsync : m.sync = n.sync ∨ m.sync = .returned ∨ m.sync = .leaked) : m.Settled := by
  rcases hsync with hsync | hsync | hsync
  · refine ⟨fun h' => h.entering (hsync.symm.trans h'), fun h' => ?_⟩
    rw [hrequest]
    exact step_replied hr (h.replied (hsync.symm.trans h'))
  all_goals
    refine ⟨fun h' => ?_, fun h' => ?_⟩
    all_goals
      rw [hsync] at h'
      cases h'

/-- An action of the request that leaves less to do with it. -/
theorem advances_act {a : ForestAction J} {b : Action J} {guard : Node J → Bool} {f : Node J → Node J}
    {r : State J} (ha : s.step a = s.act i b guard f) (hsettled : ∀ n ∈ s, n.Settled) (hn : s[i]? = some n)
    (hg : guard n = true) (hr : step n.request b = some r) (hless : (f (n.after b r)).left < n.left)
    (hcaller : (f (n.after b r)).caller = n.caller) (hleaks : (f (n.after b r)).sync.leaks = n.sync.leaks)
    (hrequest : (f (n.after b r)).request = r)
    (hsync : (f (n.after b r)).sync = n.sync ∨ (f (n.after b r)).sync = .returned ∨ (f (n.after b r)).sync = .leaked) :
    Advances s := by
  refine ⟨a, s.set i (f (n.after b r)), ?_, ?_, fates_set hn hcaller hleaks,
    forall_set hsettled (settled_after (hsettled n (List.mem_of_getElem? hn)) hr hrequest hsync)⟩
  · rw [ha, Forest.act, hn, Option.bind_some, if_pos hg, hr, Option.map_some]
  · have hset := sum_map_set Node.left hn (f (n.after b r))
    unfold Forest.left
    omega

private theorem step_unref {r : State J} (h : 0 < r.users) : step r .unref = some { r with
    xreq := afbXreqUnhookedUnref r.xreq
    users := r.users - 1 } := if_pos h

private theorem advances_own (hsettled : ∀ n ∈ s, n.Settled) (hn : s[i]? = some n) (hs : Sound s none)
    (hown : 0 < n.own) : Advances s := by
  have husers := (hs.own i n hn).users
  have ha : s.step (.unref i) = s.act i .unref (fun n => 0 < n.own) fun n => { n with own := n.own - 1 } := rfl
  refine advances_act ha hsettled hn (decide_eq_true hown) (step_unref (by omega)) ?_ rfl rfl rfl (.inl rfl)
  simp only [Node.after, Node.left]
  omega

private theorem advances_job (hsettled : ∀ n ∈ s, n.Settled) (hn : s[i]? = some n) (hjob : n.request.job ≠ []) :
    Advances s := by
  obtain ⟨j, rest, hj⟩ := List.exists_cons_of_ne_nil hjob
  refine advances_act (a := .job i false true) rfl hsettled hn rfl (by simp only [step, hj]; rfl) ?_ rfl rfl rfl
    (.inl rfl)
  simp only [id, Node.after, Node.left, hj, List.length_cons]
  omega

private theorem advances_process (hsettled : ∀ n ∈ s, n.Settled) (hn : s[i]? = some n)
    (hprocess : n.request.process.getD [] ≠ []) (hs : Sound s none) : Advances s := by
  obtain ⟨j, rest, hj⟩ := List.exists_cons_of_ne_nil hprocess
  have hp : n.request.process = some (j :: rest) := by
    cases hx : n.request.process with
    | none => simp [hx] at hj
    | some l => simpa [hx] using hj
  by_cases hqueue : j = .queue
  · subst hqueue
    have hjob := (hs.own i n hn).reached.inv.unqueued (.inr (by rw [hj]; exact List.mem_cons_self))
    refine advances_act (a := .process i false true true) rfl hsettled hn rfl (by simp only [step, hp, if_true]; rfl) ?_
      rfl rfl rfl (.inl rfl)
    simp only [id, Node.after, Node.left, hp, hjob, Option.getD_some, List.length_cons, List.length_nil, processAsync]
    omega
  · refine advances_act (a := .process i false true true) rfl hsettled hn rfl (by simp only [step, hp]; rfl) ?_ rfl rfl
      rfl (.inl rfl)
    simp only [id, Node.after, Node.left, hp, Option.getD_some, List.length_cons]
    omega

/-- do_sync gets the reply, or it knows that there will be none. -/
theorem advances_sync (hsettled : ∀ n ∈ s, n.Settled) (hn : s[i]? = some n) (hs : Sound s none)
    (hsync : ¬(n.sync = .none ∨ n.sync = .returned ∨ n.sync = .leaked)) : Advances s := by
  have husers := (hs.own i n hn).users
  have hnode := hsettled n (List.mem_of_getElem? hn)
  have hleave : s.step (.leave i) = s.act i .unref
      (fun n => n.sync = .entered ∧ n.request.xreq.replied = true ∨ n.sync = .failed) fun n =>
        { n with sync := if n.sync = .entered then .returned else .leaked } := rfl
  cases hx : n.sync with
  | none => exact absurd (.inl hx) hsync
  | returned => exact absurd (.inr (.inl hx)) hsync
  | leaked => exact absurd (.inr (.inr hx)) hsync
  | entering => exact absurd hx hnode.entering
  | entered =>
    rw [hx, Sync.references] at husers
    refine advances_act hleave hsettled hn (decide_eq_true (.inl ⟨hx, hnode.replied hx⟩)) (step_unref (by omega)) ?_ rfl
      ?_ rfl (.inr (.inl (if_pos hx)))
    · simp only [Node.after, hx, if_true, Node.left, Sync.left]
      omega
    · simp only [Node.after, hx, if_true]
      rfl
  | failed =>
    rw [hx, Sync.references] at husers
    refine advances_act hleave hsettled hn (decide_eq_true (.inr hx)) (step_unref (by omega)) ?_ rfl ?_ rfl
      (.inr (.inr (if_neg (by rw [Node.after, hx]; decide))))
    · simp only [Node.after, hx, reduceCtorEq, if_false, Node.left, Sync.left]
      omega
    · simp only [Node.after, hx, reduceCtorEq, if_false]
      rfl

private theorem advances_release (hsettled : ∀ n ∈ s, n.Settled) (hn : s[i]? = some n) (hs : Sound s none)
    (hzero : n.request.xreq.refcount = 0) (hcaller : n.caller.isSome = true) (hkept : n.released = false) :
    Advances s := by
  obtain ⟨t, ht⟩ := hs.release_enabled hn hzero hcaller hkept
  have hstep := ht
  obtain ⟨n', hn', ht⟩ := Option.bind_eq_some_iff.mp ht
  rw [hn, Option.some.injEq] at hn'
  subst hn'
  obtain ⟨c, hc, ht⟩ := Option.bind_eq_some_iff.mp ht
  obtain ⟨-, ht⟩ := Option.ite_none_right_eq_some.mp ht
  obtain ⟨m, r, hm, -, hr, rfl⟩ := act_some ht
  have hmarked : ∀ k ∈ s.set i { n with released := true }, k.Settled := by
    have hself := hsettled n (List.mem_of_getElem? hn)
    exact forall_set hsettled ⟨hself.entering, hself.replied⟩
  refine ⟨.release i, _, hstep, ?_, ?_,
    forall_set hmarked (settled_after (hmarked m (List.mem_of_getElem? hm)) hr rfl (.inl rfl))⟩
  · obtain ⟨-, hr⟩ := Option.ite_none_right_eq_some.mp hr
    have hfirst := sum_map_set Node.left hn { n with released := true }
    have hsecond := sum_map_set Node.left hm (id (m.after .unref r))
    have hsame : (id (m.after .unref r)).left = m.left := by
      rw [← Option.some.inj hr]
      rfl
    have hless : ({ n with released := true } : Node J).left + 1 = n.left := by
      simp [Node.left, hkept]
    unfold Forest.left
    omega
  · have hfirst := fates_set hn (m := { n with released := true }) rfl rfl
    exact (fates_set hm (m := id (m.after .unref r)) rfl rfl).trans hfirst

private theorem advances (hs : Sound s none) (hsettled : ∀ n ∈ s, n.Settled) (hidle : ¬∀ n ∈ s, n.Idle) :
    Advances s := by
  simp only [not_forall] at hidle
  obtain ⟨n, hmem, hn⟩ := hidle
  obtain ⟨i, hi⟩ := List.mem_iff_getElem?.mp hmem
  by_contra hstuck
  refine hn ⟨?_, ?_, ?_, ?_, fun hzero hcaller => ?_⟩
  · by_contra hown
    exact hstuck (advances_own hsettled hi hs (Nat.pos_of_ne_zero hown))
  · by_contra hprocess
    exact hstuck (advances_process hsettled hi hprocess hs)
  · by_contra hjob
    exact hstuck (advances_job hsettled hi hjob)
  · by_contra hsync
    exact hstuck (advances_sync hsettled hi hs hsync)
  · by_contra hkept
    exact hstuck (advances_release hsettled hi hs hzero hcaller (by simpa using hkept))

private theorem idle_reachable (hs : Sound s none) (hsettled : ∀ n ∈ s, n.Settled) :
    ∃ more t, exec Forest.step s more = some t ∧ (∀ n ∈ t, n.Idle) ∧ t.fates = s.fates := by
  induction hl : s.left using Nat.strongRecOn generalizing s with
  | _ l ih =>
    by_cases hidle : ∀ n ∈ s, n.Idle
    · exact ⟨[], s, rfl, hidle, rfl⟩
    · obtain ⟨a, u, hu, hless, hfates, hnext⟩ := advances hs hsettled hidle
      obtain ⟨more, t, ht, hend, hkept⟩ := ih u.left (hl ▸ hless) (sound_step hs hu) hnext rfl
      exact ⟨a :: more, t, exec_cons.mpr ⟨u, hu, ht⟩, hend, hkept.trans hfates⟩

private theorem fates_get (hf : t.fates = s.fates) (hn : s[i]? = some n) :
    ∃ m, t[i]? = some m ∧ m.caller = n.caller ∧ m.sync.leaks = n.sync.leaks := by
  have hget := congrArg (·[i]?) hf
  simp only [Forest.fates, List.getElem?_map, hn, Option.map_some, Option.map_eq_some_iff, Prod.mk.injEq] at hget
  exact hget

private theorem fates_below (hf : t.fates = s.fates) {j i : Nat} (h : s.Below j i) : t.Below j i := by
  refine Relation.TransGen.mono ?_ j i h
  rintro k c ⟨n, hn, hc⟩
  obtain ⟨m, hm, hcaller, -⟩ := fates_get hf hn
  exact ⟨m, hm, hcaller.trans hc⟩

private theorem leaks_iff (hidle : n.Idle) : n.sync ≠ .leaked ↔ n.sync.leaks = false := by
  rcases hidle.sync with h | h | h <;> rw [h] <;> decide

/-- From every state that a run reaches where each synchronous call in process was replied or can be, a
run goes to a state where nothing is left to do. There a request was answered once and released
once if and only if neither it nor a call below it is a synchronous call that sync_enter did not
process. -/
theorem calls_can_end (as : List (ForestAction J)) (s : Forest J) (h : exec Forest.step [] as = some s)
    (hwait : ∀ n ∈ s, n.sync = .entered → n.Answerable) :
    ∃ more t, exec Forest.step s more = some t ∧ t.length = s.length ∧ (∀ n ∈ t, n.Idle) ∧
      ∀ (i : Nat) (n m : Node J), s[i]? = some n → t[i]? = some m →
        (answers m.request.xreq.events = [.reply, .unref] ↔
          n.sync.leaks = false ∧ ∀ j k, s.Below j i → s[j]? = some k → k.sync.leaks = false) := by
  obtain ⟨first, u, hu, hsettled, hfirst⟩ := settled_reachable (sound_run h) hwait
  have hreach : exec Forest.step [] (as ++ first) = some u := by rw [exec_append h, hu]
  obtain ⟨more, t, ht, hidle, hmore⟩ := idle_reachable (sound_run hreach) hsettled
  have hf := hmore.trans hfirst
  refine ⟨first ++ more, t, by rw [exec_append hu, ht], by simpa [Forest.fates] using congrArg List.length hf, hidle,
    fun i n m hn hm => ?_⟩
  have hrun : exec Forest.step [] (as ++ first ++ more) = some t := by rw [exec_append hreach, ht]
  have hsame (j : Nat) (k l : Node J) (hk : s[j]? = some k) (hl : t[j]? = some l) :
      l.sync ≠ .leaked ↔ k.sync.leaks = false := by
    obtain ⟨l', hl', -, hleaks⟩ := fates_get hf hk
    rw [hl, Option.some.injEq] at hl'
    rw [leaks_iff (hidle l (List.mem_of_getElem? hl)), hl', hleaks]
  rw [idle_answered_iff (as ++ first ++ more) t hrun hidle i m hm, hsame i n m hn hm]
  refine and_congr_right fun _ => ⟨fun hb j k hj hk => ?_, fun hb j l hj hl => ?_⟩
  · obtain ⟨l, hl, -, -⟩ := fates_get hf hk
    exact (hsame j k l hk hl).mp (hb j l (fates_below hf hj) hl)
  · obtain ⟨k, hk, -, -⟩ := fates_get hf.symm hl
    exact (hsame j k l hk hl).mpr (hb j k (fates_below hf.symm hj) hk)

/-- A request makes a synchronous call, that is not queued yet. -/
def waitingCall : List (ForestAction Nat) :=
  sampleCalls.take 6 ++ [.create (some 0) true "second" "verb", .submit 1 (.found (some 4))]

theorem calls_can_end_sample :
    ∃ s n, exec Forest.step [] waitingCall = some s ∧ s[0]? = some n ∧ 0 < n.request.xreq.refcount ∧
      ∃ more t, exec Forest.step s more = some t ∧ ∀ m, t[0]? = some m → answers m.request.xreq.events = [.reply, .unref] := by
  obtain ⟨n, m, hs, hcount, hn, hm, hsync, hqueue⟩ : ∃ n m, exec Forest.step [] waitingCall = some [n, m] ∧
      n.request.xreq.refcount = 2 ∧ n.sync = .none ∧ m.sync.leaks = false ∧ m.sync = .entered ∧
      .queue ∈ m.request.process.getD [] :=
    ⟨_, _, rfl, rfl, rfl, rfl, rfl, by decide⟩
  have hwait : ∀ k ∈ [n, m], k.sync = .entered → k.Answerable := by
    intro k hk hentered
    rcases List.mem_cons.mp hk with rfl | hk
    · rw [hn] at hentered
      cases hentered
    · rw [List.mem_singleton.mp hk]
      exact .inr (.inr (.inl ⟨.queue, hqueue, .inl rfl⟩))
  obtain ⟨more, t, ht, -, -, hend⟩ := calls_can_end waitingCall _ hs hwait
  have hleaks : n.sync.leaks = false := by rw [hn]; rfl
  refine ⟨[n, m], n, hs, rfl, by omega, more, t, ht, fun k hk => (hend 0 n k rfl hk).mpr ⟨hleaks, fun j l _ hl => ?_⟩⟩
  match j with
  | 0 => exact Option.some.inj hl ▸ hleaks
  | 1 => exact Option.some.inj hl ▸ hm
  | j + 2 => simp at hl

end AfbBinder.Request
