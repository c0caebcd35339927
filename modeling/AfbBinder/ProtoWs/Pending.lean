import AfbBinder.Lib.Unused
import AfbBinder.ProtoWs.CallOutcome

/-! The pending calls and the pending describes of a client, with the identifiers that are sent
for them. A describe is made, sent and removed when its sending fails under the mutex. -/
namespace AfbBinder.ProtoWs.Pending
open Lib.Runs Lib.Unused

/-- The number is the one of afb_proto_ws_client_describe, it stands for its callback. -/
structure Describe where
  descid : UInt32
  number : Nat
  deriving DecidableEq, Repr

/-- The proto of a client: its calls, its describes, the describes that on_hangup took, the
messages of describe sent, the descriptions received that wait for their job. told has the
descriptions given to the callbacks, with the describe they answer to, none for the hangup. -/
structure Proto where
  calls : Calls.Client
  describes : List Describe
  ncd : Option (List Describe)
  asked : List Describe
  received : List Describe
  next : Nat
  told : List (Option Nat × Nat)

def Proto.start : Proto where
  calls := .start
  describes := []
  ncd := none
  asked := []
  received := []
  next := 0
  told := []

def Proto.callids (s : Proto) : List UInt32 := s.calls.calls.map fun k => (s.calls.record k).callid

def Proto.descids (s : Proto) : List UInt32 := s.describes.map Describe.descid

/-- The loop of afb_proto_ws_client_describe: it goes over the list and restarts when it meets
the descid. -/
def newDescid (s : Proto) (addr : Nat) : Option UInt32 :=
  rescan s.descids ((s.describes.length + 1) * s.describes.length) s.descids (Calls.ptr2id addr)

inductive Action where
  | call (a : Calls.Action)
  | describe (addr : Nat) (ok : Bool)
  | answerDescribe (d : Describe)
  | description (d : Describe)
  | exchangeDescribes
  | hangupDescribe
  deriving DecidableEq, Repr

def step (s : Proto) : Action → Option Proto
  | .call a =>
    -- on_hangup takes the describes, then the calls
    if a = .exchange ∧ s.ncd = none then none
    else (Calls.step s.calls a).map fun calls => { s with calls := calls }
  | .describe addr ok =>
    (newDescid s addr).map fun descid =>
      let desc := ⟨descid, s.next⟩
      let s := { s with describes := desc :: s.describes, next := s.next + 1 }
      if s.calls.hangup = .connected ∧ ok then { s with asked := desc :: s.asked }
      else { s with describes := s.describes.erase desc }
  | .answerDescribe d =>
    if d ∈ s.asked ∧ s.calls.hangup = .connected then
      some { s with asked := s.asked.erase d, received := s.received ++ [d] }
    else none
  | .description d =>
    if d ∈ s.received then
      let s := { s with received := s.received.erase d }
      match s.describes.find? fun desc => desc.descid = d.descid with
      | none => some s
      | some desc =>
        some { s with describes := s.describes.erase desc, told := s.told ++ [(some d.number, desc.number)] }
    else none
  | .exchangeDescribes =>
    if s.calls.hangup = .disconnected ∧ s.ncd = none then some { s with ncd := some s.describes, describes := [] }
    else none
  | .hangupDescribe =>
    match s.ncd with
    | some (d :: ncd) =>
      if s.calls.hangup = .taken none [] then some { s with ncd := some ncd, told := s.told ++ [(none, d.number)] }
      else none
    | _ => none

/-! The identifiers. -/

section
variable {s : Calls.Client}

/-- The callid of a call is the first one, from the one of its address on, that no pending call
has. -/
theorem newCallid_eq (addr : Nat) :
    Calls.newCallid s addr = firstUnused (s.calls.map fun k => (s.record k).callid) (s.calls.length + 1)
      (Calls.ptr2id addr) := by
  have hsearch (a : UInt32) : (Calls.clientCallSearchLocked s a).isNone = true ↔
      a ∉ s.calls.map fun k => (s.record k).callid := by
    simp [Calls.clientCallSearchLocked]
  have hloop (n : Nat) (a : UInt32) : ((List.range n).map fun i => a + UInt32.ofNat i).find?
      (fun callid => (Calls.clientCallSearchLocked s callid).isNone) =
        firstUnused (s.calls.map fun k => (s.record k).callid) n a := by
    induction n generalizing a with
    | zero => rfl
    | succ n ih =>
      have hnext : ((List.range n).map Nat.succ).map (fun i => a + UInt32.ofNat i) =
          (List.range n).map fun i => a + 1 + UInt32.ofNat i := by
        rw [List.map_map]
        refine List.map_congr_left fun i _ => ?_
        rw [Function.comp_apply, UInt32.add_assoc, UInt32.add_comm 1, show (1 : UInt32) = UInt32.ofNat 1 from rfl,
          ← UInt32.ofNat_add]
      rw [List.range_succ_eq_map, List.map_cons, show UInt32.ofNat 0 = 0 from rfl, UInt32.add_zero, hnext,
        List.find?_cons, firstUnused, ih]
      by_cases ha : a ∈ s.calls.map fun k => (s.record k).callid
      · rw [if_pos ha, Bool.eq_false_iff.mpr fun h => (hsearch a).mp h ha]
      · rw [if_neg ha, (hsearch a).mpr ha]
  exact hloop _ _

end

section
variable {s t : Proto}

private theorem newDescid_ends (hlen : s.describes.length < 2 ^ 32) (addr : Nat) :
    ∃ descid, newDescid s addr = some descid := by
  have hlength : s.descids.length = s.describes.length := List.length_map _
  rw [← hlength] at hlen
  obtain ⟨b, hb⟩ := firstUnused_ends hlen (Calls.ptr2id addr)
  exact ⟨b, rescan_eq hb (Nat.le_of_eq (by rw [hlength]))⟩

private theorem newDescid_new {addr : Nat} {descid : UInt32} (h : newDescid s addr = some descid) :
    descid ∉ s.descids := rescan_notMem rfl List.not_mem_nil h

end

/-! The calls. -/

/-- The record that a job of reply holds. -/
def held : Calls.Job → Option Nat
  | .found call | .told call | .unlinked call => some call
  | _ => none

/-- A call waits for its reply: neither its caller nor the job of its reply removed it. -/
def waits : Calls.Caller → Calls.Job → Bool
  | .registered, _ | .built, _ | .clean, _ => true
  | .sent, .unanswered | .sent, .queued | .sent, .found _ | .sent, .told _ => true
  | _, _ => false

/-- The pending calls have distinct callids. Until the list is taken, it has each call that
waits, and the job of a reply holds no other call than its own. -/
structure CallsInv (s : Calls.Client) : Prop where
  callids : (s.calls.map fun k => (s.record k).callid).Nodup
  allocated : ∀ k ∈ s.calls, k < s.next
  idle : ∀ k, s.next ≤ k → s.caller k = .idle
  sent : ∀ k, s.job k ≠ .unanswered → s.caller k = .sent
  held : s.hangup.isTaken = false → ∀ k call, held (s.job k) = some call → call = k
  listed : s.hangup.isTaken = false → ∀ k, waits (s.caller k) (s.job k) = true → k ∈ s.calls

private theorem callsInv_start : CallsInv .start where
  callids := List.nodup_nil
  allocated _ hk := absurd hk List.not_mem_nil
  idle _ _ := rfl
  sent _ hk := absurd rfl hk
  held _ _ _ h := nomatch h
  listed _ _ h := nomatch h

section
variable {s t : Calls.Client} {k : Nat}

/-- A step about one call keeps the others. -/
theorem CallsInv.change (hs : CallsInv s) (hidle : s.caller k ≠ .idle)
    (hcalls : t.calls.Sublist s.calls) (hrecord : t.record = s.record) (hnext : t.next = s.next)
    (htaken : t.hangup.isTaken = s.hangup.isTaken)
    (hother : ∀ l, l ≠ k → t.caller l = s.caller l ∧ t.job l = s.job l ∧
      (t.hangup.isTaken = false → l ∈ s.calls → l ∈ t.calls))
    (hsent : t.job k ≠ .unanswered → t.caller k = .sent)
    (hheld : s.hangup.isTaken = false → ∀ call, Pending.held (t.job k) = some call → call = k)
    (hlisted : s.hangup.isTaken = false → waits (t.caller k) (t.job k) = true → k ∈ t.calls) : CallsInv t where
  callids := by
    rw [hrecord]
    exact hs.callids.sublist (hcalls.map _)
  allocated l hl := by
    rw [hnext]
    exact hs.allocated l (hcalls.subset hl)
  idle l hl := by
    rw [hnext] at hl
    have hne : l ≠ k := by
      rintro rfl
      exact hidle (hs.idle l hl)
    rw [(hother l hne).1]
    exact hs.idle l hl
  sent l hl := by
    by_cases hne : l = k
    · subst hne
      exact hsent hl
    · rw [(hother l hne).1]
      rw [(hother l hne).2.1] at hl
      exact hs.sent l hl
  held hoff l call hl := by
    by_cases hne : l = k
    · subst hne
      exact hheld (htaken ▸ hoff) call hl
    · rw [(hother l hne).2.1] at hl
      exact hs.held (htaken ▸ hoff) l call hl
  listed hoff l hl := by
    by_cases hne : l = k
    · subst hne
      exact hlisted (htaken ▸ hoff) hl
    · rw [(hother l hne).1, (hother l hne).2.1] at hl
      exact (hother l hne).2.2 hoff (hs.listed (htaken ▸ hoff) l hl)

private theorem search_listed (hs : CallsInv s) (hk : k ∈ s.calls) :
    Calls.clientCallSearchLocked s (s.record k).callid = some k := Lib.Lists.find_key hs.callids hk

private theorem inv_setCaller (hs : CallsInv s) {c : Calls.Caller} (hidle : s.caller k ≠ .idle)
    (hsent : s.caller k ≠ .sent) (hwaits : waits c .unanswered = true → waits (s.caller k) .unanswered = true) :
    CallsInv (s.setCaller k c) := by
  have hjob : s.job k = .unanswered := by
    by_contra h
    exact hsent (hs.sent k h)
  refine hs.change hidle (List.Sublist.refl _) rfl rfl rfl (fun l hl => ?_) ?_ ?_ ?_
  · exact ⟨Function.update_of_ne hl _ _, rfl, fun _ h => h⟩
  · exact fun h => absurd hjob h
  · exact fun hoff => hs.held hoff k
  · intro hoff h
    refine hs.listed hoff k ?_
    rw [hjob]
    apply hwaits
    rwa [show (s.setCaller k c).caller k = c from Function.update_self .., show (s.setCaller k c).job k = .unanswered
      from hjob] at h

private theorem inv_setJob (hs : CallsInv s) {j : Calls.Job} (hsent : s.caller k = .sent)
    (hheld : s.hangup.isTaken = false → ∀ call, held j = some call → call = k)
    (hwaits : waits .sent j = true → waits .sent (s.job k) = true) : CallsInv (s.setJob k j) := by
  have hidle : s.caller k ≠ .idle := by
    rw [hsent]
    decide
  have hj : (s.setJob k j).job k = j := Function.update_self ..
  refine hs.change hidle (List.Sublist.refl _) rfl rfl rfl (fun l hl => ?_) ?_ ?_ ?_
  · exact ⟨rfl, Function.update_of_ne hl _ _, fun _ h => h⟩
  · exact fun _ => hsent
  · intro hoff call h
    rw [hj] at h
    exact hheld hoff call h
  · intro hoff h
    refine hs.listed hoff k ?_
    rw [hj, show (s.setJob k j).caller k = .sent from hsent] at h
    rw [hsent]
    exact hwaits h

private theorem CallsInv.congr (hs : CallsInv s) (hcalls : t.calls = s.calls) (hrecord : t.record = s.record)
    (hnext : t.next = s.next) (hcaller : t.caller = s.caller) (hjob : t.job = s.job)
    (htaken : t.hangup.isTaken = s.hangup.isTaken) : CallsInv t := by
  obtain ⟨hids, hallocated, hidle, hsent, hheld, hlisted⟩ := hs
  refine ⟨?_, ?_, ?_, ?_, ?_, ?_⟩
  · rwa [hcalls, hrecord]
  · rwa [hcalls, hnext]
  · rwa [hnext, hcaller]
  · rwa [hjob, hcaller]
  · rwa [htaken, hjob]
  · rwa [htaken, hcaller, hjob, hcalls]

private theorem CallsInv.use (hs : CallsInv s) (ks : List Nat) : CallsInv (s.use ks) :=
  hs.congr rfl rfl rfl rfl rfl rfl

private theorem inv_unlink (hs : CallsInv s) {call : Nat} {c : Calls.Caller} {j : Calls.Job}
    (hidle : s.caller k ≠ .idle) (hcall : s.hangup.isTaken = false → call = k)
    (hheld : ∀ l, held j = some l → l = call) (hsent : j ≠ .unanswered → c = .sent) (hwaits : waits c j = false) :
    CallsInv (((Calls.clientCallUnlink s call).setCaller k c).setJob k j) := by
  have hc : (((Calls.clientCallUnlink s call).setCaller k c).setJob k j).caller k = c := Function.update_self ..
  have hj : (((Calls.clientCallUnlink s call).setCaller k c).setJob k j).job k = j := Function.update_self ..
  refine hs.change hidle List.erase_sublist rfl rfl rfl (fun l hl => ?_) ?_ ?_ ?_
  · refine ⟨Function.update_of_ne hl _ _, Function.update_of_ne hl _ _, fun hoff h => ?_⟩
    have hne : l ≠ call := by
      rw [hcall hoff]
      exact hl
    exact (List.mem_erase_of_ne hne).mpr h
  · rwa [hc, hj]
  · intro hoff l hl
    rw [hj] at hl
    rw [hheld l hl, hcall hoff]
  · intro _ h
    rw [hc, hj, hwaits] at h
    exact nomatch h

private theorem search_queued (hs : CallsInv s) (hk : s.job k = .queued) (hoff : s.hangup.isTaken = false) :
    Calls.clientCallSearchLocked s (s.record k).callid = some k := by
  apply search_listed hs
  apply hs.listed hoff
  rw [hs.sent k (by rw [hk]; decide), hk]
  rfl

private theorem inv_register (hs : CallsInv s) {addr : Nat} {callid : UInt32}
    (h : Calls.newCallid s addr = some callid) :
    CallsInv { (s.use s.calls).setCaller s.next .registered with
      calls := s.next :: s.calls
      record := Function.update s.record s.next ⟨addr, callid⟩
      live := Function.update s.live s.next true
      next := s.next + 1 } := by
  have hne (k : Nat) (hk : k ∈ s.calls) : k ≠ s.next := Nat.ne_of_lt (hs.allocated k hk)
  have hsame : s.calls.map (fun k => (Function.update s.record s.next ⟨addr, callid⟩ k).callid) =
      s.calls.map fun k => (s.record k).callid :=
    List.map_congr_left fun k hk => by rw [Function.update_of_ne (hne k hk)]
  have hnew : callid ∉ s.calls.map fun k => (s.record k).callid := by
    rw [newCallid_eq] at h
    exact firstUnused_notMem h
  have hjob : s.job s.next = .unanswered := by
    by_contra hj
    exact absurd (hs.sent _ hj) (by rw [hs.idle _ (Nat.le_refl _)]; decide)
  refine ⟨?_, ?_, ?_, ?_, fun hoff => hs.held hoff, ?_⟩
  · dsimp only
    rw [List.map_cons, Function.update_self, hsame]
    exact List.nodup_cons.mpr ⟨hnew, hs.callids⟩
  · intro k hk
    rcases List.mem_cons.mp hk with rfl | hk
    · exact Nat.lt_succ_self _
    · exact Nat.lt_succ_of_lt (hs.allocated k hk)
  · intro k hk
    exact (Function.update_of_ne (Nat.ne_of_gt hk) _ _).trans (hs.idle k (Nat.le_of_lt hk))
  · intro k hk
    have hold : k ≠ s.next := by
      rintro rfl
      exact hk hjob
    exact (Function.update_of_ne hold _ _).trans (hs.sent k hk)
  · intro hoff k hk
    by_cases hold : k = s.next
    · rw [hold]
      exact List.mem_cons_self
    · change waits (Function.update s.caller s.next .registered k) (s.job k) = true at hk
      rw [Function.update_of_ne hold] at hk
      exact List.mem_cons_of_mem _ (hs.listed hoff k hk)

private theorem callsInv_step {a : Calls.Action} (hs : CallsInv s) (h : Calls.step s a = some t) :
    CallsInv t := by
  cases a with
  | register addr =>
    simp only [Calls.step, Option.ite_none_right_eq_some, Option.map_eq_some_iff] at h
    obtain ⟨-, callid, hcallid, rfl⟩ := h
    exact inv_register hs hcallid
  | build k ok =>
    simp only [Calls.step, Option.ite_none_right_eq_some, Option.some.injEq] at h
    obtain ⟨hk, rfl⟩ := h
    refine inv_setCaller (hs.use [k]) ?_ ?_ fun _ => ?_
    · exact fun h => absurd (hk.symm.trans h) (by decide)
    · exact fun h => absurd (hk.symm.trans h) (by decide)
    · exact congrArg (waits · .unanswered) hk
  | send k ok =>
    simp only [Calls.step, Option.ite_none_right_eq_some, Option.some.injEq] at h
    obtain ⟨hk, rfl⟩ := h
    refine inv_setCaller hs ?_ ?_ fun _ => ?_
    · exact fun h => absurd (hk.symm.trans h) (by decide)
    · exact fun h => absurd (hk.symm.trans h) (by decide)
    · exact congrArg (waits · .unanswered) hk
  | unlink k =>
    simp only [Calls.step, Option.ite_none_right_eq_some, Option.some.injEq] at h
    obtain ⟨hk, rfl⟩ := h
    have hjob : s.job k = .unanswered := by
      by_contra hj
      exact absurd (hk.symm.trans (hs.sent k hj)) (by decide)
    have hinv := inv_unlink (k := k) hs (j := .unanswered) (c := .unlinked) (by rw [hk]; decide) (fun _ => rfl)
      (fun l hl => by cases hl) (fun h => absurd rfl h) rfl
    refine hinv.congr rfl rfl rfl rfl ?_ rfl
    exact (Function.update_eq_self_iff.mpr hjob.symm).symm
  | free k =>
    simp only [Calls.step, Option.ite_none_right_eq_some, Option.some.injEq] at h
    obtain ⟨hk, rfl⟩ := h
    have hfree : CallsInv (s.free k) := hs.congr rfl rfl rfl rfl rfl rfl
    refine inv_setCaller hfree ?_ ?_ fun h => by cases h
    · exact fun h => absurd (hk.symm.trans h) (by decide)
    · exact fun h => absurd (hk.symm.trans h) (by decide)
  | answer k =>
    simp only [Calls.step, Option.ite_none_right_eq_some, Option.some.injEq] at h
    obtain ⟨⟨hk, hjob, -⟩, rfl⟩ := h
    exact inv_setJob hs hk (fun _ call hcall => by cases hcall) fun _ => by rw [hjob]; rfl
  | search k =>
    simp only [Calls.step, Option.ite_none_right_eq_some, Option.some.injEq] at h
    obtain ⟨hk, rfl⟩ := h
    have hsent : s.caller k = .sent := hs.sent k (by rw [hk]; decide)
    refine inv_setJob (hs.use s.calls) hsent (fun hoff call hcall => ?_) fun _ => ?_
    · rw [search_queued hs hk hoff] at hcall
      exact (Option.some.inj hcall).symm
    · exact congrArg (waits .sent) hk
  | replyCallback k =>
    simp only [Calls.step] at h
    split at h <;> cases h
    next call hk =>
    have hsent : s.caller k = .sent := hs.sent k (by rw [hk]; rintro ⟨⟩)
    have hreply : CallsInv (s.onReply call) := hs.congr rfl rfl rfl rfl rfl rfl
    refine inv_setJob hreply hsent (fun hoff l hl => ?_) fun _ => ?_
    · exact hs.held hoff k l (by rw [hk]; exact hl)
    · exact congrArg (waits .sent) hk
  | replyUnlink k =>
    simp only [Calls.step] at h
    split at h <;> cases h
    next call hk =>
    have hsent : s.caller k = .sent := hs.sent k (by rw [hk]; rintro ⟨⟩)
    have hinv := inv_unlink (k := k) hs (j := .unlinked call) (c := .sent) (by rw [hsent]; decide)
      (fun hoff => hs.held hoff k call (by rw [hk]; rfl)) (fun l hl => (Option.some.inj hl).symm) (fun _ => rfl) rfl
    refine hinv.congr rfl rfl rfl ?_ rfl rfl
    exact (Function.update_eq_self_iff.mpr hsent.symm).symm
  | replyFree k =>
    simp only [Calls.step] at h
    split at h <;> cases h
    next call hk =>
    have hsent : s.caller k = .sent := hs.sent k (by rw [hk]; rintro ⟨⟩)
    have hfree : CallsInv (s.free call) := hs.congr rfl rfl rfl rfl rfl rfl
    exact inv_setJob hfree hsent (fun _ l hl => by cases hl) fun h => by cases h
  | disconnect =>
    simp only [Calls.step, Option.ite_none_right_eq_some, Option.some.injEq] at h
    obtain ⟨hon, rfl⟩ := h
    exact hs.congr rfl rfl rfl rfl rfl (by rw [hon]; rfl)
  | exchange =>
    simp only [Calls.step, Option.ite_none_right_eq_some, Option.some.injEq] at h
    obtain ⟨-, rfl⟩ := h
    exact ⟨List.nodup_nil, fun _ hk => absurd hk List.not_mem_nil, hs.idle, hs.sent, (fun h => by cases h),
      fun h => by cases h⟩
  | hangupCallback =>
    simp only [Calls.step] at h
    split at h <;> cases h
    next k ncall hk =>
    exact hs.congr rfl rfl rfl rfl rfl (by rw [hk]; rfl)
  | hangupFree =>
    simp only [Calls.step] at h
    split at h <;> cases h
    next k ncall hk =>
    exact hs.congr rfl rfl rfl rfl rfl (by rw [hk]; rfl)

end

/-! The describes. -/

/-- Until on_hangup takes the describes, each of them whose message is sent is in the list up to
the job of its description. -/
structure Inv (s : Proto) : Prop where
  calls : CallsInv s.calls
  descids : s.descids.Nodup
  apart : (s.asked ++ s.received).Nodup
  allocated : ∀ d ∈ s.asked ++ s.received, d.number < s.next
  listed : s.ncd = none → ∀ d ∈ s.asked ++ s.received, d ∈ s.describes

theorem inv_start : Inv .start where
  calls := callsInv_start
  descids := List.nodup_nil
  apart := List.nodup_nil
  allocated _ hd := absurd hd List.not_mem_nil
  listed _ _ hd := absurd hd List.not_mem_nil

section
variable {s t : Proto}

private theorem inv_describe (hs : Inv s) {addr : Nat} {ok : Bool}
    (h : step s (.describe addr ok) = some t) : Inv t := by
  simp only [step, Option.map_eq_some_iff] at h
  obtain ⟨descid, hdescid, rfl⟩ := h
  have hnew : descid ∉ s.descids := newDescid_new hdescid
  have hold (d : Describe) (hd : d ∈ s.asked ++ s.received) : d ≠ ⟨descid, s.next⟩ := by
    rintro rfl
    exact Nat.lt_irrefl _ (hs.allocated _ hd)
  split_ifs with hsent
  · refine ⟨hs.calls, List.nodup_cons.mpr ⟨hnew, hs.descids⟩, ?_, ?_, ?_⟩
    · exact List.nodup_cons.mpr ⟨fun hd => hold _ hd rfl, hs.apart⟩
    · intro d hd
      rcases List.mem_cons.mp hd with rfl | hd
      · exact Nat.lt_succ_self _
      · exact Nat.lt_succ_of_lt (hs.allocated d hd)
    · intro hoff d hd
      rcases List.mem_cons.mp hd with rfl | hd
      · exact List.mem_cons_self
      · exact List.mem_cons_of_mem _ (hs.listed hoff d hd)
  · rw [List.erase_cons_head]
    exact ⟨hs.calls, hs.descids, hs.apart, fun d hd => Nat.lt_succ_of_lt (hs.allocated d hd), hs.listed⟩

/-- The job of a description finds its describe, unless the list was taken. -/
theorem find_described (hs : Inv s) {d : Describe} (hoff : s.ncd = none) (hd : d ∈ s.received) :
    s.describes.find? (fun desc => desc.descid = d.descid) = some d :=
  Lib.Lists.find_key hs.descids (hs.listed hoff d (List.mem_append_right _ hd))

private theorem inv_description (hs : Inv s) {d : Describe} (h : step s (.description d) = some t) : Inv t := by
  simp only [step, Option.ite_none_right_eq_some] at h
  obtain ⟨hd, h⟩ := h
  have hsub : (s.asked ++ s.received.erase d).Sublist (s.asked ++ s.received) :=
    (List.Sublist.refl _).append List.erase_sublist
  have hne (e : Describe) (he : e ∈ s.asked ++ s.received.erase d) : e ≠ d := by
    rintro rfl
    rcases List.mem_append.mp he with he | he
    · exact (List.nodup_append.mp hs.apart).2.2 _ he _ hd rfl
    · exact (List.nodup_append.mp hs.apart).2.1.not_mem_erase he
  split at h
  next hnone =>
    cases h
    refine ⟨hs.calls, hs.descids, hs.apart.sublist hsub, fun e he => hs.allocated e (hsub.subset he), fun hoff => ?_⟩
    exact absurd ((find_described hs hoff hd).symm.trans hnone) (by simp)
  next desc hdesc =>
    cases h
    refine ⟨hs.calls, hs.descids.sublist (List.erase_sublist.map _), hs.apart.sublist hsub,
      fun e he => hs.allocated e (hsub.subset he), fun hoff e he => ?_⟩
    have hself : desc = d := Option.some.inj (hdesc.symm.trans (find_described hs hoff hd))
    rw [hself]
    exact (List.mem_erase_of_ne (hne e he)).mpr (hs.listed hoff e (hsub.subset he))

private theorem inv_answerDescribe (hs : Inv s) {d : Describe} (h : step s (.answerDescribe d) = some t) :
    Inv t := by
  simp only [step, Option.ite_none_right_eq_some, Option.some.injEq] at h
  obtain ⟨⟨hd, -⟩, rfl⟩ := h
  have hperm : (s.asked.erase d ++ (s.received ++ [d])).Perm (s.asked ++ s.received) := by
    rw [← List.append_assoc]
    refine List.perm_append_comm.trans ?_
    exact ((List.perm_cons_erase hd).append_right _).symm
  refine ⟨hs.calls, hs.descids, hperm.nodup_iff.mpr hs.apart, fun e he => ?_, fun hoff e he => ?_⟩
  · exact hs.allocated e (hperm.mem_iff.mp he)
  · exact hs.listed hoff e (hperm.mem_iff.mp he)

theorem inv_step {a : Action} (hs : Inv s) (h : step s a = some t) : Inv t := by
  cases a with
  | call a =>
    simp only [step, Option.ite_none_left_eq_some, Option.map_eq_some_iff] at h
    obtain ⟨-, calls, hcalls, rfl⟩ := h
    exact ⟨callsInv_step hs.calls hcalls, hs.descids, hs.apart, hs.allocated, hs.listed⟩
  | describe addr ok => exact inv_describe hs h
  | answerDescribe d => exact inv_answerDescribe hs h
  | description d => exact inv_description hs h
  | exchangeDescribes =>
    simp only [step, Option.ite_none_right_eq_some, Option.some.injEq] at h
    obtain ⟨-, rfl⟩ := h
    exact ⟨hs.calls, List.nodup_nil, hs.apart, hs.allocated, fun h => by cases h⟩
  | hangupDescribe =>
    simp only [step] at h
    split at h
    next d ncd hncd =>
      simp only [Option.ite_none_right_eq_some, Option.some.injEq] at h
      obtain ⟨-, rfl⟩ := h
      exact ⟨hs.calls, hs.descids, hs.apart, hs.allocated, fun h => by cases h⟩
    next => exact nomatch h

end

/-- In every state that a run reaches the identifiers of the pending items are distinct, and the
loops that make them end with fewer than 2^32 items. Until the list of calls is taken, the job of
a reply finds the call that the reply is for, whose callback it then calls; until the list of
describes is taken, a description goes to its describe. -/
theorem identifiers_deliver (as : List Action) (s : Proto) (h : exec step .start as = some s) :
    s.callids.Nodup ∧ s.descids.Nodup ∧
      (∀ addr, s.callids.length < 2 ^ 32 → ∃ callid, Calls.newCallid s.calls addr = some callid) ∧
      (∀ addr, s.descids.length < 2 ^ 32 → ∃ descid, newDescid s addr = some descid) ∧
      (∀ k, s.calls.job k = .queued → s.calls.hangup.isTaken = false →
        ∃ t, step s (.call (.search k)) = some t ∧ t.calls.job k = .found k) ∧
      (∀ k call, s.calls.job k = .found call → s.calls.hangup.isTaken = false →
        call = k ∧ ∃ t, step s (.call (.replyCallback k)) = some t ∧ t.calls.replies = s.calls.replies ++ [k]) ∧
      (∀ d ∈ s.received, s.ncd = none →
        ∃ t, step s (.description d) = some t ∧ t.told = s.told ++ [(some d.number, d.number)]) := by
  have hs : Inv s := exec_keeps (fun _ _ _ => inv_step) inv_start h
  refine ⟨hs.calls.callids, hs.descids, fun addr hlen => ?_, fun addr hlen => ?_, fun k hk hoff => ?_,
    fun k call hk hoff => ?_, fun d hd hoff => ?_⟩
  · obtain ⟨callid, hcallid⟩ := firstUnused_ends hlen (Calls.ptr2id addr)
    refine ⟨callid, ?_⟩
    rwa [Proto.callids, List.length_map, ← newCallid_eq] at hcallid
  · exact newDescid_ends (by rwa [Proto.descids, List.length_map] at hlen) addr
  · have hsearch : step s (.call (.search k)) =
        some { s with calls := (s.calls.use s.calls.calls).setJob k (.found k) } := by
      simp only [step, Calls.step, hk, if_true, search_queued hs.calls hk hoff]
      rfl
    exact ⟨_, hsearch, Function.update_self ..⟩
  · have hcall : call = k := hs.calls.held hoff k call (by rw [hk]; rfl)
    subst hcall
    refine ⟨rfl, ?_⟩
    simp only [step, Calls.step, hk]
    exact ⟨_, rfl, rfl⟩
  · simp only [step, hd, if_true, find_described hs hoff hd]
    exact ⟨_, rfl, rfl⟩

/-- A call and a describe are answered while another call is pending with the callid next to
the one of its address. -/
private def answeredRun : List Action :=
  [.call (.register 64), .call (.register 65), .call (.build 0 true), .call (.send 0 true), .describe 64 true,
    .call (.answer 0), .answerDescribe ⟨1, 0⟩]

theorem identifiers_deliver_sample : ∃ s, exec step .start answeredRun = some s ∧ s.callids = [2, 1] ∧
    (∃ t, step s (.call (.search 0)) = some t ∧ t.calls.job 0 = .found 0) ∧
    ∃ t, step s (.description ⟨1, 0⟩) = some t ∧ t.told = [(some 0, 0)] := by
  have hall := identifiers_deliver answeredRun _ rfl
  refine ⟨_, rfl, by decide, hall.2.2.2.2.1 0 rfl rfl, ?_⟩
  exact hall.2.2.2.2.2.2 ⟨1, 0⟩ (by decide) rfl

/-- A call is sent and answered, then the hangup takes the list before the job of the reply
searches it. -/
theorem reply_after_hangup : ¬ ∀ as s, exec step .start as = some s → ∀ k, s.calls.job k = .queued →
    ∃ t, step s (.call (.search k)) = some t ∧ t.calls.job k = .found k := by
  intro hall
  obtain ⟨t, ht, hfound⟩ := hall [.call (.register 64), .call (.build 0 true), .call (.send 0 true),
    .call (.answer 0), .call .disconnect, .exchangeDescribes, .call .exchange] _ rfl 0 rfl
  cases ht
  exact absurd hfound (by decide)

end AfbBinder.ProtoWs.Pending
