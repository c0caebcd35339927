import AfbBinder.ProtoWs.Calls

/-! Each call has one outcome while the threads are kept apart, and an interleaving where it
has two. -/
namespace AfbBinder.ProtoWs.Calls
open Lib.Runs

namespace Hangup

def current : Hangup → Option Nat
  | taken current _ => current
  | _ => none

def isTaken : Hangup → Bool
  | taken _ _ => true
  | _ => false

end Hangup

/-- Where the record of a call is: in the list, allocated, its number of replies, to be told
by the hangup, to be freed by the hangup. -/
structure Facts where
  listed : Bool
  live : Bool
  told : Nat
  waiting : Bool
  current : Bool
  deriving DecidableEq

def facts (s : Client) (k : Nat) : Facts where
  listed := s.calls.contains k
  live := s.live k
  told := s.replies.count k
  waiting := s.hangup.waiting.contains k
  current := s.hangup.current == some k

/-- The hangup has the record, or had it. -/
def Hung (taken : Bool) (f : Facts) : Prop :=
  taken = true ∧ (f = ⟨false, true, 0, true, false⟩ ∨ f = ⟨false, true, 1, false, true⟩ ∨
    f = ⟨false, false, 1, false, false⟩)

/-- What holds of a record for each position of its call and of the job of its reply. -/
def Allowed (taken : Bool) (k : Nat) : Caller → Job → Facts → Prop
  | .idle, .unanswered, f => f = ⟨false, false, 0, false, false⟩
  | .registered, .unanswered, f => f = ⟨true, true, 0, false, false⟩
  | .built, .unanswered, f => f = ⟨true, true, 0, false, false⟩
  | .clean, .unanswered, f => f = ⟨true, true, 0, false, false⟩
  | .unlinked, .unanswered, f => f = ⟨false, true, 0, false, false⟩
  | .failed, .unanswered, f => f = ⟨false, false, 0, false, false⟩
  | .sent, .unanswered, f => (taken = false ∧ f = ⟨true, true, 0, false, false⟩) ∨ Hung taken f
  | .sent, .queued, f => (taken = false ∧ f = ⟨true, true, 0, false, false⟩) ∨ Hung taken f
  | .sent, .found call, f => call = k ∧ taken = false ∧ f = ⟨true, true, 0, false, false⟩
  | .sent, .told call, f => call = k ∧ taken = false ∧ f = ⟨true, true, 1, false, false⟩
  | .sent, .unlinked call, f => call = k ∧ f = ⟨false, true, 1, false, false⟩
  | .sent, .done, f => f = ⟨false, false, 1, false, false⟩ ∨ Hung taken f
  | _, _, _ => False

def allowed (s : Client) (k : Nat) : Prop :=
  Allowed s.hangup.isTaken k (s.caller k) (s.job k) (facts s k)

structure Inv (s : Client) : Prop where
  nodup : s.calls.Nodup
  nodupWaiting : s.hangup.waiting.Nodup
  callids : ∀ k ∈ s.calls, ∀ l ∈ s.calls, (s.record k).callid = (s.record l).callid → k = l
  idle : ∀ k, s.next ≤ k → s.caller k = .idle
  memory : s.misuse = false
  allowed : ∀ k, allowed s k

private theorem inv_start : Inv Client.start where
  nodup := List.nodup_nil
  nodupWaiting := List.nodup_nil
  callids _ h := by cases h
  idle _ _ := rfl
  memory := rfl
  allowed _ := rfl

section
variable {s t : Client} {k : Nat}

private theorem listed_iff : (facts s k).listed = true ↔ k ∈ s.calls := List.contains_iff_mem

private theorem unlisted_iff : (facts s k).listed = false ↔ k ∉ s.calls := by
  rw [← listed_iff, Bool.not_eq_true]

private theorem waiting_iff : (facts s k).waiting = true ↔ k ∈ s.hangup.waiting :=
  List.contains_iff_mem

private theorem live_of_listed (hs : Inv s) (hk : k ∈ s.calls) : s.live k = true := by
  have h := hs.allowed k
  unfold allowed at h
  have hl : (facts s k).listed = true := listed_iff.mpr hk
  have hv : s.live k = (facts s k).live := rfl
  rw [hv]
  generalize facts s k = f at h hl
  unfold Allowed Hung at h
  split at h <;> rcases h with h | ⟨-, h | h | h⟩ <;> simp_all

private theorem use_eq {ks : List Nat} (h : ∀ k ∈ ks, s.live k = true) : s.use ks = s := by
  have hany : (ks.any fun k => !s.live k) = false := by
    rw [List.any_eq_false]
    intro k hk
    simp [h k hk]
  simp only [Client.use, hany, Bool.or_false]

private theorem facts_erase_self (hn : s.calls.Nodup) :
    facts { s with calls := s.calls.erase k } k = { facts s k with listed := false } := by
  simp [facts, hn.mem_erase_iff]

private theorem facts_erase_ne {l : Nat} (hl : l ≠ k) :
    facts { s with calls := s.calls.erase k } l = facts s l := by
  simp [facts, List.mem_erase_of_ne hl]

/-- A step about one call keeps the invariant when it does so for this call and leaves the
others as they are. -/
theorem Inv.change {c : Caller} {j : Job} {f : Facts} (hs : Inv s) (k : Nat)
    (hcalls : t.calls.Sublist s.calls)
    (hwaiting : t.hangup.waiting.Sublist s.hangup.waiting) (hrecord : t.record = s.record)
    (hnext : t.next = s.next) (hidle : s.caller k ≠ .idle) (hmemory : t.misuse = false)
    (htaken : t.hangup.isTaken = s.hangup.isTaken)
    (hother : ∀ l, l ≠ k → t.caller l = s.caller l ∧ t.job l = s.job l ∧ facts t l = facts s l)
    (hc : t.caller k = c) (hj : t.job k = j) (hf : facts t k = f)
    (hk : Allowed s.hangup.isTaken k c j f) : Inv t where
  nodup := hs.nodup.sublist hcalls
  nodupWaiting := hs.nodupWaiting.sublist hwaiting
  callids l hl m hm h := by
    rw [hrecord] at h
    exact hs.callids l (hcalls.subset hl) m (hcalls.subset hm) h
  idle l hl := by
    rw [hnext] at hl
    have hne : l ≠ k := by
      rintro rfl
      exact hidle (hs.idle l hl)
    rw [(hother l hne).1]
    exact hs.idle l hl
  memory := hmemory
  allowed l := by
    by_cases hl : l = k
    · rw [hl, Calls.allowed, htaken, hc, hj, hf]
      exact hk
    · obtain ⟨hc, hj, hf⟩ := hother l hl
      unfold Calls.allowed
      rw [htaken, hc, hj, hf]
      exact hs.allowed l

private theorem unanswered_of_unsent (hs : Inv s) (hc : s.caller k ≠ .sent) :
    s.job k = .unanswered := by
  have h := hs.allowed k
  unfold Calls.allowed Allowed at h
  split at h <;> simp_all

private theorem sent_of_answered (hs : Inv s) (hj : s.job k ≠ .unanswered) : s.caller k = .sent := by
  by_contra hc
  exact hj (unanswered_of_unsent hs hc)

private theorem facts_of_working (hs : Inv s)
    (hc : s.caller k = .registered ∨ s.caller k = .built ∨ s.caller k = .clean) :
    s.job k = .unanswered ∧ facts s k = ⟨true, true, 0, false, false⟩ := by
  have hj : s.job k = .unanswered :=
    unanswered_of_unsent hs (by rcases hc with hc | hc | hc <;> rw [hc] <;> decide)
  have h := hs.allowed k
  unfold Calls.allowed at h
  rw [hj] at h
  rcases hc with hc | hc | hc <;> exact ⟨hj, by rwa [hc] at h⟩

private theorem inv_setCaller {c : Caller} (hs : Inv s) (hidle : s.caller k ≠ .idle)
    (hk : Allowed s.hangup.isTaken k c (s.job k) (facts s k)) : Inv (s.setCaller k c) :=
  hs.change k (.refl _) (.refl _) rfl rfl hidle hs.memory rfl
    (fun _ hl => ⟨Function.update_of_ne hl _ _, rfl, rfl⟩) (Function.update_self ..) rfl rfl hk

private theorem inv_setJob {j : Job} (hs : Inv s) (hidle : s.caller k ≠ .idle)
    (hk : Allowed s.hangup.isTaken k (s.caller k) j (facts s k)) : Inv (s.setJob k j) :=
  hs.change k (.refl _) (.refl _) rfl rfl hidle hs.memory rfl
    (fun _ hl => ⟨rfl, Function.update_of_ne hl _ _, rfl⟩) rfl (Function.update_self ..) rfl hk

private theorem inv_build {ok : Bool} (hs : Inv s) (h : step s (.build k ok) = some t) : Inv t := by
  obtain ⟨hc, ht⟩ := Option.ite_none_right_eq_some.mp h
  obtain ⟨hj, hf⟩ := facts_of_working (k := k) hs (by simp [hc])
  have hlive : s.live k = true := congrArg Facts.live hf
  rw [← Option.some.inj ht, use_eq (by simpa using hlive)]
  refine inv_setCaller hs (by rw [hc]; decide) ?_
  rw [hj, hf]
  cases ok <;> rfl

private theorem inv_send {ok : Bool} (hs : Inv s) (h : step s (.send k ok) = some t) : Inv t := by
  obtain ⟨hc, ht⟩ := Option.ite_none_right_eq_some.mp h
  obtain ⟨hj, hf⟩ := facts_of_working (k := k) hs (by simp [hc])
  rw [← Option.some.inj ht]
  refine inv_setCaller hs (by rw [hc]; decide) ?_
  rw [hj, hf]
  split
  · rename_i hsend
    rw [hsend.1]
    exact .inl ⟨rfl, rfl⟩
  · rfl

private theorem inv_unlink (hs : Inv s) (h : step s (.unlink k) = some t) : Inv t := by
  obtain ⟨hc, ht⟩ := Option.ite_none_right_eq_some.mp h
  obtain ⟨hj, hf⟩ := facts_of_working (k := k) hs (by simp [hc])
  have hlive : s.live k = true := congrArg Facts.live hf
  have huse : s.use (k :: s.calls) = s :=
    use_eq (List.forall_mem_cons.mpr ⟨hlive, fun l => live_of_listed hs⟩)
  rw [← Option.some.inj ht, clientCallUnlink, huse]
  refine hs.change k List.erase_sublist (.refl _) rfl rfl (by rw [hc]; decide) hs.memory rfl
    (fun l hl => ⟨Function.update_of_ne hl _ _, rfl, facts_erase_ne hl⟩) (Function.update_self ..)
    hj (facts_erase_self hs.nodup) ?_
  rw [hf]
  rfl

private theorem facts_free_self (s : Client) (k : Nat) :
    facts { s with live := Function.update s.live k false } k = { facts s k with live := false } := by
  simp [facts]

private theorem facts_free_ne {l : Nat} (hl : l ≠ k) :
    facts { s with live := Function.update s.live k false } l = facts s l := by
  simp [facts, hl]

private theorem inv_free (hs : Inv s) (h : step s (.free k) = some t) : Inv t := by
  obtain ⟨hc, ht⟩ := Option.ite_none_right_eq_some.mp h
  have hj := unanswered_of_unsent (k := k) hs (by rw [hc]; decide)
  have hf : facts s k = ⟨false, true, 0, false, false⟩ := by
    simpa only [Calls.allowed, hc, hj, Allowed] using hs.allowed k
  have hlive : s.live k = true := congrArg Facts.live hf
  rw [← Option.some.inj ht, Client.free, use_eq (by simpa using hlive)]
  refine hs.change k (.refl _) (.refl _) rfl rfl (by rw [hc]; decide) hs.memory rfl
    (fun l hl => ⟨Function.update_of_ne hl _ _, rfl, facts_free_ne (s := s) hl⟩) (Function.update_self ..)
    hj (facts_free_self s k) ?_
  rw [hf]
  rfl

private theorem inv_answer (hs : Inv s) (h : step s (.answer k) = some t) : Inv t := by
  obtain ⟨⟨hc, hj, -⟩, ht⟩ := Option.ite_none_right_eq_some.mp h
  rw [← Option.some.inj ht]
  refine inv_setJob hs (by rw [hc]; decide) ?_
  have hk := hs.allowed k
  unfold Calls.allowed at hk
  rw [hc, hj] at hk
  rw [hc]
  exact hk

private theorem search_some {callid : UInt32} {call : Nat}
    (h : clientCallSearchLocked s callid = some call) :
    call ∈ s.calls ∧ (s.record call).callid = callid :=
  ⟨List.mem_of_find?_eq_some h, by simpa using List.find?_some h⟩

private theorem search_listed (hs : Inv s) (hk : k ∈ s.calls) :
    clientCallSearchLocked s (s.record k).callid = some k := by
  cases h : clientCallSearchLocked s (s.record k).callid with
  | none =>
    have := List.find?_eq_none.mp h k hk
    simp at this
  | some call =>
    obtain ⟨hmem, hid⟩ := search_some h
    rw [hs.callids call hmem k hk hid]

private theorem inv_search (hs : Inv s) (ha : Apart s (.search k))
    (h : step s (.search k) = some t) : Inv t := by
  obtain ⟨hj, ht⟩ := Option.ite_none_right_eq_some.mp h
  have hc : s.caller k = .sent := sent_of_answered hs (by rw [hj]; decide)
  have hk := hs.allowed k
  unfold Calls.allowed at hk
  rw [hc, hj] at hk
  rw [← Option.some.inj ht, use_eq fun l => live_of_listed hs]
  refine inv_setJob hs (by rw [hc]; decide) ?_
  rw [hc]
  rcases hk with ⟨htaken, hf⟩ | hung
  · have hlisted : k ∈ s.calls := listed_iff.mp (congrArg Facts.listed hf)
    rw [search_listed hs hlisted]
    exact ⟨rfl, htaken, hf⟩
  · -- once the list is taken no call of the new list is sent
    cases hsearch : clientCallSearchLocked s (s.record k).callid with
    | none => exact .inr hung
    | some call =>
      exfalso
      have hsent := ha call hsearch
      have hlisted : (facts s call).listed = true := listed_iff.mpr (search_some hsearch).1
      have hcall := hs.allowed call
      unfold Calls.allowed at hcall
      rw [hsent, hung.1] at hcall
      generalize facts s call = f at hcall hlisted
      unfold Allowed Hung at hcall
      split at hcall <;> rcases hcall with h | ⟨-, h | h | h⟩ <;> simp_all

private theorem facts_reply_self (s : Client) (k : Nat) :
    facts { s with replies := s.replies ++ [k] } k = { facts s k with told := (facts s k).told + 1 } := by
  simp [facts]

private theorem facts_reply_ne {l : Nat} (hl : l ≠ k) :
    facts { s with replies := s.replies ++ [k] } l = facts s l := by
  simp [facts, List.count_append, hl.symm]

private theorem inv_replyCallback (hs : Inv s) (h : step s (.replyCallback k) = some t) : Inv t := by
  cases hj : s.job k with
  | found call =>
    have hc : s.caller k = .sent := sent_of_answered hs (by rw [hj]; exact Job.noConfusion)
    have hk := hs.allowed k
    unfold Calls.allowed at hk
    rw [hc, hj] at hk
    obtain ⟨rfl, htaken, hf⟩ := hk
    have hlive : s.live call = true := congrArg Facts.live hf
    have huse : s.use [call] = s := use_eq (by simpa using hlive)
    simp only [step, hj, Client.onReply, huse] at h
    rw [← Option.some.inj h]
    refine hs.change call (.refl _) (.refl _) rfl rfl (by rw [hc]; decide) hs.memory rfl
      (fun l hl => ⟨rfl, Function.update_of_ne hl _ _, facts_reply_ne (s := s) hl⟩) hc
      (Function.update_self ..) (facts_reply_self s call) ?_
    rw [hf]
    exact ⟨rfl, htaken, rfl⟩
  | _ => simp [step, hj] at h

private theorem inv_replyUnlink (hs : Inv s) (h : step s (.replyUnlink k) = some t) : Inv t := by
  cases hj : s.job k with
  | told call =>
    have hc : s.caller k = .sent := sent_of_answered hs (by rw [hj]; exact Job.noConfusion)
    have hk := hs.allowed k
    unfold Calls.allowed at hk
    rw [hc, hj] at hk
    obtain ⟨rfl, htaken, hf⟩ := hk
    have hlive : s.live call = true := congrArg Facts.live hf
    have huse : s.use (call :: s.calls) = s :=
      use_eq (List.forall_mem_cons.mpr ⟨hlive, fun l => live_of_listed hs⟩)
    simp only [step, hj, clientCallUnlink, huse] at h
    rw [← Option.some.inj h]
    refine hs.change call List.erase_sublist (.refl _) rfl rfl (by rw [hc]; decide) hs.memory rfl
      (fun l hl => ⟨rfl, Function.update_of_ne hl _ _, facts_erase_ne (s := s) hl⟩) hc
      (Function.update_self ..) (facts_erase_self hs.nodup) ?_
    rw [hf]
    exact ⟨rfl, rfl⟩
  | _ => simp [step, hj] at h

private theorem inv_replyFree (hs : Inv s) (h : step s (.replyFree k) = some t) : Inv t := by
  cases hj : s.job k with
  | unlinked call =>
    have hc : s.caller k = .sent := sent_of_answered hs (by rw [hj]; exact Job.noConfusion)
    have hk := hs.allowed k
    unfold Calls.allowed at hk
    rw [hc, hj] at hk
    obtain ⟨rfl, hf⟩ := hk
    have hlive : s.live call = true := congrArg Facts.live hf
    have huse : s.use [call] = s := use_eq (by simpa using hlive)
    simp only [step, hj, Client.free, huse] at h
    rw [← Option.some.inj h]
    refine hs.change call (.refl _) (.refl _) rfl rfl (by rw [hc]; decide) hs.memory rfl
      (fun l hl => ⟨rfl, Function.update_of_ne hl _ _, facts_free_ne (s := s) hl⟩) hc
      (Function.update_self ..) (facts_free_self s call) ?_
    rw [hf]
    exact .inl rfl
  | _ => simp [step, hj] at h

/-- The records of the hangup are of calls that are sent, out of the hands of the jobs. -/
theorem hung_of_place (hs : Inv s)
    (hp : (facts s k).waiting = true ∨ (facts s k).current = true) :
    s.caller k = .sent ∧ (∀ f, Hung true f → Allowed true k .sent (s.job k) f) ∧
      (facts s k = ⟨false, true, 0, true, false⟩ ∨ facts s k = ⟨false, true, 1, false, true⟩) := by
  have h := hs.allowed k
  unfold Calls.allowed at h
  generalize facts s k = f at h hp
  cases hj : s.job k with
  | unanswered | queued | done =>
    rw [hj] at h
    have hsent : s.caller k = .sent ∧ (f = ⟨false, true, 0, true, false⟩ ∨
        f = ⟨false, true, 1, false, true⟩) := by
      unfold Allowed Hung at h
      split at h <;> rcases h with h | ⟨-, h | h | h⟩ <;> simp_all
    exact ⟨hsent.1, fun f hf => .inr hf, hsent.2⟩
  | found call | told call | unlinked call =>
    rw [hj] at h
    unfold Allowed at h
    split at h <;> simp_all

private theorem facts_congr (hcalls : t.calls = s.calls) (hlive : t.live k = s.live k)
    (htold : t.replies.count k = s.replies.count k)
    (hwaiting : t.hangup.waiting.contains k = s.hangup.waiting.contains k)
    (hcurrent : (t.hangup.current == some k) = (s.hangup.current == some k)) :
    facts t k = facts s k := by
  simp only [facts, hcalls, hlive, htold, hwaiting, hcurrent]

private theorem inv_hangupCallback (hs : Inv s) (h : step s .hangupCallback = some t) : Inv t := by
  simp only [step] at h
  split at h
  · rename_i k ncall hh
    have hw : (facts s k).waiting = true := by simp [facts, hh, Hangup.waiting]
    obtain ⟨hc, hallow, hf | hf⟩ := hung_of_place hs (.inl hw)
    · have hnodup := hs.nodupWaiting
      rw [hh, Hangup.waiting, List.nodup_cons] at hnodup
      have hlive : s.live k = true := congrArg Facts.live hf
      rw [Client.onReply, use_eq (by simpa using hlive)] at h
      rw [← Option.some.inj h]
      refine hs.change k (.refl _) ?_ rfl rfl (by rw [hc]; decide) hs.memory (by rw [hh]; rfl)
        (fun l hl => ⟨rfl, rfl, ?_⟩) hc rfl rfl ?_
      · rw [hh]
        exact List.sublist_cons_self k ncall
      · refine facts_congr rfl rfl ?_ ?_ ?_
        · simp [List.count_append, hl.symm]
        · simp [hh, Hangup.waiting, hl]
        · simp [hh, Hangup.current, hl.symm]
      · rw [hh]
        refine hallow _ ⟨rfl, .inr (.inl ?_)⟩
        have hl : k ∉ s.calls := unlisted_iff.mp (congrArg Facts.listed hf)
        have ht : s.replies.count k = 0 := congrArg Facts.told hf
        simp [facts, Hangup.waiting, Hangup.current, List.count_append, hl, ht, hnodup.1, hlive]
    · rw [hf] at hw
      cases hw
  · cases h

private theorem inv_hangupFree (hs : Inv s) (h : step s .hangupFree = some t) : Inv t := by
  simp only [step] at h
  split at h
  · rename_i k ncall hh
    have hcur : (facts s k).current = true := by simp [facts, hh, Hangup.current]
    obtain ⟨hc, hallow, hf | hf⟩ := hung_of_place hs (.inr hcur)
    · rw [hf] at hcur
      cases hcur
    · have hlive : s.live k = true := congrArg Facts.live hf
      rw [Client.free, use_eq (by simpa using hlive)] at h
      rw [← Option.some.inj h]
      refine hs.change k (.refl _) ?_ rfl rfl (by rw [hc]; decide) hs.memory (by rw [hh]; rfl)
        (fun l hl => ⟨rfl, rfl, ?_⟩) hc rfl rfl ?_
      · rw [hh]
        exact .refl _
      · refine facts_congr rfl (Function.update_of_ne hl _ _) rfl ?_ ?_
        · simp [hh, Hangup.waiting]
        · simp [hh, Hangup.current, hl.symm]
      · rw [hh]
        refine hallow _ ⟨rfl, .inr (.inr ?_)⟩
        have hl : k ∉ s.calls := unlisted_iff.mp (congrArg Facts.listed hf)
        have ht : s.replies.count k = 1 := congrArg Facts.told hf
        have hw : s.hangup.waiting.contains k = false := congrArg Facts.waiting hf
        rw [hh] at hw
        have hw : k ∉ ncall := by simpa [Hangup.waiting] using hw
        simp [facts, Hangup.waiting, Hangup.current, hl, ht, hw]
  · cases h

private theorem inv_disconnect (hs : Inv s) (h : step s .disconnect = some t) : Inv t := by
  obtain ⟨hh, ht⟩ := Option.ite_none_right_eq_some.mp h
  rw [← Option.some.inj ht]
  refine ⟨hs.nodup, List.nodup_nil, hs.callids, hs.idle, hs.memory, fun k => ?_⟩
  have hk := hs.allowed k
  unfold Calls.allowed facts at hk ⊢
  rw [hh] at hk
  exact hk

/-- A call that is in the list and kept apart goes to the hangup. -/
theorem allowed_taken (hs : Inv s) (ha : Apart s .exchange) (hk : k ∈ s.calls) :
    s.caller k = .sent ∧ facts s k = ⟨true, true, 0, false, false⟩ ∧
      ∀ f, Hung true f → Allowed true k .sent (s.job k) f := by
  obtain ⟨hc, hfree⟩ := ha k hk
  have hlt : k < s.next := by
    by_contra hle
    rw [hs.idle k (Nat.le_of_not_lt hle)] at hc
    cases hc
  have hlisted : (facts s k).listed = true := listed_iff.mpr hk
  obtain ⟨hfound, htold⟩ := hfree k hlt
  have h := hs.allowed k
  unfold Calls.allowed at h
  rw [hc] at h
  refine ⟨hc, ?_⟩
  generalize facts s k = f at h hlisted
  cases hj : s.job k with
  | unanswered | queued =>
    rw [hj] at h
    rcases h with ⟨-, h⟩ | ⟨-, h | h | h⟩
    · exact ⟨h, fun f hf => .inr hf⟩
    all_goals simp_all
  | found call =>
    rw [hj] at h hfound
    exact absurd (congrArg Job.found h.1) hfound
  | told call =>
    rw [hj] at h htold
    exact absurd (congrArg Job.told h.1) htold
  | unlinked call =>
    rw [hj] at h
    simp_all [Allowed]
  | done =>
    rw [hj] at h
    rcases h with h | ⟨-, h | h | h⟩ <;> simp_all

private theorem allowed_unlisted {c : Caller} {j : Job} {f : Facts} (hf : f.listed = false)
    (h : Allowed false k c j f) : Allowed true k c j f := by
  unfold Allowed Hung at h ⊢
  split at h <;> simp_all

private theorem inv_exchange (hs : Inv s) (ha : Apart s .exchange)
    (h : step s .exchange = some t) : Inv t := by
  obtain ⟨hh, ht⟩ := Option.ite_none_right_eq_some.mp h
  rw [← Option.some.inj ht]
  refine ⟨List.nodup_nil, hs.nodup, fun _ h => (by cases h), hs.idle, hs.memory, fun k => ?_⟩
  by_cases hk : k ∈ s.calls
  · obtain ⟨hc, hf, hallow⟩ := allowed_taken hs ha hk
    unfold Calls.allowed
    rw [show s.caller k = .sent from hc]
    refine hallow _ ⟨rfl, .inl ?_⟩
    have hlive : s.live k = true := congrArg Facts.live hf
    have htold : s.replies.count k = 0 := congrArg Facts.told hf
    simp [facts, Hangup.waiting, Hangup.current, hk, hlive, htold]
  · have hkeep := hs.allowed k
    unfold Calls.allowed at hkeep ⊢
    have hf : facts { s with hangup := .taken none s.calls, calls := [] } k = facts s k := by
      simp [facts, hh, Hangup.waiting, Hangup.current, hk]
    rw [hf]
    rw [hh] at hkeep
    exact allowed_unlisted (unlisted_iff.mpr hk) hkeep

/-- A step .register, its walk along the list put aside. -/
private def registered (s : Client) (r : Record) : Client :=
  { s.setCaller s.next .registered with
    calls := s.next :: s.calls
    record := Function.update s.record s.next r
    live := Function.update s.live s.next true
    next := s.next + 1 }

private theorem facts_registered_self (s : Client) (r : Record) :
    facts (registered s r) s.next = { facts s s.next with listed := true, live := true } := by
  simp [facts, registered, Client.setCaller]

private theorem facts_registered_ne {r : Record} (hk : k ≠ s.next) :
    facts (registered s r) k = facts s k := by
  simp [facts, registered, Client.setCaller, hk]

private theorem inv_registered {r : Record} (hs : Inv s)
    (hunused : ∀ l ∈ s.calls, (s.record l).callid ≠ r.callid) : Inv (registered s r) := by
  have hidle := hs.idle s.next (Nat.le_refl _)
  have hj := unanswered_of_unsent hs (k := s.next) (by rw [hidle]; decide)
  have hf : facts s s.next = ⟨false, false, 0, false, false⟩ := by
    simpa only [Calls.allowed, hidle, hj, Allowed] using hs.allowed s.next
  have hnew : s.next ∉ s.calls := unlisted_iff.mp (congrArg Facts.listed hf)
  have hrecord (l : Nat) (hl : l ∈ s.calls) : (registered s r).record l = s.record l :=
    Function.update_of_ne (by rintro rfl; exact hnew hl) _ _
  have hrecordNew : (registered s r).record s.next = r := Function.update_self ..
  have hcaller (l : Nat) (hl : l ≠ s.next) : (registered s r).caller l = s.caller l :=
    Function.update_of_ne hl _ _
  refine ⟨List.nodup_cons.mpr ⟨hnew, hs.nodup⟩, hs.nodupWaiting, fun k hk l hl he => ?_,
    fun k hk => ?_, hs.memory, fun k => ?_⟩
  · -- the callid of the new record is in use by no other
    rcases List.mem_cons.mp hk with rfl | hk <;> rcases List.mem_cons.mp hl with rfl | hl
    · rfl
    · rw [hrecordNew, hrecord l hl] at he
      exact absurd he.symm (hunused l hl)
    · rw [hrecordNew, hrecord k hk] at he
      exact absurd he (hunused k hk)
    · rw [hrecord k hk, hrecord l hl] at he
      exact hs.callids k hk l hl he
  · have hlt : s.next + 1 ≤ k := hk
    rw [hcaller k (by omega)]
    exact hs.idle k (by omega)
  · unfold Calls.allowed
    by_cases hk : k = s.next
    · have hcallerNew : (registered s r).caller s.next = .registered := Function.update_self ..
      have hjobNew : (registered s r).job s.next = .unanswered := hj
      rw [hk, facts_registered_self, hf, hcallerNew, hjobNew]
      rfl
    · rw [hcaller k hk, facts_registered_ne hk]
      exact hs.allowed k

private theorem inv_register {addr : Nat} (hs : Inv s) (h : step s (.register addr) = some t) :
    Inv t := by
  obtain ⟨-, h⟩ := Option.ite_none_right_eq_some.mp h
  obtain ⟨callid, hid, ht⟩ := Option.map_eq_some_iff.mp h
  have hunused : ∀ l ∈ s.calls, (s.record l).callid ≠ callid := by
    have := List.find?_some hid
    rw [Option.isNone_iff_eq_none, clientCallSearchLocked, List.find?_eq_none] at this
    simpa using this
  rw [use_eq fun l => live_of_listed hs] at ht
  rw [← ht]
  exact inv_registered (r := ⟨addr, callid⟩) hs hunused

end

/-- Every action kept apart from the others keeps the invariant. -/
theorem inv_step {s t : Client} (a : Action) (hs : Inv s) (ha : Apart s a) (h : step s a = some t) :
    Inv t := by
  cases a with
  | register addr => exact inv_register hs h
  | build k ok => exact inv_build hs h
  | send k ok => exact inv_send hs h
  | unlink k => exact inv_unlink hs h
  | free k => exact inv_free hs h
  | answer k => exact inv_answer hs h
  | search k => exact inv_search hs ha h
  | replyCallback k => exact inv_replyCallback hs h
  | replyUnlink k => exact inv_replyUnlink hs h
  | replyFree k => exact inv_replyFree hs h
  | disconnect => exact inv_disconnect hs h
  | exchange => exact inv_exchange hs ha h
  | hangupCallback => exact inv_hangupCallback hs h
  | hangupFree => exact inv_hangupFree hs h

private theorem told_of_allowed {taken : Bool} {k : Nat} {c : Caller} {j : Job} {f : Facts}
    (h : Allowed taken k c j f) :
    (c = .failed → f.told = 0) ∧ (0 < f.told → c = .sent) ∧ f.told ≤ 1 ∧
      (j = .done → f.told = 1 ∨ f.waiting = true) ∧
      (c = .sent → taken = true → f.told = 1 ∨ f.waiting = true) := by
  unfold Allowed Hung at h
  split at h <;> rcases h with h | ⟨-, h | h | h⟩ <;> simp_all

private theorem oneOutcome_of_inv {s : Client} (hs : Inv s) : OneOutcome s where
  failed k hk := (told_of_allowed (hs.allowed k)).1 hk
  succeeds k hk := (told_of_allowed (hs.allowed k)).2.1 (List.count_pos_iff.mpr hk)
  once k := (told_of_allowed (hs.allowed k)).2.2.1
  replied k hk := by
    rcases (told_of_allowed (hs.allowed k)).2.2.2.1 hk with h | h
    · exact .inl h
    · exact .inr (waiting_iff.mp h)
  hungup hh k hk := by
    rcases (told_of_allowed (hs.allowed k)).2.2.2.2 hk (by rw [hh]; rfl) with h | h
    · exact h
    · have hw := waiting_iff.mp h
      rw [hh] at hw
      cases hw
  memory := hs.memory

/-- In every interleaving that keeps the threads apart each call has one outcome. -/
theorem calls_have_one_outcome (acts : List Action) (s : Client)
    (ha : Along step Apart .start acts) (h : exec step .start acts = some s) : OneOutcome s :=
  oneOutcome_of_inv (exec_keeps_along (fun _ a _ hs ha h => inv_step a hs ha h) inv_start ha h)

/-- Two calls: the first is replied, the second gets the answer of the hangup while a
third one, too late, is refused. -/
private def sampleActs : List Action :=
  [.register 64, .build 0 true, .send 0 true, .register 128, .build 1 true, .answer 0, .search 0,
    .send 1 true, .replyCallback 0, .replyUnlink 0, .disconnect, .exchange, .register 192,
    .replyFree 0, .hangupCallback, .build 2 true, .send 2 true, .hangupFree, .unlink 2, .free 2]

theorem calls_have_one_outcome_sample :
    ∃ s, exec step .start sampleActs = some s ∧ Along step Apart .start sampleActs ∧
      s.replies = [0, 1] ∧ s.caller 2 = .failed ∧ OneOutcome s := by
  have ha : Along step Apart .start sampleActs := by decide
  exact ⟨_, rfl, ha, rfl, rfl, calls_have_one_outcome sampleActs _ ha rfl⟩

/-- The list is taken while a call is between its registration and its sending: on_hangup
answers to it and frees its record, and the call, refused, uses the record again. -/
theorem call_taken_before_sent :
    ∃ s, exec step .start [.register 64, .build 0 true, .disconnect, .exchange, .hangupCallback,
        .hangupFree, .send 0 true, .unlink 0, .free 0] = some s ∧
      s.caller 0 = .failed ∧ s.replies.count 0 = 1 ∧ s.misuse = true ∧ ¬ OneOutcome s := by
  refine ⟨_, rfl, rfl, rfl, rfl, fun h => ?_⟩
  exact Bool.noConfusion h.memory

end AfbBinder.ProtoWs.Calls
