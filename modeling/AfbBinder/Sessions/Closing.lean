import AfbBinder.Sessions.Effects

/-! A closed session is out for good: no lookup returns it, no visit reaches it and no
token opens it. -/
namespace AfbBinder.Sessions
open Lib.Cstrings Lib.Runs Lib.Updates

def afbSessionCheckToken (s : SessionSet) (i : SessionId) (token : Bytes) : Bool :=
  !(s.session i).closed && decide (s.now ≤ (s.session i).expiration) &&
    !((s.session i).token.headD 0 != 0 && strcmp token (s.session i).token != .eq)

/-- The clock is read in a time_t. -/
def timely (r : Option SessionSet) : Option SessionSet :=
  r.filter fun t => decide ((t.now : Int) ≤ MAX_EXPIRATION)

/-- What the callback of a visit can call: the set is locked, and it can take a reference
to the visited session. -/
def visitStep (i : SessionId) (s : SessionSet) : Op → Option SessionSet
  | .init .. | .get .. | .search .. | .purge => none
  | .addref j =>
    if j = i then some ((afbSessionAddref s i).own i) else step s (.addref j)
  | op => timely (step s op)

/-- The loop over the sessions of one head: the visits, each with the state it meets. -/
def foreachHead (callback : SessionSet → SessionId → List Op) :
    List SessionId → SessionSet → Option (List (SessionSet × SessionId) × SessionSet)
  | [], s => some ([], s)
  | i :: rest, s =>
    if (s.session i).closed then foreachHead callback rest s
    else (exec (visitStep i) s (callback s i)).bind fun t =>
      (foreachHead callback rest t).map fun r => ((s, i) :: r.1, r.2)

def foreachIdxs (callback : SessionSet → SessionId → List Op) :
    List (Fin 16) → SessionSet → Option (List (SessionSet × SessionId) × SessionSet)
  | [], s => some ([], s)
  | idx :: rest, s => (foreachHead callback (s.heads idx) s).bind fun r =>
    (foreachIdxs callback rest r.2).map fun r' => (r.1 ++ r'.1, r'.2)

/-- none when the callback waits for the lock that the visit holds. -/
def afbSessionForeach (callback : SessionSet → SessionId → List Op) (s : SessionSet) :
    Option (List (SessionSet × SessionId) × SessionSet) :=
  foreachIdxs callback (List.finRange 16) s

inductive Call where
  | op (op : Op)
  | foreach (callback : SessionSet → SessionId → List Op)
  | checkToken (session : SessionId) (token : Bytes)

def callStep (s : SessionSet) : Call → Option SessionSet
  | .op op => timely (step s op)
  | .foreach callback => (afbSessionForeach callback s).map Prod.snd
  | .checkToken i _ => if 0 < s.owned i then some s else none

structure Fit (s : SessionSet) : Prop where
  sound : Sound s
  clock : (s.now : Int) ≤ MAX_EXPIRATION

section
variable {s t u : SessionSet} {i : SessionId} {op : Op}

private theorem timely_some {r : Option SessionSet} (h : timely r = some t) :
    r = some t ∧ (t.now : Int) ≤ MAX_EXPIRATION := by
  simpa [timely, Option.filter_eq_some_iff] using h

private theorem fit_step (hs : Fit s) (h : timely (step s op) = some t) : Fit t ∧ Later s t := by
  obtain ⟨ht, hclock⟩ := timely_some h
  exact ⟨⟨sound_step hs.sound ht, hclock⟩, later_step hs.sound ht⟩

private theorem sessionClose_heads (s : SessionSet) (i : SessionId) :
    (sessionClose s i).heads = s.heads := by
  unfold sessionClose
  split <;> rfl

private theorem unref_heads (s : SessionSet) (i : SessionId) :
    (afbSessionUnref s i).heads = s.heads :=
  unref_keeps (P := fun u => u.heads = s.heads) rfl (fun u h => (sessionClose_heads u i).trans h) fun _ h => h

/-- Under the lock of the set nothing is linked nor unlinked. -/
theorem visitStep_heads (h : visitStep i s op = some t) : t.heads = s.heads := by
  cases op with
  | init | get | search | purge => cases h
  | addref j =>
    rw [visitStep] at h
    split at h
    · cases h
      rfl
    · obtain ⟨-, rfl⟩ := Option.ite_some_none_eq_some.mp h
      rfl
  | tick seconds =>
    obtain ⟨ht, -⟩ := timely_some h
    cases ht
    rfl
  | unref j =>
    obtain ⟨-, rfl⟩ := Option.ite_some_none_eq_some.mp (timely_some h).1
    exact unref_heads s j
  | close j =>
    obtain ⟨-, rfl⟩ := Option.ite_some_none_eq_some.mp (timely_some h).1
    exact sessionClose_heads s j
  | setAutoclose j b | newToken j new | cookie j =>
    obtain ⟨-, rfl⟩ := Option.ite_some_none_eq_some.mp (timely_some h).1
    rfl

private theorem fit_visitStep (hs : Fit s) (hm : ∃ h, i ∈ s.heads h)
    (h : visitStep i s op = some t) : Fit t ∧ Later s t := by
  cases op with
  | init | get | search | purge => cases h
  | addref j =>
    obtain ⟨idx, hm⟩ := hm
    have hc := hs.sound.inv.linkedCreated idx i hm
    rw [visitStep] at h
    split at h
    · rename_i hj
      subst hj
      cases h
      refine ⟨⟨⟨inv_addref hs.sound.inv hc (.inr ⟨idx, hm⟩), fun k hk => ?_⟩, hs.clock⟩, ?_⟩
      · have hne : k ≠ j := Nat.ne_of_gt (Nat.lt_of_lt_of_le hc hk)
        obtain ⟨hclosed, hcookies⟩ := hs.sound.blank k hk
        simp [SessionSet.own, afbSessionAddref, SessionSet.modify, SessionSet.emit, hne, hclosed,
          hcookies]
      · exact fun k => (effect_addref (effect_refl s (.addref j) k) j).later
    · have ht : timely (step s (.addref j)) = some t := by
        obtain ⟨ho, rfl⟩ := Option.ite_some_none_eq_some.mp h
        rw [h]
        exact Option.filter_eq_some_iff.mpr ⟨rfl, decide_eq_true hs.clock⟩
      exact fit_step hs ht
  | _ => exact fit_step hs h

private theorem fit_visit {ops : List Op} (hs : Fit s) (hm : ∃ h, i ∈ s.heads h)
    (h : exec (visitStep i) s ops = some t) : Fit t ∧ Later s t ∧ t.heads = s.heads := by
  refine exec_keeps (I := fun u => Fit u ∧ Later s u ∧ u.heads = s.heads) ?_
    ⟨hs, .refl s, rfl⟩ h
  rintro u op v ⟨hu, hlater, hheads⟩ hv
  obtain ⟨hfit, hlater'⟩ := fit_visitStep hu (hheads ▸ hm) hv
  exact ⟨hfit, hlater.trans hlater', (visitStep_heads hv).trans hheads⟩

/-- The sessions of the visits were open in the state of the visit, and linked. -/
private def Visited (s t : SessionSet) (visits : List (SessionSet × SessionId)) : Prop :=
  Fit t ∧ Later s t ∧ t.heads = s.heads ∧
    ∀ v ∈ visits, (v.1.session v.2).closed = false ∧ Later s v.1

private theorem Visited.append {l m : List (SessionSet × SessionId)} (h : Visited s t l)
    (h' : Visited t u m) : Visited s u (l ++ m) := by
  refine ⟨h'.1, h.2.1.trans h'.2.1, h'.2.2.1.trans h.2.2.1, fun v hv => ?_⟩
  rcases List.mem_append.mp hv with hv | hv
  · exact h.2.2.2 v hv
  · exact ⟨(h'.2.2.2 v hv).1, h.2.1.trans (h'.2.2.2 v hv).2⟩

private theorem visited_head {callback : SessionSet → SessionId → List Op} {l : List SessionId}
    {visits : List (SessionSet × SessionId)} (hs : Fit s) (hl : ∀ i ∈ l, ∃ h, i ∈ s.heads h)
    (h : foreachHead callback l s = some (visits, t)) : Visited s t visits := by
  induction l generalizing s visits with
  | nil =>
    cases h
    exact ⟨hs, .refl _, rfl, by simp⟩
  | cons i l ih =>
    have hl' : ∀ j ∈ l, ∃ h, j ∈ s.heads h := fun j hj => hl j (List.mem_cons_of_mem i hj)
    rw [foreachHead] at h
    split at h
    · exact ih hs hl' h
    · rename_i hopen
      obtain ⟨u, hu, h⟩ := Option.bind_eq_some_iff.mp h
      obtain ⟨⟨rest, v⟩, hr, he⟩ := Option.map_eq_some_iff.mp h
      cases he
      obtain ⟨hfit, hlater, hheads⟩ := fit_visit hs (hl i List.mem_cons_self) hu
      have hone : Visited s u [(s, i)] := by
        refine ⟨hfit, hlater, hheads, fun v hv => ?_⟩
        cases List.mem_singleton.mp hv
        exact ⟨Bool.eq_false_iff.mpr hopen, .refl s⟩
      exact hone.append (ih hfit (hheads ▸ hl') hr)

private theorem visited_idxs {callback : SessionSet → SessionId → List Op} {idxs : List (Fin 16)}
    {visits : List (SessionSet × SessionId)} (hs : Fit s)
    (h : foreachIdxs callback idxs s = some (visits, t)) : Visited s t visits := by
  induction idxs generalizing s visits with
  | nil =>
    cases h
    exact ⟨hs, .refl _, rfl, by simp⟩
  | cons idx idxs ih =>
    obtain ⟨⟨first, u⟩, hu, h⟩ := Option.bind_eq_some_iff.mp h
    obtain ⟨⟨rest, v⟩, hr, he⟩ := Option.map_eq_some_iff.mp h
    cases he
    have hone := visited_head hs (fun i hm => ⟨idx, hm⟩) hu
    exact hone.append (ih hone.1 hr)

private theorem fit_callStep {c : Call} (hs : Fit s) (h : callStep s c = some t) :
    Fit t ∧ Later s t := by
  cases c with
  | op op => exact fit_step hs h
  | foreach callback =>
    obtain ⟨⟨visits, u⟩, hu, rfl⟩ := Option.map_eq_some_iff.mp h
    obtain ⟨hfit, hlater, -⟩ := visited_idxs hs hu
    exact ⟨hfit, hlater⟩
  | checkToken i token =>
    obtain ⟨-, rfl⟩ := Option.ite_some_none_eq_some.mp h
    exact ⟨hs, .refl s⟩

private theorem fit_calls {calls : List Call} (hs : Fit s) (h : exec callStep s calls = some t) :
    Fit t ∧ Later s t := by
  refine exec_keeps (I := fun u => Fit u ∧ Later s u) ?_ ⟨hs, .refl s⟩ h
  rintro u c v ⟨hu, hlater⟩ hv
  obtain ⟨hfit, hlater'⟩ := fit_callStep hu hv
  exact ⟨hfit, hlater.trans hlater'⟩

private theorem fit_start : Fit .start := ⟨sound_start, by decide⟩

/-- What a cleanup leaves linked is open and not expired. -/
theorem linked_cleanup (hi : Inv s) {h : Fin 16}
    (hm : i ∈ (sessionsetCleanup s false).heads h) :
    ((sessionsetCleanup s false).session i).closed = false ∧
      (s.now : Int) ≤ ((sessionsetCleanup s false).session i).expiration := by
  rw [cleanup_heads hi, List.mem_filter, Bool.not_eq_true', closed_sweptRecord] at hm
  obtain ⟨hm, hopen⟩ := hm
  rw [(cleaned_cleanup hi false).session, if_pos (mem_linked.mpr ⟨h, hm⟩), sweptRecord]
  rw [if_neg (Bool.eq_false_iff.mp hopen)]
  refine ⟨hopen, ?_⟩
  unfold dueRecord closeRecord at hopen ⊢
  split at hopen
  · split at hopen
    · rename_i hclosed
      rw [hclosed] at hopen
      cases hopen
    · cases hopen
  · rename_i hdue
    rw [if_neg hdue]
    simpa using hdue

private theorem expirationFrom_le {now : Nat} {timeout : Int} (hn : (now : Int) ≤ MAX_EXPIRATION)
    (ht : 0 ≤ timeout) : (now : Int) ≤ expirationFrom now timeout := by
  unfold expirationFrom
  split <;> omega

private theorem timeout_nonneg (s : SessionSet) (x : Session) : 0 ≤ afbSessionTimeout s x := by
  unfold afbSessionTimeout INT_MAX
  dsimp only
  generalize (if x.timeout = AFB_SESSION_TIMEOUT_DEFAULT then s.timeout else x.timeout) = n
  split <;> omega

/-- The session can be used at the clock value: it is open and not expired. -/
def Usable (now : Nat) (x : Session) : Prop := x.closed = false ∧ (now : Int) ≤ x.expiration

private theorem usable_addref {now : Nat} (h : Usable now (s.session i)) :
    Usable now ((afbSessionAddref s i).session i) := by
  simpa [Usable, afbSessionAddref, SessionSet.modify, SessionSet.emit] using h

private theorem usable_search (hs : Fit s) {uuid : Bytes}
    (h : afbSessionSearch s uuid = (some i, t)) : Usable s.now (t.session i) := by
  have hlinked := fun idx (j : SessionId) => linked_cleanup (i := j) (h := idx) hs.sound.inv
  unfold afbSessionSearch at h
  generalize sessionsetCleanup s false = u at hlinked h
  dsimp only at h
  split at h
  · rename_i j hfound
    cases h
    exact usable_addref (hlinked _ _ (search_mem hfound))
  · cases h

private theorem usable_add (hn : (s.now : Int) ≤ MAX_EXPIRATION) {uuid : Bytes} {timeout : Int}
    {idx : Fin 16} {mem : Bool} (h : sessionAdd s uuid timeout idx mem = .ok (i, t)) :
    Usable s.now (t.session i) := by
  obtain ⟨rfl, -, rfl⟩ := sessionAdd_ok h
  simp only [Function.update_self]
  exact ⟨rfl, expirationFrom_le hn (timeout_nonneg s _)⟩

private theorem usable_get (hs : Fit s) {uuid : Option Bytes} {timeout : Int} {news : List Bytes}
    {mem : Bool} (h : afbSessionGet s uuid timeout news mem = some (.ok i, t)) :
    Usable s.now (t.session i) := by
  have hlinked := fun idx (j : SessionId) => linked_cleanup (i := j) (h := idx) hs.sound.inv
  have hnow := (cleaned_cleanup hs.sound.inv false).now
  have hclock := hs.clock
  unfold afbSessionGet at h
  generalize sessionsetCleanup s false = u at hlinked hnow h
  rw [← hnow] at hclock hlinked ⊢
  cases uuid with
  | none =>
    obtain ⟨uuid, -, hr⟩ := Option.map_eq_some_iff.mp h
    split at hr
    · rename_i hok
      cases hr
      exact usable_add hclock hok
    · cases hr
  | some uuid =>
    dsimp only at h
    split at h
    · rename_i j hfound
      cases h
      exact usable_addref (hlinked _ _ (search_mem hfound))
    · split at h
      · rename_i hok
        cases h
        exact usable_add hclock hok
      · cases h

private theorem checkToken_unusable (h : ¬ Usable s.now (s.session i)) (token : Bytes) :
    afbSessionCheckToken s i token = false := by
  unfold Usable at h
  unfold afbSessionCheckToken
  cases hc : (s.session i).closed
  · have hexp : ¬ (s.now : Int) ≤ (s.session i).expiration := fun hle => h ⟨hc, hle⟩
    simp [hexp]
  · rfl

end

/-- After any sequence of calls: what is closed stays so, the lookups return sessions that are
open and not expired, the visits meet open sessions, and no token is right for another. -/
theorem closed_sessions_stay_out (calls : List Call) (s : SessionSet)
    (h : exec callStep .start calls = some s) :
    (∀ more t, exec callStep s more = some t →
      ∀ i, (s.session i).closed = true → (t.session i).closed = true) ∧
    (∀ uuid i t, afbSessionSearch s uuid = (some i, t) →
      (t.session i).closed = false ∧ (s.now : Int) ≤ (t.session i).expiration) ∧
    (∀ uuid timeout news mem i t, afbSessionGet s uuid timeout news mem = some (.ok i, t) →
      (t.session i).closed = false ∧ (s.now : Int) ≤ (t.session i).expiration) ∧
    (∀ callback visits t, afbSessionForeach callback s = some (visits, t) →
      ∀ v ∈ visits, (v.1.session v.2).closed = false ∧ (s.session v.2).closed = false) ∧
    (∀ i token, (s.session i).closed = true ∨ (s.session i).expiration < s.now →
      afbSessionCheckToken s i token = false) ∧
    ∀ i new token, (s.session i).closed = true →
      afbSessionCheckToken (afbSessionNewToken s i new) i token = false := by
  obtain ⟨hfit, -⟩ := fit_calls fit_start h
  refine ⟨fun more t ht => (fit_calls hfit ht).2, fun uuid i t ht => usable_search hfit ht,
    fun uuid timeout news mem i t ht => usable_get hfit ht, fun callback visits t ht v hv => ?_,
    fun i token hout => checkToken_unusable ?_ token,
    fun i new token hclosed => checkToken_unusable ?_ token⟩
  · obtain ⟨-, -, -, hvisits⟩ := visited_idxs hfit ht
    obtain ⟨hopen, hlater⟩ := hvisits v hv
    refine ⟨hopen, ?_⟩
    rw [← Bool.not_eq_true]
    exact fun hc => Bool.eq_false_iff.mp hopen (hlater v.2 hc)
  · rintro ⟨hopen, hle⟩
    rcases hout with hclosed | hlt
    · exact Bool.eq_false_iff.mp hopen hclosed
    · exact absurd hlt (Int.not_lt.mpr hle)
  · have hkept : ((afbSessionNewToken s i new).session i).closed = (s.session i).closed := by
      simp [afbSessionNewToken, SessionSet.modify, SessionSet.emit, sessionUpdateExpiration]
    exact fun hu => Bool.eq_false_iff.mp hu.1 (hkept.trans hclosed)

/-- Two sessions, one closed by the callback of a visit and one expired. -/
def closingCalls : List Call :=
  [.op (.init 5 60 (some []) []), .op (.get (some [97]) 5 [] true),
    .op (.get (some [98]) 50 [] true), .foreach fun _ i => if i = 1 then [.close 1] else [],
    .op (.tick 6), .checkToken 0 [], .op (.newToken 1 [42])]

theorem closed_sessions_stay_out_sample :
    ∃ s, exec callStep .start closingCalls = some s ∧ (s.session 1).closed = true ∧
      (s.session 0).expiration < s.now ∧ afbSessionCheckToken s 0 [] = false ∧
      afbSessionCheckToken (afbSessionNewToken s 1 [43]) 1 [43] = false := by
  have hrun : (exec callStep .start closingCalls).map
      (fun s => ((s.session 1).closed, decide ((s.session 0).expiration < s.now))) =
        some (true, true) := rfl
  obtain ⟨s, hs, he⟩ := Option.map_eq_some_iff.mp hrun
  obtain ⟨hclosed, hexpired⟩ := Prod.mk.inj he
  obtain ⟨-, -, -, -, hcheck, hrenewed⟩ := closed_sessions_stay_out closingCalls s hs
  exact ⟨s, hs, hclosed, of_decide_eq_true hexpired, hcheck 0 [] (.inr (of_decide_eq_true hexpired)),
    hrenewed 1 [43] [43] hclosed⟩

end AfbBinder.Sessions
