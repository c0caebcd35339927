import AfbBinder.Events.Subscriptions

/-! The subscriptions made by a request that was called: each call passes them to its caller,
catches them for the api that called, or both, so that one subscription reaches many listeners. -/
namespace AfbBinder.Events.Relays
open Lib.Runs Lib.Updates

/-- A request as its subscriptions see it: with its listener, without any way to subscribe, of a
remote client whose stub has a listener, called by an api, or called by another request. The api
that called may have no listener yet. -/
inductive Xreq where
  | heard (listener : Lis)
  | deaf
  | stub (listener : Lis)
  | call (api : Option Lis)
  | subcall (pass catches : Bool) (api : Option Lis) (caller : Xreq)
  deriving DecidableEq, Repr

variable {J : Type}

section
variable (itfs : Itfs)

def eventAddWatch (mem : Bool) (l : Lis) (e : Evt) (s : Store J) : Int × Store J :=
  match afbEvtWatchAddEvtid itfs s l e mem with
  | .ok t => (0, t.added l e)
  | .error _ => (-1, s)

def eventRemoveWatch (l : Lis) (e : Evt) (s : Store J) : Int × Store J :=
  match afbEvtWatchSubEvtid itfs s l e with
  | .ok t => (0, t)
  | .error _ => (-1, s)

/-- The listener is read without a test: none for a null one. -/
def afbExportSubscribe (mem : Bool) (api : Option Lis) (e : Evt) (s : Store J) : Option (Int × Store J) :=
  api.map fun l => eventAddWatch itfs mem l e s

def afbExportUnsubscribe (api : Option Lis) (e : Evt) (s : Store J) : Option (Int × Store J) :=
  api.map fun l => eventRemoveWatch itfs l e s

/-- What callreq_subscribe_cb and callreq_unsubscribe_cb do of the flags. -/
def relay (pass catches : Bool) (caller api : Store J → Option (Int × Store J)) (s : Store J) :
    Option (Int × Store J) :=
  (if pass then caller s else some (0, s)).bind fun (rc, s) =>
    if catches then (api s).map fun (rc2, s) => (if rc2 < 0 then rc2 else rc, s)
    else some (rc, s)

/-- The allocations are numbered from the request on, and sent tells whether the client of the
stub was told. The calls of an api have no caller and catch the events. -/
def afbXreqSubscribe (sent : Bool) (e : Evt) : (Nat → Bool) → Xreq → Store J → Option (Int × Store J)
  | mem, .heard l, s => some (eventAddWatch itfs (mem 0) l e s)
  | _, .deaf, s => some (-1, s)
  | mem, .stub l, s =>
    let (rc, s) := eventAddWatch itfs (mem 0) l e s
    some (if 0 ≤ rc then if sent then 0 else -1 else rc, s)
  | mem, .call api, s => afbExportSubscribe itfs (mem 0) api e s
  | mem, .subcall pass catches api caller, s =>
    relay pass catches (afbXreqSubscribe sent e (fun n => mem (n + 1)) caller)
      (afbExportSubscribe itfs (mem 0) api e) s

def afbXreqUnsubscribe (sent : Bool) (e : Evt) : Xreq → Store J → Option (Int × Store J)
  | .heard l, s => some (eventRemoveWatch itfs l e s)
  | .deaf, s => some (-1, s)
  | .stub l, s =>
    let rc : Int := if sent then 0 else -1
    let (rc2, s) := eventRemoveWatch itfs l e s
    some (if 0 ≤ rc ∧ rc2 < 0 then rc2 else rc, s)
  | .call api, s => afbExportUnsubscribe itfs api e s
  | .subcall pass catches api caller, s =>
    relay pass catches (afbXreqUnsubscribe sent e caller) (afbExportUnsubscribe itfs api e) s

end

/-- The listeners that a subscription of the request reaches, in order; none is the missing
listener of an api. -/
def Xreq.reached : Xreq → List (Option Lis)
  | .heard l => [some l]
  | .deaf => []
  | .stub l => [some l]
  | .call api => [api]
  | .subcall pass catches api caller =>
    (if pass then caller.reached else []) ++ if catches then [api] else []

/-- The end that a subscription is passed to takes it. -/
def Xreq.takes (sent : Bool) : Xreq → Bool
  | .deaf => false
  | .stub _ => sent
  | .heard _ => true
  | .call _ => true
  | .subcall pass _ _ caller => !pass || caller.takes sent

/-- The count of activity of a listener for an event. -/
def activity (s : Store J) (l : Lis) (e : Evt) : Nat :=
  ((findWatch s l e).bind s.watch).elim 0 Watch.activity

section
variable {itfs : Itfs} {s t : Store J} {l : Lis} {e : Evt}

private theorem inv_run {ops : List (Op J)} (h : exec (step itfs) .start ops = some s)
    (hadds : ∀ l e, s.adds l e < 2 ^ 32) : Inv itfs s := by
  refine exec_keeps (I := fun s => (∀ l e, s.adds l e < 2 ^ 32) → Inv itfs s) ?_ (fun _ => inv_start) h hadds
  intro s op t hs ht hadds
  have hi := hs fun l e => Nat.lt_of_le_of_lt (adds_step op ht l e) (hadds l e)
  exact inv_step hi op (noWrap_of_adds hi op ht hadds) ht

private theorem activity_found (hi : Links itfs s) {w : Wat} {x : Watch} (hw : s.watch w = some x)
    (hl : x.listener = l) (he : x.evtid = e) : activity s l e = x.activity := by
  cases hf : findWatch s l e with
  | none => exact absurd ⟨hl, he⟩ (findWatch_none hi hf w x hw)
  | some w' =>
    obtain ⟨x', hx', hl', he'⟩ := findWatch_some hi hf
    obtain rfl := hi.unique w' w x' x hx' hw (hl'.trans hl.symm) (he'.trans he.symm)
    rw [activity, hf, Option.bind_some, hw]
    rfl

private theorem activity_none (h : findWatch s l e = none) : activity s l e = 0 := by
  rw [activity, h]
  rfl

/-- The activities after a change of one watch, that may be a new one. -/
theorem activity_changed (hs : Links itfs s) (ht : Links itfs t) {w : Wat} {n : Nat}
    (hnew : t.watch w = some ⟨e, l, n⟩) (hold : ∀ x, s.watch w = some x → x.listener = l ∧ x.evtid = e)
    (hrest : ∀ w', w' ≠ w → t.watch w' = s.watch w') (l' : Lis) (e' : Evt) :
    activity t l' e' = if l' = l ∧ e' = e then n else activity s l' e' := by
  by_cases hp : l' = l ∧ e' = e
  · rw [if_pos hp]
    exact activity_found ht hnew hp.1.symm hp.2.symm
  · rw [if_neg hp]
    cases hf : findWatch s l' e' with
    | some w' =>
      obtain ⟨x, hx, hl, he⟩ := findWatch_some hs hf
      have hne : w' ≠ w := by
        rintro rfl
        obtain ⟨hl', he'⟩ := hold x hx
        exact hp ⟨hl.symm.trans hl', he.symm.trans he'⟩
      rw [activity_found hs hx hl he, activity_found ht ((hrest w' hne).trans hx) hl he]
    | none =>
      rw [activity_none hf]
      cases hf' : findWatch t l' e' with
      | none => exact activity_none hf'
      | some w' =>
        obtain ⟨x, hx, hl, he⟩ := findWatch_some ht hf'
        by_cases hne : w' = w
        · subst hne
          rw [hnew, Option.some.injEq] at hx
          subst hx
          exact absurd ⟨hl.symm, he.symm⟩ hp
        · exact absurd ⟨hl, he⟩ (findWatch_none hs hf w' x ((hrest w' hne).symm.trans hx))

private theorem activity_le (hi : Links itfs s) (l : Lis) (e : Evt) : activity s l e ≤ s.adds l e := by
  cases hf : findWatch s l e with
  | none => exact activity_none hf ▸ Nat.zero_le _
  | some w =>
    obtain ⟨x, hx, rfl, rfl⟩ := findWatch_some hi hf
    rw [activity_found hi hx rfl rfl]
    exact hi.activity w x hx

/-- Those that an event is pushed to are those with an activity. -/
theorem mem_receivers_iff (hi : Inv itfs s) : l ∈ receivers s e ↔ activity s l e ≠ 0 := by
  rw [mem_receivers hi]
  constructor
  · rintro ⟨w, x, hx, hl, he, ha⟩
    rwa [activity_found hi.links hx hl he]
  · intro h
    cases hf : findWatch s l e with
    | none => exact absurd (activity_none hf) h
    | some w =>
      obtain ⟨x, hx, hl, he⟩ := findWatch_some hi.links hf
      exact ⟨w, x, hx, hl, he, activity_found hi.links hx hl he ▸ h⟩

/-- What an addition or a removal of a watch leaves as it was. -/
structure Same (s t : Store J) : Prop where
  ownedLis : t.ownedLis = s.ownedLis
  ownedEvt : t.ownedEvt = s.ownedEvt
  itf : ∀ l, (t.listener l).itf = (s.listener l).itf

private theorem Same.refl (s : Store J) : Same s s := ⟨rfl, rfl, fun _ => rfl⟩

private theorem Same.trans {u : Store J} (h : Same s t) (h' : Same t u) : Same s u :=
  ⟨h'.ownedLis.trans h.ownedLis, h'.ownedEvt.trans h.ownedEvt, fun l => (h'.itf l).trans (h.itf l)⟩

private theorem activate_same (s : Store J) (w : Wat) : Same s (activate itfs s w) := by
  unfold activate
  split
  · exact ⟨rfl, rfl, fun _ => rfl⟩
  · exact Same.refl s

private theorem activate_watch (itfs : Itfs) {w : Wat} {x : Watch} (hw : s.watch w = some x) :
    (activate itfs s w).watch =
      Function.update s.watch w (some { x with activity := (x.activity + 1) % 2 ^ 32 }) := by
  simp only [activate, hw]
  rfl

/-- What an addition that succeeds does: it finds the watch of the pair or links a new one that
is idle, then it activates it. -/
theorem add_ok (hi : Links itfs s) {mem : Bool} (h : afbEvtWatchAddEvtid itfs s l e mem = .ok t) :
    ∃ v w, t = activate itfs v w ∧ Same s v ∧ v.watch w = some ⟨e, l, activity s l e⟩ ∧
      (∀ x, s.watch w = some x → x.listener = l ∧ x.evtid = e) ∧ ∀ w', w' ≠ w → v.watch w' = s.watch w' := by
  unfold afbEvtWatchAddEvtid at h
  split at h
  swap
  · cases h
  cases hf : findWatch s l e with
  | some w =>
    obtain ⟨x, hx, rfl, rfl⟩ := findWatch_some hi hf
    simp only [hf] at h
    cases h
    refine ⟨s, w, rfl, Same.refl s, ?_, fun y hy => ?_, fun _ _ => rfl⟩
    · rw [activity_found hi hx rfl rfl]
      exact hx
    · rw [hx, Option.some.injEq] at hy
      subst hy
      exact ⟨rfl, rfl⟩
  | none =>
    cases mem with
    | false =>
      simp only [hf, Bool.false_eq_true, if_false] at h
      cases h
    | true =>
      simp only [hf, if_true] at h
      cases h
      refine ⟨_, s.nextWatch, rfl, ⟨rfl, rfl, fun l' => update_field s.listener l l' Listener.itf rfl⟩, ?_,
        fun x hx => absurd (hi.fresh _ x hx) (Nat.lt_irrefl _), fun w' hne => Function.update_of_ne hne _ _⟩
      rw [activity_none hf]
      exact Function.update_self s.nextWatch _ _

private theorem add_step (mem : Bool) (hl : 0 < s.ownedLis l) (he : 0 < s.ownedEvt e) :
    step itfs s (.watchAdd l e mem) = some (eventAddWatch itfs mem l e s).2 := by
  rw [step, if_pos ⟨hl, he⟩, eventAddWatch]
  cases afbEvtWatchAddEvtid itfs s l e mem <;> rfl

private theorem remove_step (hl : 0 < s.ownedLis l) (he : 0 < s.ownedEvt e) :
    step itfs s (.watchSub l e) = some (eventRemoveWatch itfs l e s).2 := by
  rw [step, if_pos ⟨hl, he⟩, eventRemoveWatch]
  cases afbEvtWatchSubEvtid itfs s l e <;> rfl

/-- The additions of a subscription to the pair. -/
def gain (e : Evt) (reached : List (Option Lis)) (l : Lis) (e' : Evt) : Nat :=
  if e' = e then reached.count (some l) else 0

@[simp] theorem gain_nil (e : Evt) (l : Lis) (e' : Evt) : gain e [] l e' = 0 := by
  simp [gain]

private theorem gain_append (e : Evt) (a b : List (Option Lis)) (l : Lis) (e' : Evt) :
    gain e (a ++ b) l e' = gain e a l e' + gain e b l e' := by
  unfold gain
  split
  · exact List.count_append
  · rfl

private theorem gain_one (e : Evt) (l l' : Lis) (e' : Evt) : gain e [some l] l' e' = if l' = l ∧ e' =
    e then 1 else 0 := by
  by_cases he : e' = e
  · by_cases hl : l' = l
    · simp [gain, he, hl]
    · simp [gain, he, hl, Ne.symm hl]
  · simp [gain, he]

private theorem added_le (s : Store J) (l l' : Lis) (e e' : Evt) :
    (s.added l e).adds l' e' ≤ s.adds l' e' + 1 := by
  simp only [Store.added, Function.update_apply]
  split
  · rename_i hl
    rw [Function.update_apply, hl]
    split
    · rename_i he
      rw [he]
    · exact Nat.le_succ _
  · exact Nat.le_succ _

/-- A subscription that reaches these listeners. -/
structure Subscribed (itfs : Itfs) (e : Evt) (reached : List (Option Lis)) (s : Store J) (r : Int × Store J) :
    Prop where
  inv : Inv itfs r.2
  same : Same s r.2
  run : ∃ ops, (∀ op ∈ ops, ∃ l mem, some l ∈ reached ∧ op = .watchAdd l e mem) ∧
    exec (step itfs) s ops = some r.2
  adds : ∀ l e', r.2.adds l e' ≤ s.adds l e' + reached.length
  code : r.1 = 0 ∨ r.1 = -1
  least : ∀ l e', activity s l e' ≤ activity r.2 l e'
  most : ∀ l e', activity r.2 l e' ≤ activity s l e' + gain e reached l e'
  all : r.1 = 0 → ∀ l e', activity r.2 l e' = activity s l e' + gain e reached l e'

private theorem Subscribed.failed (hi : Inv itfs s) (e : Evt) (reached : List (Option Lis)) :
    Subscribed itfs e reached s (-1, s) where
  inv := hi
  same := Same.refl s
  run := ⟨[], fun _ h => absurd h List.not_mem_nil, rfl⟩
  adds _ _ := Nat.le_add_right _ _
  code := .inr rfl
  least _ _ := Nat.le_refl _
  most _ _ := Nat.le_add_right _ _
  all h := by cases h

private theorem add_spec (hi : Inv itfs s) (hl : 0 < s.ownedLis l) (he : 0 < s.ownedEvt e)
    (hroom : s.adds l e + 1 < 2 ^ 32) (mem : Bool) :
    Subscribed itfs e [some l] s (eventAddWatch itfs mem l e s) := by
  have hstep : step itfs s (.watchAdd l e mem) = some _ := add_step mem hl he
  have hinv : Inv itfs (eventAddWatch itfs mem l e s).2 := by
    refine inv_step hi _ ?_ hstep
    rintro - w x hw rfl rfl
    have := hi.links.activity w x hw
    omega
  cases h : afbEvtWatchAddEvtid itfs s l e mem with
  | error err =>
    rw [eventAddWatch, h]
    exact Subscribed.failed hi e [some l]
  | ok t =>
    rw [eventAddWatch, h] at hstep hinv ⊢
    obtain ⟨v, w, rfl, hsame, hw, hold, hrest⟩ := add_ok hi.links h
    have hwatch := activate_watch itfs hw
    have hle := activity_le hi.links l e
    have hmod : (activity s l e + 1) % 2 ^ 32 = activity s l e + 1 := Nat.mod_eq_of_lt (by omega)
    have hall (l' : Lis) (e' : Evt) : activity ((activate itfs v w).added l e) l' e' =
        activity s l' e' + gain e [some l] l' e' := by
      rw [activity_changed hi.links hinv.links (w := w) (n := activity s l e + 1) ?_ hold ?_, gain_one]
      · by_cases hp : l' = l ∧ e' = e
        · rw [if_pos hp, if_pos hp, hp.1, hp.2]
        · rw [if_neg hp, if_neg hp]
          rfl
      · refine (congrFun hwatch w).trans ?_
        rw [Function.update_self, hmod]
      · intro w' hne
        refine (congrFun hwatch w').trans ?_
        rw [Function.update_of_ne hne]
        exact hrest w' hne
    exact {
      inv := hinv
      same := (hsame.trans (activate_same v w)).trans ⟨rfl, rfl, fun _ => rfl⟩
      run := ⟨[.watchAdd l e mem], fun op hop => ⟨l, mem, List.mem_singleton_self _, List.mem_singleton.mp hop⟩,
        exec_cons.mpr ⟨_, hstep, rfl⟩⟩
      adds := fun l' e' => watchAdd_adds h ▸ added_le (activate itfs v w) l l' e e'
      code := .inl rfl
      least := fun l' e' => by
        rw [hall]
        exact Nat.le_add_right _ _
      most := fun l' e' => Nat.le_of_eq (hall l' e')
      all := fun _ => hall }

private theorem add_succeeds (mem : Bool) (hmem : mem = true) (hpush : (itfs (s.listener l).itf).push = true) :
    (eventAddWatch itfs mem l e s).1 = 0 := by
  rw [eventAddWatch, afbEvtWatchAddEvtid, if_pos hpush, hmem]
  cases findWatch s l e <;> rfl

/-- An unsubscription from these listeners. -/
structure Unsubscribed (itfs : Itfs) (e : Evt) (reached : List (Option Lis)) (s : Store J) (r : Int × Store J) :
    Prop where
  inv : Inv itfs r.2
  same : Same s r.2
  run : ∃ ops, exec (step itfs) s ops = some r.2
  activity : ∀ l e', activity s l e' = activity r.2 l e' + gain e reached l e'

private theorem remove_spec (hi : Inv itfs s) (hl : 0 < s.ownedLis l) (he : 0 < s.ownedEvt e)
    (hact : activity s l e ≠ 0) :
    Unsubscribed itfs e [some l] s (eventRemoveWatch itfs l e s) ∧ (eventRemoveWatch itfs l e s).1 = 0 := by
  have hstep : step itfs s (.watchSub l e) = some _ := remove_step hl he
  have hinv := inv_step hi (.watchSub l e) trivial hstep
  cases hf : findWatch s l e with
  | none => exact absurd (activity_none hf) hact
  | some w =>
    obtain ⟨x, hx, rfl, rfl⟩ := findWatch_some hi.links hf
    have hactive := activity_found hi.links hx rfl rfl
    rw [hactive] at hact
    have hsub : ∃ called, afbEvtWatchSubEvtid itfs s x.listener x.evtid =
        .ok ((s.call called).setWatch w (some { x with activity := x.activity - 1 })) := by
      rw [afbEvtWatchSubEvtid, hf]
      simp only [hx, ne_eq, hact, not_false_iff, if_true]
      exact ⟨_, rfl⟩
    obtain ⟨called, hsub⟩ := hsub
    rw [eventRemoveWatch, hsub] at hstep hinv ⊢
    refine ⟨⟨hinv, ⟨rfl, rfl, fun _ => rfl⟩, ⟨[.watchSub x.listener x.evtid], exec_cons.mpr ⟨_, hstep, rfl⟩⟩,
      fun l' e' => ?_⟩, rfl⟩
    rw [activity_changed hi.links hinv.links (w := w) (n := x.activity - 1) (Function.update_self w _ _)
      (fun y hy => ?_) (fun w' hne => Function.update_of_ne hne _ _) l' e', gain_one]
    · by_cases hp : l' = x.listener ∧ e' = x.evtid
      · rw [if_pos hp, if_pos hp, hp.1, hp.2, hactive]
        omega
      · rw [if_neg hp, if_neg hp]
        rfl
    · rw [hx, Option.some.injEq] at hy
      subst hy
      exact ⟨rfl, rfl⟩

section
variable {a b reached : List (Option Lis)} {r r1 r2 : Int × Store J} {pass catches : Bool}
  {caller api : Store J → Option (Int × Store J)}

private theorem Subscribed.append (h1 : Subscribed itfs e a s r1) (h2 : Subscribed itfs e b r1.2 r2) :
    Subscribed itfs e (a ++ b) s (if r2.1 < 0 then r2.1 else r1.1, r2.2) where
  inv := h2.inv
  same := h1.same.trans h2.same
  run := by
    obtain ⟨ops1, hadd1, h1⟩ := h1.run
    obtain ⟨ops2, hadd2, h2⟩ := h2.run
    refine ⟨ops1 ++ ops2, fun op hop => ?_, (exec_append h1).trans h2⟩
    rcases List.mem_append.mp hop with hop | hop
    · obtain ⟨l, mem, hl, heq⟩ := hadd1 op hop
      exact ⟨l, mem, List.mem_append_left b hl, heq⟩
    · obtain ⟨l, mem, hl, heq⟩ := hadd2 op hop
      exact ⟨l, mem, List.mem_append_right a hl, heq⟩
  adds l e' := by
    have hadds1 := h1.adds l e'
    have hadds2 := h2.adds l e'
    rw [List.length_append]
    dsimp only
    omega
  code := by
    split
    · exact h2.code
    · exact h1.code
  least l e' := Nat.le_trans (h1.least l e') (h2.least l e')
  most l e' := by
    have hmost1 := h1.most l e'
    have hmost2 := h2.most l e'
    rw [gain_append]
    dsimp only
    omega
  all h l e' := by
    dsimp only at h
    split_ifs at h with hneg
    · omega
    · have hzero : r2.1 = 0 := h2.code.resolve_right (by omega)
      rw [h2.all hzero, h1.all h, gain_append]
      omega

private theorem Subscribed.code_of (h : Subscribed itfs e reached s r) {rc : Int} (hrc : rc = 0 ∨ rc = -1)
    (hzero : rc = 0 → r.1 = 0) : Subscribed itfs e reached s (rc, r.2) :=
  { h with code := hrc, all := fun h0 => h.all (hzero h0) }

private theorem Subscribed.none (hi : Inv itfs s) (e : Evt) : Subscribed itfs e [] s (0, s) where
  inv := hi
  same := Same.refl s
  run := ⟨[], fun _ h => absurd h List.not_mem_nil, rfl⟩
  adds _ _ := Nat.le_refl _
  code := .inl rfl
  least _ _ := Nat.le_refl _
  most _ _ := Nat.le_add_right _ _
  all _ l e' := by rw [gain_nil, Nat.add_zero]

private theorem Unsubscribed.append (h1 : Unsubscribed itfs e a s r1) (h2 : Unsubscribed itfs e b r1.2 r2)
    (rc : Int) :
    Unsubscribed itfs e (a ++ b) s (rc, r2.2) where
  inv := h2.inv
  same := h1.same.trans h2.same
  run := by
    obtain ⟨ops1, h1⟩ := h1.run
    obtain ⟨ops2, h2⟩ := h2.run
    exact ⟨ops1 ++ ops2, (exec_append h1).trans h2⟩
  activity l e' := by
    rw [h1.activity, h2.activity, gain_append]
    dsimp only
    omega

private theorem Unsubscribed.none (hi : Inv itfs s) (e : Evt) (rc : Int) : Unsubscribed itfs e [] s (rc, s) :=
  ⟨hi, Same.refl s, ⟨[], rfl⟩, fun l e' => by rw [gain_nil, Nat.add_zero]⟩

private theorem relay_some (h : relay pass catches caller api s = some r) :
    ∃ r1, (if pass then caller s else some (0, s)) = some r1 ∧
      if catches then ∃ r2, api r1.2 = some r2 ∧ r = (if r2.1 < 0 then r2.1 else r1.1, r2.2) else r = r1 := by
  obtain ⟨r1, h1, h⟩ := Option.bind_eq_some_iff.mp h
  refine ⟨r1, h1, ?_⟩
  cases catches with
  | true =>
    obtain ⟨r2, h2, h⟩ := Option.map_eq_some_iff.mp h
    exact ⟨r2, h2, h.symm⟩
  | false => exact (Option.some.inj h).symm

/-- Whether a relay ends, when that does not depend on the store. -/
theorem relay_isSome {P Q : Prop} (hcaller : ∀ s, (caller s).isSome ↔ P) (hapi : ∀ s, (api s).isSome ↔ Q) :
    (relay pass catches caller api s).isSome ↔ (pass = true → P) ∧ (catches = true → Q) := by
  have hfirst : (if pass then caller s else some (0, s)).isSome ↔ (pass = true → P) := by
    cases pass with
    | true => simp [hcaller]
    | false => simp
  rw [← hfirst, relay]
  cases (if pass then caller s else some (0, s)) with
  | none => simp
  | some r1 =>
    cases catches with
    | true => simp [hapi]
    | false => simp

end

/-- A subscription is the additions to the listeners that it reaches; with memory, and listeners that
get events, it fails only when the end that it is passed to does not take it. -/
theorem subscribe_spec {sent : Bool} (x : Xreq) {mem : Nat → Bool} {r : Int × Store J} (hi : Inv itfs s)
    (howned : ∀ l, some l ∈ x.reached → 0 < s.ownedLis l) (he : 0 < s.ownedEvt e)
    (hroom : ∀ l, s.adds l e + x.reached.length < 2 ^ 32) (h : afbXreqSubscribe itfs sent e mem x s = some r) :
    Subscribed itfs e x.reached s r ∧ ((∀ n, mem n = true) →
      (∀ l, some l ∈ x.reached → (itfs (s.listener l).itf).push = true) → (r.1 = 0 ↔ x.takes sent = true)) := by
  induction x generalizing mem r with
  | heard l =>
    cases h
    have hmem : some l ∈ (Xreq.heard l).reached := List.mem_singleton_self _
    exact ⟨add_spec hi (howned l hmem) he (hroom l) (mem 0), fun hfull hpush =>
      iff_of_true (add_succeeds (mem 0) (hfull 0) (hpush l hmem)) rfl⟩
  | deaf =>
    cases h
    exact ⟨Subscribed.failed hi e [], fun _ _ => iff_of_false (by simp) (by simp [Xreq.takes])⟩
  | stub l =>
    have hmem : some l ∈ (Xreq.stub l).reached := List.mem_singleton_self _
    have hadd := add_spec hi (howned l hmem) he (hroom l) (mem 0)
    have hsucceeds : mem 0 = true → (itfs (s.listener l).itf).push = true →
        (eventAddWatch itfs (mem 0) l e s).1 = 0 := add_succeeds (mem 0)
    rw [afbXreqSubscribe] at h
    generalize eventAddWatch itfs (mem 0) l e s = added at h hadd hsucceeds
    obtain rfl := Option.some.inj h
    refine ⟨hadd.code_of ?_ ?_, fun hfull hpush => ?_⟩
    · rcases hadd.code with hcode | hcode
      · cases sent <;> simp [hcode]
      · simp [hcode]
    · rcases hadd.code with hcode | hcode
      · exact fun _ => hcode
      · simp [hcode]
    · have hcode := hsucceeds (hfull 0) (hpush l hmem)
      cases sent <;> simp [hcode, Xreq.takes]
  | call api =>
    obtain ⟨l, rfl, rfl⟩ := Option.map_eq_some_iff.mp h
    have hmem : some l ∈ (Xreq.call (some l)).reached := List.mem_singleton_self _
    exact ⟨add_spec hi (howned l hmem) he (hroom l) (mem 0), fun hfull hpush =>
      iff_of_true (add_succeeds (mem 0) (hfull 0) (hpush l hmem)) rfl⟩
  | subcall pass catches api caller ih =>
    rw [Xreq.reached] at howned hroom ⊢
    obtain ⟨r1, h1, h⟩ := relay_some h
    have hfirst : Subscribed itfs e (if pass then caller.reached else []) s r1 ∧ ((∀ n, mem n = true) →
        (∀ l, some l ∈ (if pass then caller.reached else []) → (itfs (s.listener l).itf).push = true) →
        (r1.1 = 0 ↔ (!pass || caller.takes sent) = true)) := by
      cases pass with
      | true =>
        obtain ⟨hsub, hfull⟩ := ih (fun l hl => howned l (List.mem_append_left _ hl))
          (fun l => Nat.lt_of_le_of_lt (Nat.add_le_add_left (by simp) _) (hroom l)) h1
        exact ⟨hsub, fun hmem hpush => hfull (fun n => hmem (n + 1)) hpush⟩
      | false =>
        cases h1
        exact ⟨Subscribed.none hi e, fun _ _ => iff_of_true rfl rfl⟩
    obtain ⟨hsub, hfull⟩ := hfirst
    cases catches with
    | false =>
      obtain rfl : r = r1 := h
      refine ⟨?_, fun hmem hpush => hfull hmem fun l hl => hpush l (List.mem_append_left _ hl)⟩
      simpa using hsub
    | true =>
      obtain ⟨r2, h2, rfl⟩ : ∃ r2, _ := h
      obtain ⟨l, rfl, rfl⟩ := Option.map_eq_some_iff.mp h2
      have hmem : some l ∈ (if pass then caller.reached else []) ++ if true = true then [some l] else [] :=
        List.mem_append_right _ (List.mem_singleton_self _)
      have hl : 0 < r1.2.ownedLis l := hsub.same.ownedLis ▸ howned l hmem
      have he1 : 0 < r1.2.ownedEvt e := hsub.same.ownedEvt ▸ he
      have hroom1 : r1.2.adds l e + 1 < 2 ^ 32 := by
        have hadds := hsub.adds l e
        have hlen := hroom l
        rw [List.length_append] at hlen
        simp only [if_true, List.length_singleton] at hlen
        omega
      refine ⟨hsub.append (add_spec hsub.inv hl he1 hroom1 (mem 0)), fun hall hpush => ?_⟩
      have hcode := add_succeeds (e := e) (mem 0) (hall 0) ((hsub.same.itf l).symm ▸ hpush l hmem)
      rw [hcode, if_neg (by decide)]
      exact hfull hall fun l hl => hpush l (List.mem_append_left _ hl)

/-- An unsubscription of what was subscribed takes it back. -/
theorem unsubscribe_spec {sent : Bool} (x : Xreq) {r : Int × Store J} (hi : Inv itfs s)
    (howned : ∀ l, some l ∈ x.reached → 0 < s.ownedLis l) (he : 0 < s.ownedEvt e)
    (hact : ∀ l, x.reached.count (some l) ≤ activity s l e) (h : afbXreqUnsubscribe itfs sent e x s = some r) :
    Unsubscribed itfs e x.reached s r ∧ (r.1 = 0 ↔ x.takes sent = true) := by
  have hone {l : Lis} (hl : [some l].count (some l) ≤ activity s l e) : activity s l e ≠ 0 := by
    rw [List.count_singleton_self] at hl
    omega
  induction x generalizing r with
  | heard l =>
    cases h
    obtain ⟨hrem, hcode⟩ := remove_spec hi (howned l (List.mem_singleton_self _)) he (hone (hact l))
    exact ⟨hrem, iff_of_true hcode rfl⟩
  | deaf =>
    cases h
    exact ⟨Unsubscribed.none hi e (-1), iff_of_false (by simp) (by simp [Xreq.takes])⟩
  | stub l =>
    obtain ⟨hrem, hcode⟩ := remove_spec hi (howned l (List.mem_singleton_self _)) he (hone (hact l))
    rw [afbXreqUnsubscribe] at h
    generalize eventRemoveWatch itfs l e s = removed at h hrem hcode
    obtain rfl := Option.some.inj h
    refine ⟨⟨hrem.inv, hrem.same, hrem.run, hrem.activity⟩, ?_⟩
    cases sent <;> simp [hcode, Xreq.takes]
  | call api =>
    obtain ⟨l, rfl, rfl⟩ := Option.map_eq_some_iff.mp h
    obtain ⟨hrem, hcode⟩ := remove_spec hi (howned l (List.mem_singleton_self _)) he (hone (hact l))
    exact ⟨hrem, iff_of_true hcode rfl⟩
  | subcall pass catches api caller ih =>
    rw [Xreq.reached] at howned hact ⊢
    obtain ⟨r1, h1, h⟩ := relay_some h
    have hfirst : Unsubscribed itfs e (if pass then caller.reached else []) s r1 ∧
        (r1.1 = 0 ↔ (!pass || caller.takes sent) = true) := by
      cases pass with
      | true =>
        refine ih (fun l hl => howned l (List.mem_append_left _ hl)) (fun l => ?_) h1
        have hle := hact l
        rw [List.count_append] at hle
        exact Nat.le_trans (Nat.le_add_right _ _) hle
      | false =>
        cases h1
        exact ⟨Unsubscribed.none hi e 0, iff_of_true rfl rfl⟩
    obtain ⟨hrem, hcode⟩ := hfirst
    cases catches with
    | false =>
      obtain rfl : r = r1 := h
      exact ⟨by simpa using hrem, hcode⟩
    | true =>
      obtain ⟨r2, h2, rfl⟩ : ∃ r2, _ := h
      obtain ⟨l, rfl, rfl⟩ := Option.map_eq_some_iff.mp h2
      have hl : 0 < r1.2.ownedLis l := by
        rw [hrem.same.ownedLis]
        exact howned l (List.mem_append_right _ (List.mem_singleton_self _))
      have hleft : activity r1.2 l e ≠ 0 := by
        have hle := hact l
        have heq := hrem.activity l e
        rw [gain, if_pos rfl] at heq
        rw [List.count_append, if_pos rfl, List.count_singleton_self] at hle
        omega
      obtain ⟨hrem2, hcode2⟩ := remove_spec hrem.inv hl (hrem.same.ownedEvt ▸ he) hleft
      refine ⟨hrem.append hrem2 _, ?_⟩
      rw [hcode2, if_neg (by decide)]
      exact hcode

private theorem subscribe_isSome (sent : Bool) (e : Evt) (x : Xreq) (mem : Nat → Bool) (s : Store J) :
    (afbXreqSubscribe itfs sent e mem x s).isSome ↔ none ∉ x.reached := by
  induction x generalizing mem s with
  | heard l => simp [afbXreqSubscribe, Xreq.reached]
  | deaf => simp [afbXreqSubscribe, Xreq.reached]
  | stub l => simp [afbXreqSubscribe, Xreq.reached]
  | call api => cases api <;> simp [afbXreqSubscribe, afbExportSubscribe, Xreq.reached]
  | subcall pass catches api caller ih =>
    rw [afbXreqSubscribe, relay_isSome (Q := api ≠ none) (fun s => ih _ s) fun s => by
      cases api <;> simp [afbExportSubscribe]]
    cases pass <;> cases catches <;> simp [Xreq.reached, eq_comm]

private theorem unsubscribe_isSome (sent : Bool) (e : Evt) (x : Xreq) (s : Store J) :
    (afbXreqUnsubscribe itfs sent e x s).isSome ↔ none ∉ x.reached := by
  induction x generalizing s with
  | heard l => simp [afbXreqUnsubscribe, Xreq.reached]
  | deaf => simp [afbXreqUnsubscribe, Xreq.reached]
  | stub l => simp [afbXreqUnsubscribe, Xreq.reached]
  | call api => cases api <;> simp [afbXreqUnsubscribe, afbExportUnsubscribe, Xreq.reached]
  | subcall pass catches api caller ih =>
    rw [afbXreqUnsubscribe, relay_isSome (Q := api ≠ none) (fun s => ih s) fun s => by
      cases api <;> simp [afbExportUnsubscribe]]
    cases pass <;> cases catches <;> simp [Xreq.reached, eq_comm]

end

/-- After any operations on events, a subscription of a request that was called, through any callers,
crashes exactly when it reaches an api without a listener. Otherwise it is a run of additions of watches
of the listeners that are reached, at most one activity for each time; with memory and callbacks to push
to, it fails exactly when the end it is passed to does not take it. When it does not fail, each listener
has all the activities of its places, the event is pushed to those that got it and to those that are
reached, and to no other, and the unsubscription leaves the activities and the receivers as they were
before. The counts of 32 bits have room for the additions. -/
theorem subscription_reaches (itfs : Itfs) (ops : List (Op J)) (s : Store J)
    (h : exec (step itfs) .start ops = some s) (x : Xreq) (e : Evt)
    (howned : ∀ l, some l ∈ x.reached → 0 < s.ownedLis l) (he : 0 < s.ownedEvt e)
    (hroom : ∀ l e', s.adds l e' + x.reached.length < 2 ^ 32) (sent : Bool) (mem : Nat → Bool) :
    (afbXreqSubscribe itfs sent e mem x s = none ↔ none ∈ x.reached) ∧
    ∀ rc t, afbXreqSubscribe itfs sent e mem x s = some (rc, t) →
      (rc = 0 ∨ rc = -1) ∧
      (∃ more, (∀ op ∈ more, ∃ l mem, some l ∈ x.reached ∧ op = .watchAdd l e mem) ∧
        exec (step itfs) .start (ops ++ more) = some t) ∧
      (∀ l e', activity s l e' ≤ activity t l e' ∧ activity t l e' ≤ activity s l e' + gain e x.reached l e') ∧
      ((∀ n, mem n = true) → (∀ l, some l ∈ x.reached → (itfs (s.listener l).itf).push = true) →
        (rc = 0 ↔ x.takes sent = true)) ∧
      (rc = 0 →
        (∀ l e', activity t l e' = activity s l e' + gain e x.reached l e') ∧
        (∀ l e', l ∈ receivers t e' ↔ l ∈ receivers s e' ∨ e' = e ∧ some l ∈ x.reached) ∧
        ∀ unsent, ∃ rc' u, afbXreqUnsubscribe itfs unsent e x t = some (rc', u) ∧
          (rc' = 0 ↔ x.takes unsent = true) ∧ (∀ l e', activity u l e' = activity s l e') ∧
          ∀ l e', l ∈ receivers u e' ↔ l ∈ receivers s e') := by
  have hi : Inv itfs s := inv_run h fun l e' => Nat.lt_of_le_of_lt (Nat.le_add_right _ _) (hroom l e')
  have hends : (afbXreqSubscribe itfs sent e mem x s).isSome ↔ none ∉ x.reached := subscribe_isSome sent e x mem s
  refine ⟨?_, fun rc t ht => ?_⟩
  · rw [← Option.not_isSome_iff_eq_none, hends, not_not]
  · obtain ⟨hsub, hfull⟩ := subscribe_spec x hi howned he (fun l => hroom l e) ht
    obtain ⟨more, hadd, hmore⟩ := hsub.run
    refine ⟨hsub.code, ⟨more, hadd, (exec_append h).trans hmore⟩, fun l e' => ⟨hsub.least l e', hsub.most l e'⟩, hfull,
      fun hrc => ⟨hsub.all hrc, fun l e' => ?_, fun unsent => ?_⟩⟩
    · rw [mem_receivers_iff hsub.inv, mem_receivers_iff hi, hsub.all hrc, gain]
      split
      · rename_i heq
        rw [← List.count_pos_iff]
        simp only [heq, true_and]
        omega
      · rename_i hne
        simp [hne]
    · have hcatch : none ∉ x.reached := hends.mp (Option.isSome_of_eq_some ht)
      obtain ⟨⟨rc', u⟩, hu⟩ : ∃ r, afbXreqUnsubscribe itfs unsent e x t = some r :=
        Option.isSome_iff_exists.mp ((unsubscribe_isSome unsent e x t).mpr hcatch)
      have hact (l : Lis) : x.reached.count (some l) ≤ activity t l e := by
        rw [hsub.all hrc, gain, if_pos rfl]
        exact Nat.le_add_left _ _
      obtain ⟨hrem, hcode⟩ := unsubscribe_spec x hsub.inv
        (fun l hl => hsub.same.ownedLis.symm ▸ howned l hl) (hsub.same.ownedEvt.symm ▸ he) hact hu
      have hback (l : Lis) (e' : Evt) : activity u l e' = activity s l e' := by
        have hleft := hrem.activity l e'
        rw [hsub.all hrc] at hleft
        exact (Nat.add_right_cancel hleft).symm
      exact ⟨rc', u, hu, hcode, hback, fun l e' => by
        rw [mem_receivers_iff hrem.inv, mem_receivers_iff hi, hback]⟩

private def allCallbacks : Itfs := fun _ => ⟨true, true, true, true⟩

/-- An event, a listener of a stub and one of an api. -/
private def relayOps : List (Op Unit) :=
  [.evtidCreate [101] true, .listenerCreate 0 5 true, .listenerCreate 0 6 true]

/-- An api that calls itself for a remote client, and catches the events both times. -/
private def calledTwice : Xreq := .subcall true true (some 1) (.subcall true true (some 1) (.stub 0))

theorem subscription_reaches_sample : ∃ s t : Store Unit, exec (step allCallbacks) .start relayOps = some s ∧
    afbXreqSubscribe allCallbacks true 0 (fun _ => true) calledTwice s = some (0, t) ∧
    activity t 1 0 = activity s 1 0 + 2 ∧ 0 ∈ receivers t 0 := by
  have hroom (s : Store Unit) (hs : exec (step allCallbacks) .start relayOps = some s) :
      ∀ l e', s.adds l e' + calledTwice.reached.length < 2 ^ 32 := by
    obtain rfl := Option.some.inj hs
    exact fun _ _ => (by decide : 0 + 3 < 2 ^ 32)
  have howned (s : Store Unit) (hs : exec (step allCallbacks) .start relayOps = some s) :
      ∀ l, some l ∈ calledTwice.reached → 0 < s.ownedLis l := by
    obtain rfl := Option.some.inj hs
    intro l hl
    rcases (by simpa [calledTwice, Xreq.reached] using hl : l = 0 ∨ l = 1) with rfl | rfl <;> decide
  refine ⟨_, _, rfl, rfl, ?_⟩
  obtain ⟨-, hsub⟩ := subscription_reaches allCallbacks relayOps _ rfl calledTwice 0 (howned _ rfl) (by decide)
    (hroom _ rfl) true fun _ => true
  obtain ⟨-, -, -, -, hall⟩ := hsub 0 _ rfl
  obtain ⟨hact, hrec, -⟩ := hall rfl
  exact ⟨hact 1 0, (hrec 0 0).mpr (.inr ⟨rfl, by decide⟩)⟩

end AfbBinder.Events.Relays
