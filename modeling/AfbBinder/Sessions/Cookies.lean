import Mathlib.Data.Finmap
import AfbBinder.Sessions.Effects

/-! The cookies of an open session are a finite map from the keys to the values. -/
namespace AfbBinder.Sessions
open Lib.Runs Lib.Updates

def afbSessionGetCookie (s : SessionSet) (i : SessionId) (key : Nat) : Nat × SessionSet :=
  afbSessionCookie s i key none none 0 false true

def afbSessionSetCookie (s : SessionSet) (i : SessionId) (key value : Nat) (freecb : Option Nat)
    (mem : Bool) : Int × SessionSet :=
  let r := afbSessionCookie s i key none freecb value true mem
  (if value ≠ r.1 then -1 else 0, r.2)

/-- The arguments of a call of afb_session_cookie but the session. -/
structure CookieCall where
  key : Nat
  makecb : Option Nat
  freecb : Option Nat
  closure : Nat
  replace : Bool
  deriving DecidableEq, Repr

def CookieCall.value (c : CookieCall) : Nat := c.makecb.getD c.closure

def CookieCall.run (c : CookieCall) (s : SessionSet) (i : SessionId) (mem : Bool) :
    Nat × SessionSet :=
  afbSessionCookie s i c.key c.makecb c.freecb c.closure c.replace mem

/-- The cookies as their users see them. -/
abbrev CookieMap := Finmap fun _ : Nat => Nat

/-- A call stores its value when it replaces, or when it makes the value of an absent key. -/
def CookieCall.Stores (c : CookieCall) (held : Option Nat) : Prop :=
  c.replace = true ∨ held = none ∧ (c.makecb.isSome = true ∨ c.freecb.isSome = true)

instance (c : CookieCall) (held : Option Nat) : Decidable (c.Stores held) :=
  inferInstanceAs (Decidable (_ ∨ _))

/-- NULL without releaser drops the value it replaces. -/
def CookieCall.Drops (c : CookieCall) (held : Option Nat) : Prop :=
  held.isSome = true ∧ c.value = 0 ∧ c.freecb = none

instance (c : CookieCall) (held : Option Nat) : Decidable (c.Drops held) :=
  inferInstanceAs (Decidable (_ ∧ _))

def CookieMap.cookie (m : CookieMap) (c : CookieCall) : Nat × CookieMap :=
  if c.Stores (m.lookup c.key) then
    (c.value, if c.Drops (m.lookup c.key) then m.erase c.key else m.insert c.key c.value)
  else ((m.lookup c.key).getD c.value, m)

def CookieMap.after (m : CookieMap) (calls : List CookieCall) : CookieMap :=
  calls.foldl (fun m c => (CookieMap.cookie m c).2) m

def cookieCall (i : SessionId) : Op → Option CookieCall
  | .cookie j key makecb freecb closure replace _ =>
    if j = i then some ⟨key, makecb, freecb, closure, replace⟩ else none
  | _ => none

/-- The calls on the cookies of a session, in order. -/
def history (i : SessionId) (ops : List Op) : List CookieCall := ops.filterMap (cookieCall i)

/-- The cookie of the key, in the list of its index. -/
def cookieAt (x : Session) (key : Nat) : Option Cookie :=
  (x.cookies (cookeyidx key)).find? fun c => c.key = key

/-- No call of the list stores a value at the key. -/
def Unwritten (m : CookieMap) (calls : List CookieCall) (key : Nat) : Prop :=
  ∀ before c rest, calls = before ++ c :: rest → c.key = key →
    ¬ c.Stores ((CookieMap.after m before).lookup key)

structure Refines (x : Session) (m : CookieMap) : Prop where
  nodup : ∀ idx, ((x.cookies idx).map Cookie.key).Nodup
  lookup : ∀ key, m.lookup key = (cookieAt x key).map Cookie.value

section
variable {s t u : SessionSet} {i : SessionId} {op : Op} {m : CookieMap} {l : List Cookie}
  {c : CookieCall}

def CookieCall.scan (c : CookieCall) (mem : Bool) (l : List Cookie) :
    List Cookie × Nat × List (Nat × Nat) :=
  cookieScan c.key c.makecb c.freecb c.closure c.replace mem l

/-- The other keys of the list are not touched. -/
theorem scan_other (c : CookieCall) (mem : Bool) (l : List Cookie) {key : Nat}
    (hk : key ≠ c.key) :
    (c.scan mem l).1.find? (fun x => x.key = key) = l.find? fun x => x.key = key := by
  induction l with
  | nil =>
    unfold CookieCall.scan cookieScan
    dsimp only
    split
    · split <;> simp [Ne.symm hk]
    · rfl
  | cons x l ih =>
    unfold CookieCall.scan cookieScan
    split
    · rename_i hx
      dsimp only
      split
      · split <;> simp [hx, Ne.symm hk]
      · rfl
    · dsimp only
      rw [List.find?_cons, List.find?_cons]
      split
      · rfl
      · exact ih

private theorem scan_keys (c : CookieCall) (mem : Bool) (hl : (l.map Cookie.key).Nodup) :
    ((c.scan mem l).1.map Cookie.key).Nodup ∧
      ∀ key ∈ (c.scan mem l).1.map Cookie.key, key = c.key ∨ key ∈ l.map Cookie.key := by
  induction l with
  | nil =>
    unfold CookieCall.scan cookieScan
    dsimp only
    split
    · split <;> simp
    · simp
  | cons x l ih =>
    rw [List.map_cons, List.nodup_cons] at hl
    obtain ⟨hx, hl⟩ := hl
    unfold CookieCall.scan cookieScan
    split
    · rename_i he
      dsimp only
      split
      · split
        · exact ⟨hl, fun key hm => .inr (List.mem_cons_of_mem _ hm)⟩
        · rw [List.map_cons, List.nodup_cons]
          exact ⟨⟨he ▸ hx, hl⟩, fun key hm => by simpa [he] using hm⟩
      · exact ⟨List.nodup_cons.mpr ⟨hx, hl⟩, fun key hm => .inr hm⟩
    · rename_i he
      obtain ⟨hnodup, hsub⟩ := ih hl
      refine ⟨List.nodup_cons.mpr ⟨fun hm => ?_, hnodup⟩, fun key hm => ?_⟩
      · exact (hsub x.key hm).elim he hx
      · rcases List.mem_cons.mp hm with rfl | hm
        · exact .inr List.mem_cons_self
        · exact (hsub key hm).imp_right (List.mem_cons_of_mem _)

/-- The key of the call: the value returned and the cookie left are those of the map. -/
theorem scan_key (c : CookieCall) (hl : (l.map Cookie.key).Nodup) :
    let held := (l.find? fun x => x.key = c.key).map Cookie.value
    (c.scan true l).2.1 = (if c.Stores held then c.value else held.getD c.value) ∧
      ((c.scan true l).1.find? fun x => x.key = c.key).map Cookie.value =
        if c.Stores held then if c.Drops held then none else some c.value else held := by
  induction l with
  | nil =>
    unfold CookieCall.scan cookieScan CookieCall.Stores CookieCall.Drops
    dsimp only
    split
    · rename_i hs
      simp [hs, CookieCall.value]
    · rename_i hs
      simp [hs, CookieCall.value]
  | cons x l ih =>
    rw [List.map_cons, List.nodup_cons] at hl
    obtain ⟨hx, hl⟩ := hl
    by_cases he : x.key = c.key
    · have habsent : l.find? (fun y => y.key = c.key) = none := by
        rw [List.find?_eq_none]
        intro y hy hk
        exact hx (he ▸ of_decide_eq_true hk ▸ List.mem_map_of_mem hy)
      unfold CookieCall.scan cookieScan
      by_cases hr : c.replace = true
      · by_cases hd : c.value = 0 ∧ c.freecb = none
        · obtain ⟨hv, hf⟩ := hd
          have hv' : c.makecb.getD c.closure = 0 := hv
          simp [he, hr, hv', hf, habsent, CookieCall.Stores, CookieCall.Drops, hv]
        · have hd' : ¬ (c.makecb.getD c.closure = 0 ∧ c.freecb = none) := hd
          simp [he, hr, hd', CookieCall.Stores, CookieCall.Drops, CookieCall.value]
      · simp [he, hr, CookieCall.Stores]
    · have hfind : ((x :: l).find? fun y => y.key = c.key) = l.find? fun y => y.key = c.key := by
        simp [he]
      rw [hfind]
      unfold CookieCall.scan cookieScan
      rw [if_neg he]
      dsimp only
      rw [List.find?_cons, decide_eq_false he]
      exact ih hl

private theorem run_session (c : CookieCall) (s : SessionSet) (i : SessionId) (mem : Bool) :
    (c.run s i mem).2.session = Function.update s.session i { s.session i with
      cookies := Function.update (s.session i).cookies (cookeyidx c.key)
        (c.scan mem ((s.session i).cookies (cookeyidx c.key))).1 } := rfl

private theorem run_self (c : CookieCall) (s : SessionSet) (i : SessionId) (mem : Bool) :
    ((c.run s i mem).2.session i).cookies = Function.update (s.session i).cookies
      (cookeyidx c.key) (c.scan mem ((s.session i).cookies (cookeyidx c.key))).1 := by
  rw [run_session, Function.update_self]

private theorem run_other (c : CookieCall) (s : SessionSet) (i : SessionId) (mem : Bool) {key : Nat}
    (hk : key ≠ c.key) :
    cookieAt ((c.run s i mem).2.session i) key = cookieAt (s.session i) key := by
  rw [cookieAt, run_self, cookieAt]
  by_cases hidx : cookeyidx key = cookeyidx c.key
  · rw [hidx, Function.update_self]
    exact scan_other c mem _ hk
  · rw [Function.update_of_ne hidx]

private theorem Refines.congr {x y : Session} (h : Refines x m) (hc : y.cookies = x.cookies) :
    Refines y m := by
  refine ⟨hc ▸ h.nodup, fun key => ?_⟩
  rw [h.lookup, cookieAt, cookieAt, hc]

private theorem CookieMap.lookup_cookie (m : CookieMap) (c : CookieCall) :
    (CookieMap.cookie m c).2.lookup c.key =
      if c.Stores (m.lookup c.key) then if c.Drops (m.lookup c.key) then none else some c.value
      else m.lookup c.key := by
  unfold CookieMap.cookie
  split
  · dsimp only
    split
    · exact Finmap.lookup_erase _ _
    · exact Finmap.lookup_insert _
  · rfl

private theorem CookieMap.lookup_cookie_of_ne (m : CookieMap) {key : Nat} (hk : key ≠ c.key) :
    (CookieMap.cookie m c).2.lookup key = m.lookup key := by
  unfold CookieMap.cookie
  split
  · dsimp only
    split
    · exact Finmap.lookup_erase_ne hk
    · exact Finmap.lookup_insert_of_ne _ hk
  · rfl

/-- One call without allocation failure. -/
theorem refines_run (h : Refines (s.session i) m) (c : CookieCall) :
    (c.run s i true).1 = (CookieMap.cookie m c).1 ∧
      Refines ((c.run s i true).2.session i) (CookieMap.cookie m c).2 := by
  have hl := h.nodup (cookeyidx c.key)
  obtain ⟨hvalue, hfind⟩ := scan_key c hl
  have hheld : ((s.session i).cookies (cookeyidx c.key)).find? (fun x => x.key = c.key) =
      cookieAt (s.session i) c.key := rfl
  rw [hheld, ← h.lookup] at hvalue hfind
  refine ⟨?_, fun idx => ?_, fun key => ?_⟩
  · refine Eq.trans (b := (c.scan true ((s.session i).cookies (cookeyidx c.key))).2.1) rfl ?_
    rw [hvalue, CookieMap.cookie]
    split <;> rfl
  · rw [run_self]
    by_cases hidx : idx = cookeyidx c.key
    · rw [hidx, Function.update_self]
      exact (scan_keys c true hl).1
    · rw [Function.update_of_ne hidx]
      exact h.nodup idx
  · by_cases hk : key = c.key
    · rw [hk, CookieMap.lookup_cookie, ← hfind, cookieAt, run_self, Function.update_self]
    · rw [CookieMap.lookup_cookie_of_ne m hk, run_other c s i true hk, h.lookup]

private theorem later_exec {ops : List Op} (hs : Sound s) (h : exec step s ops = some t) :
    Later s t := by
  have hkeep := exec_keeps (I := fun u => Sound u ∧ Later s u) (fun u op v hu hv =>
    ⟨sound_step hu.1 hv, hu.2.trans (later_step hu.1 hv)⟩) ⟨hs, .refl s⟩ h
  exact hkeep.2

private theorem cookieCall_some (h : cookieCall i op = some c) :
    ∃ mem, op = .cookie i c.key c.makecb c.freecb c.closure c.replace mem := by
  cases op with
  | cookie j key makecb freecb closure replace mem =>
    rw [cookieCall] at h
    split at h
    · rename_i hj
      subst hj
      cases h
      exact ⟨mem, rfl⟩
    · cases h
  | _ => cases h

/-- A session that is open at the end was never closed: each call on it is a call of the map. -/
theorem refines_exec {ops : List Op} (hs : Sound s) (hr : Refines (s.session i) m)
    (hmem : ∀ key makecb freecb closure replace,
      .cookie i key makecb freecb closure replace false ∉ ops)
    (h : exec step s ops = some t) (hopen : (t.session i).closed = false) :
    Refines (t.session i) (CookieMap.after m (history i ops)) := by
  induction ops generalizing s m with
  | nil =>
    cases h
    exact hr
  | cons op ops ih =>
    obtain ⟨u, hu, ht⟩ := exec_cons.mp h
    have hsound := sound_step hs hu
    have hmem' : ∀ key makecb freecb closure replace,
        .cookie i key makecb freecb closure replace false ∉ ops :=
      fun key makecb freecb closure replace hm =>
        hmem key makecb freecb closure replace (List.mem_cons_of_mem _ hm)
    cases hc : cookieCall i op with
    | some c =>
      have hhist : history i (op :: ops) = c :: history i ops := by simp [history, hc]
      obtain ⟨mem, rfl⟩ := cookieCall_some hc
      have hm : mem = true := by
        rw [← Bool.not_eq_false]
        rintro rfl
        exact hmem _ _ _ _ _ List.mem_cons_self
      obtain ⟨-, rfl⟩ := Option.ite_some_none_eq_some.mp hu
      rw [hhist]
      exact ih hsound (hm ▸ (refines_run hr c).2) hmem' ht
    | none =>
      have hhist : history i (op :: ops) = history i ops := by simp [history, hc]
      rw [hhist]
      cases step_effect hs hu i with
      | kept closed cookies => exact ih hsound (hr.congr cookies) hmem' ht
      | closed _ _ closed =>
        exact absurd (later_exec hsound ht i closed) (Bool.eq_false_iff.mp hopen)
      | cookie _ key makecb freecb closure replace mem op =>
        subst op
        simp [cookieCall] at hc

private theorem after_unwritten {calls : List CookieCall} {key : Nat}
    (h : Unwritten m calls key) : (CookieMap.after m calls).lookup key = m.lookup key := by
  induction calls generalizing m with
  | nil => rfl
  | cons c calls ih =>
    have hrest : Unwritten (CookieMap.cookie m c).2 calls key :=
      fun before d rest he => h (c :: before) d rest (he ▸ rfl)
    refine (ih hrest).trans ?_
    by_cases hk : key = c.key
    · subst hk
      rw [CookieMap.lookup_cookie]
      exact if_neg (h [] c calls rfl rfl)
    · exact CookieMap.lookup_cookie_of_ne m hk

private theorem after_written {before rest : List CookieCall}
    (hc : c.Stores ((CookieMap.after m before).lookup c.key))
    (hrest : Unwritten (CookieMap.after m (before ++ [c])) rest c.key) :
    ((CookieMap.after m (before ++ c :: rest)).lookup c.key).getD 0 = c.value := by
  have hsplit : CookieMap.after m (before ++ c :: rest) =
      CookieMap.after (CookieMap.after m (before ++ [c])) rest := by
    simp [CookieMap.after]
  have hlast : CookieMap.after m (before ++ [c]) =
      (CookieMap.cookie (CookieMap.after m before) c).2 := by
    simp [CookieMap.after]
  rw [hsplit, after_unwritten hrest, hlast, CookieMap.lookup_cookie, if_pos hc]
  split
  · rename_i hd
    exact hd.2.1.symm
  · rfl

theorem getCookie_fst (s : SessionSet) (i : SessionId) (key : Nat) :
    (afbSessionGetCookie s i key).1 = ((cookieAt (s.session i) key).map Cookie.value).getD 0 := by
  have hscan : ∀ l : List Cookie, (cookieScan key none none 0 false true l).2.1 =
      ((l.find? fun x => x.key = key).map Cookie.value).getD 0 := by
    intro l
    induction l with
    | nil => rfl
    | cons x l ih =>
      unfold cookieScan
      by_cases hx : x.key = key
      · simp [hx]
      · simpa [hx] using ih
  exact hscan _

theorem getCookie_run_other (c : CookieCall) (s : SessionSet) (i : SessionId) (mem : Bool)
    {key : Nat} (hk : key ≠ c.key) :
    (afbSessionGetCookie (c.run s i mem).2 i key).1 = (afbSessionGetCookie s i key).1 := by
  rw [getCookie_fst, getCookie_fst, run_other c s i mem hk]

/-- No key has two cookies in a session. -/
def Distinct (s : SessionSet) : Prop := ∀ i idx, (((s.session i).cookies idx).map Cookie.key).Nodup

theorem distinct_start : Distinct .start := fun _ _ => List.nodup_nil

theorem distinct_step (hs : Sound s) (hd : Distinct s) (h : step s op = some t) : Distinct t := by
  intro j idx
  cases step_effect hs h j with
  | kept _ cookies => exact cookies ▸ hd j idx
  | closed _ _ _ cookies => exact cookies ▸ List.nodup_nil
  | cookie _ key makecb freecb closure replace mem _ _ cookies =>
    rw [cookies]
    by_cases hidx : idx = cookeyidx key
    · rw [hidx, Function.update_self]
      exact (scan_keys ⟨key, makecb, freecb, closure, replace⟩ mem (hd j _)).1
    · rw [Function.update_of_ne hidx]
      exact hd j idx

private theorem scan_null (key : Nat) (mem : Bool) (hl : (l.map Cookie.key).Nodup) :
    (((cookieScan key none none 0 true mem l).1.find? fun x => x.key = key).map
      Cookie.value).getD 0 = 0 := by
  induction l with
  | nil => cases mem <;> simp [cookieScan]
  | cons x l ih =>
    rw [List.map_cons, List.nodup_cons] at hl
    obtain ⟨hx, hl⟩ := hl
    unfold cookieScan
    by_cases he : x.key = key
    · have habsent : l.find? (fun y => y.key = key) = none := by
        rw [List.find?_eq_none]
        intro y hy hk
        exact hx (he ▸ of_decide_eq_true hk ▸ List.mem_map_of_mem hy)
      simp [he, habsent]
    · rw [if_neg he]
      dsimp only
      rw [List.find?_cons, decide_eq_false he]
      exact ih hl

/-- NULL is read after it was set, whether it was stored, dropped or could not be allocated. -/
theorem getCookie_setNull (hd : Distinct s) (i : SessionId) (key : Nat) (mem : Bool) :
    (afbSessionGetCookie (afbSessionSetCookie s i key 0 none mem).2 i key).1 = 0 := by
  have hself := run_self ⟨key, none, none, 0, true⟩ s i mem
  change ((afbSessionSetCookie s i key 0 none mem).2.session i).cookies = _ at hself
  rw [getCookie_fst, cookieAt, hself, Function.update_self]
  exact scan_null key mem (hd i _)

private theorem scan_present (hr : c.replace = false) (mem : Bool) {x : Cookie}
    (hx : l.find? (fun y => y.key = c.key) = some x) : c.scan mem l = (l, x.value, []) := by
  induction l with
  | nil => cases hx
  | cons y l ih =>
    unfold CookieCall.scan cookieScan
    by_cases hy : y.key = c.key
    · rw [List.find?_cons, decide_eq_true hy] at hx
      cases hx
      simp [hy, hr]
    · rw [List.find?_cons, decide_eq_false hy] at hx
      have hl := ih hx
      unfold CookieCall.scan at hl
      rw [if_neg hy, hl]

private theorem run_present (hr : c.replace = false) (mem : Bool) {x : Cookie}
    (hx : cookieAt (s.session i) c.key = some x) : c.run s i mem = (x.value, s) := by
  have hscan := scan_present hr mem hx
  unfold CookieCall.scan at hscan
  unfold CookieCall.run afbSessionCookie
  dsimp only
  rw [hscan]
  simp [SessionSet.emit, SessionSet.modify]

private theorem refines_close (hopen : (s.session i).closed = false) :
    Refines ((afbSessionClose s i).session i) ∅ := by
  have hcookies : ((afbSessionClose s i).session i).cookies = fun _ => [] := by
    rw [afbSessionClose, sessionClose_session, Function.update_self, closeRecord]
    simp [hopen]
  refine ⟨fun idx => ?_, fun key => ?_⟩
  · rw [hcookies]
    exact List.nodup_nil
  · rw [cookieAt, hcookies]
    rfl

private theorem refines_start (i : SessionId) : Refines (SessionSet.start.session i) ∅ :=
  ⟨fun _ => List.nodup_nil, fun _ => rfl⟩

end

/-- The cookies of a session that is open after any sequence of calls, of which none failed to
allocate a cookie of the session: they are the map that the calls on the session make. -/
theorem cookies_refine_map (ops : List Op) (s : SessionSet) (i : SessionId)
    (h : exec step .start ops = some s) (hopen : (s.session i).closed = false)
    (hmem : ∀ key makecb freecb closure replace,
      .cookie i key makecb freecb closure replace false ∉ ops) :
    let m := CookieMap.after ∅ (history i ops)
    Refines (s.session i) m ∧
    -- what a get returns: NULL, or the value of the last call that stored one
    (∀ key, (afbSessionGetCookie s i key).1 = (m.lookup key).getD 0) ∧
    (∀ key, Unwritten ∅ (history i ops) key → (afbSessionGetCookie s i key).1 = 0) ∧
    (∀ before c rest, history i ops = before ++ c :: rest →
      c.Stores ((CookieMap.after ∅ before).lookup c.key) →
      Unwritten (CookieMap.after ∅ (before ++ [c])) rest c.key →
      (afbSessionGetCookie s i c.key).1 = c.value) ∧
    -- the next call, whatever it is
    (∀ c : CookieCall, (c.run s i true).1 = (CookieMap.cookie m c).1 ∧
      Refines ((c.run s i true).2.session i) (CookieMap.cookie m c).2) ∧
    (∀ key value freecb, (afbSessionSetCookie s i key value freecb true).1 = 0) ∧
    (∀ (c : CookieCall) mem key, key ≠ c.key →
      (afbSessionGetCookie (c.run s i mem).2 i key).1 = (afbSessionGetCookie s i key).1) ∧
    (∀ (c : CookieCall) mem j, j ≠ i → (c.run s i mem).2.session j = s.session j) ∧
    (∀ (c : CookieCall) mem, c.replace = false → c.key ∈ m →
      c.run s i mem = ((afbSessionGetCookie s i c.key).1, s)) ∧
    Refines ((afbSessionClose s i).session i) ∅ := by
  have hr := refines_exec sound_start (refines_start i) hmem h hopen
  have hget : ∀ key, (afbSessionGetCookie s i key).1 =
      ((CookieMap.after ∅ (history i ops)).lookup key).getD 0 := by
    intro key
    rw [getCookie_fst, hr.lookup]
  refine ⟨hr, hget, fun key hk => ?_, fun before c rest he hc hrest => ?_,
    fun c => refines_run hr c, fun key value freecb => ?_, fun c mem key hk => ?_,
    fun c mem j hj => ?_, fun c mem hc hm => ?_, refines_close hopen⟩
  · rw [hget, after_unwritten hk]
    rfl
  · rw [hget, he]
    exact after_written hc hrest
  · have hrun := (refines_run hr ⟨key, none, freecb, value, true⟩).1
    have hstores : CookieCall.Stores ⟨key, none, freecb, value, true⟩
        ((CookieMap.after ∅ (history i ops)).lookup key) := .inl rfl
    rw [CookieMap.cookie, if_pos hstores] at hrun
    exact if_neg (not_not_intro hrun.symm)
  · exact getCookie_run_other c s i mem hk
  · rw [run_session, Function.update_of_ne hj]
  · obtain ⟨v, hv⟩ := Finmap.mem_iff.mp hm
    rw [hr.lookup] at hv
    obtain ⟨x, hx, rfl⟩ := Option.map_eq_some_iff.mp hv
    rw [run_present hc mem hx, getCookie_fst, hx]
    rfl

/-- Two keys of the same list: one is set, made, replaced then dropped, the other stays. -/
def cookieOps : List Op :=
  [.init 5 60 none [42], .get (some [97]) 5 [] true, .cookie 0 32 none none 7 true true,
    .cookie 0 288 (some 8) (some 1) 0 false true, .cookie 0 288 (some 9) none 0 false true,
    .cookie 0 32 none (some 2) 5 true true, .cookie 0 32 none none 0 true true, .purge]

theorem cookies_refine_map_sample :
    ∃ s, exec step .start cookieOps = some s ∧ cookeyidx 32 = cookeyidx 288 ∧
      (s.session 0).closed = false ∧ (afbSessionGetCookie s 0 32).1 = 0 ∧
      (afbSessionGetCookie s 0 288).1 = 8 ∧
      Refines ((afbSessionClose s 0).session 0) ∅ :=
  ⟨_, rfl, rfl, rfl, rfl, rfl,
    (cookies_refine_map cookieOps _ 0 rfl rfl (by simp [cookieOps])).2.2.2.2.2.2.2.2.2⟩

end AfbBinder.Sessions
