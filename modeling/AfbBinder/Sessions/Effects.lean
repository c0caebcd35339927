import AfbBinder.Sessions.Cleanup

/-! What a call can do to one record: leave its cookies, close it, or change one cookie. -/
namespace AfbBinder.Sessions
open Lib.Cstrings Lib.Runs Lib.Updates

/-- The call seen from one session: its closed flag, its cookies and what is released. -/
inductive Effect (s : SessionSet) (op : Op) (t : SessionSet) (j : SessionId) : Prop
  | kept (closed : (t.session j).closed = (s.session j).closed)
      (cookies : (t.session j).cookies = (s.session j).cookies)
      (frees : ∀ f v, frees t j f v = frees s j f v)
  | closed (created : j < s.created) (isOpen : (s.session j).closed = false)
      (closed : (t.session j).closed = true) (cookies : (t.session j).cookies = fun _ => [])
      (frees : ∀ f v, frees t j f v =
        frees s j f v + (releases j (s.session j)).count (.freecb j f v))
  | cookie (created : j < s.created) (key : Nat) (makecb freecb : Option Nat) (closure : Nat)
      (replace mem : Bool) (op : op = .cookie j key makecb freecb closure replace mem)
      (closed : (t.session j).closed = (s.session j).closed)
      (cookies : (t.session j).cookies = Function.update (s.session j).cookies (cookeyidx key)
        (cookieScan key makecb freecb closure replace mem
          ((s.session j).cookies (cookeyidx key))).1)
      (frees : ∀ f v, frees t j f v = frees s j f v +
        (cookieScan key makecb freecb closure replace mem
          ((s.session j).cookies (cookeyidx key))).2.2.count (f, v))

/-- The invariant of the set, and the records not created yet as calloc leaves them. -/
structure Sound (s : SessionSet) : Prop where
  inv : Inv s
  blank : ∀ i, s.created ≤ i → (s.session i).closed = false ∧ (s.session i).cookies = fun _ => []

/-- The sessions closed in a state are closed in the later ones. -/
def Later (s t : SessionSet) : Prop :=
  ∀ j, (s.session j).closed = true → (t.session j).closed = true

section
variable {s t u : SessionSet} {i j : SessionId} {op : Op}

/-- The state changes in nothing that the effects tell. -/
theorem Effect.congr (h : Effect s op t j)
    (hc : (u.session j).closed = (t.session j).closed)
    (hk : (u.session j).cookies = (t.session j).cookies)
    (hf : ∀ f v, frees u j f v = frees t j f v) : Effect s op u j := by
  cases h with
  | kept closed cookies frees =>
    exact .kept (hc.trans closed) (hk.trans cookies) fun f v => (hf f v).trans (frees f v)
  | closed created isOpen closed cookies frees =>
    exact .closed created isOpen (hc.trans closed) (hk.trans cookies)
      fun f v => (hf f v).trans (frees f v)
  | cookie created key makecb freecb closure replace mem op closed cookies frees =>
    exact .cookie created key makecb freecb closure replace mem op (hc.trans closed)
      (hk.trans cookies) fun f v => (hf f v).trans (frees f v)

theorem effect_refl (s : SessionSet) (op : Op) (j : SessionId) : Effect s op s j :=
  .kept rfl rfl fun _ _ => rfl

private theorem effect_close (s : SessionSet) (op : Op) (hc : i < s.created) (j : SessionId) :
    Effect s op (sessionClose s i) j := by
  have hsession := sessionClose_session s i
  by_cases hj : j = i
  · subst hj
    cases hopen : (s.session j).closed with
    | true =>
      rw [sessionClose, if_pos hopen]
      exact effect_refl s op j
    | false =>
      have hself : (sessionClose s j).session j =
          { s.session j with closed := true, cookies := fun _ => [] } := by
        rw [hsession, Function.update_self, closeRecord]
        simp [hopen]
      refine .closed hc hopen (by rw [hself]) (by rw [hself]) fun f v => ?_
      rw [sessionClose_frees]
      simp [hopen]
  · have hsame : (sessionClose s i).session j = s.session j := by
      rw [hsession, Function.update_of_ne hj]
    refine .kept (by rw [hsame]) (by rw [hsame]) fun f v => ?_
    rw [sessionClose_frees]
    simp [hj]

private theorem closed_due (force : Bool) (now : Nat) (x : Session) :
    (sweptRecord force now x).closed = (dueRecord force now x).closed ∧
      (sweptRecord force now x).cookies = (dueRecord force now x).cookies := by
  rw [sweptRecord]
  split <;> exact ⟨rfl, rfl⟩

private theorem effect_cleanup (hi : Inv s) (op : Op) (force : Bool) (j : SessionId) :
    Effect s op (sessionsetCleanup s force) j := by
  have hclean := cleaned_cleanup hi force
  by_cases hj : j ∈ linked s
  swap
  · have hsame := hclean.session j
    rw [if_neg hj] at hsame
    refine .kept (by rw [hsame]) (by rw [hsame]) fun f v => ?_
    rw [hclean.frees]
    simp [hj]
  have hself := hclean.session j
  rw [if_pos hj] at hself
  obtain ⟨hsc, hsk⟩ := closed_due force s.now (s.session j)
  obtain ⟨h, hm⟩ := mem_linked.mp hj
  by_cases hcl : Closes force s.now (s.session j)
  · have hdue : dueRecord force s.now (s.session j) =
        { s.session j with closed := true, cookies := fun _ => [] } := by
      rw [dueRecord, if_pos hcl.2, closeRecord]
      simp [hcl.1]
    refine .closed (hi.linkedCreated h j hm) hcl.1 ?_ ?_ fun f v => ?_
    · rw [hself, hsc, hdue]
    · rw [hself, hsk, hdue]
    · rw [hclean.frees, if_pos ⟨hj, hcl⟩]
  · have hdue : dueRecord force s.now (s.session j) = s.session j := by
      unfold dueRecord closeRecord
      split
      · rename_i hdue
        refine if_pos ?_
        rw [← Bool.not_eq_false]
        exact fun hopen => hcl ⟨hopen, hdue⟩
      · rfl
    refine .kept ?_ ?_ fun f v => ?_
    · rw [hself, hsc, hdue]
    · rw [hself, hsk, hdue]
    · rw [hclean.frees, if_neg (fun h => hcl h.2), Nat.add_zero]

private theorem Effect.modify (h : Effect s op t j) {l : List Hook} {g : Session → Session}
    (i : SessionId) (hl : ∀ f v, .freecb j f v ∉ l) (hc : ∀ x, (g x).closed = x.closed)
    (hk : ∀ x, (g x).cookies = x.cookies) : Effect s op ((t.emit l).modify i g) j := by
  refine h.congr ?_ ?_ fun f v => ?_
  · exact update_field t.session i j Session.closed (hc _)
  · exact update_field t.session i j Session.cookies (hk _)
  · simp [frees, SessionSet.emit, SessionSet.modify, List.count_eq_zero_of_not_mem (hl f v)]

theorem effect_addref (h : Effect s op t j) (i : SessionId) :
    Effect s op (afbSessionAddref t i) j :=
  h.modify i (by simp) (fun _ => rfl) fun _ => rfl

/-- The effect is the same from a state that differs in nothing that it reads. -/
theorem Effect.base (h : Effect t op u j) (hcreated : t.created = s.created)
    (hc : (t.session j).closed = (s.session j).closed)
    (hk : (t.session j).cookies = (s.session j).cookies)
    (hf : ∀ f v, frees t j f v = frees s j f v) : Effect s op u j := by
  have hreleases : releases j (t.session j) = releases j (s.session j) := by
    rw [releases, releases, hk]
  cases h with
  | kept closed cookies frees =>
    exact .kept (closed.trans hc) (cookies.trans hk) fun f v => (frees f v).trans (hf f v)
  | closed created isOpen closed cookies frees =>
    exact .closed (hcreated ▸ created) (hc ▸ isOpen) closed cookies
      fun f v => by rw [frees, hf, hreleases]
  | cookie created key makecb freecb closure replace mem op closed cookies frees =>
    exact .cookie (hcreated ▸ created) key makecb freecb closure replace mem op (closed.trans hc)
      (by rw [cookies, hk]) fun f v => by rw [frees, hf, hk]

private theorem effect_unref (hc : i < s.created) (op : Op) (j : SessionId) :
    Effect s op (afbSessionUnref s i) j := by
  have hdec : ∀ op, Effect s op ((s.emit [.unref i]).modify i fun x =>
      { x with refcount := x.refcount - 1 }) j := fun op =>
    (effect_refl s op j).modify i (by simp) (fun _ => rfl) fun _ => rfl
  unfold afbSessionUnref
  obtain ⟨v, hv⟩ : ∃ v, v = (s.emit [.unref i]).modify i fun x =>
    { x with refcount := x.refcount - 1 } := ⟨_, rfl⟩
  have hcreated : v.created = s.created := hv ▸ rfl
  have hclosed : (v.session j).closed = (s.session j).closed := by
    rw [hv]
    exact update_field s.session i j Session.closed rfl
  have hcookies : (v.session j).cookies = (s.session j).cookies := by
    rw [hv]
    exact update_field s.session i j Session.cookies rfl
  have hfrees : ∀ f w, frees v j f w = frees s j f w := by
    intro f w
    rw [hv]
    simp [frees, SessionSet.emit, SessionSet.modify]
  simp only [← hv]
  split
  swap
  · exact .kept hclosed hcookies hfrees
  -- the last reference: the close when it is automatic, then the destruction
  have hclose : Effect s op (if (v.session i).autoclose then sessionClose v i else v) j := by
    split
    · exact (effect_close v op (hcreated ▸ hc) j).base hcreated hclosed hcookies hfrees
    · exact .kept hclosed hcookies hfrees
  generalize (if (v.session i).autoclose then sessionClose v i else v) = w at hclose
  split
  · refine hclose.congr rfl rfl fun f x => ?_
    simp [frees, sessionDestroy, SessionSet.emit]
  · exact hclose

private theorem effect_add (hs : Sound s) (h : Effect s op t j) (ht : t.created = s.created)
    {uuid : Bytes} {timeout : Int} {idx : Fin 16} {mem : Bool}
    (hadd : sessionAdd t uuid timeout idx mem = .ok (i, u)) : Effect s op u j := by
  obtain ⟨rfl, -, rfl⟩ := sessionAdd_ok hadd
  have hfrees : ∀ f v, (t.hooks ++ [Hook.create t.created]).count (.freecb j f v) =
      t.hooks.count (.freecb j f v) := by simp
  by_cases hj : j = t.created
  · subst hj
    obtain ⟨hclosed, hcookies⟩ := hs.blank t.created (Nat.le_of_eq ht.symm)
    refine .kept ?_ ?_ fun f v => (hfrees f v).trans ?_
    · simp [hclosed, sessionUpdateExpiration, calloc]
    · simp [hcookies, sessionUpdateExpiration, calloc]
    · cases h with
      | kept _ _ hf => exact hf f v
      | closed created => exact absurd created (ht ▸ Nat.lt_irrefl _)
      | cookie created => exact absurd created (ht ▸ Nat.lt_irrefl _)
  · refine h.congr ?_ ?_ hfrees
    · simp [hj]
    · simp [hj]

theorem hook_injective (j : SessionId) :
    Function.Injective fun x : Nat × Nat => Hook.freecb j x.1 x.2 := by
  rintro ⟨f, v⟩ ⟨f', v'⟩ he
  simpa using he

/-- A call on a cookie, seen from its session. -/
theorem cookie_self (s : SessionSet) (j : SessionId) (key : Nat) (makecb freecb : Option Nat)
    (closure : Nat) (replace mem : Bool) :
    let t := (afbSessionCookie s j key makecb freecb closure replace mem).2
    let r := cookieScan key makecb freecb closure replace mem ((s.session j).cookies (cookeyidx key))
    (t.session j).closed = (s.session j).closed ∧
      (t.session j).cookies = Function.update (s.session j).cookies (cookeyidx key) r.1 ∧
      ∀ f v, frees t j f v = frees s j f v + r.2.2.count (f, v) := by
  dsimp only [afbSessionCookie]
  refine ⟨?_, ?_, fun f v => ?_⟩
  · simp [SessionSet.modify, SessionSet.emit]
  · simp [SessionSet.modify, SessionSet.emit]
  · simp only [frees, SessionSet.modify, SessionSet.emit, List.count_append,
      Nat.add_left_cancel_iff]
    exact List.count_map_of_injective _ _ (hook_injective j) (f, v)

private theorem effect_cookie (hc : i < s.created) (key : Nat) (makecb freecb : Option Nat)
    (closure : Nat) (replace mem : Bool) (j : SessionId) :
    Effect s (.cookie i key makecb freecb closure replace mem)
      (afbSessionCookie s i key makecb freecb closure replace mem).2 j := by
  by_cases hj : j = i
  · subst hj
    obtain ⟨hclosed, hcookies, hfrees⟩ := cookie_self s j key makecb freecb closure replace mem
    exact .cookie hc key makecb freecb closure replace mem rfl hclosed hcookies hfrees
  · dsimp only [afbSessionCookie]
    refine .kept ?_ ?_ fun f v => ?_
    · simp [SessionSet.modify, SessionSet.emit, hj]
    · simp [SessionSet.modify, SessionSet.emit, hj]
    · have hnot : ∀ l : List (Nat × Nat),
          Hook.freecb j f v ∉ l.map fun x => Hook.freecb i x.1 x.2 := by simp [Ne.symm hj]
      simp [frees, SessionSet.modify, SessionSet.emit, List.count_eq_zero_of_not_mem (hnot _)]

private theorem given_session (i : Option SessionId) (s : SessionSet) :
    (given (i, s)).session = s.session ∧ (given (i, s)).hooks = s.hooks := by
  cases i <;> exact ⟨rfl, rfl⟩

private theorem effect_get (hs : Sound s) {uuid : Option Bytes} {timeout : Int}
    {news : List Bytes} {mem : Bool} {r : Except Errno SessionId × SessionSet}
    (h : afbSessionGet s uuid timeout news mem = some r) (j : SessionId) :
    Effect s op (given (r.1.toOption, r.2)) j := by
  have hclean := effect_cleanup hs.inv op false j
  have hcreated := (cleaned_cleanup hs.inv false).created
  suffices Effect s op r.2 j by
    obtain ⟨hsession, hhooks⟩ := given_session r.1.toOption r.2
    refine this.congr (by rw [hsession]) (by rw [hsession]) fun f v => ?_
    rw [frees, frees, hhooks]
  unfold afbSessionGet at h
  generalize sessionsetCleanup s false = u at hclean hcreated h
  cases uuid with
  | none =>
    obtain ⟨uuid, -, hr⟩ := Option.map_eq_some_iff.mp h
    split at hr
    · rename_i hok
      subst hr
      exact effect_add hs hclean hcreated hok
    · subst hr
      exact hclean
  | some uuid =>
    cases hfind : sessionsetSearch u uuid (pearson4 uuid) with
    | some i =>
      simp only [hfind, Option.some.injEq] at h
      subst h
      exact effect_addref hclean i
    | none =>
      simp only [hfind, Option.some.injEq] at h
      split at h
      · rename_i hok
        subst h
        exact effect_add hs hclean hcreated hok
      · subst h
        exact hclean

theorem step_effect (hs : Sound s) (h : step s op = some t) (j : SessionId) : Effect s op t j := by
  have hcreated : ∀ {i}, 0 < s.owned i → i < s.created := by
    intro i ho
    by_contra hc
    exact absurd (hs.inv.unowned i (Nat.le_of_not_lt hc)) (Nat.ne_of_gt ho)
  have hclean := effect_cleanup hs.inv op
  cases op with
  | init maxSessionCount timeout initok new =>
    cases h
    have hforce := hclean true j
    unfold afbSessionInit
    generalize sessionsetCleanup s true = u at hforce
    split
    · exact effect_refl s _ j
    · exact hforce.congr rfl rfl fun _ _ => rfl
  | get uuid timeout news mem =>
    obtain ⟨r, hr, rfl⟩ := Option.map_eq_some_iff.mp h
    exact effect_get hs hr j
  | search uuid =>
    cases h
    have hsweep := hclean false j
    unfold afbSessionSearch
    generalize sessionsetCleanup s false = u at hsweep
    dsimp only
    split
    · exact (effect_addref hsweep _).congr rfl rfl fun _ _ => rfl
    · exact hsweep
  | addref i =>
    obtain ⟨-, rfl⟩ := Option.ite_some_none_eq_some.mp h
    exact (effect_addref (effect_refl s _ j) i).congr rfl rfl fun _ _ => rfl
  | unref i =>
    obtain ⟨ho, rfl⟩ := Option.ite_some_none_eq_some.mp h
    exact (effect_unref (hcreated ho) _ j).congr rfl rfl fun _ _ => rfl
  | close i =>
    obtain ⟨ho, rfl⟩ := Option.ite_some_none_eq_some.mp h
    exact effect_close s _ (hcreated ho) j
  | setAutoclose i b =>
    obtain ⟨-, rfl⟩ := Option.ite_some_none_eq_some.mp h
    exact .kept (update_field s.session i j Session.closed rfl)
      (update_field s.session i j Session.cookies rfl) fun _ _ => rfl
  | newToken i new =>
    obtain ⟨-, rfl⟩ := Option.ite_some_none_eq_some.mp h
    refine .kept (update_field s.session i j Session.closed rfl)
      (update_field s.session i j Session.cookies rfl) fun f v => ?_
    simp [frees, afbSessionNewToken, SessionSet.emit, SessionSet.modify]
  | cookie i key makecb freecb closure replace mem =>
    obtain ⟨ho, rfl⟩ := Option.ite_some_none_eq_some.mp h
    exact effect_cookie (hcreated ho) key makecb freecb closure replace mem j
  | purge => exact Option.some.inj h ▸ hclean false j
  | tick seconds =>
    cases h
    exact .kept rfl rfl fun _ _ => rfl

theorem sound_start : Sound .start := ⟨inv_start, fun _ _ => ⟨rfl, rfl⟩⟩

private theorem given_created (i : Option SessionId) (s : SessionSet) :
    (given (i, s)).created = s.created := by
  cases i <;> rfl

private theorem add_created {uuid : Bytes} {timeout : Int} {idx : Fin 16} {mem : Bool}
    (h : sessionAdd s uuid timeout idx mem = .ok (i, t)) : s.created ≤ t.created := by
  obtain ⟨rfl, -, rfl⟩ := sessionAdd_ok h
  exact Nat.le_succ _

private theorem sessionClose_created (s : SessionSet) (i : SessionId) :
    (sessionClose s i).created = s.created := by
  unfold sessionClose
  split <;> rfl

private theorem unref_created (s : SessionSet) (i : SessionId) :
    (afbSessionUnref s i).created = s.created :=
  unref_keeps (P := fun u => u.created = s.created) rfl (fun u h => (sessionClose_created u i).trans h) fun _ h => h

private theorem get_created (hi : Inv s) {uuid : Option Bytes} {timeout : Int}
    {news : List Bytes} {mem : Bool} {r : Except Errno SessionId × SessionSet}
    (h : afbSessionGet s uuid timeout news mem = some r) : s.created ≤ r.2.created := by
  have hcreated := (cleaned_cleanup hi false).created
  unfold afbSessionGet at h
  generalize sessionsetCleanup s false = u at hcreated h
  rw [← hcreated]
  cases uuid with
  | none =>
    obtain ⟨uuid, -, hr⟩ := Option.map_eq_some_iff.mp h
    split at hr
    · rename_i hok
      subst hr
      exact add_created hok
    · subst hr
      exact Nat.le_refl _
  | some uuid =>
    dsimp only at h
    split at h
    · cases h
      exact Nat.le_refl _
    · split at h
      · rename_i hok
        cases h
        exact add_created hok
      · cases h
        exact Nat.le_refl _

/-- Addresses are not given twice. -/
theorem created_step (hi : Inv s) (h : step s op = some t) : s.created ≤ t.created := by
  have hclean : ∀ force, (sessionsetCleanup s force).created = s.created :=
    fun force => (cleaned_cleanup hi force).created
  cases op with
  | init maxSessionCount timeout initok new =>
    have hforce := hclean true
    rw [← Option.some.inj h]
    unfold afbSessionInit
    generalize sessionsetCleanup s true = u at hforce
    split
    · exact Nat.le_refl _
    · exact Nat.le_of_eq hforce.symm
  | get uuid timeout news mem =>
    obtain ⟨r, hr, rfl⟩ := Option.map_eq_some_iff.mp h
    rw [given_created]
    exact get_created hi hr
  | search uuid =>
    have hsweep := hclean false
    rw [← Option.some.inj h]
    unfold afbSessionSearch
    generalize sessionsetCleanup s false = u at hsweep
    dsimp only
    split <;> exact Nat.le_of_eq hsweep.symm
  | unref i =>
    obtain ⟨-, rfl⟩ := Option.ite_some_none_eq_some.mp h
    exact Nat.le_of_eq (unref_created s i).symm
  | close i =>
    obtain ⟨-, rfl⟩ := Option.ite_some_none_eq_some.mp h
    exact Nat.le_of_eq (sessionClose_created s i).symm
  | purge => exact Nat.le_of_eq ((hclean false).symm.trans (congrArg _ (Option.some.inj h)))
  | tick seconds =>
    cases h
    exact Nat.le_refl _
  | addref i | setAutoclose i b | newToken i new | cookie i =>
    obtain ⟨-, rfl⟩ := Option.ite_some_none_eq_some.mp h
    exact Nat.le_refl _

theorem sound_step (hs : Sound s) (h : step s op = some t) : Sound t := by
  refine ⟨inv_step hs.inv op h, fun j hj => ?_⟩
  have hold : s.created ≤ j := Nat.le_trans (created_step hs.inv h) hj
  obtain ⟨hclosed, hcookies⟩ := hs.blank j hold
  cases step_effect hs h j with
  | kept closed cookies => exact ⟨closed.trans hclosed, cookies.trans hcookies⟩
  | closed created => exact absurd created (Nat.not_lt.mpr hold)
  | cookie created => exact absurd created (Nat.not_lt.mpr hold)

theorem Later.refl (s : SessionSet) : Later s s := fun _ h => h

theorem Later.trans (h : Later s t) (h' : Later t u) : Later s u :=
  fun j hj => h' j (h j hj)

theorem Effect.later {j : SessionId} (h : Effect s op t j) (hj : (s.session j).closed = true) :
    (t.session j).closed = true := by
  cases h with
  | kept closed => exact closed.trans hj
  | closed _ _ closed => exact closed
  | cookie _ _ _ _ _ _ _ _ closed => exact closed.trans hj

theorem later_step (hs : Sound s) (h : step s op = some t) : Later s t :=
  fun j hj => (step_effect hs h j).later hj

end

end AfbBinder.Sessions
