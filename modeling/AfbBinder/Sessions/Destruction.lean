import AfbBinder.Sessions.Effects

/-! When a call destroys a session, told from the state before it. -/
namespace AfbBinder.Sessions
open Lib.Cstrings Lib.Runs Lib.Updates

def destroyed (s : SessionSet) (j : SessionId) : Prop := 0 < destroys s j

instance (s : SessionSet) (j : SessionId) : Decidable (destroyed s j) :=
  inferInstanceAs (Decidable (_ < _))

/-- The calls that clean the set, with the force of the cleanup. -/
def sweep : Op → Option Bool
  | .init _ _ initok _ => if initok.any fun t => SIZEUUID ≤ t.length then none else some true
  | .get .. | .search .. | .purge => some false
  | _ => none

/-- The call that destroys a session: the last unref when it is out of the set, or a cleanup
when it has no reference and is closed or due. -/
def Destroys (s : SessionSet) (op : Op) (j : SessionId) : Prop :=
  op = .unref j ∧ (s.session j).refcount = 1 ∧ (s.session j).notinset = true ∨
    ∃ force, sweep op = some force ∧ j ∈ linked s ∧ (s.session j).refcount = 0 ∧
      ((s.session j).closed = true ∨ force = true ∨ (s.session j).expiration < s.now)

/-- The record after the cleanup of the set. -/
def sweptSession (force : Bool) (s : SessionSet) (j : SessionId) : Session :=
  if j ∈ linked s then sweptRecord force s.now (s.session j) else s.session j

/-- A call that cleans the set does nothing more to the records that exist, but to give a
reference to one that is still linked. -/
structure SweptStep (force : Bool) (s t : SessionSet) : Prop where
  created : s.created ≤ t.created
  old : ∀ j < s.created, t.session j = sweptSession force s j ∨
    t.session j = { sweptSession force s j with
      refcount := (sweptSession force s j).refcount + 1 } ∧
      (sweptSession force s j).notinset = false
  new : ∀ j, s.created ≤ j → j < t.created → (t.session j).notinset = false

section
variable {s t u : SessionSet} {i j : SessionId} {op : Op} {force : Bool}
  {maxSessionCount timeout : Int} {initok : Option Bytes} {new : Bytes}

/-- The set as the cleanup leaves it. -/
private structure Clean (force : Bool) (s u : SessionSet) : Prop where
  inv : Inv u
  created : u.created = s.created
  session : ∀ j, u.session j = sweptSession force s j

private theorem clean_cleanup (hi : Inv s) (force : Bool) :
    Clean force s (sessionsetCleanup s force) :=
  ⟨inv_cleanup hi force, (cleaned_cleanup hi force).created, (cleaned_cleanup hi force).session⟩

private theorem Clean.refl (h : Clean force s u) (hc : t.created = u.created)
    (hu : t.session = u.session) : SweptStep force s t := by
  refine ⟨Nat.le_of_eq (hc.trans h.created).symm, fun j _ => .inl ?_, fun j hj hj' => ?_⟩
  · rw [hu, h.session]
  · rw [hc, h.created] at hj'
    exact absurd hj' (Nat.not_lt.mpr hj)

private theorem Clean.addref (h : Clean force s u) {idx : Fin 16} (hm : i ∈ u.heads idx) :
    SweptStep force s ((afbSessionAddref u i).own i) := by
  refine ⟨Nat.le_of_eq h.created.symm, fun j _ => ?_, fun j hj hj' => ?_⟩
  · by_cases hj : j = i
    · subst hj
      refine .inr ⟨?_, ?_⟩
      · rw [← h.session]
        exact Function.update_self j _ _
      · rw [← h.session, ← Bool.not_eq_true]
        exact fun hn => (h.inv.notinset j (h.inv.linkedCreated idx j hm)).mp hn idx hm
    · exact .inl ((Function.update_of_ne hj _ _).trans (h.session j))
  · exact absurd (Nat.lt_of_lt_of_eq hj' h.created) (Nat.not_lt.mpr hj)

private theorem Clean.add (h : Clean force s u) {uuid : Bytes} {timeout : Int} {idx : Fin 16}
    {mem : Bool} (hadd : sessionAdd u uuid timeout idx mem = .ok (i, t)) :
    SweptStep force s (t.own i) := by
  obtain ⟨rfl, -, rfl⟩ := sessionAdd_ok hadd
  refine ⟨?_, fun j hj => .inl ?_, fun j hj hj' => ?_⟩
  · exact Nat.le_trans (Nat.le_of_eq h.created.symm) (Nat.le_succ _)
  · have hne : j ≠ u.created := Nat.ne_of_lt (h.created ▸ hj)
    exact (Function.update_of_ne hne _ _).trans (h.session j)
  · have he : j = u.created := Nat.le_antisymm (Nat.le_of_lt_succ hj') (h.created ▸ hj)
    subst he
    simp [SessionSet.own, sessionUpdateExpiration, calloc]

private theorem sweptStep_get (hi : Inv s) {uuid : Option Bytes} {timeout : Int}
    {news : List Bytes} {mem : Bool} {r : Except Errno SessionId × SessionSet}
    (h : afbSessionGet s uuid timeout news mem = some r) :
    SweptStep false s (given (r.1.toOption, r.2)) := by
  have hclean := clean_cleanup hi false
  unfold afbSessionGet at h
  generalize sessionsetCleanup s false = u at hclean h
  cases uuid with
  | none =>
    obtain ⟨uuid, -, hr⟩ := Option.map_eq_some_iff.mp h
    split at hr
    · rename_i hok
      subst hr
      exact hclean.add hok
    · subst hr
      exact hclean.refl rfl rfl
  | some uuid =>
    cases hfind : sessionsetSearch u uuid (pearson4 uuid) with
    | some i =>
      simp only [hfind, Option.some.injEq] at h
      subst h
      exact hclean.addref (search_mem hfind)
    | none =>
      simp only [hfind, Option.some.injEq] at h
      split at h
      · rename_i hok
        subst h
        exact hclean.add hok
      · subst h
        exact hclean.refl rfl rfl

private theorem sweptStep (hi : Inv s) (hf : sweep op = some force) (h : step s op = some t) :
    SweptStep force s t := by
  have hclean := clean_cleanup hi
  cases op with
  | init maxSessionCount timeout initok new =>
    have hok : ¬ (initok.any fun t => decide (SIZEUUID ≤ t.length)) = true := by
      intro hlong
      simp [sweep, hlong] at hf
    have hforce : force = true := by simpa [sweep, hok] using hf.symm
    have htrue := hclean true
    subst hforce
    rw [← Option.some.inj h, afbSessionInit, if_neg hok]
    generalize sessionsetCleanup s true = u at htrue
    exact htrue.refl rfl rfl
  | get uuid timeout news mem =>
    cases hf
    obtain ⟨r, hr, rfl⟩ := Option.map_eq_some_iff.mp h
    exact sweptStep_get hi hr
  | search uuid =>
    cases hf
    have hfalse := hclean false
    rw [← Option.some.inj h]
    unfold afbSessionSearch
    generalize sessionsetCleanup s false = u at hfalse
    dsimp only
    split
    · rename_i i hfind
      exact hfalse.addref (search_mem hfind)
    · exact hfalse.refl rfl rfl
  | purge =>
    cases hf
    have hfalse := hclean false
    rw [← Option.some.inj h]
    unfold afbSessionPurge
    generalize sessionsetCleanup s false = u at hfalse
    exact hfalse.refl rfl rfl
  | _ => cases hf

/-- The other calls: the references of one session at most. -/
structure QuietStep (s : SessionSet) (op : Op) (t : SessionSet) (j : SessionId) : Prop where
  created : t.created = s.created
  notinset : (t.session j).notinset = (s.session j).notinset
  refcount : op ≠ .unref j ∧ (t.session j).refcount = (s.session j).refcount ∨
    0 < s.owned j ∧ (op = .addref j ∧ (t.session j).refcount = (s.session j).refcount + 1 ∨
      op = .unref j ∧ (t.session j).refcount = (s.session j).refcount - 1)

private theorem quiet_init (hf : sweep (.init maxSessionCount timeout initok new) = none)
    (s : SessionSet) : afbSessionInit s maxSessionCount timeout initok new = .error .einval := by
  rw [sweep] at hf
  split at hf
  · rename_i hlong
    rw [afbSessionInit, if_pos hlong]
  · cases hf

private theorem sessionClose_life (s : SessionSet) (i j : SessionId) :
    (sessionClose s i).created = s.created ∧
      ((sessionClose s i).session j).notinset = (s.session j).notinset ∧
      ((sessionClose s i).session j).refcount = (s.session j).refcount := by
  unfold sessionClose
  split
  · exact ⟨rfl, rfl, rfl⟩
  · exact ⟨rfl, update_field s.session i j Session.notinset rfl,
      update_field s.session i j Session.refcount rfl⟩

private theorem unref_life (s : SessionSet) (i j : SessionId) :
    (afbSessionUnref s i).created = s.created ∧
      ((afbSessionUnref s i).session j).notinset = (s.session j).notinset ∧
      ((afbSessionUnref s i).session j).refcount =
        if j = i then (s.session j).refcount - 1 else (s.session j).refcount := by
  refine unref_keeps (P := fun u => u.created = s.created ∧ (u.session j).notinset = (s.session j).notinset ∧
    (u.session j).refcount = if j = i then (s.session j).refcount - 1 else (s.session j).refcount) ?_ ?_ ?_
  · refine ⟨rfl, update_field s.session i j Session.notinset rfl, ?_⟩
    by_cases hj : j = i
    · subst hj
      simp [SessionSet.modify, SessionSet.emit]
    · simp [SessionSet.modify, SessionSet.emit, hj]
  · rintro u ⟨hc, hn, hr⟩
    obtain ⟨hc', hn', hr'⟩ := sessionClose_life u i j
    exact ⟨hc'.trans hc, hn'.trans hn, hr'.trans hr⟩
  · exact fun _ h => h

private theorem quietStep (hf : sweep op = none) (h : step s op = some t) (j : SessionId) :
    QuietStep s op t j := by
  cases op with
  | init maxSessionCount timeout initok new =>
    rw [step, quiet_init hf] at h
    cases h
    exact ⟨rfl, rfl, .inl ⟨by simp, rfl⟩⟩
  | get | search | purge => cases hf
  | addref i =>
    obtain ⟨ho, rfl⟩ := Option.ite_some_none_eq_some.mp h
    refine ⟨rfl, update_field s.session i j Session.notinset rfl, ?_⟩
    by_cases hj : j = i
    · subst hj
      refine .inr ⟨ho, .inl ⟨rfl, ?_⟩⟩
      simp [SessionSet.own, afbSessionAddref, SessionSet.modify, SessionSet.emit]
    · exact .inl ⟨by simp, congrArg Session.refcount (Function.update_of_ne hj _ _)⟩
  | unref i =>
    obtain ⟨ho, rfl⟩ := Option.ite_some_none_eq_some.mp h
    obtain ⟨hc, hn, hr⟩ := unref_life s i j
    refine ⟨hc, hn, ?_⟩
    by_cases hj : j = i
    · subst hj
      exact .inr ⟨ho, .inr ⟨rfl, hr.trans (if_pos rfl)⟩⟩
    · exact .inl ⟨by simpa using Ne.symm hj, hr.trans (if_neg hj)⟩
  | close i =>
    obtain ⟨-, rfl⟩ := Option.ite_some_none_eq_some.mp h
    obtain ⟨hc, hn, hr⟩ := sessionClose_life s i j
    exact ⟨hc, hn, .inl ⟨by simp, hr⟩⟩
  | setAutoclose i b =>
    obtain ⟨-, rfl⟩ := Option.ite_some_none_eq_some.mp h
    exact ⟨rfl, update_field s.session i j Session.notinset rfl,
      .inl ⟨by simp, update_field s.session i j Session.refcount rfl⟩⟩
  | newToken i new =>
    obtain ⟨-, rfl⟩ := Option.ite_some_none_eq_some.mp h
    exact ⟨rfl, update_field s.session i j Session.notinset rfl,
      .inl ⟨by simp, update_field s.session i j Session.refcount rfl⟩⟩
  | cookie i key makecb freecb closure replace mem =>
    obtain ⟨-, rfl⟩ := Option.ite_some_none_eq_some.mp h
    exact ⟨rfl, update_field s.session i j Session.notinset rfl,
      .inl ⟨by simp, update_field s.session i j Session.refcount rfl⟩⟩
  | tick seconds =>
    cases h
    exact ⟨rfl, rfl, .inl ⟨by simp, rfl⟩⟩

theorem owned_created (hi : Inv s) (ho : 0 < s.owned j) : j < s.created := by
  by_contra hc
  exact absurd (hi.unowned j (Nat.le_of_not_lt hc)) (Nat.ne_of_gt ho)

private theorem linked_created (hi : Inv s) (hm : j ∈ linked s) : j < s.created := by
  obtain ⟨idx, hm⟩ := mem_linked.mp hm
  exact hi.linkedCreated idx j hm

theorem destroyed_iff (hi : Inv s) (j : SessionId) :
    destroyed s j ↔
      j < s.created ∧ (s.session j).refcount = 0 ∧ (s.session j).notinset = true := by
  rw [destroyed, hi.destroyed]
  split
  · exact iff_of_true Nat.one_pos ‹_›
  · exact iff_of_false (Nat.lt_irrefl 0) ‹_›

private theorem dueRecord_closed (now : Nat) (x : Session) :
    (dueRecord force now x).closed = true ↔
      x.closed = true ∨ force = true ∨ x.expiration < now := by
  unfold dueRecord closeRecord
  split
  · rename_i hdue
    split
    · rename_i hclosed
      exact iff_of_true hclosed (.inl hclosed)
    · exact iff_of_true rfl (.inr hdue)
  · rename_i hdue
    exact ⟨.inl, fun h => h.resolve_right hdue⟩

private theorem dueRecord_rest (now : Nat) (x : Session) :
    (dueRecord force now x).refcount = x.refcount ∧
      (dueRecord force now x).notinset = x.notinset := by
  unfold dueRecord closeRecord
  split
  · split <;> exact ⟨rfl, rfl⟩
  · exact ⟨rfl, rfl⟩

private theorem sweptRecord_refcount (now : Nat) (x : Session) :
    (sweptRecord force now x).refcount = x.refcount := by
  rw [sweptRecord]
  split <;> exact (dueRecord_rest now x).1

private theorem sweptRecord_notinset (now : Nat) (x : Session) :
    (sweptRecord force now x).notinset = true ↔
      x.notinset = true ∨ (sweptRecord force now x).closed = true := by
  rw [closed_sweptRecord, sweptRecord]
  split
  · rename_i hclosed
    exact iff_of_true rfl (.inr hclosed)
  · rename_i hclosed
    rw [(dueRecord_rest now x).2]
    exact ⟨.inl, fun h => h.resolve_right hclosed⟩

/-- The sessions destroyed after a call. -/
theorem destroyed_step (hs : Sound s) (h : step s op = some t) (j : SessionId) :
    destroyed t j ↔ destroyed s j ∨ Destroys s op j := by
  have ht := inv_step hs.inv op h
  rw [destroyed_iff ht, destroyed_iff hs.inv]
  cases hf : sweep op with
  | none =>
    obtain ⟨hcreated, hnotinset, hrefcount⟩ := quietStep hf h j
    rw [hcreated, hnotinset]
    have hdes : Destroys s op j ↔
        op = .unref j ∧ (s.session j).refcount = 1 ∧ (s.session j).notinset = true := by
      simp [Destroys, hf]
    rw [hdes]
    rcases hrefcount with ⟨hop, hsame⟩ | ⟨ho, ⟨rfl, hadd⟩ | ⟨rfl, hsub⟩⟩
    · rw [hsame]
      exact ⟨.inl, fun hd => hd.resolve_right fun hu => hop hu.1⟩
    · have hr := hs.inv.owned j (owned_created hs.inv ho)
      refine iff_of_false (by omega) ?_
      rintro (hd | ⟨hop, -⟩)
      · omega
      · cases hop
    · have hc := owned_created hs.inv ho
      have hr := hs.inv.owned j hc
      rw [hsub]
      simp only [hc, true_and]
      constructor
      · rintro ⟨hz, hn⟩
        exact .inr ⟨by omega, hn⟩
      · rintro (⟨hz, -⟩ | ⟨hone, hn⟩)
        · omega
        · exact ⟨by omega, hn⟩
  | some force =>
    have hsweep := sweptStep hs.inv hf h
    have hdes : Destroys s op j ↔ j ∈ linked s ∧ (s.session j).refcount = 0 ∧
        ((s.session j).closed = true ∨ force = true ∨ (s.session j).expiration < s.now) := by
      have hop : op ≠ .unref j := by
        rintro rfl
        cases hf
      simp [Destroys, hf, hop]
    rw [hdes]
    by_cases hc : j < s.created
    swap
    · have hout : j ∉ linked s := fun hm => hc (linked_created hs.inv hm)
      refine iff_of_false ?_ ?_
      · rintro ⟨hj, -, hn⟩
        rw [hsweep.new j (Nat.le_of_not_lt hc) hj] at hn
        cases hn
      · rintro (hd | hd)
        · exact hc hd.1
        · exact hout hd.1
    have hc' : j < t.created := Nat.lt_of_lt_of_le hc hsweep.created
    simp only [hc, hc', true_and]
    have hswept : (t.session j).refcount = 0 ∧ (t.session j).notinset = true ↔
        (sweptSession force s j).refcount = 0 ∧ (sweptSession force s j).notinset = true := by
      rcases hsweep.old j hc with he | ⟨he, hn⟩
      · rw [he]
      · rw [he, hn]
        simp
    rw [hswept, sweptSession]
    by_cases hm : j ∈ linked s
    · have hn : ¬ (s.session j).notinset = true := by
        obtain ⟨idx, hm⟩ := mem_linked.mp hm
        exact fun hn => (hs.inv.notinset j hc).mp hn idx hm
      rw [if_pos hm, sweptRecord_refcount, sweptRecord_notinset, closed_sweptRecord,
        dueRecord_closed]
      simp [hm, hn]
    · rw [if_neg hm]
      simp [hm]

/-- A reference is only lost by the unref of its owner. -/
theorem owned_step (hs : Sound s) (h : step s op = some t) (ho : 0 < s.owned j)
    (hop : op = .unref j → 1 < s.owned j) : 0 < t.owned j := by
  have hc := owned_created hs.inv ho
  have hr := hs.inv.owned j hc
  have ht := inv_step hs.inv op h
  cases hf : sweep op with
  | none =>
    obtain ⟨hcreated, -, hrefcount⟩ := quietStep hf h j
    have hr' := ht.owned j (hcreated ▸ hc)
    rcases hrefcount with ⟨-, hsame⟩ | ⟨-, ⟨-, hadd⟩ | ⟨hunref, hsub⟩⟩
    · omega
    · omega
    · have := hop hunref
      omega
  | some force =>
    have hsweep := sweptStep hs.inv hf h
    have hr' := ht.owned j (Nat.lt_of_lt_of_le hc hsweep.created)
    have hswept : (sweptSession force s j).refcount = (s.session j).refcount := by
      rw [sweptSession]
      split
      · exact sweptRecord_refcount s.now _
      · rfl
    rcases hsweep.old j hc with he | ⟨he, -⟩
    · rw [he] at hr'
      omega
    · rw [he] at hr'
      dsimp only at hr'
      omega

/-- What has left the set is closed. -/
def Shut (s : SessionSet) : Prop :=
  ∀ j < s.created, (s.session j).notinset = true → (s.session j).closed = true

theorem shut_step (hs : Sound s) (hshut : Shut s) (h : step s op = some t) : Shut t := by
  intro j hj hn
  cases hf : sweep op with
  | none =>
    obtain ⟨hcreated, hnotinset, -⟩ := quietStep hf h j
    exact later_step hs h j (hshut j (hcreated ▸ hj) (hnotinset ▸ hn))
  | some force =>
    have hsweep := sweptStep hs.inv hf h
    by_cases hc : j < s.created
    swap
    · rw [hsweep.new j (Nat.le_of_not_lt hc) hj] at hn
      cases hn
    rcases hsweep.old j hc with he | ⟨he, hnot⟩
    swap
    · rw [he, hnot] at hn
      cases hn
    by_cases hold : (s.session j).notinset = true
    · exact later_step hs h j (hshut j hc hold)
    rw [he, sweptSession] at hn ⊢
    split at hn
    · rename_i hm
      rw [if_pos hm]
      exact ((sweptRecord_notinset _ _).mp hn).resolve_left hold
    · exact absurd hn hold

end

end AfbBinder.Sessions
