import AfbBinder.Sessions.Lifecycle

/-! What the cleanup of the set does to each record, and the values it releases. -/
namespace AfbBinder.Sessions
open Lib.Cstrings

/-- session_close on the record. -/
def closeRecord (x : Session) : Session :=
  if x.closed then x else { x with closed := true, cookies := fun _ => [] }

def Closes (force : Bool) (now : Nat) (x : Session) : Prop :=
  x.closed = false ∧ (force = true ∨ x.expiration < now)

instance (force : Bool) (now : Nat) (x : Session) : Decidable (Closes force now x) :=
  inferInstanceAs (Decidable (_ ∧ _))

/-- The cleanup on the record of a linked session: it is closed when it is due, and out of
the set when it is closed. -/
def dueRecord (force : Bool) (now : Nat) (x : Session) : Session :=
  if force ∨ x.expiration < now then closeRecord x else x

def sweptRecord (force : Bool) (now : Nat) (x : Session) : Session :=
  let x := dueRecord force now x
  if x.closed then { x with notinset := true } else x

/-- The calls of a releasing function with a value. -/
def frees (s : SessionSet) (i : SessionId) (f v : Nat) : Nat := s.hooks.count (.freecb i f v)

/-- The set after the cleanup of the sessions of the list. -/
structure Cleaned (force : Bool) (l : List SessionId) (s t : SessionSet) : Prop where
  now : t.now = s.now
  created : t.created = s.created
  timeout : t.timeout = s.timeout
  session : ∀ j, t.session j = if j ∈ l then sweptRecord force s.now (s.session j) else s.session j
  frees : ∀ j f v, frees t j f v = frees s j f v +
    if j ∈ l ∧ Closes force s.now (s.session j) then (releases j (s.session j)).count (.freecb j f v)
    else 0

section
variable {s t u : SessionSet} {i : SessionId} {force : Bool} {l m : List SessionId}

theorem sessionClose_session (s : SessionSet) (i : SessionId) :
    (sessionClose s i).session = Function.update s.session i (closeRecord (s.session i)) := by
  unfold sessionClose closeRecord
  split
  · exact (Function.update_eq_self i _).symm
  · rfl

private theorem releases_other {x : Session} {j f v : Nat} (hj : j ≠ i) :
    (releases i x).count (.freecb j f v) = 0 := by
  rw [List.count_eq_zero]
  simp [releases, Ne.symm hj]

theorem sessionClose_frees (s : SessionSet) (i j f v : Nat) :
    frees (sessionClose s i) j f v = frees s j f v +
      if j = i ∧ (s.session i).closed = false then (releases i (s.session i)).count (.freecb j f v)
      else 0 := by
  unfold sessionClose frees
  by_cases hc : (s.session i).closed = true
  · simp [hc]
  · by_cases hj : j = i
    · subst hj
      simp [hc, SessionSet.modify, SessionSet.emit]
    · simp [hc, hj, SessionSet.modify, SessionSet.emit, releases_other hj]

private theorem cleanupOut_frees (s : SessionSet) (i j f v : Nat) :
    frees (cleanupOut s i) j f v = frees s j f v := by
  unfold cleanupOut frees
  dsimp only
  split
  · simp [sessionDestroy, SessionSet.emit, SessionSet.modify]
  · rfl

private theorem Cleaned.nil (s : SessionSet) : Cleaned force [] s s :=
  ⟨rfl, rfl, rfl, fun j => by simp, fun j f v => by simp⟩

/-- Two cleanups of different sessions. -/
theorem Cleaned.append (h : Cleaned force l s t) (h' : Cleaned force m t u)
    (hd : ∀ j ∈ l, j ∉ m) : Cleaned force (l ++ m) s u := by
  refine ⟨h'.now.trans h.now, h'.created.trans h.created, h'.timeout.trans h.timeout, fun j => ?_,
    fun j f v => ?_⟩
  · rw [h'.session, h.now, h.session]
    by_cases hl : j ∈ l
    · simp [hl, hd j hl]
    · simp [hl]
  · rw [h'.frees, h.frees, h.now, h.session]
    by_cases hl : j ∈ l
    · simp [hl, hd j hl]
    · simp [hl]

theorem closed_sweptRecord (now : Nat) (x : Session) :
    (sweptRecord force now x).closed = (dueRecord force now x).closed := by
  rw [sweptRecord]
  split <;> rfl

/-- One turn of the loop over a head: the close, then the exit of the set. -/
private def closeDue (force : Bool) (s : SessionSet) (i : SessionId) : SessionSet :=
  if force ∨ (s.session i).expiration < s.now then sessionClose s i else s

private def sweepOne (force : Bool) (s : SessionSet) (i : SessionId) : SessionSet :=
  if ((closeDue force s i).session i).closed then cleanupOut (closeDue force s i) i
  else closeDue force s i

private theorem closeDue_session (s : SessionSet) (i : SessionId) :
    (closeDue force s i).session =
      Function.update s.session i (dueRecord force s.now (s.session i)) := by
  unfold closeDue dueRecord
  split
  · exact sessionClose_session s i
  · exact (Function.update_eq_self i _).symm

private theorem closeDue_rest (force : Bool) (s : SessionSet) (i : SessionId) :
    (closeDue force s i).now = s.now ∧ (closeDue force s i).created = s.created ∧
      (closeDue force s i).timeout = s.timeout ∧ (closeDue force s i).heads = s.heads := by
  unfold closeDue sessionClose
  split
  · split <;> exact ⟨rfl, rfl, rfl, rfl⟩
  · exact ⟨rfl, rfl, rfl, rfl⟩

private theorem closeDue_frees (s : SessionSet) (i j f v : Nat) :
    frees (closeDue force s i) j f v = frees s j f v +
      if j = i ∧ Closes force s.now (s.session j) then
        (releases j (s.session j)).count (.freecb j f v)
      else 0 := by
  unfold closeDue Closes
  split
  · rename_i hdue
    rw [sessionClose_frees]
    by_cases hj : j = i
    · subst hj
      simp [hdue]
    · simp [hj]
  · rename_i hdue
    have : ¬ (j = i ∧ (s.session j).closed = false ∧
        (force = true ∨ (s.session j).expiration < s.now)) := fun h => hdue (h.1 ▸ h.2.2)
    rw [if_neg this, Nat.add_zero]

private theorem cleanupOut_rest (s : SessionSet) (i : SessionId) :
    (cleanupOut s i).now = s.now ∧ (cleanupOut s i).created = s.created ∧
      (cleanupOut s i).timeout = s.timeout ∧ (cleanupOut s i).heads = s.heads := by
  unfold cleanupOut
  dsimp only
  split <;> exact ⟨rfl, rfl, rfl, rfl⟩

private theorem cleaned_sweepOne (force : Bool) (s : SessionSet) (i : SessionId) :
    Cleaned force [i] s (sweepOne force s i) ∧ (sweepOne force s i).heads = s.heads := by
  have hself : (closeDue force s i).session i = dueRecord force s.now (s.session i) := by
    rw [closeDue_session, Function.update_self]
  obtain ⟨hn, hc, ht, hh⟩ := closeDue_rest force s i
  have hsession : (sweepOne force s i).session =
      Function.update s.session i (sweptRecord force s.now (s.session i)) := by
    unfold sweepOne sweptRecord
    dsimp only
    rw [hself]
    split
    · rw [cleanupOut_session, hself, closeDue_session, Function.update_idem]
    · exact closeDue_session s i
  have hfrees : ∀ j f v, frees (sweepOne force s i) j f v = frees (closeDue force s i) j f v := by
    intro j f v
    unfold sweepOne
    split
    · exact cleanupOut_frees _ i j f v
    · rfl
  have hrest : (sweepOne force s i).now = s.now ∧ (sweepOne force s i).created = s.created ∧
      (sweepOne force s i).timeout = s.timeout ∧ (sweepOne force s i).heads = s.heads := by
    unfold sweepOne
    split
    · obtain ⟨hn', hc', ht', hh'⟩ := cleanupOut_rest (closeDue force s i) i
      exact ⟨hn'.trans hn, hc'.trans hc, ht'.trans ht, hh'.trans hh⟩
    · exact ⟨hn, hc, ht, hh⟩
  refine ⟨⟨hrest.1, hrest.2.1, hrest.2.2.1, fun j => ?_, fun j f v => ?_⟩, hrest.2.2.2⟩
  · rw [hsession]
    by_cases hj : j = i
    · subst hj
      simp
    · simp [hj]
  · rw [hfrees, closeDue_frees]
    simp only [List.mem_singleton]

private theorem cleanupHead_cons (s : SessionSet) (i : SessionId) (l : List SessionId) :
    cleanupHead force (i :: l) s =
      ((if (sweptRecord force s.now (s.session i)).closed then [] else [i]) ++
          (cleanupHead force l (sweepOne force s i)).1,
        (cleanupHead force l (sweepOne force s i)).2) := by
  have hself : (closeDue force s i).session i = dueRecord force s.now (s.session i) := by
    rw [closeDue_session, Function.update_self]
  rw [cleanupHead]
  change (if ((closeDue force s i).session i).closed then
      cleanupHead force l (cleanupOut (closeDue force s i) i)
    else (i :: (cleanupHead force l (closeDue force s i)).1,
      (cleanupHead force l (closeDue force s i)).2)) = _
  rw [closed_sweptRecord, sweepOne, hself]
  split <;> rfl

/-- The loop over one head. -/
theorem cleaned_cleanupHead (force : Bool) (l : List SessionId) (hl : l.Nodup)
    (s : SessionSet) :
    Cleaned force l s (cleanupHead force l s).2 ∧ (cleanupHead force l s).2.heads = s.heads ∧
      (cleanupHead force l s).1 =
        l.filter fun j => !(sweptRecord force s.now (s.session j)).closed := by
  induction l generalizing s with
  | nil => exact ⟨.nil s, rfl, rfl⟩
  | cons i l ih =>
    obtain ⟨hi, hl⟩ := List.nodup_cons.mp hl
    obtain ⟨hone, hheads⟩ := cleaned_sweepOne force s i
    obtain ⟨hrest, hheads', hkept⟩ := ih hl (sweepOne force s i)
    have hsame : ∀ j ∈ l, (sweepOne force s i).session j = s.session j := by
      intro j hj
      have hne : j ∉ [i] := fun hm => hi ((List.mem_singleton.mp hm) ▸ hj)
      rw [hone.session, if_neg hne]
    rw [cleanupHead_cons]
    refine ⟨hone.append hrest (fun j hj => List.mem_singleton.mp hj ▸ hi), hheads'.trans hheads, ?_⟩
    rw [hkept, hone.now, List.filter_cons]
    have hfilter : (l.filter fun j => !(sweptRecord force s.now
        ((sweepOne force s i).session j)).closed) =
        l.filter fun j => !(sweptRecord force s.now (s.session j)).closed :=
      List.filter_congr fun j hj => by rw [hsame j hj]
    rw [hfilter]
    cases (sweptRecord force s.now (s.session i)).closed <;> rfl

/-- The loop over the heads: the sessions of one are not in another. -/
theorem cleaned_heads (idxs : List (Fin 16)) (s : SessionSet)
    (hl : (idxs.flatMap s.heads).Nodup) (hidx : idxs.Nodup) :
    Cleaned force (idxs.flatMap s.heads) s (idxs.foldl (cleanupIdx force) s) ∧
      ∀ h, (idxs.foldl (cleanupIdx force) s).heads h =
        if h ∈ idxs then
          (s.heads h).filter fun j => !(sweptRecord force s.now (s.session j)).closed
        else s.heads h := by
  induction idxs generalizing s with
  | nil => exact ⟨.nil s, fun h => by simp⟩
  | cons idx idxs ih =>
    rw [List.flatMap_cons, List.nodup_append] at hl
    obtain ⟨hhead, hrest, hapart⟩ := hl
    obtain ⟨hnew, hidx⟩ := List.nodup_cons.mp hidx
    obtain ⟨hone, hheads, hkept⟩ := cleaned_cleanupHead force _ hhead s
    have hidxHeads : ∀ h, h ≠ idx → (cleanupIdx force s idx).heads h = s.heads h := by
      intro h hne
      simp only [cleanupIdx]
      rw [Function.update_of_ne hne, hheads]
    -- the other heads are not changed, nor are the sessions that they link
    have hflat : idxs.flatMap (cleanupIdx force s idx).heads = idxs.flatMap s.heads :=
      List.flatMap_congr fun h hm => hidxHeads h fun he => hnew (he ▸ hm)
    have hsame : ∀ h ∈ idxs, ∀ j ∈ s.heads h,
        (cleanupIdx force s idx).session j = s.session j := by
      intro h hm j hj
      have hnot : j ∉ s.heads idx := fun hin =>
        hapart j hin j (List.mem_flatMap.mpr ⟨h, hm, hj⟩) rfl
      exact (hone.session j).trans (if_neg hnot)
    obtain ⟨hall, hfinal⟩ := ih (cleanupIdx force s idx) (hflat ▸ hrest) hidx
    rw [hflat] at hall
    have hone' : Cleaned force (s.heads idx) s (cleanupIdx force s idx) :=
      ⟨hone.now, hone.created, hone.timeout, hone.session, hone.frees⟩
    refine ⟨?_, fun h => ?_⟩
    · rw [List.flatMap_cons]
      exact hone'.append hall fun j hj hm => hapart j hj j hm rfl
    · rw [List.foldl_cons, hfinal, hone'.now]
      by_cases hm : h ∈ idxs
      · have hne : h ≠ idx := fun he => hnew (he ▸ hm)
        rw [if_pos hm, if_pos (List.mem_cons_of_mem _ hm), hidxHeads h hne]
        exact List.filter_congr fun j hj => by rw [hsame h hm j hj]
      · rw [if_neg hm]
        by_cases he : h = idx
        · subst he
          rw [if_pos List.mem_cons_self]
          simp only [cleanupIdx, Function.update_self]
          exact hkept
        · rw [hidxHeads h he, if_neg]
          simp [he, hm]

/-- The cleanup sweeps every linked session, and only these. -/
theorem cleaned_cleanup (hi : Inv s) (force : Bool) :
    Cleaned force (linked s) s (sessionsetCleanup s force) :=
  (cleaned_heads _ s (nodup_linked hi) (List.nodup_finRange 16)).1

theorem cleanup_heads (hi : Inv s) (force : Bool) (h : Fin 16) :
    (sessionsetCleanup s force).heads h =
      (s.heads h).filter fun j => !(sweptRecord force s.now (s.session j)).closed := by
  rw [sessionsetCleanup, (cleaned_heads _ s (nodup_linked hi) (List.nodup_finRange 16)).2,
    if_pos (List.mem_finRange h)]

end

end AfbBinder.Sessions
