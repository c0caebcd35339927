import Mathlib.Data.List.Nodup
import AfbBinder.Lib.Runs
import AfbBinder.Lib.Updates
import AfbBinder.Events.Model

/-! The ids of events: until its counter wraps the ids are the ones not given yet, and then each
is searched among the ids that no event alive has. -/
namespace AfbBinder.Events
open Lib.Cstrings Lib.Runs Lib.Updates
variable {J : Type}

/-- What the counter becomes. -/
def idAfter (counter : Int) : Int := if 2 ^ 31 ≤ counter + 1 then 1024 else counter + 1

/-- The values of the counter from the first one after it on. -/
def idAt (counter : Int) (i : Nat) : Int :=
  if counter + i + 1 < 2 ^ 31 then counter + i + 1 else counter + i + 1 - 2 ^ 31 + 1024

section search
variable {ids : List Int} {counter id : Int} {wrapped wrapped' : Bool}

private theorem nextEventId_succ (ids : List Int) (fuel : Nat) (counter : Int) (wrapped : Bool) :
    nextEventId ids (fuel + 1) counter wrapped =
      if (wrapped || decide (2 ^ 31 ≤ counter + 1)) = true ∧ idAfter counter ∈ ids then
        nextEventId ids fuel (idAfter counter) (wrapped || decide (2 ^ 31 ≤ counter + 1))
      else some (idAfter counter, wrapped || decide (2 ^ 31 ≤ counter + 1)) := rfl

private theorem nextEventId_fresh (fuel : Nat) (counter : Int) (wrapped : Bool)
    (h : nextEventId ids fuel counter wrapped = some (id, wrapped')) :
    (wrapped' = true ∧ id ∉ ids) ∨ (wrapped' = false ∧ wrapped = false ∧ id = counter + 1) := by
  induction fuel generalizing counter wrapped with
  | zero => cases h
  | succ fuel ih =>
    rw [nextEventId_succ] at h
    split at h
    · rename_i hused
      rcases ih _ _ h with hfresh | ⟨-, hfalse, -⟩
      · exact .inl hfresh
      · exact absurd (hused.1.symm.trans hfalse) Bool.true_eq_false.mp
    · rename_i hfree
      rw [Option.some.injEq, Prod.mk.injEq] at h
      obtain ⟨rfl, rfl⟩ := h
      by_cases hw : (wrapped || decide (2 ^ 31 ≤ counter + 1)) = true
      · exact .inl ⟨hw, fun hm => hfree ⟨hw, hm⟩⟩
      · rw [Bool.not_eq_true] at hw
        obtain ⟨hold, hbelow⟩ := Bool.or_eq_false_iff.mp hw
        exact .inr ⟨hw, hold, if_neg (of_decide_eq_false hbelow)⟩

/-- An int that is positive. -/
def Positive (id : Int) : Prop := 0 < id ∧ id < 2 ^ 31

private theorem idAfter_positive (h : 0 ≤ counter) : Positive (idAfter counter) := by
  unfold idAfter Positive
  split <;> omega

private theorem nextEventId_positive (fuel : Nat) (h : 0 ≤ counter)
    (hid : nextEventId ids fuel counter wrapped = some (id, wrapped')) : Positive id := by
  induction fuel generalizing counter wrapped with
  | zero => cases hid
  | succ fuel ih =>
    rw [nextEventId_succ] at hid
    split at hid
    · exact ih (Int.le_of_lt (idAfter_positive h).1) hid
    · cases hid
      exact idAfter_positive h

private theorem idAt_injective {i j : Nat} (hi : i < 2 ^ 31 - 1024) (hj : j < 2 ^ 31 - 1024)
    (h : idAt counter i = idAt counter j) : i = j := by
  unfold idAt at h
  split at h <;> split at h <;> omega

private theorem idAt_succ (i : Nat) (hc : 0 ≤ counter ∧ counter < 2 ^ 31) (hi : i + 1 < 2 ^ 31 - 1024) :
    idAt (idAfter counter) i = idAt counter (i + 1) := by
  unfold idAt idAfter
  split <;> split <;> split <;> omega

/-- A search that does not end has seen the values one after the other. -/
theorem nextEventId_none (fuel : Nat) (hc : 0 ≤ counter ∧ counter < 2 ^ 31)
    (hfuel : fuel ≤ 2 ^ 31 - 1024) (h : nextEventId ids fuel counter wrapped = none) :
    ∀ i < fuel, idAt counter i ∈ ids := by
  induction fuel generalizing counter wrapped with
  | zero => exact fun i hi => absurd hi (Nat.not_lt_zero i)
  | succ fuel ih =>
    rw [nextEventId_succ] at h
    split at h
    · rename_i hused
      have hafter := idAfter_positive hc.1
      have hrest := ih ⟨Int.le_of_lt hafter.1, hafter.2⟩ (Nat.le_of_succ_le hfuel) h
      intro i hi
      cases i with
      | zero =>
        have hfirst : idAt counter 0 = idAfter counter := by
          unfold idAt idAfter
          split <;> split <;> omega
        rw [hfirst]
        exact hused.2
      | succ i =>
        rw [← idAt_succ i hc (Nat.lt_of_lt_of_le hi hfuel)]
        exact hrest i (Nat.lt_of_succ_lt_succ hi)
    · cases h

/-- With fewer ids than values from 1024 on, the search ends. -/
theorem nextEventId_some (hc : 0 ≤ counter ∧ counter < 2 ^ 31) (hids : ids.length < 2 ^ 31 - 1024)
    (wrapped : Bool) : ∃ r, nextEventId ids (ids.length + 1) counter wrapped = some r := by
  apply Option.ne_none_iff_exists'.mp
  intro hnone
  have hseen := nextEventId_none (ids.length + 1) hc hids hnone
  have hnodup : ((List.range (ids.length + 1)).map (idAt counter)).Nodup := by
    apply List.Nodup.map_on _ List.nodup_range
    intro i hi j hj h
    have hi := List.mem_range.mp hi
    have hj := List.mem_range.mp hj
    exact idAt_injective (Nat.lt_of_lt_of_le hi hids) (Nat.lt_of_lt_of_le hj hids) h
  have hsub : (List.range (ids.length + 1)).map (idAt counter) ⊆ ids := by
    intro id hid
    obtain ⟨i, hi, rfl⟩ := List.mem_map.mp hid
    exact hseen i (List.mem_range.mp hi)
  have hlen := (hnodup.subperm hsub).length_le
  rw [List.length_map, List.length_range] at hlen
  exact absurd hlen (Nat.not_succ_le_self _)

end search

/-- The ids of the events alive. -/
def Store.ids (s : Store J) : List Int := s.evtids.map fun e => (s.evtid e).id

/-- No event is there but the ones there were, with their ids. -/
structure Kept (s t : Store J) : Prop where
  evtids : t.evtids.Sublist s.evtids
  id : ∀ e, (t.evtid e).id = (s.evtid e).id
  counter : t.eventIdCounter = s.eventIdCounter
  wrapped : t.eventIdWrapped = s.eventIdWrapped
  next : t.nextEvtid = s.nextEvtid

/-- One event more is there, with the id that was searched. -/
structure Created (s t : Store J) : Prop where
  given : nextEventId s.ids (s.ids.length + 1) s.eventIdCounter s.eventIdWrapped =
    some (t.eventIdCounter, t.eventIdWrapped)
  evtids : t.evtids = s.nextEvtid :: s.evtids
  self : (t.evtid s.nextEvtid).id = t.eventIdCounter
  others : ∀ e ≠ s.nextEvtid, t.evtid e = s.evtid e
  next : t.nextEvtid = s.nextEvtid + 1

section steps
variable {itfs : Itfs} {s t u : Store J}

private theorem Kept.refl (s : Store J) : Kept s s := ⟨.refl _, fun _ => rfl, rfl, rfl, rfl⟩

private theorem Kept.trans (h : Kept s t) (h' : Kept t u) : Kept s u where
  evtids := h'.evtids.trans h.evtids
  id e := (h'.id e).trans (h.id e)
  counter := h'.counter.trans h.counter
  wrapped := h'.wrapped.trans h.wrapped
  next := h'.next.trans h.next

private theorem kept_modify (s : Store J) (e : Evt) (f : Evtid → Evtid)
    (h : (f (s.evtid e)).id = (s.evtid e).id) : Kept s (s.modifyEvtid e f) :=
  ⟨.refl _, fun e' => update_field s.evtid e e' Evtid.id h, rfl, rfl, rfl⟩

private theorem kept_removeWatch (s : Store J) (w : Wat) : Kept s (removeWatch itfs s w) := by
  unfold removeWatch
  split
  · rename_i x _
    exact ⟨.refl _, fun e => update_field s.evtid x.evtid e Evtid.id rfl, rfl, rfl, rfl⟩
  · exact .refl s

private theorem kept_removals (ws : List Wat) (s : Store J) : Kept s (ws.foldl (removeWatch itfs) s) := by
  induction ws generalizing s with
  | nil => exact .refl s
  | cons w ws ih => exact (kept_removeWatch s w).trans (ih (removeWatch itfs s w))

private theorem kept_activate (s : Store J) (w : Wat) : Kept s (activate itfs s w) := by
  unfold activate
  split
  · exact ⟨.refl _, fun _ => rfl, rfl, rfl, rfl⟩
  · exact .refl s

private theorem kept_watchAdd {l : Lis} {e : Evt} {mem : Bool}
    (h : afbEvtWatchAddEvtid itfs s l e mem = .ok t) : Kept s t := by
  unfold afbEvtWatchAddEvtid at h
  split at h
  swap
  · cases h
  split at h
  · cases h
    exact kept_activate s _
  split at h
  · cases h
    refine Kept.trans ?_ (kept_activate _ _)
    exact ⟨.refl _, fun e' => update_field s.evtid e e' Evtid.id rfl, rfl, rfl, rfl⟩
  · cases h

private theorem kept_watchSub (s : Store J) (l : Lis) (e : Evt) :
    Kept s ((afbEvtWatchSubEvtid itfs s l e).toOption.getD s) := by
  unfold afbEvtWatchSubEvtid
  split
  · split
    · split <;> exact ⟨.refl _, fun _ => rfl, rfl, rfl, rfl⟩
    · exact .refl s
  · exact .refl s

private theorem kept_evtidUnref (itfs : Itfs) (s : Store J) (e : Evt) : Kept s (afbEvtEvtidUnref itfs s e) := by
  have hcount := kept_modify s e (fun x => { x with refcount := x.refcount - 1 }) rfl
  unfold afbEvtEvtidUnref
  dsimp only
  split
  · refine Kept.trans (Kept.trans hcount ?_) (kept_removals _ _)
    exact ⟨List.erase_sublist, fun _ => rfl, rfl, rfl, rfl⟩
  · exact hcount

private theorem kept_listenerUnref (itfs : Itfs) (s : Store J) (l : Lis) :
    Kept s (afbEvtListenerUnref itfs s l) := by
  unfold afbEvtListenerUnref
  dsimp only
  split
  · refine Kept.trans ?_ (kept_removals _ _)
    exact ⟨.refl _, fun _ => rfl, rfl, rfl, rfl⟩
  · exact ⟨.refl _, fun _ => rfl, rfl, rfl, rfl⟩

private theorem kept_listenerCreate (s : Store J) (itf closure : Nat) (mem : Bool) :
    Kept s (afbEvtListenerCreate s itf closure mem).2 := by
  unfold afbEvtListenerCreate
  split
  · exact ⟨.refl _, fun _ => rfl, rfl, rfl, rfl⟩
  · split
    · exact ⟨.refl _, fun _ => rfl, rfl, rfl, rfl⟩
    · exact .refl s

private theorem evtidCreate_cases {fullname : Bytes} {mem : Bool} {r : Option Evt}
    (h : afbEvtEvtidCreate s fullname mem = some (r, t)) : Kept s t ∨ Created s t := by
  unfold afbEvtEvtidCreate at h
  cases mem with
  | false =>
    cases h
    exact .inl (.refl s)
  | true =>
    obtain ⟨⟨id, wrapped⟩, hid, heq⟩ := Option.map_eq_some_iff.mp h
    cases heq
    refine .inr ⟨?_, rfl, ?_, fun e he => Function.update_of_ne he _ _, rfl⟩
    · rw [Store.ids]
      exact hid
    · exact congrArg Evtid.id (Function.update_self s.nextEvtid _ s.evtid)

/-- What one step does to the events and to their ids. -/
theorem step_ids (op : Op J) (h : step itfs s op = some t) : Kept s t ∨ Created s t := by
  cases op with
  | evtidCreate fullname mem =>
    obtain ⟨⟨r, u⟩, hr, heq⟩ := Option.map_eq_some_iff.mp h
    rcases evtidCreate_cases hr with hu | hu <;> cases r <;> subst heq
    · exact .inl hu
    · exact .inl ⟨hu.evtids, hu.id, hu.counter, hu.wrapped, hu.next⟩
    · exact .inr hu
    · exact .inr ⟨hu.given, hu.evtids, hu.self, hu.others, hu.next⟩
  | evtidAddref e =>
    obtain ⟨-, h⟩ := Option.ite_none_right_eq_some.mp h
    cases h
    have hu := kept_modify s e (fun x => { x with refcount := x.refcount + 1 }) rfl
    exact .inl ⟨hu.evtids, hu.id, hu.counter, hu.wrapped, hu.next⟩
  | evtidUnref e =>
    obtain ⟨-, h⟩ := Option.ite_none_right_eq_some.mp h
    cases h
    have hu := kept_evtidUnref itfs s e
    exact .inl ⟨hu.evtids, hu.id, hu.counter, hu.wrapped, hu.next⟩
  | listenerCreate itf closure mem =>
    have hu := kept_listenerCreate s itf closure mem
    simp only [step] at h
    split at h
    · rename_i l u hr
      rw [hr] at hu
      cases h
      exact .inl ⟨hu.evtids, hu.id, hu.counter, hu.wrapped, hu.next⟩
    · rename_i u hr
      rw [hr] at hu
      cases h
      exact .inl hu
  | listenerAddref l =>
    obtain ⟨-, h⟩ := Option.ite_none_right_eq_some.mp h
    cases h
    exact .inl ⟨.refl _, fun _ => rfl, rfl, rfl, rfl⟩
  | listenerUnref l =>
    obtain ⟨-, h⟩ := Option.ite_none_right_eq_some.mp h
    cases h
    have hu := kept_listenerUnref itfs s l
    exact .inl ⟨hu.evtids, hu.id, hu.counter, hu.wrapped, hu.next⟩
  | watchAdd l e mem =>
    obtain ⟨-, h⟩ := Option.ite_none_right_eq_some.mp h
    split at h
    · rename_i u hr
      have hu := kept_watchAdd hr
      cases h
      exact .inl ⟨hu.evtids, hu.id, hu.counter, hu.wrapped, hu.next⟩
    · cases h
      exact .inl (.refl s)
  | watchSub l e =>
    obtain ⟨-, h⟩ := Option.ite_none_right_eq_some.mp h
    cases h
    exact .inl (kept_watchSub s l e)
  | push e obj =>
    obtain ⟨-, h⟩ := Option.ite_none_right_eq_some.mp h
    cases h
    exact .inl ⟨.refl _, fun _ => rfl, rfl, rfl, rfl⟩
  | evtidBroadcast e obj =>
    obtain ⟨-, h⟩ := Option.ite_none_right_eq_some.mp h
    cases h
    exact .inl ⟨.refl _, fun _ => rfl, rfl, rfl, rfl⟩

end steps

/-- The ids tell the events apart; until the counter wraps they are behind it. -/
structure Identified (s : Store J) : Prop where
  distinct : s.ids.Nodup
  positive : ∀ id ∈ s.ids, Positive id
  counter : 0 ≤ s.eventIdCounter ∧ s.eventIdCounter < 2 ^ 31
  behind : s.eventIdWrapped = false → ∀ id ∈ s.ids, id ≤ s.eventIdCounter
  fresh : ∀ e ∈ s.evtids, e < s.nextEvtid

section
variable {itfs : Itfs} {s t : Store J}

theorem identified_start : Identified (.start : Store J) :=
  ⟨List.nodup_nil, fun _ h => absurd h List.not_mem_nil,
    ⟨Int.le_refl 0, (by decide : (0 : Int) < 2 ^ 31)⟩,
    fun _ _ h => absurd h List.not_mem_nil, fun _ h => absurd h List.not_mem_nil⟩

private theorem Kept.ids (h : Kept s t) : t.ids.Sublist s.ids := by
  have hsame : t.ids = t.evtids.map fun e => (s.evtid e).id :=
    List.map_congr_left fun e _ => h.id e
  rw [hsame]
  exact h.evtids.map _

private theorem Identified.kept (hi : Identified s) (h : Kept s t) : Identified t where
  distinct := hi.distinct.sublist h.ids
  positive id hid := hi.positive id (h.ids.subset hid)
  counter := by rw [h.counter]; exact hi.counter
  behind hw id hid := by
    rw [h.counter]
    exact hi.behind (h.wrapped ▸ hw) id (h.ids.subset hid)
  fresh e he := by
    rw [h.next]
    exact hi.fresh e (h.evtids.subset he)

private theorem Identified.created (hi : Identified s) (h : Created s t) : Identified t := by
  have hids : t.ids = t.eventIdCounter :: s.ids := by
    rw [Store.ids, h.evtids, List.map_cons, h.self]
    refine congrArg _ (List.map_congr_left fun e he => ?_)
    rw [h.others e (Nat.ne_of_lt (hi.fresh e he))]
  have hpositive := nextEventId_positive _ hi.counter.1 h.given
  have hgiven := nextEventId_fresh _ _ _ h.given
  refine ⟨?_, ?_, ⟨Int.le_of_lt hpositive.1, hpositive.2⟩, ?_, ?_⟩
  · rw [hids]
    apply List.nodup_cons.mpr ⟨_, hi.distinct⟩
    intro hmem
    rcases hgiven with ⟨-, hfresh⟩ | ⟨-, hw, hid⟩
    · exact hfresh hmem
    · have hbehind := hi.behind hw _ hmem
      omega
  · rw [hids]
    exact List.forall_mem_cons.mpr ⟨hpositive, hi.positive⟩
  · intro hw
    rw [hids]
    refine List.forall_mem_cons.mpr ⟨Int.le_refl _, fun id hid => ?_⟩
    rcases hgiven with ⟨htrue, -⟩ | ⟨-, hbefore, hnext⟩
    · exact absurd (htrue.symm.trans hw) Bool.true_eq_false.mp
    · rw [hnext]
      exact Int.le_add_one (hi.behind hbefore id hid)
  · rw [h.evtids, h.next]
    refine List.forall_mem_cons.mpr ⟨Nat.lt_succ_self _, fun e he => ?_⟩
    exact Nat.lt_succ_of_lt (hi.fresh e he)

theorem identified_step (hi : Identified s) (op : Op J) (h : step itfs s op = some t) :
    Identified t := by
  rcases step_ids op h with hk | hc
  · exact hi.kept hk
  · exact hi.created hc

/-- With fewer events than ids to give, a creation returns. -/
theorem Identified.creates (hi : Identified s) (h : s.evtids.length < 2 ^ 31 - 1024)
    (fullname : Bytes) (mem : Bool) : ∃ t, step itfs s (.evtidCreate fullname mem) = some t := by
  cases mem with
  | false => exact ⟨s, rfl⟩
  | true =>
    have hlen : s.ids.length < 2 ^ 31 - 1024 := by rwa [Store.ids, List.length_map]
    obtain ⟨r, hr⟩ := nextEventId_some hi.counter hlen s.eventIdWrapped
    rw [Store.ids] at hr
    simp only [step, afbEvtEvtidCreate, if_true, hr, Option.map_some]
    exact ⟨_, rfl⟩

end

/-- The events alive have ids that are distinct and strictly positive, and while there are fewer
events than ids to give, one more can be created. -/
structure Countable (itfs : Itfs) (s : Store J) : Prop where
  distinct : s.ids.Nodup
  positive : ∀ id ∈ s.ids, 0 < id
  creates : s.evtids.length < 2 ^ 31 - 1024 → ∀ fullname mem,
    ∃ t, step itfs s (.evtidCreate fullname mem) = some t

/-- In every state of every run, however often the counter has wrapped. -/
theorem ids_distinct (itfs : Itfs) (ops : List (Op J)) :
    Always (step itfs) (Countable itfs) .start ops := by
  apply always_keeps (I := Identified) _ _ identified_start
  · intro s hi
    exact ⟨hi.distinct, fun id hid => (hi.positive id hid).1, hi.creates⟩
  · intro s op t hi h
    exact identified_step hi op h

end AfbBinder.Events
