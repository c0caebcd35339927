import AfbBinder.Lib.Runs
import AfbBinder.Events.Watches

/-! Whole runs of events and listeners: what is linked is what someone owns, and an event
is pushed exactly to the listeners last told of an addition. -/
namespace AfbBinder.Events
open Lib.Cstrings Lib.Runs Lib.Updates
variable {J : Type}

/-- What is linked globally is what someone owns a reference of. -/
structure Owned (s : Store J) : Prop where
  evtOwned : ∀ e, (s.evtid e).refcount = s.ownedEvt e
  lisOwned : ∀ l, (s.listener l).refcount = s.ownedLis l
  evtids : ∀ e, e ∈ s.evtids ↔ 0 < s.ownedEvt e
  listeners : ∀ l, l ∈ s.listeners ↔ 0 < s.ownedLis l
  evtidsNodup : s.evtids.Nodup
  listenersNodup : s.listeners.Nodup
  evtFresh : ∀ e ∈ s.evtids, e < s.nextEvtid
  lisFresh : ∀ l ∈ s.listeners, l < s.nextListener

/-- Watches are between living parties, and a listener to come was told nothing. -/
structure Lives (s : Store J) : Prop extends Owned s where
  watchEvt : ∀ w x, s.watch w = some x → x.evtid ∈ s.evtids
  watchLis : ∀ w x, s.watch w = some x → x.listener ∈ s.listeners
  untold : ∀ l e, s.nextListener ≤ l → notes s l e = []

/-- An addition does not take a watch past the last value of its count. -/
def NoWrap (itfs : Itfs) (s : Store J) : Op J → Prop
  | .watchAdd l e _ => (itfs (s.listener l).itf).push = true → ∀ w x, s.watch w = some x →
      x.listener = l → x.evtid = e → x.activity + 1 < 2 ^ 32
  | _ => True

/-- The store between two operations. -/
structure Inv (itfs : Itfs) (s : Store J) : Prop where
  links : Links itfs s
  lives : Lives s

section
variable {itfs : Itfs} {s t : Store J}

theorem inv_start : Inv itfs (.start : Store J) := by
  refine ⟨?_, ?_⟩
  · constructor
    case told => exact fun l e _ => ⟨false, .nil, by simp [Active, Store.start]⟩
    all_goals simp [Store.start]
  · refine ⟨?_, ?_, ?_, ?_⟩
    · constructor <;> simp [Store.start]
    all_goals simp [Store.start, notes]

private theorem inv_evtidCreate (hi : Inv itfs s) {fullname : Bytes} {mem : Bool} {e : Evt}
    (h : afbEvtEvtidCreate s fullname mem = some (some e, t)) : Inv itfs (t.setOwnedEvt e 1) := by
  unfold afbEvtEvtidCreate at h
  cases mem with
  | false => simp at h
  | true =>
    obtain ⟨⟨id, wrapped⟩, -, heq⟩ := Option.map_eq_some_iff.mp h
    rw [Prod.mk.injEq, Option.some.injEq] at heq
    obtain ⟨rfl, rfl⟩ := heq
    have hnew : s.nextEvtid ∉ s.evtids := fun hm => Nat.lt_irrefl _ (hi.lives.evtFresh _ hm)
    have hempty : (s.evtid s.nextEvtid).watchs = [] := by
      refine List.eq_nil_iff_forall_not_mem.mpr fun w hm => ?_
      obtain ⟨x, hx, he⟩ := (hi.links.evtLink _ w).mp hm
      exact hnew (he ▸ hi.lives.watchEvt w x hx)
    refine ⟨?_, ?_⟩
    · refine hi.links.congr rfl rfl rfl (fun e' => ?_) (fun _ => rfl) hi.links.told
      exact update_field s.evtid s.nextEvtid e' Evtid.watchs hempty.symm
    · refine { hi.lives with
        evtOwned := fun e' => ?_
        evtids := fun e' => ?_
        evtidsNodup := List.nodup_cons.mpr ⟨hnew, hi.lives.evtidsNodup⟩
        evtFresh := fun e' hm => ?_
        watchEvt := fun w x hx => List.mem_cons_of_mem _ (hi.lives.watchEvt w x hx) }
      · by_cases he : e' = s.nextEvtid
        · subst he
          simp [Store.setOwnedEvt, Store.modifyEvtid]
        · simpa [Store.setOwnedEvt, Store.modifyEvtid, he] using hi.lives.evtOwned e'
      · by_cases he : e' = s.nextEvtid
        · subst he
          simp [Store.setOwnedEvt]
        · simpa [Store.setOwnedEvt, Store.modifyEvtid, he] using hi.lives.evtids e'
      · rcases List.mem_cons.mp hm with rfl | hm
        · exact Nat.lt_succ_self _
        · exact Nat.lt_succ_of_lt (hi.lives.evtFresh e' hm)

/-- A change in the number of references of an event that stays referenced. -/
theorem inv_evtRef (hi : Inv itfs s) {e : Evt} (he : 0 < s.ownedEvt e) {n : Nat}
    (hn : 0 < n) :
    Inv itfs ((s.modifyEvtid e fun x => { x with refcount := n }).setOwnedEvt e n) := by
  refine ⟨?_, ?_⟩
  · refine hi.links.congr rfl rfl rfl (fun e' => ?_) (fun _ => rfl) hi.links.told
    exact update_field s.evtid e e' Evtid.watchs rfl
  · refine { hi.lives with evtOwned := fun e' => ?_, evtids := fun e' => ?_ }
    · by_cases h : e' = e
      · subst h
        simp [Store.setOwnedEvt, Store.modifyEvtid]
      · simpa [Store.setOwnedEvt, Store.modifyEvtid, h] using hi.lives.evtOwned e'
    · by_cases h : e' = e
      · subst h
        simpa [Store.setOwnedEvt, Store.modifyEvtid, hn] using (hi.lives.evtids e').mpr he
      · simpa [Store.setOwnedEvt, Store.modifyEvtid, h] using hi.lives.evtids e'

/-- The removals that follow the end of an event or of a listener. -/
theorem lives_removed {u v : Store J} (ho : Owned v) (hf : Frame v u)
    (hevt : ∀ w x, u.watch w = some x → x.evtid ∈ v.evtids)
    (hlis : ∀ w x, u.watch w = some x → x.listener ∈ v.listeners)
    (hnew : ∀ l e, v.nextListener ≤ l →
      notes v l e = [] ∧ ∀ w x, v.watch w = some x → x.listener ≠ l) : Lives u where
  evtOwned e := by rw [hf.evtRef, hf.ownedEvt, ho.evtOwned]
  lisOwned l := by rw [hf.lisRef, hf.ownedLis, ho.lisOwned]
  evtids e := by rw [hf.evtids, hf.ownedEvt, ho.evtids]
  listeners l := by rw [hf.listeners, hf.ownedLis, ho.listeners]
  evtidsNodup := hf.evtids ▸ ho.evtidsNodup
  listenersNodup := hf.listeners ▸ ho.listenersNodup
  evtFresh := by simpa only [hf.evtids, hf.nextEvtid] using ho.evtFresh
  lisFresh := by simpa only [hf.listeners, hf.nextListener] using ho.lisFresh
  watchEvt w x hw := hf.evtids ▸ hevt w x hw
  watchLis w x hw := hf.listeners ▸ hlis w x hw
  untold l e hl := by
    rw [hf.nextListener] at hl
    rw [hf.untold l e (hnew l e hl).2, (hnew l e hl).1]

private theorem Inv.unwatched (hi : Inv itfs s) {l : Lis} (hl : s.nextListener ≤ l) (w : Wat)
    (x : Watch) (hw : s.watch w = some x) : x.listener ≠ l := fun hx =>
  absurd (hi.lives.lisFresh _ (hx ▸ hi.lives.watchLis w x hw)) (Nat.not_lt.mpr hl)

/-- The event without reference is unlinked, and its watches go with it. -/
theorem inv_evtGone (hi : Inv itfs s) (e : Evt) :
    Inv itfs (Store.setOwnedEvt ((s.evtid e).watchs.foldl (removeWatch itfs)
      { s.modifyEvtid e fun x => { x with refcount := 0 } with
        evtids := s.evtids.erase e }) e 0) := by
  obtain ⟨v, hv⟩ : ∃ v, v = { s.modifyEvtid e fun x => { x with refcount := 0 } with
    evtids := s.evtids.erase e } := ⟨_, rfl⟩
  rw [← hv]
  have hwatchs : ∀ e', (v.evtid e').watchs = (s.evtid e').watchs := by
    rw [hv]
    exact fun e' => update_field s.evtid e e' Evtid.watchs rfl
  have hlinks : Links itfs v := by
    subst hv
    exact hi.links.congr rfl rfl rfl hwatchs (fun _ => rfl) hi.links.told
  have hwatch : v.watch = s.watch := by rw [hv]; rfl
  have hevtids : v.evtids = s.evtids.erase e := by rw [hv]
  have hnodup := hi.lives.evtidsNodup
  have ho : Owned (v.setOwnedEvt e 0) := by
    subst hv
    refine { hi.lives.toOwned with
      evtOwned := fun e' => ?_
      evtids := fun e' => ?_
      evtidsNodup := hnodup.erase e
      evtFresh := fun e' hm => hi.lives.evtFresh e' (List.mem_of_mem_erase hm) }
    · by_cases h : e' = e
      · subst h
        simp [Store.setOwnedEvt, Store.modifyEvtid]
      · simpa [Store.setOwnedEvt, Store.modifyEvtid, h] using hi.lives.evtOwned e'
    · simp only [Store.setOwnedEvt, Store.modifyEvtid, hnodup.mem_erase_iff]
      by_cases h : e' = e
      · subst h
        simp
      · simpa [h] using hi.lives.evtids e'
  obtain ⟨hlinks, hf, hnil⟩ := remove_evtid e _ hlinks (hwatchs e)
  generalize (s.evtid e).watchs.foldl (removeWatch itfs) v = u at hlinks hf hnil
  have hf' : Frame (v.setOwnedEvt e 0) (u.setOwnedEvt e 0) :=
    { hf with ownedEvt := congrArg (Function.update · e 0) hf.ownedEvt }
  refine ⟨hlinks.congr rfl rfl rfl (fun _ => rfl) (fun _ => rfl) hlinks.told,
    lives_removed ho hf' (fun w x hw => ?_) (fun w x hw => ?_) fun l e' hl => ?_⟩
  · refine hevtids ▸ (List.mem_erase_of_ne fun h => ?_).mpr
      (hi.lives.watchEvt w x (hwatch ▸ hf.watch w x hw))
    have hmem := (hlinks.evtLink e w).mpr ⟨x, hw, h⟩
    rw [hnil] at hmem
    cases hmem
  · subst hv
    exact hi.lives.watchLis w x (hf.watch w x hw)
  · subst hv
    exact ⟨hi.lives.untold l e' hl, hi.unwatched hl⟩

private theorem inv_evtidUnref (hi : Inv itfs s) {e : Evt} (he : 0 < s.ownedEvt e) :
    Inv itfs ((afbEvtEvtidUnref itfs s e).setOwnedEvt e (s.ownedEvt e - 1)) := by
  have hmod : (s.modifyEvtid e fun x => { x with refcount := x.refcount - 1 }) =
      s.modifyEvtid e fun x => { x with refcount := s.ownedEvt e - 1 } := by
    simp only [Store.modifyEvtid, hi.lives.evtOwned]
  have hself : ((s.modifyEvtid e fun x => { x with refcount := s.ownedEvt e - 1 }).evtid e) =
      { s.evtid e with refcount := s.ownedEvt e - 1 } := Function.update_self e _ _
  unfold afbEvtEvtidUnref
  simp only [hmod, hself]
  by_cases hz : s.ownedEvt e - 1 = 0
  · have hm : e ∈ s.evtids := (hi.lives.evtids e).mpr he
    rw [if_pos ⟨hz, hm⟩, hz]
    exact inv_evtGone hi e
  · rw [if_neg fun h => hz h.1]
    exact inv_evtRef hi he (Nat.pos_of_ne_zero hz)

private theorem inv_lisRef (hi : Inv itfs s) {l : Lis} (hl : 0 < s.ownedLis l) {n : Nat}
    (hn : 0 < n) :
    Inv itfs ((s.modifyListener l fun x => { x with refcount := n }).setOwnedLis l n) := by
  have hitf : ∀ l', ((s.modifyListener l fun x => { x with refcount := n }).listener l').itf =
      (s.listener l').itf := fun l' => update_field s.listener l l' Listener.itf rfl
  refine ⟨?_, ?_⟩
  · refine hi.links.congr rfl rfl rfl (fun _ => rfl) (fun l' => ?_) fun l' e ht => ?_
    · exact update_field s.listener l l' Listener.watchs rfl
    · refine hi.links.told l' e ?_
      rw [Told, Store.setOwnedLis, hitf] at ht
      exact ht
  · refine { hi.lives with lisOwned := fun l' => ?_, listeners := fun l' => ?_ }
    · by_cases h : l' = l
      · subst h
        simp [Store.setOwnedLis, Store.modifyListener]
      · simpa [Store.setOwnedLis, Store.modifyListener, h] using hi.lives.lisOwned l'
    · by_cases h : l' = l
      · subst h
        simpa [Store.setOwnedLis, Store.modifyListener, hn] using (hi.lives.listeners l').mpr hl
      · simpa [Store.setOwnedLis, Store.modifyListener, h] using hi.lives.listeners l'

private theorem inv_listenerCreate (hi : Inv itfs s) {itf closure : Nat} {mem : Bool} {l : Lis}
    (h : afbEvtListenerCreate s itf closure mem = (some l, t)) :
    Inv itfs (t.setOwnedLis l (s.ownedLis l + 1)) := by
  unfold afbEvtListenerCreate at h
  split at h
  · rename_i l' hfind
    rw [Prod.mk.injEq, Option.some.injEq] at h
    obtain ⟨rfl, rfl⟩ := h
    have hl := (hi.lives.listeners l').mp (List.mem_of_find?_eq_some hfind)
    have := inv_lisRef hi hl (Nat.succ_pos (s.ownedLis l'))
    simpa only [afbEvtListenerAddref, Store.modifyListener, hi.lives.lisOwned] using this
  cases mem with
  | false => simp at h
  | true =>
    rw [if_pos rfl, Prod.mk.injEq, Option.some.injEq] at h
    obtain ⟨rfl, rfl⟩ := h
    have hnew : s.nextListener ∉ s.listeners := fun hm => Nat.lt_irrefl _ (hi.lives.lisFresh _ hm)
    have hempty : (s.listener s.nextListener).watchs = [] := by
      refine List.eq_nil_iff_forall_not_mem.mpr fun w hm => ?_
      obtain ⟨x, hx, hl⟩ := (hi.links.lisLink _ w).mp hm
      exact hnew (hl ▸ hi.lives.watchLis w x hx)
    have hzero : s.ownedLis s.nextListener = 0 := by
      refine Nat.eq_zero_of_not_pos fun hp => hnew ((hi.lives.listeners _).mpr hp)
    refine ⟨?_, ?_⟩
    · refine hi.links.congr rfl rfl rfl (fun _ => rfl) (fun l' => ?_) fun l' e ht => ?_
      · exact update_field s.listener s.nextListener l' Listener.watchs hempty.symm
      · by_cases hl : l' = s.nextListener
        · subst hl
          refine ⟨false, ?_, ?_⟩
          · have hnotes := hi.lives.untold s.nextListener e (Nat.le_refl _)
            exact hnotes.symm ▸ Alternating.nil
          · simp only [Bool.false_eq_true, false_iff]
            rintro ⟨w, x, hw, hx, -⟩
            exact hi.unwatched (Nat.le_refl _) w x hw hx
        · refine hi.links.told l' e ?_
          simpa [Told, Store.setOwnedLis, Store.modifyListener, hl] using ht
    · refine { hi.lives with
        lisOwned := fun l' => ?_
        listeners := fun l' => ?_
        listenersNodup := List.nodup_cons.mpr ⟨hnew, hi.lives.listenersNodup⟩
        lisFresh := fun l' hm => ?_
        watchLis := fun w x hx => List.mem_cons_of_mem _ (hi.lives.watchLis w x hx)
        untold := fun l' e hl => hi.lives.untold l' e (Nat.le_of_succ_le hl) }
      · by_cases hl : l' = s.nextListener
        · subst hl
          simp [Store.setOwnedLis, Store.modifyListener, hzero]
        · simpa [Store.setOwnedLis, Store.modifyListener, hl] using hi.lives.lisOwned l'
      · by_cases hl : l' = s.nextListener
        · subst hl
          simp [Store.setOwnedLis]
        · simpa [Store.setOwnedLis, Store.modifyListener, hl] using hi.lives.listeners l'
      · rcases List.mem_cons.mp hm with rfl | hm
        · exact Nat.lt_succ_self _
        · exact Nat.lt_succ_of_lt (hi.lives.lisFresh l' hm)

/-- The listener without reference is unlinked, and its watches go with it. -/
theorem inv_lisGone (hi : Inv itfs s) (l : Lis) :
    Inv itfs (Store.setOwnedLis ((s.listener l).watchs.foldl (removeWatch itfs)
      { s.modifyListener l fun x => { x with refcount := 0 } with
        listeners := s.listeners.erase l }) l 0) := by
  obtain ⟨v, hv⟩ : ∃ v, v = { s.modifyListener l fun x => { x with refcount := 0 } with
    listeners := s.listeners.erase l } := ⟨_, rfl⟩
  rw [← hv]
  have hwatchs : ∀ l', (v.listener l').watchs = (s.listener l').watchs := by
    rw [hv]
    exact fun l' => update_field s.listener l l' Listener.watchs rfl
  have hitf : ∀ l', (v.listener l').itf = (s.listener l').itf := by
    rw [hv]
    exact fun l' => update_field s.listener l l' Listener.itf rfl
  have hlinks : Links itfs v := by
    subst hv
    refine hi.links.congr rfl rfl rfl (fun _ => rfl) hwatchs fun l' e ht => ?_
    rw [Told, hitf] at ht
    exact hi.links.told l' e ht
  have hwatch : v.watch = s.watch := by rw [hv]; rfl
  have hlisteners : v.listeners = s.listeners.erase l := by rw [hv]
  have hnodup := hi.lives.listenersNodup
  have ho : Owned (v.setOwnedLis l 0) := by
    subst hv
    refine { hi.lives.toOwned with
      lisOwned := fun l' => ?_
      listeners := fun l' => ?_
      listenersNodup := hnodup.erase l
      lisFresh := fun l' hm => hi.lives.lisFresh l' (List.mem_of_mem_erase hm) }
    · by_cases h : l' = l
      · subst h
        simp [Store.setOwnedLis, Store.modifyListener]
      · simpa [Store.setOwnedLis, Store.modifyListener, h] using hi.lives.lisOwned l'
    · simp only [Store.setOwnedLis, Store.modifyListener, hnodup.mem_erase_iff]
      by_cases h : l' = l
      · subst h
        simp
      · simpa [h] using hi.lives.listeners l'
  obtain ⟨hlinks, hf, hnil⟩ := remove_listener l _ hlinks (hwatchs l)
  generalize (s.listener l).watchs.foldl (removeWatch itfs) v = u at hlinks hf hnil
  have hf' : Frame (v.setOwnedLis l 0) (u.setOwnedLis l 0) :=
    { hf with ownedLis := congrArg (Function.update · l 0) hf.ownedLis }
  refine ⟨hlinks.congr rfl rfl rfl (fun _ => rfl) (fun _ => rfl) hlinks.told,
    lives_removed ho hf' (fun w x hw => ?_) (fun w x hw => ?_) fun l' e hl => ?_⟩
  · subst hv
    exact hi.lives.watchEvt w x (hf.watch w x hw)
  · refine hlisteners ▸ (List.mem_erase_of_ne fun h => ?_).mpr
      (hi.lives.watchLis w x (hwatch ▸ hf.watch w x hw))
    have hmem := (hlinks.lisLink l w).mpr ⟨x, hw, h⟩
    rw [hnil] at hmem
    cases hmem
  · subst hv
    exact ⟨hi.lives.untold l' e hl, hi.unwatched hl⟩

private theorem inv_listenerUnref (hi : Inv itfs s) {l : Lis} (hl : 0 < s.ownedLis l) :
    Inv itfs ((afbEvtListenerUnref itfs s l).setOwnedLis l (s.ownedLis l - 1)) := by
  have hmod : (s.modifyListener l fun x => { x with refcount := x.refcount - 1 }) =
      s.modifyListener l fun x => { x with refcount := s.ownedLis l - 1 } := by
    simp only [Store.modifyListener, hi.lives.lisOwned]
  have hself : ((s.modifyListener l fun x => { x with refcount := s.ownedLis l - 1 }).listener l) =
      { s.listener l with refcount := s.ownedLis l - 1 } := Function.update_self l _ _
  unfold afbEvtListenerUnref
  simp only [hmod, hself]
  by_cases hz : s.ownedLis l - 1 = 0
  · rw [if_pos hz, hz]
    exact inv_lisGone hi l
  · rw [if_neg hz]
    exact inv_lisRef hi hl (Nat.pos_of_ne_zero hz)

/-- Watches rewritten between living parties, and calls about living listeners. -/
theorem lives_watched (hi : Lives s) (hevtids : t.evtids = s.evtids)
    (hlisteners : t.listeners = s.listeners) (hnextE : t.nextEvtid = s.nextEvtid)
    (hnextL : t.nextListener = s.nextListener) (hownedE : t.ownedEvt = s.ownedEvt)
    (hownedL : t.ownedLis = s.ownedLis)
    (hevtRef : ∀ e, (t.evtid e).refcount = (s.evtid e).refcount)
    (hlisRef : ∀ l, (t.listener l).refcount = (s.listener l).refcount)
    (hwatch : ∀ w x, t.watch w = some x → x.evtid ∈ s.evtids ∧ x.listener ∈ s.listeners)
    (hnotes : ∀ l e, l ∉ s.listeners → notes t l e = notes s l e) : Lives t where
  evtOwned e := by rw [hevtRef, hownedE, hi.evtOwned]
  lisOwned l := by rw [hlisRef, hownedL, hi.lisOwned]
  evtids e := by rw [hevtids, hownedE, hi.evtids]
  listeners l := by rw [hlisteners, hownedL, hi.listeners]
  evtidsNodup := hevtids ▸ hi.evtidsNodup
  listenersNodup := hlisteners ▸ hi.listenersNodup
  evtFresh := by simpa only [hevtids, hnextE] using hi.evtFresh
  lisFresh := by simpa only [hlisteners, hnextL] using hi.lisFresh
  watchEvt w x hw := hevtids ▸ (hwatch w x hw).1
  watchLis w x hw := hlisteners ▸ (hwatch w x hw).2
  untold l e hl := by
    rw [hnextL] at hl
    rw [hnotes l e fun hm => absurd (hi.lisFresh l hm) (Nat.not_lt.mpr hl), hi.untold l e hl]

/-- The count of a watch rewritten, with calls about its pair only. -/
theorem lives_setActivity (hi : Lives s) {w : Wat} {x : Watch} (hw : s.watch w = some x)
    {n : Nat} {c : List (Call J)}
    (hc : ∀ l e, l ≠ x.listener → c.filterMap (Call.note l e) = []) :
    Lives ((s.call c).setWatch w (some { x with activity := n })) := by
  refine lives_watched hi rfl rfl rfl rfl rfl rfl (fun _ => rfl) (fun _ => rfl)
    (fun w' x' hw' => ?_) fun l e hl => ?_
  · by_cases hne : w' = w
    · subst hne
      have hx : some { x with activity := n } = some x' := by
        rw [← hw']
        simp [Store.setWatch]
      rw [Option.some.injEq] at hx
      rw [← hx]
      exact ⟨hi.watchEvt w' x hw, hi.watchLis w' x hw⟩
    · have hold : s.watch w' = some x' := by
        rw [← hw']
        exact (Function.update_of_ne hne _ _).symm
      exact ⟨hi.watchEvt w' x' hold, hi.watchLis w' x' hold⟩
  · refine (notes_call s c l e).trans ?_
    rw [hc l e fun h => hl (h ▸ hi.watchLis w x hw), List.append_nil]

private theorem lives_activate (hi : Lives s) {w : Wat} {x : Watch} (hw : s.watch w = some x) :
    Lives (activate itfs s w) := by
  simp only [activate, hw]
  refine lives_setActivity hi hw fun l e hl => ?_
  split <;> simp [Call.note, Store.target, Ne.symm hl]

private theorem lives_added (hi : Lives s) (l : Lis) (e : Evt) : Lives (s.added l e) :=
  { hi with }

private theorem inv_watchAdd (hi : Inv itfs s) {l : Lis} {e : Evt} {mem : Bool}
    (hl : 0 < s.ownedLis l) (he : 0 < s.ownedEvt e) (hlt : NoWrap itfs s (.watchAdd l e mem))
    (h : afbEvtWatchAddEvtid itfs s l e mem = .ok t) : Inv itfs (t.added l e) := by
  unfold afbEvtWatchAddEvtid at h
  split at h
  swap
  · cases h
  rename_i hpush
  cases hf : findWatch s l e with
  | some w =>
    obtain ⟨x, hx, rfl, rfl⟩ := findWatch_some hi.links hf
    simp only [hf] at h
    cases h
    exact ⟨links_activate hi.links hx (hlt hpush w x hx rfl rfl),
      lives_added (lives_activate hi.lives hx) _ _⟩
  | none =>
    cases mem with
    | false =>
      simp only [hf, Bool.false_eq_true, if_false] at h
      cases h
    | true =>
      simp only [hf, if_true] at h
      cases h
      have hlinks := links_new hi.links (findWatch_none hi.links hf)
      obtain ⟨v, hv⟩ : ∃ v, v = ((({ s with nextWatch := s.nextWatch + 1 }.setWatch s.nextWatch
          (some ⟨e, l, 0⟩)).modifyListener l
            fun x => { x with watchs := s.nextWatch :: x.watchs }).modifyEvtid e
            fun x => { x with watchs := s.nextWatch :: x.watchs }) := ⟨_, rfl⟩
      have hlives : Lives v := by
        subst hv
        refine lives_watched hi.lives rfl rfl rfl rfl rfl rfl
          (fun e' => update_field s.evtid e e' Evtid.refcount rfl)
          (fun l' => update_field s.listener l l' Listener.refcount rfl)
          (fun w x hw => ?_) fun _ _ _ => rfl
        by_cases hne : w = s.nextWatch
        · subst hne
          have hx : some ⟨e, l, 0⟩ = some x := by
            rw [← hw]
            simp [Store.setWatch, Store.modifyListener, Store.modifyEvtid]
          rw [Option.some.injEq] at hx
          rw [← hx]
          exact ⟨(hi.lives.evtids e).mpr he, (hi.lives.listeners l).mpr hl⟩
        · have hold : s.watch w = some x := by
            rw [← hw]
            exact (Function.update_of_ne hne _ _).symm
          exact ⟨hi.lives.watchEvt w x hold, hi.lives.watchLis w x hold⟩
      have hself : v.watch s.nextWatch = some ⟨e, l, 0⟩ := by
        rw [hv]
        exact Function.update_self s.nextWatch _ _
      rw [← hv] at hlinks ⊢
      exact ⟨links_activate hlinks hself (Nat.lt_of_sub_eq_succ rfl),
        lives_added (lives_activate hlives hself) _ _⟩

private theorem inv_watchSub (hi : Inv itfs s) {l : Lis} {e : Evt}
    (h : afbEvtWatchSubEvtid itfs s l e = .ok t) : Inv itfs t := by
  refine ⟨links_sub hi.links h, ?_⟩
  unfold afbEvtWatchSubEvtid at h
  cases hf : findWatch s l e with
  | none =>
    simp only [hf] at h
    cases h
  | some w =>
    obtain ⟨x, hx, rfl, rfl⟩ := findWatch_some hi.links hf
    simp only [hf, hx] at h
    split at h
    · cases h
      refine lives_setActivity hi.lives hx fun l e hl => ?_
      split <;> simp [Call.note, Store.target, Ne.symm hl]
    · cases h
      exact hi.lives

private theorem inv_call (hi : Inv itfs s) {c : List (Call J)}
    (hc : ∀ l e, c.filterMap (Call.note l e) = []) : Inv itfs (s.call c) := by
  have hnotes : ∀ l e, notes (s.call c) l e = notes s l e := by
    intro l e
    rw [notes_call, hc, List.append_nil]
  refine ⟨hi.links.congr rfl rfl rfl (fun _ => rfl) (fun _ => rfl) fun l e ht => ?_,
    { hi.lives with untold := fun l e hl => (hnotes l e).trans (hi.lives.untold l e hl) }⟩
  rw [hnotes]
  exact hi.links.told l e ht

private theorem activate_adds (s : Store J) (w : Wat) : (activate itfs s w).adds = s.adds := by
  unfold activate
  split <;> rfl

theorem watchAdd_adds {l : Lis} {e : Evt} {mem : Bool}
    (h : afbEvtWatchAddEvtid itfs s l e mem = .ok t) : t.adds = s.adds := by
  unfold afbEvtWatchAddEvtid at h
  split at h
  · split at h
    · cases h
      exact activate_adds s _
    · split at h
      · cases h
        exact activate_adds _ _
      · cases h
  · cases h

private theorem removals_adds (l : List Wat) (s : Store J) :
    (l.foldl (removeWatch itfs) s).adds = s.adds := by
  induction l generalizing s with
  | nil => rfl
  | cons w l ih => exact (ih _).trans (frame_removeWatch s w).adds

/-- Additions are only counted up. -/
theorem adds_step (op : Op J) (h : step itfs s op = some t) (l : Lis) (e : Evt) :
    s.adds l e ≤ t.adds l e := by
  have hsame : ∀ {u : Store J}, u.adds = s.adds → s.adds l e ≤ u.adds l e := by
    intro u hu
    exact Nat.le_of_eq (by rw [hu])
  cases op with
  | evtidCreate fullname mem =>
    obtain ⟨⟨r, u⟩, hr, rfl⟩ := Option.map_eq_some_iff.mp h
    unfold afbEvtEvtidCreate at hr
    split at hr
    · obtain ⟨_, -, hr⟩ := Option.map_eq_some_iff.mp hr
      cases hr
      exact hsame rfl
    · cases hr
      exact hsame rfl
  | listenerCreate itf closure mem =>
    simp only [step, afbEvtListenerCreate] at h
    split at h <;> rename_i hr <;> cases h <;> split at hr
    · cases hr
      exact hsame rfl
    · split at hr <;> cases hr
      exact hsame rfl
    · cases hr
    · split at hr <;> cases hr
      exact hsame rfl
  | evtidUnref e' =>
    obtain ⟨-, h⟩ := Option.ite_none_right_eq_some.mp h
    cases h
    refine hsame ?_
    simp only [Store.setOwnedEvt, afbEvtEvtidUnref]
    split
    · exact removals_adds _ _
    · rfl
  | listenerUnref l' =>
    obtain ⟨-, h⟩ := Option.ite_none_right_eq_some.mp h
    cases h
    refine hsame ?_
    simp only [Store.setOwnedLis, afbEvtListenerUnref]
    split
    · exact removals_adds _ _
    · rfl
  | watchAdd l' e' mem =>
    obtain ⟨-, h⟩ := Option.ite_none_right_eq_some.mp h
    split at h
    · rename_i u hu
      cases h
      exact Nat.le_trans (hsame (watchAdd_adds hu)) (le_added u l' l e' e)
    · cases h
      exact hsame rfl
  | watchSub l' e' =>
    obtain ⟨-, h⟩ := Option.ite_none_right_eq_some.mp h
    cases h
    refine hsame ?_
    simp only [afbEvtWatchSubEvtid]
    split
    · split
      · split <;> rfl
      · rfl
    · rfl
  | _ =>
    obtain ⟨-, h⟩ := Option.ite_none_right_eq_some.mp h
    cases h
    exact hsame rfl

/-- The listeners that an event is pushed to, in the order of the watches. -/
def receivers (s : Store J) (e : Evt) : List Lis :=
  (s.evtid e).watchs.filterMap fun w =>
    (s.watch w).bind fun x => if x.activity ≠ 0 then some x.listener else none

theorem pushes_eq (s : Store J) (e : Evt) (obj : J) :
    pushes s e obj (s.evtid e).watchs = (receivers s e).map fun l => .push (s.target l e) obj := by
  unfold receivers
  generalize (s.evtid e).watchs = l
  induction l with
  | nil => rfl
  | cons w l ih =>
    rw [pushes]
    cases hw : s.watch w with
    | none => simp [hw, ih]
    | some x => by_cases ha : x.activity = 0 <;> simp [hw, ha, ih]

theorem inv_step (hi : Inv itfs s) (op : Op J) (hwrap : NoWrap itfs s op)
    (h : step itfs s op = some t) : Inv itfs t := by
  cases op with
  | evtidCreate fullname mem =>
    obtain ⟨⟨r, u⟩, hr, heq⟩ := Option.map_eq_some_iff.mp h
    cases r with
    | some e =>
      subst heq
      exact inv_evtidCreate hi hr
    | none =>
      subst heq
      unfold afbEvtEvtidCreate at hr
      split at hr
      · obtain ⟨_, -, hr⟩ := Option.map_eq_some_iff.mp hr
        cases hr
      · cases hr
        exact hi
  | evtidAddref e =>
    obtain ⟨he, h⟩ := Option.ite_none_right_eq_some.mp h
    cases h
    have := inv_evtRef hi he (Nat.succ_pos (s.ownedEvt e))
    simpa only [afbEvtEvtidAddref, Store.modifyEvtid, hi.lives.evtOwned] using this
  | evtidUnref e =>
    obtain ⟨he, h⟩ := Option.ite_none_right_eq_some.mp h
    cases h
    exact inv_evtidUnref hi he
  | listenerCreate itf closure mem =>
    simp only [step] at h
    split at h
    · rename_i l u hr
      cases h
      exact inv_listenerCreate hi hr
    · rename_i u hr
      cases h
      unfold afbEvtListenerCreate at hr
      split at hr
      · cases hr
      · split at hr
        · cases hr
        · cases hr
          exact hi
  | listenerAddref l =>
    obtain ⟨hl, h⟩ := Option.ite_none_right_eq_some.mp h
    cases h
    have := inv_lisRef hi hl (Nat.succ_pos (s.ownedLis l))
    simpa only [afbEvtListenerAddref, Store.modifyListener, hi.lives.lisOwned] using this
  | listenerUnref l =>
    obtain ⟨hl, h⟩ := Option.ite_none_right_eq_some.mp h
    cases h
    exact inv_listenerUnref hi hl
  | watchAdd l e mem =>
    obtain ⟨⟨hl, he⟩, h⟩ := Option.ite_none_right_eq_some.mp h
    split at h
    · rename_i u hu
      cases h
      exact inv_watchAdd hi hl he hwrap hu
    · cases h
      exact hi
  | watchSub l e =>
    obtain ⟨-, h⟩ := Option.ite_none_right_eq_some.mp h
    cases h
    cases hr : afbEvtWatchSubEvtid itfs s l e with
    | ok u => exact inv_watchSub hi hr
    | error err => exact hi
  | push e obj =>
    obtain ⟨-, h⟩ := Option.ite_none_right_eq_some.mp h
    cases h
    refine inv_call hi fun l e' => ?_
    rw [pushes_eq]
    simp [List.filterMap_map, Function.comp_def, Call.note]
  | evtidBroadcast e obj =>
    obtain ⟨-, h⟩ := Option.ite_none_right_eq_some.mp h
    cases h
    refine inv_call hi fun l e' => ?_
    simp [List.filterMap_map, Function.comp_def, Call.note]

/-- With few additions no count is at its last value. -/
theorem noWrap_of_adds (hi : Inv itfs s) (op : Op J) (h : step itfs s op = some t)
    (hadds : ∀ l e, t.adds l e < 2 ^ 32) : NoWrap itfs s op := by
  cases op with
  | watchAdd l e mem =>
    rintro hpush w x hw rfl rfl
    obtain ⟨-, h⟩ := Option.ite_none_right_eq_some.mp h
    have hlt := hadds x.listener x.evtid
    split at h
    · rename_i u hu
      cases h
      rw [added_self, watchAdd_adds hu] at hlt
      exact Nat.lt_of_le_of_lt (Nat.succ_le_succ (hi.links.activity w x hw)) hlt
    · rename_i err herr
      unfold afbEvtWatchAddEvtid at herr
      rw [if_pos hpush] at herr
      cases hf : findWatch s x.listener x.evtid with
      | some w' =>
        rw [hf] at herr
        cases herr
      | none => exact absurd ⟨rfl, rfl⟩ (findWatch_none hi.links hf w x hw)
  | _ => trivial

theorem mem_receivers (hi : Inv itfs s) (e : Evt) (l : Lis) :
    l ∈ receivers s e ↔ Active s l e := by
  simp only [receivers, List.mem_filterMap, hi.links.evtLink]
  constructor
  · rintro ⟨w, ⟨x, hw, he⟩, hx⟩
    rw [hw, Option.bind_some, Option.ite_none_right_eq_some, Option.some.injEq] at hx
    exact ⟨w, x, hw, hx.2, he, hx.1⟩
  · rintro ⟨w, x, hw, hl, he, ha⟩
    exact ⟨w, ⟨x, hw, he⟩, by simp [hw, ha, hl]⟩

private theorem receivers_nodup (hi : Inv itfs s) (e : Evt) : (receivers s e).Nodup := by
  refine List.pairwise_filterMap.mpr ((hi.links.evtNodup e).imp_of_mem ?_)
  rintro w w' hw hw' hne l hl l' hl' rfl
  obtain ⟨x, hx, he⟩ := (hi.links.evtLink e w).mp hw
  obtain ⟨x', hx', he'⟩ := (hi.links.evtLink e w').mp hw'
  rw [hx, Option.bind_some, Option.ite_none_right_eq_some, Option.some.injEq] at hl
  rw [hx', Option.bind_some, Option.ite_none_right_eq_some, Option.some.injEq] at hl'
  exact hne (hi.links.unique w w' x x' hx hx' (hl.2.trans hl'.2.symm) (he.trans he'.symm))

end

/-- After any operations with fewer than 2^32 additions for each pair: a watch is in the
list of its event once and in the list of its listener once, and nowhere else; a pair
has one watch; a listener with both callbacks is told of additions and removals in
turn; and an event is pushed once to each active listener, which for those told is
each listener whose last notification is an addition, and the pushes are counted. -/
theorem events_pushed_to_told (itfs : Itfs) (ops : List (Op J)) (s : Store J)
    (h : exec (step itfs) .start ops = some s) (hadds : ∀ l e, s.adds l e < 2 ^ 32) :
    (∀ w x, s.watch w = some x →
      (x.evtid ∈ s.evtids ∧ (s.evtid x.evtid).watchs.count w = 1) ∧
      (x.listener ∈ s.listeners ∧ (s.listener x.listener).watchs.count w = 1)) ∧
    (∀ e, ∀ w ∈ (s.evtid e).watchs, ∃ x, s.watch w = some x ∧ x.evtid = e) ∧
    (∀ l, ∀ w ∈ (s.listener l).watchs, ∃ x, s.watch w = some x ∧ x.listener = l) ∧
    (∀ w w' x x', s.watch w = some x → s.watch w' = some x' → x.listener = x'.listener →
      x.evtid = x'.evtid → w = w') ∧
    (∀ l e, Told itfs s l → ∃ b, Alternating b (notes s l e)) ∧
    ∀ e obj, ∃ dest : List Lis, dest.Nodup ∧
      (afbEvtEvtidPush s e obj).2.calls =
        s.calls ++ dest.map (fun l => .push (s.target l e) obj) ∧
      (afbEvtEvtidPush s e obj).1 = dest.length ∧
      (∀ l, l ∈ dest ↔ Active s l e) ∧
      ∀ l, Told itfs s l → (l ∈ dest ↔ (notes s l e).getLast? = some .add) := by
  have hi : Inv itfs s := by
    refine exec_keeps (I := fun s => (∀ l e, s.adds l e < 2 ^ 32) → Inv itfs s) ?_
      (fun _ => inv_start) h hadds
    intro s op t hs ht hadds
    have hi := hs fun l e => Nat.lt_of_le_of_lt (adds_step op ht l e) (hadds l e)
    exact inv_step hi op (noWrap_of_adds hi op ht hadds) ht
  refine ⟨fun w x hw => ⟨⟨hi.lives.watchEvt w x hw, ?_⟩, hi.lives.watchLis w x hw, ?_⟩,
    fun e w hw => (hi.links.evtLink e w).mp hw, fun l w hw => (hi.links.lisLink l w).mp hw,
    hi.links.unique, fun l e hl => ?_, fun e obj => ?_⟩
  · exact List.count_eq_one_of_mem (hi.links.evtNodup _) ((hi.links.evtLink _ w).mpr ⟨x, hw, rfl⟩)
  · exact List.count_eq_one_of_mem (hi.links.lisNodup _) ((hi.links.lisLink _ w).mpr ⟨x, hw, rfl⟩)
  · obtain ⟨b, hb, -⟩ := hi.links.told l e hl
    exact ⟨b, hb⟩
  · refine ⟨receivers s e, receivers_nodup hi e, ?_, ?_, mem_receivers hi e, fun l hl => ?_⟩
    · simp only [afbEvtEvtidPush, pushes_eq, Store.call]
    · simp only [afbEvtEvtidPush, pushes_eq, List.length_map]
    · obtain ⟨b, hb, ha⟩ := hi.links.told l e hl
      rw [mem_receivers hi, ← ha, hb.last]

/-- One listener with every callback, one with push and broadcast only. -/
def sampleItfs : Itfs
  | 0 => ⟨true, true, true, true⟩
  | _ => ⟨true, true, false, false⟩

/-- A listener that subscribes twice, unsubscribes twice and subscribes again. -/
def sampleOps : List (Op Nat) :=
  [.evtidCreate [101] true, .listenerCreate 0 5 true, .listenerCreate 0 5 true,
    .watchAdd 0 0 true, .watchAdd 0 0 true, .push 0 7, .watchSub 0 0, .watchSub 0 0, .push 0 8,
    .watchAdd 0 0 true]

theorem events_pushed_to_told_sample :
    ∃ s, exec (step sampleItfs) .start sampleOps = some s ∧ (∀ l e, s.adds l e < 2 ^ 32) ∧
      notes s 0 0 = [.add, .remove, .add] ∧ Told sampleItfs s 0 ∧ ∃ b, Alternating b (notes s 0 0) := by
  have hadds : ∀ s, exec (step sampleItfs) .start sampleOps = some s →
      ∀ l e, s.adds l e < 2 ^ 32 := by
    rintro _ ⟨⟩ l e
    match l, e with
    | 0, 0 => exact Nat.lt_of_sub_eq_succ rfl
    | 0, e + 1 => exact Nat.two_pow_pos 32
    | l + 1, e => exact Nat.two_pow_pos 32
  exact ⟨_, rfl, hadds _ rfl, rfl, ⟨rfl, rfl⟩,
    (events_pushed_to_told sampleItfs sampleOps _ rfl (hadds _ rfl)).2.2.2.2.1 0 0 ⟨rfl, rfl⟩⟩

/-- The notifications are optional: the second interface has none, and its listener gets
the event although it was told of nothing. -/
theorem push_without_notification :
    ∃ s, exec (step sampleItfs) .start
        [.evtidCreate [101] true, .listenerCreate 1 5 true, .watchAdd 0 0 true] =
          some (s : Store Nat) ∧
      (∀ l e, s.adds l e < 2 ^ 32) ∧ notes s 0 0 = [] ∧ (afbEvtEvtidPush s 0 9).1 = 1 ∧
      (afbEvtEvtidPush s 0 9).2.calls = [.push ⟨0, 0, 5, [101], 1⟩ 9] := by
  refine ⟨_, rfl, fun l e => ?_, rfl, rfl, rfl⟩
  match l, e with
  | 0, 0 => exact Nat.lt_of_sub_eq_succ rfl
  | 0, e + 1 => exact Nat.two_pow_pos 32
  | l + 1, e => exact Nat.two_pow_pos 32

end AfbBinder.Events
