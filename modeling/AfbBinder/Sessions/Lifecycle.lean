import Mathlib.Algebra.BigOperators.Fin
import Mathlib.Data.List.Flatten
import AfbBinder.Lib.Runs
import AfbBinder.Lib.Updates
import AfbBinder.Sessions.Model

/-! The set of sessions keeps its shape and destroys each session once: the count, the
capacity, the heads and the uuids agree, and a record is destroyed by whichever of
the cleanup and the last unref comes second. -/
namespace AfbBinder.Sessions
open Lib.Cstrings Lib.Runs Lib.Updates

/-- The sessions linked in the 16 heads. -/
def linked (s : SessionSet) : List SessionId := (List.finRange 16).flatMap s.heads

def destroys (s : SessionSet) (i : SessionId) : Nat := s.hooks.count (.destroy i)

@[simp] theorem mem_linked {s : SessionSet} {i : SessionId} :
    i ∈ linked s ↔ ∃ h, i ∈ s.heads h := by
  simp [linked]

private theorem length_linked (s : SessionSet) :
    (linked s).length = ∑ h, (s.heads h).length := by
  rw [linked, List.length_flatMap, Fin.sum_univ_def]

/-- What the set relies on between two operations. -/
structure Inv (s : SessionSet) : Prop where
  place : ∀ h, ∀ i ∈ s.heads h, pearson4 (s.session i).uuid = h
  nodup : ∀ h, (s.heads h).Nodup
  uuids : ∀ h, ∀ i ∈ s.heads h, ∀ j ∈ s.heads h, (s.session i).uuid = (s.session j).uuid → i = j
  count : s.count = ((∑ h, (s.heads h).length : Nat) : Int)
  capacity : 0 < s.max → s.count ≤ s.max
  linkedCreated : ∀ h, ∀ i ∈ s.heads h, i < s.created
  notinset : ∀ i < s.created, (s.session i).notinset = true ↔ ∀ h, i ∉ s.heads h
  owned : ∀ i < s.created, (s.session i).refcount = s.owned i
  unowned : ∀ i, s.created ≤ i → s.owned i = 0
  destroyed : ∀ i, destroys s i =
    if i < s.created ∧ (s.session i).refcount = 0 ∧ (s.session i).notinset then 1 else 0

/-- Two sets that differ in nothing that the invariant reads. -/
structure Alike (s t : SessionSet) : Prop where
  heads : t.heads = s.heads
  count : t.count = s.count
  max : t.max = s.max
  created : t.created = s.created
  owned : t.owned = s.owned
  uuid : ∀ i, (t.session i).uuid = (s.session i).uuid
  refcount : ∀ i, (t.session i).refcount = (s.session i).refcount
  notinset : ∀ i, (t.session i).notinset = (s.session i).notinset
  destroys : ∀ i, destroys t i = destroys s i

section
variable {s t u : SessionSet} {i : SessionId}

private theorem Inv.congr (hi : Inv s) (h : Alike s t) : Inv t := by
  constructor
  case place => simpa only [h.heads, h.uuid] using hi.place
  case nodup => simpa only [h.heads] using hi.nodup
  case uuids => simpa only [h.heads, h.uuid] using hi.uuids
  case count => simpa only [h.heads, h.count] using hi.count
  case capacity => simpa only [h.max, h.count] using hi.capacity
  case linkedCreated => simpa only [h.heads, h.created] using hi.linkedCreated
  case notinset => simpa only [h.heads, h.created, h.notinset] using hi.notinset
  case owned => simpa only [h.created, h.refcount, h.owned] using hi.owned
  case unowned => simpa only [h.created, h.owned] using hi.unowned
  case destroyed =>
    simpa only [h.created, h.refcount, h.notinset, h.destroys] using hi.destroyed

private theorem Alike.refl (s : SessionSet) : Alike s s :=
  ⟨rfl, rfl, rfl, rfl, rfl, fun _ => rfl, fun _ => rfl, fun _ => rfl, fun _ => rfl⟩

private theorem Alike.trans (h : Alike s t) (h' : Alike t u) : Alike s u where
  heads := h'.heads.trans h.heads
  count := h'.count.trans h.count
  max := h'.max.trans h.max
  created := h'.created.trans h.created
  owned := h'.owned.trans h.owned
  uuid i := (h'.uuid i).trans (h.uuid i)
  refcount i := (h'.refcount i).trans (h.refcount i)
  notinset i := (h'.notinset i).trans (h.notinset i)
  destroys i := (h'.destroys i).trans (h.destroys i)

private theorem alike_emit (s : SessionSet) {l : List Hook} (hl : ∀ j, .destroy j ∉ l) :
    Alike s (s.emit l) := by
  refine ⟨rfl, rfl, rfl, rfl, rfl, fun _ => rfl, fun _ => rfl, fun _ => rfl, fun j => ?_⟩
  simp [destroys, SessionSet.emit, List.count_eq_zero_of_not_mem (hl j)]

private theorem modify_field {α : Type} (s : SessionSet) (i j : SessionId)
    {f : Session → Session} (g : Session → α) (hg : g (f (s.session i)) = g (s.session i)) :
    g ((s.modify i f).session j) = g (s.session j) :=
  update_field s.session i j g hg

private theorem alike_modify (s : SessionSet) (i : SessionId) {f : Session → Session}
    (hu : ∀ x, (f x).uuid = x.uuid) (hr : ∀ x, (f x).refcount = x.refcount)
    (hn : ∀ x, (f x).notinset = x.notinset) : Alike s (s.modify i f) :=
  ⟨rfl, rfl, rfl, rfl, rfl, fun j => modify_field s i j _ (hu _),
    fun j => modify_field s i j _ (hr _), fun j => modify_field s i j _ (hn _), fun _ => rfl⟩

private theorem alike_sessionClose (s : SessionSet) (i : SessionId) :
    Alike s (sessionClose s i) := by
  unfold sessionClose
  split
  · exact .refl s
  · exact (alike_emit s (by simp [releases])).trans
      (alike_modify _ i (fun _ => rfl) (fun _ => rfl) fun _ => rfl)

private theorem alike_newToken (s : SessionSet) (i : SessionId) (new : Bytes) :
    Alike s (afbSessionNewToken s i new) := by
  unfold afbSessionNewToken
  refine Alike.trans ?_ (alike_emit _ (by simp))
  exact alike_modify s i (fun _ => rfl) (fun _ => rfl) fun _ => rfl

private theorem alike_cookie (s : SessionSet) (i : SessionId) (key : Nat)
    (makecb freecb : Option Nat) (closure : Nat) (replace mem : Bool) :
    Alike s (afbSessionCookie s i key makecb freecb closure replace mem).2 := by
  have hfree : ∀ l : List (Nat × Nat), Alike s (s.emit (l.map fun f => .freecb i f.1 f.2)) :=
    fun l => alike_emit s (by simp)
  dsimp only [afbSessionCookie]
  generalize cookieScan key makecb freecb closure replace mem _ = r
  refine (hfree r.2.2).trans ?_
  exact alike_modify _ i (fun _ => rfl) (fun _ => rfl) fun _ => rfl

/-- One pass over a head: what it unlinks is marked, and destroyed when it has no
reference; the rest of the set is left as it was. -/
private structure Swept (l l' : List SessionId) (s t : SessionSet) : Prop where
  heads : t.heads = s.heads
  max : t.max = s.max
  created : t.created = s.created
  owned : t.owned = s.owned
  sublist : l'.Sublist l
  count : t.count + l.length = s.count + l'.length
  uuid : ∀ i, (t.session i).uuid = (s.session i).uuid
  refcount : ∀ i, (t.session i).refcount = (s.session i).refcount
  notinset : ∀ i, (t.session i).notinset = true ↔
    (s.session i).notinset = true ∨ i ∈ l ∧ i ∉ l'
  destroys : ∀ i, destroys t i = destroys s i +
    if i ∈ l ∧ i ∉ l' ∧ (s.session i).refcount = 0 then 1 else 0

private theorem Alike.swept {l l' : List SessionId} (h : Alike s t) (h' : Swept l l' t u) :
    Swept l l' s u where
  heads := h'.heads.trans h.heads
  max := h'.max.trans h.max
  created := h'.created.trans h.created
  owned := h'.owned.trans h.owned
  sublist := h'.sublist
  count := by rw [h'.count, h.count]
  uuid i := (h'.uuid i).trans (h.uuid i)
  refcount i := (h'.refcount i).trans (h.refcount i)
  notinset i := by rw [h'.notinset, h.notinset]
  destroys i := by rw [h'.destroys, h.destroys, h.refcount]

private theorem Swept.kept {l l' : List SessionId} (h : Swept l l' s t) (hi : i ∉ l) :
    Swept (i :: l) (i :: l') s t where
  heads := h.heads
  max := h.max
  created := h.created
  owned := h.owned
  sublist := h.sublist.cons_cons i
  count := by
    have := h.count
    simp only [List.length_cons]
    omega
  uuid := h.uuid
  refcount := h.refcount
  notinset j := by
    rw [h.notinset]
    by_cases hj : j = i
    · subst hj
      simp [hi]
    · simp [hj]
  destroys j := by
    rw [h.destroys]
    by_cases hj : j = i
    · subst hj
      simp [hi]
    · simp [hj]

private theorem cleanupOut_destroys (s : SessionSet) (i j : SessionId) :
    destroys (cleanupOut s i) j =
      destroys s j + if j = i ∧ (s.session i).refcount = 0 then 1 else 0 := by
  unfold cleanupOut
  by_cases hr : (s.session i).refcount = 0
  · by_cases hj : j = i
    · subst hj
      simp [destroys, SessionSet.modify, hr, sessionDestroy, SessionSet.emit]
    · simp [destroys, SessionSet.modify, hr, sessionDestroy, SessionSet.emit, hj, Ne.symm hj]
  · simp [destroys, SessionSet.modify, hr]

theorem cleanupOut_session (s : SessionSet) (i : SessionId) :
    (cleanupOut s i).session =
      Function.update s.session i { s.session i with notinset := true } := by
  unfold cleanupOut
  dsimp only
  split <;> rfl

/-- The session is taken out of the head before the rest is swept. -/
theorem Swept.out {l l' : List SessionId} (h : Swept l l' (cleanupOut s i) u)
    (hi : i ∉ l) : Swept (i :: l) l' s u := by
  have hi' : i ∉ l' := fun hm => hi (h.sublist.subset hm)
  have hrest : (cleanupOut s i).heads = s.heads ∧ (cleanupOut s i).max = s.max ∧
      (cleanupOut s i).created = s.created ∧ (cleanupOut s i).owned = s.owned ∧
      (cleanupOut s i).count = s.count - 1 := by
    unfold cleanupOut
    dsimp only
    split <;> exact ⟨rfl, rfl, rfl, rfl, rfl⟩
  have hr : ∀ j, ((cleanupOut s i).session j).refcount = (s.session j).refcount := by
    rw [cleanupOut_session]
    exact fun j => modify_field s i j (f := fun x => { x with notinset := true }) _ rfl
  have hu : ∀ j, ((cleanupOut s i).session j).uuid = (s.session j).uuid := by
    rw [cleanupOut_session]
    exact fun j => modify_field s i j (f := fun x => { x with notinset := true }) _ rfl
  obtain ⟨hh, hm, hc, ho, hn⟩ := hrest
  refine ⟨h.heads.trans hh, h.max.trans hm, h.created.trans hc, h.owned.trans ho,
    h.sublist.cons i, ?_, fun j => (h.uuid j).trans (hu j), fun j => (h.refcount j).trans (hr j),
    fun j => ?_, fun j => ?_⟩
  · have := h.count
    rw [hn] at this
    simp only [List.length_cons]
    omega
  · rw [h.notinset, cleanupOut_session]
    by_cases hj : j = i
    · subst hj
      simp [hi, hi']
    · simp [hj]
  · rw [h.destroys, cleanupOut_destroys, hr]
    by_cases hj : j = i
    · subst hj
      simp [hi, hi']
    · simp [hj]

private theorem cleanupHead_swept (force : Bool) (l : List SessionId) (hl : l.Nodup)
    (s : SessionSet) : Swept l (cleanupHead force l s).1 s (cleanupHead force l s).2 := by
  induction l generalizing s with
  | nil =>
    exact ⟨rfl, rfl, rfl, rfl, .slnil, rfl, fun _ => rfl, fun _ => rfl, by simp [cleanupHead],
      by simp [cleanupHead]⟩
  | cons i l ih =>
    obtain ⟨hi, hl⟩ := List.nodup_cons.mp hl
    have hclose : Alike s
        (if force ∨ (s.session i).expiration < s.now then sessionClose s i else s) := by
      split
      · exact alike_sessionClose s i
      · exact .refl s
    rw [cleanupHead]
    generalize (if force ∨ (s.session i).expiration < s.now then sessionClose s i else s) = t
      at hclose ⊢
    refine hclose.swept ?_
    by_cases hc : (t.session i).closed
    · simpa only [hc, if_true] using (ih hl (cleanupOut t i)).out hi
    · simpa only [hc, Bool.false_eq_true, if_false] using (ih hl t).kept hi

private theorem cleanupHead_force (l : List SessionId) (s : SessionSet) :
    (cleanupHead true l s).1 = [] := by
  induction l generalizing s with
  | nil => rfl
  | cons i l ih =>
    have hc : ((sessionClose s i).session i).closed = true := by
      unfold sessionClose
      split
      · assumption
      · simp [SessionSet.modify]
    rw [cleanupHead]
    simp only [true_or, if_true, hc]
    exact ih _

theorem inv_start : Inv .start := by
  constructor <;> simp [SessionSet.start, destroys]

/-- A sweep of one head keeps the invariant: what left the head had no other link. -/
theorem Inv.sweep {idx : Fin 16} {l' : List SessionId} (hi : Inv s)
    (h : Swept (s.heads idx) l' s t) :
    Inv { t with heads := Function.update t.heads idx l' } := by
  have hsub : ∀ h', ∀ i ∈ Function.update s.heads idx l' h', i ∈ s.heads h' := by
    intro h' i hm
    by_cases he : h' = idx
    · subst he
      rw [Function.update_self] at hm
      exact h.sublist.subset hm
    · rwa [Function.update_of_ne he] at hm
  have hgone : ∀ i, (∀ h', i ∉ Function.update s.heads idx l' h') ↔
      (∀ h', i ∉ s.heads h') ∨ i ∈ s.heads idx ∧ i ∉ l' := by
    intro i
    constructor
    · intro hn
      by_cases hm : i ∈ s.heads idx
      · exact .inr ⟨hm, by simpa using hn idx⟩
      · refine .inl fun h' => ?_
        by_cases he : h' = idx
        · exact he ▸ hm
        · simpa [Function.update_of_ne he] using hn h'
    · rintro (hn | ⟨hm, hn⟩) h'
      · exact fun hm => hn h' (hsub h' i hm)
      · intro hm'
        have he : h' = idx := (hi.place h' i (hsub h' i hm')).symm.trans (hi.place idx i hm)
        subst he
        exact hn (by simpa using hm')
  constructor
  case place =>
    intro h' i hm
    rw [h.heads] at hm
    rw [h.uuid]
    exact hi.place h' i (hsub h' i hm)
  case nodup =>
    intro h'
    rw [h.heads]
    by_cases he : h' = idx
    · subst he
      simpa using h.sublist.nodup (hi.nodup h')
    · simpa [Function.update_of_ne he] using hi.nodup h'
  case uuids =>
    intro h' i hm j hm' he
    rw [h.heads] at hm hm'
    simp only [h.uuid] at he
    exact hi.uuids h' i (hsub h' i hm) j (hsub h' j hm') he
  case count =>
    have hlen := sum_update s.heads List.length idx l'
    have hc := h.count
    have hs := hi.count
    rw [h.heads]
    dsimp only
    omega
  case capacity =>
    have := h.sublist.length_le
    have := h.count
    have := hi.capacity
    rw [h.max]
    dsimp only
    omega
  case linkedCreated =>
    intro h' i hm
    rw [h.heads] at hm
    rw [h.created]
    exact hi.linkedCreated h' i (hsub h' i hm)
  case notinset =>
    intro i hc
    rw [h.created] at hc
    rw [h.heads, hgone, h.notinset, hi.notinset i hc]
  case owned =>
    intro i hc
    rw [h.created] at hc
    rw [h.refcount, h.owned, hi.owned i hc]
  case unowned =>
    rw [h.created, h.owned]
    exact hi.unowned
  case destroyed =>
    intro i
    change destroys t i = _
    have hnow : (i < t.created ∧ (t.session i).refcount = 0 ∧ (t.session i).notinset = true) ↔
        i < s.created ∧ (s.session i).refcount = 0 ∧
          ((s.session i).notinset = true ∨ i ∈ s.heads idx ∧ i ∉ l') := by
      rw [h.created, h.refcount, h.notinset]
    rw [h.destroys, hi.destroyed, if_congr hnow rfl rfl]
    by_cases hm : i ∈ s.heads idx ∧ i ∉ l'
    · have hc := hi.linkedCreated idx i hm.1
      have hn : ¬ (s.session i).notinset = true := fun hn => (hi.notinset i hc).mp hn idx hm.1
      simp [hm, hc, hn]
    · have hm' : ¬ (i ∈ s.heads idx ∧ i ∉ l' ∧ (s.session i).refcount = 0) :=
        fun hx => hm ⟨hx.1, hx.2.1⟩
      simp only [hm, hm', or_false, if_false, Nat.add_zero]

private theorem inv_cleanupIdx (hi : Inv s) (force : Bool) (idx : Fin 16) :
    Inv (cleanupIdx force s idx) :=
  hi.sweep (cleanupHead_swept force _ (hi.nodup idx) s)

theorem inv_cleanup (hi : Inv s) (force : Bool) : Inv (sessionsetCleanup s force) := by
  unfold sessionsetCleanup
  generalize List.finRange 16 = l
  induction l generalizing s with
  | nil => exact hi
  | cons idx l ih => exact ih (inv_cleanupIdx hi force idx)

/-- The forced cleanup leaves nothing linked. -/
theorem cleanup_force (hi : Inv s) (h : Fin 16) :
    (sessionsetCleanup s true).heads h = [] := by
  have hone : ∀ {s : SessionSet}, Inv s → ∀ idx, (cleanupIdx true s idx).heads =
      Function.update s.heads idx [] := by
    intro s hi idx
    simp only [cleanupIdx, cleanupHead_force]
    rw [(cleanupHead_swept true _ (hi.nodup idx) s).heads]
  have hall : ∀ (l : List (Fin 16)) {s : SessionSet}, Inv s → h ∈ l ∨ s.heads h = [] →
      (l.foldl (cleanupIdx true) s).heads h = [] := by
    intro l
    induction l with
    | nil => exact fun _ hm => hm.resolve_left (by simp)
    | cons idx l ih =>
      intro s hi hm
      refine ih (inv_cleanupIdx hi true idx) ?_
      rw [hone hi]
      by_cases he : h = idx
      · subst he
        simp
      · rw [Function.update_of_ne he]
        exact hm.imp_left fun hm => (List.mem_cons.mp hm).resolve_left he
  exact hall _ hi (.inl (List.mem_finRange h))

private theorem inv_init (hi : Inv s) {maxSessionCount timeout : Int} {initok : Option Bytes}
    {new : Bytes} (h : afbSessionInit s maxSessionCount timeout initok new = .ok t) : Inv t := by
  have hc := inv_cleanup hi true
  have hz : (sessionsetCleanup s true).count = 0 := by
    rw [hc.count]
    simp [cleanup_force hi]
  unfold afbSessionInit at h
  generalize sessionsetCleanup s true = u at hc hz h
  split at h
  · cases h
  · cases h
    refine ⟨hc.place, hc.nodup, hc.uuids, hc.count, fun hm => ?_, hc.linkedCreated, hc.notinset,
      hc.owned, hc.unowned, hc.destroyed⟩
    rw [hz]
    exact Int.le_of_lt hm

theorem search_mem {uuid : Bytes} {h : Fin 16} (hs : sessionsetSearch s uuid h = some i) :
    i ∈ s.heads h :=
  List.mem_of_find?_eq_some hs

private theorem search_none {uuid : Bytes} {h : Fin 16} (hs : sessionsetSearch s uuid h = none) :
    ∀ i ∈ s.heads h, (s.session i).uuid ≠ uuid := by
  intro i hm he
  have := List.find?_eq_none.mp hs i hm
  simp [strcmp_eq, he] at this

/-- Only the references of one session change: the record and its users agree, and it
is destroyed when the last reference goes after the link. -/
theorem Inv.refs (hi : Inv s) (hc : i < s.created) (hheads : t.heads = s.heads)
    (hcount : t.count = s.count) (hmax : t.max = s.max) (hcreated : t.created = s.created)
    (huuid : ∀ j, (t.session j).uuid = (s.session j).uuid)
    (hnotinset : ∀ j, (t.session j).notinset = (s.session j).notinset)
    (hrefcount : ∀ j, j ≠ i → (t.session j).refcount = (s.session j).refcount)
    (howned : t.owned = Function.update s.owned i (t.session i).refcount)
    (hother : ∀ j, j ≠ i → destroys t j = destroys s j)
    (hself : destroys t i = if (t.session i).refcount = 0 ∧ (s.session i).notinset then 1 else 0) :
    Inv t := by
  constructor
  case place => simpa only [hheads, huuid] using hi.place
  case nodup => simpa only [hheads] using hi.nodup
  case uuids => simpa only [hheads, huuid] using hi.uuids
  case count => simpa only [hheads, hcount] using hi.count
  case capacity => simpa only [hmax, hcount] using hi.capacity
  case linkedCreated => simpa only [hheads, hcreated] using hi.linkedCreated
  case notinset => simpa only [hheads, hcreated, hnotinset] using hi.notinset
  case owned =>
    intro j hj
    rw [hcreated] at hj
    by_cases he : j = i
    · subst he
      rw [howned, Function.update_self]
    · rw [howned, Function.update_of_ne he, hrefcount j he, hi.owned j hj]
  case unowned =>
    intro j hj
    rw [hcreated] at hj
    rw [howned, Function.update_of_ne (Nat.ne_of_gt (Nat.lt_of_lt_of_le hc hj))]
    exact hi.unowned j hj
  case destroyed =>
    intro j
    by_cases he : j = i
    · subst he
      simp only [hself, hcreated, hc, hnotinset, true_and]
    · simp only [hother j he, hi.destroyed, hcreated, hrefcount j he, hnotinset]

theorem inv_addref (hi : Inv s) (hc : i < s.created)
    (hlive : 0 < s.owned i ∨ ∃ h, i ∈ s.heads h) : Inv ((afbSessionAddref s i).own i) := by
  have hnot : ¬ ((s.session i).refcount = 0 ∧ (s.session i).notinset = true) := by
    rintro ⟨h0, hn⟩
    rcases hlive with ho | ⟨h, hm⟩
    · have := hi.owned i hc
      omega
    · exact (hi.notinset i hc).mp hn h hm
  have hd := hi.destroyed i
  refine hi.refs hc rfl rfl rfl rfl (fun j => ?_) (fun j => ?_) (fun j hj => ?_) ?_
    (fun j _ => ?_) ?_
  · exact modify_field s i j (f := fun x => { x with refcount := x.refcount + 1 }) _ rfl
  · exact modify_field s i j (f := fun x => { x with refcount := x.refcount + 1 }) _ rfl
  · exact congrArg Session.refcount (Function.update_of_ne hj _ _)
  · simp [SessionSet.own, afbSessionAddref, SessionSet.modify, SessionSet.emit, hi.owned i hc]
  · simp [destroys, SessionSet.own, afbSessionAddref, SessionSet.modify, SessionSet.emit]
  · simp only [hnot, and_false, if_false] at hd
    simpa [destroys, SessionSet.own, afbSessionAddref, SessionSet.modify, SessionSet.emit] using hd

/-- What the decrement gives, and a close and a destruction keep, holds once the reference is released. -/
theorem unref_keeps {P : SessionSet → Prop} {s : SessionSet} {i : SessionId}
    (hdec : P ((s.emit [.unref i]).modify i fun x => { x with refcount := x.refcount - 1 }))
    (hclose : ∀ u, P u → P (sessionClose u i)) (hdestroy : ∀ u, P u → P (sessionDestroy u i)) :
    P (afbSessionUnref s i) := by
  unfold afbSessionUnref
  dsimp only
  generalize (s.emit [.unref i]).modify i (fun x => { x with refcount := x.refcount - 1 }) = v at hdec ⊢
  split
  · have hclosed : P (if (v.session i).autoclose then sessionClose v i else v) := by
      split
      · exact hclose v hdec
      · exact hdec
    generalize (if (v.session i).autoclose then sessionClose v i else v) = w at hclosed ⊢
    split
    · exact hdestroy _ hclosed
    · exact hclosed
  · exact hdec

/-- The decrement, then what comes with the last reference: a close that changes
nothing here, and the destruction of a session that has left the set. -/
theorem unref_eq (s : SessionSet) (i : SessionId) :
    ∃ v, Alike (s.modify i fun x => { x with refcount := x.refcount - 1 }) v ∧
      afbSessionUnref s i =
        if (s.session i).refcount - 1 = 0 ∧ (s.session i).notinset then sessionDestroy v i
        else v := by
  have hemit : Alike (s.modify i fun x => { x with refcount := x.refcount - 1 })
      ((s.emit [.unref i]).modify i fun x => { x with refcount := x.refcount - 1 }) :=
    alike_emit (s.modify i _) (l := [.unref i]) (by simp)
  unfold afbSessionUnref
  obtain ⟨v, hv⟩ : ∃ v, v = (s.emit [.unref i]).modify i fun x =>
    { x with refcount := x.refcount - 1 } := ⟨_, rfl⟩
  have hvi : v.session i = { s.session i with refcount := (s.session i).refcount - 1 } := by
    rw [hv]
    exact Function.update_self i _ _
  simp only [← hv] at hemit ⊢
  have hclose : Alike v (if (v.session i).autoclose then sessionClose v i else v) := by
    split
    · exact alike_sessionClose v i
    · exact .refl v
  generalize (if (v.session i).autoclose then sessionClose v i else v) = w at hclose
  by_cases hr : (s.session i).refcount - 1 = 0
  · refine ⟨w, hemit.trans hclose, ?_⟩
    simp [hclose.notinset, hvi, hr]
  · refine ⟨v, hemit, ?_⟩
    simp [hvi, hr]

private theorem inv_unref (hi : Inv s) (ho : 0 < s.owned i) :
    Inv ((afbSessionUnref s i).disown i) := by
  have hc : i < s.created := by
    by_contra hc
    exact absurd (hi.unowned i (Nat.le_of_not_lt hc)) (Nat.ne_of_gt ho)
  have hr := hi.owned i hc
  have hd := hi.destroyed i
  rw [if_neg (fun h => by omega)] at hd
  obtain ⟨v, hv, heq⟩ := unref_eq s i
  have hself : (s.modify i fun x => { x with refcount := x.refcount - 1 }).session i =
      { s.session i with refcount := (s.session i).refcount - 1 } := Function.update_self i _ _
  have hcount : ((afbSessionUnref s i).session = v.session ∧
      (afbSessionUnref s i).heads = v.heads) ∧ (afbSessionUnref s i).count = v.count ∧
      (afbSessionUnref s i).max = v.max ∧ (afbSessionUnref s i).created = v.created ∧
      (afbSessionUnref s i).owned = v.owned := by
    rw [heq]
    split <;> exact ⟨⟨rfl, rfl⟩, rfl, rfl, rfl, rfl⟩
  obtain ⟨⟨hsession, hheads⟩, hcount, hmax, hcreated, howned⟩ := hcount
  have hvi : (v.session i).refcount = (s.session i).refcount - 1 := by
    rw [hv.refcount, hself]
  refine hi.refs hc (hheads.trans hv.heads) (hcount.trans hv.count) (hmax.trans hv.max)
    (hcreated.trans hv.created) (fun j => ?_) (fun j => ?_) (fun j hj => ?_) ?_
    (fun j hj => ?_) ?_
  · exact (congrArg (fun f => (f j).uuid) hsession).trans
      ((hv.uuid j).trans (modify_field s i j Session.uuid rfl))
  · exact (congrArg (fun f => (f j).notinset) hsession).trans
      ((hv.notinset j).trans (modify_field s i j Session.notinset rfl))
  · refine (congrArg (fun f => (f j).refcount) hsession).trans ((hv.refcount j).trans ?_)
    exact congrArg Session.refcount (Function.update_of_ne hj _ _)
  · simp [SessionSet.disown, howned, hv.owned, hsession, hvi, hr, SessionSet.modify]
  · have hvd : destroys v j = destroys s j := hv.destroys j
    rw [← hvd]
    simp only [heq]
    split
    · simp [destroys, SessionSet.disown, sessionDestroy, SessionSet.emit, Ne.symm hj]
    · rfl
  · have hvd : destroys v i = destroys s i := hv.destroys i
    have hri : (((afbSessionUnref s i).disown i).session i).refcount =
        (s.session i).refcount - 1 := by
      simp [SessionSet.disown, hsession, hvi]
    rw [hri, heq]
    split
    · simpa [destroys, SessionSet.disown, sessionDestroy, SessionSet.emit, hd] using
        hvd.trans hd
    · exact hvd.trans hd

theorem sessionAdd_ok {uuid : Bytes} {timeout : Int} {idx : Fin 16} {mem : Bool}
    (h : sessionAdd s uuid timeout idx mem = .ok (i, t)) :
    i = s.created ∧ ¬ (s.max ≠ 0 ∧ s.max ≤ s.count) ∧
      t = { s with
        created := i + 1
        session := Function.update s.session i (sessionUpdateExpiration s
          { calloc with refcount := 1, uuid, token := s.initok, timeout })
        heads := Function.update s.heads idx (i :: s.heads idx)
        count := s.count + 1
        hooks := s.hooks ++ [.create i] } := by
  unfold sessionAdd at h
  split at h
  · cases h
  split at h
  · simp only [sessionsetAdd] at h
    by_cases hmax : s.max ≠ 0 ∧ s.max ≤ s.count
    · simp only [if_pos hmax] at h
      cases h
    · simp only [if_neg hmax] at h
      cases h
      exact ⟨rfl, hmax, rfl⟩
  · cases h

/-- A new session takes the next address, its first reference and a link in the head of
its uuid, which no linked session has. -/
theorem inv_sessionAdd (hi : Inv s) {uuid : Bytes} {timeout : Int} {mem : Bool}
    (hnew : ∀ i ∈ s.heads (pearson4 uuid), (s.session i).uuid ≠ uuid)
    (h : sessionAdd s uuid timeout (pearson4 uuid) mem = .ok (i, t)) : Inv (t.own i) := by
  obtain ⟨rfl, hmax, rfl⟩ := sessionAdd_ok h
  obtain ⟨x, hx⟩ : ∃ x, x = sessionUpdateExpiration s
    { calloc with refcount := 1, uuid, token := s.initok, timeout } := ⟨_, rfl⟩
  rw [← hx]
  have hu : x.uuid = uuid := hx ▸ rfl
  have hr : x.refcount = 1 := hx ▸ rfl
  have hn : x.notinset = false := hx ▸ rfl
  have hfresh : ∀ h, s.created ∉ s.heads h := fun h hm =>
    Nat.lt_irrefl _ (hi.linkedCreated h _ hm)
  have hold : ∀ {j}, j ≠ s.created → Function.update s.session s.created x j = s.session j :=
    fun hj => Function.update_of_ne hj _ _
  have hlinked : ∀ {h j}, j ∈ s.heads h →
      Function.update s.session s.created x j = s.session j :=
    fun {h j} hm => hold fun he => hfresh h (he ▸ hm)
  have hmem : ∀ {h j}, j ∈ Function.update s.heads (pearson4 uuid)
      (s.created :: s.heads (pearson4 uuid)) h ↔
        j = s.created ∧ h = pearson4 uuid ∨ j ∈ s.heads h := by
    intro h j
    by_cases he : h = pearson4 uuid
    · subst he
      simp
    · simp [he]
  constructor
  case place =>
    intro h j hm
    rcases hmem.mp hm with ⟨rfl, rfl⟩ | hm
    · simp [SessionSet.own, hu]
    · simpa [SessionSet.own, hlinked hm] using hi.place h j hm
  case nodup =>
    intro h
    by_cases he : h = pearson4 uuid
    · subst he
      simpa [SessionSet.own] using ⟨hfresh _, hi.nodup _⟩
    · simpa [SessionSet.own, Function.update_of_ne he] using hi.nodup h
  case uuids =>
    intro h j hj k hk he
    simp only [SessionSet.own] at he
    rcases hmem.mp hj with ⟨rfl, rfl⟩ | hj <;> rcases hmem.mp hk with ⟨rfl, hh⟩ | hk
    · rfl
    · rw [Function.update_self, hlinked hk, hu] at he
      exact absurd he.symm (hnew k hk)
    · subst hh
      rw [Function.update_self, hlinked hj, hu] at he
      exact absurd he (hnew j hj)
    · rw [hlinked hj, hlinked hk] at he
      exact hi.uuids h j hj k hk he
  case count =>
    have hlen := sum_update s.heads List.length (pearson4 uuid)
      (s.created :: s.heads (pearson4 uuid))
    have hs := hi.count
    rw [List.length_cons] at hlen
    simp only [SessionSet.own]
    omega
  case capacity =>
    intro hpos
    simp only [SessionSet.own] at hpos ⊢
    have hlt : ¬ s.max ≤ s.count := fun hle => hmax ⟨by omega, hle⟩
    omega
  case linkedCreated =>
    intro h j hm
    rcases hmem.mp hm with ⟨rfl, -⟩ | hm
    · exact Nat.lt_succ_self _
    · exact Nat.lt_succ_of_lt (hi.linkedCreated h j hm)
  case notinset =>
    intro j hj
    by_cases he : j = s.created
    · subst he
      have : ∃ h, s.created ∈ Function.update s.heads (pearson4 uuid)
          (s.created :: s.heads (pearson4 uuid)) h := ⟨pearson4 uuid, by simp⟩
      simpa [SessionSet.own, hn] using this
    · simp only [SessionSet.own, hold he, hmem, he, false_and, false_or]
      exact hi.notinset j (Nat.lt_of_le_of_ne (Nat.le_of_lt_succ hj) he)
  case owned =>
    intro j hj
    by_cases he : j = s.created
    · subst he
      simp [SessionSet.own, hr, hi.unowned]
    · simpa [SessionSet.own, he] using
        hi.owned j (Nat.lt_of_le_of_ne (Nat.le_of_lt_succ hj) he)
  case unowned =>
    intro j hj
    have he : j ≠ s.created := Nat.ne_of_gt hj
    simpa [SessionSet.own, he] using hi.unowned j (Nat.le_of_succ_le hj)
  case destroyed =>
    intro j
    have hd : destroys (SessionSet.own { s with
        created := s.created + 1
        session := Function.update s.session s.created x
        heads := Function.update s.heads (pearson4 uuid) (s.created :: s.heads (pearson4 uuid))
        count := s.count + 1
        hooks := s.hooks ++ [.create s.created] } s.created) j = destroys s j := by
      simp [destroys, SessionSet.own]
    rw [hd, hi.destroyed]
    by_cases he : j = s.created
    · subst he
      simp [SessionSet.own, hn]
    · simp only [SessionSet.own, hold he]
      refine if_congr (and_congr_left fun _ => ?_) rfl rfl
      exact ⟨Nat.lt_succ_of_lt, fun h => Nat.lt_of_le_of_ne (Nat.le_of_lt_succ h) he⟩

private theorem inv_get (hi : Inv s) {uuid : Option Bytes} {timeout : Int} {news : List Bytes}
    {mem : Bool} {r : Except Errno SessionId × SessionSet}
    (h : afbSessionGet s uuid timeout news mem = some r) :
    Inv (given (r.1.toOption, r.2)) := by
  have hc := inv_cleanup hi false
  unfold afbSessionGet at h
  generalize sessionsetCleanup s false = u at hc h
  cases uuid with
  | none =>
    obtain ⟨uuid, hu, hr⟩ := Option.map_eq_some_iff.mp h
    have hnone := List.find?_some hu
    split at hr
    · rename_i hok
      subst hr
      exact inv_sessionAdd hc (search_none (Option.isNone_iff_eq_none.mp hnone)) hok
    · subst hr
      exact hc
  | some uuid =>
    cases hs : sessionsetSearch u uuid (pearson4 uuid) with
    | some i =>
      simp only [hs, Option.some.injEq] at h
      subst h
      have hm := search_mem hs
      exact inv_addref hc (hc.linkedCreated _ i hm) (.inr ⟨_, hm⟩)
    | none =>
      simp only [hs, Option.some.injEq] at h
      split at h
      · rename_i hok
        subst h
        exact inv_sessionAdd hc (search_none hs) hok
      · subst h
        exact hc

private theorem inv_search (hi : Inv s) (uuid : Bytes) : Inv (given (afbSessionSearch s uuid)) := by
  have hc := inv_cleanup hi false
  unfold afbSessionSearch
  generalize sessionsetCleanup s false = u at hc
  dsimp only
  split
  · rename_i i hs
    have hm := search_mem hs
    exact inv_addref hc (hc.linkedCreated _ i hm) (.inr ⟨_, hm⟩)
  · exact hc

theorem inv_step (hi : Inv s) (op : Op) (h : step s op = some t) : Inv t := by
  have guarded : ∀ {i : SessionId} {u : SessionSet}, (0 < s.owned i → Inv u) →
      (if 0 < s.owned i then some u else none) = some t → Inv t := by
    intro i u hu ht
    split at ht
    · cases ht
      exact hu ‹_›
    · cases ht
  have hcreated : ∀ {i}, 0 < s.owned i → i < s.created := by
    intro i ho
    by_contra hc
    exact absurd (hi.unowned i (Nat.le_of_not_lt hc)) (Nat.ne_of_gt ho)
  cases op with
  | init maxSessionCount timeout initok new =>
    cases h
    cases he : afbSessionInit s maxSessionCount timeout initok new with
    | error e => simpa [Except.toOption] using hi
    | ok u => exact inv_init hi he
  | get uuid timeout news mem =>
    obtain ⟨r, hr, rfl⟩ := Option.map_eq_some_iff.mp h
    exact inv_get hi hr
  | search uuid =>
    exact Option.some.inj h ▸ inv_search hi uuid
  | addref i => exact guarded (fun ho => inv_addref hi (hcreated ho) (.inl ho)) h
  | unref i => exact guarded (fun ho => inv_unref hi ho) h
  | close i => exact guarded (fun _ => hi.congr (alike_sessionClose s i)) h
  | setAutoclose i b =>
    refine guarded (fun _ => hi.congr ?_) h
    exact alike_modify s i (fun _ => rfl) (fun _ => rfl) fun _ => rfl
  | newToken i new => exact guarded (fun _ => hi.congr (alike_newToken s i new)) h
  | cookie i key makecb freecb closure replace mem =>
    exact guarded
      (fun _ => hi.congr (alike_cookie s i key makecb freecb closure replace mem)) h
  | purge => exact Option.some.inj h ▸ inv_cleanup hi false
  | tick seconds =>
    cases h
    exact hi.congr ⟨rfl, rfl, rfl, rfl, rfl, fun _ => rfl, fun _ => rfl, fun _ => rfl,
      fun _ => rfl⟩

private theorem linked_inj (hi : Inv s) {j : SessionId} (hm : i ∈ linked s) (hm' : j ∈ linked s)
    (he : (s.session i).uuid = (s.session j).uuid) : i = j := by
  obtain ⟨h, hm⟩ := mem_linked.mp hm
  obtain ⟨h', hm'⟩ := mem_linked.mp hm'
  have hh : h = h' := by rw [← hi.place h i hm, ← hi.place h' j hm', he]
  subst hh
  exact hi.uuids h i hm j hm' he

theorem nodup_linked (hi : Inv s) : (linked s).Nodup := by
  refine List.nodup_flatMap.mpr ⟨fun h _ => hi.nodup h, ?_⟩
  refine (List.nodup_finRange 16).imp fun {h h'} hne i hm hm' => hne ?_
  rw [← hi.place h i hm, ← hi.place h' i hm']

end

/-- After any sequence of calls, whatever the clock, the set agrees with its count, its
capacity and its heads, and the destroyed sessions, each destroyed once, are exactly
those that have left the set and that nothing references. -/
theorem sessions_destroyed_once (ops : List Op) (s : SessionSet)
    (h : exec step .start ops = some s) :
    s.count = (linked s).length ∧ (0 < s.max → s.count ≤ s.max) ∧
      ((linked s).map fun i => (s.session i).uuid).Nodup ∧
      (∀ idx, ∀ i ∈ s.heads idx, pearson4 (s.session i).uuid = idx) ∧
      (∀ i < s.created, (s.session i).refcount = s.owned i) ∧
      ∀ i, destroys s i =
        if i < s.created ∧ (s.session i).refcount = 0 ∧ i ∉ linked s then 1 else 0 := by
  have hi : Inv s := exec_keeps (fun _ op _ hi h => inv_step hi op h) inv_start h
  refine ⟨?_, hi.capacity, ?_, hi.place, hi.owned, fun i => ?_⟩
  · rw [length_linked]
    exact hi.count
  · exact (nodup_linked hi).map_on fun i hm j hm' he => linked_inj hi hm hm' he
  · rw [hi.destroyed]
    refine if_congr (and_congr_right fun hc => and_congr_right fun _ => ?_) rfl rfl
    rw [hi.notinset i hc, mem_linked, not_exists]

/-- Two sessions in a set of two: the one closed while it is referenced leaves the set
in the purge and is destroyed by the last unref, the other stays without reference. -/
def sampleOps : List Op :=
  [.init 2 60 none [42], .get (some [97]) (-2) [] true, .get none 5 [[97], [98]] true,
    .get (some [99]) 5 [] true, .addref 0, .close 0, .unref 0, .unref 1, .purge, .unref 0]

theorem sessions_destroyed_once_sample :
    ∃ s, exec step .start sampleOps = some s ∧ linked s = [1] ∧ s.count = 1 ∧ destroys s 0 = 1 ∧
      (s.session 1).refcount = 0 ∧ destroys s 1 = 0 ∧ (0 < s.max → s.count ≤ s.max) :=
  ⟨_, rfl, rfl, rfl, rfl, rfl, rfl, (sessions_destroyed_once sampleOps _ rfl).2.1⟩

end AfbBinder.Sessions
