import Mathlib.Data.List.Nodup
import AfbBinder.Lib.Updates
import AfbBinder.Events.Model

/-! The watches of events and listeners: both lists agree, a pair has one watch, and a
listener that has both callbacks is told of the changes of its activity in turn.
This holds inside the removals too, where an event or a listener is half destroyed. -/
namespace AfbBinder.Events
open Lib.Updates
variable {J : Type}

inductive Note where
  | add
  | remove
  deriving DecidableEq, Repr

/-- The notification about a pair that a call is, if it is one. -/
def Call.note (l : Lis) (e : Evt) : Call J → Option Note
  | .add t => if t.listener = l ∧ t.evtid = e then some .add else none
  | .remove t => if t.listener = l ∧ t.evtid = e then some .remove else none
  | _ => none

/-- The notifications made so far for a pair. -/
def notes (s : Store J) (l : Lis) (e : Evt) : List Note := s.calls.filterMap (Call.note l e)

/-- Notifications that strictly alternate from an addition on; the flag tells whether
the last one is an addition. -/
inductive Alternating : Bool → List Note → Prop where
  | nil : Alternating false []
  | add {l : List Note} (h : Alternating false l) : Alternating true (l ++ [.add])
  | remove {l : List Note} (h : Alternating true l) : Alternating false (l ++ [.remove])

theorem Alternating.last {b : Bool} {l : List Note} (h : Alternating b l) :
    b = true ↔ l.getLast? = some .add := by
  cases h <;> simp

def Active (s : Store J) (l : Lis) (e : Evt) : Prop :=
  ∃ w x, s.watch w = some x ∧ x.listener = l ∧ x.evtid = e ∧ x.activity ≠ 0

/-- The listener has the two callbacks of notification. -/
def Told (itfs : Itfs) (s : Store J) (l : Lis) : Prop :=
  (itfs (s.listener l).itf).add = true ∧ (itfs (s.listener l).itf).remove = true

/-- The watches agree with both lists and with what the listeners were told. -/
structure Links (itfs : Itfs) (s : Store J) : Prop where
  evtNodup : ∀ e, (s.evtid e).watchs.Nodup
  lisNodup : ∀ l, (s.listener l).watchs.Nodup
  evtLink : ∀ e w, w ∈ (s.evtid e).watchs ↔ ∃ x, s.watch w = some x ∧ x.evtid = e
  lisLink : ∀ l w, w ∈ (s.listener l).watchs ↔ ∃ x, s.watch w = some x ∧ x.listener = l
  unique : ∀ w w' x x', s.watch w = some x → s.watch w' = some x' →
    x.listener = x'.listener → x.evtid = x'.evtid → w = w'
  fresh : ∀ w x, s.watch w = some x → w < s.nextWatch
  activity : ∀ w x, s.watch w = some x → x.activity ≤ s.adds x.listener x.evtid
  told : ∀ l e, Told itfs s l →
    ∃ b, Alternating b (notes s l e) ∧ (b = true ↔ Active s l e)

section
variable {itfs : Itfs} {s t u : Store J} {w : Wat} {x : Watch}

theorem notes_call (s : Store J) (c : List (Call J)) (l : Lis) (e : Evt) :
    notes (s.call c) l e = notes s l e ++ c.filterMap (Call.note l e) := by
  simp [notes, Store.call, List.filterMap_append]

/-- What a removal leaves as it was. -/
structure Frame (s t : Store J) : Prop where
  evtids : t.evtids = s.evtids
  listeners : t.listeners = s.listeners
  nextEvtid : t.nextEvtid = s.nextEvtid
  nextListener : t.nextListener = s.nextListener
  ownedEvt : t.ownedEvt = s.ownedEvt
  ownedLis : t.ownedLis = s.ownedLis
  adds : t.adds = s.adds
  evtRef : ∀ e, (t.evtid e).refcount = (s.evtid e).refcount
  lisRef : ∀ l, (t.listener l).refcount = (s.listener l).refcount
  itf : ∀ l, (t.listener l).itf = (s.listener l).itf
  watch : ∀ w x, t.watch w = some x → s.watch w = some x
  untold : ∀ l e, (∀ w x, s.watch w = some x → x.listener ≠ l) → notes t l e = notes s l e

private theorem Frame.refl (s : Store J) : Frame s s :=
  ⟨rfl, rfl, rfl, rfl, rfl, rfl, rfl, fun _ => rfl, fun _ => rfl, fun _ => rfl, fun _ _ h => h,
    fun _ _ _ => rfl⟩

private theorem Frame.trans (h : Frame s t) (h' : Frame t u) : Frame s u where
  evtids := h'.evtids.trans h.evtids
  listeners := h'.listeners.trans h.listeners
  nextEvtid := h'.nextEvtid.trans h.nextEvtid
  nextListener := h'.nextListener.trans h.nextListener
  ownedEvt := h'.ownedEvt.trans h.ownedEvt
  ownedLis := h'.ownedLis.trans h.ownedLis
  adds := h'.adds.trans h.adds
  evtRef e := (h'.evtRef e).trans (h.evtRef e)
  lisRef l := (h'.lisRef l).trans (h.lisRef l)
  itf l := (h'.itf l).trans (h.itf l)
  watch w x hw := h.watch w x (h'.watch w x hw)
  untold l e hl := (h'.untold l e fun w x hw => hl w x (h.watch w x hw)).trans (h.untold l e hl)

theorem frame_removeWatch (s : Store J) (w : Wat) : Frame s (removeWatch itfs s w) := by
  unfold removeWatch
  split
  · rename_i x hw
    refine ⟨rfl, rfl, rfl, rfl, rfl, rfl, rfl, fun e => ?_, fun l => ?_, fun l => ?_,
      fun w' x' hw' => ?_, fun l e hl => ?_⟩
    · exact update_field s.evtid x.evtid e Evtid.refcount rfl
    · exact update_field s.listener x.listener l Listener.refcount rfl
    · exact update_field s.listener x.listener l Listener.itf rfl
    · simp only [Store.setWatch, Store.modifyListener, Store.modifyEvtid, Store.call] at hw'
      by_cases he : w' = w
      · subst he
        simp at hw'
      · rwa [Function.update_of_ne he] at hw'
    · refine (notes_call s _ l e).trans ?_
      have hne : x.listener ≠ l := hl w x hw
      split <;> simp [Call.note, Store.target, hne]
  · exact .refl s

/-- The watch leaves both lists: no other list has it. -/
theorem removeWatch_lists (hi : Links itfs s) (hw : s.watch w = some x) :
    (∀ e, ((removeWatch itfs s w).evtid e).watchs = (s.evtid e).watchs.erase w) ∧
      ∀ l, ((removeWatch itfs s w).listener l).watchs = (s.listener l).watchs.erase w := by
  have hstep : (removeWatch itfs s w).evtid = Function.update s.evtid x.evtid
      { s.evtid x.evtid with watchs := (s.evtid x.evtid).watchs.erase w } ∧
      (removeWatch itfs s w).listener = Function.update s.listener x.listener
        { s.listener x.listener with watchs := (s.listener x.listener).watchs.erase w } := by
    simp only [removeWatch, hw]
    exact ⟨rfl, rfl⟩
  rw [hstep.1, hstep.2]
  constructor
  · intro e
    by_cases he : e = x.evtid
    · subst he
      rw [Function.update_self]
    · rw [Function.update_of_ne he, List.erase_of_not_mem]
      intro hm
      obtain ⟨x', hx', hx'e⟩ := (hi.evtLink e w).mp hm
      rw [hw, Option.some.injEq] at hx'
      exact he (hx' ▸ hx'e.symm)
  · intro l
    by_cases hl : l = x.listener
    · subst hl
      rw [Function.update_self]
    · rw [Function.update_of_ne hl, List.erase_of_not_mem]
      intro hm
      obtain ⟨x', hx', hx'l⟩ := (hi.lisLink l w).mp hm
      rw [hw, Option.some.injEq] at hx'
      exact hl (hx' ▸ hx'l.symm)

/-- How a step may change what a listener is told of an event: nothing, or one
notification with the matching change of activity. -/
theorem alternating_step {l : Lis} {e : Evt}
    (h : ∃ b, Alternating b (notes s l e) ∧ (b = true ↔ Active s l e))
    (hc : notes t l e = notes s l e ∧ (Active t l e ↔ Active s l e) ∨
      notes t l e = notes s l e ++ [.add] ∧ ¬ Active s l e ∧ Active t l e ∨
      notes t l e = notes s l e ++ [.remove] ∧ Active s l e ∧ ¬ Active t l e) :
    ∃ b, Alternating b (notes t l e) ∧ (b = true ↔ Active t l e) := by
  obtain ⟨b, hb, ha⟩ := h
  rcases hc with ⟨hn, hs⟩ | ⟨hn, hs, ht⟩ | ⟨hn, hs, ht⟩
  · exact ⟨b, hn ▸ hb, ha.trans hs.symm⟩
  · have hf : b = false := Bool.eq_false_iff.mpr fun hb => hs (ha.mp hb)
    subst hf
    exact ⟨true, hn ▸ hb.add, by simp [ht]⟩
  · have hf : b = true := ha.mpr hs
    subst hf
    exact ⟨false, hn ▸ hb.remove, by simp [ht]⟩

private theorem active_congr {l : Lis} {e : Evt}
    (h : ∀ w x, x.listener = l → x.evtid = e → x.activity ≠ 0 →
      (t.watch w = some x ↔ s.watch w = some x)) : Active t l e ↔ Active s l e := by
  constructor
  · rintro ⟨w, x, hw, hl, he, ha⟩
    exact ⟨w, x, (h w x hl he ha).mp hw, hl, he, ha⟩
  · rintro ⟨w, x, hw, hl, he, ha⟩
    exact ⟨w, x, (h w x hl he ha).mpr hw, hl, he, ha⟩

private theorem update_place {f : Wat → Option Watch} (hw : f w = some x) (n : Nat) (w' : Wat)
    (R : Lis → Evt → Prop) :
    (∃ y, Function.update f w (some { x with activity := n }) w' = some y ∧
      R y.listener y.evtid) ↔ ∃ y, f w' = some y ∧ R y.listener y.evtid := by
  by_cases hne : w' = w
  · subst hne
    simp [hw]
  · rw [Function.update_of_ne hne]

theorem Links.active_iff (hi : Links itfs s) (hw : s.watch w = some x) :
    Active s x.listener x.evtid ↔ x.activity ≠ 0 := by
  constructor
  · rintro ⟨w', x', hw', hl, he, ha⟩
    have hsame := hi.unique w' w x' x hw' hw hl he
    subst hsame
    rw [hw, Option.some.injEq] at hw'
    rwa [hw']
  · exact fun ha => ⟨w, x, hw, rfl, rfl, ha⟩

/-- Rewriting or freeing a watch changes the activity of its pair only. -/
theorem Links.active_update (hi : Links itfs s) (hw : s.watch w = some x) {y : Option Watch}
    (hy : ∀ z ∈ y, z.listener = x.listener ∧ z.evtid = x.evtid)
    (ht : t.watch = Function.update s.watch w y) (l : Lis) (e : Evt) :
    Active t l e ↔ if x.listener = l ∧ x.evtid = e then ∃ z ∈ y, z.activity ≠ 0
      else Active s l e := by
  split
  · rename_i hp
    obtain ⟨rfl, rfl⟩ := hp
    constructor
    · rintro ⟨w', x', hw', hl', he', ha'⟩
      rw [ht] at hw'
      by_cases hne : w' = w
      · subst hne
        rw [Function.update_self] at hw'
        exact ⟨x', hw', ha'⟩
      · rw [Function.update_of_ne hne] at hw'
        exact absurd (hi.unique w' w x' x hw' hw hl' he') hne
    · rintro ⟨z, hz, ha⟩
      obtain ⟨hl, he⟩ := hy z hz
      exact ⟨w, z, by rw [ht, Function.update_self]; exact hz, hl, he, ha⟩
  · rename_i hp
    refine active_congr fun w' x' hl' he' _ => ?_
    rw [ht]
    by_cases hne : w' = w
    · subst hne
      rw [Function.update_self, hw, Option.some.injEq]
      constructor
      · intro hz
        obtain ⟨hl, he⟩ := hy x' hz
        exact absurd ⟨hl.symm.trans hl', he.symm.trans he'⟩ hp
      · rintro rfl
        exact absurd ⟨hl', he'⟩ hp
    · rw [Function.update_of_ne hne]

theorem links_removeWatch (hi : Links itfs s) (w : Wat) :
    Links itfs (removeWatch itfs s w) := by
  cases hw : s.watch w with
  | none =>
    simp only [removeWatch, hw]
    exact hi
  | some x =>
    obtain ⟨hevt, hlis⟩ := removeWatch_lists hi hw
    have hf : Frame s (removeWatch itfs s w) := frame_removeWatch s w
    have hgone : (removeWatch itfs s w).watch = Function.update s.watch w none := by
      simp only [removeWatch, hw]
      rfl
    have hsome : ∀ w' x', (removeWatch itfs s w).watch w' = some x' ↔
        w' ≠ w ∧ s.watch w' = some x' := by
      intro w' x'
      rw [hgone]
      by_cases he : w' = w
      · subst he
        simp
      · simp [he]
    constructor
    case evtNodup => exact fun e => hevt e ▸ (hi.evtNodup e).erase w
    case lisNodup => exact fun l => hlis l ▸ (hi.lisNodup l).erase w
    case evtLink =>
      intro e w'
      rw [hevt, (hi.evtNodup e).mem_erase_iff, hi.evtLink]
      simp only [hsome, and_assoc, exists_and_left]
    case lisLink =>
      intro l w'
      rw [hlis, (hi.lisNodup l).mem_erase_iff, hi.lisLink]
      simp only [hsome, and_assoc, exists_and_left]
    case unique =>
      intro w₁ w₂ x₁ x₂ h₁ h₂
      exact hi.unique w₁ w₂ x₁ x₂ (hf.watch w₁ x₁ h₁) (hf.watch w₂ x₂ h₂)
    case fresh =>
      intro w' x' hw'
      have hn : (removeWatch itfs s w).nextWatch = s.nextWatch := by
        simp only [removeWatch, hw]
        rfl
      rw [hn]
      exact hi.fresh w' x' (hf.watch w' x' hw')
    case activity =>
      intro w' x' hw'
      rw [hf.adds]
      exact hi.activity w' x' (hf.watch w' x' hw')
    case told =>
      intro l e hl
      rw [Told, hf.itf] at hl
      refine alternating_step (hi.told l e hl) ?_
      have hactive := hi.active_update hw (y := none) (by simp) hgone
      have hnotes : notes (removeWatch itfs s w) l e = notes s l e ++
          (if x.activity ≠ 0 ∧ (itfs (s.listener x.listener).itf).remove = true then
            [.remove (s.target x.listener x.evtid)] else []).filterMap
              (Call.note (J := J) l e) := by
        simp only [removeWatch, hw]
        exact notes_call s _ l e
      by_cases hp : x.listener = l ∧ x.evtid = e
      · obtain ⟨rfl, rfl⟩ := hp
        have hidle : ¬ Active (removeWatch itfs s w) x.listener x.evtid := by
          simp [hactive]
        have hact := hi.active_iff hw
        by_cases ha : x.activity = 0
        · refine .inl ⟨by simp [hnotes, ha], ?_⟩
          simp [hidle, hact, ha]
        · refine .inr (.inr ⟨?_, hact.mpr ha, hidle⟩)
          simp [hnotes, ha, hl.2, Call.note, Store.target]
      · refine .inl ⟨?_, ?_⟩
        · rw [hnotes]
          split <;> simp [Call.note, Store.target, hp]
        · rw [hactive, if_neg hp]

/-- All the watches of an event removed, from the head on. -/
theorem remove_evtid (e : Evt) (l : List Wat) (hi : Links itfs s)
    (hl : (s.evtid e).watchs = l) :
    Links itfs (l.foldl (removeWatch itfs) s) ∧ Frame s (l.foldl (removeWatch itfs) s) ∧
      ((l.foldl (removeWatch itfs) s).evtid e).watchs = [] := by
  induction l generalizing s with
  | nil => exact ⟨hi, .refl s, hl⟩
  | cons w l ih =>
    obtain ⟨x, hw, -⟩ := (hi.evtLink e w).mp (by simp [hl])
    obtain ⟨hi', hf, hnil⟩ := ih (links_removeWatch hi w)
      (by rw [(removeWatch_lists hi hw).1, hl, List.erase_cons_head])
    exact ⟨hi', (frame_removeWatch s w).trans hf, hnil⟩

theorem remove_listener (k : Lis) (l : List Wat) (hi : Links itfs s)
    (hl : (s.listener k).watchs = l) :
    Links itfs (l.foldl (removeWatch itfs) s) ∧ Frame s (l.foldl (removeWatch itfs) s) ∧
      ((l.foldl (removeWatch itfs) s).listener k).watchs = [] := by
  induction l generalizing s with
  | nil => exact ⟨hi, .refl s, hl⟩
  | cons w l ih =>
    obtain ⟨x, hw, -⟩ := (hi.lisLink k w).mp (by simp [hl])
    obtain ⟨hi', hf, hnil⟩ := ih (links_removeWatch hi w)
      (by rw [(removeWatch_lists hi hw).2, hl, List.erase_cons_head])
    exact ⟨hi', (frame_removeWatch s w).trans hf, hnil⟩

/-- A step that keeps the watches and both kinds of lists. -/
theorem Links.congr (hi : Links itfs s) (hw : t.watch = s.watch)
    (hn : t.nextWatch = s.nextWatch) (ha : t.adds = s.adds)
    (he : ∀ e, (t.evtid e).watchs = (s.evtid e).watchs)
    (hl : ∀ l, (t.listener l).watchs = (s.listener l).watchs)
    (htold : ∀ l e, Told itfs t l →
      ∃ b, Alternating b (notes t l e) ∧ (b = true ↔ Active s l e)) : Links itfs t where
  evtNodup e := he e ▸ hi.evtNodup e
  lisNodup l := hl l ▸ hi.lisNodup l
  evtLink e w := by rw [he, hw, hi.evtLink]
  lisLink l w := by rw [hl, hw, hi.lisLink]
  unique := by simpa only [hw] using hi.unique
  fresh := by simpa only [hw, hn] using hi.fresh
  activity := by simpa only [hw, ha] using hi.activity
  told l e h := by simpa only [Active, hw] using htold l e h

/-- A new count of activity for one watch, with the notification it asks for. -/
theorem links_setActivity (hi : Links itfs s) (hw : s.watch w = some x) {n : Nat}
    {c : List (Call J)} {adds : Lis → Evt → Nat} (hadds : ∀ l e, s.adds l e ≤ adds l e)
    (hn : n ≤ adds x.listener x.evtid)
    (hother : ∀ l e, ¬ (x.listener = l ∧ x.evtid = e) → c.filterMap (Call.note l e) = [])
    (hpair : Told itfs s x.listener →
      c.filterMap (Call.note x.listener x.evtid) = [] ∧ (n ≠ 0 ↔ x.activity ≠ 0) ∨
      c.filterMap (Call.note x.listener x.evtid) = [.add] ∧ x.activity = 0 ∧ n ≠ 0 ∨
      c.filterMap (Call.note x.listener x.evtid) = [.remove] ∧ x.activity ≠ 0 ∧ n = 0) :
    Links itfs { (s.call c).setWatch w (some { x with activity := n }) with adds := adds } := by
  obtain ⟨t, ht⟩ : ∃ t, t =
    { (s.call c).setWatch w (some { x with activity := n }) with adds := adds } := ⟨_, rfl⟩
  have hwatch : t.watch = Function.update s.watch w (some { x with activity := n }) := by
    rw [ht]
    rfl
  have hself : t.watch w = some { x with activity := n } := by rw [hwatch, Function.update_self]
  have hrest : ∀ w', w' ≠ w → t.watch w' = s.watch w' := by
    rw [hwatch]
    exact fun w' hne => Function.update_of_ne hne _ _
  have hplace : ∀ w' (R : Lis → Evt → Prop), (∃ y, t.watch w' = some y ∧ R y.listener y.evtid) ↔
      ∃ y, s.watch w' = some y ∧ R y.listener y.evtid := by
    rw [hwatch]
    exact update_place hw n
  have hpast : ∀ {w' x'}, t.watch w' = some x' → ∃ y, s.watch w' = some y ∧
      y.listener = x'.listener ∧ y.evtid = x'.evtid := by
    intro w' x' h
    exact (hplace w' fun l e => l = x'.listener ∧ e = x'.evtid).mp ⟨x', h, rfl, rfl⟩
  have hactive := hi.active_update hw (by simp) hwatch
  have hnotes : ∀ l e, notes t l e = notes s l e ++ c.filterMap (Call.note l e) := by
    rw [ht]
    exact notes_call s c
  have hlists : t.evtid = s.evtid ∧ t.listener = s.listener ∧ t.nextWatch = s.nextWatch ∧
      t.adds = adds := by
    rw [ht]
    exact ⟨rfl, rfl, rfl, rfl⟩
  rw [← ht]
  obtain ⟨hevt, hlis, hnw, had⟩ := hlists
  clear ht
  constructor
  case evtNodup => exact hevt ▸ hi.evtNodup
  case lisNodup => exact hlis ▸ hi.lisNodup
  case evtLink =>
    intro e w'
    rw [hevt, hi.evtLink]
    exact (hplace w' fun _ e' => e' = e).symm
  case lisLink =>
    intro l w'
    rw [hlis, hi.lisLink]
    exact (hplace w' fun l' _ => l' = l).symm
  case unique =>
    intro w₁ w₂ x₁ x₂ h₁ h₂ hl he
    obtain ⟨y₁, hy₁, hl₁, he₁⟩ := hpast h₁
    obtain ⟨y₂, hy₂, hl₂, he₂⟩ := hpast h₂
    exact hi.unique w₁ w₂ y₁ y₂ hy₁ hy₂ (by rw [hl₁, hl₂, hl]) (by rw [he₁, he₂, he])
  case fresh =>
    intro w' x' hw'
    obtain ⟨y, hy, -, -⟩ := hpast hw'
    exact hnw ▸ hi.fresh w' y hy
  case activity =>
    intro w' x' hw'
    rw [had]
    by_cases hne : w' = w
    · subst hne
      rw [hself, Option.some.injEq] at hw'
      rw [← hw']
      exact hn
    · rw [hrest w' hne] at hw'
      exact Nat.le_trans (hi.activity w' x' hw') (hadds _ _)
  case told =>
    intro l e hl
    rw [Told, hlis] at hl
    refine alternating_step (hi.told l e hl) ?_
    by_cases hp : x.listener = l ∧ x.evtid = e
    · obtain ⟨rfl, rfl⟩ := hp
      have hpairActive : Active t x.listener x.evtid ↔ n ≠ 0 := by simp [hactive]
      rw [hnotes, hpairActive, hi.active_iff hw]
      rcases hpair hl with ⟨hc, h⟩ | ⟨hc, h, h'⟩ | ⟨hc, h, h'⟩
      · exact .inl ⟨by simp [hc], h⟩
      · exact .inr (.inl ⟨by simp [hc], by simp [h], h'⟩)
      · exact .inr (.inr ⟨by simp [hc], h, by simp [h']⟩)
    · refine .inl ⟨by simp [hnotes, hother l e hp], ?_⟩
      rw [hactive, if_neg hp]

theorem findWatch_some (hi : Links itfs s) {l : Lis} {e : Evt}
    (h : findWatch s l e = some w) :
    ∃ x, s.watch w = some x ∧ x.listener = l ∧ x.evtid = e := by
  obtain ⟨x, hx, hl⟩ := (hi.lisLink l w).mp (List.mem_of_find?_eq_some h)
  have he := List.find?_some h
  rw [hx] at he
  exact ⟨x, hx, hl, by simpa using he⟩

theorem findWatch_none (hi : Links itfs s) {l : Lis} {e : Evt}
    (h : findWatch s l e = none) (w : Wat) (x : Watch) (hw : s.watch w = some x) :
    ¬ (x.listener = l ∧ x.evtid = e) := by
  rintro ⟨hl, he⟩
  have := List.find?_eq_none.mp h w ((hi.lisLink l w).mpr ⟨x, hw, hl⟩)
  simp [hw, he] at this

theorem le_added (s : Store J) (l l' : Lis) (e e' : Evt) :
    s.adds l' e' ≤ (s.added l e).adds l' e' := by
  simp only [Store.added]
  by_cases hl : l' = l
  · subst hl
    by_cases he : e' = e
    · subst he
      simp
    · simp [he]
  · simp [hl]

theorem added_self (s : Store J) (l : Lis) (e : Evt) :
    (s.added l e).adds l e = s.adds l e + 1 := by
  simp [Store.added]

/-- The count does not wrap below 2^32. -/
theorem links_activate (hi : Links itfs s) (hw : s.watch w = some x) (hlt : x.activity + 1 < 2 ^ 32) :
    Links itfs ((activate itfs s w).added x.listener x.evtid) := by
  have hle := hi.activity w x hw
  have hmod : (x.activity + 1) % 2 ^ 32 = x.activity + 1 := Nat.mod_eq_of_lt hlt
  have hbound : x.activity + 1 ≤ (s.added x.listener x.evtid).adds x.listener x.evtid := by
    rw [added_self]
    omega
  simp only [activate, hw, hmod]
  refine links_setActivity hi hw (fun l e => le_added s x.listener l x.evtid e) hbound ?_ ?_
  · intro l e hne
    split <;> simp [Call.note, Store.target, hne]
  · intro htold
    by_cases ha : x.activity = 0
    · refine .inr (.inl ⟨?_, ha, Nat.succ_ne_zero _⟩)
      simp [ha, htold.1, Call.note, Store.target]
    · exact .inl ⟨by simp [ha], by omega⟩

theorem links_sub (hi : Links itfs s) {l : Lis} {e : Evt} {r : Store J}
    (h : afbEvtWatchSubEvtid itfs s l e = .ok r) : Links itfs r := by
  unfold afbEvtWatchSubEvtid at h
  cases hf : findWatch s l e with
  | none =>
    simp only [hf] at h
    cases h
  | some w =>
    obtain ⟨x, hx, rfl, rfl⟩ := findWatch_some hi hf
    simp only [hf, hx] at h
    by_cases ha : x.activity = 0
    · simp only [ha, ne_eq, not_true, if_false] at h
      cases h
      exact hi
    · simp only [ne_eq, ha, not_false_iff, if_true] at h
      cases h
      have hle := hi.activity w x hx
      refine links_setActivity hi hx (fun _ _ => Nat.le_refl _)
        (Nat.le_trans (Nat.sub_le _ _) hle) ?_ ?_
      · intro l e hne
        split <;> simp [Call.note, Store.target, hne]
      · intro htold
        by_cases h1 : x.activity - 1 = 0
        · refine .inr (.inr ⟨?_, ha, h1⟩)
          simp [h1, htold.2, Call.note, Store.target]
        · exact .inl ⟨by simp [h1], by simp [h1, ha]⟩

/-- A new watch, idle, at the head of both lists. -/
theorem links_new (hi : Links itfs s) {l : Lis} {e : Evt}
    (hnone : ∀ w x, s.watch w = some x → ¬ (x.listener = l ∧ x.evtid = e)) :
    Links itfs ((({ s with nextWatch := s.nextWatch + 1 }.setWatch s.nextWatch
      (some ⟨e, l, 0⟩)).modifyListener l
        fun x => { x with watchs := s.nextWatch :: x.watchs }).modifyEvtid e
        fun x => { x with watchs := s.nextWatch :: x.watchs }) := by
  have hfree : s.watch s.nextWatch = none := by
    cases hw : s.watch s.nextWatch with
    | none => rfl
    | some x => exact absurd (hi.fresh _ x hw) (Nat.lt_irrefl _)
  obtain ⟨t, ht⟩ : ∃ t, t = ((({ s with nextWatch := s.nextWatch + 1 }.setWatch s.nextWatch
      (some ⟨e, l, 0⟩)).modifyListener l
        fun x => { x with watchs := s.nextWatch :: x.watchs }).modifyEvtid e
        fun x => { x with watchs := s.nextWatch :: x.watchs }) := ⟨_, rfl⟩
  have hevt : ∀ e', (t.evtid e').watchs =
      if e' = e then s.nextWatch :: (s.evtid e').watchs else (s.evtid e').watchs := by
    intro e'
    rw [ht]
    by_cases he : e' = e
    · subst he
      simp [Store.modifyEvtid, Store.modifyListener, Store.setWatch]
    · simp [Store.modifyEvtid, Store.modifyListener, Store.setWatch, he]
  have hlis : ∀ l', (t.listener l').watchs =
      if l' = l then s.nextWatch :: (s.listener l').watchs else (s.listener l').watchs := by
    intro l'
    rw [ht]
    by_cases he : l' = l
    · subst he
      simp [Store.modifyEvtid, Store.modifyListener, Store.setWatch]
    · simp [Store.modifyEvtid, Store.modifyListener, Store.setWatch, he]
  have hitf : ∀ l', (t.listener l').itf = (s.listener l').itf := by
    intro l'
    rw [ht]
    exact update_field s.listener l l' Listener.itf rfl
  have hsome : ∀ {w x}, t.watch w = some x ↔
      w = s.nextWatch ∧ x = ⟨e, l, 0⟩ ∨ s.watch w = some x := by
    intro w x
    have hup : t.watch = Function.update s.watch s.nextWatch (some ⟨e, l, 0⟩) := by rw [ht]; rfl
    rw [hup]
    by_cases hw : w = s.nextWatch
    · subst hw
      simp [hfree, eq_comm]
    · simp [hw]
  have hrest : t.nextWatch = s.nextWatch + 1 ∧ t.adds = s.adds ∧ t.calls = s.calls := by
    rw [ht]
    exact ⟨rfl, rfl, rfl⟩
  rw [← ht]
  obtain ⟨hnw, had, hcalls⟩ := hrest
  clear ht
  have hevtNew : ∀ e', s.nextWatch ∉ (s.evtid e').watchs := by
    intro e' hm
    obtain ⟨x, hx, -⟩ := (hi.evtLink e' _).mp hm
    exact absurd (hfree.symm.trans hx) (by simp)
  have hlisNew : ∀ l', s.nextWatch ∉ (s.listener l').watchs := by
    intro l' hm
    obtain ⟨x, hx, -⟩ := (hi.lisLink l' _).mp hm
    exact absurd (hfree.symm.trans hx) (by simp)
  constructor
  case evtNodup =>
    intro e'
    rw [hevt]
    split
    · exact List.nodup_cons.mpr ⟨hevtNew e', hi.evtNodup e'⟩
    · exact hi.evtNodup e'
  case lisNodup =>
    intro l'
    rw [hlis]
    split
    · exact List.nodup_cons.mpr ⟨hlisNew l', hi.lisNodup l'⟩
    · exact hi.lisNodup l'
  case evtLink =>
    intro e' w
    have hmem : w ∈ (t.evtid e').watchs ↔ w = s.nextWatch ∧ e' = e ∨ w ∈ (s.evtid e').watchs := by
      rw [hevt]
      split <;> simp [*]
    rw [hmem, hi.evtLink]
    simp only [hsome, or_and_right, exists_or, and_assoc]
    exact or_congr (by simp [eq_comm]) Iff.rfl
  case lisLink =>
    intro l' w
    have hmem : w ∈ (t.listener l').watchs ↔
        w = s.nextWatch ∧ l' = l ∨ w ∈ (s.listener l').watchs := by
      rw [hlis]
      split <;> simp [*]
    rw [hmem, hi.lisLink]
    simp only [hsome, or_and_right, exists_or, and_assoc]
    exact or_congr (by simp [eq_comm]) Iff.rfl
  case unique =>
    intro w₁ w₂ x₁ x₂ h₁ h₂ hl he
    rcases hsome.mp h₁ with ⟨rfl, rfl⟩ | h₁ <;> rcases hsome.mp h₂ with ⟨rfl, rfl⟩ | h₂
    · rfl
    · exact absurd ⟨hl.symm, he.symm⟩ (hnone w₂ x₂ h₂)
    · exact absurd ⟨hl, he⟩ (hnone w₁ x₁ h₁)
    · exact hi.unique w₁ w₂ x₁ x₂ h₁ h₂ hl he
  case fresh =>
    intro w x hw
    rw [hnw]
    rcases hsome.mp hw with ⟨rfl, -⟩ | hw
    · exact Nat.lt_succ_self _
    · exact Nat.lt_succ_of_lt (hi.fresh w x hw)
  case activity =>
    intro w x hw
    rw [had]
    rcases hsome.mp hw with ⟨-, rfl⟩ | hw
    · exact Nat.zero_le _
    · exact hi.activity w x hw
  case told =>
    intro l' e' htold
    rw [Told, hitf] at htold
    refine alternating_step (hi.told l' e' htold) (.inl ⟨by simp [notes, hcalls], ?_⟩)
    refine active_congr fun w x _ _ ha => ?_
    rw [hsome, or_iff_right_iff_imp]
    rintro ⟨-, rfl⟩
    exact absurd rfl ha

end

end AfbBinder.Events
