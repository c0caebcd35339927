import AfbBinder.Lib.Lists
import AfbBinder.Events.Subscriptions
import AfbBinder.Events.Ids
import AfbBinder.Stub.Model

/-! The events that a client replicates are the ones that the listener of its server
watches: both lists change with the same calls, and the ids keep the events apart. -/
namespace AfbBinder.Stub
open Lib.Cstrings Lib.Runs Lib.Updates Events
variable {J : Type}

/-- The listener is the one of a server stub. -/
def Serves (itfs : Itfs) (s : Store J) (l : Lis) : Prop :=
  itfs (s.listener l).itf = serverEventItf

def keyOf (s : Store J) (e : Evt) : Key := ⟨(s.evtid e).id, (s.evtid e).fullname⟩

/-- The client has each event that the listener actively watches once, with one
reference, and no other event; each push found its event. -/
structure Replicates (s : Store J) (l : Lis) (c : Client J) : Prop where
  nodup : (c.events.map ClientEvent.key).Nodup
  single : ∀ ev ∈ c.events, ev.refcount = 1
  keys : ∀ k, k ∈ c.events.map ClientEvent.key ↔ ∃ e, Active s l e ∧ keyOf s e = k
  readable : c.unreadable = []

section client
variable {listener : Nat → Option Lis} {s t : Store J} {l : Lis} {c : Client J} {e : Evt} {k : Key}

private theorem search_some (h : k ∈ c.events.map ClientEvent.key) :
    ∃ ev ∈ c.events, clientEventSearch c k = some ev := by
  obtain ⟨ev, hev, hk⟩ := List.mem_map.mp h
  have hsome : (clientEventSearch c k).isSome :=
    List.find?_isSome.mpr ⟨ev, hev, decide_eq_true hk⟩
  obtain ⟨found, hfound⟩ := Option.isSome_iff_exists.mp hsome
  exact ⟨found, List.mem_of_find?_eq_some hfound, hfound⟩

private theorem search_none (h : k ∉ c.events.map ClientEvent.key) :
    clientEventSearch c k = none := by
  refine List.find?_eq_none.mpr fun ev hev hk => h ?_
  exact List.mem_map.mpr ⟨ev, hev, of_decide_eq_true hk⟩

/-- What the events are called and which are active decides. -/
theorem Replicates.congr (h : Replicates s l c) (ha : ∀ e, Active t l e ↔ Active s l e)
    (hk : ∀ e, Active s l e → keyOf t e = keyOf s e) : Replicates t l c := by
  refine { h with keys := fun k => (h.keys k).trans ?_ }
  constructor
  · rintro ⟨e, he, rfl⟩
    exact ⟨e, (ha e).mpr he, hk e he⟩
  · rintro ⟨e, he, rfl⟩
    have he' := (ha e).mp he
    exact ⟨e, he', (hk e he').symm⟩

private theorem Replicates.create (h : Replicates s l c)
    (hnew : ∀ e', Active s l e' → keyOf s e' ≠ keyOf s e)
    (ha : ∀ e', Active t l e' ↔ e' = e ∨ Active s l e') (hk : ∀ e', keyOf t e' = keyOf s e') :
    Replicates t l (clientOnMessage listener true c (.eventCreate (keyOf s e))) := by
  have hnone : keyOf s e ∉ c.events.map ClientEvent.key := by
    intro hm
    obtain ⟨e', he', hkey⟩ := (h.keys _).mp hm
    exact hnew e' he' hkey
  have hstep : clientOnMessage listener true c (.eventCreate (keyOf s e)) =
      { c with events := ⟨keyOf s e, 1, fun _ => none⟩ :: c.events } := by
    simp only [clientOnMessage, clientOnEventCreateCb, search_none hnone, if_true]
  rw [hstep]
  refine ⟨?_, ?_, fun k => ?_, h.readable⟩
  · exact List.nodup_cons.mpr ⟨hnone, h.nodup⟩
  · intro ev hev
    rcases List.mem_cons.mp hev with rfl | hev
    · rfl
    · exact h.single ev hev
  · rw [List.map_cons, List.mem_cons, h.keys]
    simp only [ha, hk, or_and_right, exists_or, exists_eq_left]
    exact or_congr_left eq_comm

private theorem Replicates.remove (h : Replicates s l c) (hact : Active s l e)
    (hone : ∀ e', Active s l e' → keyOf s e' = keyOf s e → e' = e)
    (ha : ∀ e', Active t l e' ↔ e' ≠ e ∧ Active s l e') (hk : ∀ e', keyOf t e' = keyOf s e') :
    Replicates t l (clientOnMessage listener true c (.eventRemove (keyOf s e))) := by
  obtain ⟨ev, hev, hfind⟩ := search_some ((h.keys _).mpr ⟨e, hact, rfl⟩)
  have hstep : clientOnMessage listener true c (.eventRemove (keyOf s e)) =
      { c with events := c.events.eraseP (·.key = keyOf s e) } := by
    simp [clientOnMessage, clientOnEventRemoveCb, hfind, h.single ev hev]
  have hkeys : (c.events.eraseP (·.key = keyOf s e)).map ClientEvent.key =
      (c.events.map ClientEvent.key).erase (keyOf s e) := by
    rw [List.erase_eq_eraseP, List.eraseP_map]
    congr 2
    funext ev
    exact decide_eq_decide.mpr eq_comm
  rw [hstep]
  refine ⟨?_, fun ev hev => h.single ev (List.mem_of_mem_eraseP hev), fun k => ?_, h.readable⟩
  · rw [hkeys]
    exact h.nodup.erase _
  · rw [hkeys, h.nodup.mem_erase_iff, h.keys]
    simp only [ha, hk]
    constructor
    · rintro ⟨hne, e', he', rfl⟩
      exact ⟨e', ⟨fun heq => hne (heq ▸ rfl), he'⟩, rfl⟩
    · rintro ⟨e', ⟨hne, he'⟩, rfl⟩
      exact ⟨fun hkey => hne (hone e' he' hkey), e', he', rfl⟩

/-- A message that leaves the replicas alone: a broadcast, or a push that is expected. -/
def Quiet (s : Store J) (l : Lis) (m : Message J) : Prop :=
  (∃ e obj, Active s l e ∧ m = .eventPush (keyOf s e) obj) ∨ ∃ name obj, m = .eventBroadcast name obj

private theorem Replicates.quiet (h : Replicates s l c) {m : Message J} (hm : Quiet s l m) :
    Replicates s l (clientOnMessage listener true c m) := by
  rcases hm with ⟨e, obj, he, rfl⟩ | ⟨name, obj, rfl⟩
  · obtain ⟨ev, -, hfind⟩ := search_some ((h.keys _).mpr ⟨e, he, rfl⟩)
    simp only [clientOnMessage, clientOnEventPushCb, hfind]
    exact { h with }
  · exact { h with }

private theorem Replicates.quiets (ms : List (Message J)) (h : Replicates s l c)
    (hms : ∀ m ∈ ms, Quiet s l m) : Replicates s l (processed listener c ms) := by
  induction ms generalizing c with
  | nil => exact h
  | cons m ms ih =>
    exact ih (h.quiet (hms m List.mem_cons_self)) fun m' hm' => hms m' (List.mem_cons_of_mem m hm')

end client

/-- The stores that the listeners of servers are mirrored in: the watched events differ by
their keys, and a listener to come has sent nothing. -/
structure Mirrored (listener : Nat → Option Lis) (itfs : Itfs) (s : Store J) : Prop where
  distinct : ∀ w w' x x', s.watch w = some x → s.watch w' = some x' →
    keyOf s x.evtid = keyOf s x'.evtid → x.evtid = x'.evtid
  known : ∀ w x, s.watch w = some x → x.listener < s.nextListener
  silent : ∀ l, s.nextListener ≤ l → messages s l = []
  replicas : ∀ l, Serves itfs s l → Replicates s l (processed listener .start (messages s l))

section
variable {listener : Nat → Option Lis} {itfs : Itfs} {s t : Store J} {w : Wat} {x : Watch}

private theorem messages_calls {c : List (Call J)} (h : t.calls = s.calls ++ c) (l : Lis) :
    messages t l = messages s l ++ c.filterMap (serverEventMessage l) := by
  rw [messages, h, List.filterMap_append]
  rfl

private theorem processed_snoc (c : Client J) (ms : List (Message J)) (m : Message J) :
    processed listener c (ms ++ [m]) = clientOnMessage listener true (processed listener c ms) m := by
  simp [processed]

/-- A change that touches no watch, with calls that are quiet. -/
theorem mirrored_quiet (hm : Mirrored listener itfs s) {c : List (Call J)}
    (hwatch : t.watch = s.watch) (hcalls : t.calls = s.calls ++ c)
    (hkey : ∀ w x, s.watch w = some x → keyOf t x.evtid = keyOf s x.evtid)
    (hnext : s.nextListener ≤ t.nextListener)
    (hserves : ∀ l, Serves itfs t l → Serves itfs s l ∨ s.nextListener ≤ l)
    (hnew : ∀ l, s.nextListener ≤ l → c.filterMap (serverEventMessage l) = [])
    (hc : ∀ l, ∀ m ∈ c.filterMap (serverEventMessage l), Quiet s l m) :
    Mirrored listener itfs t := by
  have hactive : ∀ l e, Active t l e ↔ Active s l e := fun l e => by rw [Active, Active, hwatch]
  have hempty : ∀ l, s.nextListener ≤ l → messages t l = [] := by
    intro l hl
    rw [messages_calls hcalls, hm.silent l hl, hnew l hl, List.append_nil]
  refine ⟨fun w w' x x' hw hw' hk => ?_, fun w x hw => ?_, fun l hl => ?_, fun l hl => ?_⟩
  · rw [hwatch] at hw hw'
    rw [hkey w x hw, hkey w' x' hw'] at hk
    exact hm.distinct w w' x x' hw hw' hk
  · rw [hwatch] at hw
    exact Nat.lt_of_lt_of_le (hm.known w x hw) hnext
  · exact hempty l (Nat.le_trans hnext hl)
  · by_cases hnl : s.nextListener ≤ l
    · rw [hempty l hnl]
      refine ⟨List.nodup_nil, by simp [processed, Client.start], fun k => ?_, rfl⟩
      simp only [processed, Client.start, List.foldl_nil, List.map_nil, List.not_mem_nil, false_iff]
      rintro ⟨e, ⟨w, x, hw, hx, -⟩, -⟩
      rw [hwatch] at hw
      exact absurd (hm.known w x hw) (Nat.not_lt.mpr (hx ▸ hnl))
    · have hold := hm.replicas l ((hserves l hl).resolve_right hnl)
      rw [messages_calls hcalls, processed, List.foldl_append]
      refine (hold.quiets _ (hc l)).congr (hactive l) ?_
      rintro e ⟨w, x, hw, -, rfl, -⟩
      exact hkey w x hw

/-- One watch rewritten or freed, with the notification this asks for. -/
theorem mirrored_watch (hi : Links itfs s) (hm : Mirrored listener itfs s)
    (hw : s.watch w = some x) {y : Option Watch} {c : List (Call J)}
    (hy : ∀ z ∈ y, z.listener = x.listener ∧ z.evtid = x.evtid)
    (hwatch : t.watch = Function.update s.watch w y) (hcalls : t.calls = s.calls ++ c)
    (hitf : ∀ l, (t.listener l).itf = (s.listener l).itf) (hkey : ∀ e, keyOf t e = keyOf s e)
    (hnext : t.nextListener = s.nextListener)
    (hother : ∀ l ≠ x.listener, c.filterMap (serverEventMessage l) = [])
    (hc : Serves itfs s x.listener →
      c = [] ∧ ((∃ z ∈ y, z.activity ≠ 0) ↔ x.activity ≠ 0) ∨
      c = [.add (s.target x.listener x.evtid)] ∧ x.activity = 0 ∧ (∃ z ∈ y, z.activity ≠ 0) ∨
      c = [.remove (s.target x.listener x.evtid)] ∧ x.activity ≠ 0 ∧ ¬ ∃ z ∈ y, z.activity ≠ 0) :
    Mirrored listener itfs t := by
  have hactive := hi.active_update hw hy hwatch
  have hpast : ∀ {w' x'}, t.watch w' = some x' →
      ∃ w'' z, s.watch w'' = some z ∧ z.listener = x'.listener ∧ z.evtid = x'.evtid := by
    intro w' x' hw'
    rw [hwatch] at hw'
    by_cases hne : w' = w
    · subst hne
      rw [Function.update_self] at hw'
      obtain ⟨hl, he⟩ := hy x' hw'
      exact ⟨w', x, hw, hl.symm, he.symm⟩
    · rw [Function.update_of_ne hne] at hw'
      exact ⟨w', x', hw', rfl, rfl⟩
  refine ⟨fun w₁ w₂ x₁ x₂ h₁ h₂ hk => ?_, fun w' x' hw' => ?_, fun l hl => ?_, fun l hl => ?_⟩
  · obtain ⟨w₁', z₁, hz₁, -, he₁⟩ := hpast h₁
    obtain ⟨w₂', z₂, hz₂, -, he₂⟩ := hpast h₂
    rw [hkey, hkey, ← he₁, ← he₂] at hk
    rw [← he₁, ← he₂]
    exact hm.distinct w₁' w₂' z₁ z₂ hz₁ hz₂ hk
  · obtain ⟨w'', z, hz, hl, -⟩ := hpast hw'
    rw [hnext, ← hl]
    exact hm.known w'' z hz
  · rw [hnext] at hl
    have hne : l ≠ x.listener := fun h => absurd (hm.known w x hw) (Nat.not_lt.mpr (h ▸ hl))
    rw [messages_calls hcalls, hother l hne, hm.silent l hl, List.append_nil]
  · have hs : Serves itfs s l := by rwa [Serves, ← hitf]
    have hold := hm.replicas l hs
    rw [messages_calls hcalls]
    by_cases hxl : l = x.listener
    swap
    · rw [hother l hxl, List.append_nil]
      refine hold.congr (fun e => ?_) fun e _ => hkey e
      rw [hactive, if_neg fun h => hxl h.1.symm]
    subst hxl
    have hpair := hi.active_iff hw
    have hsplit : ∀ e, Active t x.listener e ↔
        (x.evtid = e ∧ ∃ z ∈ y, z.activity ≠ 0) ∨ (x.evtid ≠ e ∧ Active s x.listener e) := by
      intro e
      rw [hactive]
      by_cases he : x.evtid = e
      · simp [he]
      · simp [he]
    have hone : ∀ e, Active s x.listener e → keyOf s e = keyOf s x.evtid → e = x.evtid := by
      rintro e ⟨w', x', hw', -, rfl, -⟩ hk
      exact hm.distinct w' w x' x hw' hw hk
    rcases hc hs with ⟨rfl, h⟩ | ⟨rfl, hidle, h⟩ | ⟨rfl, hact, h⟩
    · rw [List.filterMap_nil, List.append_nil]
      refine hold.congr (fun e => ?_) fun e _ => hkey e
      rw [hsplit, h, ← hpair]
      by_cases he : x.evtid = e
      · subst he
        simp
      · simp [he]
    · have hmsg : [Call.add (s.target x.listener x.evtid)].filterMap (serverEventMessage x.listener) =
          [(.eventCreate (keyOf s x.evtid) : Message J)] := by
        simp [serverEventMessage, Store.target, keyOf]
      rw [hmsg, processed_snoc]
      refine hold.create (fun e he hk => ?_) (fun e => ?_) hkey
      · exact hpair.mp (hone e he hk ▸ he) hidle
      · rw [hsplit]
        by_cases he : x.evtid = e
        · subst he
          simpa using h
        · simp [he, Ne.symm he]
    · have hmsg : [Call.remove (s.target x.listener x.evtid)].filterMap (serverEventMessage x.listener) =
          [(.eventRemove (keyOf s x.evtid) : Message J)] := by
        simp [serverEventMessage, Store.target, keyOf]
      rw [hmsg, processed_snoc]
      refine hold.remove (hpair.mpr hact) hone (fun e => ?_) hkey
      rw [hsplit]
      by_cases he : x.evtid = e
      · subst he
        simpa using h
      · simp [he, Ne.symm he]

private theorem mirrored_removeWatch (hi : Links itfs s) (hm : Mirrored listener itfs s) (w : Wat) :
    Mirrored listener itfs (removeWatch itfs s w) := by
  cases hw : s.watch w with
  | none =>
    simp only [removeWatch, hw]
    exact hm
  | some x =>
    simp only [removeWatch, hw]
    refine mirrored_watch hi hm hw (y := none) (by simp) rfl rfl (fun l => ?_) (fun e => ?_) rfl
      (fun l hl => ?_) fun hs => ?_
    · exact update_field s.listener x.listener l Listener.itf rfl
    · exact update_field s.evtid x.evtid e (fun ev => Key.mk ev.id ev.fullname) rfl
    · split <;> simp [serverEventMessage, Store.target, Ne.symm hl]
    · have hremove : (itfs (s.listener x.listener).itf).remove = true := by
        rw [show itfs (s.listener x.listener).itf = serverEventItf from hs]
        rfl
      by_cases ha : x.activity = 0
      · exact .inl ⟨by simp [ha], by simp [ha]⟩
      · exact .inr (.inr ⟨by simp [ha, hremove], ha, by simp⟩)

private theorem mirrored_removals (ws : List Wat) (hi : Links itfs s)
    (hm : Mirrored listener itfs s) : Mirrored listener itfs (ws.foldl (removeWatch itfs) s) := by
  induction ws generalizing s with
  | nil => exact hm
  | cons w ws ih => exact ih (links_removeWatch hi w) (mirrored_removeWatch hi hm w)

private theorem mirrored_activate (hi : Links itfs s) (hm : Mirrored listener itfs s)
    (hw : s.watch w = some x) (hlt : x.activity + 1 < 2 ^ 32) :
    Mirrored listener itfs (activate itfs s w) := by
  have hmod : (x.activity + 1) % 2 ^ 32 = x.activity + 1 := Nat.mod_eq_of_lt hlt
  simp only [activate, hw, hmod]
  refine mirrored_watch hi hm hw (by simp) rfl rfl (fun _ => rfl) (fun _ => rfl) rfl
    (fun l hl => ?_) fun hs => ?_
  · split <;> simp [serverEventMessage, Store.target, Ne.symm hl]
  · have hadd : (itfs (s.listener x.listener).itf).add = true := by
      rw [show itfs (s.listener x.listener).itf = serverEventItf from hs]
      rfl
    by_cases ha : x.activity = 0
    · exact .inr (.inl ⟨by simp [ha, hadd], ha, by simp⟩)
    · exact .inl ⟨by simp [ha], by simp [ha]⟩

private theorem mirrored_sub (hi : Links itfs s) (hm : Mirrored listener itfs s) {l : Lis} {e : Evt}
    (h : afbEvtWatchSubEvtid itfs s l e = .ok t) : Mirrored listener itfs t := by
  unfold afbEvtWatchSubEvtid at h
  cases hf : findWatch s l e with
  | none =>
    simp only [hf] at h
    cases h
  | some w =>
    obtain ⟨x, hx, rfl, rfl⟩ := findWatch_some hi hf
    simp only [hf, hx] at h
    by_cases ha : x.activity = 0
    · simp only [ha, ne_eq, not_true, if_false] at h
      cases h
      exact hm
    · simp only [ne_eq, ha, not_false_iff, if_true] at h
      cases h
      refine mirrored_watch hi hm hx (by simp) rfl rfl (fun _ => rfl) (fun _ => rfl) rfl
        (fun l hl => ?_) fun hs => ?_
      · split <;> simp [serverEventMessage, Store.target, Ne.symm hl]
      · have hremove : (itfs (s.listener x.listener).itf).remove = true := by
          rw [show itfs (s.listener x.listener).itf = serverEventItf from hs]
          rfl
        by_cases h1 : x.activity - 1 = 0
        · exact .inr (.inr ⟨by simp [h1, hremove], ha, by simp [h1]⟩)
        · exact .inl ⟨by simp [h1], by simp [h1, ha]⟩

/-- A new watch is idle, so that only the events compared change. -/
theorem mirrored_new (hm : Mirrored listener itfs s) {l : Lis} {e : Evt}
    (hl : l < s.nextListener)
    (hdistinct : ∀ w x, s.watch w = some x → keyOf s x.evtid = keyOf s e → x.evtid = e)
    (hwatch : t.watch = Function.update s.watch w (some ⟨e, l, 0⟩)) (hfree : s.watch w = none)
    (hcalls : t.calls = s.calls) (hnext : t.nextListener = s.nextListener)
    (hitf : ∀ l, (t.listener l).itf = (s.listener l).itf) (hkey : ∀ e, keyOf t e = keyOf s e) :
    Mirrored listener itfs t := by
  have hsome : ∀ {w' x'}, t.watch w' = some x' →
      x' = ⟨e, l, 0⟩ ∨ s.watch w' = some x' := by
    intro w' x' hw'
    rw [hwatch] at hw'
    by_cases hne : w' = w
    · subst hne
      rw [Function.update_self, Option.some.injEq] at hw'
      exact .inl hw'.symm
    · rw [Function.update_of_ne hne] at hw'
      exact .inr hw'
  have hmessages : ∀ l, messages t l = messages s l := fun l => by rw [messages, messages, hcalls]
  refine ⟨fun w₁ w₂ x₁ x₂ h₁ h₂ hk => ?_, fun w' x' hw' => ?_, fun l' hl' => ?_, fun l' hl' => ?_⟩
  · rw [hkey, hkey] at hk
    rcases hsome h₁ with rfl | h₁ <;> rcases hsome h₂ with rfl | h₂
    · rfl
    · exact (hdistinct w₂ x₂ h₂ hk.symm).symm
    · exact hdistinct w₁ x₁ h₁ hk
    · exact hm.distinct w₁ w₂ x₁ x₂ h₁ h₂ hk
  · rw [hnext]
    rcases hsome hw' with rfl | hw'
    · exact hl
    · exact hm.known w' x' hw'
  · rw [hmessages, hm.silent l' (hnext ▸ hl')]
  · rw [hmessages]
    refine (hm.replicas l' (by rwa [Serves, ← hitf])).congr (fun e' => ?_) fun e' _ => hkey e'
    constructor
    · rintro ⟨w', x', hw', hx'⟩
      rcases hsome hw' with rfl | hw'
      · exact absurd rfl hx'.2.2
      · exact ⟨w', x', hw', hx'⟩
    · rintro ⟨w', x', hw', hx'⟩
      have hne : w' ≠ w := by
        rintro rfl
        rw [hfree] at hw'
        cases hw'
      exact ⟨w', x', by rw [hwatch, Function.update_of_ne hne]; exact hw', hx'⟩

/-- The ids tell the events apart; until the counter wraps they are behind it. -/
structure Numbered (s : Store J) : Prop where
  apart : ∀ e ∈ s.evtids, ∀ e' ∈ s.evtids, (s.evtid e).id = (s.evtid e').id → e = e'
  behind : s.eventIdWrapped = false → ∀ e ∈ s.evtids, (s.evtid e).id ≤ s.eventIdCounter

private theorem numbered_of_identified (hi : Identified s) : Numbered s where
  apart _ he _ he' h := List.inj_on_of_nodup_map hi.distinct he he' h
  behind hw e he := hi.behind hw _ (List.mem_map.mpr ⟨e, he, rfl⟩)

private theorem mirrored_same (hm : Mirrored listener itfs s) (hwatch : t.watch = s.watch)
    (hcalls : t.calls = s.calls) (hkey : ∀ e, keyOf t e = keyOf s e)
    (hnext : t.nextListener = s.nextListener)
    (hitf : ∀ l, (t.listener l).itf = (s.listener l).itf) : Mirrored listener itfs t := by
  refine mirrored_quiet hm hwatch (c := []) (by rw [hcalls, List.append_nil])
    (fun _ x _ => hkey x.evtid) (Nat.le_of_eq hnext.symm) (fun l hl => .inl ?_) (by simp) (by simp)
  rwa [Serves, ← hitf]

private theorem mirrored_create (hi : Inv itfs s) (hm : Mirrored listener itfs s)
    {fullname : Bytes} {mem : Bool} {r : Option Evt}
    (h : afbEvtEvtidCreate s fullname mem = some (r, t)) : Mirrored listener itfs t := by
  unfold afbEvtEvtidCreate at h
  cases mem with
  | false =>
    cases h
    exact hm
  | true =>
    obtain ⟨⟨id, wrapped⟩, -, heq⟩ := Option.map_eq_some_iff.mp h
    cases heq
    refine mirrored_quiet hm rfl (c := []) (List.append_nil _).symm (fun w x hw => ?_)
      (Nat.le_refl _) (fun l hl => .inl hl) (by simp) (by simp)
    have hne := Nat.ne_of_lt (hi.lives.evtFresh _ (hi.lives.watchEvt w x hw))
    simp only [keyOf, Store.modifyEvtid, Function.update_of_ne hne]

private theorem mirrored_evtidUnref (hi : Inv itfs s) (hm : Mirrored listener itfs s) (e : Evt) :
    Mirrored listener itfs (afbEvtEvtidUnref itfs s e) := by
  have hkey := fun e' => update_field s.evtid e e'
    (v := { s.evtid e with refcount := (s.evtid e).refcount - 1 })
    (fun ev => Key.mk ev.id ev.fullname) rfl
  simp only [afbEvtEvtidUnref]
  split
  · refine mirrored_removals _ ?_ (mirrored_same hm rfl rfl hkey rfl fun _ => rfl)
    exact hi.links.congr rfl rfl rfl (fun e' => update_field s.evtid e e' Evtid.watchs rfl)
      (fun _ => rfl) hi.links.told
  · exact mirrored_same hm rfl rfl hkey rfl fun _ => rfl

private theorem mirrored_listenerUnref (hi : Inv itfs s) (hm : Mirrored listener itfs s) (l : Lis) :
    Mirrored listener itfs (afbEvtListenerUnref itfs s l) := by
  have hitf := fun l' => update_field s.listener l l'
    (v := { s.listener l with refcount := (s.listener l).refcount - 1 }) Listener.itf rfl
  simp only [afbEvtListenerUnref]
  split
  · refine mirrored_removals _ ?_ (mirrored_same hm rfl rfl (fun _ => rfl) rfl hitf)
    refine hi.links.congr rfl rfl rfl (fun _ => rfl)
      (fun l' => update_field s.listener l l' Listener.watchs rfl) fun l' e ht => ?_
    refine hi.links.told l' e ?_
    rw [Told, ← hitf]
    exact ht
  · exact mirrored_same hm rfl rfl (fun _ => rfl) rfl hitf

private theorem mirrored_listenerCreate (hm : Mirrored listener itfs s) {itf closure : Nat}
    {mem : Bool} {r : Option Lis} (h : afbEvtListenerCreate s itf closure mem = (r, t)) :
    Mirrored listener itfs t := by
  unfold afbEvtListenerCreate at h
  split at h
  · rename_i l _
    cases h
    exact mirrored_same hm rfl rfl (fun _ => rfl) rfl
      fun l' => update_field s.listener l l' Listener.itf rfl
  · split at h
    · cases h
      refine mirrored_quiet hm rfl (c := []) (List.append_nil _).symm (fun _ _ _ => rfl)
        (Nat.le_succ _) (fun l hl => ?_) (by simp) (by simp)
      by_cases hne : l = s.nextListener
      · exact .inr (Nat.le_of_eq hne.symm)
      · simp only [Serves, Store.modifyListener, Function.update_of_ne hne] at hl
        exact .inl hl
    · cases h
      exact hm

private theorem mirrored_watchAdd (hi : Inv itfs s) (hn : Numbered s) (hm : Mirrored listener itfs s)
    {l : Lis} {e : Evt} {mem : Bool} (hl : 0 < s.ownedLis l) (he : 0 < s.ownedEvt e)
    (hwrap : NoWrap itfs s (.watchAdd l e mem))
    (h : afbEvtWatchAddEvtid itfs s l e mem = .ok t) : Mirrored listener itfs t := by
  unfold afbEvtWatchAddEvtid at h
  split at h
  swap
  · cases h
  rename_i hpush
  cases hf : findWatch s l e with
  | some w =>
    obtain ⟨x, hx, rfl, rfl⟩ := findWatch_some hi.links hf
    simp only [hf] at h
    cases h
    exact mirrored_activate hi.links hm hx (hwrap hpush w x hx rfl rfl)
  | none =>
    cases mem with
    | false =>
      simp only [hf, Bool.false_eq_true, if_false] at h
      cases h
    | true =>
      simp only [hf, if_true] at h
      cases h
      have hlinks := links_new hi.links (findWatch_none hi.links hf)
      have hfree : s.watch s.nextWatch = none := by
        cases hw : s.watch s.nextWatch with
        | none => rfl
        | some x => exact absurd (hi.links.fresh _ x hw) (Nat.lt_irrefl _)
      refine mirrored_activate hlinks ?_ (Function.update_self s.nextWatch _ _)
        (Nat.lt_of_sub_eq_succ rfl)
      refine mirrored_new hm (hi.lives.lisFresh l ((hi.lives.listeners l).mpr hl))
        (fun w x hw hk => ?_) rfl hfree rfl rfl
        (fun l' => update_field s.listener l l' Listener.itf rfl)
        (fun e' => update_field s.evtid e e' (fun ev => Key.mk ev.id ev.fullname) rfl)
      exact hn.apart _ (hi.lives.watchEvt w x hw) e ((hi.lives.evtids e).mpr he)
        (congrArg Key.id hk)

private theorem mirrored_push (hi : Inv itfs s) (hm : Mirrored listener itfs s) (e : Evt) (obj : J) :
    Mirrored listener itfs (afbEvtEvtidPush s e obj).2 := by
  have hpush : ∀ l m, m ∈ (pushes s e obj (s.evtid e).watchs).filterMap (serverEventMessage l) →
      Active s l e ∧ m = .eventPush (keyOf s e) obj := by
    intro l m hmem
    rw [pushes_eq, List.filterMap_map] at hmem
    obtain ⟨l', hl', hmsg⟩ := List.mem_filterMap.mp hmem
    obtain ⟨hto, heq⟩ := Option.ite_none_right_eq_some.mp hmsg
    have hl : l' = l := hto
    exact ⟨hl ▸ (mem_receivers hi e l').mp hl', (Option.some.inj heq).symm⟩
  refine mirrored_quiet hm rfl rfl (fun _ _ _ => rfl) (Nat.le_refl _) (fun l hl => .inl hl)
    (fun l hl => ?_) fun l m hmem => ?_
  · refine List.eq_nil_iff_forall_not_mem.mpr fun m hmem => ?_
    obtain ⟨⟨w, x, hw, hx, -⟩, -⟩ := hpush l m hmem
    exact absurd (hm.known w x hw) (Nat.not_lt.mpr (hx ▸ hl))
  · exact .inl ⟨e, obj, hpush l m hmem⟩

private theorem mirrored_broadcast (hi : Inv itfs s) (hm : Mirrored listener itfs s) (e : Evt)
    (obj : J) : Mirrored listener itfs (afbEvtEvtidBroadcast itfs s e obj).2 := by
  have hbroadcast : ∀ (called : List Lis), (∀ l ∈ called, l ∈ s.listeners) → ∀ l (m : Message J),
      m ∈ (called.map fun l => Call.broadcast l (s.listener l).closure (s.evtid e).fullname
        (s.evtid e).id obj).filterMap (serverEventMessage l) →
      l ∈ s.listeners ∧ m = .eventBroadcast (s.evtid e).fullname obj := by
    intro called hcalled l m hmem
    rw [List.filterMap_map] at hmem
    obtain ⟨l', hl', hmsg⟩ := List.mem_filterMap.mp hmem
    obtain ⟨hl, heq⟩ := Option.ite_none_right_eq_some.mp hmsg
    exact ⟨hl ▸ hcalled l' hl', (Option.some.inj heq).symm⟩
  refine mirrored_quiet hm rfl rfl (fun _ _ _ => rfl) (Nat.le_refl _) (fun l hl => .inl hl)
    (fun l hl => ?_) fun l m hmem => ?_
  · refine List.eq_nil_iff_forall_not_mem.mpr fun m hmem => ?_
    have hold := (hbroadcast _ (fun _ h => List.mem_of_mem_filter h) l m hmem).1
    exact absurd (hi.lives.lisFresh l hold) (Nat.not_lt.mpr hl)
  · exact .inr ⟨_, obj, (hbroadcast _ (fun _ h => List.mem_of_mem_filter h) l m hmem).2⟩

private theorem mirrored_step (hi : Inv itfs s) (hn : Numbered s) (hm : Mirrored listener itfs s)
    (op : Op J) (hwrap : NoWrap itfs s op) (h : step itfs s op = some t) :
    Mirrored listener itfs t := by
  cases op with
  | evtidCreate fullname mem =>
    obtain ⟨⟨r, u⟩, hr, heq⟩ := Option.map_eq_some_iff.mp h
    have hu := mirrored_create hi hm hr
    cases r with
    | none =>
      subst heq
      exact hu
    | some e =>
      subst heq
      exact mirrored_same hu rfl rfl (fun _ => rfl) rfl fun _ => rfl
  | evtidAddref e =>
    obtain ⟨-, h⟩ := Option.ite_none_right_eq_some.mp h
    cases h
    exact mirrored_same hm rfl rfl
      (fun e' => update_field s.evtid e e' (fun ev => Key.mk ev.id ev.fullname) rfl) rfl fun _ => rfl
  | evtidUnref e =>
    obtain ⟨-, h⟩ := Option.ite_none_right_eq_some.mp h
    cases h
    exact mirrored_same (mirrored_evtidUnref hi hm e) rfl rfl (fun _ => rfl) rfl fun _ => rfl
  | listenerCreate itf closure mem =>
    simp only [step] at h
    split at h
    · rename_i l u hr
      cases h
      exact mirrored_same (mirrored_listenerCreate hm hr) rfl rfl (fun _ => rfl) rfl fun _ => rfl
    · rename_i u hr
      cases h
      exact mirrored_listenerCreate hm hr
  | listenerAddref l =>
    obtain ⟨-, h⟩ := Option.ite_none_right_eq_some.mp h
    cases h
    exact mirrored_same hm rfl rfl (fun _ => rfl) rfl
      fun l' => update_field s.listener l l' Listener.itf rfl
  | listenerUnref l =>
    obtain ⟨-, h⟩ := Option.ite_none_right_eq_some.mp h
    cases h
    exact mirrored_same (mirrored_listenerUnref hi hm l) rfl rfl (fun _ => rfl) rfl fun _ => rfl
  | watchAdd l e mem =>
    obtain ⟨⟨hl, he⟩, h⟩ := Option.ite_none_right_eq_some.mp h
    split at h
    · rename_i u hu
      cases h
      exact mirrored_same (mirrored_watchAdd hi hn hm hl he hwrap hu) rfl rfl (fun _ => rfl) rfl
        fun _ => rfl
    · cases h
      exact hm
  | watchSub l e =>
    obtain ⟨-, h⟩ := Option.ite_none_right_eq_some.mp h
    cases h
    cases hr : afbEvtWatchSubEvtid itfs s l e with
    | ok u => exact mirrored_sub hi.links hm hr
    | error err => exact hm
  | push e obj =>
    obtain ⟨-, h⟩ := Option.ite_none_right_eq_some.mp h
    cases h
    exact mirrored_push hi hm e obj
  | evtidBroadcast e obj =>
    obtain ⟨-, h⟩ := Option.ite_none_right_eq_some.mp h
    cases h
    exact mirrored_broadcast hi hm e obj

private theorem mirrored_start : Mirrored listener itfs (.start : Store J) := by
  refine ⟨by simp [Store.start], by simp [Store.start], fun _ _ => rfl, fun l _ => ?_⟩
  refine ⟨List.nodup_nil, by simp [processed, messages, Store.start, Client.start], fun k => ?_, rfl⟩
  simp [processed, messages, Store.start, Client.start, Active]

end

/-- After any operations that take no count of activity past its last value, the client
that has processed the messages of the listener of a server, with memory for each, has
the events that the listener actively watches: each once, with one reference, and no
other, and it has found the event of each push. -/
theorem replicas_mirror_watched (itfs : Itfs) (listener : Nat → Option Lis) (ops : List (Op J))
    (s : Store J) (h : exec (step itfs) .start ops = some s)
    (hwrap : Along (step itfs) (NoWrap itfs) .start ops) (l : Lis) (hl : Serves itfs s l) :
    Replicates s l (processed listener .start (messages s l)) := by
  have hall : Inv itfs s ∧ Identified s ∧ Mirrored listener itfs s := by
    refine exec_keeps_along (C := NoWrap itfs)
      (I := fun s => Inv itfs s ∧ Identified s ∧ Mirrored listener itfs s) ?_ ?_ hwrap h
    · rintro s op t ⟨hi, hn, hm⟩ hop ht
      exact ⟨inv_step hi op hop ht, identified_step hn op ht,
        mirrored_step hi (numbered_of_identified hn) hm op hop ht⟩
    · exact ⟨inv_start, identified_start, mirrored_start⟩
  exact hall.2.2.replicas l hl

/-- One event and the listener of one server, which watches the event. -/
def watchOps : List (Op Nat) :=
  [.evtidCreate [101] true, .listenerCreate 0 5 true, .watchAdd 0 0 true]

theorem replicas_mirror_watched_sample :
    ∃ s, exec (step sampleItfs) .start (watchOps ++ [.push 0 7]) = some s ∧
      Along (step sampleItfs) (NoWrap sampleItfs) .start (watchOps ++ [.push 0 7]) ∧
      Serves sampleItfs s 0 ∧ Active s 0 0 ∧
      Replicates s 0 (processed (fun _ => none) .start (messages s 0)) := by
  have hwrap : Along (step sampleItfs) (NoWrap sampleItfs) .start (watchOps ++ [.push 0 7]) := by
    refine ⟨trivial, ?_⟩
    rintro _ ⟨⟩
    refine ⟨trivial, ?_⟩
    rintro _ ⟨⟩
    refine ⟨fun _ w x hw => ?_, ?_⟩
    · cases hw
    rintro _ ⟨⟩
    exact ⟨trivial, fun _ _ => trivial⟩
  exact ⟨_, rfl, hwrap, rfl, ⟨0, _, rfl, rfl, rfl, by decide⟩,
    replicas_mirror_watched sampleItfs _ _ _ rfl hwrap 0 rfl⟩

section
variable {s : Store J} {w : Wat} {x : Watch}

private theorem step_again (itfs : Itfs) (hl : 0 < s.ownedLis x.listener) (he : 0 < s.ownedEvt x.evtid)
    (hpush : (itfs (s.listener x.listener).itf).push = true)
    (hfind : findWatch s x.listener x.evtid = some w) (hw : s.watch w = some x)
    (ha : x.activity ≠ 0) :
    step itfs s (.watchAdd x.listener x.evtid true) =
      some ((s.setWatch w (some { x with activity := (x.activity + 1) % 2 ^ 32 })).added
        x.listener x.evtid) := by
  simp [step, afbEvtWatchAddEvtid, hl, he, hpush, hfind, activate, hw, ha, Store.call]

/-- A store where only the count of one watch and the additions changed. -/
private def recount (s : Store J) (w : Wat) (x : Watch) (n : Nat) (adds : Lis → Evt → Nat) : Store J :=
  { s with watch := Function.update s.watch w (some { x with activity := n }), adds := adds }

private theorem findWatch_recount (hw : s.watch w = some x) (n : Nat) (adds : Lis → Evt → Nat)
    (l : Lis) (e : Evt) : findWatch (recount s w x n adds) l e = findWatch s l e := by
  simp only [findWatch, recount]
  congr 1
  funext w'
  by_cases hne : w' = w
  · subst hne
    rw [Function.update_self, hw]
    rfl
  · rw [Function.update_of_ne hne]

/-- Additions on an active watch, below the wrap of its count. -/
theorem exec_again (itfs : Itfs) (n : Nat) (hl : 0 < s.ownedLis x.listener) (he : 0 < s.ownedEvt x.evtid)
    (hpush : (itfs (s.listener x.listener).itf).push = true)
    (hfind : findWatch s x.listener x.evtid = some w) (hw : s.watch w = some x)
    (ha : x.activity ≠ 0) (hn : x.activity + n < 2 ^ 32) :
    ∃ adds, exec (step itfs) s (List.replicate n (.watchAdd x.listener x.evtid true)) =
      some (recount s w x (x.activity + n) adds) := by
  induction n generalizing s x with
  | zero =>
    refine ⟨s.adds, ?_⟩
    have hsame : Function.update s.watch w (some x) = s.watch := by rw [← hw, Function.update_eq_self]
    simp only [List.replicate_zero, exec_nil, recount, Nat.add_zero, hsame]
  | succ n ih =>
    have hstep := step_again itfs hl he hpush hfind hw ha
    rw [Nat.mod_eq_of_lt (Nat.lt_of_le_of_lt (by omega) hn)] at hstep
    obtain ⟨adds, hexec⟩ := ih (x := { x with activity := x.activity + 1 })
      (s := (s.setWatch w (some { x with activity := x.activity + 1 })).added x.listener x.evtid)
      hl he hpush ((findWatch_recount hw _ _ _ _).trans hfind) (Function.update_self w _ _)
      (Nat.succ_ne_zero _) (Nat.lt_of_le_of_lt (by simp only; omega) hn)
    refine ⟨adds, ?_⟩
    rw [List.replicate_succ, exec, hstep, Option.bind_some, hexec]
    simp only [recount, Store.added, Store.setWatch, Function.update_idem]
    rw [Nat.add_assoc, Nat.add_comm 1 n]

/-- One more addition and the watch is idle. -/
theorem exec_wraps (itfs : Itfs) (n : Nat) (hl : 0 < s.ownedLis x.listener) (he : 0 < s.ownedEvt x.evtid)
    (hpush : (itfs (s.listener x.listener).itf).push = true)
    (hfind : findWatch s x.listener x.evtid = some w) (hw : s.watch w = some x)
    (ha : x.activity ≠ 0) (hn : x.activity + n + 1 = 2 ^ 32) :
    ∃ adds, exec (step itfs) s (List.replicate n (.watchAdd x.listener x.evtid true) ++
      [.watchAdd x.listener x.evtid true]) = some (recount s w x 0 adds) := by
  obtain ⟨adds, hagain⟩ := exec_again itfs n hl he hpush hfind hw ha (by omega)
  have hlast := step_again (x := { x with activity := x.activity + n }) itfs
    (s := recount s w x (x.activity + n) adds) hl he hpush
    ((findWatch_recount hw _ _ _ _).trans hfind) (Function.update_self w _ _) (by simp only; omega)
  simp only [hn, Nat.mod_self] at hlast
  refine ⟨((recount s w x 0 adds).added x.listener x.evtid).adds, ?_⟩
  rw [exec_append hagain, exec, hlast, Option.bind_some, exec_nil]
  simp only [recount, Store.added, Store.setWatch, Function.update_idem]

end

private theorem watched : ∃ s, exec (step sampleItfs) .start watchOps = some s ∧
    s.watch 0 = some ⟨0, 0, 1⟩ ∧ (∀ w ≠ 0, s.watch w = none) ∧ 0 < s.ownedLis 0 ∧
      0 < s.ownedEvt 0 ∧ (s.listener 0).itf = 0 ∧ findWatch s 0 0 = some 0 ∧
      messages s 0 = [.eventCreate ⟨1, [101]⟩] := by
  refine ⟨_, rfl, rfl, fun w hw => ?_, Nat.one_pos, Nat.one_pos, rfl, rfl, rfl⟩
  exact (Function.update_of_ne hw _ _).trans (Function.update_of_ne hw _ _)

/-- The exceptions. As many additions as an unsigned has values leave the watch idle while
the client keeps the event, and a client without memory does not record the event. -/
theorem replicas_differ :
    (∃ s, exec (step sampleItfs) .start
        (watchOps ++ (List.replicate (2 ^ 32 - 2) (.watchAdd 0 0 true) ++ [.watchAdd 0 0 true])) =
          some s ∧
      Serves sampleItfs s 0 ∧
      ¬ Replicates s 0 (processed (fun _ => none) .start (messages s 0))) ∧
    ∃ s, exec (step sampleItfs) .start watchOps = some s ∧ Serves sampleItfs s 0 ∧
      ¬ Replicates s 0 ((messages s 0).foldl (clientOnMessage (fun _ => none) false) .start) := by
  obtain ⟨s, hs, hw, hnone, hl, he, hitf, hfind, hmsg⟩ := watched
  have hserves : Serves sampleItfs s 0 := by
    rw [Serves, hitf]
    rfl
  refine ⟨?_, s, hs, hserves, fun hr => ?_⟩
  · have hpush : (sampleItfs (s.listener 0).itf).push = true := by
      rw [hitf]
      rfl
    obtain ⟨adds, hwraps⟩ := exec_wraps (x := ⟨0, 0, 1⟩) sampleItfs (2 ^ 32 - 2) hl he hpush
      hfind hw Nat.one_ne_zero (by simp only; omega)
    refine ⟨_, (exec_append hs).trans hwraps, hserves, fun hr => ?_⟩
    have hkey : (⟨1, [101]⟩ : Key) ∈ ((processed (fun _ => none) .start
        [.eventCreate ⟨1, [101]⟩] : Client Nat).events.map ClientEvent.key) := by
      simp [processed, clientOnMessage, clientOnEventCreateCb, clientEventSearch, Client.start]
    rw [← hmsg] at hkey
    obtain ⟨e, ⟨w, x, hx, -, -, ha⟩, -⟩ := (hr.keys _).mp hkey
    simp only [recount] at hx
    by_cases hne : w = 0
    · rw [hne, Function.update_self, Option.some.injEq] at hx
      exact ha (hx ▸ rfl)
    · rw [Function.update_of_ne hne, hnone w hne] at hx
      cases hx
  · rw [hmsg] at hr
    have hactive : Active s 0 0 := ⟨0, _, hw, rfl, rfl, Nat.one_ne_zero⟩
    exact absurd ((hr.keys _).mpr ⟨0, hactive, rfl⟩) List.not_mem_nil

end AfbBinder.Stub
