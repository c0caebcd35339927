import AfbBinder.Apiset.Start

/-! What every start keeps, whatever the graph of requirements and the callbacks. -/
namespace AfbBinder.Apiset
open Lib.Cstrings Lib.Bsearch

theorem search_lt (r : Registry) {set : SetId} {name : Bytes} {d : DescId}
    (h : search r.descs (r.sets set) name = some d) : d < r.descCount := by
  rw [search] at h
  split at h
  · exact r.apisLt set d (List.mem_of_getElem? h)
  · have hali : ∀ l : List Alias, searchAliases name l = some d → ∃ a ∈ l, a.api = d := by
      intro l
      induction l with
      | nil => exact fun h => absurd h (by simp [searchAliases])
      | cons a l ih =>
        intro h
        rw [searchAliases] at h
        split at h
        · exact ⟨a, by simp, by simpa using h⟩
        · cases h
        · obtain ⟨b, hb, he⟩ := ih h
          exact ⟨b, by simp [hb], he⟩
    obtain ⟨a, ha, rfl⟩ := hali _ h
    exact r.aliasesLt set a ha

private theorem Registry.find_lt (r : Registry) {set : SetId} {name : Bytes} {d : DescId}
    (h : r.find set name = some d) : d < r.descCount := by
  have hrec : ∀ n i, searchrec r.descs r.sets name n i = some d → d < r.descCount := by
    intro n
    induction n with
    | zero => exact fun i h => search_lt r h
    | succ n ih =>
      intro i h
      rw [searchrec, Option.or_eq_some_iff] at h
      rcases h with h | ⟨-, h⟩
      · exact search_lt r h
      · obtain ⟨j, -, hj⟩ := Option.bind_eq_some_iff.mp h
        exact ih j hj
  exact hrec _ _ h

private theorem Registry.chainApis_lt (r : Registry) {n : Nat} {set : SetId} {d : DescId}
    (h : d ∈ chainApis r.sets n set) : d < r.descCount := by
  induction n generalizing set with
  | zero => exact r.apisLt set d h
  | succ n ih =>
    rw [chainApis, List.mem_append] at h
    rcases h with h | h
    · exact r.apisLt set d h
    · split at h
      · exact ih h
      · simp at h

/-- A status that is decided, or marked, stays; only untried apis are called. -/
structure Ext (s t : Progress) : Prop where
  keeps : ∀ d, 0 ≤ s.status d → t.status d = s.status d
  fresh : ∀ x ∈ t.calls, x ∈ s.calls ∨ s.status x.1 < 0

private theorem Ext.refl (s : Progress) : Ext s s := ⟨fun _ _ => rfl, fun _ hx => .inl hx⟩

private theorem Ext.trans {s t u : Progress} (h : Ext s t) (h' : Ext t u) : Ext s u where
  keeps d hd := by
    have := h.keeps d hd
    rw [h'.keeps d (by omega), this]
  fresh x hx := by
    rcases h'.fresh x hx with hx | hx
    · exact h.fresh x hx
    · refine .inr ?_
      by_contra hn
      have := h.keeps x.1 (by omega)
      omega

/-- How many apis were never tried: it bounds the depth of the recursion. -/
def untried (r : Registry) (s : Progress) : Nat :=
  (List.range r.descCount).countP fun d => decide (s.status d < 0)

theorem Ext.untried_le {s t : Progress} (h : Ext s t) (r : Registry) :
    untried r t ≤ untried r s := by
  refine List.countP_mono_left fun d _ hd => ?_
  simp only [decide_eq_true_eq] at hd ⊢
  by_contra hn
  have := h.keeps d (by omega)
  omega

/-- Marking an api leaves fewer untried ones. -/
theorem untried_mark {r : Registry} {s : Progress} {d : DescId} (hd : d < r.descCount)
    (hs : s.status d < 0) {v : Int} (hv : 0 ≤ v) :
    untried r (s.setStatus d v) < untried r s := by
  unfold untried Progress.setStatus
  have hm : d ∈ List.range r.descCount := List.mem_range.mpr hd
  obtain ⟨pre, post, he⟩ := List.append_of_mem hm
  have hle : ∀ l : List DescId, l.countP (fun x => decide (Function.update s.status d v x < 0)) ≤
      l.countP fun x => decide (s.status x < 0) := by
    intro l
    refine List.countP_mono_left fun x _ hx => ?_
    simp only [decide_eq_true_eq] at hx ⊢
    by_cases hxd : x = d
    · rwa [hxd]
    · rwa [Function.update_of_ne hxd] at hx
  have h1 := hle pre
  have h2 := hle post
  rw [he]
  simp only [List.countP_append, List.countP_cons, Function.update_self, decide_eq_true_eq, hs]
  have : ¬ v < 0 := by omega
  simp only [this, if_true, if_false]
  omega

/-- What starting does to its state, for the statements that last through it: stack
holds the apis whose activation is in progress. -/
structure Lasting (r : Registry) (I : List DescId → Progress → Prop) : Prop where
  errno : ∀ {stack s} (e : Nat), I stack s → I stack { s with errno := e }
  returned : ∀ {stack s d} {c : Int}, I stack s → (c = 0 ↔ s.status d = 0) →
    I stack (s.returned d c)
  marked : ∀ {stack s d}, I stack s → s.status d < 0 → I (d :: stack) (s.setStatus d EBUSY)
  called : ∀ {stack s u d}, I stack s → s.status d < 0 → Ext (s.setStatus d EBUSY) u →
    I (d :: stack) u → Ready r d u.status →
    I (d :: stack) { u with calls := u.calls ++ [(d, u.status)] }
  ended : ∀ {stack s t d} {c v : Int}, I stack s → s.status d < 0 → Ext s t →
    I (d :: stack) t → 0 ≤ v → (c = 0 ↔ v = 0) → (v = 0 → Ready r d t.status) →
    I stack { t.setStatus d v with ends := t.ends ++ [(d, c)] }

/-- A step of starting, from states with at most k untried apis: it ends, keeps what
lasts, and answers without error only if its goal is reached. -/
def Meets {α : Type} (r : Registry) (I : List DescId → Progress → Prop) (k : Nat)
    (start : Start α) (goal : α → Progress → Prop) (x : α) : Prop :=
  ∀ stack s, I stack s → untried r s ≤ k →
    ∃ rc t, start x s = some (rc, t) ∧ I stack t ∧ Ext s t ∧ (0 ≤ rc → goal x t)

/-- The goals are statuses zero, which stay. -/
def Stable (goal : Progress → Prop) : Prop := ∀ s t, Ext s t → goal s → goal t

theorem stable_zero (d : DescId) : Stable fun s => s.status d = 0 := by
  intro s t h hs
  rw [h.keeps d (by omega), hs]

private theorem stable_ready (r : Registry) (d : DescId) : Stable fun s => Ready r d s.status := by
  intro s t h hs
  refine ⟨fun c hc p hp => stable_zero p s t h (hs.1 c hc p hp), fun q hq => ?_⟩
  obtain ⟨a, ha, hz⟩ := hs.2 q hq
  exact ⟨a, ha, stable_zero a s t h hz⟩

private theorem ext_mark {s : Progress} {d : DescId} (h : s.status d < 0) (v : Int) :
    Ext s (s.setStatus d v) := by
  refine ⟨fun e he => Function.update_of_ne ?_ _ _, fun _ hx => .inl hx⟩
  rintro rfl
  omega

theorem startArray_meets {α : Type} {r : Registry} {I : List DescId → Progress → Prop} {k : Nat}
    {start : Start α} {goal : α → Progress → Prop} {l : List α}
    (hm : ∀ x ∈ l, Meets r I k start goal x)
    (hg : ∀ x, Stable (goal x)) (stack : List DescId) (s : Progress) (rc : Int)
    (hi : I stack s) (hk : untried r s ≤ k) :
    ∃ rc' t, startArray start l rc s = some (rc', t) ∧ I stack t ∧ Ext s t ∧
      (0 ≤ rc' → 0 ≤ rc ∧ ∀ x ∈ l, goal x t) := by
  induction l generalizing s rc with
  | nil => exact ⟨rc, s, rfl, hi, .refl s, fun h => ⟨h, by simp⟩⟩
  | cons x l ih =>
    obtain ⟨rc2, t, ht, hit, hst, hgoal⟩ := hm x (by simp) stack s hi hk
    obtain ⟨rc', u, hu, hiu, htu, hall⟩ := ih (fun y hy => hm y (by simp [hy])) t
      (if rc2 < 0 then rc2 else rc) hit (Nat.le_trans (hst.untried_le r) hk)
    refine ⟨rc', u, by rw [startArray, ht]; exact hu, hiu, hst.trans htu, fun h => ?_⟩
    obtain ⟨hrc, hrest⟩ := hall h
    split_ifs at hrc with hneg
    · omega
    · refine ⟨hrc, fun y hy => ?_⟩
      rcases List.mem_cons.mp hy with rfl | hy
      · exact hg y t u htu (hgoal (by omega))
      · exact hrest y hy

section
variable {r : Registry} {I : List DescId → Progress → Prop} {k : Nat} {start : Start DescId}
  (hm : ∀ d < r.descCount, Meets r I k start (fun d s => s.status d = 0) d)
include hm

private theorem startClass_meets (c : ClassId) : Meets r I k (startClass r start)
    (fun c s => ∀ p ∈ (r.classes c).providers, s.status p = 0) c := by
  intro stack s hi hk
  obtain ⟨rc, t, ht, hit, hst, hall⟩ := startArray_meets
    (l := (r.classes c).providers.reverse)
    (fun d hd => hm d (r.providersLt c d (List.mem_reverse.mp hd))) stable_zero stack s 0 hi hk
  exact ⟨rc, t, ht, hit, hst, fun h p hp => (hall h).2 p (List.mem_reverse.mpr hp)⟩

private theorem startArrayClasses_meets (l : List ClassId) (stack : List DescId) (s : Progress)
    (hi : I stack s) (hk : untried r s ≤ k) :
    ∃ rc t, startArrayClasses r start l s = some (rc, t) ∧ I stack t ∧ Ext s t ∧
      (0 ≤ rc → ∀ c ∈ l, ∀ p ∈ (r.classes c).providers, t.status p = 0) := by
  obtain ⟨rc, t, ht, hit, hst, hall⟩ := startArray_meets (l := l.reverse)
    (fun c _ => startClass_meets hm c)
    (fun c s t h hs p hp => stable_zero p s t h (hs p hp)) stack s 0 hi hk
  exact ⟨rc, t, ht, hit, hst, fun h c hc => (hall h).2 c (List.mem_reverse.mpr hc)⟩

private theorem startDepend_meets (q : Depend) : Meets r I k (startDepend r start)
    (fun q s => ∃ a, r.find q.set q.name = some a ∧ s.status a = 0) q := by
  intro stack s hi hk
  unfold startDepend
  cases hf : r.find q.set q.name with
  | none => exact ⟨-1, s, rfl, hi, .refl s, fun h => absurd h (by omega)⟩
  | some a =>
    obtain ⟨rc, t, ht, hit, hst, hg⟩ := hm a (r.find_lt hf) stack s hi hk
    exact ⟨rc, t, ht, hit, hst, fun h => ⟨a, hf, hg h⟩⟩

private theorem startArrayDepends_meets (l : List Depend) (stack : List DescId) (s : Progress)
    (hi : I stack s) (hk : untried r s ≤ k) :
    ∃ rc t, startArrayDepends r start l s = some (rc, t) ∧ I stack t ∧ Ext s t ∧
      (0 ≤ rc → ∀ q ∈ l, ∃ a, r.find q.set q.name = some a ∧ t.status a = 0) := by
  obtain ⟨rc, t, ht, hit, hst, hall⟩ := startArray_meets (l := l.reverse)
    (fun q _ => startDepend_meets hm q)
    (fun q s t h ⟨a, ha, hs⟩ => ⟨a, ha, stable_zero a s t h hs⟩) stack s 0 hi hk
  exact ⟨rc, t, ht, hit, hst, fun h q hq => (hall h).2 q (List.mem_reverse.mpr hq)⟩

variable (hI : Lasting r I)
include hI

private theorem request_meets (q : Request r.descCount) :
    Meets r I k (request r start) (fun _ _ => True) q := by
  intro stack s hi hk
  have hgoal : ∀ {rc : Int}, 0 ≤ rc → True := fun _ => trivial
  have hmiss : Ext s { s with errno := ENOENT } := ⟨fun _ _ => rfl, fun _ hx => .inl hx⟩
  cases q with
  | startApi api =>
    obtain ⟨rc, t, ht, hit, hst, -⟩ := hm api api.isLt stack s hi hk
    exact ⟨rc, t, ht, hit, hst, hgoal⟩
  | startService set name =>
    simp only [request]
    cases hf : r.find set name with
    | none => exact ⟨-1, _, rfl, hI.errno _ hi, hmiss, hgoal⟩
    | some d =>
      obtain ⟨rc, t, ht, hit, hst, -⟩ := hm d (r.find_lt hf) stack s hi hk
      exact ⟨rc, t, ht, hit, hst, hgoal⟩
  | classStart name =>
    simp only [request]
    cases hf : classSearch r name with
    | none => exact ⟨-1, _, rfl, hI.errno _ hi, hmiss, hgoal⟩
    | some c =>
      obtain ⟨rc, t, ht, hit, hst, -⟩ := startClass_meets hm c stack s hi hk
      exact ⟨rc, t, ht, hit, hst, hgoal⟩
  | startAllServices set =>
    obtain ⟨rc, t, ht, hit, hst, -⟩ := startArray_meets
      (fun d hd => hm d (r.chainApis_lt hd)) stable_zero stack s 0 hi hk
    exact ⟨rc, t, ht, hit, hst, hgoal⟩

theorem requests_meets (l : List (Request r.descCount)) (stack : List DescId)
    (s : Progress) (hi : I stack s) (hk : untried r s ≤ k) :
    ∃ t, requests r start l s = some t ∧ I stack t ∧ Ext s t := by
  induction l generalizing s with
  | nil => exact ⟨s, rfl, hi, .refl s⟩
  | cons q l ih =>
    obtain ⟨rc, t, ht, hit, hst, -⟩ := request_meets hm hI q stack s hi hk
    obtain ⟨u, hu, hiu, htu⟩ := ih t hit (Nat.le_trans (hst.untried_le r) hk)
    exact ⟨u, by rw [requests, ht]; exact hu, hiu, hst.trans htu⟩

/-- An activation, from the mark to the result: what is required is started before
the callback, and has to be for a result that is no failure. -/
theorem startBody_meets (service : DescId → Nat → Answer r.descCount) {d : DescId}
    {stack : List DescId} {s : Progress} (hs : s.status d < 0) (hi : I stack s)
    (hk : untried r (s.setStatus d EBUSY) ≤ k) :
    ∃ rc t, startBody r service start d (s.setStatus d EBUSY) = some (rc, t) ∧
      I (d :: stack) t ∧ Ext s t ∧ (0 ≤ rc → Ready r d t.status) := by
  have hmark := ext_mark hs EBUSY
  obtain ⟨rc, t, ht, hit, hst, hclasses⟩ := startArrayClasses_meets hm
    (r.descs d).requireClasses _ _ (hI.marked hi hs) hk
  unfold startBody
  rw [ht, Option.bind_some]
  by_cases hrc : rc < 0
  · exact ⟨rc, t, by simp [hrc], hit, hmark.trans hst, fun h => absurd h (by omega)⟩
  obtain ⟨rc', u, hu, hiu, htu, hdepends⟩ := startArrayDepends_meets hm
    (r.descs d).requireApis _ _ hit (Nat.le_trans (hst.untried_le r) hk)
  simp only [hrc, if_false, hu, Option.bind_some]
  have hsu : Ext s u := (hmark.trans hst).trans htu
  by_cases hrc' : rc' < 0
  · exact ⟨rc', u, by simp [hrc'], hiu, hsu, fun h => absurd h (by omega)⟩
  have hready : Ready r d u.status :=
    ⟨fun c hc p hp => stable_zero p t u htu (hclasses (by omega) c hc p hp),
      hdepends (by omega)⟩
  cases hcb : (r.descs d).serviceStart with
  | false => exact ⟨rc', u, by simp [hrc'], hiu, hsu, fun _ => hready⟩
  | true =>
    have hext : Ext s { u with calls := u.calls ++ [(d, u.status)] } := by
      refine ⟨hsu.keeps, fun x hx => ?_⟩
      rcases List.mem_append.mp hx with hx | hx
      · exact hsu.fresh x hx
      · rw [List.mem_singleton.mp hx]
        exact .inr hs
    have hle : untried r { u with calls := u.calls ++ [(d, u.status)] } ≤ k :=
      Nat.le_trans ((hst.trans htu).untried_le r) hk
    obtain ⟨v, hv, hiv, huv⟩ := requests_meets hm hI (service d u.calls.length).asks _ _
      (hI.called hi hs (hst.trans htu) hiu hready) hle
    refine ⟨(service d u.calls.length).rc, { v with errno := (service d u.calls.length).errno },
      by simp only [hrc', if_false, if_true, serviceStart, hv, Option.map_some],
      hI.errno _ hiv, ⟨(hext.trans huv).keeps, (hext.trans huv).fresh⟩, fun _ => ?_⟩
    exact stable_ready r d _ v huv hready

end

/-- The end of an activation decides the status and takes the api off the stack. -/
theorem lasting_ended {r : Registry} {I : List DescId → Progress → Prop}
    (hI : Lasting r I) {stack : List DescId} {s t : Progress} {d : DescId} (hi : I stack s)
    (hit : I (d :: stack) t) (hs : s.status d < 0) (hst : Ext s t) {c v : Int} (hv : 0 ≤ v)
    (hrc : c = 0 ↔ v = 0) (hready : v = 0 → Ready r d t.status) :
    let u := Progress.returned { t.setStatus d v with ends := t.ends ++ [(d, c)] } d c
    I stack u ∧ Ext s u ∧ u.status d = v := by
  have hother : ∀ e, e ≠ d → (t.setStatus d v).status e = t.status e := fun e he =>
    t.setStatus_of_ne v he
  refine ⟨hI.returned (hI.ended hi hs hst hit hv hrc hready) (by simpa using hrc),
    ⟨fun e he => ?_, hst.fresh⟩, by simp [Progress.returned]⟩
  have hed : e ≠ d := by
    rintro rfl
    omega
  simpa [Progress.returned, hother e hed] using hst.keeps e he

private theorem lasting_returned {r : Registry} {I : List DescId → Progress → Prop}
    (hI : Lasting r I) {stack : List DescId} {s : Progress} (hi : I stack s) (d : DescId)
    {c : Int} (hrc : c = 0 ↔ s.status d = 0) (e : Nat) :
    I stack (Progress.returned { s with errno := e } d c) ∧
      Ext s (Progress.returned { s with errno := e } d c) :=
  ⟨hI.returned (hI.errno e hi) hrc, ⟨fun _ _ => rfl, fun _ hx => .inl hx⟩⟩

/-- start_api ends within one unit of fuel more than there are untried apis. -/
theorem startApi_meets (r : Registry) {I : List DescId → Progress → Prop} (hI : Lasting r I)
    (service : DescId → Nat → Answer r.descCount) {fuel k : Nat}
    (hk : k < fuel) : ∀ d < r.descCount,
      Meets r I k (startApi r service fuel) (fun d s => s.status d = 0) d := by
  induction fuel generalizing k with
  | zero => omega
  | succ fuel ih =>
    intro d hd stack s hi hu
    rw [startApi]
    by_cases h0 : s.status d = 0
    · rw [if_pos h0]
      obtain ⟨hi', he'⟩ := lasting_returned hI hi d (c := 0) (by simp [h0]) s.errno
      exact ⟨0, _, rfl, hi', he', fun _ => h0⟩
    rw [if_neg h0]
    by_cases hpos : 0 < s.status d
    · rw [if_pos hpos]
      obtain ⟨hi', he'⟩ := lasting_returned hI hi d (c := -1) (by simp [h0]) (s.status d).toNat
      exact ⟨-1, _, rfl, hi', he', fun h => absurd h (by omega)⟩
    rw [if_neg hpos]
    have hneg : s.status d < 0 := by omega
    have hlt := untried_mark (r := r) hd hneg (v := EBUSY) (by decide)
    obtain ⟨rc, t, ht, hit, hst, hready⟩ := startBody_meets (k := k - 1)
      (fun e he => ih (by omega) e he) hI service hneg hi (by omega)
    rw [ht]
    simp only [Option.map_some]
    by_cases hrc : rc < 0
    · have hv : 0 < (if t.errno = 0 then ECANCELED else (t.errno : Int)) := by
        split_ifs
        · decide
        · omega
      obtain ⟨hi', he', -⟩ := lasting_ended hI hi hit hneg hst (c := -1) (Int.le_of_lt hv)
        ⟨fun h => absurd h (by decide), fun h => absurd h (Int.ne_of_gt hv)⟩
        fun h => absurd h (Int.ne_of_gt hv)
      exact ⟨-1, _, by simp only [hrc, if_true]; rfl, hi', he', fun h => absurd h (by omega)⟩
    · obtain ⟨hi', he', hz⟩ := lasting_ended hI hi hit hneg hst (c := 0) (v := 0) (by omega)
        (by simp) fun _ => hready (by omega)
      exact ⟨0, _, by simp only [hrc, if_false]; rfl, hi', he', fun _ => hz⟩

/-- The invariant between two calls, with the apis whose activation is in progress. -/
structure Inv (r : Registry) (stack : List DescId) (s : Progress) : Prop where
  callsNodup : (s.calls.map Prod.fst).Nodup
  callsTried : ∀ x ∈ s.calls, 0 ≤ s.status x.1
  ready : ∀ x ∈ s.calls, Ready r x.1 x.2
  returnsOk : ∀ x ∈ s.returns, x.2.1 = 0 ↔ x.2.2 = 0
  ended : ∀ d, 0 ≤ s.status d → d ∈ stack ∨ ∃ rc, (d, rc) ∈ s.ends ∧ (rc = 0 ↔ s.status d = 0)
  marked : ∀ d ∈ stack, s.status d = EBUSY

section
variable {r : Registry} {stack : List DescId} {s : Progress} {d : DescId}

private theorem Inv.new (hi : Inv r stack s) (hs : s.status d < 0) : ∀ x ∈ s.calls, x.1 ≠ d := by
  intro x hx he
  have := hi.callsTried x hx
  rw [he] at this
  omega

private theorem inv_marked (hi : Inv r stack s) (hs : s.status d < 0) :
    Inv r (d :: stack) (s.setStatus d EBUSY) := by
  have hother : ∀ e, e ≠ d → (s.setStatus d EBUSY).status e = s.status e := fun e he =>
    s.setStatus_of_ne EBUSY he
  constructor
  case callsNodup => exact hi.callsNodup
  case callsTried =>
    intro x hx
    simpa [hother x.1 (hi.new hs x hx)] using hi.callsTried x hx
  case ready => exact hi.ready
  case returnsOk => exact hi.returnsOk
  case ended =>
    intro e he
    by_cases hed : e = d
    · exact .inl (by simp [hed])
    · rw [hother e hed] at he ⊢
      exact (hi.ended e he).imp_left (List.mem_cons_of_mem _)
  case marked =>
    intro e he
    by_cases hed : e = d
    · simp [hed]
    · simpa [hother e hed] using
        hi.marked e ((List.mem_cons.mp he).resolve_left hed)

/-- The callback is called for an api that was never called. -/
theorem inv_called {u : Progress} (hi : Inv r stack s) (hs : s.status d < 0)
    (hsu : Ext (s.setStatus d EBUSY) u) (hiu : Inv r (d :: stack) u) (hready : Ready r d u.status) :
    Inv r (d :: stack) { u with calls := u.calls ++ [(d, u.status)] } := by
  have hfirst : ∀ x ∈ u.calls, x.1 ≠ d := by
    intro x hx he
    rcases hsu.fresh x hx with hx | hx
    · exact hi.new hs x hx he
    · rw [he, Progress.setStatus_self] at hx
      exact absurd hx (by decide)
  constructor
  case callsNodup =>
    rw [List.map_append]
    refine List.nodup_append.mpr ⟨hiu.callsNodup, by simp, ?_⟩
    intro e he e' he'
    obtain ⟨x, hx, rfl⟩ := List.mem_map.mp he
    have : e' = d := by simpa using he'
    rw [this]
    exact hfirst x hx
  case callsTried =>
    intro x hx
    rcases List.mem_append.mp hx with hx | hx
    · exact hiu.callsTried x hx
    · rw [List.mem_singleton.mp hx]
      simp only [hiu.marked d (by simp)]
      decide
  case ready =>
    intro x hx
    rcases List.mem_append.mp hx with hx | hx
    · exact hiu.ready x hx
    · rw [List.mem_singleton.mp hx]
      exact hready
  case returnsOk => exact hiu.returnsOk
  case ended => exact hiu.ended
  case marked => exact hiu.marked

private theorem inv_ended {t : Progress} {c v : Int} (hi : Inv r stack s) (hs : s.status d < 0)
    (hit : Inv r (d :: stack) t) (hv : 0 ≤ v) (hrc : c = 0 ↔ v = 0) :
    Inv r stack { t.setStatus d v with ends := t.ends ++ [(d, c)] } := by
  have hother : ∀ e, e ≠ d → (t.setStatus d v).status e = t.status e := fun e he =>
    t.setStatus_of_ne v he
  constructor
  case callsNodup => exact hit.callsNodup
  case callsTried =>
    intro x hx
    by_cases he : x.1 = d
    · simpa [he] using hv
    · simpa [hother x.1 he] using hit.callsTried x hx
  case ready => exact hit.ready
  case returnsOk => exact hit.returnsOk
  case ended =>
    intro e he
    by_cases hed : e = d
    · subst hed
      exact .inr ⟨c, by simp, by simpa using hrc⟩
    · simp only [hother e hed] at he ⊢
      rcases hit.ended e he with hm | ⟨c, hc, hz⟩
      · exact .inl ((List.mem_cons.mp hm).resolve_left hed)
      · exact .inr ⟨c, by simp [hc], hz⟩
  case marked =>
    intro e he
    have hed : e ≠ d := by
      rintro rfl
      rw [hi.marked e he] at hs
      exact absurd hs (by decide)
    simpa [hother e hed] using hit.marked e (List.mem_cons_of_mem _ he)

theorem inv_lasting (r : Registry) : Lasting r (Inv r) where
  errno _ hi :=
    ⟨hi.callsNodup, hi.callsTried, hi.ready, hi.returnsOk, hi.ended, hi.marked⟩
  returned := by
    intro stack s d c hi hrc
    refine ⟨hi.callsNodup, hi.callsTried, hi.ready, fun x hx => ?_, hi.ended, hi.marked⟩
    rcases List.mem_append.mp hx with hx | hx
    · exact hi.returnsOk x hx
    · rw [List.mem_singleton.mp hx]
      exact hrc
  marked hi hs := inv_marked hi hs
  called hi hs hsu hiu hready := inv_called hi hs hsu hiu hready
  ended hi hs _ hit hv hrc _ := inv_ended hi hs hit hv hrc

end

theorem inv_init (r : Registry) : Inv r [] Progress.init := by
  constructor <;> simp [Progress.init]

theorem untried_le (r : Registry) (s : Progress) : untried r s ≤ r.descCount := by
  have := List.countP_le_length (p := fun d => decide (s.status d < 0)) (l := List.range r.descCount)
  simpa [untried] using this

/-- For every registry, every behaviour of the callbacks and every sequence of start
requests, with any recursion bound above the number of apis: starting ends;
service_start is called at most once an api, and only when all that the api requires
has status 0; each return of start_api is 0 exactly when the status then is 0; and
an api left with the mark of a start in progress is one whose start failed. -/
theorem start_requests_end_in_order (r : Registry)
    (service : DescId → Nat → Answer r.descCount) (l : List (Request r.descCount)) (fuel : Nat)
    (hfuel : r.descCount < fuel) :
    ∃ s, requests r (startApi r service fuel) l Progress.init = some s ∧
      (s.calls.map Prod.fst).Nodup ∧
      (∀ d status, (d, status) ∈ s.calls → Ready r d status) ∧
      (∀ d rc status, (d, rc, status) ∈ s.returns → (rc = 0 ↔ status = 0)) ∧
      (∀ d, s.status d = EBUSY → ∃ rc, (d, rc) ∈ s.ends ∧ rc ≠ 0) := by
  have hle := untried_le r Progress.init
  obtain ⟨s, hs, hi, -⟩ := requests_meets (startApi_meets r (inv_lasting r) service hfuel)
    (inv_lasting r) l [] _ (inv_init r) hle
  refine ⟨s, hs, hi.callsNodup, fun d status hm => hi.ready _ hm,
    fun d rc status hm => hi.returnsOk _ hm, fun d hd => ?_⟩
  rcases hi.ended d (by rw [hd]; decide) with hm | ⟨rc, hm, hz⟩
  · simp at hm
  · refine ⟨rc, hm, fun h => ?_⟩
    rw [hz.mp h] at hd
    exact absurd hd (by decide)

/-- Api 0 requires api 1 and class 0, which api 2 provides; api 1 requires api 0 back. -/
def cyclicRegistry : Registry where
  sets _ := ⟨[0, 1, 2], [], none⟩
  descs d := match d with
    | 0 => ⟨[97], true, [0], [⟨0, [98]⟩]⟩
    | 1 => ⟨[98], true, [], [⟨0, [97]⟩]⟩
    | _ => ⟨[99], true, [], []⟩
  status _ := -1
  classes _ := ⟨[99], [2]⟩
  allApis := [2, 1, 0]
  allClasses := [0]
  setCount := 1
  descCount := 3
  classCount := 1
  rank _ := 0
  acyclic := by simp
  apisLt := by simp
  aliasesLt := by simp
  providersLt := by simp

theorem start_requests_end_in_order_cyclic :
    ∃ s, requests cyclicRegistry (startApi cyclicRegistry (fun _ _ => ⟨[], 0, 0⟩) 4)
        [.startAllServices 0] Progress.init = some s ∧
      s.calls.map Prod.fst = [2] ∧ s.status 0 = EBUSY ∧ s.status 2 = 0 ∧
      ∃ rc, (0, rc) ∈ s.ends ∧ rc ≠ 0 := by
  obtain ⟨s, hs, -, -, -, hend⟩ := start_requests_end_in_order cyclicRegistry
    (fun _ _ => ⟨[], 0, 0⟩) [.startAllServices 0] 4 (by decide)
  have hvalue : ∃ t, requests cyclicRegistry (startApi cyclicRegistry (fun _ _ => ⟨[], 0, 0⟩) 4)
      [.startAllServices 0] Progress.init = some t ∧
      t.calls.map Prod.fst = [2] ∧ t.status 0 = EBUSY ∧ t.status 2 = 0 := ⟨_, rfl, rfl, rfl, rfl⟩
  obtain ⟨t, ht, hc, h0, h2⟩ := hvalue
  rw [ht, Option.some.injEq] at hs
  subst hs
  exact ⟨t, ht, hc, h0, h2, hend 0 h0⟩

end AfbBinder.Apiset
