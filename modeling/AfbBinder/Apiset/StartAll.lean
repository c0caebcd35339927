import AfbBinder.Lib.Runs
import AfbBinder.Apiset.Links
import AfbBinder.Apiset.Start

/-! The walk of afb_apiset_start_all_services goes by index through the arrays of a chain
while the callbacks that it calls add, delete, link and start. -/
namespace AfbBinder.Apiset
open Lib.Chains Lib.Cstrings Lib.Runs

/-- The variables of a walk that was called on root: set is the one walked now. -/
structure Walk where
  root : SetId
  set : SetId
  i : Nat
  ret : Int
  deriving DecidableEq, Repr

def Walk.next (l : Walk) (rc : Int) : Walk :=
  { l with i := l.i + 1, ret := if rc < 0 then rc else l.ret }

/-- The calls that are running, each one called from the next of the stack. -/
inductive Frame where
  | startAllServices (l : Walk)
  | startApi (api : DescId)
  deriving DecidableEq, Repr

structure Starting extends World where
  stack : List Frame

def Starting.empty : Starting := ⟨.empty, []⟩

/-- A callback runs, or no call does. -/
def Starting.free (s : Starting) : Bool :=
  match s.stack with
  | .startAllServices _ :: _ => false
  | _ => true

/-- The descriptor that afb_apiset_del would free. -/
def deleted (w : World) (set : SetId) (name : Bytes) : Option DescId :=
  match delAlias name (w.sets set).aliases with
  | some _ => none
  | none => findApi w.descs name (w.sets set).apis

/-- No call frees the descriptor of an api that is being started. -/
def Starting.allows (s : Starting) : Build → Bool
  | .op (.del set name) => (deleted s.toWorld set name).all fun d => .startApi d ∉ s.stack
  | _ => true

/-- start_api, up to what the api requires and to its callback. -/
def Starting.startApi (s : Starting) (d : DescId) : Starting :=
  { s with status := Function.update s.status d EBUSY, stack := .startApi d :: s.stack }

/-- A walk goes on with the result of start_api. -/
def resume (rc : Int) : List Frame → List Frame
  | .startAllServices l :: rest => .startAllServices (l.next rc) :: rest
  | stack => stack

def Starting.returned (s : Starting) (rc : Int) : Starting := { s with stack := resume rc s.stack }

/-- What happens: calls made by a callback or from outside, a turn of the walk, the end of
start_api with the status it gives. The apis that an api requires are started by calls of
start_api too, on descriptors that some set has. -/
inductive Starting.Act where
  | build (op : Build)
  | startAllServices (set : SetId)
  | startApi (d : DescId)
  | turn
  | ends (status : Nat)
  deriving DecidableEq, Repr

/-- A turn of the loops of the walk. -/
def Starting.turn (s : Starting) (l : Walk) (rest : List Frame) : Starting :=
  match (s.sets l.set).apis[l.i]? with
  | some d =>
    if s.status d < 0 then s.startApi d
    else s.returned (if s.status d = 0 then 0 else -1)
  | none =>
    match (s.sets l.set).subset with
    | some sub => { s with stack := .startAllServices { l with set := sub, i := 0 } :: rest }
    | none => { s with stack := rest }

def Starting.step (s : Starting) : Starting.Act → Option Starting
  | .build op =>
    if s.free ∧ s.allows op then (build s.toWorld op).map fun w => ⟨w, s.stack⟩ else none
  | .startAllServices set =>
    if s.free ∧ set < s.setCount then
      some { s with stack := .startAllServices ⟨set, set, 0, 0⟩ :: s.stack }
    else none
  | .startApi d =>
    if s.free ∧ ∃ set < s.setCount, d ∈ (s.sets set).apis then
      some (if s.status d < 0 then s.startApi d else s)
    else none
  | .turn =>
    match s.stack with
    | .startAllServices l :: rest => some (s.turn l rest)
    | _ => none
  | .ends status =>
    match s.stack with
    | .startApi d :: rest =>
      some (Starting.returned { s with status := Function.update s.status d status, stack := rest }
        (if status = 0 then 0 else -1))
    | _ => none

/-- The loops of the walk are at their end. -/
def Walk.Returns (w : World) (l : Walk) : Prop :=
  (w.sets l.set).apis.length ≤ l.i ∧ (w.sets l.set).subset = none
  deriving Decidable

/-- A walk that returns leaves no api of the chain with a negative status. -/
def NothingLeft (s : Starting) : Starting.Act → Prop
  | .turn =>
    match s.stack with
    | .startAllServices l :: _ => l.Returns s.toWorld →
        ∀ set ∈ subsets s.toWorld l.root, ∀ d ∈ (s.sets set).apis, 0 ≤ s.status d
    | _ => True
  | _ => True

/-- The sets of a chain that come before one of them. -/
def passed (set : SetId) (chain : List SetId) : List SetId := chain.takeWhile (· ≠ set)

/-- Along a chain, the apis are tried up to the given index of the given set. -/
def Covers (w : World) (set : SetId) (n : Nat) : List SetId → Prop
  | [] => True
  | x :: rest =>
    if x = set then ∀ d ∈ (w.sets x).apis.take n, 0 ≤ w.status d
    else (∀ d ∈ (w.sets x).apis, 0 ≤ w.status d) ∧ Covers w set n rest

/-- What a callback may do while the walk waits for it: it adds nothing behind the walk, it
deletes nothing behind it but when the next api is tried, and it links behind it nothing that
the walk would have to try. -/
def Spares (w : World) (l : Walk) : Build → Prop
  | .op (.add set name _ mem) => (search w.descs (w.sets set) name).isSome = false → mem = true →
      set ∉ passed l.set (subsets w l.root) ∧ (set = l.set → l.set ∈ subsets w l.root →
        l.i < ((w.sets set).apis.takeWhile fun d => strcasecmp (w.descs d).name name ≠ .gt).length)
  | .op (.del set name) => set = l.set → l.set ∈ subsets w l.root → ∀ d ∈ deleted w set name,
      d ∈ (w.sets set).apis.take (l.i + 1) → ∀ e ∈ (w.sets set).apis[l.i + 1]?, 0 ≤ w.status e
  | .subsetSet set subset => set ∈ passed l.set (subsets w l.root) → ∀ x ∈ subset,
      set ∉ subsets w x → Covers w l.set (l.i + 1) (subsets w x)
  | _ => True

def Frame.Spared (w : World) (op : Build) : Frame → Prop
  | .startAllServices l => Spares w l op
  | .startApi _ => True

def Calm (s : Starting) : Starting.Act → Prop
  | .build op => ∀ f ∈ s.stack, f.Spared s.toWorld op
  | _ => True

instance decidableNothingLeft (s : Starting) : ∀ a, Decidable (NothingLeft s a)
  | .turn =>
    match h : s.stack with
    | .startAllServices l :: _ => decidable_of_iff (l.Returns s.toWorld →
        ∀ set ∈ subsets s.toWorld l.root, ∀ d ∈ (s.sets set).apis, 0 ≤ s.status d)
        (by simp only [NothingLeft, h])
    | .startApi _ :: _ => isTrue (by simp only [NothingLeft, h])
    | [] => isTrue (by simp only [NothingLeft, h])
  | .build _ | .startAllServices _ | .startApi _ | .ends _ => isTrue trivial

instance decidableCovers (w : World) (set : SetId) (n : Nat) : ∀ c, Decidable (Covers w set n c)
  | [] => isTrue trivial
  | x :: rest =>
    have := decidableCovers w set n rest
    inferInstanceAs (Decidable (if x = set then _ else _))

instance decidableSpares (w : World) (l : Walk) : ∀ op, Decidable (Spares w l op)
  | .op (.add _ _ _ _) => inferInstanceAs (Decidable (_ → _ → _ ∧ (_ → _ → _)))
  | .op (.del _ _) => inferInstanceAs (Decidable (_ → _ → ∀ _ ∈ _, _ → ∀ _ ∈ _, _))
  | .subsetSet _ _ => inferInstanceAs (Decidable (_ → ∀ _ ∈ _, _ → _))
  | .op .create | .op (.addAlias _ _ _ _) | .createSubsetFirst _ | .createSubsetLast _ => isTrue trivial

instance decidableCalm (s : Starting) : ∀ a, Decidable (Calm s a)
  | .build op =>
    have (f : Frame) : Decidable (f.Spared s.toWorld op) :=
      match f with
      | .startAllServices l => inferInstanceAs (Decidable (Spares s.toWorld l op))
      | .startApi _ => isTrue trivial
    inferInstanceAs (Decidable (∀ f ∈ s.stack, f.Spared s.toWorld op))
  | .startAllServices _ | .startApi _ | .turn | .ends _ => isTrue trivial

section
variable {w v : World} {set : SetId} {n : Nat} {c : List SetId}

private theorem Covers.of {m : Nat} (h : Covers w set n c)
    (hpassed : ∀ x ∈ passed set c, (∀ d ∈ (w.sets x).apis, 0 ≤ w.status d) →
      ∀ d ∈ (v.sets x).apis, 0 ≤ v.status d)
    (hset : set ∈ c → (∀ d ∈ (w.sets set).apis.take n, 0 ≤ w.status d) →
      ∀ d ∈ (v.sets set).apis.take m, 0 ≤ v.status d) : Covers v set m c := by
  induction c with
  | nil => trivial
  | cons x c ih =>
    unfold Covers at h ⊢
    split
    · rename_i hx
      subst hx
      rw [if_pos rfl] at h
      exact hset List.mem_cons_self h
    · rename_i hx
      rw [if_neg hx] at h
      have hcons : passed set (x :: c) = x :: passed set c :=
        List.takeWhile_cons_of_pos (by simpa using hx)
      rw [hcons] at hpassed
      refine ⟨hpassed x List.mem_cons_self h.1, ih h.2 (fun y hy => ?_) fun hm => ?_⟩
      · exact hpassed y (List.mem_cons_of_mem _ hy)
      · exact hset (List.mem_cons_of_mem _ hm)

/-- The set is walked to its end: the next one begins. -/
theorem Covers.advance {sub : SetId} (h : Covers w set n c) (hn : (w.sets set).apis.length ≤ n)
    (hsub : w.links set = some sub) {a : SetId} (hc : Chain w.links a c) : Covers w sub 0 c := by
  have hzero : ∀ d ∈ (w.sets sub).apis.take 0, 0 ≤ w.status d := by simp
  induction hc with
  | @last a ha =>
    unfold Covers at h ⊢
    split
    · rename_i he
      exact he ▸ hzero
    · refine ⟨?_, trivial⟩
      split at h
      · rename_i he
        cases (he ▸ ha : w.links set = none).symm.trans hsub
      · exact h.1
  | @link a b c hs hl ih =>
    unfold Covers at h ⊢
    split
    · rename_i he
      exact he ▸ hzero
    · split at h
      · rename_i he
        subst he
        rw [List.take_of_length_le hn] at h
        refine ⟨h, ?_⟩
        obtain rfl : b = sub := Option.some.inj (hs.symm.trans hsub)
        cases hl <;> · rw [Covers, if_pos rfl]; exact hzero
      · exact ⟨h.1, ih h.2⟩

/-- The last set is walked to its end. -/
theorem Covers.finish (h : Covers w set n c) (hn : (w.sets set).apis.length ≤ n)
    (hlast : w.links set = none) {a : SetId} (hc : Chain w.links a c) :
    ∀ x ∈ c, ∀ d ∈ (w.sets x).apis, 0 ≤ w.status d := by
  induction hc with
  | @last a ha =>
    intro x hx
    obtain rfl := List.mem_singleton.mp hx
    unfold Covers at h
    split at h
    · rename_i he
      subst he
      rwa [List.take_of_length_le hn] at h
    · exact h.1
  | @link a b c hs hl ih =>
    unfold Covers at h
    split at h
    · rename_i he
      subst he
      cases hs.symm.trans hlast
    · rintro x (_ | ⟨_, hx⟩)
      · exact h.1
      · exact ih h.2 x hx

/-- One set of the chain gets another subset. -/
theorem Covers.relinked {x : SetId} {m : List SetId} (h : Covers w set n c) (hx : x ∈ c)
    (hm : x ∈ passed set c → Covers w set n m) :
    Covers w set n (c.takeWhile (· ≠ x) ++ x :: m) := by
  induction c with
  | nil => cases hx
  | cons y c ih =>
    by_cases hy : y = x
    · subst hy
      rw [List.takeWhile_cons_of_neg (by simp), List.nil_append]
      unfold Covers at h ⊢
      split
      · rename_i he
        rwa [if_pos he] at h
      · rename_i he
        rw [if_neg he] at h
        refine ⟨h.1, hm ?_⟩
        rw [passed, List.takeWhile_cons_of_pos (by simpa using he)]
        exact List.mem_cons_self
    · rw [List.takeWhile_cons_of_pos (by simpa using hy), List.cons_append]
      unfold Covers at h ⊢
      split
      · rename_i he
        rwa [if_pos he] at h
      · rename_i he
        rw [if_neg he] at h
        refine ⟨h.1, ih h.2 ((List.mem_cons.mp hx).resolve_left (Ne.symm hy)) fun hp => hm ?_⟩
        rw [passed, List.takeWhile_cons_of_pos (by simpa using he)]
        exact List.mem_cons_of_mem _ hp

/-- An empty set is put in the chain. -/
theorem Covers.spliced {x new : SetId} (h : Covers w set n c) (hnew : (w.sets new).apis = []) :
    Covers w set n (c.flatMap fun y => if y = x then [y, new] else [y]) := by
  have hempty : ∀ c, Covers w set n c → Covers w set n (new :: c) := by
    intro c hc
    unfold Covers
    split
    · simp [hnew]
    · exact ⟨by simp [hnew], hc⟩
  induction c with
  | nil => exact h
  | cons y c ih =>
    have hrest : y ≠ set → Covers w set n ((if y = x then [new] else []) ++
        c.flatMap fun y => if y = x then [y, new] else [y]) := by
      intro hy
      unfold Covers at h
      rw [if_neg hy] at h
      split
      · exact hempty _ (ih h.2)
      · exact ih h.2
    have hcons : (y :: c).flatMap (fun y => if y = x then [y, new] else [y]) =
        y :: ((if y = x then [new] else []) ++
          c.flatMap fun y => if y = x then [y, new] else [y]) := by
      rw [List.flatMap_cons]
      split <;> simp
    rw [hcons]
    unfold Covers at h ⊢
    split
    · rename_i hy
      rwa [if_pos hy] at h
    · rename_i hy
      rw [if_neg hy] at h
      exact ⟨h.1, hrest hy⟩

/-- The chain of a walk, tried up to the given index of its set. -/
structure Covered (w : World) (l : Walk) (n : Nat) : Prop where
  made : l.root < w.setCount
  covers : Covers w l.set n (subsets w l.root)

private theorem Covered.sameChain {l : Walk} (hc : Covered w l n) (hw : Linked w) (hv : Linked v)
    (hlinks : v.links = w.links) (hcount : w.setCount ≤ v.setCount)
    (h : Covers v l.set n (subsets w l.root)) : Covered v l n := by
  refine ⟨Nat.lt_of_lt_of_le hc.made hcount, ?_⟩
  obtain ⟨c, hc⟩ := hw.chains l.root
  rwa [subsets_eq hv (hlinks ▸ hc), ← subsets_eq hw hc]

private theorem Covered.statuses {l : Walk} (hw : Linked w) (h : Covered w l n) (hv : Linked v)
    (hsets : v.sets = w.sets) (hcount : w.setCount ≤ v.setCount)
    (hstatus : ∀ s, ∀ d ∈ (w.sets s).apis, 0 ≤ w.status d → 0 ≤ v.status d) : Covered v l n := by
  refine h.sameChain hw hv (by unfold World.links; rw [hsets]) hcount (h.covers.of ?_ ?_)
  · rw [hsets]
    exact fun x _ hx d hd => hstatus x d hd (hx d hd)
  · rw [hsets]
    exact fun _ hx d hd => hstatus _ d (List.mem_of_mem_take hd) (hx d hd)

private theorem take_insertApi {descs : DescId → ApiDesc} {name : Bytes} {d : DescId} {l : List DescId}
    (h : n ≤ (l.takeWhile fun x => strcasecmp (descs x).name name ≠ .gt).length) :
    (insertApi descs name d l).take n = l.take n := by
  induction l generalizing n with
  | nil =>
    obtain rfl := Nat.le_zero.mp h
    rfl
  | cons a l ih =>
    rw [insertApi]
    by_cases ha : strcasecmp (descs a).name name = .gt
    · rw [List.takeWhile_cons_of_neg (by simpa using ha)] at h
      obtain rfl := Nat.le_zero.mp h
      rfl
    · rw [if_neg ha]
      rw [List.takeWhile_cons_of_pos (by simpa using ha), List.length_cons] at h
      cases n with
      | zero => rfl
      | succ n => rw [List.take_succ_cons, List.take_succ_cons, ih (Nat.le_of_succ_le_succ h)]

/-- What follows a deleted item comes one index before. -/
theorem mem_take_erase {l : List DescId} {d x : DescId} (h : x ∈ (l.erase d).take n) :
    x ∈ l.take n ∨ (d ∈ l.take n ∧ l[n]? = some x) := by
  induction l generalizing n with
  | nil => simp at h
  | cons a l ih =>
    cases n with
    | zero => simp at h
    | succ n =>
      rw [List.take_succ_cons]
      by_cases ha : a = d
      · subst ha
        rw [List.erase_cons_head] at h
        cases hl : l[n]? with
        | none =>
          have hlen : l.length ≤ n := List.getElem?_eq_none_iff.mp hl
          rw [List.take_of_length_le (Nat.le_succ_of_le hlen)] at h
          rw [List.take_of_length_le hlen]
          exact .inl (List.mem_cons_of_mem _ h)
        | some y =>
          rw [List.take_add_one, hl, List.mem_append] at h
          rcases h with h | h
          · exact .inl (List.mem_cons_of_mem _ h)
          · obtain rfl : x = y := by simpa using h
            exact .inr ⟨List.mem_cons_self, hl⟩
      · rw [List.erase_cons_tail (by simpa using ha), List.take_succ_cons, List.mem_cons] at h
        rcases h with rfl | h
        · exact .inl List.mem_cons_self
        · refine (ih h).imp (List.mem_cons_of_mem _) fun hd => ⟨List.mem_cons_of_mem _ hd.1, ?_⟩
          simpa using hd.2

section
variable {l : Walk}

private theorem covered_create (hw : Linked w) (h : Covered w l n) : Covered (afbApisetCreate w) l n :=
  h.statuses hw (linked_create hw) (sets_create hw) (Nat.le_succ _) fun _ _ _ hd => hd

private theorem covered_add {name : Bytes} {serviceStart mem : Bool} (hw : Linked w)
    (hs : set < w.setCount) (h : Covered w l (l.i + 1))
    (hcalm : Spares w l (.op (.add set name serviceStart mem)))
    (hv : afbApisetAdd w set name serviceStart mem = .ok v) : Covered v l (l.i + 1) := by
  have hlv := linked_add hw hs hv
  obtain ⟨hnone, hmem, rfl⟩ := add_ok hv
  obtain ⟨hpassed, hindex⟩ := hcalm (by simpa using hnone) hmem
  -- the descriptors that were there keep their statuses
  have hold : ∀ s, ∀ d ∈ (w.sets s).apis, 0 ≤ w.status d →
      0 ≤ Function.update w.status w.descCount (-1) d := fun s d hd hst => by
    rwa [Function.update_of_ne (Nat.ne_of_lt (hw.allocated s d hd))]
  refine h.sameChain hw hlv (links_update w set rfl) (Nat.le_refl _)
    (h.covers.of (fun x hx hst => ?_) fun hm hst => ?_)
  · have hne : x ≠ set := fun he => hpassed (he ▸ hx)
    change ∀ d ∈ (Function.update w.sets set _ x).apis, _
    rw [Function.update_of_ne hne]
    exact fun d hd => hold x d hd (hst d hd)
  · by_cases he : set = l.set
    · subst he
      change ∀ d ∈ (Function.update w.sets l.set _ l.set).apis.take (l.i + 1), _
      rw [Function.update_self]
      change ∀ d ∈ (insertApi w.descs name w.descCount (w.sets l.set).apis).take (l.i + 1), _
      rw [take_insertApi (hindex rfl hm)]
      exact fun d hd => hold _ d (List.mem_of_mem_take hd) (hst d hd)
    · change ∀ d ∈ (Function.update w.sets set _ l.set).apis.take (l.i + 1), _
      rw [Function.update_of_ne (Ne.symm he)]
      exact fun d hd => hold _ d (List.mem_of_mem_take hd) (hst d hd)

/-- A set is rewritten with the apis that the walk goes by. -/
theorem covered_rewrite {x : ApiSet} (hw : Linked w) (hlv : Linked v) (h : Covered w l n)
    (hx : x.subset = (w.sets set).subset) (hapis : x.apis ⊆ (w.sets set).apis)
    (htake : set = l.set → l.set ∈ subsets w l.root →
      (∀ d ∈ (w.sets set).apis.take n, 0 ≤ w.status d) → ∀ d ∈ x.apis.take n, 0 ≤ w.status d)
    (hsets : v.sets = Function.update w.sets set x) (hstatus : v.status = w.status)
    (hcount : v.setCount = w.setCount) : Covered v l n := by
  refine h.sameChain hw hlv ?_ (Nat.le_of_eq hcount.symm)
    (h.covers.of (fun y hy hst => ?_) fun hm hst => ?_)
  · rw [← links_update w set hx]
    unfold World.links
    rw [hsets]
  · rw [hsets, hstatus]
    by_cases he : y = set
    · subst he
      rw [Function.update_self]
      exact fun d hd => hst d (hapis hd)
    · rw [Function.update_of_ne he]
      exact hst
  · rw [hsets, hstatus]
    by_cases he : set = l.set
    · have := htake he hm
      subst he
      rw [Function.update_self]
      exact this hst
    · rw [Function.update_of_ne (Ne.symm he)]
      exact hst

private theorem covered_addAlias {name aliasName : Bytes} {mem : Bool} (hw : Linked w)
    (hs : set < w.setCount) (h : Covered w l n)
    (hv : afbApisetAddAlias w set name aliasName mem = .ok v) : Covered v l n := by
  have hlv := linked_addAlias hw hs hv
  obtain ⟨-, -, api, -, rfl⟩ := addAlias_ok hv
  exact covered_rewrite hw hlv h (x := { w.sets set with
    aliases := insertAlias ⟨api, aliasName⟩ (w.sets set).aliases }) rfl (List.Subset.refl _)
    (fun _ _ hst => hst) rfl rfl rfl

private theorem covered_del {name : Bytes} (hw : Linked w) (hs : set < w.setCount)
    (h : Covered w l (l.i + 1)) (hcalm : Spares w l (.op (.del set name)))
    (hv : afbApisetDel w set name = .ok v) : Covered v l (l.i + 1) := by
  have hlv := linked_del hw hs hv
  unfold afbApisetDel at hv
  split at hv
  · rename_i rest _
    cases hv
    exact covered_rewrite hw hlv h (x := { w.sets set with aliases := rest }) rfl
      (List.Subset.refl _) (fun _ _ hst => hst) rfl rfl rfl
  · rename_i hdel
    split at hv
    · cases hv
    · rename_i d hfind
      cases hv
      refine covered_rewrite hw hlv h (x := { w.sets set with
        aliases := (w.sets set).aliases.filter (·.api ≠ d), apis := (w.sets set).apis.erase d })
        rfl List.erase_subset (fun he hm hst x hx => ?_) rfl rfl rfl
      have hdeleted : deleted w set name = some d := by
        rw [deleted, hdel]
        exact hfind
      rcases mem_take_erase hx with hx | ⟨hd, hx⟩
      · exact hst x hx
      · exact hcalm he hm d hdeleted hd x hx

private theorem covered_createSubsetFirst (hw : Linked w) (hs : set < w.setCount) (h : Covered w l n) :
    Covered (afbApisetCreateSubsetFirst w set) l n := by
  have hlv := linked_createSubsetFirst hw hs
  have hne : set ≠ w.setCount := Nat.ne_of_lt hs
  have hapis : ∀ x, ((afbApisetCreateSubsetFirst w set).sets x).apis = (w.sets x).apis := by
    intro x
    rw [afbApisetCreateSubsetFirst, apis_setSubset, apis_setSubset, sets_create hw]
  have hlinks : (afbApisetCreateSubsetFirst w set).links =
      Function.update (Function.update w.links w.setCount (w.sets set).subset) set
        (some w.setCount) := by
    rw [afbApisetCreateSubsetFirst, links_setSubset, links_setSubset, links_create hw]
  obtain ⟨c, hc⟩ := hw.chains l.root
  have hout : w.setCount ∉ c := fun hm =>
    absurd (chain_below hw hc h.made _ hm) (Nat.lt_irrefl _)
  have hspliced : Chain (afbApisetCreateSubsetFirst w set).links l.root
      (c.flatMap fun x => if x = set then [x, w.setCount] else [x]) := hc.spliced hout
    (by rw [hlinks, Function.update_self])
    (by rw [hlinks, Function.update_of_ne (Ne.symm hne), Function.update_self])
    (fun x hx hx' => by rw [hlinks, Function.update_of_ne hx, Function.update_of_ne hx'])
  refine ⟨Nat.lt_succ_of_lt h.made, ?_⟩
  rw [subsets_eq hlv hspliced]
  refine Covers.spliced (Covers.of (subsets_eq hw hc ▸ h.covers) (fun x _ hst => ?_)
    fun _ hst => ?_) ?_
  · rw [hapis]
    exact hst
  · rw [hapis]
    exact hst
  · rw [hapis, hw.unmade _ (Nat.le_refl _)]

private theorem covered_subsetSet {subset : Option SetId} (hw : Linked w) (hs : set < w.setCount)
    (hsub : subset.all (· < w.setCount) = true) (h : Covered w l (l.i + 1))
    (hcalm : Spares w l (.subsetSet set subset)) :
    Covered (afbApisetSubsetSet w set subset) l (l.i + 1) := by
  have hlv := linked_subsetSet hw hs hsub
  unfold afbApisetSubsetSet at hlv ⊢
  split
  · exact h
  rename_i hout
  rw [if_neg hout] at hlv
  have hkeeps : ∀ c, Covers w l.set (l.i + 1) c → Covers (setSubset w set subset) l.set (l.i + 1) c :=
    fun c hc => hc.of (fun x _ hst => by rw [apis_setSubset]; exact hst) fun _ hst => by
      rw [apis_setSubset]
      exact hst
  refine ⟨h.made, ?_⟩
  obtain ⟨c, hc⟩ := hw.chains l.root
  have hcov := subsets_eq hw hc ▸ h.covers
  by_cases hm : set ∈ c
  swap
  · -- the set is not in the chain of the walk
    have hsame : Chain (setSubset w set subset).links l.root c := by
      rw [links_setSubset]
      exact hc.congr fun x hx => Function.update_of_ne (fun he : x = set => hm (he ▸ hx)) _ _
    rw [subsets_eq hlv hsame]
    exact hkeeps _ hcov
  cases subset with
  | none =>
    have hend : Chain (setSubset w set none).links set [set] :=
      .last (by rw [links_setSubset, Function.update_self])
    have hnew := hc.relinked hm (links_setSubset w set none ▸ hend)
    rw [← links_setSubset] at hnew
    rw [subsets_eq hlv hnew]
    exact hkeeps _ (hcov.relinked hm fun _ => trivial)
  | some x =>
    obtain ⟨m, hx⟩ := hw.chains x
    have hno : set ∉ m := by simpa [subsets_eq hw hx] using hout
    have hend : Chain (Function.update w.links set (some x)) set (set :: m) :=
      .link (Function.update_self ..)
        (hx.congr fun y hy => Function.update_of_ne (fun he : y = set => hno (he ▸ hy)) _ _)
    have hnew := hc.relinked hm hend
    rw [← links_setSubset] at hnew
    rw [subsets_eq hlv hnew]
    refine hkeeps _ (hcov.relinked hm fun hp => ?_)
    rw [← subsets_eq hw hx]
    exact hcalm (by rwa [subsets_eq hw hc]) x rfl (by rwa [subsets_eq hw hx])

private theorem covered_build {op : Build} (hw : Linked w) (h : Covered w l (l.i + 1))
    (hcalm : Spares w l op) (hv : build w op = some v) : Covered v l (l.i + 1) := by
  cases op with
  | op op =>
    cases op with
    | create =>
      cases hv
      exact covered_create hw h
    | add set name serviceStart mem =>
      obtain ⟨hs, rfl⟩ := Option.ite_some_none_eq_some.mp hv
      exact settle_keeps (P := fun v => Covered v l (l.i + 1)) h fun v hv => covered_add hw hs h hcalm hv
    | addAlias set name aliasName mem =>
      obtain ⟨hs, rfl⟩ := Option.ite_some_none_eq_some.mp hv
      exact settle_keeps (P := fun v => Covered v l (l.i + 1)) h fun v hv => covered_addAlias hw hs h hv
    | del set name =>
      obtain ⟨hs, rfl⟩ := Option.ite_some_none_eq_some.mp hv
      exact settle_keeps (P := fun v => Covered v l (l.i + 1)) h fun v hv => covered_del hw hs h hcalm hv
  | createSubsetFirst set =>
    obtain ⟨hs, rfl⟩ := Option.ite_some_none_eq_some.mp hv
    exact covered_createSubsetFirst hw hs h
  | createSubsetLast set =>
    obtain ⟨hs, rfl⟩ := Option.ite_some_none_eq_some.mp hv
    exact covered_createSubsetFirst hw (last_below hw hs) h
  | subsetSet set subset =>
    obtain ⟨⟨hs, hsub⟩, rfl⟩ := Option.ite_some_none_eq_some.mp hv
    exact covered_subsetSet hw hs hsub h hcalm

end

end

/-- The walks that wait for a call have tried what they are at. -/
def Waiting (w : World) (stack : List Frame) : Prop :=
  ∀ l, .startAllServices l ∈ stack → Covered w l (l.i + 1)

def Underway (w : World) : List Frame → Prop
  | .startAllServices l :: rest => Covered w l l.i ∧ Waiting w rest
  | stack => Waiting w stack

section
variable {s t : Starting} {w v : World} {stack : List Frame} {l : Walk} {n : Nat}

private theorem Covered.fewer {m : Nat} (h : Covered w l n) (hm : m ≤ n) : Covered w l m :=
  ⟨h.made, h.covers.of (fun _ _ hst => hst) fun _ hst d hd =>
    hst d (List.take_subset_take_left _ hm hd)⟩

private theorem Covered.more {d : DescId} (h : Covered w l n) (hd : (w.sets l.set).apis[n]? = some d)
    (hst : 0 ≤ w.status d) : Covered w l (n + 1) := by
  refine ⟨h.made, h.covers.of (fun _ _ hst => hst) fun _ htake x hx => ?_⟩
  rw [List.take_add_one, hd, List.mem_append] at hx
  rcases hx with hx | hx
  · exact htake x hx
  · obtain rfl : x = d := by simpa using hx
    exact hst

private theorem Waiting.underway (h : Waiting w stack) : Underway w stack := by
  cases stack with
  | nil => exact h
  | cons f rest =>
    cases f with
    | startApi d => exact h
    | startAllServices l =>
      exact ⟨(h l List.mem_cons_self).fewer (Nat.le_succ _),
        fun m hm => h m (List.mem_cons_of_mem _ hm)⟩

private theorem Underway.waiting (h : Underway s.toWorld s.stack) (hfree : s.free = true) :
    Waiting s.toWorld s.stack := by
  obtain ⟨w, stack⟩ := s
  cases stack with
  | nil => exact h
  | cons f rest =>
    cases f with
    | startApi d => exact h
    | startAllServices l => cases hfree

private theorem Waiting.resume (h : Waiting w stack) (rc : Int) : Underway w (resume rc stack) := by
  cases stack with
  | nil => exact h
  | cons f rest =>
    cases f with
    | startApi d => exact h
    | startAllServices l =>
      obtain ⟨hmade, hcovers⟩ := h l List.mem_cons_self
      exact ⟨⟨hmade, hcovers⟩, fun m hm => h m (List.mem_cons_of_mem _ hm)⟩

private theorem Waiting.push {f : Frame} (h : Waiting w stack) (hf : ∀ l, f ≠ .startAllServices l) :
    Waiting w (f :: stack) := by
  intro l hm
  rcases List.mem_cons.mp hm with hl | hm
  · exact absurd hl.symm (hf l)
  · exact h l hm

private theorem linked_status (hw : Linked w) (status : DescId → Int) : Linked { w with status } :=
  ⟨hw.chains, hw.below, hw.unmade, hw.allocated, hw.oneSet⟩

private theorem tried_update {status : DescId → Int} {d x : DescId} {new : Int} (hnew : 0 ≤ new)
    (hx : 0 ≤ status x) : 0 ≤ Function.update status d new x := by
  by_cases hxd : x = d
  · subst hxd
    rwa [Function.update_self]
  · rwa [Function.update_of_ne hxd]

private theorem Covered.status (hw : Linked w) (h : Covered w l n) (d : DescId) {new : Int}
    (hnew : 0 ≤ new) : Covered { w with status := Function.update w.status d new } l n :=
  h.statuses hw (linked_status hw _) rfl (Nat.le_refl _) fun _ _ _ => tried_update hnew

private theorem Waiting.status (hw : Linked w) (h : Waiting w stack) (d : DescId) {new : Int}
    (hnew : 0 ≤ new) : Waiting { w with status := Function.update w.status d new } stack :=
  fun l hm => (h l hm).status hw d hnew

/-- Between two actions, the walks have tried the apis that they have gone by. -/
structure Starting.Inv (s : Starting) : Prop where
  linked : Linked s.toWorld
  underway : Underway s.toWorld s.stack

private theorem inv_startApi {d : DescId} (hw : Linked s.toWorld) (h : Waiting s.toWorld s.stack) :
    (s.startApi d).Inv :=
  ⟨linked_status hw _, (h.status hw d (by decide)).push fun _ => by simp⟩

private theorem inv_turn {rest : List Frame} (hs : s.Inv) (hstack : s.stack = .startAllServices l :: rest) :
    (s.turn l rest).Inv := by
  obtain ⟨hw, hunder⟩ := hs
  rw [hstack] at hunder
  obtain ⟨hcov, hwait⟩ := hunder
  -- the walk with one more api tried, before the others
  have hwalk : ∀ w : World, Covered w l (l.i + 1) → Waiting w rest → Waiting w s.stack := by
    intro w hc hr m hm
    rw [hstack] at hm
    rcases List.mem_cons.mp hm with hl | hm
    · cases hl
      exact hc
    · exact hr m hm
  unfold Starting.turn
  split
  · rename_i d hd
    split
    · have hbusy : 0 ≤ EBUSY := by decide
      have hnext : Covered { s.toWorld with status := Function.update s.status d EBUSY } l (l.i + 1) :=
        (hcov.status hw d hbusy).more hd (by
          change 0 ≤ Function.update s.status d EBUSY d
          rwa [Function.update_self])
      exact ⟨linked_status hw _, (hwalk _ hnext (hwait.status hw d hbusy)).push fun _ => by simp⟩
    · rename_i hst
      exact ⟨hw, (hwalk _ (hcov.more hd (Int.not_lt.mp hst)) hwait).resume _⟩
  · rename_i hnone
    have hlen := List.getElem?_eq_none_iff.mp hnone
    split
    · rename_i sub hsub
      obtain ⟨c, hc⟩ := hw.chains l.root
      refine ⟨hw, ⟨hcov.made, ?_⟩, hwait⟩
      have hcovers := hcov.covers
      rw [subsets_eq hw hc] at hcovers
      change Covers s.toWorld sub 0 (subsets s.toWorld l.root)
      rw [subsets_eq hw hc]
      exact hcovers.advance hlen hsub hc
    · exact ⟨hw, hwait.underway⟩

private theorem inv_step {a : Starting.Act} (hs : s.Inv) (hc : Calm s a) (h : s.step a = some t) :
    t.Inv := by
  obtain ⟨hw, hunder⟩ := hs
  cases a with
  | build op =>
    obtain ⟨⟨hfree, -⟩, h⟩ := Option.ite_none_right_eq_some.mp h
    obtain ⟨v, hv, rfl⟩ := Option.map_eq_some_iff.mp h
    refine ⟨linked_build hw hv, Waiting.underway fun l hm => ?_⟩
    exact covered_build hw (hunder.waiting hfree l hm) (hc _ hm) hv
  | startAllServices set =>
    obtain ⟨⟨hfree, hset⟩, rfl⟩ := Option.ite_some_none_eq_some.mp h
    refine ⟨hw, ⟨hset, ?_⟩, hunder.waiting hfree⟩
    obtain ⟨c, hc⟩ := hw.chains set
    change Covers s.toWorld set 0 (subsets s.toWorld set)
    rw [subsets_eq hw hc]
    cases hc <;> · rw [Covers, if_pos rfl]; simp
  | startApi d =>
    obtain ⟨⟨hfree, -⟩, rfl⟩ := Option.ite_some_none_eq_some.mp h
    split
    · exact inv_startApi hw (hunder.waiting hfree)
    · exact ⟨hw, hunder⟩
  | turn =>
    simp only [Starting.step] at h
    split at h
    · rename_i l rest hstack
      cases h
      exact inv_turn ⟨hw, hunder⟩ hstack
    · cases h
  | ends status =>
    simp only [Starting.step] at h
    split at h
    · rename_i d rest hstack
      cases h
      rw [hstack] at hunder
      have hwait : Waiting s.toWorld rest := fun m hm => hunder m (List.mem_cons_of_mem _ hm)
      exact ⟨linked_status hw _, (hwait.status hw d (Int.natCast_nonneg status)).resume _⟩
    · cases h

end

end AfbBinder.Apiset
