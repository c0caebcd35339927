import AfbBinder.Lib.Runs
import AfbBinder.Apiset.StartOrder
import AfbBinder.Apiset.Shares

/-! The links of the sets close no cycle, so that the loops along them end. -/
namespace AfbBinder.Apiset
open Lib.Runs Lib.Chains Lib.Cstrings

/-- The loop of searchrec. This loop and the next ones are none when the fuel runs out before
their end. -/
def searchrecLoop (w : World) (name : Bytes) : Nat → SetId → Option (Option DescId)
  | 0, _ => none
  | fuel + 1, set =>
    match search w.descs (w.sets set) name with
    | some d => some (some d)
    | none =>
      match (w.sets set).subset with
      | none => some none
      | some sub => searchrecLoop w name fuel sub

/-- The not found handlers of the sets: they may change all but the links. -/
structure Onlack where
  callback : SetId → Option (Bytes → World → Int × World)
  links : ∀ set f name w, callback set = some f → (f name w).2.links = w.links

/-- The search in one set, then its handler and the search again. -/
def lookupOnce (o : Onlack) (name : Bytes) (w : World) (set : SetId) : Option DescId × World :=
  match search w.descs (w.sets set) name with
  | some d => (some d, w)
  | none =>
    match o.callback set with
    | none => (none, w)
    | some f =>
      let (rc, w) := f name w
      (if 0 < rc then search w.descs (w.sets set) name else none, w)

/-- The loop of lookup. -/
def lookupLoop (o : Onlack) (name : Bytes) (recursive : Bool) :
    Nat → World → SetId → Option (Option DescId × World)
  | 0, _, _ => none
  | fuel + 1, w, set =>
    match lookupOnce o name w set with
    | (some d, w) => some (some d, w)
    | (none, w) =>
      match if recursive then (w.sets set).subset else none with
      | none => some (none, w)
      | some sub => lookupLoop o name recursive fuel w sub

/-- The calls for the candidates that searchrec finds, in their order. -/
def toldLoop (w : World) (set : SetId) (bound : Nat) :
    List (DescId × Call) → Option (List Call)
  | [] => some []
  | (d, c) :: rest => (searchrecLoop w c.name bound set).bind fun result =>
      (toldLoop w set bound rest).map fun l => if result = some d then c :: l else l

/-- The loop of afb_apiset_enum. -/
def enumLoop (w : World) (set : SetId) (recursive : Bool) (bound : Nat) :
    Nat → SetId → Option (List Call)
  | 0, _ => none
  | fuel + 1, iset =>
    (toldLoop w set bound
        ((w.sets set).apis.map (fun d => (d, ⟨iset, (w.descs d).name, false⟩)) ++
          (w.sets iset).aliases.map fun a => (a.api, ⟨iset, a.name, true⟩))).bind fun l =>
      match if recursive then (w.sets iset).subset else none with
      | none => some l
      | some sub => (enumLoop w set recursive bound fuel sub).map (l ++ ·)

/-- The loops of afb_apiset_start_all_services. -/
def startAllLoop (w : World) (start : Start DescId) :
    Nat → SetId → Int → Progress → Option (Int × Progress)
  | 0, _, _, _ => none
  | fuel + 1, set, ret, p =>
    (startArray start (w.sets set).apis ret p).bind fun (ret, p) =>
      match (w.sets set).subset with
      | none => some (ret, p)
      | some sub => startAllLoop w start fuel sub ret p

/-- The loops end on every set: those of the searches and of the enumeration whatever is
searched, that of starting whatever the service_start callbacks ask for and was asked before. -/
structure Ends (w : World) : Prop where
  searchrec : ∀ name set, ∃ fuel, searchrecLoop w name fuel set = some (w.find set name)
  lookup : ∀ o name recursive set, ∃ fuel r, lookupLoop o name recursive fuel w set = some r
  enum : ∀ set recursive, ∃ bound fuel,
    enumLoop w set recursive bound fuel set = some (afbApisetEnum w set recursive)
  startAll : ∃ r : Registry, r.toWorld = w ∧ ∀ service asked set, ∃ p fuel rc q,
    requests r (startApi r service fuel) asked Progress.init = some p ∧
      startAllLoop w (startApi r service fuel) fuel set 0 p = some (rc, q)

/-- A set is refused as subset exactly when its link would close a cycle, and nothing changes
then. -/
def RefusesCycles (s : Shared) : Prop :=
  ∀ set subset, s.Live set → (∀ x, subset = some x → s.Live x) →
    ((s.afbApisetSubsetSet set subset).1 = -1 ↔ Cycle (Function.update s.links set subset)) ∧
      ((s.afbApisetSubsetSet set subset).1 = -1 → (s.afbApisetSubsetSet set subset).2 = s)

section
variable {w : World} {set : SetId} {l : List SetId}

private theorem searchrecLoop_ends (hl : Chain w.links set l) (name : Bytes) {fuel : Nat}
    (hf : l.length ≤ fuel) : searchrecLoop w name fuel set =
      some (l.findSome? fun s => search w.descs (w.sets s) name) := by
  induction hl generalizing fuel with
  | @last a hn =>
    obtain ⟨fuel, rfl⟩ : ∃ k, fuel = k + 1 := ⟨fuel - 1, (Nat.sub_add_cancel hf).symm⟩
    change (w.sets a).subset = none at hn
    rw [searchrecLoop, List.findSome?_cons, List.findSome?_nil, hn]
    cases search w.descs (w.sets a) name with
    | some d => rfl
    | none => rfl
  | @link a b l hn _ ih =>
    obtain ⟨fuel, rfl⟩ : ∃ k, fuel = k + 1 := ⟨fuel - 1, by simp at hf; omega⟩
    change (w.sets a).subset = some b at hn
    rw [searchrecLoop, List.findSome?_cons, hn]
    cases search w.descs (w.sets a) name with
    | some d => rfl
    | none => exact ih (Nat.le_of_succ_le_succ hf)

private theorem find_chain (hw : Linked w) (hl : Chain w.links set l) (name : Bytes) :
    w.find set name = l.findSome? fun s => search w.descs (w.sets s) name := by
  rw [World.find, searchrec_walk]
  exact congrArg _ (subsets_eq hw hl)

private theorem lookupOnce_links (o : Onlack) (name : Bytes) (w : World) (set : SetId) :
    (lookupOnce o name w set).2.links = w.links := by
  unfold lookupOnce
  split
  · rfl
  · split
    · rfl
    · rename_i f hf
      exact o.links set f name w hf

private theorem lookupLoop_ends (o : Onlack) (name : Bytes) (recursive : Bool)
    (hl : Chain w.links set l) : ∃ r, lookupLoop o name recursive l.length w set = some r := by
  generalize hnext : w.links = next at hl
  induction hl generalizing w with
  | @last a hn =>
    have hlinks := lookupOnce_links o name w a
    rw [List.length_singleton, lookupLoop]
    generalize lookupOnce o name w a = r at hlinks
    obtain ⟨found, v⟩ := r
    cases found with
    | some d => exact ⟨_, rfl⟩
    | none =>
      have hnone : (v.sets a).subset = none := (congrFun (hlinks.trans hnext) a).trans hn
      simp only [hnone, ite_self]
      exact ⟨_, rfl⟩
  | @link a b l hn _ ih =>
    have hlinks := lookupOnce_links o name w a
    rw [List.length_cons, lookupLoop]
    generalize lookupOnce o name w a = r at hlinks
    obtain ⟨found, v⟩ := r
    cases found with
    | some d => exact ⟨_, rfl⟩
    | none =>
      have hsome : (v.sets a).subset = some b := (congrFun (hlinks.trans hnext) a).trans hn
      cases recursive with
      | false => exact ⟨_, rfl⟩
      | true =>
        simp only [if_true, hsome]
        exact ih (hlinks.trans hnext)

/-- Each candidate is told when the search answers it. -/
theorem toldLoop_ends (hw : Linked w) (hl : Chain w.links set l) (items : List (DescId × Call)) :
    toldLoop w set l.length items =
      some ((items.filter fun x => w.find set x.2.name = some x.1).map Prod.snd) := by
  induction items with
  | nil => rfl
  | cons x items ih =>
    rw [toldLoop, searchrecLoop_ends hl _ (Nat.le_refl _), ih, ← find_chain hw hl, Option.bind_some,
      Option.map_some, List.filter_cons]
    simp only [decide_eq_true_eq]
    split
    · rfl
    · rfl

private theorem toldLoop_enumFrom (hw : Linked w) (hl : Chain w.links set l) (iset : SetId) :
    toldLoop w set l.length
        ((w.sets set).apis.map (fun d => (d, ⟨iset, (w.descs d).name, false⟩)) ++
          (w.sets iset).aliases.map fun a => (a.api, ⟨iset, a.name, true⟩)) =
      some (enumFrom w set (w.sets set).apis iset) := by
  rw [toldLoop_ends hw hl, enumFrom, List.filter_append, List.map_append, List.filter_map,
    List.filter_map, List.map_map, List.map_map]
  rfl

private theorem enumLoop_ends (hw : Linked w) (hl : Chain w.links set l) (recursive : Bool) {iset : SetId}
    {m : List SetId} (hm : Chain w.links iset m) :
    enumLoop w set recursive l.length m.length iset =
      some ((if recursive then m else [iset]).flatMap (enumFrom w set (w.sets set).apis)) := by
  induction hm with
  | @last a hn =>
    change (w.sets a).subset = none at hn
    rw [List.length_singleton, enumLoop, toldLoop_enumFrom hw hl, Option.bind_some]
    simp only [hn, ite_self]
    simp
  | @link a b m hn _ ih =>
    change (w.sets a).subset = some b at hn
    rw [List.length_cons, enumLoop, toldLoop_enumFrom hw hl, Option.bind_some]
    cases recursive with
    | false => simp
    | true =>
      simp only [if_true, hn]
      rw [ih]
      rfl

/-- The rank of a set is the length of its chain. -/
def registry (w : World) (hw : Linked w) (hs : Stocked w) : Registry where
  toWorld := w
  rank set := (subsets w set).length
  acyclic i j h := by
    obtain ⟨l, hl⟩ := hw.chains j
    rw [subsets_eq hw hl, subsets_eq hw (.link h hl)]
    exact Nat.lt_succ_self _
  apisLt i d hd := hs.below d (hs.listed i d hd)
  aliasesLt i a ha := hs.below a.api (hs.listed i a.api (hs.target i a ha))
  providersLt c d hd := hs.providersBelow c d hd

private theorem startAllLoop_ends (r : Registry) {start : Start DescId} {k : Nat}
    (hm : ∀ d < r.descCount, Meets r (Inv r) k start (fun d p => p.status d = 0) d)
    (hl : Chain r.toWorld.links set l) (ret : Int) (p : Progress) (hi : Inv r [] p)
    (hk : untried r p ≤ k) {fuel : Nat} (hf : l.length ≤ fuel) :
    ∃ rc q, startAllLoop r.toWorld start fuel set ret p = some (rc, q) := by
  induction hl generalizing ret p fuel with
  | @last a hn =>
    obtain ⟨fuel, rfl⟩ : ∃ k, fuel = k + 1 := ⟨fuel - 1, (Nat.sub_add_cancel hf).symm⟩
    change (r.sets a).subset = none at hn
    obtain ⟨rc, q, hq, -⟩ := startArray_meets (fun d hd => hm d (r.apisLt a d hd)) stable_zero [] p ret
      hi hk
    refine ⟨rc, q, ?_⟩
    rw [startAllLoop, hq, Option.bind_some]
    simp only [hn]
  | @link a b l hn _ ih =>
    obtain ⟨fuel, rfl⟩ : ∃ k, fuel = k + 1 := ⟨fuel - 1, by simp at hf; omega⟩
    change (r.sets a).subset = some b at hn
    obtain ⟨rc, q, hq, hiq, hext, -⟩ := startArray_meets (fun d hd => hm d (r.apisLt a d hd))
      stable_zero [] p ret hi hk
    rw [startAllLoop, hq, Option.bind_some]
    simp only [hn]
    exact ih rc q hiq (Nat.le_trans (hext.untried_le r) hk) (Nat.le_of_succ_le_succ hf)

private theorem ends_of_linked (hw : Linked w) (hs : Stocked w) : Ends w where
  searchrec name set := by
    obtain ⟨l, hl⟩ := hw.chains set
    refine ⟨l.length, ?_⟩
    rw [searchrecLoop_ends hl name (Nat.le_refl _), find_chain hw hl]
  lookup o name recursive set := by
    obtain ⟨l, hl⟩ := hw.chains set
    exact ⟨l.length, lookupLoop_ends o name recursive hl⟩
  enum set recursive := by
    obtain ⟨l, hl⟩ := hw.chains set
    refine ⟨l.length, l.length, ?_⟩
    rw [enumLoop_ends hw hl recursive hl, afbApisetEnum, subsets_eq hw hl]
  startAll := by
    refine ⟨registry w hw hs, rfl, fun service asked set => ?_⟩
    obtain ⟨l, hl⟩ := hw.chains set
    -- fuel for the activations and for the chain
    have hfuel : w.descCount < w.descCount + l.length + 1 := by omega
    have hm := startApi_meets (registry w hw hs) (inv_lasting _) service hfuel
    obtain ⟨p, hp, hi, -⟩ := requests_meets hm (inv_lasting _) asked [] _ (inv_init _)
      (untried_le _ _)
    have hlength : l.length ≤ w.descCount + l.length + 1 := by omega
    obtain ⟨rc, q, hq⟩ := startAllLoop_ends (registry w hw hs) hm hl 0 p hi (untried_le _ p) hlength
    exact ⟨p, _, rc, q, hp, hq⟩

private theorem refuses_of_shares {s : Shared} (h : Shares s none) : RefusesCycles s := by
  intro set subset hs hsub
  have hcycle := cycle_update_iff (a := set) (t := subset) h.linked.chains
  rcases subsetSet_cases s set subset with ⟨⟨x, hx, hm⟩, heq⟩ | ⟨hout, heq⟩
  · rw [heq]
    obtain ⟨l, hl⟩ := h.linked.chains x
    rw [subsets_eq h.linked hl] at hm
    exact ⟨iff_of_true rfl (hcycle.mpr ⟨x, l, hx, hl, hm⟩), fun _ => rfl⟩
  · rw [heq]
    have hno : ¬ Cycle (Function.update s.links set subset) := by
      intro hc
      obtain ⟨x, l, hx, hl, hm⟩ := hcycle.mp hc
      refine hout x hx ?_
      rw [subsets_eq h.linked hl]
      exact hm
    have hok : (0 : Int) ≠ -1 := by decide
    exact ⟨iff_of_false hok hno, fun h0 => absurd h0 hok⟩

end

/-- After any calls, the links close no cycle, a link that would is refused, and the loops along
the links end. A set has at most one subset by its type. -/
theorem links_stay_acyclic (acts : List Shared.Act) :
    Always Shared.step (fun s => ¬ Cycle s.links ∧ RefusesCycles s ∧ Ends s.toWorld) .empty acts :=
  always_keeps (I := fun s => Shares s none)
    (fun _ h => ⟨not_cycle h.linked.chains, refuses_of_shares h, ends_of_linked h.linked h.stocked⟩)
    (fun _ _ _ h ht => shares_step h ht) shares_empty acts

end AfbBinder.Apiset
