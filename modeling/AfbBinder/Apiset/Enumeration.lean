import Mathlib.Algebra.BigOperators.Fin
import AfbBinder.Apiset.Links

/-! The names enumerated for a set are compared with the apis and the aliases that searchrec
reaches through the chain of its subsets. -/
namespace AfbBinder.Apiset
open Lib.Runs Lib.Chains Lib.Cstrings

/-- The calls for what each set of the chain owns and searchrec reaches. -/
def ownedCalls (w : World) (set : SetId) (l : List SetId) : List Call :=
  l.flatMap fun s => enumFrom w set (w.sets s).apis s

/-- The enumeration tells once, with its set, each api and alias that searchrec reaches, and
the names are those of the type, sorted, written inside the block. -/
structure Enumerated (w : World) (set : SetId) (l : List SetId) : Prop where
  calls : (afbApisetEnum w set true).Perm (ownedCalls w set l)
  names : ∀ type r, afbApisetGetNames w set true type true = some r →
    r.names.Perm (((ownedCalls w set l).filter (expected (namesType type))).map Call.name) ∧
      r.names.Pairwise (fun a b => (strcasecmp a b).isLE) ∧ ∀ x ∈ r.writes, x.1 + x.2 ≤ r.size

section
variable {w v : World} {set : SetId} {l : List SetId}

private theorem count_eq (type : Nat) (calls : List Call) (gc : Nat × Nat) :
    calls.foldl (getNamesCount type) gc =
      (gc.1 + (calls.filter (expected type)).length,
        gc.2 + ((calls.filter (expected type)).map fun c => c.name.length).sum) := by
  induction calls generalizing gc with
  | nil => rfl
  | cons c calls ih =>
    rw [List.foldl_cons, ih, getNamesCount]
    cases hc : expected type c with
    | true =>
      simp only [hc, List.filter_cons, if_true, List.length_cons, List.map_cons, List.sum_cons,
        Prod.mk.injEq]
      omega
    | false => simp [hc]

/-- Each name takes one pointer and its bytes with the final zero. -/
theorem value_eq (type : Nat) (calls : List Call) (gc : Filling) :
    let filled := calls.foldl (getNamesValue type) gc
    filled.ptr = gc.ptr + (calls.filter (expected type)).length ∧
      filled.data = gc.data + ((calls.filter (expected type)).map fun c => c.name.length).sum +
        (calls.filter (expected type)).length ∧
      filled.names = gc.names ++ (calls.filter (expected type)).map Call.name ∧
      ∀ x ∈ filled.writes, x ∈ gc.writes ∨ x.1 + x.2 ≤ filled.ptr * sizeofPointer ∨
        x.1 + x.2 ≤ filled.data := by
  induction calls generalizing gc with
  | nil => exact ⟨rfl, rfl, by simp, fun x hx => .inl hx⟩
  | cons c calls ih =>
    obtain ⟨hptr, hdata, hnames, hwrites⟩ := ih (getNamesValue type gc c)
    simp only [List.foldl_cons]
    generalize calls.foldl (getNamesValue type) (getNamesValue type gc c) = filled at *
    cases hc : expected type c with
    | false =>
      simp only [getNamesValue, hc, Bool.false_eq_true, if_false] at hptr hdata hnames hwrites
      simp only [List.filter_cons, hc, Bool.false_eq_true, if_false]
      exact ⟨hptr, hdata, hnames, hwrites⟩
    | true =>
      simp only [getNamesValue, hc, if_true] at hptr hdata hnames hwrites
      simp only [List.filter_cons, hc, if_true, List.length_cons, List.map_cons, List.sum_cons]
      refine ⟨by omega, by omega, by simp [hnames], fun x hx => ?_⟩
      rcases hwrites x hx with hold | hnew
      · rcases List.mem_append.mp hold with hold | hnow
        · exact .inl hold
        · rw [List.mem_pair] at hnow
          rcases hnow with rfl | rfl
          · refine .inr (.inl ?_)
            simp only [sizeofPointer]
            omega
          · refine .inr (.inr ?_)
            simp only
            omega
      · exact .inr hnew

/-- The names are those of the enumeration, whatever it tells, and they fit in the block. -/
theorem getNames_spec (w : World) (set : SetId) (type : Int) {r : Names}
    (h : afbApisetGetNames w set true type true = some r) :
    r.names.Perm (((afbApisetEnum w set true).filter (expected (namesType type))).map Call.name) ∧
      r.names.Pairwise (fun a b => (strcasecmp a b).isLE) ∧ ∀ x ∈ r.writes, x.1 + x.2 ≤ r.size := by
  unfold afbApisetGetNames at h
  simp only [if_true, Option.some.injEq] at h
  subst h
  generalize afbApisetEnum w set true = calls
  rw [count_eq]
  simp only [Nat.zero_add]
  obtain ⟨hptr, hdata, hnames, hwrites⟩ := value_eq (namesType type) calls
    ⟨0, ((calls.filter (expected (namesType type))).length + 1) * sizeofPointer, [], []⟩
  refine ⟨?_, ?_, fun x hx => ?_⟩
  · rw [hnames]
    exact List.mergeSort_perm _ _
  · apply List.pairwise_mergeSort
    · exact fun a b c h h' => strcasecmp_isLE_trans h h'
    · exact fun a b => strcasecmp_isLE_total
  · simp only [sizeofPointer] at *
    rcases List.mem_append.mp hx with hx | hx
    · rcases hwrites x hx with hnil | hpointer | hdata
      · exact absurd hnil List.not_mem_nil
      · omega
      · omega
    · rw [List.mem_singleton] at hx
      subst hx
      simp only
      omega

private theorem mem_enumFrom {apis : List DescId} {s : SetId} {c : Call} :
    c ∈ enumFrom w set apis s ↔
      (∃ d ∈ apis, w.find set (w.descs d).name = some d ∧ c = ⟨s, (w.descs d).name, false⟩) ∨
      ∃ a ∈ (w.sets s).aliases, w.find set a.name = some a.api ∧ c = ⟨s, a.name, true⟩ := by
  simp only [enumFrom, List.mem_append, List.mem_map, List.mem_filter, decide_eq_true_eq,
    and_assoc, eq_comm (b := c)]

private theorem enumFrom_unreached {apis : List DescId} (s : SetId)
    (h : ∀ d ∈ apis, w.find set (w.descs d).name ≠ some d) :
    enumFrom w set apis s = enumFrom w set [] s := by
  have hnil : (apis.filter fun d => w.find set (w.descs d).name = some d) = [] := by
    rw [List.filter_eq_nil_iff]
    exact fun d hd => by simpa using h d hd
  rw [enumFrom, enumFrom, hnil, List.filter_nil]

private theorem enum_eq (hw : Linked w) (hl : Chain w.links set l)
    (h : w.links set = none ∨ ∀ s ∈ l, ∀ d ∈ (w.sets s).apis, w.find set (w.descs d).name ≠ some d) :
    afbApisetEnum w set true = ownedCalls w set l := by
  rw [afbApisetEnum, if_pos rfl, subsets_eq hw hl, ownedCalls]
  rcases h with hnone | hno
  · cases hl with
    | last => rfl
    | link hs => cases hnone.symm.trans hs
  · refine List.flatMap_congr fun s hs => ?_
    rw [enumFrom_unreached s (hno set hl.mem_self), enumFrom_unreached s (hno s hs)]

/-- With a subset, an api of the set is told again for it, or an api of a subset is not. -/
theorem enum_differs (hw : Linked w) (hl : Chain w.links set l)
    (hp : (afbApisetEnum w set true).Perm (ownedCalls w set l)) (hs : w.links set ≠ none) :
    ∀ s ∈ l, ∀ d ∈ (w.sets s).apis, w.find set (w.descs d).name ≠ some d := by
  rw [afbApisetEnum, if_pos rfl, subsets_eq hw hl] at hp
  have hfirst : ∀ d ∈ (w.sets set).apis, w.find set (w.descs d).name ≠ some d := by
    intro d hd hf
    cases hl with
    | last hn => exact hs hn
    | @link _ sub m hn hm =>
      have htold : (⟨sub, (w.descs d).name, false⟩ : Call) ∈ ownedCalls w set (set :: m) :=
        hp.mem_iff.mp (List.mem_flatMap.mpr
          ⟨sub, List.mem_cons_of_mem _ hm.mem_self, mem_enumFrom.mpr (.inl ⟨d, hd, hf, rfl⟩)⟩)
      obtain ⟨s, -, hc⟩ := List.mem_flatMap.mp htold
      rcases mem_enumFrom.mp hc with ⟨d', hd', hf', heq⟩ | ⟨a, -, -, heq⟩
      · obtain ⟨rfl, hname, -⟩ := Call.mk.inj heq
        rw [← hname, hf, Option.some.injEq] at hf'
        subst hf'
        have hself := hw.oneSet set sub d hd hd'
        subst hself
        exact (List.nodup_cons.mp (Chain.link hn hm).nodup).1 hm.mem_self
      · cases congrArg Call.isalias heq
  intro s hs d hd hf
  have htold : (⟨s, (w.descs d).name, false⟩ : Call) ∈ ownedCalls w set l :=
    List.mem_flatMap.mpr ⟨s, hs, mem_enumFrom.mpr (.inl ⟨d, hd, hf, rfl⟩)⟩
  obtain ⟨s', -, hc⟩ := List.mem_flatMap.mp (hp.mem_iff.mpr htold)
  rcases mem_enumFrom.mp hc with ⟨d', hd', hf', -⟩ | ⟨a, -, -, heq⟩
  · exact hfirst d' hd' hf'
  · cases congrArg Call.isalias heq

end

/-- After any calls that build sets and link them, the enumeration of a set and of its
subsets is exact, and so are the names made of it, if and only if the set has no subset
or searchrec reaches no api of the chain. -/
theorem names_enumerated_iff (ops : List Build) (w : World) (h : exec build .empty ops = some w)
    (set : SetId) :
    ∃ l, Chain w.links set l ∧
      (∀ name, w.find set name = l.findSome? fun s => search w.descs (w.sets s) name) ∧
      (Enumerated w set l ↔ w.links set = none ∨
        ∀ s ∈ l, ∀ d ∈ (w.sets s).apis, w.find set (w.descs d).name ≠ some d) := by
  have hw : Linked w := exec_keeps (fun _ _ _ hw h => linked_build hw h) linked_empty h
  obtain ⟨l, hl⟩ := hw.chains set
  refine ⟨l, hl, fun name => ?_, fun he => ?_, fun hc => ?_⟩
  · rw [World.find, searchrec_walk]
    exact congrArg _ (subsets_eq hw hl)
  · exact (Decidable.em _).imp_right (enum_differs hw hl he.calls)
  · have heq := enum_eq hw hl hc
    exact ⟨heq ▸ List.Perm.refl _, fun type r hr => heq ▸ getNames_spec w set type hr⟩

/-- An api in a set, another one in its subset. -/
def shadowless : List Build :=
  [.op .create, .op (.add 0 [97] false true), .createSubsetFirst 0, .op (.add 1 [98] false true)]

/-- The apis b and a of one set, and the alias c of b. -/
def aliased : List Build := [.op .create, .op (.add 0 [98] false true), .op (.add 0 [97] false true),
  .op (.addAlias 0 [98] [99] true)]

/-- With one set the names are exact, in the order of strcasecmp. -/
theorem names_enumerated_iff_sample :
    ∃ w, exec build .empty aliased = some w ∧ Enumerated w 0 [0] ∧
      afbApisetEnum w 0 true = [⟨0, [97], false⟩, ⟨0, [98], false⟩, ⟨0, [99], true⟩] := by
  obtain ⟨l, hl, -, hiff⟩ := names_enumerated_iff aliased _ rfl 0
  have hone : l = [0] := hl.unique (.last rfl)
  exact ⟨_, rfl, hone ▸ hiff.mpr (.inl rfl), by decide⟩

/-- The api of the set is told for both sets, and the one of the subset is not told. -/
theorem subset_names_missed :
    ∃ w, exec build .empty shadowless = some w ∧ Chain w.links 0 [0, 1] ∧
      afbApisetEnum w 0 true = [⟨0, [97], false⟩, ⟨1, [97], false⟩] ∧
      ownedCalls w 0 [0, 1] = [⟨0, [97], false⟩, ⟨1, [98], false⟩] ∧ ¬ Enumerated w 0 [0, 1] := by
  refine ⟨_, rfl, .link rfl (.last rfl), by decide, by decide, fun he => ?_⟩
  have hmem := he.calls.mem_iff (a := ⟨1, [98], false⟩)
  exact absurd hmem (by decide)

end AfbBinder.Apiset
