import Mathlib.Data.List.Pairwise
import AfbBinder.Lib.Runs
import AfbBinder.Apiset.Model

/-! Completeness of search: it depends on the order of the api array and of the
alias list, which the mutators do not keep with the same comparison. -/
namespace AfbBinder.Apiset
open Lib.Runs Lib.Bsearch Lib.Cstrings

/-- The calls that build a set. -/
inductive Op where
  | create
  | add (set : SetId) (name : Bytes) (serviceStart mem : Bool)
  | addAlias (set : SetId) (name aliasName : Bytes) (mem : Bool)
  | del (set : SetId) (name : Bytes)
  deriving DecidableEq, Repr

/-- A call that fails leaves the memory as it was. -/
def settle (w : World) : Except Errno World → World
  | .ok v => v
  | .error _ => w

/-- What holds before the call and of each result holds after the call. -/
theorem settle_keeps {P : World → Prop} {w : World} {r : Except Errno World} (hw : P w)
    (h : ∀ v, r = .ok v → P v) : P (settle w r) := by
  cases r with
  | ok v => exact h v rfl
  | error e => exact hw

/-- A call is possible on a created set. -/
def step (w : World) : Op → Option World
  | .create => some (afbApisetCreate w)
  | .add set name serviceStart mem =>
      if set < w.setCount then some (settle w (afbApisetAdd w set name serviceStart mem)) else none
  | .addAlias set name aliasName mem =>
      if set < w.setCount then some (settle w (afbApisetAddAlias w set name aliasName mem)) else none
  | .del set name =>
      if set < w.setCount then some (settle w (afbApisetDel w set name)) else none

/-- Search finds exactly the names of the apis and of the aliases, case ignored, and
answers the api of that name or the api the alias points to. -/
structure SearchOk (w : World) (set : SetId) : Prop where
  api : ∀ name, ∀ d ∈ (w.sets set).apis, strcasecmp (w.descs d).name name = .eq →
    search w.descs (w.sets set) name = some d
  viaAlias : ∀ name, ∀ a ∈ (w.sets set).aliases, strcasecmp a.name name = .eq →
    search w.descs (w.sets set) name = some a.api
  absent : ∀ name, (∀ d ∈ (w.sets set).apis, strcasecmp (w.descs d).name name ≠ .eq) →
    (∀ a ∈ (w.sets set).aliases, strcasecmp a.name name ≠ .eq) →
    search w.descs (w.sets set) name = none

def Below (descs : DescId → ApiDesc) (x y : DescId) : Prop :=
  strcasecmp (descs x).name (descs y).name = .lt

/-- Two aliases in the order of both comparisons. -/
def AliasBelow (a b : Alias) : Prop :=
  strcasecmp a.name b.name = .lt ∧ strcmp a.name b.name = .lt

/-- Both lists of a set are sorted and no alias has the name of an api. -/
structure SetWf (descs : DescId → ApiDesc) (set : ApiSet) : Prop where
  apisSorted : set.apis.Pairwise (Below descs)
  aliasesSorted : set.aliases.Pairwise AliasBelow
  distinct : ∀ d ∈ set.apis, ∀ a ∈ set.aliases, strcasecmp (descs d).name a.name ≠ .eq
  target : ∀ a ∈ set.aliases, a.api ∈ set.apis

/-- A descriptor belongs to one set and is linked in the global list. -/
structure Wf (w : World) : Prop where
  ok : ∀ set, SetWf w.descs (w.sets set)
  allocated : ∀ set, ∀ d ∈ (w.sets set).apis, d < w.descCount
  listed : ∀ set, ∀ d ∈ (w.sets set).apis, d ∈ w.allApis
  oneSet : ∀ set set' d, d ∈ (w.sets set).apis → d ∈ (w.sets set').apis → set = set'

private theorem searchAliases_sound {name : Bytes} {l : List Alias} {d : DescId}
    (h : searchAliases name l = some d) : ∃ a ∈ l, strcasecmp a.name name = .eq ∧ a.api = d := by
  induction l with
  | nil => cases h
  | cons a l ih =>
    rw [searchAliases] at h
    split at h
    · rename_i he
      cases h
      exact ⟨a, by simp, he, rfl⟩
    · cases h
    · obtain ⟨b, hb, he⟩ := ih h
      exact ⟨b, by simp [hb], he⟩

private theorem searchAliases_complete {name : Bytes} {l : List Alias}
    (hs : l.Pairwise AliasBelow) {a : Alias} (ha : a ∈ l) (he : strcasecmp a.name name = .eq) :
    searchAliases name l = some a.api := by
  induction l with
  | nil => cases ha
  | cons b l ih =>
    rw [searchAliases]
    obtain ⟨hb, hl⟩ := List.pairwise_cons.mp hs
    rcases List.mem_cons.mp ha with rfl | ha
    · rw [he]
    · rw [← strcasecmp_congr_right he, (hb a ha).1]
      exact ih hl ha

/-- The array being sorted, the dichotomic search finds the api of the name. -/
theorem bsearch_apis {descs : DescId → ApiDesc} {l : List DescId} {name : Bytes}
    (hs : l.Pairwise (Below descs)) {k : Nat} (hk : k < l.length)
    (he : strcasecmp (descs l[k]).name name = .eq) :
    bsearch (fun i => strcasecmp (descs (l.getD i 0)).name name) l.length 0 l.length = some k := by
  have hget : ∀ i (h : i < l.length), l.getD i 0 = l[i] := fun i h => by simp [h]
  refine bsearch_complete (by omega) ?_ ?_ ?_ (Nat.zero_le _) hk
  · intro i _ hik
    simp only [hget i (Nat.lt_trans hik hk)]
    rw [← strcasecmp_congr_right he]
    exact List.pairwise_iff_getElem.mp hs i k (Nat.lt_trans hik hk) hk hik
  · intro i hki hi
    simp only [hget i hi]
    rw [← strcasecmp_congr_right he, strcasecmp_gt]
    exact List.pairwise_iff_getElem.mp hs k i hk hi hki
  · simpa only [hget k hk] using he

theorem search_sound {descs : DescId → ApiDesc} {set : ApiSet} {name : Bytes} {d : DescId}
    (h : search descs set name = some d) :
    (d ∈ set.apis ∧ strcasecmp (descs d).name name = .eq) ∨
      ∃ a ∈ set.aliases, strcasecmp a.name name = .eq ∧ a.api = d := by
  rw [search] at h
  split at h
  · rename_i i hb
    obtain ⟨-, hi, he⟩ := bsearch_sound hb
    rw [List.getElem?_eq_getElem hi, Option.some.injEq] at h
    have : set.apis.getD i 0 = d := by simp [hi, h]
    simp only [this] at he
    exact .inl ⟨h ▸ List.getElem_mem hi, he⟩
  · exact .inr (searchAliases_sound h)

private theorem Wf.searchOk {w : World} (hw : Wf w) (set : SetId) : SearchOk w set := by
  have hs := hw.ok set
  constructor
  · intro name d hd he
    obtain ⟨k, hk, rfl⟩ := List.getElem_of_mem hd
    rw [search, bsearch_apis hs.apisSorted hk he]
    simp [hk]
  · intro name a ha he
    -- no api has the name of an alias, so the first search fails
    have hnone : bsearch (fun i => strcasecmp (w.descs ((w.sets set).apis.getD i 0)).name name)
        (w.sets set).apis.length 0 (w.sets set).apis.length = none := by
      cases hb : bsearch _ _ _ _ with
      | none => rfl
      | some i =>
        obtain ⟨-, hi, hi'⟩ := bsearch_sound hb
        have hm : (w.sets set).apis.getD i 0 ∈ (w.sets set).apis := by simp [hi]
        refine absurd ?_ (hs.distinct _ hm a ha)
        rw [strcasecmp_congr_right he]
        exact hi'
    rw [search, hnone]
    exact searchAliases_complete hs.aliasesSorted ha he
  · intro name hd ha
    cases hf : search w.descs (w.sets set) name with
    | none => rfl
    | some d =>
      rcases search_sound hf with ⟨hm, he⟩ | ⟨a, hm, he, -⟩
      · exact absurd he (hd d hm)
      · exact absurd he (ha a hm)

private theorem setWf_empty (descs : DescId → ApiDesc) (subset : Option SetId) :
    SetWf descs ⟨[], [], subset⟩ := by
  constructor <;> simp

private theorem wf_empty : Wf World.empty :=
  ⟨fun _ => setWf_empty _ _, by simp [World.empty], by simp [World.empty], by simp [World.empty]⟩

private theorem SetWf.congr {descs descs' : DescId → ApiDesc} {set : ApiSet} (h : SetWf descs set)
    (hd : ∀ d ∈ set.apis, descs' d = descs d) : SetWf descs' set where
  apisSorted := h.apisSorted.imp_of_mem fun {x y} hx hy hb => by
    unfold Below
    rw [hd x hx, hd y hy]
    exact hb
  aliasesSorted := h.aliasesSorted
  distinct d hm a ha := by
    rw [hd d hm]
    exact h.distinct d hm a ha
  target := h.target

theorem mem_insertApi {descs : DescId → ApiDesc} {name : Bytes} {d x : DescId}
    {l : List DescId} : x ∈ insertApi descs name d l ↔ x = d ∨ x ∈ l := by
  induction l with
  | nil => simp [insertApi]
  | cons a l ih =>
    rw [insertApi]
    split_ifs
    · simp
    · simp only [List.mem_cons, ih]
      exact or_left_comm

/-- The new api goes where the order of the names wants it. -/
theorem insertApi_sorted {descs descs' : DescId → ApiDesc} {name : Bytes} {d : DescId}
    {l : List DescId} (hs : l.Pairwise (Below descs)) (hname : (descs' d).name = name)
    (hold : ∀ x ∈ l, descs' x = descs x) (hne : ∀ x ∈ l, strcasecmp (descs x).name name ≠ .eq) :
    (insertApi descs name d l).Pairwise (Below descs') := by
  induction l with
  | nil => simp [insertApi]
  | cons a l ih =>
    obtain ⟨ha, hl⟩ := List.pairwise_cons.mp hs
    have hbelow : ∀ x ∈ l, Below descs' a x := fun x hx => by
      unfold Below
      rw [hold a (by simp), hold x (by simp [hx])]
      exact ha x hx
    have hrest : l.Pairwise (Below descs') := hl.imp_of_mem fun {x y} hx hy h => by
      unfold Below
      rw [hold x (by simp [hx]), hold y (by simp [hy])]
      exact h
    rw [insertApi]
    split_ifs with hgt
    · have hda : Below descs' d a := by
        unfold Below
        rw [hname, hold a (by simp)]
        exact strcasecmp_gt.mp hgt
      refine List.pairwise_cons.mpr ⟨?_, List.pairwise_cons.mpr ⟨hbelow, hrest⟩⟩
      intro x hx
      rcases List.mem_cons.mp hx with rfl | hx
      · exact hda
      · exact strcasecmp_trans hda (hbelow x hx)
    · refine List.pairwise_cons.mpr ⟨?_, ih hl (fun x hx => hold x (by simp [hx]))
        (fun x hx => hne x (by simp [hx]))⟩
      intro x hx
      rcases mem_insertApi.mp hx with rfl | hx
      · unfold Below
        rw [hname, hold a (by simp)]
        have := hne a (by simp)
        cases hc : strcasecmp (descs a).name name with
        | lt => rfl
        | eq => exact absurd hc this
        | gt => exact absurd hc hgt
      · exact hbelow x hx

theorem mem_insertAlias {new a : Alias} {l : List Alias} :
    a ∈ insertAlias new l ↔ a = new ∨ a ∈ l := by
  induction l with
  | nil => simp [insertAlias]
  | cons b l ih =>
    rw [insertAlias]
    split_ifs
    · simp only [List.mem_cons, ih]
      exact or_left_comm
    · simp

/-- The new alias compares with every present one alike with and without the case. -/
def Agrees (l : List Alias) (name : Bytes) : Prop :=
  ∀ a ∈ l, strcmp a.name name = .lt ↔ strcasecmp a.name name = .lt

private theorem insertAlias_sorted {new : Alias} {l : List Alias} (hs : l.Pairwise AliasBelow)
    (hne : ∀ a ∈ l, strcasecmp a.name new.name ≠ .eq) (hag : Agrees l new.name) :
    (insertAlias new l).Pairwise AliasBelow := by
  induction l with
  | nil => simp [insertAlias]
  | cons a l ih =>
    obtain ⟨ha, hl⟩ := List.pairwise_cons.mp hs
    rw [insertAlias]
    split_ifs with hlt
    · refine List.pairwise_cons.mpr ⟨?_, ih hl (fun x hx => hne x (by simp [hx]))
        (fun x hx => hag x (by simp [hx]))⟩
      intro x hx
      rcases mem_insertAlias.mp hx with rfl | hx
      · exact ⟨(hag a (by simp)).mp hlt, hlt⟩
      · exact ha x hx
    · have hcase : strcasecmp a.name new.name = .gt := by
        cases hc : strcasecmp a.name new.name with
        | lt => exact absurd ((hag a (by simp)).mpr hc) hlt
        | eq => exact absurd hc (hne a (by simp))
        | gt => rfl
      have hcmp : strcmp a.name new.name = .gt := by
        cases hc : strcmp a.name new.name with
        | lt => exact absurd hc hlt
        | eq => rw [strcmp_eq.mp hc, strcasecmp_self] at hcase; cases hcase
        | gt => rfl
      have hna : AliasBelow new a := ⟨strcasecmp_gt.mp hcase, strcmp_gt.mp hcmp⟩
      refine List.pairwise_cons.mpr ⟨?_, hs⟩
      intro x hx
      rcases List.mem_cons.mp hx with rfl | hx
      · exact hna
      · exact ⟨strcasecmp_trans hna.1 (ha x hx).1, strcmp_trans hna.2 (ha x hx).2⟩

theorem delAlias_sublist {name : Bytes} {l rest : List Alias}
    (h : delAlias name l = some rest) : rest.Sublist l := by
  induction l generalizing rest with
  | nil => cases h
  | cons a l ih =>
    rw [delAlias] at h
    split at h
    · cases h
      exact List.sublist_cons_self a l
    · cases h
    · obtain ⟨r, hr, rfl⟩ := Option.map_eq_some_iff.mp h
      exact (ih hr).cons_cons a

theorem findApi_mem {descs : DescId → ApiDesc} {name : Bytes} {l : List DescId} {d : DescId}
    (h : findApi descs name l = some d) : d ∈ l := by
  induction l with
  | nil => cases h
  | cons a l ih =>
    rw [findApi] at h
    split at h
    · cases h
      simp
    · cases h
    · simp [ih h]

private theorem search_none {w : World} (hw : Wf w) {set : SetId} {name : Bytes}
    (h : ¬ (search w.descs (w.sets set) name).isSome) :
    (∀ d ∈ (w.sets set).apis, strcasecmp (w.descs d).name name ≠ .eq) ∧
      ∀ a ∈ (w.sets set).aliases, strcasecmp a.name name ≠ .eq := by
  have hok := hw.searchOk set
  refine ⟨fun d hd he => h ?_, fun a ha he => h ?_⟩
  · rw [hok.api name d hd he]; rfl
  · rw [hok.viaAlias name a ha he]; rfl

private theorem wf_create {w : World} (hw : Wf w) : Wf (afbApisetCreate w) := by
  have hsub : ∀ set d, d ∈ ((afbApisetCreate w).sets set).apis → d ∈ (w.sets set).apis := by
    intro set d hd
    by_cases hs : set = w.setCount
    · simp [afbApisetCreate, hs] at hd
    · simpa [afbApisetCreate, Function.update_of_ne hs] using hd
  refine ⟨fun set => ?_, fun set d hd => hw.allocated set d (hsub set d hd),
    fun set d hd => hw.listed set d (hsub set d hd),
    fun set set' d hd hd' => hw.oneSet set set' d (hsub set d hd) (hsub set' d hd')⟩
  by_cases hs : set = w.setCount
  · simpa [afbApisetCreate, hs] using setWf_empty w.descs none
  · simpa [afbApisetCreate, Function.update_of_ne hs] using hw.ok set

theorem add_ok {w v : World} {set : SetId} {name : Bytes} {serviceStart mem : Bool}
    (h : afbApisetAdd w set name serviceStart mem = .ok v) :
    ¬ (search w.descs (w.sets set) name).isSome ∧ mem = true ∧ v = { w with
      sets := Function.update w.sets set
        { w.sets set with apis := insertApi w.descs name w.descCount (w.sets set).apis }
      descs := Function.update w.descs w.descCount ⟨name, serviceStart, [], []⟩
      status := Function.update w.status w.descCount (-1)
      allApis := w.descCount :: w.allApis
      descCount := w.descCount + 1 } := by
  unfold afbApisetAdd at h
  split at h
  · cases h
  next hnone =>
    split at h
    next hmem =>
      cases h
      exact ⟨hnone, hmem, rfl⟩
    · cases h

/-- The apis of a set once one is added: the new one, and those it had. -/
theorem mem_apis_add {w : World} {set s : SetId} {name : Bytes} {d : DescId}
    (hd : d ∈ (Function.update w.sets set { w.sets set with
      apis := insertApi w.descs name w.descCount (w.sets set).apis } s).apis) :
    (s = set ∧ d = w.descCount) ∨ d ∈ (w.sets s).apis := by
  by_cases hs : s = set
  · subst hs
    rw [Function.update_self] at hd
    exact (mem_insertApi.mp hd).imp_left fun h => ⟨rfl, h⟩
  · rw [Function.update_of_ne hs] at hd
    exact .inr hd

private theorem wf_add {w v : World} (hw : Wf w) {set : SetId} {name : Bytes}
    {serviceStart mem : Bool} (h : afbApisetAdd w set name serviceStart mem = .ok v) : Wf v := by
  obtain ⟨hnone, -, rfl⟩ := add_ok h
  obtain ⟨hapi, hali⟩ := search_none hw hnone
  have hold : ∀ s, ∀ d ∈ (w.sets s).apis,
      Function.update w.descs w.descCount ⟨name, serviceStart, [], []⟩ d = w.descs d := by
    intro s d hd
    exact Function.update_of_ne (Nat.ne_of_lt (hw.allocated s d hd)) _ _
  constructor
  case ok =>
    intro s
    by_cases hs : s = set
    · subst hs
      have ho := hw.ok s
      simp only [Function.update_self]
      refine ⟨insertApi_sorted ho.apisSorted (by simp) (hold s) hapi, ho.aliasesSorted, ?_, ?_⟩
      · intro d hd a ha
        rcases mem_insertApi.mp hd with rfl | hd
        · rw [Function.update_self, ne_eq, strcasecmp_comm]
          exact hali a ha
        · rw [hold s d hd]
          exact ho.distinct d hd a ha
      · exact fun a ha => mem_insertApi.mpr (.inr (ho.target a ha))
    · simpa only [Function.update_of_ne hs] using (hw.ok s).congr (hold s)
  case allocated =>
    intro s d hd
    rcases mem_apis_add hd with ⟨-, rfl⟩ | hd
    · exact Nat.lt_succ_self _
    · exact Nat.lt_succ_of_lt (hw.allocated s d hd)
  case listed =>
    intro s d hd
    rcases mem_apis_add hd with ⟨-, rfl⟩ | hd
    · simp
    · exact List.mem_cons_of_mem _ (hw.listed s d hd)
  case oneSet =>
    intro s s' d hd hd'
    rcases mem_apis_add hd with ⟨hs, he⟩ | hd <;> rcases mem_apis_add hd' with ⟨hs', he'⟩ | hd'
    · rw [hs, hs']
    · exact absurd (hw.allocated s' d hd') (by rw [he]; exact Nat.lt_irrefl _)
    · exact absurd (hw.allocated s d hd) (by rw [he']; exact Nat.lt_irrefl _)
    · exact hw.oneSet s s' d hd hd'

/-- Replacing the aliases of a set touches nothing else. -/
theorem wf_aliases {w : World} (hw : Wf w) {set : SetId} {l : List Alias}
    (hl : SetWf w.descs { w.sets set with aliases := l }) :
    Wf { w with sets := Function.update w.sets set { w.sets set with aliases := l } } := by
  have hapis : ∀ s, (Function.update w.sets set { w.sets set with aliases := l } s).apis =
      (w.sets s).apis := by
    intro s
    by_cases hs : s = set <;> simp [hs, Function.update_of_ne]
  refine ⟨fun s => ?_, ?_, ?_, ?_⟩
  · by_cases hs : s = set
    · subst hs
      simpa using hl
    · simpa [Function.update_of_ne hs] using hw.ok s
  all_goals simp only [hapis]
  · exact hw.allocated
  · exact hw.listed
  · exact hw.oneSet

/-- The alias is inserted: its name is new, the aliased api exists. -/
theorem addAlias_ok {w v : World} {set : SetId} {name aliasName : Bytes} {mem : Bool}
    (h : afbApisetAddAlias w set name aliasName mem = .ok v) :
    ¬ (search w.descs (w.sets set) aliasName).isSome ∧ mem = true ∧
      ∃ api, search w.descs (w.sets set) name = some api ∧ v = { w with
        sets := Function.update w.sets set
          { w.sets set with aliases := insertAlias ⟨api, aliasName⟩ (w.sets set).aliases } } := by
  unfold afbApisetAddAlias at h
  split at h
  · cases h
  · rename_i hnone
    split at h
    · cases h
    · rename_i api hs
      split at h
      · rename_i hm
        cases h
        exact ⟨hnone, hm, api, hs, rfl⟩
      · cases h

private theorem wf_addAlias {w v : World} (hw : Wf w) {set : SetId} {name aliasName : Bytes}
    {mem : Bool} (h : afbApisetAddAlias w set name aliasName mem = .ok v)
    (hag : Agrees (w.sets set).aliases aliasName) : Wf v := by
  obtain ⟨hnone, -, api, hs, rfl⟩ := addAlias_ok h
  obtain ⟨hapi, hali⟩ := search_none hw hnone
  have ho := hw.ok set
  refine wf_aliases hw ⟨ho.apisSorted, insertAlias_sorted ho.aliasesSorted hali hag, ?_, ?_⟩
  · intro d hd a ha
    rcases mem_insertAlias.mp ha with rfl | ha
    · exact hapi d hd
    · exact ho.distinct d hd a ha
  · intro a ha
    rcases mem_insertAlias.mp ha with rfl | ha
    · rcases search_sound hs with ⟨hm, -⟩ | ⟨b, hb, -, rfl⟩
      · exact hm
      · exact ho.target b hb
    · exact ho.target a ha

private theorem wf_del {w v : World} (hw : Wf w) {set : SetId} {name : Bytes}
    (h : afbApisetDel w set name = .ok v) : Wf v := by
  simp only [afbApisetDel] at h
  have ho := hw.ok set
  split at h
  · rename_i rest hr
    cases h
    have hsub := delAlias_sublist hr
    exact wf_aliases hw ⟨ho.apisSorted, ho.aliasesSorted.sublist hsub,
      fun d hd a ha => ho.distinct d hd a (hsub.subset ha),
      fun a ha => ho.target a (hsub.subset ha)⟩
  · split at h
    · cases h
    · rename_i d hd
      cases h
      have hdm := findApi_mem hd
      have hnd : (w.sets set).apis.Nodup := ho.apisSorted.imp fun {x y} hb he => by
        rw [Below, he, strcasecmp_self] at hb
        cases hb
      have hmem : ∀ s x, x ∈ (Function.update w.sets set { w.sets set with
          aliases := (w.sets set).aliases.filter (·.api ≠ d)
          apis := (w.sets set).apis.erase d } s).apis → x ∈ (w.sets s).apis ∧ x ≠ d := by
        intro s x hx
        by_cases hs : s = set
        · subst hs
          rw [Function.update_self] at hx
          exact ⟨List.mem_of_mem_erase hx, ((hnd.mem_erase_iff).mp hx).1⟩
        · rw [Function.update_of_ne hs] at hx
          exact ⟨hx, fun he => hs (hw.oneSet s set x hx (he ▸ hdm))⟩
      constructor
      case ok =>
        intro s
        by_cases hs : s = set
        · subst hs
          simp only [Function.update_self]
          refine ⟨ho.apisSorted.sublist (List.erase_sublist), ho.aliasesSorted.filter _, ?_, ?_⟩
          · intro x hx a ha
            exact ho.distinct x (List.mem_of_mem_erase hx) a (List.mem_of_mem_filter ha)
          · intro a ha
            obtain ⟨ha, hne⟩ := List.mem_filter.mp ha
            exact (hnd.mem_erase_iff).mpr ⟨by simpa using hne, ho.target a ha⟩
        · simpa only [Function.update_of_ne hs] using hw.ok s
      case allocated => exact fun s x hx => hw.allocated s x (hmem s x hx).1
      case listed =>
        intro s x hx
        obtain ⟨hm, hne⟩ := hmem s x hx
        exact (List.mem_erase_of_ne hne).mpr (hw.listed s x hm)
      case oneSet =>
        exact fun s s' x hx hx' => hw.oneSet s s' x (hmem s x hx).1 (hmem s' x hx').1

/-- An alias misplaced by strcmp hides itself or an alias behind it. -/
theorem insertAlias_hides (new : Alias) {l : List Alias} (hs : l.Pairwise AliasBelow)
    (hne : ∀ a ∈ l, strcasecmp a.name new.name ≠ .eq) {a : Alias} (ha : a ∈ l)
    (hbad : ¬ (strcmp a.name new.name = .lt ↔ strcasecmp a.name new.name = .lt)) :
    searchAliases new.name (insertAlias new l) = none ∨
      searchAliases a.name (insertAlias new l) = none := by
  induction l with
  | nil => cases ha
  | cons b l ih =>
    obtain ⟨hb, hl⟩ := List.pairwise_cons.mp hs
    rw [insertAlias]
    split_ifs with hlt
    · -- the scan goes on, or it stops for the new name
      cases hc : strcasecmp b.name new.name with
      | eq => exact absurd hc (hne b (by simp))
      | gt =>
        left
        rw [searchAliases, hc]
      | lt =>
        rcases List.mem_cons.mp ha with rfl | ha
        · exact absurd (iff_of_true hlt hc) hbad
        · have hba := (hb a ha).1
          rw [searchAliases, hc, searchAliases, hba]
          exact ih hl (fun x hx => hne x (by simp [hx])) ha
    · -- the new alias comes first and stops the scan for the one that is below it
      right
      have hnlt : ¬ strcmp a.name new.name = .lt := by
        rcases List.mem_cons.mp ha with rfl | ha
        · exact hlt
        · intro h
          exact hlt (strcmp_trans (hb a ha).2 h)
      have hcase : strcasecmp a.name new.name = .lt := by
        by_contra hn
        exact hbad (iff_of_false hnlt hn)
      rw [searchAliases, strcasecmp_gt.mpr hcase]

/-- Some api or alias of the set has the name, case ignored. -/
def Named (w : World) (set : SetId) (name : Bytes) : Prop :=
  (∃ d ∈ (w.sets set).apis, strcasecmp (w.descs d).name name = .eq) ∨
    ∃ a ∈ (w.sets set).aliases, strcasecmp a.name name = .eq

/-- The condition on a call: a new alias of a known api compares with every alias
of the set alike with and without the case. -/
def AliasOrderKept (w : World) : Op → Prop
  | .addAlias set name aliasName mem =>
      set < w.setCount → ¬ Named w set aliasName → Named w set name → mem = true →
        Agrees (w.sets set).aliases aliasName
  | _ => True

private theorem search_isSome {w : World} (hw : Wf w) (set : SetId) (name : Bytes) :
    (search w.descs (w.sets set) name).isSome ↔ Named w set name := by
  constructor
  · intro h
    obtain ⟨d, hd⟩ := Option.isSome_iff_exists.mp h
    rcases search_sound hd with ⟨hm, he⟩ | ⟨a, hm, he, -⟩
    · exact .inl ⟨d, hm, he⟩
    · exact .inr ⟨a, hm, he⟩
  · rintro (⟨d, hm, he⟩ | ⟨a, hm, he⟩)
    · rw [(hw.searchOk set).api name d hm he]; rfl
    · rw [(hw.searchOk set).viaAlias name a hm he]; rfl

private theorem wf_step {w v : World} {op : Op} (hw : Wf w) (hc : AliasOrderKept w op)
    (h : step w op = some v) : Wf v := by
  cases op with
  | create =>
    cases h
    exact wf_create hw
  | add set name serviceStart mem =>
    simp only [step, Option.ite_none_right_eq_some, Option.some.injEq] at h
    obtain ⟨-, rfl⟩ := h
    exact settle_keeps hw fun v hv => wf_add hw hv
  | addAlias set name aliasName mem =>
    simp only [step, Option.ite_none_right_eq_some, Option.some.injEq] at h
    obtain ⟨hs, rfl⟩ := h
    refine settle_keeps hw fun v hv => wf_addAlias hw hv ?_
    obtain ⟨hnone, hmem, api, hapi, -⟩ := addAlias_ok hv
    exact hc hs (mt (search_isSome hw set aliasName).mpr hnone)
      ((search_isSome hw set name).mp (by rw [hapi]; rfl)) hmem
  | del set name =>
    simp only [step, Option.ite_none_right_eq_some, Option.some.injEq] at h
    obtain ⟨-, rfl⟩ := h
    exact settle_keeps hw fun v hv => wf_del hw hv

/-- A call outside the condition leaves a name that search does not find. -/
theorem misplaced_step {w : World} {op : Op} (hw : Wf w) (hc : ¬ AliasOrderKept w op) :
    ∃ v, step w op = some v ∧ ¬ ∀ set, SearchOk v set := by
  cases op with
  | addAlias set name aliasName mem =>
    simp only [AliasOrderKept, Agrees, not_forall, exists_prop] at hc
    obtain ⟨hs, hnone, hname, hmem, a, ha, hbad⟩ := hc
    have hfree := mt (search_isSome hw set aliasName).mp hnone
    obtain ⟨api, hapi⟩ := Option.isSome_iff_exists.mp ((search_isSome hw set name).mpr hname)
    have hok : afbApisetAddAlias w set name aliasName mem = .ok { w with
        sets := Function.update w.sets set { w.sets set with
          aliases := insertAlias ⟨api, aliasName⟩ (w.sets set).aliases } } := by
      simp [afbApisetAddAlias, hfree, hapi, hmem]
    refine ⟨_, by rw [step, if_pos hs, hok, settle], fun hall => ?_⟩
    have hset := hall set
    obtain ⟨hapis, halis⟩ := search_none hw hfree
    -- whichever name is hidden, it is the name of an alias of the new set
    have hhide : ∀ b ∈ insertAlias ⟨api, aliasName⟩ (w.sets set).aliases,
        searchAliases b.name (insertAlias ⟨api, aliasName⟩ (w.sets set).aliases) ≠ none := by
      intro b hb hn
      have hfound := hset.viaAlias b.name b (by simpa using hb) strcasecmp_self
      simp only [Function.update_self] at hfound
      rw [search] at hfound
      split at hfound
      · rename_i i hi
        obtain ⟨-, hlt, he⟩ := bsearch_sound hi
        have hm : (w.sets set).apis.getD i 0 ∈ (w.sets set).apis := by
          have hlt' : i < (w.sets set).apis.length := hlt
          simp [hlt']
        rcases mem_insertAlias.mp hb with rfl | hb
        · exact hapis _ hm he
        · exact (hw.ok set).distinct _ hm b hb he
      · exact absurd (hn.symm.trans hfound) (by simp)
    have hides := insertAlias_hides ⟨api, aliasName⟩ (hw.ok set).aliasesSorted halis ha hbad
    rcases hides with hn | hn
    · exact hhide _ (mem_insertAlias.mpr (.inl rfl)) hn
    · exact hhide a (mem_insertAlias.mpr (.inr ha)) hn
  | create => exact absurd trivial hc
  | add => exact absurd trivial hc
  | del => exact absurd trivial hc

/-- Over any sequence of calls, search is exact in every state reached if and only if
every alias was inserted where both comparisons agree. -/
theorem search_exact_iff_alias_order_kept (ops : List Op) :
    Always step (fun w => ∀ set, SearchOk w set) World.empty ops ↔
      Along step AliasOrderKept World.empty ops :=
  always_iff_along (I := Wf) (fun _ hw set => hw.searchOk set)
    (fun _ _ _ hw hc h => wf_step hw hc h) (fun _ _ hw hc => misplaced_step hw hc) wf_empty ops

/-- An api x, then aliases a and B of it: B goes first, and hides a. -/
def hiddenAlias : List Op :=
  [.create, .add 0 [120] false true, .addAlias 0 [120] [97] true, .addAlias 0 [120] [66] true]

theorem search_misses_hidden_alias :
    ∃ w, exec step World.empty hiddenAlias = some w ∧
      (∃ a ∈ (w.sets 0).aliases, strcasecmp a.name [97] = .eq) ∧
      search w.descs (w.sets 0) [97] = none := by
  refine ⟨_, rfl, ⟨⟨0, [97]⟩, ?_, ?_⟩, ?_⟩
  · decide
  · decide
  · decide

end AfbBinder.Apiset
