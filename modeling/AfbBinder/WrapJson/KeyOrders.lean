import Mathlib.Data.Set.Basic
import AfbBinder.WrapJson.Order

/-! The orders of keys among which wrap_json_cmp sorts. -/
namespace AfbBinder.WrapJson
open Lib.Cstrings Lib.Orderings

variable {D : Type}

/-- The keys of an object, in the order of its iterators. -/
structure KeyList where
  keys : List Bytes
  distinct : keys.Nodup
  noNul : ∀ name ∈ keys, 0 ∉ name

/-- Every object of the value, at any depth, lists its keys in one of the given ways. -/
inductive Json.Uses (orders : Set KeyList) : Json D → Prop
  | null : Uses orders .null
  | boolean (b : Bool) : Uses orders (.boolean b)
  | double (d : D) : Uses orders (.double d)
  | int (i : Int) : Uses orders (.int i)
  | object {members : List (Bytes × Json D)} (keys : ∃ l ∈ orders, l.keys = names members)
    (values : ∀ m ∈ members, m.2.Uses orders) : Uses orders (.object members)
  | array {items : List (Json D)} (values : ∀ v ∈ items, v.Uses orders) : Uses orders (.array items)
  | string (s : Bytes) : Uses orders (.string s)

/-- Objects with as many keys list the same keys first, and then have no key of each other's at
their first difference; a list that differs earlier from two others, when the given sort made it,
is on the same side of both. -/
structure ConsistentFor (sort : ArraySort D) (orders : Set KeyList) : Prop where
  apart : ∀ k ∈ orders, ∀ l ∈ orders, k.keys.length = l.keys.length → Apart k.keys l.keys
  sorted : ∀ k ∈ orders, ∀ l ∈ orders, ∀ m ∈ orders, k.keys.length = l.keys.length →
    k.keys.length = m.keys.length → ∀ p a b ks ls ms, k.keys = p ++ a :: ks →
    l.keys = p ++ b :: ls → m.keys = p ++ b :: ms → a ≠ b →
    compare (sortedKeys sort k.keys) (sortedKeys sort l.keys) =
      compare (sortedKeys sort k.keys) (sortedKeys sort m.keys)

section
variable {sort : ArraySort D} {orders : Set KeyList} {x y z : Json D}

theorem length_keys {us : List (Bytes × Json D)} {k : KeyList} (h : k.keys = names us) :
    k.keys.length = us.length := by
  rw [h, names, List.length_map]

/-- Objects with as many members have their keys apart, when the orders in use are apart. -/
theorem apart_names {xs ys : List (Bytes × Json D)} {k l : KeyList}
    (hapart : ∀ k ∈ orders, ∀ l ∈ orders, k.keys.length = l.keys.length → Apart k.keys l.keys)
    (hk : k ∈ orders) (hl : l ∈ orders) (hkeys : k.keys = names xs) (hkeys' : l.keys = names ys)
    (h : xs.length = ys.length) : Apart (names xs) (names ys) := by
  rw [← hkeys, ← hkeys']
  exact hapart k hk l hl (by rw [length_keys hkeys, length_keys hkeys', h])

/-- Lists of keys apart and different have different keys. -/
theorem sortedKeys_ne (sort : ArraySort D) {ks ls : List Bytes} {a : Bytes} (hk : a ∈ ks) (hl : a ∉ ls) :
    compare (sortedKeys sort ks) (sortedKeys sort ls) ≠ .eq := by
  intro heq
  have hsame := Std.LawfulEqOrd.compare_eq_iff_eq.mp heq
  have hm := (sortedKeys_spec sort ks).2.mem_iff.mpr hk
  rw [hsame] at hm
  exact hl ((sortedKeys_spec sort ls).2.mem_iff.mp hm)

/-- The lists of keys of three objects that list the same keys up to some place. -/
structure Triple (sort : ArraySort D) (ks ls ms : List Bytes) : Prop where
  apart : Apart ks ls ∧ Apart ls ms ∧ Apart ks ms
  first : ∀ p a b ks' ls' ms', ks = p ++ a :: ks' → ls = p ++ b :: ls' → ms = p ++ b :: ms' →
    a ≠ b → compare (sortedKeys sort ks) (sortedKeys sort ls) =
      compare (sortedKeys sort ks) (sortedKeys sort ms)
  second : ∀ p a b ks' ls' ms', ks = p ++ b :: ks' → ls = p ++ a :: ls' → ms = p ++ b :: ms' →
    a ≠ b → compare (sortedKeys sort ls) (sortedKeys sort ks) =
      compare (sortedKeys sort ls) (sortedKeys sort ms)
  third : ∀ p a b ks' ls' ms', ks = p ++ b :: ks' → ls = p ++ b :: ls' → ms = p ++ a :: ms' →
    a ≠ b → compare (sortedKeys sort ms) (sortedKeys sort ks) =
      compare (sortedKeys sort ms) (sortedKeys sort ls)

private theorem ConsistentFor.triple (hc : ConsistentFor sort orders) {k l m : KeyList} (hk : k ∈ orders)
    (hl : l ∈ orders) (hm : m ∈ orders) (hkl : k.keys.length = l.keys.length)
    (hlm : l.keys.length = m.keys.length) : Triple sort k.keys l.keys m.keys := by
  have hkm := hkl.trans hlm
  refine ⟨⟨hc.apart k hk l hl hkl, hc.apart l hl m hm hlm, hc.apart k hk m hm hkm⟩, ?_, ?_, ?_⟩
  · intro p a b _ _ _ h₁ h₂ h₃ hne
    exact hc.sorted k hk l hl m hm hkl hkm p a b _ _ _ h₁ h₂ h₃ hne
  · intro p a b _ _ _ h₁ h₂ h₃ hne
    exact hc.sorted l hl k hk m hm hkl.symm hlm p a b _ _ _ h₂ h₁ h₃ hne
  · intro p a b _ _ _ h₁ h₂ h₃ hne
    exact hc.sorted m hm k hk l hl hkm.symm hlm.symm p a b _ _ _ h₃ h₁ h₂ hne

variable [LinearOrder D]

private theorem itemsOrder_swap {xs ys : List (Json D)} (hlen : xs.length = ys.length)
    (hv : ∀ u ∈ xs, ∀ v ∈ ys, order sort v u = (order sort u v).swap) :
    itemsOrder sort ys xs = (itemsOrder sort xs ys).swap := by
  induction xs generalizing ys with
  | nil =>
    rw [List.length_eq_zero_iff.mp hlen.symm]
    rfl
  | cons x xs ih =>
    obtain - | ⟨y, ys⟩ := ys
    · cases hlen
    rw [itemsOrder, itemsOrder, Ordering.swap_then, hv x List.mem_cons_self y List.mem_cons_self,
      ih (Nat.succ.inj hlen) fun u hu v hv' =>
        hv u (List.mem_cons_of_mem _ hu) v (List.mem_cons_of_mem _ hv')]

private theorem membersOrder_swap {xs ys : List (Bytes × Json D)} (keys : Ordering)
    (hlen : xs.length = ys.length)
    (hv : ∀ u ∈ xs, ∀ v ∈ ys, order sort v.2 u.2 = (order sort u.2 v.2).swap) :
    membersOrder sort keys.swap ys xs = (membersOrder sort keys xs ys).swap := by
  induction xs generalizing ys with
  | nil =>
    rw [List.length_eq_zero_iff.mp hlen.symm]
    rfl
  | cons x xs ih =>
    obtain - | ⟨y, ys⟩ := ys
    · cases hlen
    rw [membersOrder, membersOrder]
    by_cases hk : x.1 = y.1
    · rw [if_pos hk, if_pos hk.symm, Ordering.swap_then,
        hv x List.mem_cons_self y List.mem_cons_self, ih (Nat.succ.inj hlen) fun u hu v hv' =>
          hv u (List.mem_cons_of_mem _ hu) v (List.mem_cons_of_mem _ hv')]
    · rw [if_neg hk, if_neg (Ne.symm hk)]

/-- Two comparisons of values, opposite when those that the types leave are. -/
theorem order_swap_of_type (h : x.type = y.type → order sort y x = (order sort x y).swap) :
    order sort y x = (order sort x y).swap := by
  rw [order_type y x, order_type x y, Ordering.swap_then,
    compare_swap x.type y.type]
  by_cases ht : x.type = y.type
  · rw [h ht]
  · cases hc : compare x.type y.type with
    | eq => exact absurd (compare_eq_iff_eq.mp hc) ht
    | lt => rfl
    | gt => rfl

theorem order_swap (hc : ConsistentFor sort orders) (hx : x.Uses orders) (hy : y.Uses orders) :
    order sort y x = (order sort x y).swap := by
  induction y using Json.induct generalizing x with
  | object ys ih =>
    refine order_swap_of_type fun ht => ?_
    cases hx with
    | @object xs hkx hvx =>
      cases hy with
      | object hky hvy =>
      obtain ⟨k, hk, hkeys⟩ := hkx
      obtain ⟨l, hl, hkeys'⟩ := hky
      have ha := apart_names hc.apart hk hl hkeys hkeys'
      rw [order_object (hkeys ▸ k.distinct) ha,
        order_object (hkeys' ▸ l.distinct) fun h => (ha h.symm).symm, Ordering.swap_then,
        compare_swap xs.length ys.length]
      congr 1
      by_cases h : xs.length = ys.length
      · rw [if_pos h, if_pos h.symm, compare_swap (sortedKeys sort (names xs))]
        exact membersOrder_swap _ h fun u hu v hv => ih v hv (hvx u hu) (hvy v hv)
      · rw [if_neg h, if_neg (Ne.symm h)]
        rfl
    | _ => simp [Json.type] at ht
  | array ys ih =>
    refine order_swap_of_type fun ht => ?_
    cases hx with
    | @array xs hvx =>
      cases hy with
      | array hvy =>
      rw [order_array, order_array, Ordering.swap_then, compare_swap xs.length ys.length]
      congr 1
      by_cases h : xs.length = ys.length
      · rw [if_pos h, if_pos h.symm]
        exact itemsOrder_swap h fun u hu v hv => ih v hv (hvx u hu) (hvy v hv)
      · rw [if_neg h, if_neg (Ne.symm h)]
        rfl
    | _ => simp [Json.type] at ht
  | null =>
    refine order_swap_of_type fun ht => ?_
    cases x with
    | null => rfl
    | _ => simp [Json.type] at ht
  | boolean b =>
    refine order_swap_of_type fun ht => ?_
    cases x with
    | boolean a =>
      rw [order_boolean, order_boolean]
      exact compare_swap ..
    | _ => simp [Json.type] at ht
  | double b =>
    refine order_swap_of_type fun ht => ?_
    cases x with
    | double a =>
      rw [order_double, order_double]
      exact compare_swap ..
    | _ => simp [Json.type] at ht
  | int b =>
    refine order_swap_of_type fun ht => ?_
    cases x with
    | int a =>
      rw [order_int, order_int]
      exact compare_swap ..
    | _ => simp [Json.type] at ht
  | string b =>
    refine order_swap_of_type fun ht => ?_
    cases x with
    | string a =>
      rw [order_string, order_string]
      exact compare_swap ..
    | _ => simp [Json.type] at ht

private theorem itemsOrder_composes {xs ys zs : List (Json D)} (hxy : xs.length = ys.length)
    (hyz : ys.length = zs.length) (hv : ∀ u ∈ xs, ∀ v ∈ ys, ∀ w ∈ zs,
      Composes (order sort u v) (order sort v w) (order sort u w)) :
    Composes (itemsOrder sort xs ys) (itemsOrder sort ys zs) (itemsOrder sort xs zs) := by
  induction ys generalizing xs zs with
  | nil =>
    rw [List.length_eq_zero_iff.mp hxy, List.length_eq_zero_iff.mp hyz.symm]
    exact fun _ _ => rfl
  | cons y ys ih =>
    obtain - | ⟨x, xs⟩ := xs
    · cases hxy
    obtain - | ⟨z, zs⟩ := zs
    · cases hyz
    refine (hv x List.mem_cons_self y List.mem_cons_self z List.mem_cons_self).lex fun _ _ => ?_
    exact ih (Nat.succ.inj hxy) (Nat.succ.inj hyz) fun u hu v hv' w hw =>
      hv u (List.mem_cons_of_mem _ hu) v (List.mem_cons_of_mem _ hv') w (List.mem_cons_of_mem _ hw)

private theorem membersOrder_composes {ks ls ms p : List Bytes} (ht : Triple sort ks ls ms)
    {xs ys zs : List (Bytes × Json D)} (hk : ks = p ++ names xs) (hl : ls = p ++ names ys)
    (hm : ms = p ++ names zs) (hxy : xs.length = ys.length) (hyz : ys.length = zs.length)
    (hv : ∀ u ∈ xs, ∀ v ∈ ys, ∀ w ∈ zs,
      Composes (order sort u.2 v.2) (order sort v.2 w.2) (order sort u.2 w.2)) :
    Composes (membersOrder sort (compare (sortedKeys sort ks) (sortedKeys sort ls)) xs ys)
      (membersOrder sort (compare (sortedKeys sort ls) (sortedKeys sort ms)) ys zs)
      (membersOrder sort (compare (sortedKeys sort ks) (sortedKeys sort ms)) xs zs) := by
  induction ys generalizing xs zs p with
  | nil =>
    rw [List.length_eq_zero_iff.mp hxy, List.length_eq_zero_iff.mp hyz.symm]
    exact fun _ _ => rfl
  | cons y ys ih =>
    obtain - | ⟨⟨k, x⟩, xs⟩ := xs
    · cases hxy
    obtain - | ⟨⟨m, z⟩, zs⟩ := zs
    · cases hyz
    obtain ⟨l, y⟩ := y
    -- different keys at this place are not keys of the other object
    have hne₁ : k ≠ l → compare (sortedKeys sort ks) (sortedKeys sort ls) ≠ .eq := fun h =>
      sortedKeys_ne sort (by rw [hk]; simp [names]) (ht.apart.1 p k l _ _ hk hl h).1
    have hne₂ : l ≠ m → compare (sortedKeys sort ls) (sortedKeys sort ms) ≠ .eq := fun h =>
      sortedKeys_ne sort (by rw [hl]; simp [names]) (ht.apart.2.1 p l m _ _ hl hm h).1
    rw [membersOrder, membersOrder, membersOrder]
    by_cases hkl : k = l
    · subst hkl
      by_cases hlm : k = m
      · subst hlm
        simp only [if_true]
        refine (hv _ List.mem_cons_self _ List.mem_cons_self _ List.mem_cons_self).lex
          fun _ _ => ?_
        refine ih (p := p ++ [k]) (by simpa [names] using hk) (by simpa [names] using hl)
          (by simpa [names] using hm) (Nat.succ.inj hxy) (Nat.succ.inj hyz)
          fun u hu v hv' w hw => ?_
        exact hv u (List.mem_cons_of_mem _ hu) v (List.mem_cons_of_mem _ hv') w
          (List.mem_cons_of_mem _ hw)
      · have hthird := ht.third p m k _ _ _ hk hl hm (Ne.symm hlm)
        rw [if_pos rfl, if_neg hlm, if_neg hlm, compare_swap (sortedKeys sort ms) (sortedKeys sort ks),
          hthird, ← compare_swap]
        exact composes_right (hne₂ hlm)
    · by_cases hlm : l = m
      · subst hlm
        have hfirst := ht.first p k l _ _ _ hk hl hm hkl
        rw [if_neg hkl, if_pos rfl, if_neg hkl, ← hfirst]
        exact composes_left (hne₁ hkl)
      · by_cases hkm : k = m
        · subst hkm
          have hsecond := ht.second p l k _ _ _ hk hl hm (Ne.symm hkl)
          rw [if_neg hkl, if_neg hlm, if_pos rfl, ← hsecond,
            compare_swap (sortedKeys sort ks) (sortedKeys sort ls)]
          exact composes_swap (hne₁ hkl)
        · rw [if_neg hkl, if_neg hlm, if_neg hkm]
          exact composes_cmp compare _ _ _

private theorem composes_of_type (h : x.type = y.type → y.type = z.type →
    Composes (order sort x y) (order sort y z) (order sort x z)) :
    Composes (order sort x y) (order sort y z) (order sort x z) := by
  have hlex := (composes_cmp compare x.type y.type z.type).lex
    fun hxy hyz => h (compare_eq_iff_eq.mp hxy) (compare_eq_iff_eq.mp hyz)
  rwa [← order_type, ← order_type, ← order_type] at hlex

/-- Objects whose keys are in consistent orders, when their values compose. -/
theorem order_composes_object (hc : ConsistentFor sort orders) {xs ys zs : List (Bytes × Json D)}
    (hx : ∃ l ∈ orders, l.keys = names xs) (hy : ∃ l ∈ orders, l.keys = names ys)
    (hz : ∃ l ∈ orders, l.keys = names zs) (hv : ∀ u ∈ xs, ∀ v ∈ ys, ∀ w ∈ zs,
      Composes (order sort u.2 v.2) (order sort v.2 w.2) (order sort u.2 w.2)) :
    Composes (order sort (.object xs) (.object ys)) (order sort (.object ys) (.object zs))
      (order sort (.object xs) (.object zs)) := by
  obtain ⟨k, hk, hkeys⟩ := hx
  obtain ⟨l, hl, hkeys'⟩ := hy
  obtain ⟨m, hm, hkeys''⟩ := hz
  rw [order_object (hkeys ▸ k.distinct) (apart_names hc.apart hk hl hkeys hkeys'),
    order_object (hkeys' ▸ l.distinct) (apart_names hc.apart hl hm hkeys' hkeys''),
    order_object (hkeys ▸ k.distinct) (apart_names hc.apart hk hm hkeys hkeys'')]
  refine (composes_cmp compare _ _ _).lex fun h₁ h₂ => ?_
  have hxy := compare_eq_iff_eq.mp h₁
  have hyz := compare_eq_iff_eq.mp h₂
  rw [if_pos hxy, if_pos hyz, if_pos (hxy.trans hyz)]
  have htriple := hc.triple hk hl hm (by rw [length_keys hkeys, length_keys hkeys', hxy])
    (by rw [length_keys hkeys', length_keys hkeys'', hyz])
  rw [hkeys, hkeys', hkeys''] at htriple
  exact membersOrder_composes (p := []) htriple rfl rfl rfl hxy hyz hv

theorem order_composes (hc : ConsistentFor sort orders) (hx : x.Uses orders) (hy : y.Uses orders)
    (hz : z.Uses orders) : Composes (order sort x y) (order sort y z) (order sort x z) := by
  induction y using Json.induct generalizing x z with
  | object ys ih =>
    refine composes_of_type fun ht ht' => ?_
    cases hx with
    | @object xs hkx hvx =>
      cases hz with
      | @object zs hkz hvz =>
        cases hy with
        | object hky hvy =>
        exact order_composes_object hc hkx hky hkz fun u hu v hv w hw =>
          ih v hv (hvx u hu) (hvy v hv) (hvz w hw)
      | _ => simp [Json.type] at ht'
    | _ => simp [Json.type] at ht
  | array ys ih =>
    refine composes_of_type fun ht ht' => ?_
    cases hx with
    | @array xs hvx =>
      cases hz with
      | @array zs hvz =>
        cases hy with
        | array hvy =>
        rw [order_array, order_array, order_array]
        refine (composes_cmp compare _ _ _).lex fun h₁ h₂ => ?_
        have hxy := compare_eq_iff_eq.mp h₁
        have hyz := compare_eq_iff_eq.mp h₂
        rw [if_pos hxy, if_pos hyz, if_pos (hxy.trans hyz)]
        exact itemsOrder_composes hxy hyz fun u hu v hv w hw =>
          ih v hv (hvx u hu) (hvy v hv) (hvz w hw)
      | _ => simp [Json.type] at ht'
    | _ => simp [Json.type] at ht
  | null =>
    refine composes_of_type fun ht ht' => ?_
    cases x with
    | null =>
      cases z with
      | null => exact fun _ _ => rfl
      | _ => simp [Json.type] at ht'
    | _ => simp [Json.type] at ht
  | boolean b =>
    refine composes_of_type fun ht ht' => ?_
    cases x with
    | boolean a =>
      cases z with
      | boolean c =>
        rw [order_boolean, order_boolean, order_boolean]
        exact composes_cmp compare _ _ _
      | _ => simp [Json.type] at ht'
    | _ => simp [Json.type] at ht
  | double b =>
    refine composes_of_type fun ht ht' => ?_
    cases x with
    | double a =>
      cases z with
      | double c =>
        rw [order_double, order_double, order_double]
        exact composes_cmp compare _ _ _
      | _ => simp [Json.type] at ht'
    | _ => simp [Json.type] at ht
  | int b =>
    refine composes_of_type fun ht ht' => ?_
    cases x with
    | int a =>
      cases z with
      | int c =>
        rw [order_int, order_int, order_int]
        exact composes_cmp compare _ _ _
      | _ => simp [Json.type] at ht'
    | _ => simp [Json.type] at ht
  | string b =>
    refine composes_of_type fun ht ht' => ?_
    cases x with
    | string a =>
      cases z with
      | string c =>
        rw [order_string, order_string, order_string]
        exact composes_cmp compare _ _ _
      | _ => simp [Json.type] at ht'
    | _ => simp [Json.type] at ht

end

end AfbBinder.WrapJson
