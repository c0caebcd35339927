import Mathlib.Order.Nat
import AfbBinder.Lib.Orderings
import AfbBinder.WrapJson.Compare

/-! The order of wrap_json_cmp, and the orders of keys for which it is one. -/
namespace AfbBinder.WrapJson
open Lib.Cstrings Lib.Orderings

variable {D : Type}

def sign (r : Option Int) : Ordering := compare (r.getD 0) 0

section
variable [LinearOrder D] (sort : ArraySort D)

def order (x y : Json D) : Ordering := sign (wrapJsonCmp sort x y)

/-- The comparison of items at the same places. -/
def itemsOrder : List (Json D) → List (Json D) → Ordering
  | x :: xs, y :: ys => (order sort x y).then (itemsOrder xs ys)
  | _, _ => .eq

/-- The comparison of members while their keys are the same; the given order is the one of the
lists of keys. -/
def membersOrder (keys : Ordering) : List (Bytes × Json D) → List (Bytes × Json D) → Ordering
  | (k, x) :: xs, (l, y) :: ys => if k = l then (order sort x y).then (membersOrder keys xs ys) else keys
  | _, _ => .eq

end

/-- From their first difference on, neither list has the key of the other. -/
def Apart (ks ls : List Bytes) : Prop :=
  ∀ p a b ks' ls', ks = p ++ a :: ks' → ls = p ++ b :: ls' → a ≠ b → a ∉ ls ∧ b ∉ ks

section
variable {x y : Json D} {r : Int} {q : Option Int}

private theorem sign_then : sign ((some r).bind fun r => if r ≠ 0 then some r else q) =
    (sign (some r)).then (sign q) := by
  rw [Option.bind_some]
  by_cases h0 : r = 0
  · rw [if_neg (by simp [h0]), h0]
    rfl
  · rw [if_pos h0]
    cases h : sign (some r) with
    | eq => exact absurd (compare_eq_iff_eq.mp h) h0
    | lt => rfl
    | gt => rfl

private theorem sign_sub (a b : Int) : sign (some (a - b)) = compare a b := by
  rcases lt_trichotomy a b with h | h | h
  · rw [compare_lt_iff_lt.mpr h]
    exact compare_lt_iff_lt.mpr (Int.sub_neg_of_lt h)
  · rw [compare_eq_iff_eq.mpr h]
    exact compare_eq_iff_eq.mpr (Int.sub_eq_zero_of_eq h)
  · rw [compare_gt_iff_gt.mpr h]
    exact compare_gt_iff_gt.mpr (Int.sub_pos_of_lt h)

private theorem sign_numbers {α : Type*} [LinearOrder α] (a b : α) :
    sign (some (if a < b then -1 else if b < a then 1 else 0)) = compare a b := by
  rcases lt_trichotomy a b with h | h | h
  · rw [compare_lt_iff_lt.mpr h, if_pos h]
    rfl
  · rw [compare_eq_iff_eq.mpr h, if_neg h.not_lt, if_neg h.not_gt]
    rfl
  · rw [compare_gt_iff_gt.mpr h, if_neg h.not_gt, if_pos h]
    rfl

private theorem sign_strcmp (a b : Bytes) : sign (some (strcmpSign a b)) = compare a b := by
  unfold strcmpSign strcmp
  cases compare a b <;> rfl

/-- The counts come first. -/
theorem sign_counts (nx ny : Nat) :
    sign (if countDiff false nx ny ≠ 0 then some (countDiff false nx ny) else q) =
      (compare nx ny).then (if nx = ny then sign q else .eq) := by
  have hdiff : countDiff false nx ny = nx - ny := by simp [countDiff]
  rw [hdiff]
  by_cases hn : nx = ny
  · rw [if_neg (by omega), if_pos hn, compare_eq_iff_eq.mpr hn]
    rfl
  · rw [if_pos (by omega), if_neg hn, sign_sub, Ordering.then_eq]
    rcases Nat.lt_or_gt_of_ne hn with h | h
    · rw [compare_lt_iff_lt.mpr h, compare_lt_iff_lt.mpr (Int.ofNat_lt.mpr h)]
    · rw [compare_gt_iff_gt.mpr h, compare_gt_iff_gt.mpr (Int.ofNat_lt.mpr h)]

variable [LinearOrder D] {sort : ArraySort D}

theorem order_boolean (a b : Bool) :
    order sort (.boolean a) (.boolean b) = compare a.toInt b.toInt := sign_sub ..

theorem order_double (a b : D) : order sort (.double a) (.double b) = compare a b :=
  sign_numbers ..

theorem order_int (a b : Int) : order sort (.int a) (.int b) = compare a b := sign_numbers ..

theorem order_string (a b : Bytes) : order sort (.string a) (.string b) = compare a b :=
  sign_strcmp ..

/-- The types come first. -/
theorem order_type (x y : Json D) :
    order sort x y = (compare x.type y.type).then (order sort x y) := by
  by_cases h : x.type = y.type
  · rw [compare_eq_iff_eq.mpr h]
    rfl
  · have hr : wrapJsonCmp sort x y = some (x.type - y.type) := by
      cases x <;> cases y <;> first | exact absurd rfl h | rfl
    rw [order, hr, sign_sub]
    cases compare x.type y.type <;> rfl

/-- A comparison that ends, as its sign. -/
theorem order_eq (sort : ArraySort D) (x y : Json D) :
    ∃ r, wrapJsonCmp sort x y = some r ∧ order sort x y = compare r 0 := by
  obtain ⟨r, hr, -⟩ := jcmp_decides sort false true x y
  exact ⟨r, hr, by rw [order, wrapJsonCmp, jcmp, hr]; rfl⟩

private theorem sign_items {xs ys : List (Json D)} (hlen : xs.length = ys.length) :
    sign (jcmpItems (keysCmp sort) false true xs ys) = itemsOrder sort xs ys := by
  induction ys generalizing xs with
  | nil =>
    rw [List.length_eq_zero_iff.mp hlen]
    rfl
  | cons y ys ih =>
    obtain - | ⟨x, xs⟩ := xs
    · cases hlen
    obtain ⟨r, hr, -⟩ := order_eq sort x y
    rw [jcmpItems, itemsOrder, ← ih (Nat.succ.inj hlen), order, hr, ← sign_then]
    exact congrArg (fun o => sign (Option.bind o _)) hr

theorem order_array (xs ys : List (Json D)) :
    order sort (.array xs) (.array ys) = (compare xs.length ys.length).then
      (if xs.length = ys.length then itemsOrder sort xs ys else .eq) := by
  rw [order, wrapJsonCmp, jcmp, jcmpWith, sign_counts]
  congr 1
  split
  · next h => exact sign_items h
  · rfl

private theorem sign_strings (keyscmp : Json D → Json D → Option Int) {ks ls : List Bytes}
    (hlen : ks.length = ls.length) :
    sign (jcmpItems keyscmp false true (ks.map .string) (ls.map .string)) = compare ks ls := by
  induction ls generalizing ks with
  | nil =>
    rw [List.length_eq_zero_iff.mp hlen]
    rfl
  | cons l ls ih =>
    obtain - | ⟨k, ks⟩ := ks
    · cases hlen
    rw [List.map_cons, List.map_cons, jcmpItems, List.compare_cons_cons, ← ih (Nat.succ.inj hlen),
      ← sign_strcmp, ← sign_then]
    rfl

/-- The order of the lists of keys. -/
theorem sign_keysCmp (sort : ArraySort D) {xs ys : List (Bytes × Json D)} (hlen : xs.length = ys.length) :
    sign (keysCmp sort (.object xs) (.object ys)) =
      compare (sortedKeys sort (names xs)) (sortedKeys sort (names ys)) := by
  have hsorted : ∀ zs : List (Bytes × Json D),
      (sortedKeys sort (names zs)).length = zs.length := fun zs => by
    rw [(sortedKeys_spec sort (names zs)).2.length_eq, names, List.length_map]
  have heq := (hsorted xs).trans (hlen.trans (hsorted ys).symm)
  rw [keysCmp, wrapJsonKeys_object, wrapJsonKeys_object, jcmpWith, sign_counts, List.length_map,
    List.length_map, if_pos heq, compare_eq_iff_eq.mpr heq, sign_strings _ heq]
  rfl

theorem Apart.symm {ks ls : List Bytes} (h : Apart ks ls) : Apart ls ks :=
  fun p a b ls' ks' hl hk hne => (h p b a ks' ls' hk hl (Ne.symm hne)).symm

/-- A key that x lacks ends the loop with the order of the lists of keys. -/
theorem sign_missing {xs ys rest : List (Bytes × Json D)} {name : Bytes} {v : Json D}
    (hlen : xs.length = ys.length) (hy : name ∈ names ys) (hx : name ∉ names xs) :
    sign (jcmpMembers (keysCmp sort) false true xs ys ((name, v) :: rest)) =
      compare (sortedKeys sort (names xs)) (sortedKeys sort (names ys)) := by
  obtain ⟨r, hr, h0⟩ := keysCmp_ne_zero sort hy hx
  have hkeys := sign_keysCmp sort hlen
  rw [hr] at hkeys
  rw [jcmpMembers, objectGet_none.mpr hx, ← hkeys]
  simp only [if_true, hr, Option.bind_some, if_pos h0]

/-- A key of both compares the values. -/
theorem sign_found {xs ys rest : List (Bytes × Json D)} {name : Bytes} {u v : Json D}
    (hx : objectGet name xs = some u) :
    sign (jcmpMembers (keysCmp sort) false true xs ys ((name, v) :: rest)) =
      (order sort u v).then (sign (jcmpMembers (keysCmp sort) false true xs ys rest)) := by
  obtain ⟨r, hr, -⟩ := order_eq sort u v
  rw [jcmpMembers, hx, order, hr, ← sign_then]
  exact congrArg (fun o => sign (Option.bind o _)) hr

private theorem sign_members {xs ys p q : List (Bytes × Json D)} (hp : names p = names q)
    (hx : (names (p ++ xs)).Nodup) (ha : Apart (names (p ++ xs)) (names (q ++ ys)))
    (hlen : xs.length = ys.length) :
    sign (jcmpMembers (keysCmp sort) false true (p ++ xs) (q ++ ys) ys) = membersOrder sort
      (compare (sortedKeys sort (names (p ++ xs))) (sortedKeys sort (names (q ++ ys)))) xs ys := by
  induction ys generalizing xs p q with
  | nil =>
    rw [List.length_eq_zero_iff.mp hlen]
    rfl
  | cons y ys ih =>
    obtain - | ⟨⟨k, u⟩, xs⟩ := xs
    · cases hlen
    obtain ⟨l, v⟩ := y
    have hlen' : xs.length = ys.length := Nat.succ.inj hlen
    have hlong : (p ++ (k, u) :: xs).length = (q ++ (l, v) :: ys).length := by
      have hpq : p.length = q.length := by simpa [names] using congrArg List.length hp
      simp [hpq, hlen']
    rw [membersOrder]
    by_cases hkl : k = l
    · subst hkl
      rw [if_pos rfl, sign_found (objectGet_of_mem hx (by simp : (k, u) ∈ p ++ (k, u) :: xs))]
      have hstep := ih (p := p ++ [(k, u)]) (q := q ++ [(k, v)])
        (by simp only [names, List.map_append] at hp ⊢; rw [hp]; rfl)
        (by simpa using hx) (by simpa using ha) hlen'
      simp only [List.append_assoc, List.singleton_append] at hstep
      rw [hstep]
    · have hxk : names (p ++ (k, u) :: xs) = names p ++ k :: names xs := by simp [names]
      have hyl : names (q ++ (l, v) :: ys) = names p ++ l :: names ys := by
        rw [hp]
        simp [names]
      have hmiss := (ha _ k l _ _ hxk hyl hkl).2
      rw [if_neg hkl, sign_missing hlong (by rw [hyl]; simp) hmiss]

theorem order_object {xs ys : List (Bytes × Json D)} (hx : (names xs).Nodup)
    (ha : xs.length = ys.length → Apart (names xs) (names ys)) :
    order sort (.object xs) (.object ys) = (compare xs.length ys.length).then
      (if xs.length = ys.length then
        membersOrder sort (compare (sortedKeys sort (names xs)) (sortedKeys sort (names ys))) xs ys
      else .eq) := by
  rw [order, wrapJsonCmp, jcmp, jcmpWith, sign_counts]
  congr 1
  split
  · next h => exact sign_members (p := []) (q := []) rfl hx (ha h) h
  · rfl

end

end AfbBinder.WrapJson
