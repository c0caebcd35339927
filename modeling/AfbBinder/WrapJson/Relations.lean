import Mathlib.Tactic.Cases
import Mathlib.Data.List.Forall2
import Mathlib.Data.List.Perm.Subperm
import AfbBinder.WrapJson.Model

/-! Equality and inclusion of JSON values, whatever the order of the keys. -/
namespace AfbBinder.WrapJson
open Lib.Cstrings

variable {D : Type}

theorem countDiff_zero {inc : Bool} {nx ny : Nat} :
    countDiff inc nx ny = 0 ↔ ny ≤ nx ∧ (inc = false → nx = ny) := by
  unfold countDiff
  cases inc with
  | false =>
    simp only [Bool.false_eq_true, and_false, if_false, true_imp_iff]
    omega
  | true =>
    simp only [and_true, reduceCtorEq, false_imp_iff]
    split <;> omega

/-- What a comparison without order says: the values are equal, or, with inclusion, the arrays of
the second are prefixes and its objects are parts of those of the first. -/
inductive Within (inc : Bool) : Json D → Json D → Prop
  | null : Within inc .null .null
  | boolean (b : Bool) : Within inc (.boolean b) (.boolean b)
  | double (d : D) : Within inc (.double d) (.double d)
  | int (i : Int) : Within inc (.int i) (.int i)
  | object {xs ys : List (Bytes × Json D)} (count : countDiff inc xs.length ys.length = 0)
    (keys : ∀ name ∈ names ys, name ∈ names xs)
    (values : ∀ name u v, objectGet name xs = some u → (name, v) ∈ ys → Within inc u v) :
    Within inc (.object xs) (.object ys)
  | array {xs ys : List (Json D)} (count : countDiff inc xs.length ys.length = 0)
    (values : ∀ (i : Nat) u v, xs[i]? = some u → ys[i]? = some v → Within inc u v) :
    Within inc (.array xs) (.array ys)
  | string (s : Bytes) : Within inc (.string s) (.string s)

/-- Structural equality, whatever the order of the keys. -/
inductive Same : Json D → Json D → Prop
  | null : Same .null .null
  | boolean (b : Bool) : Same (.boolean b) (.boolean b)
  | double (d : D) : Same (.double d) (.double d)
  | int (i : Int) : Same (.int i) (.int i)
  | object {xs ys : List (Bytes × Json D)} (keys : ∀ name, name ∈ names xs ↔ name ∈ names ys)
    (values : ∀ name u v, (name, u) ∈ xs → (name, v) ∈ ys → Same u v) :
    Same (.object xs) (.object ys)
  | array {xs ys : List (Json D)} (values : List.Forall₂ Same xs ys) : Same (.array xs) (.array ys)
  | string (s : Bytes) : Same (.string s) (.string s)

section
variable {inc : Bool} {x y : Json D}

theorem within_type (h : Within inc x y) : x.type = y.type := by
  cases h <;> rfl

private theorem within_string {a b : Bytes} (h : Within inc (.string a : Json D) (.string b)) : a = b := by
  cases h
  rfl

theorem within_strings {ks ls : List Bytes}
    (h : Within false (.array (ks.map .string) : Json D) (.array (ls.map .string))) : ks = ls := by
  cases h with
  | array count values =>
    have hlen : ks.length = ls.length := by
      have := (countDiff_zero.mp count).2 rfl
      simpa using this
    refine List.ext_getElem hlen fun i hi hi' => ?_
    exact within_string (values i (.string ks[i]) (.string ls[i]) (by simp [hi]) (by simp [hi']))

/-- Without inclusion the count of the members makes the keys the same on both sides. -/
theorem within_false_iff_same (hx : x.WellFormed) (hy : y.WellFormed) :
    Within false x y ↔ Same x y := by
  constructor
  · intro h
    induction h with
    | null => exact .null
    | boolean b => exact .boolean b
    | double d => exact .double d
    | int i => exact .int i
    | @object xs ys count keys values ih =>
      cases hx with | object hdx _ hwx =>
      cases hy with | object hdy _ hwy =>
      have hlen : (names xs).length = (names ys).length := by
        simpa [names] using (countDiff_zero.mp count).2 rfl
      have hperm : (names ys).Perm (names xs) :=
        (List.subperm_of_subset hdy keys).perm_of_length_le (Nat.le_of_eq hlen)
      refine .object (fun name => hperm.mem_iff.symm) fun name u v hu hv => ?_
      exact ih name u v (objectGet_of_mem hdx hu) hv (hwx _ hu) (hwy _ hv)
    | @array xs ys count values ih =>
      cases hx with | array hwx =>
      cases hy with | array hwy =>
      have hlen : xs.length = ys.length := (countDiff_zero.mp count).2 rfl
      refine .array (List.forall₂_iff_get.mpr ⟨hlen, fun i hi hi' => ?_⟩)
      exact ih i _ _ (List.getElem?_eq_getElem hi) (List.getElem?_eq_getElem hi')
        (hwx _ (List.getElem_mem hi)) (hwy _ (List.getElem_mem hi'))
    | string s => exact .string s
  · intro h
    induction y using Json.induct generalizing x with
    | object ys ih =>
      cases h with
      | @object xs _ keys values =>
      cases hx with | object hdx _ hwx =>
      cases hy with | object hdy _ hwy =>
      have hperm : (names xs).Perm (names ys) :=
        (List.perm_ext_iff_of_nodup hdx hdy).mpr keys
      have hlen : xs.length = ys.length := by simpa [names] using hperm.length_eq
      refine .object (countDiff_zero.mpr ⟨Nat.le_of_eq hlen.symm, fun _ => hlen⟩) (fun name => (keys name).mpr)
        fun name u v hu hv => ?_
      have hmem := objectGet_mem hu
      exact ih _ hv (hwx _ hmem) (hwy _ hv) (values name u v hmem hv)
    | array ys ih =>
      cases h with
      | @array xs _ values =>
      cases hx with | array hwx =>
      cases hy with | array hwy =>
      obtain ⟨hlen, hget⟩ := List.forall₂_iff_get.mp values
      refine .array (countDiff_zero.mpr ⟨Nat.le_of_eq hlen.symm, fun _ => hlen⟩) fun i u v hu hv => ?_
      obtain ⟨hi, rfl⟩ := List.getElem?_eq_some_iff.mp hu
      obtain ⟨hi', rfl⟩ := List.getElem?_eq_some_iff.mp hv
      exact ih _ (List.getElem_mem hi') (hwx _ (List.getElem_mem hi)) (hwy _ (List.getElem_mem hi'))
        (hget i hi hi')
    | _ =>
      cases h
      constructor

theorem Within.refl (hx : x.WellFormed) : Within inc x x := by
  induction x using Json.induct with
  | null => exact .null
  | boolean b => exact .boolean b
  | double d => exact .double d
  | int i => exact .int i
  | object members ih =>
    cases hx with | object hd _ hw =>
    refine .object (countDiff_zero.mpr ⟨Nat.le_refl _, fun _ => rfl⟩) (fun _ h => h)
      fun name u v hu hv => ?_
    cases (objectGet_of_mem hd hv).symm.trans hu
    exact ih _ hv (hw _ hv)
  | array items ih =>
    cases hx with | array hw =>
    refine .array (countDiff_zero.mpr ⟨Nat.le_refl _, fun _ => rfl⟩) fun i u v hu hv => ?_
    cases hu.symm.trans hv
    have hmem := List.mem_of_getElem? hu
    exact ih u hmem (hw u hmem)
  | string s => exact .string s

theorem Within.trans {z : Json D} (hxy : Within inc x y) (hyz : Within inc y z) :
    Within inc x z := by
  induction hxy generalizing z with
  | @object xs ys count keys values ih =>
    cases hyz with
    | @object _ zs count' keys' values' =>
      obtain ⟨hle, heq⟩ := countDiff_zero.mp count
      obtain ⟨hle', heq'⟩ := countDiff_zero.mp count'
      refine .object (countDiff_zero.mpr ⟨Nat.le_trans hle' hle, fun h => (heq h).trans (heq' h)⟩)
        (fun name h => keys name (keys' name h)) fun name u w hu hw => ?_
      -- the key of z is one of y
      obtain ⟨v, hv⟩ := objectGet_some.mpr (keys' name (List.mem_map_of_mem hw))
      exact ih name u v hu (objectGet_mem hv) (values' name v w hv hw)
  | @array xs ys count values ih =>
    cases hyz with
    | @array _ zs count' values' =>
      obtain ⟨hle, heq⟩ := countDiff_zero.mp count
      obtain ⟨hle', heq'⟩ := countDiff_zero.mp count'
      refine .array (countDiff_zero.mpr ⟨Nat.le_trans hle' hle, fun h => (heq h).trans (heq' h)⟩)
        fun i u w hu hw => ?_
      have hi : i < ys.length :=
        Nat.lt_of_lt_of_le (List.getElem?_eq_some_iff.mp hw).1 hle'
      have hv := List.getElem?_eq_getElem hi
      exact ih i u _ hu hv (values' i _ w hv hw)
  | _ => exact hyz

/-- Values within each other have as many members and items as each other. -/
theorem Within.antisymm (hy : y.WellFormed) (hxy : Within true x y) (hyx : Within true y x) :
    Within false x y := by
  induction y using Json.induct generalizing x with
  | object ys ih =>
    cases hxy with
    | @object xs _ count keys values =>
    cases hyx with
    | object count' keys' values' =>
    cases hy with | object hd _ hw =>
    have hle := (countDiff_zero.mp count).1
    have hle' := (countDiff_zero.mp count').1
    refine .object (countDiff_zero.mpr ⟨hle, fun _ => Nat.le_antisymm hle' hle⟩) keys
      fun name u v hu hv => ?_
    exact ih _ hv (hw _ hv) (values name u v hu hv)
      (values' name v u (objectGet_of_mem hd hv) (objectGet_mem hu))
  | array ys ih =>
    cases hxy with
    | @array xs _ count values =>
    cases hyx with
    | array count' values' =>
    cases hy with | array hw =>
    have hle := (countDiff_zero.mp count).1
    have hle' := (countDiff_zero.mp count').1
    refine .array (countDiff_zero.mpr ⟨hle, fun _ => Nat.le_antisymm hle' hle⟩)
      fun i u v hu hv => ?_
    have hmem := List.mem_of_getElem? hv
    exact ih v hmem (hw v hmem) (values i u v hu hv) (values' i v u hv hu)
  | _ =>
    cases hxy
    constructor

theorem Within.weaken (h : Within false x y) : Within true x y := by
  induction h with
  | object count keys _ ih =>
    exact .object (countDiff_zero.mpr ⟨(countDiff_zero.mp count).1, fun h => by cases h⟩) keys ih
  | array count _ ih =>
    exact .array (countDiff_zero.mpr ⟨(countDiff_zero.mp count).1, fun h => by cases h⟩) ih
  | null => exact .null
  | boolean b => exact .boolean b
  | double d => exact .double d
  | int i => exact .int i
  | string s => exact .string s

theorem Same.symm (h : Same x y) : Same y x := by
  induction y using Json.induct generalizing x with
  | object ys ih =>
    cases h with
    | object keys values =>
      exact .object (fun name => (keys name).symm) fun name v u hv hu =>
        ih _ hv (values name u v hu hv)
  | array ys ih =>
    cases h with
    | @array xs _ values =>
      refine .array (List.forall₂_iff_get.mpr ?_)
      obtain ⟨hlen, hget⟩ := List.forall₂_iff_get.mp values
      exact ⟨hlen.symm, fun i hi hi' => ih _ (List.getElem_mem hi) (hget i hi' hi)⟩
  | _ =>
    cases h
    constructor

end

end AfbBinder.WrapJson
