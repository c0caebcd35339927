import Mathlib.Order.Nat
import AfbBinder.Lib.Lists
import AfbBinder.WrapJson.KeyOrders

/-! What the sorts need of wrap_json_cmp, and when they have it. -/
namespace AfbBinder.WrapJson
open Lib.Cstrings Lib.Orderings

variable {D : Type}

/-- What a sort needs of the comparison of the values that it sorts, whatever orders the calls of
the comparison give to the lists of keys. -/
structure Sorts [LinearOrder D] (S : Set (Value D)) : Prop where
  opposite : ∀ x ∈ S, ∀ y ∈ S, ∀ s t : ArraySort D, ∃ r q, wrapJsonCmp s x.json y.json = some r ∧
    wrapJsonCmp t y.json x.json = some q ∧ r.sign = -q.sign
  trans : ∀ x ∈ S, ∀ y ∈ S, ∀ z ∈ S, ∀ (s t u : ArraySort D) (r q p : Int),
    wrapJsonCmp s x.json y.json = some r → wrapJsonCmp t y.json z.json = some q →
    wrapJsonCmp u x.json z.json = some p → r ≤ 0 → q ≤ 0 → p ≤ 0

/-- No key of the first list comes after one of the second. -/
def KeysBefore (ks ls : List Bytes) : Prop := ∀ a ∈ ks, ∀ b ∈ ls, strcmp a b ≠ .gt

/-- Objects with as many keys list the same keys first, and then have no key of each other's at
their first difference. If they do not list the same keys, those of one come before those of the
other, but for one that both may have: their order in the memory then does not matter. -/
structure Consistent (orders : Set KeyList) : Prop where
  apart : ∀ k ∈ orders, ∀ l ∈ orders, k.keys.length = l.keys.length → Apart k.keys l.keys
  before : ∀ k ∈ orders, ∀ l ∈ orders, k.keys.length = l.keys.length → k.keys ≠ l.keys →
    KeysBefore k.keys l.keys ∨ KeysBefore l.keys k.keys

/-- What a sort needs when every call gives the same orders to the lists of keys. -/
structure SortsBy [LinearOrder D] (sort : ArraySort D) (S : Set (Value D)) : Prop where
  opposite : ∀ x ∈ S, ∀ y ∈ S, ∃ r q, wrapJsonCmp sort x.json y.json = some r ∧
    wrapJsonCmp sort y.json x.json = some q ∧ r.sign = -q.sign
  trans : ∀ x ∈ S, ∀ y ∈ S, ∀ z ∈ S, ∀ r q p, wrapJsonCmp sort x.json y.json = some r →
    wrapJsonCmp sort y.json z.json = some q → wrapJsonCmp sort x.json z.json = some p →
    r ≤ 0 → q ≤ 0 → p ≤ 0

section
variable {sort : ArraySort D} {orders : Set KeyList}

/-- The values that list their keys in the given ways. -/
def valuesOf (D : Type) (orders : Set KeyList) : Set (Value D) := {x | x.json.Uses orders}

/-! Objects of numbers, where a list of keys meets another. -/

def numbered (D : Type) (ks : List Bytes) (f : Bytes → Int) : List (Bytes × Json D) :=
  ks.map fun k => (k, .int (f k))

@[simp] theorem names_numbered (ks : List Bytes) (f : Bytes → Int) :
    names (numbered D ks f) = ks := by
  rw [names, numbered, List.map_map]
  exact List.map_id _

private theorem objectGet_numbered {ks : List Bytes} {k : Bytes} (f : Bytes → Int) (hk : k ∈ ks) :
    objectGet k (numbered D ks f) = some (.int (f k)) := by
  obtain ⟨v, hv⟩ := objectGet_some.mpr (by rwa [names_numbered] : k ∈ names (numbered D ks f))
  obtain ⟨l, -, he⟩ := List.mem_map.mp (objectGet_mem hv)
  obtain ⟨rfl, rfl⟩ := Prod.mk.inj he
  exact hv

def numbers (D : Type) (l : KeyList) (f : Bytes → Int) : Value D where
  json := .object (numbered D l.keys f)
  wellFormed := by
    refine .object (by rw [names_numbered]; exact l.distinct) (by rw [names_numbered]; exact l.noNul)
      fun m hm => ?_
    obtain ⟨k, -, rfl⟩ := List.mem_map.mp hm
    exact .int _

private theorem numbers_uses {l : KeyList} (hl : l ∈ orders) (f : Bytes → Int) :
    numbers D l f ∈ valuesOf D orders := by
  refine .object ⟨l, hl, (names_numbered ..).symm⟩ fun m hm => ?_
  obtain ⟨k, -, rfl⟩ := List.mem_map.mp hm
  exact .int _

variable [LinearOrder D]

private theorem sign_eq_of_order {r q : Int} (h : compare q 0 = (compare r 0).swap) : r.sign = -q.sign := by
  rcases lt_trichotomy r 0 with hr | rfl | hr
  · rw [compare_lt_iff_lt.mpr hr] at h
    rw [Int.sign_eq_neg_one_of_neg hr, Int.sign_eq_one_of_pos (compare_gt_iff_gt.mp h)]
  · have hq : q = 0 := compare_eq_iff_eq.mp h
    rw [hq]
    rfl
  · rw [compare_gt_iff_gt.mpr hr] at h
    rw [Int.sign_eq_one_of_pos hr, Int.sign_eq_neg_one_of_neg (compare_lt_iff_lt.mp h)]
    rfl

private theorem compare_ne_gt {r : Int} : compare r 0 ≠ .gt ↔ r ≤ 0 := by
  rw [Ne, compare_gt_iff_gt, not_lt]

private theorem sortsBy_of_consistentFor (hc : ConsistentFor sort orders) : SortsBy sort
    (valuesOf D orders) := by
  constructor
  · intro x hx y hy
    obtain ⟨r, hr, hor⟩ := order_eq sort x.json y.json
    obtain ⟨q, hq, hoq⟩ := order_eq sort y.json x.json
    refine ⟨r, q, hr, hq, sign_eq_of_order ?_⟩
    rw [← hor, ← hoq]
    exact order_swap hc hx hy
  · intro x hx y hy z hz r q p hr hq hp hr0 hq0
    have ho : ∀ {u v : Json D} {n : Int}, wrapJsonCmp sort u v = some n →
        order sort u v = compare n 0 := fun h => by rw [order, h]; rfl
    have hcomp := order_composes hc hx hy hz
    rw [ho hr, ho hq, ho hp] at hcomp
    have h₁ := compare_ne_gt.mpr hr0
    have h₂ := compare_ne_gt.mpr hq0
    refine compare_ne_gt.mp fun h => ?_
    rw [hcomp h₁ h₂] at h
    cases hc₁ : compare r 0 with
    | gt => exact h₁ hc₁
    | lt =>
      rw [hc₁] at h
      cases h
    | eq =>
      rw [hc₁] at h
      exact h₂ h

/-- Keys with the same numbers are passed. -/
theorem sign_prefix {ks p : List Bytes} {f g : Bytes → Int} (ys rest : List (Bytes × Json D))
    (hp : ∀ k ∈ p, k ∈ ks ∧ f k = g k) :
    sign (jcmpMembers (keysCmp sort) false true (numbered D ks f) ys (numbered D p g ++ rest)) =
      sign (jcmpMembers (keysCmp sort) false true (numbered D ks f) ys rest) := by
  induction p with
  | nil => rfl
  | cons k p ih =>
    obtain ⟨hk, hfg⟩ := hp k List.mem_cons_self
    have hcons : numbered D (k :: p) g ++ rest = (k, .int (g k)) :: (numbered D p g ++ rest) := rfl
    rw [hcons, sign_found (objectGet_numbered f hk), order_int, compare_eq_iff_eq.mpr hfg]
    exact ih fun l hl => hp l (List.mem_cons_of_mem _ hl)

private theorem order_numbers {k l : KeyList} {f g : Bytes → Int} {p ls : List Bytes} {b : Bytes}
    (hlen : k.keys.length = l.keys.length) (hl : l.keys = p ++ b :: ls)
    (hp : ∀ a ∈ p, a ∈ k.keys ∧ f a = g a) :
    order sort (numbers D k f).json (numbers D l g).json =
      sign (jcmpMembers (keysCmp sort) false true (numbered D k.keys f) (numbered D l.keys g)
        ((b, .int (g b)) :: numbered D ls g)) := by
  have hcount : (numbered D k.keys f).length = (numbered D l.keys g).length := by
    rw [numbered, numbered, List.length_map, List.length_map, hlen]
  have hsplit : numbered D l.keys g = numbered D p g ++ (b, .int (g b)) :: numbered D ls g := by
    rw [hl, numbered, List.map_append]
    rfl
  have hloop : sign (jcmpMembers (keysCmp sort) false true (numbered D k.keys f)
      (numbered D l.keys g) (numbered D p g ++ (b, .int (g b)) :: numbered D ls g)) = _ :=
    sign_prefix _ _ hp
  rw [← hsplit] at hloop
  rw [order, wrapJsonCmp, jcmp, numbers, numbers, jcmpWith, sign_counts, if_pos hcount,
    compare_eq_iff_eq.mpr hcount, hloop]
  rfl

/-- At the first key that both have with different numbers, the numbers decide. -/
theorem order_numbers_found {k l : KeyList} {f g : Bytes → Int} {p ls : List Bytes} {b : Bytes}
    (hlen : k.keys.length = l.keys.length) (hl : l.keys = p ++ b :: ls)
    (hp : ∀ a ∈ p, a ∈ k.keys ∧ f a = g a) (hb : b ∈ k.keys) (hne : f b ≠ g b) :
    order sort (numbers D k f).json (numbers D l g).json = compare (f b) (g b) := by
  rw [order_numbers hlen hl hp, sign_found (objectGet_numbered f hb), order_int]
  cases h : compare (f b) (g b) with
  | eq => exact absurd (compare_eq_iff_eq.mp h) hne
  | lt => rfl
  | gt => rfl

/-- At a key that the first lacks, the lists of keys decide. -/
theorem order_numbers_missing {k l : KeyList} {f g : Bytes → Int} {p ls : List Bytes} {b : Bytes}
    (hlen : k.keys.length = l.keys.length) (hl : l.keys = p ++ b :: ls)
    (hp : ∀ a ∈ p, a ∈ k.keys ∧ f a = g a) (hb : b ∉ k.keys) :
    order sort (numbers D k f).json (numbers D l g).json =
      compare (sortedKeys sort k.keys) (sortedKeys sort l.keys) := by
  rw [order_numbers hlen hl hp, sign_missing, names_numbered, names_numbered]
  · rw [numbered, numbered, List.length_map, List.length_map, hlen]
  · rw [names_numbered, hl]
    simp
  · rwa [names_numbered]

private theorem SortsBy.swap (h : SortsBy sort (valuesOf D orders)) {x y : Value D}
    (hx : x ∈ valuesOf D orders) (hy : y ∈ valuesOf D orders) :
    order sort y.json x.json = (order sort x.json y.json).swap := by
  obtain ⟨r, q, hr, hq, hsign⟩ := h.opposite x hx y hy
  rw [order, order, hr, hq]
  change compare q 0 = (compare r 0).swap
  rcases lt_trichotomy r 0 with hr0 | rfl | hr0
  · rw [Int.sign_eq_neg_one_of_neg hr0] at hsign
    rw [compare_lt_iff_lt.mpr hr0, compare_gt_iff_gt.mpr (Int.sign_eq_one_iff_pos.mp (by omega))]
    rfl
  · have hq0 : q = 0 := Int.sign_eq_zero_iff_zero.mp (by simpa using hsign.symm)
    rw [hq0]
    rfl
  · rw [Int.sign_eq_one_of_pos hr0] at hsign
    rw [compare_gt_iff_gt.mpr hr0,
      compare_lt_iff_lt.mpr (Int.sign_eq_neg_one_iff_neg.mp (by omega))]
    rfl

private theorem SortsBy.not_gt (h : SortsBy sort (valuesOf D orders)) {x y z : Value D}
    (hx : x ∈ valuesOf D orders) (hy : y ∈ valuesOf D orders) (hz : z ∈ valuesOf D orders)
    (hxy : order sort x.json y.json = .lt) (hyz : order sort y.json z.json = .lt) :
    order sort x.json z.json ≠ .gt := by
  obtain ⟨r, hr, hor⟩ := order_eq sort x.json y.json
  obtain ⟨q, hq, hoq⟩ := order_eq sort y.json z.json
  obtain ⟨p, hp, hop⟩ := order_eq sort x.json z.json
  rw [hor] at hxy
  rw [hoq] at hyz
  rw [hop, compare_ne_gt]
  exact h.trans x hx y hy z hz r q p hr hq hp (compare_lt_iff_lt.mp hxy).le
    (compare_lt_iff_lt.mp hyz).le

/-- The keys before a place of two lists are common, and not those at that place. -/
theorem prefix_common {k l : KeyList} {p ks ls : List Bytes} {a b : Bytes}
    (hk : k.keys = p ++ a :: ks) (hl : l.keys = p ++ b :: ls) {c : Bytes} (hc : c ∈ p) :
    c ∈ k.keys ∧ c ≠ a ∧ c ≠ b := by
  have hdk := hk ▸ k.distinct
  have hdl := hl ▸ l.distinct
  refine ⟨by rw [hk]; exact List.mem_append_left _ hc, ?_, ?_⟩
  · rintro rfl
    exact (List.nodup_append.mp hdk).2.2 c hc c List.mem_cons_self rfl
  · rintro rfl
    exact (List.nodup_append.mp hdl).2.2 c hc c List.mem_cons_self rfl

/-- Numbers at two keys, the first if they are the same. -/
def numbersAt (b : Bytes) (m : Int) (a : Bytes) (n : Int) (c : Bytes) : Int :=
  if c = b then m else if c = a then n else 0

/-- If the first list had the key of the second at the difference, two objects would be on the
same side of each other. -/
theorem SortsBy.missing (h : SortsBy sort (valuesOf D orders)) {k l : KeyList} (hk : k ∈ orders)
    (hl : l ∈ orders) (hlen : k.keys.length = l.keys.length) {p ks ls : List Bytes} {a b : Bytes}
    (hks : k.keys = p ++ a :: ks) (hls : l.keys = p ++ b :: ls) (hne : a ≠ b) : b ∉ k.keys := by
  intro hb
  have hcommon : ∀ (m n : Int), ∀ c ∈ p, numbersAt b m a n c = 0 := by
    intro m n c hc
    obtain ⟨-, hca, hcb⟩ := prefix_common hks hls hc
    rw [numbersAt, if_neg hcb, if_neg hca]
  -- the object of the first list, against the one of the second list with zeros
  have hxy : ∀ m n : Int, m ≠ 0 → order sort (numbers D k (numbersAt b m a n)).json
      (numbers D l fun _ => 0).json = compare m 0 := by
    intro m n hm
    have hbm : numbersAt b m a n b = m := if_pos rfl
    rw [order_numbers_found hlen hls
      (fun c hc => ⟨(prefix_common hks hls hc).1, hcommon m n c hc⟩) hb (by rw [hbm]; exact hm), hbm]
  have hswap : ∀ m n : Int, _ = _ := fun m n =>
    h.swap (numbers_uses hk (numbersAt b m a n)) (numbers_uses hl fun _ => 0)
  have hback : ∀ (m n : Int), ∀ c ∈ p, c ∈ l.keys ∧ 0 = numbersAt b m a n c := fun m n c hc =>
    ⟨(prefix_common hls hks hc).1, (hcommon m n c hc).symm⟩
  by_cases ha : a ∈ l.keys
  · have han : numbersAt b 1 a (-1) a = -1 := by simp [numbersAt, hne]
    have hyx : order sort (numbers D l fun _ => 0).json
        (numbers D k (numbersAt b 1 a (-1))).json = compare 0 (numbersAt b 1 a (-1) a) :=
      order_numbers_found hlen.symm hks (hback 1 (-1)) ha (by rw [han]; decide)
    have hsame := hswap 1 (-1)
    rw [hyx, hxy 1 (-1) (by decide), han] at hsame
    exact absurd hsame (by decide)
  · have hyx : ∀ m : Int, order sort (numbers D l fun _ => 0).json
        (numbers D k (numbersAt b m a 0)).json =
          compare (sortedKeys sort l.keys) (sortedKeys sort k.keys) :=
      fun m => order_numbers_missing hlen.symm hks (hback m 0) ha
    have hgt := hswap 1 0
    have hlt := hswap (-1) 0
    rw [hyx, hxy 1 0 (by decide)] at hgt
    rw [hyx, hxy (-1) 0 (by decide)] at hlt
    exact absurd (hgt.symm.trans hlt) (by decide)

/-- Between two lists that differ later, an object of a third cannot come. -/
theorem SortsBy.beside (h : SortsBy sort (valuesOf D orders)) {k l m : KeyList} (hk : k ∈ orders)
    (hl : l ∈ orders) (hm : m ∈ orders) (hkl : k.keys.length = l.keys.length)
    (hkm : k.keys.length = m.keys.length) {p ks ls ms : List Bytes} {a b : Bytes}
    (hks : k.keys = p ++ a :: ks) (hls : l.keys = p ++ b :: ls) (hms : m.keys = p ++ b :: ms)
    (hne : a ≠ b) :
    ¬ (compare (sortedKeys sort k.keys) (sortedKeys sort l.keys) = .gt ∧
      compare (sortedKeys sort k.keys) (sortedKeys sort m.keys) = .lt) := by
  rintro ⟨hgt, hlt⟩
  have hcommon : ∀ n : Int, ∀ c ∈ p, numbersAt b n b n c = 0 := by
    intro n c hc
    obtain ⟨-, -, hcb⟩ := prefix_common hks hls hc
    rw [numbersAt, if_neg hcb, if_neg hcb]
  have hbn : ∀ n : Int, numbersAt b n b n b = n := fun n => if_pos rfl
  have hbk := h.missing hk hl hkl hks hls hne
  -- the object of the third list, then one of the second, then one of the first again
  have hxz : order sort (numbers D k fun _ => 0).json (numbers D m (numbersAt b 0 b 0)).json =
      .lt := by
    rw [order_numbers_missing hkm hms (fun c hc => ⟨(prefix_common hks hls hc).1,
      (hcommon 0 c hc).symm⟩) hbk, hlt]
  have hzy : order sort (numbers D m (numbersAt b 0 b 0)).json
      (numbers D l (numbersAt b 1 b 1)).json = .lt := by
    rw [order_numbers_found (hkm.symm.trans hkl) hls (fun c hc =>
      ⟨(prefix_common hms hks hc).1, (hcommon 0 c hc).trans (hcommon 1 c hc).symm⟩)
      (by rw [hms]; simp) (by rw [hbn, hbn]; decide), hbn, hbn]
    rfl
  refine h.not_gt (numbers_uses hk _) (numbers_uses hm _) (numbers_uses hl _) hxz hzy ?_
  rw [order_numbers_missing hkl hls (fun c hc => ⟨(prefix_common hks hls hc).1,
    (hcommon 1 c hc).symm⟩) hbk, hgt]

private theorem consistentFor_of_sortsBy (h : SortsBy sort (valuesOf D orders)) :
    ConsistentFor sort orders := by
  have hapart : ∀ k ∈ orders, ∀ l ∈ orders, k.keys.length = l.keys.length →
      Apart k.keys l.keys := by
    intro k hk l hl hlen p a b ks ls hks hls hne
    exact ⟨h.missing hl hk hlen.symm hls hks (Ne.symm hne), h.missing hk hl hlen hks hls hne⟩
  refine ⟨hapart, ?_⟩
  intro k hk l hl m hm hkl hkm p a b ks ls ms hks hls hms hne
  have ha : a ∈ k.keys := by
    rw [hks]
    simp
  have hkl0 := sortedKeys_ne sort ha (hapart k hk l hl hkl p a b _ _ hks hls hne).1
  have hkm0 := sortedKeys_ne sort ha (hapart k hk m hm hkm p a b _ _ hks hms hne).1
  have h₁ := h.beside hk hl hm hkl hkm hks hls hms hne
  have h₂ := h.beside hk hm hl hkm hkl hks hms hls hne
  cases hc : compare (sortedKeys sort k.keys) (sortedKeys sort l.keys) with
  | eq => exact absurd hc hkl0
  | lt =>
    cases hc' : compare (sortedKeys sort k.keys) (sortedKeys sort m.keys) with
    | eq => exact absurd hc' hkm0
    | lt => rfl
    | gt => exact absurd ⟨hc', hc⟩ h₂
  | gt =>
    cases hc' : compare (sortedKeys sort k.keys) (sortedKeys sort m.keys) with
    | eq => exact absurd hc' hkm0
    | gt => rfl
    | lt => exact absurd ⟨hc, hc'⟩ h₁

end

/-! The orders that the calls give to the lists of keys. -/

section
variable {orders : Set KeyList} {k l : KeyList}

private theorem KeysBefore.compare_sortedKeys {ks ls : List Bytes} (hb : KeysBefore ks ls) (s : ArraySort D)
    (hlen : ks.length = ls.length) {a : Bytes} (ha : a ∈ ks) (hl : a ∉ ls) :
    compare (sortedKeys s ks) (sortedKeys s ls) = .lt := by
  have hk := (sortedKeys_spec s ks).2
  have hl' := (sortedKeys_spec s ls).2
  refine compare_lists (fun c hc d hd => hb c (hk.mem_iff.mp hc) d (hl'.mem_iff.mp hd))
    (hk.length_eq.trans (hlen.trans hl'.length_eq.symm)) fun hsame => hl ?_
  exact hl'.mem_iff.mp (hsame ▸ hk.mem_iff.mpr ha)

private theorem Consistent.differ (hc : Consistent orders) (hk : k ∈ orders) (hl : l ∈ orders)
    (hlen : k.keys.length = l.keys.length) (hne : k.keys ≠ l.keys) :
    ∃ a b, a ∈ k.keys ∧ a ∉ l.keys ∧ b ∈ l.keys ∧ b ∉ k.keys := by
  obtain ⟨p, a, b, ks, ls, hks, hls, hab⟩ := Lib.Lists.first_difference hlen hne
  obtain ⟨ha, hb⟩ := hc.apart k hk l hl hlen p a b ks ls hks hls hab
  exact ⟨a, b, by rw [hks]; simp, ha, by rw [hls]; simp, hb⟩

/-- The fallback gives the same sign whatever orders the lists of keys get. -/
theorem Consistent.compare_sortedKeys (hc : Consistent orders) (hk : k ∈ orders) (hl : l ∈ orders)
    (hlen : k.keys.length = l.keys.length) (hne : k.keys ≠ l.keys) :
    (KeysBefore k.keys l.keys ∧
      ∀ s : ArraySort D, compare (sortedKeys s k.keys) (sortedKeys s l.keys) = .lt) ∨
    (KeysBefore l.keys k.keys ∧
      ∀ s : ArraySort D, compare (sortedKeys s k.keys) (sortedKeys s l.keys) = .gt) := by
  obtain ⟨a, b, hak, hal, hbl, hbk⟩ := hc.differ hk hl hlen hne
  rcases hc.before k hk l hl hlen hne with hb | hb
  · exact .inl ⟨hb, fun s => hb.compare_sortedKeys s hlen hak hal⟩
  · refine .inr ⟨hb, fun s => ?_⟩
    rw [compare_swap (sortedKeys s l.keys), hb.compare_sortedKeys s hlen.symm hbl hbk]
    rfl

private theorem Consistent.consistentFor (hc : Consistent orders) (s : ArraySort D) :
    ConsistentFor s orders := by
  refine ⟨hc.apart, ?_⟩
  intro k hk l hl m hm hkl hkm p a b ks ls ms hks hls hms hne
  have ha : a ∈ k.keys := by simp [hks]
  have hb : b ∈ l.keys ∧ b ∈ m.keys := by simp [hls, hms]
  have hnot : ∀ {j : KeyList} {js : List Bytes}, j.keys = p ++ b :: js → k.keys ≠ j.keys := by
    intro j js hj h
    exact hne (List.cons.inj (List.append_cancel_left (hks.symm.trans (h.trans hj)))).1
  -- a key that both others have cannot be before and after the key of the first
  have hmixed : ¬ (strcmp a b ≠ .gt ∧ strcmp b a ≠ .gt) := by
    rintro ⟨hab, hba⟩
    unfold strcmp at hab hba
    rw [compare_swap a b] at hba
    cases h : compare a b with
    | lt => exact hba (by rw [h]; rfl)
    | eq => exact hne (Std.LawfulEqOrd.eq_of_compare h)
    | gt => exact hab h
  rcases hc.compare_sortedKeys (D := D) hk hl hkl (hnot hls) with ⟨hkl', h₁⟩ | ⟨hlk, h₁⟩
  · rcases hc.compare_sortedKeys (D := D) hk hm hkm (hnot hms) with ⟨-, h₂⟩ | ⟨hmk, h₂⟩
    · rw [h₁, h₂]
    · exact absurd ⟨hkl' a ha b hb.1, hmk b hb.2 a ha⟩ hmixed
  · rcases hc.compare_sortedKeys (D := D) hk hm hkm (hnot hms) with ⟨hkm', h₂⟩ | ⟨-, h₂⟩
    · exact absurd ⟨hkm' a ha b hb.2, hlk b hb.1 a ha⟩ hmixed
    · rw [h₁, h₂]

variable [LinearOrder D] {x y : Json D} {s t : ArraySort D}

private theorem itemsOrder_congr {xs ys : List (Json D)} (hv : ∀ u ∈ xs, ∀ v ∈ ys, order s u v = order t u v) :
    itemsOrder s xs ys = itemsOrder t xs ys := by
  induction xs generalizing ys with
  | nil => rfl
  | cons x xs ih =>
    obtain - | ⟨y, ys⟩ := ys
    · rfl
    rw [itemsOrder, itemsOrder, hv x List.mem_cons_self y List.mem_cons_self,
      ih fun u hu v hv' => hv u (List.mem_cons_of_mem _ hu) v (List.mem_cons_of_mem _ hv')]

/-- The order of the lists of keys is asked for only when they differ. -/
theorem membersOrder_congr {xs ys : List (Bytes × Json D)} {o₁ o₂ : Ordering}
    (hkeys : names xs ≠ names ys → o₁ = o₂) (hv : ∀ u ∈ xs, ∀ v ∈ ys, order s u.2 v.2 = order t u.2 v.2) :
    membersOrder s o₁ xs ys = membersOrder t o₂ xs ys := by
  induction xs generalizing ys with
  | nil => rfl
  | cons x xs ih =>
    obtain - | ⟨y, ys⟩ := ys
    · rfl
    rw [membersOrder, membersOrder]
    by_cases hk : x.1 = y.1
    · rw [if_pos hk, if_pos hk, hv x List.mem_cons_self y List.mem_cons_self,
        ih (fun h => hkeys fun hsame => h (List.cons.inj hsame).2) fun u hu v hv' =>
          hv u (List.mem_cons_of_mem _ hu) v (List.mem_cons_of_mem _ hv')]
    · rw [if_neg hk, if_neg hk]
      exact hkeys fun hsame => hk (List.cons.inj hsame).1

private theorem order_congr_of_type (h : x.type = y.type → order s x y = order t x y) :
    order s x y = order t x y := by
  rw [@order_type D _ s x y, @order_type D _ t x y]
  by_cases ht : x.type = y.type
  · rw [h ht]
  · cases hc : compare x.type y.type with
    | eq => exact absurd (compare_eq_iff_eq.mp hc) ht
    | lt => rfl
    | gt => rfl

/-- Values that list their keys in consistent orders compare alike in all calls. -/
theorem Consistent.order_eq (hc : Consistent orders) (s t : ArraySort D) (hx : x.Uses orders)
    (hy : y.Uses orders) : order s x y = order t x y := by
  induction y using Json.induct generalizing x with
  | object ys ih =>
    refine order_congr_of_type fun ht => ?_
    cases hx with
    | @object xs hkx hvx =>
      cases hy with
      | object hky hvy =>
      obtain ⟨k, hk, hkeys⟩ := hkx
      obtain ⟨l, hl, hkeys'⟩ := hky
      have ha := apart_names hc.apart hk hl hkeys hkeys'
      rw [order_object (hkeys ▸ k.distinct) ha, order_object (hkeys ▸ k.distinct) ha]
      congr 1
      by_cases h : xs.length = ys.length
      · rw [if_pos h, if_pos h]
        refine membersOrder_congr (fun hne => ?_) fun u hu v hv => ih v hv (hvx u hu) (hvy v hv)
        have hlen : k.keys.length = l.keys.length := by rw [length_keys hkeys, length_keys hkeys', h]
        rw [← hkeys, ← hkeys'] at hne ⊢
        rcases hc.compare_sortedKeys (D := D) hk hl hlen hne with ⟨-, hsame⟩ | ⟨-, hsame⟩
        all_goals rw [hsame, hsame]
      · rw [if_neg h, if_neg h]
    | _ => simp [Json.type] at ht
  | array ys ih =>
    refine order_congr_of_type fun ht => ?_
    cases hx with
    | @array xs hvx =>
      cases hy with
      | array hvy =>
      rw [order_array, order_array,
        itemsOrder_congr fun u hu v hv => ih v hv (hvx u hu) (hvy v hv)]
    | _ => simp [Json.type] at ht
  | null =>
    refine order_congr_of_type fun ht => ?_
    cases x with
    | null => rfl
    | _ => simp [Json.type] at ht
  | boolean b =>
    refine order_congr_of_type fun ht => ?_
    cases x with
    | boolean a => rw [order_boolean, order_boolean]
    | _ => simp [Json.type] at ht
  | double b =>
    refine order_congr_of_type fun ht => ?_
    cases x with
    | double a => rw [order_double, order_double]
    | _ => simp [Json.type] at ht
  | int b =>
    refine order_congr_of_type fun ht => ?_
    cases x with
    | int a => rw [order_int, order_int]
    | _ => simp [Json.type] at ht
  | string b =>
    refine order_congr_of_type fun ht => ?_
    cases x with
    | string a => rw [order_string, order_string]
    | _ => simp [Json.type] at ht

end

/-! A set of values that a sort can sort has its keys in consistent orders. -/

section
variable {orders : Set KeyList}

/-- A sort that gives one of the keys first, of each of two lists. -/
noncomputable def firstSort (D : Type) {ks ls : List Bytes} {u v : Bytes} (hu : u ∈ ks) (hv : v ∈ ls) :
    ArraySort D where
  run := open Classical in fun items =>
    if items = ks.map .string then (u :: ks.erase u).map .string
    else if items = ls.map .string then (v :: ls.erase v).map .string else items
  perm items := by
    split_ifs with hk hl
    · rw [hk]
      exact (List.perm_cons_erase hu).symm.map _
    · rw [hl]
      exact (List.perm_cons_erase hv).symm.map _
    · exact .refl _

private theorem map_text (ks : List Bytes) : (ks.map (Json.string (D := D))).map Json.text = ks := by
  rw [List.map_map]
  exact List.map_id _

private theorem firstSort_keys {ks ls : List Bytes} {u v : Bytes} (hu : u ∈ ks) (hv : v ∈ ls) (hne : ks ≠ ls) :
    sortedKeys (firstSort D hu hv) ks = u :: ks.erase u ∧
      sortedKeys (firstSort D hu hv) ls = v :: ls.erase v := by
  have hls : ls.map (Json.string (D := D)) ≠ ks.map .string := by
    intro h
    have h' := congrArg (List.map Json.text) h
    rw [map_text, map_text] at h'
    exact hne h'.symm
  unfold sortedKeys firstSort
  dsimp only
  rw [if_pos rfl, if_neg hls, if_pos rfl, map_text, map_text]
  exact ⟨rfl, rfl⟩

variable [LinearOrder D]

private theorem Sorts.sortsBy (h : Sorts (valuesOf D orders)) (s : ArraySort D) : SortsBy s
    (valuesOf D orders) :=
  ⟨fun x hx y hy => h.opposite x hx y hy s s,
    fun x hx y hy z hz r q p hr hq hp => h.trans x hx y hy z hz s s s r q p hr hq hp⟩

/-- The order of two values is the same in all calls. -/
theorem Sorts.order_eq (h : Sorts (valuesOf D orders)) {x y : Value D} (hx : x ∈ valuesOf D orders)
    (hy : y ∈ valuesOf D orders) (s t : ArraySort D) : order s x.json y.json = order t x.json y.json := by
  obtain ⟨r, q, hr, hq, hsign⟩ := h.opposite x hx y hy s s
  obtain ⟨r', q', hr', hq', hsign'⟩ := h.opposite x hx y hy t s
  cases hq.symm.trans hq'
  rw [order, order, hr, hr']
  change compare r 0 = compare r' 0
  have hsame : r.sign = r'.sign := by rw [hsign, hsign']
  rcases lt_trichotomy r 0 with h0 | rfl | h0
  · rw [compare_lt_iff_lt.mpr h0, compare_lt_iff_lt.mpr]
    exact Int.sign_eq_neg_one_iff_neg.mp (hsame ▸ Int.sign_eq_neg_one_of_neg h0)
  · rw [Int.sign_eq_zero_iff_zero.mp hsame.symm]
  · rw [compare_gt_iff_gt.mpr h0, compare_gt_iff_gt.mpr]
    exact Int.sign_eq_one_iff_pos.mp (hsame ▸ Int.sign_eq_one_of_pos h0)

private theorem consistent_of_sorts (h : Sorts (valuesOf D orders)) : Consistent orders := by
  have hfor := fun s => consistentFor_of_sortsBy (h.sortsBy s)
  refine ⟨(hfor ⟨id, fun _ => .refl _⟩).apart, ?_⟩
  intro k hk l hl hlen hne
  by_contra hnot
  simp only [KeysBefore, not_or, not_forall, not_not] at hnot
  obtain ⟨⟨a, ha, b, hb, hab⟩, c, hc, d, hd, hcd⟩ := hnot
  obtain ⟨p, e, f, ks, ls, hks, hls, hef⟩ := Lib.Lists.first_difference hlen hne
  have hf : f ∉ k.keys := ((hfor ⟨id, fun _ => .refl _⟩).apart k hk l hl hlen p e f ks ls hks hls hef).2
  -- two objects of zeros, that only the lists of keys tell apart
  have horder (s : ArraySort D) : order s (numbers D k fun _ => 0).json (numbers D l fun _ => 0).json =
      compare (sortedKeys s k.keys) (sortedKeys s l.keys) :=
    order_numbers_missing hlen hls (fun c hc => ⟨(prefix_common hks hls hc).1, rfl⟩) hf
  have hsame := h.order_eq (numbers_uses hk fun _ => 0) (numbers_uses hl fun _ => 0)
    (firstSort D ha hb) (firstSort D hd hc)
  rw [horder, horder, (firstSort_keys ha hb hne).1, (firstSort_keys ha hb hne).2,
    (firstSort_keys hd hc hne).1, (firstSort_keys hd hc hne).2, List.compare_cons_cons,
    List.compare_cons_cons] at hsame
  unfold strcmp at hab hcd
  rw [hab, compare_swap c d, hcd] at hsame
  cases hsame

private theorem sorts_of_consistent (hc : Consistent orders) : Sorts (valuesOf D orders) := by
  have hby := fun s : ArraySort D => sortsBy_of_consistentFor (hc.consistentFor s)
  constructor
  · intro x hx y hy s t
    obtain ⟨r, hr, hor⟩ := order_eq s x.json y.json
    obtain ⟨q, hq, hoq⟩ := order_eq t y.json x.json
    refine ⟨r, q, hr, hq, sign_eq_of_order ?_⟩
    rw [← hor, ← hoq, hc.order_eq t s hy hx]
    exact (hby s).swap hx hy
  · intro x hx y hy z hz s t u r q p hr hq hp hr0 hq0
    have hsame : ∀ {v w : Json D} {n : Int} {t : ArraySort D}, v.Uses orders → w.Uses orders →
        wrapJsonCmp t v w = some n → ∃ m, wrapJsonCmp s v w = some m ∧ compare m 0 = compare n 0 := by
      intro v w n t hv hw hn
      obtain ⟨m, hm, hom⟩ := order_eq s v w
      refine ⟨m, hm, ?_⟩
      rw [← hom, hc.order_eq s t hv hw, order, hn]
      rfl
    obtain ⟨q', hq', hqs⟩ := hsame hy hz hq
    obtain ⟨p', hp', hps⟩ := hsame hx hz hp
    rw [← compare_ne_gt, ← hqs, compare_ne_gt] at hq0
    rw [← compare_ne_gt, ← hps, compare_ne_gt]
    exact (hby s).trans x hx y hy z hz r q' p' hr hq' hp' hr0 hq0

end

/-- wrap_json_cmp is a total preorder among the values that list their keys in given ways, whatever
orders its calls give to the lists of keys, exactly when these ways are consistent. -/
theorem sorts_iff_consistent [LinearOrder D] (orders : Set KeyList) :
    Sorts (valuesOf D orders) ↔ Consistent orders :=
  ⟨consistent_of_sorts, sorts_of_consistent⟩

/-- The keys a and b, in this order and in the other. -/
def keysAB : KeyList := ⟨[[0x61], [0x62]], by decide, by decide⟩

def keysBA : KeyList := ⟨[[0x62], [0x61]], by decide, by decide⟩

/-- Each of the two objects is greater than the other. -/
theorem swapped_keys_not_sorted :
    ¬ ∀ (sort : ArraySort Nat) (x y : Value Nat), ∃ r q, wrapJsonCmp sort x.json y.json = some r ∧
      wrapJsonCmp sort y.json x.json = some q ∧ r.sign = -q.sign := by
  intro h
  let sort : ArraySort Nat := ⟨id, fun _ => .refl _⟩
  obtain ⟨r, q, hr, hq, hsign⟩ := h sort (numbers Nat keysAB fun k => if k = [0x61] then 1 else 2)
    (numbers Nat keysBA fun k => if k = [0x61] then 2 else 1)
  have hr1 : some 1 = some r := hr
  have hq1 : some 1 = some q := hq
  cases hr1
  cases hq1
  exact absurd hsign (by decide)

end AfbBinder.WrapJson
