import AfbBinder.WrapJson.Relations

/-! The comparison ends and decides equality and inclusion. -/
namespace AfbBinder.WrapJson
open Lib.Cstrings

variable {D : Type}

/-- The text of a string. -/
def Json.text : Json D → Bytes
  | .string s => s
  | _ => []

/-- The keys in the order of wrap_json_keys. -/
def sortedKeys (sort : ArraySort D) (keys : List Bytes) : List Bytes :=
  (sort.run (keys.map .string)).map Json.text

section
variable {inc srt : Bool} {x y : Json D}

private theorem strcmpSign_zero {a b : Bytes} : strcmpSign a b = 0 ↔ a = b := by
  rw [← strcmp_eq, strcmpSign]
  split <;> simp_all

/-- The sort leaves the keys, in some order. -/
theorem sortedKeys_spec (sort : ArraySort D) (keys : List Bytes) :
    sort.run (keys.map .string) = (sortedKeys sort keys).map .string ∧
      (sortedKeys sort keys).Perm keys := by
  have hp := sort.perm (keys.map .string)
  constructor
  · rw [sortedKeys, List.map_map]
    refine ((List.map_congr_left fun v hv => ?_).trans (List.map_id _)).symm
    obtain ⟨s, -, rfl⟩ := List.mem_map.mp (hp.mem_iff.mp hv)
    rfl
  · have hback := hp.map Json.text
    rwa [List.map_map, show Json.text ∘ Json.string = (id : Bytes → Bytes) from rfl, List.map_id]
      at hback

theorem wrapJsonKeys_object (sort : ArraySort D) (members : List (Bytes × Json D)) :
    wrapJsonKeys sort (.object members) = .array ((sortedKeys sort (names members)).map .string) := by
  rw [wrapJsonKeys, wrapJsonSort, (sortedKeys_spec sort (names members)).1]

variable [LinearOrder D]

/-- The sign of the difference of two numbers. -/
theorem order_zero {α : Type*} [LinearOrder α] {a b : α} :
    (if a < b then (-1 : Int) else if b < a then 1 else 0) = 0 ↔ a = b := by
  split
  · next h => simp [h.ne]
  · next h =>
    split
    · next h' => simp [h'.ne']
    · next h' => simp [le_antisymm (not_lt.mp h') (not_lt.mp h)]

variable {keyscmp : Json D → Json D → Option Int}

/-- The comparison ends, and finds no difference exactly between such values. -/
def Decides (keyscmp : Json D → Json D → Option Int) (inc srt : Bool) (x y : Json D) : Prop :=
  ∃ r, jcmpWith keyscmp inc srt x y = some r ∧ (r = 0 ↔ Within inc x y)

/-- The loop over the items, as the comparison of each with the one at its place. -/
theorem jcmpItems_zero {xs ys : List (Json D)} (hlen : ys.length ≤ xs.length)
    (hd : ∀ u ∈ xs, ∀ v ∈ ys, Decides keyscmp inc srt u v) :
    ∃ r, jcmpItems keyscmp inc srt xs ys = some r ∧
      (r = 0 ↔ ∀ (i : Nat) u v, xs[i]? = some u → ys[i]? = some v → Within inc u v) := by
  induction ys generalizing xs with
  | nil => exact ⟨0, by rw [jcmpItems], by simp⟩
  | cons jy ys ih =>
    obtain - | ⟨jx, xs⟩ := xs
    · simp at hlen
    obtain ⟨r, hr, hzero⟩ := hd jx List.mem_cons_self jy List.mem_cons_self
    obtain ⟨q, hq, hrest⟩ := ih (Nat.le_of_succ_le_succ hlen)
      fun u hu v hv => hd u (List.mem_cons_of_mem _ hu) v (List.mem_cons_of_mem _ hv)
    have hsplit : (∀ (i : Nat) u v, (jx :: xs)[i]? = some u → (jy :: ys)[i]? = some v →
        Within inc u v) ↔ Within inc jx jy ∧
          ∀ (i : Nat) u v, xs[i]? = some u → ys[i]? = some v → Within inc u v := by
      constructor
      · intro h
        exact ⟨h 0 jx jy rfl rfl, fun i u v hu hv => h (i + 1) u v hu hv⟩
      · rintro ⟨hhead, htail⟩ (- | i) u v hu hv
        · cases hu
          cases hv
          exact hhead
        · exact htail i u v hu hv
    rw [hsplit, jcmpItems, hr, Option.bind_some]
    by_cases h0 : r = 0
    · exact ⟨q, by rw [if_neg (by simp [h0]), hq], hrest.trans (and_iff_right (hzero.mp h0)).symm⟩
    · exact ⟨r, if_pos h0, iff_of_false h0 fun h => h0 (hzero.mpr h.1)⟩

/-- The loop over the members: each is looked for among those of x. -/
theorem jcmpMembers_zero {xs ys rest : List (Bytes × Json D)}
    (hd : ∀ u ∈ xs, ∀ v ∈ rest, Decides keyscmp inc srt u.2 v.2)
    (hkeys : srt = true → ∀ name ∈ names rest, name ∉ names xs →
      ∃ r, keyscmp (.object xs) (.object ys) = some r ∧ r ≠ 0) :
    ∃ r, jcmpMembers keyscmp inc srt xs ys rest = some r ∧
      (r = 0 ↔ ∀ m ∈ rest, ∃ u, objectGet m.1 xs = some u ∧ Within inc u m.2) := by
  induction rest with
  | nil => exact ⟨0, by rw [jcmpMembers], by simp⟩
  | cons m rest ih =>
    obtain ⟨name, jy⟩ := m
    obtain ⟨q, hq, hrest⟩ := ih (fun u hu v hv => hd u hu v (List.mem_cons_of_mem _ hv))
      fun hs n hn => hkeys hs n (List.mem_cons_of_mem _ hn)
    rw [jcmpMembers, List.forall_mem_cons]
    cases hx : objectGet name xs with
    | some jx =>
      obtain ⟨r, hr, hzero⟩ := hd _ (objectGet_mem hx) _ List.mem_cons_self
      simp only [hr, Option.bind_some, Option.some.injEq, exists_eq_left']
      by_cases h0 : r = 0
      · exact ⟨q, by rw [if_neg (by simp [h0]), hq],
          hrest.trans (and_iff_right (hzero.mp h0)).symm⟩
      · exact ⟨r, if_pos h0, iff_of_false h0 fun h => h0 (hzero.mpr h.1)⟩
    | none =>
      have hno : ¬ ((∃ u, none = some u ∧ Within inc u jy) ∧
          ∀ m ∈ rest, ∃ u, objectGet m.1 xs = some u ∧ Within inc u m.2) := by simp
      cases srt with
      | false => exact ⟨1, rfl, iff_of_false Int.one_ne_zero hno⟩
      | true =>
        obtain ⟨r, hr, h0⟩ := hkeys rfl name List.mem_cons_self (objectGet_none.mp hx)
        exact ⟨r, by simp [hr, h0], iff_of_false h0 hno⟩

private theorem decides_array {xs ys : List (Json D)}
    (hd : ∀ u ∈ xs, ∀ v ∈ ys, Decides keyscmp inc srt u v) :
    Decides keyscmp inc srt (.array xs) (.array ys) := by
  unfold Decides
  rw [jcmpWith]
  by_cases hc : countDiff inc xs.length ys.length = 0
  · obtain ⟨r, hr, hzero⟩ := jcmpItems_zero (countDiff_zero.mp hc).1 hd
    refine ⟨r, by rw [if_neg (by simp [hc]), hr], hzero.trans ⟨.array hc, fun h => ?_⟩⟩
    cases h with
    | array _ values => exact values
  · refine ⟨_, if_pos hc, iff_of_false hc fun h => ?_⟩
    cases h with
    | array count _ => exact hc count

private theorem decides_object {xs ys : List (Bytes × Json D)}
    (hd : ∀ u ∈ xs, ∀ v ∈ ys, Decides keyscmp inc srt u.2 v.2)
    (hkeys : srt = true → ∀ name ∈ names ys, name ∉ names xs →
      ∃ r, keyscmp (.object xs) (.object ys) = some r ∧ r ≠ 0) :
    Decides keyscmp inc srt (.object xs) (.object ys) := by
  unfold Decides
  rw [jcmpWith]
  by_cases hc : countDiff inc xs.length ys.length = 0
  · obtain ⟨r, hr, hzero⟩ := jcmpMembers_zero hd hkeys
    refine ⟨r, by rw [if_neg (by simp [hc]), hr], hzero.trans ⟨fun h => ?_, fun h m hm => ?_⟩⟩
    · refine .object hc (fun name hn => ?_) fun name u v hu hv => ?_
      · obtain ⟨m, hm, rfl⟩ := List.mem_map.mp hn
        obtain ⟨u, hu, -⟩ := h m hm
        exact objectGet_some.mp ⟨u, hu⟩
      · obtain ⟨w, hw, hwithin⟩ := h _ hv
        cases hu.symm.trans hw
        exact hwithin
    · cases h with
      | object _ keys values =>
        obtain ⟨u, hu⟩ := objectGet_some.mpr (keys m.1 (List.mem_map_of_mem hm))
        exact ⟨u, hu, values m.1 u m.2 hu hm⟩
  · refine ⟨_, if_pos hc, iff_of_false hc fun h => ?_⟩
    cases h with
    | object count _ _ => exact hc count

private theorem decides_of_type (h : x.type ≠ y.type) : Decides keyscmp inc srt x y := by
  have hr : jcmpWith keyscmp inc srt x y = some (x.type - y.type) := by
    cases x <;> cases y <;> first | exact absurd rfl h | rfl
  exact ⟨_, hr, iff_of_false (fun h0 => h (by omega)) fun hw => h (within_type hw)⟩

private theorem decides_string (a b : Bytes) : Decides keyscmp inc srt (.string a) (.string b) := by
  refine ⟨strcmpSign a b, by rw [jcmpWith], strcmpSign_zero.trans ⟨?_, fun h => ?_⟩⟩
  · rintro rfl
    exact .string a
  · cases h
    rfl

/-- Objects with different keys have lists of keys that differ, however they are sorted. -/
theorem keysCmp_ne_zero (sort : ArraySort D) {xs ys : List (Bytes × Json D)} {name : Bytes}
    (hy : name ∈ names ys) (hx : name ∉ names xs) :
    ∃ r, keysCmp sort (.object xs) (.object ys) = some r ∧ r ≠ 0 := by
  have hstrings : ∀ ks ls : List Bytes, Decides (fun _ _ => none) false true
      (.array (ks.map .string) : Json D) (.array (ls.map .string)) := by
    refine fun ks ls => decides_array fun u hu v hv => ?_
    obtain ⟨a, -, rfl⟩ := List.mem_map.mp hu
    obtain ⟨b, -, rfl⟩ := List.mem_map.mp hv
    exact decides_string a b
  obtain ⟨r, hr, hzero⟩ := hstrings (sortedKeys sort (names xs)) (sortedKeys sort (names ys))
  refine ⟨r, by rw [keysCmp, wrapJsonKeys_object, wrapJsonKeys_object, hr], fun h0 => hx ?_⟩
  have heq := within_strings (hzero.mp h0)
  have hpx := (sortedKeys_spec sort (names xs)).2
  exact (heq ▸ hpx).mem_iff.mp ((sortedKeys_spec sort (names ys)).2.mem_iff.mpr hy)

/-- jcmp ends, and finds no difference exactly between values of which one is within the other. -/
theorem jcmp_decides (sort : ArraySort D) (inc srt : Bool) (x y : Json D) :
    Decides (keysCmp sort) inc srt x y := by
  induction y using Json.induct generalizing x with
  | null =>
    cases x with
    | null => exact ⟨0, rfl, iff_of_true rfl .null⟩
    | _ => exact decides_of_type (by simp [Json.type])
  | boolean b =>
    cases x with
    | boolean a =>
      refine ⟨a.toInt - b.toInt, rfl, ?_⟩
      cases a <;> cases b
      · exact iff_of_true rfl (.boolean false)
      · exact iff_of_false (by decide) fun h => by cases h
      · exact iff_of_false (by decide) fun h => by cases h
      · exact iff_of_true rfl (.boolean true)
    | _ => exact decides_of_type (by simp [Json.type])
  | double d =>
    cases x with
    | double c =>
      refine ⟨_, rfl, order_zero.trans ⟨?_, fun h => ?_⟩⟩
      · rintro rfl
        exact .double c
      · cases h
        rfl
    | _ => exact decides_of_type (by simp [Json.type])
  | int i =>
    cases x with
    | int j =>
      refine ⟨_, rfl, order_zero.trans ⟨?_, fun h => ?_⟩⟩
      · rintro rfl
        exact .int j
      · cases h
        rfl
    | _ => exact decides_of_type (by simp [Json.type])
  | object ys ih =>
    cases x with
    | object xs =>
      exact decides_object (fun u _ v hv => ih v hv u.2)
        fun _ name hy hx => keysCmp_ne_zero sort hy hx
    | _ => exact decides_of_type (by simp [Json.type])
  | array ys ih =>
    cases x with
    | array xs => exact decides_array fun u _ v hv => ih v hv u
    | _ => exact decides_of_type (by simp [Json.type])
  | string b =>
    cases x with
    | string a => exact decides_string a b
    | _ => exact decides_of_type (by simp [Json.type])

end

section
variable [LinearOrder D] (sort : ArraySort D) {x y : Json D}

private theorem wrapJsonCmp_zero (hx : x.WellFormed) (hy : y.WellFormed) :
    wrapJsonCmp sort x y = some 0 ↔ Same x y := by
  obtain ⟨r, hr, hzero⟩ := jcmp_decides sort false true x y
  rw [wrapJsonCmp, jcmp, hr, Option.some.injEq, hzero, within_false_iff_same hx hy]

private theorem wrapJsonEqual_one : wrapJsonEqual sort x y = some 1 ↔ Within false x y := by
  obtain ⟨r, hr, hzero⟩ := jcmp_decides sort false false x y
  rw [wrapJsonEqual, jcmp, hr, Option.map_some, Option.some.injEq, ← hzero, logicalNot]
  split <;> simp_all

private theorem wrapJsonContains_one : wrapJsonContains sort x y = some 1 ↔ Within true x y := by
  obtain ⟨r, hr, hzero⟩ := jcmp_decides sort true false x y
  rw [wrapJsonContains, jcmp, hr, Option.map_some, Option.some.injEq, ← hzero, logicalNot]
  split <;> simp_all

/-- The comparison ends with any flags; wrap_json_equal and wrap_json_cmp both tell whether the
values are equal but for the order of the keys. -/
theorem comparison_decides_equality (x y : Value D) :
    (∀ inc srt, (jcmp sort x.json y.json inc srt).isSome) ∧
      (wrapJsonEqual sort x.json y.json = some 1 ↔ Same x.json y.json) ∧
      (wrapJsonCmp sort x.json y.json = some 0 ↔ Same x.json y.json) := by
  refine ⟨fun inc srt => ?_, ?_, wrapJsonCmp_zero sort x.wellFormed y.wellFormed⟩
  · obtain ⟨r, hr, -⟩ := jcmp_decides sort inc srt x.json y.json
    exact Option.isSome_iff_exists.mpr ⟨r, hr⟩
  · rw [wrapJsonEqual_one, within_false_iff_same x.wellFormed y.wellFormed]

/-- Inclusion is a partial order, up to the equality of wrap_json_equal. -/
theorem contains_partial_order (x y z : Value D) :
    wrapJsonContains sort x.json x.json = some 1 ∧
      (wrapJsonContains sort x.json y.json = some 1 → wrapJsonContains sort y.json z.json = some 1 →
        wrapJsonContains sort x.json z.json = some 1) ∧
      ((wrapJsonContains sort x.json y.json = some 1 ∧ wrapJsonContains sort y.json x.json = some 1) ↔
        wrapJsonEqual sort x.json y.json = some 1) := by
  simp only [wrapJsonContains_one, wrapJsonEqual_one]
  refine ⟨.refl x.wellFormed, Within.trans, fun h => .antisymm y.wellFormed h.1 h.2, fun h => ?_⟩
  have hsame := (within_false_iff_same x.wellFormed y.wellFormed).mp h
  have hback := (within_false_iff_same y.wellFormed x.wellFormed).mpr hsame.symm
  exact ⟨h.weaken, hback.weaken⟩

end

end AfbBinder.WrapJson
