import Mathlib.Data.List.Dedup
import Mathlib.Data.List.GetD
import AfbBinder.WrapJson.Meanings

/-! The strict mark of the containers: what it checks by a count, against what no specifier accesses. -/
namespace AfbBinder.WrapJson
open Lib.Cstrings
open Lib.Json (lbracket rbracket lbrace rbrace)

variable {D : Type}

/-- The keys of an object are distinct. -/
inductive JsonObject.WellFormed : JsonObject D → Prop
  | null : WellFormed .null
  | boolean (b : Int32) : WellFormed (.boolean b)
  | double (d : D) : WellFormed (.double d)
  | int (i : Int64) : WellFormed (.int i)
  | string (s : Bytes) : WellFormed (.string s)
  | array {items : List (JsonObject D)} (values : ∀ o ∈ items, o.WellFormed) : WellFormed (.array items)
  | object {members : List (Bytes × JsonObject D)} (distinct : (members.map Prod.fst).Nodup)
    (values : ∀ m ∈ members, m.2.WellFormed) : WellFormed (.object members)

/-- The part of the shape that the part of the value is matched with. -/
inductive Matched : Shape → JsonObject D → Shape → JsonObject D → Prop
  | whole (v : Shape) (o : JsonObject D) : Matched v o v o
  | item {items : List Shape} {mark : Mark} {os : List (JsonObject D)} {i : Nat} {v w : Shape} {o p : JsonObject D}
    (hv : items[i]? = some v) (ho : os[i]? = some o) (h : Matched v o w p) : Matched (.array items mark) (.array os) w p
  | member {members : List ((KeyBlock × Bool) × Shape)} {mark : Mark} {ms : List (Bytes × JsonObject D)}
    {k : KeyBlock × Bool} {v w : Shape} {o p : JsonObject D} (hv : (k, v) ∈ members) (ho : ms.lookup k.1.name = some o)
    (h : Matched v o w p) : Matched (.object members mark) (.object ms) w p

def Shape.strict : Shape → Bool
  | .array _ mark => mark = .strict
  | .object _ mark => mark = .strict
  | _ => false

/-- The names that the specifiers of an object give. -/
def keyNames (members : List ((KeyBlock × Bool) × Shape)) : List Bytes := members.map (·.1.1.name)

/-- The items or the members of a container that no specifier of its descriptor accesses. -/
def missed : Shape → JsonObject D → List (JsonObject D)
  | .array items _, .array os => os.drop items.length
  | .object members _, .object ms => (ms.filter fun m => !(keyNames members).contains m.1).map Prod.snd
  | _, _ => []

/-- The keys of a descriptor that the object has, with their repetitions. -/
def foundKeys (members : List ((KeyBlock × Bool) × Shape)) (ms : List (Bytes × JsonObject D)) : List Bytes :=
  (keyNames members).filter (ms.map Prod.fst).contains

/-- How many specifiers access a member that another one before them accesses. -/
def repeated : Shape → JsonObject D → Nat
  | .object members _, .object ms => (foundKeys members ms).length - (foundKeys members ms).dedup.length
  | _, _ => 0

/-- A strictly matched container. -/
def Strictly (v : Shape) (o : JsonObject D) (w : Shape) (p : JsonObject D) : Prop := Matched v o w p ∧ w.strict

/-- A strictly matched container has something that no specifier accesses. -/
def Incomplete (v : Shape) (o : JsonObject D) : Prop := ∃ w p, Strictly v o w p ∧ missed w p ≠ []

/-- The repetitions of keys do not make up for what is not accessed, and there are none when all is
accessed. -/
structure CountTells (v : Shape) (o : JsonObject D) : Prop where
  incomplete : Incomplete v o → ∃ w p, Strictly v o w p ∧ repeated w p % 2 ^ 32 ≠ (missed w p).length % 2 ^ 32
  complete : ¬Incomplete v o → ∀ w p, Strictly v o w p → repeated w p % 2 ^ 32 = 0

/-- The count at the mark is as if all had been accessed once. -/
def Balanced (w : Shape) (p : JsonObject D) : Prop := repeated w p % 2 ^ 32 = (missed w p).length % 2 ^ 32

section
variable {members : List ((KeyBlock × Bool) × Shape)} {ms : List (Bytes × JsonObject D)} {mark : Mark} {a b : Nat}

private theorem ofNat_eq_iff : Int32.ofNat a = Int32.ofNat b ↔ a % 2 ^ 32 = b % 2 ^ 32 := by
  rw [← Int32.toBitVec_inj, Int32.toBitVec_ofNat', Int32.toBitVec_ofNat', ← BitVec.toNat_inj, BitVec.toNat_ofNat,
    BitVec.toNat_ofNat]

variable (members mark) in
/-- The members are those that no key accesses and those that the keys found access. -/
theorem members_counted (hdistinct : (ms.map Prod.fst).Nodup) :
    ms.length = (missed (.object members mark) (.object ms)).length + (foundKeys members ms).dedup.length := by
  have hsplit := List.length_eq_length_filter_add (l := ms) fun m => (keyNames members).contains m.1
  have hperm : ((ms.map Prod.fst).filter (keyNames members).contains).Perm (foundKeys members ms).dedup := by
    refine (List.perm_ext_iff_of_nodup (hdistinct.filter _) (List.nodup_dedup _)).mpr fun k => ?_
    rw [List.mem_dedup, foundKeys, List.mem_filter, List.mem_filter, List.contains_iff_mem, List.contains_iff_mem]
    exact and_comm
  have hlen := hperm.length_eq
  rw [List.filter_map, List.length_map] at hlen
  rw [missed, List.length_map, ← hlen, hsplit, Nat.add_comm]
  rfl

private theorem balanced_object (hdistinct : (ms.map Prod.fst).Nodup) :
    Int32.ofNat (foundKeys members ms).length = Int32.ofNat ms.length ↔ Balanced (.object members mark) (.object ms) := by
  have hcount := members_counted members mark hdistinct
  have hle := (List.dedup_sublist (foundKeys members ms)).length_le
  rw [ofNat_eq_iff, Balanced, repeated]
  omega

private theorem balanced_array {items : List Shape} {os : List (JsonObject D)} (h : items.length ≤ os.length) :
    Int32.ofNat items.length = Int32.ofNat os.length ↔ Balanced (.array items mark) (.array os) := by
  have hnone : repeated (.array items mark) (.array os) = 0 := rfl
  rw [ofNat_eq_iff, Balanced, hnone, missed, List.length_drop]
  omega

end

/-! What a container of the shape meets. -/

section
variable {doubles : Doubles D} {store : Bool} {mark : Mark}

/-- The error of a container is that of an item or of the mark. -/
theorem Outcome.andThen_error (x y : Outcome D) :
    (x.andThen y).error = match x.error with
      | none => y.error
      | some e => some e := by
  unfold Outcome.andThen
  cases h : x.error with
  | none => rfl
  | some e => exact h

private theorem markOutcome_error {count index : Int32} :
    (markOutcome mark count index : Outcome D).error =
      if mark = .strict ∧ index ≠ count then some .incomplete else none := by
  unfold markOutcome
  split <;> rfl

/-- How many items of an array are accessed at most. -/
def counted (n : Nat) : Nat := (Int32.ofNat n).toNatClampNeg

private theorem counted_le (n : Nat) : counted n ≤ n := by
  have hle : (Int32.ofNat n).toInt ≤ n := by
    rw [Int32.toInt_ofNat', Int.bmod_def, show Int32.size = 2 ^ 32 from rfl]
    split <;> omega
  rw [counted, ← Int32.toNat_toInt]
  omega

private theorem counted_lt (n : Nat) : counted n < 2 ^ 31 := Int32.toNatClampNeg_lt _

private theorem not_counted_iff {n i : Nat} (hi : i < 2 ^ 31) : Int32.ofNat n ≤ Int32.ofNat i ↔
    counted n ≤ i := by
  rw [Int32.le_iff_toInt_le, Int32.toInt_ofNat_of_lt hi, counted, ← Int32.toNat_toInt]
  omega

theorem Outcome.andThen_none {x y : Outcome D} : (x.andThen y).error = none ↔ x.error = none ∧ y.error = none := by
  rw [Outcome.andThen_error]
  split
  · next h => exact (and_iff_right h).symm
  · next e h => simp [h]

private theorem markOutcome_none {count index : Int32} :
    (markOutcome mark count index : Outcome D).error = none ↔ (mark = .strict → index = count) := by
  rw [markOutcome_error]
  split
  · next h => exact iff_of_false (Option.some_ne_none _) fun himp => h.2 (himp h.1)
  · next h =>
    refine iff_of_true rfl fun hmark => ?_
    by_contra hne
    exact h ⟨hmark, hne⟩

/-- The items of an array, from an index, are unpacked. -/
theorem shapesMeaning_none {items : List Shape} {os : List (JsonObject D)} {i : Nat} (hi : i ≤ counted os.length) :
    (shapesMeaning doubles store items mark os (Int32.ofNat os.length) (Int32.ofNat i)).error = none ↔
      (∀ j v o, items[j]? = some v → os[i + j]? = some o → (v.meaning doubles store o).error = none) ∧
        i + items.length ≤ counted os.length ∧
          (mark = .strict → Int32.ofNat (i + items.length) = Int32.ofNat os.length) := by
  have hlt := counted_lt os.length
  have hle := counted_le os.length
  induction items generalizing i with
  | nil =>
    rw [shapesMeaning, markOutcome_none]
    refine ⟨fun hmark => ⟨fun j v o hv => ?_, hi, hmark⟩, fun h => h.2.2⟩
    rw [List.getElem?_nil] at hv
    cases hv
  | cons v items ih =>
    have hi' := not_counted_iff (n := os.length) (i := i) (by omega)
    rw [shapesMeaning, List.length_cons, Nat.add_comm items.length, ← Nat.add_assoc]
    by_cases hroom : counted os.length ≤ i
    · rw [if_pos (hi'.mpr hroom)]
      refine iff_of_false (Option.some_ne_none _) fun h => ?_
      have hlen := h.2.1
      omega
    · have hget : i < os.length := by omega
      have hindex : Int32.ofNat i + 1 = Int32.ofNat (i + 1) := (Int32.ofNat_add i 1).symm
      have hnext : i + 1 ≤ counted os.length := by omega
      have hlow : i < 2 ^ 31 := by omega
      rw [if_neg fun h => hroom (hi'.mp h), Outcome.andThen_none, hindex, Int32.toNatClampNeg_ofNat_of_lt hlow,
        List.getD_eq_getElem _ _ hget]
      refine (and_congr_right fun _ => ih hnext).trans ?_
      rw [← and_assoc]
      refine and_congr_left fun _ => ?_
      constructor
      · rintro ⟨hv, hitems⟩ j w o hw ho
        cases j with
        | zero =>
          cases hw
          rw [Nat.add_zero, List.getElem?_eq_getElem hget] at ho
          cases ho
          exact hv
        | succ j => exact hitems j w o hw (by rwa [Nat.add_assoc, Nat.add_comm 1])
      · intro h
        refine ⟨h 0 v os[i] rfl (List.getElem?_eq_getElem hget), fun j w o hw ho => ?_⟩
        exact h (j + 1) w o hw (by rwa [Nat.add_assoc, Nat.add_comm 1] at ho)

theorem array_none {items : List Shape} {os : List (JsonObject D)} :
    ((Shape.array items mark).meaning doubles store (.array os)).error = none ↔
      (∀ (i : Nat) (v : Shape) (o : JsonObject D), items[i]? = some v → os[i]? = some o →
          (v.meaning doubles store o).error = none) ∧
        items.length ≤ counted os.length ∧ (mark = .strict → Int32.ofNat items.length = Int32.ofNat os.length) := by
  have hnone := @shapesMeaning_none D doubles store mark items os 0 (Nat.zero_le _)
  simp only [Nat.zero_add] at hnone
  exact hnone

/-- The error at an array that is incomplete. -/
theorem shapesMeaning_incomplete {items : List Shape} {os : List (JsonObject D)} {i : Nat}
    (hi : i ≤ counted os.length)
    (h : (shapesMeaning doubles store items mark os (Int32.ofNat os.length) (Int32.ofNat i)).error = some .incomplete) :
    (∃ j v o, items[j]? = some v ∧ os[i + j]? = some o ∧ (v.meaning doubles store o).error = some .incomplete) ∨
      i + items.length ≤ counted os.length ∧ mark = .strict ∧
        Int32.ofNat (i + items.length) ≠ Int32.ofNat os.length := by
  have hlt := counted_lt os.length
  have hle := counted_le os.length
  induction items generalizing i with
  | nil =>
    rw [shapesMeaning, markOutcome_error] at h
    split at h
    · next hmark => exact .inr ⟨hi, hmark⟩
    · cases h
  | cons v items ih =>
    have hi' := not_counted_iff (n := os.length) (i := i) (by omega)
    rw [shapesMeaning] at h
    split at h
    · cases h
    · next hroom =>
      rw [hi'] at hroom
      have hget : i < os.length := by omega
      rw [Outcome.andThen_error, Int32.toNatClampNeg_ofNat_of_lt (by omega), List.getD_eq_getElem _ _ hget] at h
      split at h
      · have hindex : Int32.ofNat i + 1 = Int32.ofNat (i + 1) := (Int32.ofNat_add i 1).symm
        rw [hindex] at h
        rw [List.length_cons, Nat.add_comm items.length, ← Nat.add_assoc]
        refine (ih (by omega) h).imp_left ?_
        rintro ⟨j, w, o, hw, ho, herror⟩
        exact ⟨j + 1, w, o, hw, by rwa [Nat.add_comm j, ← Nat.add_assoc], herror⟩
      · next e hv =>
        cases h
        exact .inl ⟨0, v, os[i], rfl, List.getElem?_eq_getElem hget, hv⟩

private theorem contains_iff_lookup {ms : List (Bytes × JsonObject D)} {k : Bytes} :
    (ms.map Prod.fst).contains k = true ↔ (ms.lookup k).isSome = true := by
  rw [List.contains_iff_mem]
  constructor
  · intro hmem
    by_contra hnone
    rw [Option.not_isSome_iff_eq_none, List.lookup_eq_none_iff] at hnone
    obtain ⟨m, hm, rfl⟩ := List.mem_map.mp hmem
    exact absurd (hnone m hm) (by simp)
  · intro hsome
    obtain ⟨o, ho⟩ := Option.isSome_iff_exists.mp hsome
    exact mem_of_lookup ho

private theorem foundKeys_cons {members : List ((KeyBlock × Bool) × Shape)} {ms : List (Bytes × JsonObject D)}
    (m : (KeyBlock × Bool) × Shape) : (foundKeys (m :: members) ms).length =
      (foundKeys members ms).length + if (ms.lookup m.1.1.name).isSome then 1 else 0 := by
  simp only [foundKeys, keyNames, List.map_cons, List.filter_cons, contains_iff_lookup]
  split
  · rw [List.length_cons]
  · rfl

private theorem index_found {members : List ((KeyBlock × Bool) × Shape)} {ms : List (Bytes × JsonObject D)}
    {m : (KeyBlock × Bool) × Shape} (index : Int32) (h : (ms.lookup m.1.1.name).isSome) :
    index + Int32.ofNat (foundKeys (m :: members) ms).length =
      index + 1 + Int32.ofNat (foundKeys members ms).length := by
  rw [foundKeys_cons, if_pos h, Nat.add_comm, Int32.ofNat_add, ← Int32.add_assoc]
  rfl

private theorem foundKeys_absent {members : List ((KeyBlock × Bool) × Shape)} {ms : List (Bytes × JsonObject D)}
    {m : (KeyBlock × Bool) × Shape} (h : ms.lookup m.1.1.name = none) :
    (foundKeys (m :: members) ms).length = (foundKeys members ms).length := by
  rw [foundKeys_cons, h]
  rfl

/-- The members of an object are unpacked. -/
theorem fieldsMeaning_none {members : List ((KeyBlock × Bool) × Shape)} {ms : List (Bytes × JsonObject D)}
    {count index : Int32} : (fieldsMeaning doubles store members mark ms count index).error = none ↔
      (∀ m ∈ members, (m.1.2 ∨ (ms.lookup m.1.1.name).isSome) ∧
        ∀ o, ms.lookup m.1.1.name = some o → (m.2.meaning doubles store o).error = none) ∧
      (mark = .strict → index + Int32.ofNat (foundKeys members ms).length = count) := by
  induction members generalizing index with
  | nil =>
    rw [fieldsMeaning, markOutcome_none, show (foundKeys [] ms).length = 0 from rfl,
      show index + Int32.ofNat 0 = index from Int32.add_zero _]
    exact (and_iff_right (List.forall_mem_nil _)).symm
  | cons m members ih =>
    obtain ⟨k, v⟩ := m
    rw [fieldsMeaning, List.forall_mem_cons]
    cases ho : ms.lookup k.1.name with
    | some o =>
      have hsome : (ms.lookup k.1.name).isSome := by rw [ho]; rfl
      dsimp only
      rw [index_found (m := (k, v)) index hsome, Outcome.andThen_none, ih, ← and_assoc]
      refine and_congr_left fun _ => and_congr_left fun _ => ?_
      simp
    | none =>
      dsimp only
      rw [foundKeys_absent (m := (k, v)) ho]
      cases hk : k.2 with
      | true =>
        rw [if_pos rfl, ih]
        refine and_congr_left fun _ => (and_iff_right ⟨.inl rfl, fun o h => ?_⟩).symm
        cases h
      | false =>
        rw [if_neg Bool.false_ne_true]
        refine iff_of_false (Option.some_ne_none _) fun h => ?_
        exact h.1.1.1.elim Bool.false_ne_true Bool.false_ne_true

/-- The error at an object that is incomplete. -/
theorem fieldsMeaning_incomplete {members : List ((KeyBlock × Bool) × Shape)} {ms : List (Bytes × JsonObject D)}
    {count index : Int32} (h : (fieldsMeaning doubles store members mark ms count index).error = some .incomplete) :
    (∃ m ∈ members, ∃ o, ms.lookup m.1.1.name = some o ∧ (m.2.meaning doubles store o).error = some .incomplete) ∨
      mark = .strict ∧ index + Int32.ofNat (foundKeys members ms).length ≠ count := by
  induction members generalizing index with
  | nil =>
    rw [fieldsMeaning, markOutcome_error] at h
    split at h
    · next hmark => exact .inr ⟨hmark.1, fun heq => hmark.2 (by rw [← heq]; exact (Int32.add_zero _).symm)⟩
    · cases h
  | cons m members ih =>
    obtain ⟨k, v⟩ := m
    have hlater (h : (∃ m ∈ members, ∃ o, ms.lookup m.1.1.name = some o ∧
        (m.2.meaning doubles store o).error = some .incomplete)) :
        ∃ m ∈ (k, v) :: members, ∃ o, ms.lookup m.1.1.name = some o ∧
          (m.2.meaning doubles store o).error = some .incomplete := by
      obtain ⟨m, hm, hrest⟩ := h
      exact ⟨m, List.mem_cons_of_mem _ hm, hrest⟩
    rw [fieldsMeaning] at h
    split at h
    · next o ho =>
      rw [Outcome.andThen_error] at h
      rw [index_found index (m := (k, v)) (by rw [ho]; rfl)]
      split at h
      · exact (ih h).imp_left hlater
      · next e hv =>
        cases h
        exact .inl ⟨_, List.mem_cons_self, o, ho, hv⟩
    · next hnone =>
      rw [foundKeys_absent (m := (k, v)) hnone]
      split at h
      · exact (ih h).imp_left hlater
      · cases h

end

/-! What the whole unpacking tells. -/

section
variable {doubles : Doubles D} {store : Bool} {v w : Shape} {o p : JsonObject D}

private theorem wellFormed_item {os : List (JsonObject D)} {i : Nat} (h : (JsonObject.array os).WellFormed)
    (ho : os[i]? = some o) :
    o.WellFormed := by
  cases h with
  | array values => exact values o (List.mem_of_getElem? ho)

private theorem wellFormed_member {ms : List (Bytes × JsonObject D)} {k : Bytes}
    (h : (JsonObject.object ms).WellFormed)
    (ho : ms.lookup k = some o) : o.WellFormed := by
  cases h with
  | object distinct values =>
    obtain ⟨l, r, rfl, -⟩ := List.lookup_eq_some_iff.mp ho
    exact values (k, o) (List.mem_append_right _ List.mem_cons_self)

private theorem wellFormed_distinct {ms : List (Bytes × JsonObject D)} (h : (JsonObject.object ms).WellFormed) :
    (ms.map Prod.fst).Nodup := by
  cases h with
  | object distinct values => exact distinct

/-- When the unpacking succeeds, the counts are right at every strict mark. -/
theorem meaning_balanced (h : Matched v o w p) (ho : o.WellFormed) (hok : (v.meaning doubles store o).error = none)
    (hstrict : w.strict) : Balanced w p := by
  induction h with
  | whole v o =>
    match v, o with
    | .array items mark, .array os =>
      obtain ⟨-, hle, hmark⟩ := array_none.mp hok
      exact (balanced_array (Nat.le_trans hle (counted_le _))).mp (hmark (of_decide_eq_true hstrict))
    | .object members mark, .object ms =>
      have hmark := (fieldsMeaning_none.mp hok).2 (of_decide_eq_true hstrict)
      rw [Int32.zero_add] at hmark
      exact (balanced_object (wellFormed_distinct ho)).mp hmark
  | item hv hget _ ih =>
    exact ih (wellFormed_item ho hget) ((array_none.mp hok).1 _ _ _ hv hget) hstrict
  | member hv hget _ ih => exact ih (wellFormed_member ho hget) (((fieldsMeaning_none.mp hok).1 _ hv).2 _ hget) hstrict

theorem valueOutcome_error (p : Option Nat) (x : Option (Stored D)) :
    (valueOutcome store p x).error = some .incomplete → False := by
  cases x with
  | none => exact nofun
  | some x => exact nofun

theorem bytesOutcome_error (py pz : Option Nat) (o : JsonObject D) :
    (bytesOutcome py pz o).error = some .incomplete → False := by
  unfold bytesOutcome
  split
  · exact nofun
  · split
    · split <;> exact nofun
    · exact nofun
  · exact nofun

/-- At the incomplete error, the count is not right at a strict mark. -/
theorem meaning_unbalanced (v : Shape) {o : JsonObject D} (ho : o.WellFormed)
    (h : (v.meaning doubles store o).error = some .incomplete) : ∃ w p, Strictly v o w p ∧ ¬Balanced w p := by
  induction v using Shape.induct generalizing o with
  | array items mark ih =>
    match o with
    | .array os =>
      rcases shapesMeaning_incomplete (i := 0) (Nat.zero_le _) h with
        ⟨j, v, o, hv, hget, herror⟩ | ⟨hle, hmark, hne⟩
      · rw [Nat.zero_add] at hget
        obtain ⟨w, p, ⟨hmatched, hstrict⟩, hbalanced⟩ :=
          ih v (List.mem_of_getElem? hv) (wellFormed_item ho hget) herror
        exact ⟨w, p, ⟨.item hv hget hmatched, hstrict⟩, hbalanced⟩
      · rw [Nat.zero_add] at hle hne
        exact ⟨_, _, ⟨.whole _ _, decide_eq_true hmark⟩, fun hb =>
          hne ((balanced_array (Nat.le_trans hle (counted_le _))).mpr hb)⟩
  | object members mark ih =>
    match o with
    | .object ms =>
      rcases fieldsMeaning_incomplete h with ⟨m, hm, o, hget, herror⟩ | ⟨hmark, hne⟩
      · obtain ⟨w, p, ⟨hmatched, hstrict⟩, hbalanced⟩ := ih m hm (wellFormed_member ho hget) herror
        exact ⟨w, p, ⟨.member hm hget hmatched, hstrict⟩, hbalanced⟩
      · rw [Int32.zero_add] at hne
        exact ⟨_, _, ⟨.whole _ _, decide_eq_true hmark⟩,
          fun hb => hne ((balanced_object (wellFormed_distinct ho)).mpr hb)⟩
  | null =>
    rw [Shape.meaning] at h
    split at h <;> cases h
  | string p size =>
    rw [Shape.meaning, Outcome.andThen_error] at h
    split at h
    · cases h
    · next e he => exact absurd (he.trans h) (valueOutcome_error p _)
  | boolean p | int p | int64 p | double i p | any own p => exact absurd h (valueOutcome_error p _)
  | bytes url py pz => exact absurd h (bytesOutcome_error _ _ o)

variable (doubles store) in
/-- The incomplete error tells what it should if and only if the counts do. -/
theorem incomplete_iff (v : Shape) {o : JsonObject D} (ho : o.WellFormed)
    (hother : (v.meaning doubles store o).error = none ∨ (v.meaning doubles store o).error = some .incomplete) :
    ((v.meaning doubles store o).error = some .incomplete ↔ Incomplete v o) ↔ CountTells v o := by
  have hcount : (v.meaning doubles store o).error = some .incomplete ↔ ∃ w p, Strictly v o w p ∧ ¬Balanced w p := by
    refine ⟨meaning_unbalanced v ho, ?_⟩
    rintro ⟨w, p, ⟨hmatched, hstrict⟩, hbalanced⟩
    refine hother.resolve_left fun hok => ?_
    exact hbalanced (meaning_balanced hmatched ho hok hstrict)
  have hzero (hall : ¬Incomplete v o) {w p} (h : Strictly v o w p) : (missed w p).length = 0 := by
    by_contra hne
    exact hall ⟨w, p, h, fun hnil => hne (by rw [hnil]; rfl)⟩
  rw [hcount]
  constructor
  · intro h
    refine ⟨h.mpr, fun hall w p hstrictly => ?_⟩
    have hbalanced : Balanced w p := by
      by_contra hb
      exact hall (h.mp ⟨w, p, hstrictly, hb⟩)
    rw [Balanced, hzero hall hstrictly] at hbalanced
    exact hbalanced
  · intro h
    refine ⟨?_, h.incomplete⟩
    rintro ⟨w, p, hstrictly, hbalanced⟩
    by_contra hall
    refine hbalanced ?_
    rw [Balanced, hzero hall hstrictly]
    exact h.complete hall w p hstrictly

theorem JsonError.rc_inj {e e' : JsonError} {position position' : Nat} (h : e.rc position = e'.rc position') :
    e = e' := by
  have hlow (e : JsonError) (position : Nat) :
      (Int32.ofNat e.code ||| Int32.ofNat (position * 16)).toBitVec.toNat % 2 ^ 4 = e.code := by
    have hzero : position * 16 % 2 ^ 32 % 2 ^ 4 = 0 := by omega
    rw [Int32.toBitVec_or, BitVec.toNat_or, Int32.toBitVec_ofNat', Int32.toBitVec_ofNat', BitVec.toNat_ofNat,
      BitVec.toNat_ofNat, Nat.or_mod_two_pow, hzero]
    cases e <;> rfl
  have hcode : e.code = e'.code := by
    rw [rc, rc, Int32.neg_inj] at h
    rw [← hlow e position, ← hlow e' position', h]
  cases e <;> cases e' <;> first | rfl | cases hcode

/-- Where no other error is met, wrap_json_unpack tells the containers of which something is not
accessed if and only if the keys that are named again do not hide it, nor look like it. -/
theorem unpack_incomplete_iff (doubles : Doubles D) (v : Shape) {desc : Bytes} (hdesc : significant desc = v.text)
    (hdepth : v.depth ≤ STACKCOUNT) {o : JsonObject D} (ho : o.WellFormed) {rc : Int32} {stores : List (Nat × Stored D)}
    (hcall : wrapJsonVunpack doubles o (some desc) (v.args true) = some (.done rc stores))
    (hother : rc = 0 ∨ ∃ position, rc = JsonError.incomplete.rc position) :
    ((∃ position, rc = JsonError.incomplete.rc position) ↔ Incomplete v o) ↔ CountTells v o := by
  obtain ⟨position, hmeaning⟩ := vunpack_meaning doubles true v hdesc hdepth o
  have hresult := hcall.symm.trans hmeaning
  have hiff := incomplete_iff doubles true v ho
  generalize v.meaning doubles true o = x at hresult hiff
  obtain ⟨l, error⟩ := x
  cases error with
  | none =>
    cases hresult
    rw [← hiff (.inl rfl)]
    refine iff_congr (iff_of_false ?_ nofun) Iff.rfl
    rintro ⟨position, hrc⟩
    exact JsonError.rc_ne_zero _ _ hrc.symm
  | some e =>
    cases hresult
    obtain ⟨position', hrc⟩ := hother.resolve_left (e.rc_ne_zero position)
    cases JsonError.rc_inj hrc
    rw [← hiff (.inr rfl)]
    exact iff_congr (iff_of_true ⟨position, rfl⟩ rfl) Iff.rfl

end

/-- {"a": null, "b": null} -/
def twoNulls : JsonObject Unit := .object [([0x61], .null), ([0x62], .null)]

/-- {sn sn!} -/
def twoKeys (k l : KeyBlock) : Shape := .object [((k, false), .null), ((l, false), .null)] .strict

private theorem nul_a : (0 : UInt8) ∈ [0x61, 0] := by decide

private theorem nul_b : (0 : UInt8) ∈ [0x62, 0] := by decide

/-- The key a twice. -/
def sameKeys : Shape := twoKeys ⟨[0x61, 0], nul_a⟩ ⟨[0x61, 0], nul_a⟩

/-- The key a and the key b. -/
def bothKeys : Shape := twoKeys ⟨[0x61, 0], nul_a⟩ ⟨[0x62, 0], nul_b⟩

theorem twoNulls_wellFormed : twoNulls.WellFormed := by
  refine .object (by decide) ?_
  simp only [List.forall_mem_cons]
  exact ⟨.null, .null, nofun⟩

private theorem bothKeys_matched {w : Shape} {p : JsonObject Unit} (h : Strictly bothKeys twoNulls w p) :
    w = bothKeys ∧ p = twoNulls := by
  obtain ⟨hmatched, hstrict⟩ := h
  cases hmatched with
  | whole => exact ⟨rfl, rfl⟩
  | member hv ho h =>
    simp only [List.mem_cons, Prod.mk.injEq, List.not_mem_nil, or_false] at hv
    rcases hv with ⟨rfl, rfl⟩ | ⟨rfl, rfl⟩ <;> cases h <;> cases hstrict

private theorem bothKeys_tell : CountTells bothKeys twoNulls where
  incomplete := by
    rintro ⟨w, p, hstrictly, hmissed⟩
    obtain ⟨rfl, rfl⟩ := bothKeys_matched hstrictly
    exact absurd rfl hmissed
  complete := by
    rintro - w p hstrictly
    obtain ⟨rfl, rfl⟩ := bothKeys_matched hstrictly
    rfl

/-- Each key is named once: the call succeeds, and nothing is missed. -/
theorem unpack_bothKeys :
    (∃ position, (0 : Int32) = JsonError.incomplete.rc position) ↔ Incomplete bothKeys twoNulls :=
  (unpack_incomplete_iff ⟨fun _ => ()⟩ bothKeys (show significant bothKeys.text = _ from rfl) (by decide)
    twoNulls_wellFormed (show wrapJsonVunpack ⟨fun _ => ()⟩ twoNulls (some bothKeys.text) (bothKeys.args true) =
      some (.done 0 []) from rfl) (.inl rfl)).mpr bothKeys_tell

/-- A key is named twice and the other one not at all: the call succeeds. -/
theorem unpack_sameKeys : ¬ ∀ (v : Shape) (desc : Bytes) (o : JsonObject Unit) (rc : Int32)
    (stores : List (Nat × Stored Unit)), significant desc = v.text → v.depth ≤ STACKCOUNT → o.WellFormed →
    wrapJsonVunpack ⟨fun _ => ()⟩ o (some desc) (v.args true) = some (.done rc stores) →
    (rc = 0 ∨ ∃ position, rc = JsonError.incomplete.rc position) →
    ((∃ position, rc = JsonError.incomplete.rc position) ↔ Incomplete v o) := by
  intro hall
  have hiff := hall sameKeys sameKeys.text twoNulls 0 [] rfl (by decide) twoNulls_wellFormed rfl (.inl rfl)
  obtain ⟨position, hrc⟩ := hiff.mpr ⟨sameKeys, twoNulls, ⟨.whole _ _, rfl⟩, nofun⟩
  exact JsonError.rc_ne_zero _ _ hrc.symm

end AfbBinder.WrapJson
