import AfbBinder.WrapJson.Parsings
import AfbBinder.WrapJson.Strictness

/-! wrap_json_check against wrap_json_unpack, for every descriptor. -/
namespace AfbBinder.WrapJson
open Lib.Cstrings
open Lib.Json (lbracket rbracket lbrace rbrace)

variable {D : Type}

/-- What a part of a shape asks of the value that it is matched with, but of its parts. -/
def Suits : Shape → JsonObject D → Prop
  | .null, o => o.isNull
  | .string _ _, .string _ => True
  | .boolean _, .boolean _ => True
  | .int _, .int _ => True
  | .int64 _, .int _ => True
  | .double _ _, .double _ => True
  | .double int _, .int _ => int
  | .any _ _, _ => True
  | .bytes _ _ _, .null => True
  | .bytes _ _ _, .string _ => True
  | .array items mark, .array os => items.length ≤ counted os.length ∧
      (mark = .strict → Int32.ofNat items.length = Int32.ofNat os.length)
  | .object members mark, .object ms => (∀ m ∈ members, m.1.2 ∨ (ms.lookup m.1.1.name).isSome) ∧
      (mark = .strict → Int32.ofNat (foundKeys members ms).length = Int32.ofNat ms.length)
  | _, _ => False

/-- The value has the types and the containers of the shape. -/
def Fitting (v : Shape) (o : JsonObject D) : Prop := ∀ w p, Matched v o w p → Suits w p

/-- The strings that are read as bytes, to be stored, are encoded in base64. -/
def Decodable (v : Shape) (o : JsonObject D) : Prop := ∀ (url : Bool) (py pz : Nat) (s : Bytes),
  Matched v o (.bytes url (some py) (some pz)) (.string s) → decodeBase64 s ≠ none

/-- What storing asks besides. -/
def Decodes : Shape → JsonObject D → Prop
  | .bytes _ (some _) (some _), .string s => decodeBase64 s ≠ none
  | _, _ => True

section
variable {v w : Shape} {o p : JsonObject D} {P : Shape → JsonObject D → Prop}

private theorem matched_alone (hv : ∀ items mark, v ≠ .array items mark)
    (hv' : ∀ members mark, v ≠ .object members mark) :
    (∀ w p, Matched v o w p → P w p) ↔ P v o := by
  refine ⟨fun h => h v o (.whole v o), fun h w p hmatched => ?_⟩
  cases hmatched with
  | whole => exact h
  | item => exact absurd rfl (hv _ _)
  | member => exact absurd rfl (hv' _ _)

private theorem matched_array {items : List Shape} {mark : Mark} {os : List (JsonObject D)} :
    (∀ w p, Matched (.array items mark) (.array os) w p → P w p) ↔ P (.array items mark) (.array os) ∧
      ∀ (i : Nat) (v : Shape) (o : JsonObject D), items[i]? = some v → os[i]? = some o →
        ∀ w p, Matched v o w p → P w p := by
  constructor
  · exact fun h => ⟨h _ _ (.whole _ _), fun i v o hv ho w p hm => h w p (.item hv ho hm)⟩
  · rintro ⟨hwhole, hitems⟩ w p hmatched
    cases hmatched with
    | whole => exact hwhole
    | item hv ho hm => exact hitems _ _ _ hv ho w p hm

private theorem matched_object {members : List ((KeyBlock × Bool) × Shape)} {mark : Mark}
    {ms : List (Bytes × JsonObject D)} :
    (∀ w p, Matched (.object members mark) (.object ms) w p → P w p) ↔ P (.object members mark) (.object ms) ∧
      ∀ m ∈ members, ∀ o, ms.lookup m.1.1.name = some o → ∀ w p, Matched m.2 o w p → P w p := by
  constructor
  · exact fun h => ⟨h _ _ (.whole _ _), fun m hm o ho w p hmatched => h w p (.member hm ho hmatched)⟩
  · rintro ⟨hwhole, hmembers⟩ w p hmatched
    cases hmatched with
    | whole => exact hwhole
    | member hv ho hm => exact hmembers _ hv _ ho w p hm

private theorem decodable_iff : Decodable v o ↔ ∀ w p, Matched v o w p → Decodes w p := by
  constructor
  · intro h w p hmatched
    unfold Decodes
    split
    · exact h _ _ _ _ hmatched
    · trivial
  · exact fun h url py pz s hmatched => h _ _ hmatched

end

section
variable {doubles : Doubles D} {store : Bool} {o : JsonObject D}

private theorem valueOutcome_none {p : Option Nat} {x : Option (Stored D)} :
    (valueOutcome store p x).error = none ↔ x.isSome := by
  cases x with
  | none => exact iff_of_false (Option.some_ne_none _) Bool.false_ne_true
  | some x => exact iff_of_true rfl rfl

private theorem bytesOutcome_none {url : Bool} {py pz : Option Nat} :
    (bytesOutcome (address store py) (address store pz) o : Outcome D).error = none ↔
      Suits (.bytes url py pz) o ∧ (store = true → Decodes (.bytes url py pz) o) := by
  cases o with
  | null => simp [bytesOutcome, Suits, Decodes, Outcome.ok]
  | string s =>
    cases store <;> cases py <;> cases pz <;> simp [bytesOutcome, address, Suits, Decodes, Outcome.ok]
    cases decodeBase64 s <;> simp [Outcome.fail]
  | _ => exact iff_of_false (Option.some_ne_none _) fun h => h.1

variable (doubles store) in
/-- The value is unpacked if and only if each part of it suits the part of the shape. -/
theorem meaning_none (v : Shape) (o : JsonObject D) : (v.meaning doubles store o).error = none ↔
    ∀ w p, Matched v o w p → Suits w p ∧ (store = true → Decodes w p) := by
  induction v using Shape.induct generalizing o with
  | null =>
    rw [matched_alone (by rintro _ _ ⟨⟩) (by rintro _ _ ⟨⟩), Shape.meaning]
    cases o <;> simp [JsonObject.isNull, Suits, Decodes, Outcome.ok, Outcome.fail]
  | string p size =>
    rw [matched_alone (by rintro _ _ ⟨⟩) (by rintro _ _ ⟨⟩), Shape.meaning, Outcome.andThen_none, valueOutcome_none]
    cases o <;> simp [stringValue, Suits, Decodes, Outcome.ok]
  | boolean p =>
    rw [matched_alone (by rintro _ _ ⟨⟩) (by rintro _ _ ⟨⟩), Shape.meaning, valueOutcome_none]
    cases o <;> simp [booleanValue, Suits, Decodes]
  | int p =>
    rw [matched_alone (by rintro _ _ ⟨⟩) (by rintro _ _ ⟨⟩), Shape.meaning, valueOutcome_none]
    cases o <;> simp [intValue, Suits, Decodes]
  | int64 p =>
    rw [matched_alone (by rintro _ _ ⟨⟩) (by rintro _ _ ⟨⟩), Shape.meaning, valueOutcome_none]
    cases o <;> simp [int64Value, Suits, Decodes]
  | double i p =>
    rw [matched_alone (by rintro _ _ ⟨⟩) (by rintro _ _ ⟨⟩), Shape.meaning, valueOutcome_none]
    cases o <;> cases i <;> simp [doubleValue, Suits, Decodes]
  | any own p =>
    rw [matched_alone (by rintro _ _ ⟨⟩) (by rintro _ _ ⟨⟩), Shape.meaning, valueOutcome_none]
    simp [Suits, Decodes]
  | bytes url py pz =>
    rw [matched_alone (by rintro _ _ ⟨⟩) (by rintro _ _ ⟨⟩), Shape.meaning]
    exact bytesOutcome_none
  | array items mark ih =>
    cases o with
    | array os =>
      rw [matched_array, array_none]
      refine ⟨fun h => ⟨⟨h.2, fun _ => trivial⟩, fun i v o hv ho => ?_⟩, fun h => ⟨fun i v o hv ho => ?_, h.1.1⟩⟩
      · exact (ih v (List.mem_of_getElem? hv) o).mp (h.1 i v o hv ho)
      · exact (ih v (List.mem_of_getElem? hv) o).mpr (h.2 i v o hv ho)
    | _ => exact iff_of_false (Option.some_ne_none _) fun h => (h _ _ (.whole _ _)).1
  | object members mark ih =>
    cases o with
    | object ms =>
      rw [matched_object, Shape.meaning]
      refine fieldsMeaning_none.trans ?_
      rw [Int32.zero_add]
      constructor
      · rintro ⟨hmembers, hmark⟩
        refine ⟨⟨⟨fun m hm => (hmembers m hm).1, hmark⟩, fun _ => trivial⟩, fun m hm o ho => ?_⟩
        exact (ih m hm o).mp ((hmembers m hm).2 o ho)
      · rintro ⟨⟨⟨hmembers, hmark⟩, -⟩, hparts⟩
        exact ⟨fun m hm => ⟨hmembers m hm, fun o ho => (ih m hm o).mpr (hparts m hm o ho)⟩, hmark⟩
    | _ => exact iff_of_false (Option.some_ne_none _) fun h => (h _ _ (.whole _ _)).1

end

/-! The depth of a shape is that of the brackets of its text. -/

/-- The deepest level that brackets open, from a level. -/
def height : Bytes → Nat → Nat
  | [], _ => 0
  | c :: text, level =>
    if c = lbracket ∨ c = lbrace then max (level + 1) (height text (level + 1))
    else if c = rbracket ∨ c = rbrace then height text (level - 1)
    else height text level

/-- The deepest level that so many containers in one another open. -/
def reach (depth level : Nat) : Nat := if depth = 0 then 0 else level + depth

section
variable {c : UInt8} {rest : Bytes} {level a b : Nat}

private theorem height_plain (h : c ≠ lbracket ∧ c ≠ lbrace ∧ c ≠ rbracket ∧ c ≠ rbrace) :
    height (c :: rest) level = height rest level := by
  rw [height, if_neg (not_or.mpr ⟨h.1, h.2.1⟩), if_neg (not_or.mpr h.2.2)]

private theorem reach_max : reach (max a b) level = max (reach a level) (reach b level) := by
  unfold reach
  split <;> split <;> split <;> omega

private theorem reach_open : max (level + 1) (max (reach a (level + 1)) b) = max (reach (a + 1) level) b := by
  unfold reach
  split <;> split <;> omega

private theorem height_mark (mark : Mark) : height (mark.text ++ rest) level = height rest level := by
  cases mark with
  | none => rfl
  | strict => exact height_plain (by decide)
  | rest => exact height_plain (by decide)

private theorem height_text (v : Shape) (rest : Bytes) (level : Nat) :
    height (v.text ++ rest) level = max (reach v.depth level) (height rest level) := by
  induction v using Shape.induct generalizing rest level with
  | array items mark ih =>
    have hitems (rest : Bytes) (level : Nat) : height (shapesText items ++ rest) level =
        max (reach (shapesDepth items) level) (height rest level) := by
      induction items generalizing rest with
      | nil => exact (Nat.zero_max _).symm
      | cons v items ih' =>
        obtain ⟨hv, hrest⟩ := List.forall_mem_cons.mp ih
        rw [shapesText, List.append_assoc, hv, ih' hrest, shapesDepth, reach_max, Nat.max_assoc]
    rw [Shape.text, List.cons_append, height, if_pos (.inl rfl), List.append_assoc, List.append_assoc, hitems,
      height_mark, Shape.depth, reach_open]
    rfl
  | object members mark ih =>
    have hkey (optional : Bool) (rest : Bytes) (level : Nat) :
        height (keyText optional ++ rest) level = height rest level := by
      cases optional with
      | false => exact height_plain (by decide)
      | true => exact (height_plain (by decide)).trans (height_plain (by decide))
    have hmembers (rest : Bytes) (level : Nat) : height (fieldsText members ++ rest) level =
        max (reach (fieldsDepth members) level) (height rest level) := by
      induction members generalizing rest with
      | nil => exact (Nat.zero_max _).symm
      | cons m members ih' =>
        obtain ⟨hv, hrest⟩ := List.forall_mem_cons.mp ih
        rw [fieldsText, List.append_assoc, hkey, List.append_assoc, hv, ih' hrest, fieldsDepth, reach_max,
          Nat.max_assoc]
    rw [Shape.text, List.cons_append, height, if_pos (.inr rfl), List.append_assoc, List.append_assoc, hmembers,
      height_mark, Shape.depth, reach_open]
    rfl
  | string p size =>
    cases size with
    | none => exact (height_plain (by decide)).trans (Nat.zero_max _).symm
    | some pz =>
      exact (height_plain (by decide)).trans ((height_plain (by decide)).trans (Nat.zero_max _).symm)
  | null => exact (height_plain (by decide)).trans (Nat.zero_max _).symm
  | boolean p => exact (height_plain (by decide)).trans (Nat.zero_max _).symm
  | int p => exact (height_plain (by decide)).trans (Nat.zero_max _).symm
  | int64 p => exact (height_plain (by decide)).trans (Nat.zero_max _).symm
  | double i p => cases i <;> exact (height_plain (by decide)).trans (Nat.zero_max _).symm
  | any own p => cases own <;> exact (height_plain (by decide)).trans (Nat.zero_max _).symm
  | bytes url py pz => cases url <;> exact (height_plain (by decide)).trans (Nat.zero_max _).symm

private theorem depth_of_text {v w : Shape} (h : v.text = w.text) : v.depth = w.depth := by
  have hv := height_text v [] 0
  have hw := height_text w [] 0
  rw [h, hw] at hv
  unfold reach at hv
  rw [height] at hv
  split at hv <;> split at hv <;> omega

end

/-! The two calls. -/

def UnpackArg.isKey : UnpackArg → Bool
  | .key _ => true
  | _ => false

/-- The arguments of wrap_json_check: the same keys, without the addresses. -/
def keysOf (args : List UnpackArg) : List UnpackArg := args.filter UnpackArg.isKey

/-- When the descriptor is one, the arguments are what it asks for: keys, and addresses of the right
types or NULL. -/
def Asked (desc : Bytes) (args : List UnpackArg) : Prop :=
  (∃ v : Shape, significant desc = v.text) → ∃ v : Shape, significant desc = v.text ∧ args = v.args true

private theorem keysOf_args (v : Shape) : keysOf (v.args true) = v.args false := by
  induction v using Shape.induct with
  | array items mark ih =>
    rw [Shape.args, Shape.args]
    induction items with
    | nil => rfl
    | cons v items ih' =>
      obtain ⟨hv, hrest⟩ := List.forall_mem_cons.mp ih
      rw [shapesArgs, shapesArgs, ← hv, ← ih' hrest]
      exact List.filter_append ..
  | object members mark ih =>
    rw [Shape.args, Shape.args]
    induction members with
    | nil => rfl
    | cons m members ih' =>
      obtain ⟨hv, hrest⟩ := List.forall_mem_cons.mp ih
      rw [fieldsArgs, fieldsArgs, ← hv, ← ih' hrest]
      exact congrArg (UnpackArg.key _ :: ·) (List.filter_append ..)
  | string p size => cases size <;> rfl
  | _ => rfl

section
variable {desc : Bytes} {v : Shape}

variable (doubles : Doubles D) (store : Bool) in
/-- A call with the descriptor of a shape returns 0 if and only if the parts suit. -/
theorem vunpack_zero (hdesc : significant desc = v.text) (hdepth : v.depth ≤ STACKCOUNT) (o : JsonObject D) :
    (∃ stores, vunpack doubles store o (some desc) (v.args store) = some (.done 0 stores)) ↔
      ∀ w p, Matched v o w p → Suits w p ∧ (store = true → Decodes w p) := by
  obtain ⟨position, hmeaning⟩ := vunpack_meaning doubles store v hdesc hdepth o
  rw [← meaning_none doubles store, hmeaning]
  generalize v.meaning doubles store o = x
  obtain ⟨l, error⟩ := x
  cases error with
  | none => exact iff_of_true ⟨l, rfl⟩ rfl
  | some e =>
    refine iff_of_false ?_ (Option.some_ne_none _)
    rintro ⟨stores, h⟩
    exact e.rc_ne_zero _ (UnpackResult.done.inj (Option.some.inj h)).1

end

/-- wrap_json_check returns 0 exactly when wrap_json_unpack does, if and only if the strings that a
fitting value has for bytes are encoded in base64. -/
theorem check_unpack_iff (doubles : Doubles D) (o : JsonObject D) {desc : Bytes} (hnul : 0 ∉ desc) {args : List UnpackArg}
    (hargs : Asked desc args) :
    ((∃ stores, wrapJsonVcheck doubles o (some desc) (keysOf args) = some (.done 0 stores)) ↔
      ∃ stores, wrapJsonVunpack doubles o (some desc) args = some (.done 0 stores)) ↔
    ∀ v : Shape, significant desc = v.text → v.depth ≤ STACKCOUNT → args = v.args true → Fitting v o →
      Decodable v o := by
  constructor
  · rintro hiff v hdesc hdepth rfl hfitting
    have hcheck := (vunpack_zero doubles false hdesc hdepth o).mpr fun w p h => ⟨hfitting w p h, (absurd · Bool.false_ne_true)⟩
    rw [← keysOf_args] at hcheck
    have hunpack := (vunpack_zero doubles true hdesc hdepth o).mp (hiff.mp hcheck)
    exact decodable_iff.mpr fun w p h => (hunpack w p h).2 rfl
  · intro hdecodable
    have hshape {args' : List UnpackArg} {store : Bool} {stores : List (Nat × Stored D)}
        (h : vunpack doubles store o (some desc) args' = some (.done 0 stores)) :
        ∃ v : Shape, significant desc = v.text ∧ v.depth ≤ STACKCOUNT ∧ args = v.args true := by
      obtain ⟨w, hw, hdepth⟩ := vunpack_shape hnul h
      obtain ⟨v, hv, heq⟩ := hargs ⟨w, hw⟩
      exact ⟨v, hv, depth_of_text (hw.symm.trans hv) ▸ hdepth, heq⟩
    constructor
    · rintro ⟨stores, hcheck⟩
      obtain ⟨v, hv, hdepth, rfl⟩ := hshape hcheck
      rw [wrapJsonVcheck, keysOf_args] at hcheck
      have hsuits := (vunpack_zero doubles false hv hdepth o).mp ⟨stores, hcheck⟩
      have hfitting : Fitting v o := fun w p h => (hsuits w p h).1
      have hdecodes := decodable_iff.mp (hdecodable v hv hdepth rfl hfitting)
      exact (vunpack_zero doubles true hv hdepth o).mpr fun w p h => ⟨hfitting w p h, fun _ => hdecodes w p h⟩
    · rintro ⟨stores, hunpack⟩
      obtain ⟨v, hv, hdepth, rfl⟩ := hshape hunpack
      have hsuits := (vunpack_zero doubles true hv hdepth o).mp ⟨stores, hunpack⟩
      rw [keysOf_args]
      exact (vunpack_zero doubles false hv hdepth o).mpr fun w p h => ⟨(hsuits w p h).1, (absurd · Bool.false_ne_true)⟩

/-- y, with the addresses 0 and 1. -/
def bytesShape : Shape := .bytes true (some 0) (some 1)

private theorem asked_bytes : Asked [lowerY] [.bytes (some 0), .size (some 1)] := fun _ =>
    ⟨bytesShape, rfl, rfl⟩

private theorem shape_bytes {v : Shape} (hargs : [.bytes (some 0), .size (some 1)] = v.args true)
    (htext : [lowerY] = v.text) :
    v = bytesShape := by
  cases v with
  | string p size => cases size <;> cases htext
  | double i p => cases i <;> cases htext
  | any own p => cases own <;> cases htext
  | bytes url py pz =>
    cases url with
    | true =>
      cases hargs
      rfl
    | false => cases htext
  | array items mark => cases htext
  | object members mark => cases htext
  | _ => cases htext

/-- The string Pz8, that encodes two bytes, passes the check and is unpacked. -/
theorem check_unpack_Pz8 :
    (∃ stores, wrapJsonVcheck (⟨fun _ => ()⟩ : Doubles Unit) (.string [0x50, 0x7A, 0x38]) (some [lowerY])
      (keysOf [.bytes (some 0), .size (some 1)]) = some (.done 0 stores)) ↔
    ∃ stores, wrapJsonVunpack (⟨fun _ => ()⟩ : Doubles Unit) (.string [0x50, 0x7A, 0x38]) (some [lowerY])
      [.bytes (some 0), .size (some 1)] = some (.done 0 stores) := by
  refine (check_unpack_iff _ _ (by decide) asked_bytes).mpr fun v htext _ hargs _ => ?_
  obtain rfl := shape_bytes hargs htext
  rintro url py pz s hmatched
  cases hmatched
  decide

/-- The string ! passes the check of y, and is not unpacked by it. -/
theorem check_unpack_bang : ¬ ∀ (o : JsonObject Unit) (desc : Bytes) (args : List UnpackArg), 0 ∉ desc → Asked desc args →
    ((∃ stores, wrapJsonVcheck (⟨fun _ => ()⟩ : Doubles Unit) o (some desc) (keysOf args) = some (.done 0 stores)) ↔
      ∃ stores, wrapJsonVunpack (⟨fun _ => ()⟩ : Doubles Unit) o (some desc) args = some (.done 0 stores)) := by
  intro hall
  have hiff := hall (.string [bang]) [lowerY] _ (by decide) asked_bytes
  obtain ⟨stores, hunpack⟩ := hiff.mp ⟨[], rfl⟩
  cases hunpack

end AfbBinder.WrapJson
