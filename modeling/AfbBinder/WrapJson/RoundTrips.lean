import AfbBinder.WrapJson.Meanings
import AfbBinder.WrapJson.Packings

/-! What wrap_json_vpack packs is unpacked by wrap_json_vunpack: the two calls give the packed
values back if and only if the item fits. -/
namespace AfbBinder.WrapJson
open Lib.Cstrings Lib.Loops
open Lib.Json (lbracket rbracket lbrace rbrace)

variable {D : Type}

/-- The block of a key. -/
def keyBlock (k : Bytes) : KeyBlock := if h : 0 ∈ k then ⟨k, h⟩ else ⟨[0], List.mem_singleton.mpr rfl⟩

mutual

/-- The descriptor of an item, for its unpacking. -/
def Item.shape : Item → Shape
  | .null => .null
  | .boolean _ p => .boolean (some p)
  | .int _ p => .int (some p)
  | .int64 _ p => .int64 (some p)
  | .string _ p => .string (some p) none
  | .stringLen _ _ p pz => .string (some p) (some (some pz))
  | .bytes url _ _ p pz => .bytes url (some p) (some pz)
  | .array items => .array (itemsShape items) .none
  | .object members => .object (membersShape members) .none

def itemsShape : List Item → List Shape
  | [] => []
  | item :: items => item.shape :: itemsShape items

def membersShape : List (Bytes × Item) → List ((KeyBlock × Bool) × Shape)
  | [] => []
  | (k, item) :: members => ((keyBlock k, false), item.shape) :: membersShape members

end

private theorem keyBlock_val {k : Bytes} (h : 0 ∈ k) : (keyBlock k).1 = k := by
  unfold keyBlock
  rw [dif_pos h]

/-- The shape of an item has its text. -/
theorem Item.shape_text (item : Item) : item.shape.text = item.text := by
  induction item using Item.induct with
  | array items ih =>
    have hitems : shapesText (itemsShape items) = itemsText items := by
      induction items with
      | nil => rfl
      | cons item items ih' =>
        obtain ⟨hitem, hrest⟩ := List.forall_mem_cons.mp ih
        rw [itemsShape, shapesText, itemsText, hitem, ih' hrest]
    rw [shape, Shape.text, hitems, text]
    rfl
  | object members ih =>
    have hmembers : fieldsText (membersShape members) = membersText members := by
      induction members with
      | nil => rfl
      | cons m members ih' =>
        obtain ⟨k, item⟩ := m
        obtain ⟨hitem, hrest⟩ := List.forall_mem_cons.mp ih
        rw [membersShape, fieldsText, membersText, hitem, ih' hrest]
        rfl
    rw [shape, Shape.text, hmembers, text]
    rfl
  | _ => rfl

private theorem Item.shape_depth (item : Item) : item.shape.depth = item.depth := by
  induction item using Item.induct with
  | array items ih =>
    have hitems : shapesDepth (itemsShape items) = itemsDepth items := by
      induction items with
      | nil => rfl
      | cons item items ih' =>
        obtain ⟨hitem, hrest⟩ := List.forall_mem_cons.mp ih
        rw [itemsShape, shapesDepth, itemsDepth, hitem, ih' hrest]
    rw [shape, Shape.depth, hitems, depth]
  | object members ih =>
    have hmembers : fieldsDepth (membersShape members) = membersDepth members := by
      induction members with
      | nil => rfl
      | cons m members ih' =>
        obtain ⟨k, item⟩ := m
        obtain ⟨hitem, hrest⟩ := List.forall_mem_cons.mp ih
        rw [membersShape, fieldsDepth, membersDepth, hitem, ih' hrest]
    rw [shape, Shape.depth, hmembers, depth]
  | _ => rfl

/-- The keys being texts, the shape of an item has its arguments. -/
theorem Item.shape_args (item : Item) (hvalid : item.Valid) : item.shape.args true = item.unpackArgs := by
  induction item using Item.induct with
  | array items ih =>
    have hitems : shapesArgs true (itemsShape items) = itemsUnpackArgs items := by
      change ItemsValid items at hvalid
      induction items with
      | nil => rfl
      | cons item items ih' =>
        obtain ⟨hitem, hrest⟩ := List.forall_mem_cons.mp ih
        rw [itemsShape, shapesArgs, itemsUnpackArgs, hitem hvalid.1, ih' hrest hvalid.2]
    rw [shape, Shape.args, hitems, unpackArgs]
  | object members ih =>
    have hmembers : fieldsArgs true (membersShape members) = membersUnpackArgs members := by
      replace hvalid : MembersValid members := hvalid.2
      induction members with
      | nil => rfl
      | cons m members ih' =>
        obtain ⟨k, item⟩ := m
        obtain ⟨hitem, hrest⟩ := List.forall_mem_cons.mp ih
        obtain ⟨hk, hvaliditem, hvalid⟩ := hvalid
        rw [membersShape, fieldsArgs, membersUnpackArgs, hitem hvaliditem, ih' hrest hvalid, keyBlock_val hk.1]
    rw [shape, Shape.args, hmembers, unpackArgs]
  | _ => rfl

/-! What the shape of an item means. -/

/-- The outcome is that of an unpacking, that gives the stores or fails. -/
def Tells (x : Outcome D) (r : Option (List (Nat × Stored D))) : Prop :=
  match r with
  | some l => x = .ok l
  | none => x.error ≠ none

section
variable {x x' : Outcome D} {r r' : Option (List (Nat × Stored D))}

private theorem Tells.andThen (h : Tells x r) (h' : Tells x' r') :
    Tells (x.andThen x') (r.bind fun l => r'.map fun m => l ++ m) := by
  cases r with
  | none =>
    have herror : x.andThen x' = x := by
      unfold Outcome.andThen
      split
      · next hnone => exact absurd hnone h
      · rfl
    rwa [herror]
  | some l =>
    cases h
    cases r' with
    | none => exact h'
    | some m =>
      cases h'
      rfl

theorem tells_fail (e : JsonError) : Tells (.fail e : Outcome D) none := nofun

private theorem tells_value (p : Nat) (x : Option (Stored D)) :
    Tells (valueOutcome true (some p) x) (x.map fun x => [(p, x)]) := by
  cases x with
  | none => exact tells_fail .missfitType
  | some x => rfl

end

private theorem Item.shape_tells (item : Item) (doubles : Doubles D) (hvalid : item.Valid) (o : JsonObject D) :
    Tells (item.shape.meaning doubles true o) (item.unpacked o) := by
  induction item using Item.induct generalizing o with
  | null =>
    rw [unpacked]
    unfold shape Shape.meaning
    split
    · rfl
    · exact tells_fail _
  | boolean b p => exact tells_value p (booleanValue o)
  | int i p => exact tells_value p (intValue o)
  | int64 i p => exact tells_value p (int64Value o)
  | string m p =>
    rw [shape, Shape.meaning, unpacked]
    cases stringValue o with
    | none => exact tells_fail _
    | some x => rfl
  | stringLen m n p pz =>
    rw [shape, Shape.meaning, unpacked]
    cases stringValue o with
    | none => exact tells_fail _
    | some x => rfl
  | bytes url m n p pz =>
    cases o with
    | null => rfl
    | string s =>
      rw [shape, Shape.meaning, unpacked]
      unfold bytesOutcome
      dsimp only
      rw [if_pos ⟨rfl, rfl⟩]
      cases decodeBase64 s with
      | none => exact tells_fail _
      | some data => rfl
    | _ => exact tells_fail _
  | array items ih =>
    have hitems (js : List (JsonObject D)) (count index : Int32) :
        Tells (shapesMeaning doubles true (itemsShape items) .none js count index) (itemsUnpacked items js count index) := by
      change ItemsValid items at hvalid
      induction items generalizing index with
      | nil => rfl
      | cons item items ih' =>
        obtain ⟨hitem, hrest⟩ := List.forall_mem_cons.mp ih
        rw [itemsShape, shapesMeaning, itemsUnpacked]
        split
        · exact tells_fail _
        · exact (hitem hvalid.1 _).andThen (ih' hrest (index + 1) hvalid.2)
    cases o with
    | array js => exact hitems js _ 0
    | _ => exact tells_fail _
  | object members ih =>
    have hmembers (ms : List (Bytes × JsonObject D)) (count index : Int32) :
        Tells (fieldsMeaning doubles true (membersShape members) .none ms count index) (membersUnpacked members ms) := by
      replace hvalid : MembersValid members := hvalid.2
      induction members generalizing index with
      | nil => rfl
      | cons m members ih' =>
        obtain ⟨k, item⟩ := m
        obtain ⟨hitem, hrest⟩ := List.forall_mem_cons.mp ih
        obtain ⟨hk, hvaliditem, hvalid⟩ := hvalid
        have hname : (keyBlock k).name = ctext k := congrArg ctext (keyBlock_val hk.1)
        rw [membersShape, fieldsMeaning, membersUnpacked]
        dsimp only
        rw [hname]
        cases ms.lookup (ctext k) with
        | none => exact tells_fail _
        | some o => exact (hitem hvaliditem o).andThen (ih' hrest (index + 1) hvalid)
    cases o with
    | object ms => exact hmembers ms _ 0
    | _ => exact tells_fail _

/-! The two calls. -/

section
variable {strings : StringMaker} {doubles : Doubles D} {item : Item} {desc : Bytes}

/-- The packing gives the object that the item says, and no other. -/
theorem wrapJsonVpack_item (hvalid : item.Valid) (hdepth : item.depth < STACKCOUNT) (hdesc : significant desc = item.text)
    (j : JsonObject D) : wrapJsonVpack strings (some desc) item.packArgs [] = some (.done 0 j) ↔
      ∃ b, item.packed strings ⟨256, List.replicate 256 0⟩ = some (j, b) := by
  have hawaits : Awaits item (packStart desc item.packArgs [] : PackState D) [] [] := by
    refine ⟨skipped_skip desc, ?_, (List.append_nil _).symm, nofun, rfl, ⟨_, _, rfl, .inl rfl⟩, ?_⟩
    · rw [List.append_nil, ← hdesc]
      exact significant_skip desc
    · rw [packStart, List.length_singleton]
      omega
  have hgives := item.packs strings hvalid hawaits
  have hends (r : Except (Stop (PackState D)) (JsonObject D)) : packRun strings (some desc) item.packArgs [] = some r ↔
      Ends (packStep strings) (packStart desc item.packArgs []) r :=
    iterate_iff (fun _ _ => packStep_length) (Nat.lt_succ_of_le (skip_length desc))
  change Gives strings _ (item.packed strings ⟨256, List.replicate 256 0⟩) _ at hgives
  cases hpacked : item.packed strings ⟨256, List.replicate 256 0⟩ with
  | none =>
    rw [hpacked] at hgives
    obtain ⟨stop, hgoes⟩ := hgives
    have hrun := (hends _).mpr (ends_iff_goes.mpr hgoes)
    refine iff_of_false (fun h => ?_) (by rintro ⟨b, hb⟩; cases hb)
    rw [wrapJsonVpack, hrun] at h
    cases stop with
    | error e st => exact e.rc_ne_zero _ (PackResult.done.inj (Option.some.inj h)).1
    | fault f => cases h
  | some x =>
    obtain ⟨j', b⟩ := x
    rw [hpacked] at hgives
    obtain ⟨st', hleads, hend⟩ := hgives
    have hlast : packStore st' j' = .ok (.inr j') := by
      have hcur : cur st'.d = 0 := by
        rw [hend.skipped.cur_eq, hend.text]
        rfl
      have hstack : st'.stack = [⟨none, none, packAcceptAny, 0⟩] := hend.stack
      unfold packStore
      rw [hstack]
      dsimp only
      rw [if_pos rfl, if_neg (not_not_intro rfl), if_neg (not_not_intro hcur)]
    have hrun := (hends (.ok j')).mpr (ends_iff_goes.mpr (hleads.goes.mpr (by rw [hlast]; rfl)))
    rw [wrapJsonVpack, hrun]
    constructor
    · intro h
      cases h
      exact ⟨b, rfl⟩
    · rintro ⟨b', hb⟩
      cases hb
      rfl

/-- The unpacking makes the stores that the item says, and no others. -/
theorem wrapJsonVunpack_item (hvalid : item.Valid) (hdepth : item.depth < STACKCOUNT)
    (hdesc : significant desc = item.text) (j : JsonObject D) (l : List (Nat × Stored D)) :
    wrapJsonVunpack doubles j (some desc) item.unpackArgs = some (.done 0 l) ↔ item.unpacked j = some l := by
  have htext : significant desc = item.shape.text := hdesc.trans item.shape_text.symm
  have hlow : item.shape.depth ≤ STACKCOUNT := by
    rw [item.shape_depth]
    exact Nat.le_of_lt hdepth
  obtain ⟨position, hcall⟩ := vunpack_meaning doubles true item.shape htext hlow j
  have htells := item.shape_tells doubles hvalid j
  rw [item.shape_args hvalid] at hcall
  rw [wrapJsonVunpack, hcall]
  cases hunpacked : (item.unpacked j : Option (List (Nat × Stored D))) with
  | none =>
    rw [hunpacked] at htells
    refine iff_of_false (fun h => ?_) (by rintro ⟨⟩)
    generalize item.shape.meaning doubles true j = x at *
    obtain ⟨stores, error⟩ := x
    cases error with
    | none => exact htells rfl
    | some e => exact e.rc_ne_zero _ (UnpackResult.done.inj (Option.some.inj h)).1
  | some m =>
    rw [hunpacked] at htells
    rw [show item.shape.meaning doubles true j = .ok m from htells]
    constructor
    · intro h
      cases h
      rfl
    · intro h
      cases h
      rfl

/-- The two calls do what the item says. -/
theorem calls_iff (strings : StringMaker) (doubles : Doubles D) (hvalid : item.Valid) (hdepth : item.depth < STACKCOUNT)
    {mirror : Bytes} (hdesc : significant desc = item.text) (hmirror : significant mirror = item.text) :
    (∃ j : JsonObject D, wrapJsonVpack strings (some desc) item.packArgs [] = some (.done 0 j) ∧
      wrapJsonVunpack doubles j (some mirror) item.unpackArgs = some (.done 0 item.stores)) ↔
    ∃ (j : JsonObject D) (b : Scratch), item.packed strings ⟨256, List.replicate 256 0⟩ = some (j, b) ∧
      item.unpacked j = some item.stores := by
  constructor
  · rintro ⟨j, hpack, hunpack⟩
    obtain ⟨b, hpacked⟩ := (wrapJsonVpack_item hvalid hdepth hdesc j).mp hpack
    exact ⟨j, b, hpacked, (wrapJsonVunpack_item hvalid hdepth hmirror j _).mp hunpack⟩
  · rintro ⟨j, b, hpacked, hunpack⟩
    exact ⟨j, (wrapJsonVpack_item hvalid hdepth hdesc j).mpr ⟨b, hpacked⟩,
      (wrapJsonVunpack_item hvalid hdepth hmirror j _).mpr hunpack⟩

end

private theorem covers_start : Covers ⟨256, List.replicate 256 0⟩ (256, 256) :=
    ⟨rfl, List.length_replicate, by decide⟩

/-- The packed values are given back if and only if the item fits. -/
theorem pack_unpack_iff (strings : StringMaker) (doubles : Doubles D) {item : Item} (hvalid : item.Valid)
    (hdepth : item.depth < STACKCOUNT) {desc mirror : Bytes} (hdesc : significant desc = item.text)
    (hmirror : significant mirror = item.text) :
    (∃ j : JsonObject D, wrapJsonVpack strings (some desc) item.packArgs [] = some (.done 0 j) ∧
      wrapJsonVunpack doubles j (some mirror) item.unpackArgs = some (.done 0 item.stores)) ↔ item.Fits :=
  (calls_iff strings doubles hvalid hdepth hdesc hmirror).trans (item.trip_iff strings hvalid covers_start)

/-- {"a": [7, "hi"]} -/
def nestedItem : Item := .object [([0x61, 0], .array [.int 7 0, .string [0x68, 0x69, 0] 1])]

/-- With spaces, commas and a colon in the descriptor. -/
theorem pack_unpack_nested : ∃ j : JsonObject Unit,
    wrapJsonVpack takingMaker (some [lbrace, lowerS, 0x3A, 0x20, lbracket, lowerI, 0x2C, lowerS, rbracket, rbrace])
      nestedItem.packArgs [] = some (.done 0 j) ∧
    wrapJsonVunpack ⟨fun _ => ()⟩ j (some [lbrace, lowerS, lbracket, lowerI, lowerS, rbracket, rbrace, 0x20])
      nestedItem.unpackArgs = some (.done 0 nestedItem.stores) := by
  have hvalid : nestedItem.Valid := by
    refine ⟨by decide, ⟨by decide, by decide⟩, ⟨trivial, ⟨by decide, by decide⟩, trivial⟩, trivial⟩
  exact (pack_unpack_iff takingMaker ⟨fun _ => ()⟩ hvalid (by decide) (by decide) (by decide)).mpr
    ⟨by decide, by decide⟩

/-- Two strings of 257 and of 258 characters: the second is written out of the block of the first. -/
def overflowItem : Item :=
  .array [.string (List.replicate 257 0x61 ++ [0]) 0, .string (List.replicate 258 0x61 ++ [0]) 1]

theorem pack_unpack_overflow : ¬ ∀ (item : Item) (desc mirror : Bytes), item.Valid → item.depth < STACKCOUNT →
    significant desc = item.text → significant mirror = item.text →
    ∃ j : JsonObject Unit, wrapJsonVpack takingMaker (some desc) item.packArgs [] = some (.done 0 j) ∧
      wrapJsonVunpack ⟨fun _ => ()⟩ j (some mirror) item.unpackArgs = some (.done 0 item.stores) := by
  intro hall
  have hvalid : overflowItem.Valid := by
    refine ⟨⟨by decide +kernel, ?_⟩, ⟨by decide +kernel, ?_⟩, trivial⟩ <;>
      rw [List.length_append, List.length_replicate] <;> decide
  have htrip := hall overflowItem overflowItem.text overflowItem.text hvalid (by decide) rfl rfl
  have hpacked := (calls_iff takingMaker ⟨fun _ => ()⟩ hvalid (by decide) rfl rfl).mp htrip
  have hfits := (overflowItem.trip_iff takingMaker hvalid covers_start).mp hpacked
  exact absurd hfits.2 (by decide +kernel)

end AfbBinder.WrapJson
