import AfbBinder.WrapJson.Items

/-! What the packing of a tree gives, and its unpacking, without the interpreters: the trip gives
the packed values back if and only if the lengths are ints and the strings are within their block. -/
namespace AfbBinder.WrapJson
open Lib.Cstrings

variable {D : Type} (strings : StringMaker)

/-- A string, copied in the block. -/
def packText (b : Scratch) (m : Bytes) (n : UInt64) : Option (Bytes × Scratch) :=
  let b := b.reserve n
  match copyStrings [(some m, n)] n b.s with
  | .ok s => (strings.newStringLen s n.toUInt32.toInt32).map fun r => (r, { b with s })
  | .error _ => none

/-- The text of bytes. -/
def encodedText (url : Bool) (m : Option Bytes) (n : UInt64) : Option Bytes :=
  if n = 0 then some []
  else
    (encodeBase64 ((m.getD []).take n.toNat) 0 false url).bind fun (out, outsz) =>
      strings.newStringLen out (Int32.ofNat outsz)

mutual

def Item.packed : Item → Scratch → Option (JsonObject D × Scratch)
  | .null, b => some (.null, b)
  | .boolean i _, b => some (.boolean i, b)
  | .int i _, b => some (.int i.toInt64, b)
  | .int64 i _, b => some (.int i, b)
  | .string m _, b =>
    (packText strings b m (UInt64.ofNat (ctext m).length)).map fun (r, b) => (.string r, b)
  | .stringLen m n _ _, b => (packText strings b m n).map fun (r, b) => (.string r, b)
  | .bytes url m n _ _, b => (encodedText strings url m n).map fun r => (.string r, b)
  | .array items, b => (itemsPacked items b).map fun (js, b) => (.array js, b)
  | .object members, b => (membersPacked members [] b).map fun (ms, b) => (.object ms, b)

def itemsPacked : List Item → Scratch → Option (List (JsonObject D) × Scratch)
  | [], b => some ([], b)
  | item :: items, b =>
    (item.packed b).bind fun (j, b) => (itemsPacked items b).map fun (js, b) => (j :: js, b)

def membersPacked : List (Bytes × Item) → List (Bytes × JsonObject D) → Scratch →
    Option (List (Bytes × JsonObject D) × Scratch)
  | [], ms, b => some (ms, b)
  | (k, item) :: members, ms, b =>
    (packText strings b k (UInt64.ofNat (ctext k).length)).bind fun (r, b) =>
      (item.packed b).bind fun (j, b) => membersPacked members (setMember (ctext r) j ms) b

end

mutual

/-- The stores of the unpacking, none when it fails. -/
def Item.unpacked : Item → JsonObject D → Option (List (Nat × Stored D))
  | .null, o => if o.isNull then some [] else none
  | .boolean _ p, o => (booleanValue o).map fun x => [(p, x)]
  | .int _ p, o => (intValue o).map fun x => [(p, x)]
  | .int64 _ p, o => (int64Value o).map fun x => [(p, x)]
  | .string _ p, o => (stringValue o).map fun x => [(p, x)]
  | .stringLen _ _ p pz, o =>
    (stringValue o).map fun x => [(p, x), (pz, .size (UInt64.ofNat o.getString.length))]
  | .bytes _ _ _ p pz, .null => some [(p, .bytes none), (pz, .size 0)]
  | .bytes _ _ _ p pz, .string s =>
    (decodeBase64 s).map fun data => [(p, .bytes (some data)), (pz, .size (UInt64.ofNat data.length))]
  | .bytes _ _ _ _ _, _ => none
  | .array items, .array js => itemsUnpacked items js (Int32.ofNat js.length) 0
  | .array _, _ => none
  | .object members, .object ms => membersUnpacked members ms
  | .object _, _ => none

def itemsUnpacked : List Item → List (JsonObject D) → Int32 → Int32 → Option (List (Nat × Stored D))
  | [], _, _, _ => some []
  | item :: items, js, count, index =>
    if count ≤ index then none
    else (item.unpacked (js.getD index.toNatClampNeg .null)).bind fun l =>
      (itemsUnpacked items js count (index + 1)).map fun m => l ++ m

def membersUnpacked : List (Bytes × Item) → List (Bytes × JsonObject D) →
    Option (List (Nat × Stored D))
  | [], _ => some []
  | (k, item) :: members, ms =>
    (ms.lookup (ctext k)).bind fun o => (item.unpacked o).bind fun l =>
      (membersUnpacked members ms).map fun m => l ++ m

end

section texts
variable {strings} {b b' : Scratch} {w : Nat × Nat} {m r data : Bytes} {n : UInt64}

private theorem Covers.reserve (h : Covers b w) : Covers (b.reserve n) (grow w n.toNat) :=
  covers_reserve h (Nat.mod_eq_of_lt n.toNat_lt).symm

private theorem toInt32_eq (n : UInt64) : n.toUInt32.toInt32 = Int32.ofNat n.toNat := by
  rw [← UInt32.toInt32_ofNat', ← UInt64.toUInt32_ofNat', UInt64.ofNat_toNat]

/-- The copy of a string at the start of a block that has the room. -/
theorem copyStrings_one (s : Bytes) (hm : n.toNat ≤ m.length) : copyStrings [(some m, n)] n s =
    if n.toNat ≤ s.length then .ok (m.take n.toNat ++ s.drop n.toNat) else .error .write := by
  rw [copyStrings]
  by_cases hn : n = 0
  · subst hn
    rw [if_pos rfl, UInt64.toNat_zero, if_pos (Nat.zero_le _), List.take_zero, List.drop_zero, List.nil_append]
    rfl
  · rw [if_neg hn, UInt64.sub_self, UInt64.toNat_zero, Nat.zero_add]
    by_cases hs : n.toNat ≤ s.length
    · rw [if_neg (Nat.not_lt.mpr hs), if_pos hs, copyStrings, memcpy, List.take_zero, List.nil_append,
        Nat.zero_add]
      exact if_neg (Nat.not_lt.mpr hm)
    · rw [if_pos (Nat.lt_of_not_le hs), if_neg hs]

private theorem packText_length (h : packText strings b m n = some (r, b')) : r.length < 2 ^ 31 := by
  unfold packText at h
  dsimp only at h
  split at h
  · obtain ⟨r', hr, heq⟩ := Option.map_eq_some_iff.mp h
    cases heq
    exact strings.length_lt hr
  · cases h

/-- A string is copied when the block has the room. -/
theorem packText_eq (strings : StringMaker) (b : Scratch) (hn : n.toNat < 2 ^ 31) (hm : n.toNat ≤ m.length) :
    packText strings b m n =
      if n.toNat ≤ (b.reserve n).s.length then
        some (m.take n.toNat, { b.reserve n with s := m.take n.toNat ++ (b.reserve n).s.drop n.toNat })
      else none := by
  unfold packText
  dsimp only
  rw [copyStrings_one _ hm]
  have htake : (m.take n.toNat).length = n.toNat := List.length_take_of_le hm
  by_cases hroom : n.toNat ≤ (b.reserve n).s.length
  · have hcopy := strings.copies (m.take n.toNat ++ (b.reserve n).s.drop n.toNat) n.toNat hn
      (by rw [List.length_append, htake]; exact Nat.le_add_right _ _)
    rw [List.take_left' htake] at hcopy
    rw [if_pos hroom, if_pos hroom, toInt32_eq]
    dsimp only
    rw [hcopy]
    rfl
  · rw [if_neg hroom, if_neg hroom]

/-- A string that is packed is the start of its block, and the room was there. -/
theorem packText_some (h : packText strings b m n = some (r, b')) (hn : n.toNat < 2 ^ 31)
    (hm : n.toNat ≤ m.length) : r = m.take n.toNat ∧ (Covers b w →
      n.toNat ≤ (grow w n.toNat).2 ∧ Covers b' (grow w n.toNat)) := by
  rw [packText_eq strings b hn hm] at h
  obtain ⟨hroom, heq⟩ := Option.ite_none_right_eq_some.mp h
  cases heq
  refine ⟨rfl, fun hb => ?_⟩
  have hgrow := hb.reserve (n := n)
  rw [hgrow.block] at hroom
  refine ⟨hroom, hgrow.ssz, ?_, hgrow.size⟩
  rw [List.length_append, List.length_take_of_le hm, List.length_drop, hgrow.block]
  omega

private theorem packText_of_room (strings : StringMaker) (hb : Covers b w) (hn : n.toNat < 2 ^ 31)
    (hm : n.toNat ≤ m.length)
    (hroom : n.toNat ≤ (grow w n.toNat).2) :
    ∃ b', packText strings b m n = some (m.take n.toNat, b') ∧ Covers b' (grow w n.toNat) := by
  have hgrow := hb.reserve (n := n)
  have heq := packText_eq strings b hn hm
  rw [if_pos (hgrow.block ▸ hroom)] at heq
  exact ⟨_, heq, ((packText_some heq hn hm).2 hb).2⟩

variable (strings) in
/-- The text of bytes is decoded as they are, if its length is an int. -/
theorem encodedText_spec {url : Bool} {m : Option Bytes} (hlen : nout n.toNat < 2 ^ 31)
    (hm : n.toNat ≤ (m.getD []).length) : ∃ r, encodedText strings url m n = some r ∧
      decodeBase64 r = some ((m.getD []).take n.toNat) := by
  unfold encodedText
  by_cases hn : n = 0
  · subst hn
    exact ⟨[], if_pos rfl, rfl⟩
  · obtain ⟨out, hencode, hout, -, hdecode⟩ := decode_encode ((m.getD []).take n.toNat) url
    rw [List.length_take_of_le hm] at hencode hout
    have hcopy := strings.copies out (nout n.toNat) hlen (Nat.le_of_eq hout.symm)
    rw [List.take_of_length_le (Nat.le_of_eq hout)] at hcopy
    refine ⟨out, ?_, hdecode⟩
    rw [if_neg hn, hencode, Option.bind_some]
    exact hcopy

/-- A text that is decoded as so many bytes has a length that is an int. -/
theorem nout_lt_of_encodedText {url : Bool} {m : Option Bytes} (h : encodedText strings url m n = some r)
    (hdecode : decodeBase64 r = some data) (hdata : data.length = n.toNat) : nout n.toNat < 2 ^ 31 := by
  have hle := nout_le_of_decode hdecode
  rw [hdata] at hle
  refine Nat.lt_of_le_of_lt hle ?_
  unfold encodedText at h
  split at h
  · cases h
    decide
  · obtain ⟨⟨out, outsz⟩, -, hr⟩ := Option.bind_eq_some_iff.mp h
    exact strings.length_lt hr

end texts

/-! The trip succeeds. -/

/-- The packing of an item that fits, and its unpacking. -/
def Item.Trips (D : Type) (item : Item) : Prop :=
  ∀ {b : Scratch} {w : Nat × Nat}, item.Valid → (∀ n ∈ item.sizes ++ item.lengths, n < 2 ^ 31) →
    Covers b w → Contained w item.sizes → ∃ (j : JsonObject D) (b' : Scratch),
      item.packed strings b = some (j, b') ∧ Covers b' (item.sizes.foldl grow w) ∧
      item.unpacked j = some item.stores

section
variable {strings} {b : Scratch} {w : Nat × Nat}

private theorem forall_append_append {α : Type*} {P : α → Prop} {xs ys us vs : List α} :
    (∀ n ∈ xs ++ ys ++ (us ++ vs), P n) ↔ (∀ n ∈ xs ++ us, P n) ∧ ∀ n ∈ ys ++ vs, P n := by
  simp only [List.forall_mem_append]
  tauto

private theorem ofNat_le {i n : Nat} (hi : i < 2 ^ 31) (hn : n < 2 ^ 31) : Int32.ofNat n ≤ Int32.ofNat i ↔
    n ≤ i := by
  rw [Int32.le_iff_toInt_le, Int32.toInt_ofNat_of_lt hi, Int32.toInt_ofNat_of_lt hn, Int.ofNat_le]

private theorem ofNat_succ (i : Nat) : Int32.ofNat i + 1 = Int32.ofNat (i + 1) :=
  (Int32.ofNat_add i 1).symm

private theorem getD_append {pre js : List (JsonObject D)} {j : JsonObject D} (h : pre.length < 2 ^ 31) :
    (pre ++ j :: js).getD (Int32.ofNat pre.length).toNatClampNeg .null = j := by
  rw [Int32.toNatClampNeg_ofNat_of_lt h, List.getD_eq_getElem?_getD, List.getElem?_append_right (Nat.le_refl _),
    Nat.sub_self]
  rfl

private theorem trips_items {items : List Item} (h : ∀ item ∈ items, item.Trips strings D)
    (hvalid : ItemsValid items)
    (hsmall : ∀ n ∈ itemsSizes items ++ itemsLengths items, n < 2 ^ 31) (hb : Covers b w)
    (hfit : Contained w (itemsSizes items)) : ∃ (js : List (JsonObject D)) (b' : Scratch),
      itemsPacked strings items b = some (js, b') ∧ Covers b' ((itemsSizes items).foldl grow w) ∧
      js.length = items.length ∧ ∀ pre : List (JsonObject D), (pre ++ js).length < 2 ^ 31 →
        itemsUnpacked items (pre ++ js) (Int32.ofNat (pre ++ js).length) (Int32.ofNat pre.length) =
          some (itemsStores items) := by
  induction items generalizing b w with
  | nil => exact ⟨[], b, rfl, hb, rfl, fun _ _ => rfl⟩
  | cons item items ih =>
    rw [itemsSizes, contained_append] at hfit
    obtain ⟨hhead, htail⟩ := forall_append_append.mp hsmall
    obtain ⟨j, b₁, hj, hb₁, hunpack⟩ := h item List.mem_cons_self hvalid.1 hhead hb hfit.1
    obtain ⟨js, b₂, hjs, hb₂, hlen, hrest⟩ := ih (fun i hi => h i (List.mem_cons_of_mem _ hi)) hvalid.2
      htail hb₁ hfit.2
    refine ⟨j :: js, b₂, ?_, ?_, congrArg Nat.succ hlen, fun pre hpre => ?_⟩
    · rw [itemsPacked, hj, Option.bind_some]
      dsimp only
      rw [hjs]
      rfl
    · rw [itemsSizes, List.foldl_append]
      exact hb₂
    · have hlt : pre.length < (pre ++ j :: js).length := by
        rw [List.length_append, List.length_cons]
        omega
      have hindex : pre.length < 2 ^ 31 := Nat.lt_trans hlt hpre
      rw [itemsUnpacked, if_neg fun hle => Nat.not_lt.mpr ((ofNat_le hindex hpre).mp hle) hlt,
        getD_append hindex, hunpack, Option.bind_some, ofNat_succ]
      have hnext := hrest (pre ++ [j])
      rw [@List.length_append _ pre, List.length_singleton, List.append_assoc, List.singleton_append] at hnext
      rw [hnext hpre]
      rfl

private theorem ctext_length_le (m : Bytes) : (ctext m).length ≤ m.length := (List.takeWhile_prefix _).length_le

private theorem toNat_ctext {m : Bytes} (h : Text m) :
    (UInt64.ofNat (ctext m).length).toNat = (ctext m).length := by
  have hle := ctext_length_le m
  have hlt := h.2
  rw [UInt64.toNat_ofNat', Nat.mod_eq_of_lt (by omega)]

private theorem take_ctext {m : Bytes} (h : Text m) : m.take (UInt64.ofNat (ctext m).length).toNat =
    ctext m := by
  rw [toNat_ctext h]
  exact (List.prefix_iff_eq_take.mp (List.takeWhile_prefix _)).symm

private theorem ctext_ctext (m : Bytes) : ctext (ctext m) = ctext m := by
  unfold ctext
  exact List.takeWhile_idem

/-- A text whose length is an int is packed as it is. -/
theorem packText_ctext {m r : Bytes} {b' : Scratch} (hm : Text m) (hlen : (ctext m).length < 2 ^ 31)
    (h : packText strings b m (UInt64.ofNat (ctext m).length) = some (r, b')) : r = ctext m ∧
      (Covers b w → (ctext m).length ≤ (grow w (ctext m).length).2 ∧
        Covers b' (grow w (ctext m).length)) := by
  have hn := toNat_ctext hm
  obtain ⟨hr, hcovers⟩ := packText_some (w := w) h (by rwa [hn]) (by rw [hn]; exact ctext_length_le m)
  rw [take_ctext hm] at hr
  rw [hn] at hcovers
  exact ⟨hr, hcovers⟩

private theorem packText_ctext_of_room (strings : StringMaker) {m : Bytes} (hm : Text m)
    (hlen : (ctext m).length < 2 ^ 31)
    (hb : Covers b w) (hroom : (ctext m).length ≤ (grow w (ctext m).length).2) :
    ∃ b', packText strings b m (UInt64.ofNat (ctext m).length) = some (ctext m, b') ∧
      Covers b' (grow w (ctext m).length) := by
  have hn := toNat_ctext hm
  have hpacked := packText_of_room strings (m := m) hb (by rwa [hn]) (by rw [hn]; exact ctext_length_le m)
    (by rwa [hn])
  rwa [take_ctext hm, hn] at hpacked

/-- The members that are packed leave the values of the other names. -/
theorem membersPacked_lookup {members : List (Bytes × Item)} {ms ms' : List (Bytes × JsonObject D)}
    {b' : Scratch} {name : Bytes} (h : membersPacked strings members ms b = some (ms', b'))
    (hvalid : MembersValid members) (hsmall : ∀ m ∈ members, (ctext m.1).length < 2 ^ 31)
    (hname : ∀ m ∈ members, ctext m.1 ≠ name) : ms'.lookup name = ms.lookup name := by
  induction members generalizing ms b with
  | nil =>
    cases h
    rfl
  | cons m members ih =>
    obtain ⟨hk, -, hvalid⟩ := hvalid
    obtain ⟨hsmallm, hsmall⟩ := List.forall_mem_cons.mp hsmall
    obtain ⟨hnamem, hname⟩ := List.forall_mem_cons.mp hname
    obtain ⟨⟨r, b₁⟩, hr, h⟩ := Option.bind_eq_some_iff.mp h
    obtain ⟨⟨j, b₂⟩, -, h⟩ := Option.bind_eq_some_iff.mp h
    have hr := (packText_ctext (w := (0, 0)) hk hsmallm hr).1
    rw [ih h hvalid hsmall hname, hr, ctext_ctext, lookup_setMember_of_ne hnamem.symm]

private theorem trips_members {members : List (Bytes × Item)} (h : ∀ m ∈ members, m.2.Trips strings D)
    (hvalid : MembersValid members) (hnodup : (members.map fun m => ctext m.1).Nodup)
    (hsmall : ∀ n ∈ membersSizes members ++ membersLengths members, n < 2 ^ 31) (hb : Covers b w)
    (hfit : Contained w (membersSizes members)) (ms : List (Bytes × JsonObject D)) :
    ∃ ms' b', membersPacked strings members ms b = some (ms', b') ∧
      Covers b' ((membersSizes members).foldl grow w) ∧
      membersUnpacked members ms' = some (membersStores members) := by
  induction members generalizing b w ms with
  | nil => exact ⟨ms, b, rfl, hb, rfl⟩
  | cons m members ih =>
    obtain ⟨k, item⟩ := m
    obtain ⟨hk, hitem, hvalid⟩ := hvalid
    obtain ⟨hnew, hnodup⟩ := List.nodup_cons.mp hnodup
    rw [membersSizes, membersLengths, List.cons_append, List.forall_mem_cons] at hsmall
    obtain ⟨hlen, hsmall⟩ := hsmall
    obtain ⟨hhead, htail⟩ := forall_append_append.mp hsmall
    rw [membersSizes] at hfit
    obtain ⟨hroom, hfit⟩ := hfit
    obtain ⟨hfithead, hfittail⟩ := contained_append.mp hfit
    obtain ⟨b₁, hr, hb₁⟩ := packText_ctext_of_room strings hk hlen hb hroom
    obtain ⟨j, b₂, hj, hb₂, hunpack⟩ := h _ List.mem_cons_self hitem hhead hb₁ hfithead
    obtain ⟨ms', b₃, hms, hb₃, hrest⟩ := ih (fun m hm => h m (List.mem_cons_of_mem _ hm)) hvalid hnodup htail
      hb₂ hfittail (setMember (ctext k) j ms)
    have hkeys : ∀ m ∈ members, (ctext m.1).length < 2 ^ 31 := fun m hm =>
      htail _ (List.mem_append_left _ (length_mem_sizes hm))
    have hlookup : ms'.lookup (ctext k) = some j := by
      rw [membersPacked_lookup hms hvalid hkeys fun m hm he => hnew (List.mem_map.mpr ⟨m, hm, he⟩),
        lookup_setMember_self]
    refine ⟨ms', b₃, ?_, ?_, ?_⟩
    · rw [membersPacked, hr, Option.bind_some]
      dsimp only
      rw [hj, Option.bind_some, ctext_ctext]
      exact hms
    · rw [membersSizes, List.foldl_cons, List.foldl_append]
      exact hb₃
    · rw [membersUnpacked, hlookup, Option.bind_some, hunpack, Option.bind_some, hrest]
      rfl

end

private theorem Item.trips (item : Item) : item.Trips strings D := by
  induction item using Item.induct with
  | null => exact fun _ _ hb _ => ⟨.null, _, rfl, hb, rfl⟩
  | boolean i p => exact fun _ _ hb _ => ⟨.boolean i, _, rfl, hb, rfl⟩
  | int i p =>
    refine fun _ _ hb _ => ⟨.int i.toInt64, _, rfl, hb, ?_⟩
    rw [unpacked, intValue, getInt_toInt64]
    rfl
  | int64 i p => exact fun _ _ hb _ => ⟨.int i, _, rfl, hb, rfl⟩
  | string m p =>
    intro b w hvalid hsmall hb hfit
    obtain ⟨b', hpacked, hb'⟩ := packText_ctext_of_room strings hvalid (hsmall _ List.mem_cons_self) hb hfit.1
    refine ⟨.string (ctext m), b', ?_, hb', rfl⟩
    rw [packed, hpacked]
    rfl
  | stringLen m n p pz =>
    intro b w hvalid hsmall hb hfit
    obtain ⟨b', hpacked, hb'⟩ := packText_of_room strings hb (hsmall _ List.mem_cons_self) hvalid hfit.1
    refine ⟨.string (m.take n.toNat), b', ?_, hb', ?_⟩
    · rw [packed, hpacked]
      rfl
    · have hlen : UInt64.ofNat (m.take n.toNat).length = n := by
        rw [List.length_take_of_le hvalid, UInt64.ofNat_toNat]
      exact congrArg (fun n => some [(p, Stored.string (m.take _)), (pz, .size n)]) hlen
  | bytes url m n p pz =>
    intro b w hvalid hsmall hb _
    obtain ⟨r, hr, hdecode⟩ := encodedText_spec strings (hsmall _ List.mem_cons_self) hvalid
    refine ⟨.string r, b, ?_, hb, ?_⟩
    · rw [packed, hr]
      rfl
    · have hlen : UInt64.ofNat ((m.getD []).take n.toNat).length = n := by
        rw [List.length_take_of_le hvalid, UInt64.ofNat_toNat]
      rw [unpacked, hdecode, Option.map_some, hlen, stores]
  | array items ih =>
    intro b w hvalid hsmall hb hfit
    obtain ⟨hsizes, hlengths⟩ := List.forall_mem_append.mp hsmall
    rw [lengths, List.forall_mem_cons] at hlengths
    obtain ⟨js, b', hpacked, hb', hlen, hunpack⟩ := trips_items ih hvalid
      (List.forall_mem_append.mpr ⟨hsizes, hlengths.2⟩) hb hfit
    refine ⟨.array js, b', ?_, hb', ?_⟩
    · rw [packed, hpacked]
      rfl
    · exact hunpack [] (by rw [List.nil_append, hlen]; exact hlengths.1)
  | object members ih =>
    intro b w hvalid hsmall hb hfit
    obtain ⟨ms, b', hpacked, hb', hunpack⟩ := trips_members ih hvalid.2 hvalid.1 hsmall hb hfit []
    refine ⟨.object ms, b', ?_, hb', hunpack⟩
    rw [packed, hpacked]
    rfl

/-! A trip that succeeds shows that the item fits. -/

/-- There are as many stores as addresses. -/
def Item.Counts (D : Type) (item : Item) : Prop := ∀ (j : JsonObject D) l, item.unpacked j = some l →
  l.length = (item.stores : List (Nat × Stored D)).length

private theorem counts_items {items : List Item} (h : ∀ item ∈ items, item.Counts D) {js : List (JsonObject D)}
    {count index : Int32} {l : List (Nat × Stored D)} (hl : itemsUnpacked items js count index = some l) :
    l.length = (itemsStores items : List (Nat × Stored D)).length := by
  induction items generalizing index l with
  | nil =>
    cases hl
    rfl
  | cons item items ih =>
    obtain ⟨-, hl⟩ := Option.ite_none_left_eq_some.mp hl
    obtain ⟨l₁, hl₁, hl⟩ := Option.bind_eq_some_iff.mp hl
    obtain ⟨l₂, hl₂, rfl⟩ := Option.map_eq_some_iff.mp hl
    rw [itemsStores, List.length_append, List.length_append, h item List.mem_cons_self _ _ hl₁,
      ih (fun i hi => h i (List.mem_cons_of_mem _ hi)) hl₂]

private theorem counts_members {members : List (Bytes × Item)} (h : ∀ m ∈ members, m.2.Counts D)
    {ms : List (Bytes × JsonObject D)} {l : List (Nat × Stored D)} (hl : membersUnpacked members ms = some l) :
    l.length = (membersStores members : List (Nat × Stored D)).length := by
  induction members generalizing l with
  | nil =>
    cases hl
    rfl
  | cons m members ih =>
    obtain ⟨o, -, hl⟩ := Option.bind_eq_some_iff.mp hl
    obtain ⟨l₁, hl₁, hl⟩ := Option.bind_eq_some_iff.mp hl
    obtain ⟨l₂, hl₂, rfl⟩ := Option.map_eq_some_iff.mp hl
    rw [membersStores, List.length_append, List.length_append, h m List.mem_cons_self _ _ hl₁,
      ih (fun m hm => h m (List.mem_cons_of_mem _ hm)) hl₂]

private theorem Item.counts (item : Item) : item.Counts D := by
  induction item using Item.induct with
  | null =>
    intro j l h
    obtain ⟨-, h⟩ := Option.ite_none_right_eq_some.mp h
    cases h
    rfl
  | array items ih =>
    intro j l h
    cases j with
    | array js => exact counts_items ih h
    | _ => cases h
  | object members ih =>
    intro j l h
    cases j with
    | object ms => exact counts_members ih h
    | _ => cases h
  | bytes url m n p pz =>
    intro j l h
    cases j with
    | null =>
      cases h
      rfl
    | string s =>
      obtain ⟨data, -, rfl⟩ := Option.map_eq_some_iff.mp h
      rfl
    | _ => cases h
  | _ =>
    intro j l h
    obtain ⟨x, -, rfl⟩ := Option.map_eq_some_iff.mp h
    rfl

/-- What shows that an item fits. -/
def Item.Shows (D : Type) (item : Item) : Prop :=
  ∀ {b b' : Scratch} {w : Nat × Nat} {j : JsonObject D}, item.Valid → Covers b w →
    item.packed strings b = some (j, b') → item.unpacked j = some item.stores →
    (∀ n ∈ item.sizes ++ item.lengths, n < 2 ^ 31) ∧ Contained w item.sizes ∧
      Covers b' (item.sizes.foldl grow w)

section
variable {strings} {b b' : Scratch} {w : Nat × Nat}

private theorem shows_items {items : List Item} (h : ∀ item ∈ items, item.Shows strings D)
    (hvalid : ItemsValid items)
    {pre js : List (JsonObject D)} {count : Int32} (hb : Covers b w)
    (hpacked : itemsPacked strings items b = some (js, b')) (hpre : pre.length < 2 ^ 31)
    (hunpack : itemsUnpacked items (pre ++ js) count (Int32.ofNat pre.length) = some (itemsStores items)) :
    (∀ n ∈ itemsSizes items ++ itemsLengths items, n < 2 ^ 31) ∧ Contained w (itemsSizes items) ∧
      Covers b' ((itemsSizes items).foldl grow w) ∧ js.length = items.length ∧
      (items = [] ∨ (pre.length + items.length : Int) ≤ count.toInt) := by
  induction items generalizing b w pre js with
  | nil =>
    cases hpacked
    exact ⟨fun _ hn => absurd hn List.not_mem_nil, trivial, hb, rfl, .inl rfl⟩
  | cons item items ih =>
    obtain ⟨⟨j, b₁⟩, hj, hpacked⟩ := Option.bind_eq_some_iff.mp hpacked
    obtain ⟨⟨js', b₂⟩, hjs, heq⟩ := Option.map_eq_some_iff.mp hpacked
    cases heq
    rw [itemsUnpacked] at hunpack
    split at hunpack
    · cases hunpack
    · next hindex =>
      rw [getD_append hpre] at hunpack
      obtain ⟨l, hl, hunpack⟩ := Option.bind_eq_some_iff.mp hunpack
      obtain ⟨l', hl', heq⟩ := Option.map_eq_some_iff.mp hunpack
      obtain ⟨rfl, rfl⟩ := List.append_inj heq (item.counts _ _ hl)
      obtain ⟨hhead, hfit, hb₁⟩ := h item List.mem_cons_self hvalid.1 hb hj hl
      have hcount : (pre.length : Int) < count.toInt := by
        rw [Int32.le_iff_toInt_le, Int32.toInt_ofNat_of_lt hpre] at hindex
        omega
      have hmax := count.toInt_lt
      rw [ofNat_succ, ← List.length_singleton (a := j), ← List.length_append, List.append_cons] at hl'
      obtain ⟨htail, hfittail, hb₂, hlen, hbound⟩ := ih (fun i hi => h i (List.mem_cons_of_mem _ hi)) hvalid.2
        hb₁ hjs (by rw [List.length_append, List.length_singleton]; omega) hl'
      refine ⟨forall_append_append.mpr ⟨hhead, htail⟩, contained_append.mpr ⟨hfit, hfittail⟩, ?_,
        congrArg Nat.succ hlen, .inr ?_⟩
      · rw [itemsSizes, List.foldl_append]
        exact hb₂
      · rw [List.length_append, List.length_singleton] at hbound
        rw [List.length_cons]
        rcases hbound with rfl | hbound
        · rw [List.length_nil]
          omega
        · omega

/-- The names of the packed members are texts of the library, their lengths are ints. -/
theorem membersPacked_names {members : List (Bytes × Item)} {ms ms' : List (Bytes × JsonObject D)}
    (h : membersPacked strings members ms b = some (ms', b')) (hms : ∀ name ∈ ms.map Prod.fst, name.length < 2 ^ 31) :
    ∀ name ∈ ms'.map Prod.fst, name.length < 2 ^ 31 := by
  induction members generalizing ms b with
  | nil =>
    cases h
    exact hms
  | cons m members ih =>
    obtain ⟨⟨r, b₁⟩, hr, h⟩ := Option.bind_eq_some_iff.mp h
    obtain ⟨⟨j, b₂⟩, -, h⟩ := Option.bind_eq_some_iff.mp h
    refine ih h fun name hname => ?_
    rcases mem_setMember hname with rfl | hname
    · exact Nat.lt_of_le_of_lt (ctext_length_le r) (packText_length hr)
    · exact hms name hname

/-- A key is among the names of the object that gives its value. -/
theorem membersUnpacked_keys {members : List (Bytes × Item)} {ms : List (Bytes × JsonObject D)}
    {l : List (Nat × Stored D)} (h : membersUnpacked members ms = some l) :
    ∀ m ∈ members, ctext m.1 ∈ ms.map Prod.fst := by
  induction members generalizing l with
  | nil => exact fun _ hm => absurd hm List.not_mem_nil
  | cons m members ih =>
    obtain ⟨o, ho, h⟩ := Option.bind_eq_some_iff.mp h
    obtain ⟨l₁, -, h⟩ := Option.bind_eq_some_iff.mp h
    obtain ⟨l₂, hl₂, -⟩ := Option.map_eq_some_iff.mp h
    exact List.forall_mem_cons.mpr ⟨mem_of_lookup ho, ih hl₂⟩

private theorem shows_members {members : List (Bytes × Item)} (h : ∀ m ∈ members, m.2.Shows strings D)
    (hvalid : MembersValid members) (hnodup : (members.map fun m => ctext m.1).Nodup)
    (hkeys : ∀ m ∈ members, (ctext m.1).length < 2 ^ 31) {ms ms' : List (Bytes × JsonObject D)} (hb : Covers b w)
    (hpacked : membersPacked strings members ms b = some (ms', b'))
    (hunpack : membersUnpacked members ms' = some (membersStores members)) :
    (∀ n ∈ membersSizes members ++ membersLengths members, n < 2 ^ 31) ∧ Contained w (membersSizes members) ∧
      Covers b' ((membersSizes members).foldl grow w) := by
  induction members generalizing b w ms with
  | nil =>
    cases hpacked
    exact ⟨fun _ hn => absurd hn List.not_mem_nil, trivial, hb⟩
  | cons m members ih =>
    obtain ⟨k, item⟩ := m
    obtain ⟨hk, hitem, hvalid⟩ := hvalid
    obtain ⟨hnew, hnodup⟩ := List.nodup_cons.mp hnodup
    obtain ⟨hlen, hkeys⟩ := List.forall_mem_cons.mp hkeys
    obtain ⟨⟨r, b₁⟩, hr, hpacked⟩ := Option.bind_eq_some_iff.mp hpacked
    obtain ⟨⟨j, b₂⟩, hj, hpacked⟩ := Option.bind_eq_some_iff.mp hpacked
    obtain ⟨hrk, hroom⟩ := packText_ctext (w := w) hk hlen hr
    obtain ⟨hroom, hb₁⟩ := hroom hb
    rw [hrk, ctext_ctext] at hpacked
    have hlookup : ms'.lookup (ctext k) = some j := by
      rw [membersPacked_lookup hpacked hvalid hkeys fun m hm he => hnew (List.mem_map.mpr ⟨m, hm, he⟩),
        lookup_setMember_self]
    rw [membersUnpacked, hlookup, Option.bind_some] at hunpack
    obtain ⟨l, hl, hunpack⟩ := Option.bind_eq_some_iff.mp hunpack
    obtain ⟨l', hl', heq⟩ := Option.map_eq_some_iff.mp hunpack
    obtain ⟨rfl, rfl⟩ := List.append_inj heq (item.counts _ _ hl)
    obtain ⟨hhead, hfit, hb₂⟩ := h _ List.mem_cons_self hitem hb₁ hj hl
    obtain ⟨htail, hfittail, hb₃⟩ := ih (fun m hm => h m (List.mem_cons_of_mem _ hm)) hvalid hnodup hkeys hb₂
      hpacked hl'
    refine ⟨?_, ⟨hroom, contained_append.mpr ⟨hfit, hfittail⟩⟩, ?_⟩
    · rw [membersSizes, membersLengths, List.cons_append, List.forall_mem_cons]
      exact ⟨hlen, forall_append_append.mpr ⟨hhead, htail⟩⟩
    · rw [membersSizes, List.foldl_cons, List.foldl_append]
      exact hb₃

end

private theorem Item.shows (item : Item) : item.Shows strings D := by
  induction item using Item.induct with
  | string m p =>
    intro b b' w j hvalid hb hpacked hunpack
    obtain ⟨⟨r, b₁⟩, hr, heq⟩ := Option.map_eq_some_iff.mp hpacked
    cases heq
    have hstored : r = ctext m := by
      cases hunpack
      rfl
    have hlen := packText_length hr
    rw [hstored] at hlen
    obtain ⟨hroom, hb₁⟩ := (packText_ctext (w := w) hvalid hlen hr).2 hb
    exact ⟨List.forall_mem_singleton.mpr hlen, ⟨hroom, trivial⟩, hb₁⟩
  | stringLen m n p pz =>
    intro b b' w j hvalid hb hpacked hunpack
    obtain ⟨⟨r, b₁⟩, hr, heq⟩ := Option.map_eq_some_iff.mp hpacked
    cases heq
    have hstored : r = m.take n.toNat :=
      Stored.string.inj (Prod.mk.inj (List.cons.inj (Option.some.inj hunpack)).1).2
    have hlen := packText_length hr
    rw [hstored, List.length_take_of_le hvalid] at hlen
    obtain ⟨hroom, hb₁⟩ := (packText_some (w := w) hr hlen hvalid).2 hb
    exact ⟨List.forall_mem_singleton.mpr hlen, ⟨hroom, trivial⟩, hb₁⟩
  | bytes url m n p pz =>
    intro b b' w j hvalid hb hpacked hunpack
    obtain ⟨r, hr, heq⟩ := Option.map_eq_some_iff.mp hpacked
    cases heq
    obtain ⟨data, hdata, hstored⟩ := Option.map_eq_some_iff.mp hunpack
    have hlen : data.length = n.toNat := by
      rw [Option.some.inj (Stored.bytes.inj (Prod.mk.inj (List.cons.inj hstored).1).2)]
      exact List.length_take_of_le hvalid
    exact ⟨List.forall_mem_singleton.mpr (nout_lt_of_encodedText hr hdata hlen), trivial, hb⟩
  | array items ih =>
    intro b b' w j hvalid hb hpacked hunpack
    obtain ⟨⟨js, b₁⟩, hjs, heq⟩ := Option.map_eq_some_iff.mp hpacked
    cases heq
    obtain ⟨hsmall, hfit, hb₁, hlen, hbound⟩ := shows_items ih hvalid hb hjs
      (show ([] : List (JsonObject D)).length < 2 ^ 31 from Nat.two_pow_pos 31) hunpack
    refine ⟨?_, hfit, hb₁⟩
    obtain ⟨hsizes, hlengths⟩ := List.forall_mem_append.mp hsmall
    refine List.forall_mem_append.mpr ⟨hsizes, List.forall_mem_cons.mpr ⟨?_, hlengths⟩⟩
    rcases hbound with rfl | hbound
    · exact Nat.two_pow_pos 31
    · have hmax := (Int32.ofNat js.length).toInt_lt
      rw [List.length_nil] at hbound
      omega
  | object members ih =>
    intro b b' w j hvalid hb hpacked hunpack
    obtain ⟨⟨ms, b₁⟩, hms, heq⟩ := Option.map_eq_some_iff.mp hpacked
    cases heq
    have hnames := membersPacked_names hms fun _ hn => absurd hn List.not_mem_nil
    have hkeys := membersUnpacked_keys hunpack
    exact shows_members ih hvalid.2 hvalid.1 (fun m hm => hnames _ (hkeys m hm)) hb hms hunpack
  | _ =>
    intro b b' w j _ hb hpacked _
    cases hpacked
    exact ⟨fun _ hn => absurd hn List.not_mem_nil, trivial, hb⟩

/-- The trip gives the packed values back if and only if the item fits. -/
theorem Item.trip_iff {item : Item} (hvalid : item.Valid) {b : Scratch} (hb : Covers b (256, 256)) :
    (∃ (j : JsonObject D) (b' : Scratch), item.packed strings b = some (j, b') ∧
      item.unpacked j = some item.stores) ↔ item.Fits := by
  constructor
  · rintro ⟨j, b', hpacked, hunpack⟩
    obtain ⟨hsmall, hfit, -⟩ := item.shows strings hvalid hb hpacked hunpack
    exact ⟨hsmall, hfit⟩
  · rintro ⟨hsmall, hfit⟩
    obtain ⟨j, b', hpacked, -, hunpack⟩ := item.trips strings hvalid hsmall hb hfit
    exact ⟨j, b', hpacked, hunpack⟩

end AfbBinder.WrapJson
