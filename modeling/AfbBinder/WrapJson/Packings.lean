import AfbBinder.WrapJson.Trips

/-! The interpreter wrap_json_vpack over the text of an item: it packs what the item says, or fails
where it cannot be packed. -/
namespace AfbBinder.WrapJson
open Lib.Cstrings Lib.Checked Lib.Loops
open Lib.Json (lbracket rbracket lbrace rbrace colon)

variable {D : Type} {strings : StringMaker}

/-- The marks that belong to the item before them. -/
def marks : Bytes := [percent, hash, question, plus, star]

/-- The item is the next thing to pack, before the rest. -/
structure Awaits (item : Item) (st : PackState D) (rest : Bytes) (args : List (PackArg D)) : Prop where
  skipped : Skipped st.d
  text : significant st.d = item.text ++ rest
  args : st.args = item.packArgs ++ args
  delimited : ∀ c ∈ rest.head?, c ∉ marks
  mem : st.mem = []
  slot : ∃ top below, st.stack = top :: below ∧ (top.acc = packAcceptAny ∨ top.acc = packAcceptArr)
  depth : st.stack.length + item.depth ≤ STACKCOUNT

/-- The item has been packed, with the slots that are there and the block for the strings. -/
structure Packed (stack : List (PackFrame D)) (rest : Bytes) (args : List (PackArg D)) (b : Scratch)
    (st : PackState D) : Prop where
  skipped : Skipped st.d
  text : significant st.d = rest
  args : st.args = args
  mem : st.mem = []
  stack : st.stack = stack
  scratch : st.scratch = b

variable (strings) in
/-- From what an iteration gives, the second switch is met with the object, or it fails. -/
def Gives (x : Except (Stop (PackState D)) (PackState D ⊕ JsonObject D)) (r : Option (JsonObject D × Scratch))
    (P : Scratch → PackState D → Prop) : Prop :=
  match r with
  | some (j, b) => ∃ st', Leads (packStep strings) (packStore · j) st' x ∧ P b st'
  | none => ∃ stop, Goes (packStep strings) x (.error stop)

variable (strings D) in
/-- What the packing of an item does. -/
def Item.Packs (item : Item) : Prop := ∀ {st : PackState D} {rest : Bytes} {args : List (PackArg D)},
  item.Valid → Awaits item st rest args → Gives strings (packStep strings st) (item.packed strings st.scratch)
    (Packed st.stack rest args)

section
variable {x : Except (Stop (PackState D)) (PackState D ⊕ JsonObject D)} {r : Option (JsonObject D × Scratch)}
  {P Q : Scratch → PackState D → Prop} {st w : PackState D} {j : JsonObject D} {b : Scratch}

private theorem Gives.here (hP : P b st) : Gives strings (packStore st j) (some (j, b)) P := ⟨st, .here, hP⟩

private theorem Gives.fail {stop : Stop (PackState D)} : Gives strings (.error stop) none P := ⟨stop, rfl⟩

private theorem Gives.later (h : Gives strings (packStep strings w) r P) : Gives strings
    (.ok (.inl w)) r P := by
  unfold Gives at *
  split at h
  · obtain ⟨st', hleads, hP⟩ := h
    exact ⟨st', .later hleads, hP⟩
  · obtain ⟨stop, hgoes⟩ := h
    exact ⟨stop, ends_iff_goes.mpr hgoes⟩

/-- One packing after the other. -/
theorem Gives.bind {f : JsonObject D × Scratch → Option (JsonObject D × Scratch)} (h : Gives strings x r P)
    (hnext : ∀ j b st', r = some (j, b) → P b st' → Gives strings (packStore st' j) (f (j, b)) Q) :
    Gives strings x (r.bind f) Q := by
  cases r with
  | none => exact h
  | some y =>
    obtain ⟨j, b⟩ := y
    obtain ⟨st', hleads, hP⟩ := h
    have hlast := hnext j b st' rfl hP
    rw [Option.bind_some]
    unfold Gives at *
    split at hlast
    · obtain ⟨st'', hleads', hQ⟩ := hlast
      exact ⟨st'', hleads.trans hleads', hQ⟩
    · obtain ⟨stop, hgoes⟩ := hlast
      exact ⟨stop, hleads.goes.mpr hgoes⟩

end

/-! The strings. -/

section
variable {st : PackState D} {m : Bytes} {n : UInt64} {args : List (PackArg D)}

private theorem marks_ne {c : UInt8} (h : c ∉ marks) : c ≠ percent ∧ c ≠ hash ∧ c ≠ question ∧ c ≠ plus ∧
    c ≠ star := by
  refine ⟨?_, ?_, ?_, ?_, ?_⟩ <;> rintro rfl <;> exact h (by decide)

private theorem question_no (h : cur st.d ≠ question) : question? st = (false, st) := if_neg h

/-- The text of an argument, when nothing tells its size. -/
theorem scanStrings_plain (st : PackState D) (hargs : st.args = .pointer (some m) :: args) (hm : Text m) (hcur : cur st.d ∉ marks) :
    scanStrings STRCOUNT st ⟨[], 0, false, false⟩ =
      .ok (⟨[(some m, UInt64.ofNat (ctext m).length)], UInt64.ofNat (ctext m).length, true, false⟩, { st with args }) := by
  obtain ⟨hpercent, hhash, hquestion, hplus, -⟩ := marks_ne hcur
  have hsize : stringSize { st with args } (some m) = .ok (UInt64.ofNat (ctext m).length, { st with args }) := by
    rw [stringSize, if_neg hpercent, if_neg hhash, strlen, if_pos hm.1]
    rfl
  rw [STRCOUNT, scanStrings, hargs]
  dsimp only
  rw [question_no (by exact hquestion)]
  dsimp only
  rw [hsize, ok_bind]
  dsimp only
  rw [question_no (by exact hquestion), if_pos hplus, UInt64.zero_add]
  rfl

/-- The bytes of an argument with its size. -/
theorem scanStrings_size (hargs : st.args = .pointer (some m) :: .size n :: args) (hcur : cur st.d = percent)
    (hnext : cur (advance st.d) ∉ marks) : scanStrings STRCOUNT st ⟨[], 0, false, false⟩ =
      .ok (⟨[(some m, n)], n, true, false⟩, { st with d := advance st.d, args }) := by
  obtain ⟨-, -, hquestion, hplus, -⟩ := marks_ne hnext
  have hsize : stringSize { st with args := .size n :: args } (some m) = .ok (n, { st with d := advance st.d, args }) := by
    rw [stringSize, if_pos hcur]
  rw [STRCOUNT, scanStrings, hargs]
  dsimp only
  rw [question_no (by rw [hcur]; decide)]
  dsimp only
  rw [hsize, ok_bind]
  dsimp only
  rw [question_no (by exact hquestion), if_pos hplus, UInt64.zero_add]
  rfl

private theorem alloc_eq (hmem : st.mem = []) : alloc st = (true, st) := by
  unfold alloc
  rw [hmem]

private theorem newObject_some (hmem : st.mem = []) (o : JsonObject D) : newObject st (some o) = .ok
    (o, st) := by
  unfold newObject
  rw [alloc_eq hmem]

private theorem newObject_none (hmem : st.mem = []) : newObject st none = .error (.error .outOfMemory st) := by
  unfold newObject
  rw [alloc_eq hmem]

variable (strings) in
/-- A string is made of the text that is copied, or it cannot be. -/
theorem packString_one {st' : PackState D} (hmem : st'.mem = [])
    (hscan : scanStrings STRCOUNT st ⟨[], 0, false, false⟩ = .ok (⟨[(some m, n)], n, true, false⟩, st')) :
    match packText strings st'.scratch m n with
    | some (r, b) => packString strings st = .ok (.string r, { st' with scratch := b })
    | none => ∃ stop, packString strings st = .error stop := by
  unfold packText packString
  rw [hscan, ok_bind]
  dsimp only
  rw [if_pos rfl]
  cases copyStrings [(some m, n)] n (st'.scratch.reserve n).s with
  | error f => exact ⟨_, rfl⟩
  | ok s =>
    dsimp only
    unfold newString
    cases strings.newStringLen s n.toUInt32.toInt32 with
    | none => exact ⟨_, newObject_none (by exact hmem)⟩
    | some r => exact newObject_some (by exact hmem) (.string r)

end

/-! The items that are no containers. -/

section
variable {item : Item} {st : PackState D} {rest : Bytes} {args : List (PackArg D)} {c : UInt8} {t : Bytes}

private theorem acceptArr_any : ∀ c ∈ packAcceptAny, c ∈ packAcceptArr := fun _ => List.mem_of_mem_drop

private theorem packAcceptAny_ne (hc : c ∈ packAcceptAny) : c ≠ 0 ∧ c ∉ marks := by
  have hall : packAcceptAny.all (fun c => c ≠ 0 ∧ c ∉ marks) := by decide
  exact of_decide_eq_true (List.all_eq_true.mp hall c hc)

variable (strings) in
/-- An iteration for an item. -/
theorem Awaits.step (h : Awaits item st rest args) (htext : item.text = c :: t) (hc : c ∈ packAcceptAny) :
    Skipped (advance st.d) ∧ significant (advance st.d) = t ++ rest ∧ packStep strings st =
      if c = lbracket ∨ c = lbrace then (packOpen { st with d := advance st.d } c).map .inl
      else (packItem strings { st with d := advance st.d } c).bind fun x => packStore x.2 x.1 := by
  obtain ⟨hcur, hrest, hskipped⟩ := h.skipped.split (h.text.trans (congrArg (· ++ rest) htext))
  obtain ⟨top, below, hstack, hacc⟩ := h.slot
  have hin : c ∈ top.acc := by
    rcases hacc with hacc | hacc
    · rwa [hacc]
    · rw [hacc]
      exact acceptArr_any c hc
  refine ⟨hskipped, hrest, ?_⟩
  rw [packStep_eq hstack, hcur, if_neg (packAcceptAny_ne hc).1, if_neg (not_not_intro hin)]

private theorem cur_not_mark {d : Bytes} (hskipped : Skipped d) (htext : significant d = rest)
    (h : ∀ c ∈ rest.head?, c ∉ marks) : cur d ∉ marks := by
  rw [hskipped.cur_eq, htext]
  cases rest with
  | nil => decide
  | cons c rest => exact h c rfl

private theorem packs_scalar (h : Awaits item st rest args) (htext : item.text = [c]) (hc : c ∈ packAcceptAny)
    (hopen : c ≠ lbracket ∧ c ≠ lbrace) {j : JsonObject D}
    (hitem : packItem strings { st with d := advance st.d } c = .ok (j, { st with d := advance st.d, args })) :
    Gives strings (packStep strings st) (some (j, st.scratch)) (Packed st.stack rest args) := by
  obtain ⟨hskipped, hrest, hstep⟩ := h.step strings htext hc
  rw [hstep, if_neg (not_or.mpr hopen), hitem, ok_bind]
  exact .here ⟨hskipped, hrest, rfl, h.mem, rfl, rfl⟩

private theorem packs_made (h : Awaits item st rest args) (htext : item.text = [c]) (hc : c ∈ packAcceptAny)
    (hopen : c ≠ lbracket ∧ c ≠ lbrace) {a : PackArg D} (hargs : item.packArgs = [a]) {j : JsonObject D}
    (hitem : ∀ u : PackState D, u.args = a :: args → packItem strings u c = newObject { u with args } (some j)) :
    Gives strings (packStep strings st) (some (j, st.scratch)) (Packed st.stack rest args) := by
  refine packs_scalar h htext hc hopen ?_
  have hmade := hitem { st with d := advance st.d } (h.args.trans (congrArg (· ++ args) hargs))
  exact hmade.trans (newObject_some (by exact h.mem) j)

/-- A string, once its argument is scanned. -/
theorem packs_text (h : Awaits item st rest args) (htext : item.text = lowerS :: t) {m : Bytes} {n : UInt64} {d : Bytes}
    (hd : Skipped d ∧ significant d = rest) (hscan : scanStrings STRCOUNT { st with d := advance st.d } ⟨[], 0, false, false⟩ =
      .ok (⟨[(some m, n)], n, true, false⟩, { st with d, args })) :
    Gives strings (packStep strings st) ((packText strings st.scratch m n).map fun (r, b) => (.string r, b))
      (Packed st.stack rest args) := by
  obtain ⟨hskipped, hrest, hstep⟩ := h.step strings htext (by decide)
  have hitem (u : PackState D) : packItem strings u lowerS = packString strings u := rfl
  have hone := packString_one strings (by exact h.mem) hscan
  rw [hstep, if_neg (by decide), hitem]
  dsimp only at hone
  split at hone
  · next r b hr =>
    rw [hone, hr, ok_bind]
    exact .here ⟨hd.1, hd.2, rfl, h.mem, rfl, rfl⟩
  · next hr =>
    obtain ⟨stop, hstop⟩ := hone
    rw [hstop, hr]
    exact .fail

private theorem packs_string (m : Bytes) (p : Nat) : (Item.string m p).Packs D strings := by
  intro st rest args hvalid h
  obtain ⟨hskipped, hrest, -⟩ := h.step strings rfl (by decide)
  exact packs_text h rfl ⟨hskipped, hrest⟩ (scanStrings_plain _ h.args hvalid (cur_not_mark hskipped hrest h.delimited))

private theorem packs_stringLen (m : Bytes) (n : UInt64) (p pz : Nat) :
    (Item.stringLen m n p pz).Packs D strings := by
  intro st rest args hvalid h
  obtain ⟨hskipped, hrest, -⟩ := h.step strings rfl (by decide)
  obtain ⟨hcur, hrest', hskipped'⟩ := hskipped.split hrest
  exact packs_text h rfl ⟨hskipped', hrest'⟩ (scanStrings_size h.args hcur (cur_not_mark hskipped' hrest' h.delimited))

variable (strings) in
/-- The text of bytes is made, or it cannot be. -/
theorem packBytes_eq (st : PackState D) {m : Option Bytes} {n : UInt64} (url : Bool) (hargs : st.args = .pointer m :: .size n :: args)
    (hmem : st.mem = []) (hcur : cur st.d ∉ marks) (hm : n.toNat ≤ (m.getD []).length) :
    match encodedText strings url m n with
    | some r => packBytes strings st url = .ok (.string r, { st with args })
    | none => ∃ stop, packBytes strings st url = .error stop := by
  obtain ⟨-, -, hquestion, -, hstar⟩ := marks_ne hcur
  unfold packBytes
  rw [hargs]
  dsimp only
  by_cases hn : n = 0
  · have hnull : encodeBytes strings { st with args } m n url = .ok (.null, { st with args }) := by
      unfold encodeBytes
      cases m with
      | none => rfl
      | some m => exact if_pos hn
    have hempty : strings.newStringLen st.d 0 = some [] := by
      have hcopy := strings.copies st.d 0 (by decide) (Nat.zero_le _)
      rwa [List.take_zero] at hcopy
    rw [encodedText, if_pos hn, hnull, ok_bind]
    dsimp only
    rw [if_neg hquestion, if_pos ⟨hstar, rfl⟩, newString, hempty]
    exact newObject_some (by exact hmem) (.string [])
  · cases m with
    | none => exact absurd (UInt64.toNat_inj.mp (Nat.le_zero.mp hm)) hn
    | some m =>
      have hm : n.toNat ≤ m.length := hm
      unfold encodeBytes
      dsimp only
      rw [if_neg hn, if_neg (Nat.not_lt.mpr hm), alloc_eq (by exact hmem), if_neg Bool.false_ne_true.symm, encodedText, if_neg hn]
      dsimp only [Option.getD_some]
      cases encodeBase64 (m.take n.toNat) 0 false url with
      | none => exact ⟨_, rfl⟩
      | some out =>
        obtain ⟨out, outsz⟩ := out
        rw [Option.bind_some]
        dsimp only
        unfold newString
        cases strings.newStringLen out (Int32.ofNat outsz) with
        | none =>
          rw [Option.map_none, newObject_none (by exact hmem)]
          exact ⟨_, rfl⟩
        | some r =>
          rw [Option.map_some, newObject_some (by exact hmem), ok_bind]
          dsimp only
          rw [if_neg hquestion, if_neg fun h => Bool.false_ne_true h.2]

private theorem packs_bytes (url : Bool) (m : Option Bytes) (n : UInt64) (p pz : Nat) :
    (Item.bytes url m n p pz).Packs D strings := by
  intro st rest args hvalid h
  obtain ⟨hskipped, hrest, hstep⟩ := h.step strings (c := if url then lowerY else upperY) rfl (by cases url <;> decide)
  have hcur := cur_not_mark hskipped hrest h.delimited
  have hitem (u : PackState D) : packItem strings u (if url then lowerY else upperY) = packBytes strings u url := by
    cases url <;> rfl
  have hbytes := packBytes_eq strings { st with d := advance st.d } url h.args h.mem hcur hvalid
  rw [hstep, if_neg (by cases url <;> decide), hitem, Item.packed]
  split at hbytes
  · next r hr =>
    rw [hbytes, hr, ok_bind]
    exact .here ⟨hskipped, hrest, rfl, h.mem, rfl, rfl⟩
  · next hr =>
    obtain ⟨stop, hstop⟩ := hbytes
    rw [hstop, hr]
    exact .fail

end

/-! The containers. -/

private theorem Item.text_head (item : Item) : ∃ c t, item.text = c :: t ∧ c ∈ packAcceptAny := by
  cases item with
  | bytes url m n p pz => cases url <;> exact ⟨_, _, rfl, by decide⟩
  | _ => exact ⟨_, _, rfl, by decide⟩

private theorem Item.text_append_head (item : Item) (t : Bytes) : ∀ c ∈ (item.text ++ t).head?, c ∉ marks := by
  obtain ⟨c, u, htext, hc⟩ := item.text_head
  rw [htext]
  intro b hb
  cases hb
  exact (packAcceptAny_ne hc).2

private theorem itemsText_head (items : List Item) (rest : Bytes) :
    ∀ c ∈ (itemsText items ++ rbracket :: rest).head?, c ∉ marks := by
  cases items with
  | nil =>
    intro c hc
    cases hc
    decide
  | cons item items =>
    rw [itemsText, List.append_assoc]
    exact item.text_append_head _

private theorem membersText_head (members : List (Bytes × Item)) (rest : Bytes) :
    ∀ c ∈ (membersText members ++ rbrace :: rest).head?, c ∉ marks := by
  cases members with
  | nil =>
    intro c hc
    cases hc
    decide
  | cons m members =>
    intro c hc
    cases hc
    decide

/-- The slot on top is that of an open container. -/
structure Holds (st : PackState D) (top : PackFrame D) (below : List (PackFrame D)) (text : Bytes)
    (args : List (PackArg D)) : Prop where
  skipped : Skipped st.d
  text : significant st.d = text
  args : st.args = args
  mem : st.mem = []
  stack : st.stack = top :: below

section
variable {st : PackState D} {top frame : PackFrame D} {below : List (PackFrame D)} {rest : Bytes}
  {args : List (PackArg D)} {ref : Nat}

variable (strings) in
/-- The end of a container. -/
theorem Holds.closed {close : UInt8} (h : Holds st top (frame :: below) (close :: rest) args)
    (hclose : close = rbrace ∨ close = rbracket) (hacc : close ∈ top.acc) (htype : top.type = close) {cont : JsonObject D}
    (hcont : top.cont = some ⟨ref, cont⟩) (hdelimited : ∀ c ∈ rest.head?, c ∉ marks) :
    Gives strings (packStep strings st) (some (cont, st.scratch)) (Packed (frame :: below) rest args) := by
  obtain ⟨hcur, hrest, hskipped⟩ := h.skipped.split h.text
  obtain ⟨-, -, -, -, hstar⟩ := marks_ne (cur_not_mark hskipped hrest hdelimited)
  have hne : close ≠ 0 ∧ ¬(close = lbracket ∨ close = lbrace) := by rcases hclose with rfl | rfl <;> decide
  rw [packStep_eq h.stack, hcur, if_neg hne.1, if_neg (not_not_intro hacc), if_neg hne.2, packItem_close hclose]
  unfold packClose
  dsimp only
  rw [h.stack]
  dsimp only
  rw [if_neg (not_not_intro htype.symm), ok_bind, if_neg fun hs => hstar hs.1, hcont]
  exact .here ⟨hskipped, hrest, h.args, h.mem, rfl, rfl⟩

/-- An item goes to the array that is open. -/
theorem packStore_array {js : List (JsonObject D)} {j : JsonObject D}
    (hstack : st.stack = openedFrame lbracket (some ⟨ref, .array js⟩) :: below) (hcur : cur st.d ≠ star) :
    packStore st j = .ok (.inl { st with
      stack := openedFrame lbracket (some ⟨ref, .array (js ++ [j])⟩) :: below }) := by
  unfold packStore
  rw [hstack]
  dsimp only
  rw [if_neg hcur, decide_eq_true hcur, Bool.or_true, if_pos rfl]
  rfl

variable (strings) in
/-- The array of the items gets the first one, and then the others. -/
theorem itemsPacked_cons (js : List (JsonObject D)) (item : Item) (items : List Item) (s : Scratch) :
    (itemsPacked strings (item :: items) s).map (fun x => (JsonObject.array (js ++ x.1), x.2)) =
      (item.packed strings s).bind fun x =>
        (itemsPacked strings items x.2).map fun y => (.array (js ++ [x.1] ++ y.1), y.2) := by
  rw [itemsPacked, Option.map_bind]
  congr 1
  funext x
  dsimp only [Function.comp_apply]
  rw [Option.map_map]
  congr 1
  funext y
  exact congrArg (fun l => (JsonObject.array l, y.2)) (List.append_cons js x.1 y.1)

/-- The items of an array, to its end. -/
theorem packs_items {items : List Item} (js : List (JsonObject D)) (h : ∀ item ∈ items, item.Packs D strings) (hvalid : ItemsValid items)
    (hholds : Holds st (openedFrame lbracket (some ⟨ref, .array js⟩)) (frame :: below)
      (itemsText items ++ rbracket :: rest) (itemsPackArgs items ++ args))
    (hdelimited : ∀ c ∈ rest.head?, c ∉ marks) (hdepth : below.length + 2 + itemsDepth items ≤ STACKCOUNT) :
    Gives strings (packStep strings st)
      ((itemsPacked strings items st.scratch).map fun x => (.array (js ++ x.1), x.2))
      (Packed (frame :: below) rest args) := by
  induction items generalizing st js with
  | nil =>
    have hclosed := hholds.closed strings (.inr rfl)
      (show rbracket ∈ packAcceptArr by decide) rfl rfl hdelimited
    rw [itemsPacked, Option.map_some]
    dsimp only
    rw [List.append_nil]
    exact hclosed
  | cons item items ih =>
    have hdepth' : below.length + 2 + item.depth ≤ STACKCOUNT ∧ below.length + 2 + itemsDepth items ≤ STACKCOUNT := by
      rw [itemsDepth] at hdepth
      omega
    have hawaits : Awaits item st (itemsText items ++ rbracket :: rest) (itemsPackArgs items ++ args) := by
      refine ⟨hholds.skipped, ?_, ?_, itemsText_head items rest, hholds.mem, ⟨_, _, hholds.stack, .inr rfl⟩, ?_⟩
      · rw [hholds.text, itemsText, List.append_assoc]
      · rw [hholds.args, itemsPackArgs, List.append_assoc]
      · rw [hholds.stack]
        exact hdepth'.1
    have hitem := h item List.mem_cons_self hvalid.1 hawaits
    rw [itemsPacked_cons]
    refine hitem.bind fun j b st' _ hleft => ?_
    obtain ⟨-, -, -, -, hstar⟩ := marks_ne (cur_not_mark hleft.skipped hleft.text (itemsText_head items rest))
    rw [packStore_array (hleft.stack.trans hholds.stack) hstar]
    refine .later ?_
    have hnext : Holds { st' with stack := openedFrame lbracket (some ⟨ref, .array (js ++ [j])⟩) :: frame :: below }
        (openedFrame lbracket (some ⟨ref, .array (js ++ [j])⟩)) (frame :: below) (itemsText items ++ rbracket :: rest)
        (itemsPackArgs items ++ args) := ⟨hleft.skipped, hleft.text, hleft.args, hleft.mem, rfl⟩
    rw [← hleft.scratch]
    exact ih (js ++ [j]) (fun i hi => h i (List.mem_cons_of_mem _ hi)) hvalid.2 hnext hdepth'.2

/-- A key goes to the slot of the object that is open. -/
theorem packStore_key {ms : List (Bytes × JsonObject D)} {r : Bytes}
    (hstack : st.stack = openedFrame lbrace (some ⟨ref, .object ms⟩) :: below) :
    packStore st (.string r) = .ok (.inl { st with
      stack := ⟨some ⟨ref, .object ms⟩, some ⟨st.events.length, .string r⟩, packAcceptAny, colon⟩ :: below
      events := st.events ++ [.hold st.events.length] }) := by
  unfold packStore
  rw [hstack]
  rfl

/-- A value goes to the object that is open, under the key of the slot. -/
theorem packStore_value {ms : List (Bytes × JsonObject D)} {j : JsonObject D} {r : Bytes} {kref : Nat}
    (hstack : st.stack = ⟨some ⟨ref, .object ms⟩, some ⟨kref, .string r⟩, packAcceptAny, colon⟩ :: below)
    (hcur : cur st.d ≠ star) : packStore st j = .ok (.inl { st with
      stack := openedFrame lbrace (some ⟨ref, .object (setMember (ctext r) j ms)⟩) :: below
      events := st.events ++ [.drop kref] }) := by
  unfold packStore
  rw [hstack]
  dsimp only
  rw [if_neg hcur, decide_eq_true hcur, Bool.or_true, if_pos rfl]
  rfl

variable (strings) in
/-- The reading of a key, that may be one that cannot be packed. -/
theorem packs_key {ms : List (Bytes × JsonObject D)} {k t : Bytes} (hk : Text k)
    (hholds : Holds st (openedFrame lbrace (some ⟨ref, .object ms⟩)) below (lowerS :: t) (.pointer (some k) :: args))
    (hnext : ∀ c ∈ t.head?, c ∉ marks) :
    match packText strings st.scratch k (UInt64.ofNat (ctext k).length) with
    | some (r, b) => ∃ w kref, packStep strings st = .ok (.inl w) ∧ w.scratch = b ∧
        Holds w ⟨some ⟨ref, .object ms⟩, some ⟨kref, .string r⟩, packAcceptAny, colon⟩ below t args
    | none => ∃ stop, packStep strings st = .error stop := by
  obtain ⟨hcur, htext, hskipped⟩ := hholds.skipped.split hholds.text
  have hone := packString_one strings (by exact hholds.mem)
    (scanStrings_plain { st with d := advance st.d } hholds.args hk (cur_not_mark hskipped htext hnext))
  have hacc : lowerS ∈ (openedFrame lbrace (some (Held.mk ref (JsonObject.object ms)))).acc :=
    show lowerS ∈ packAcceptKey by decide
  rw [packStep_string hholds.stack hcur, if_neg (not_not_intro hacc)]
  dsimp only at hone
  split at hone
  · next r b hr =>
    rw [hone, ok_bind, packStore_key (by exact hholds.stack)]
    exact ⟨_, _, rfl, rfl, hskipped, htext, rfl, hholds.mem, rfl⟩
  · next hr =>
    obtain ⟨stop, hstop⟩ := hone
    rw [hstop]
    exact ⟨stop, rfl⟩

/-- The members of an object, to its end. -/
theorem packs_members {members : List (Bytes × Item)} (ms : List (Bytes × JsonObject D))
    (h : ∀ m ∈ members, m.2.Packs D strings) (hvalid : MembersValid members)
    (hholds : Holds st (openedFrame lbrace (some ⟨ref, .object ms⟩)) (frame :: below)
      (membersText members ++ rbrace :: rest) (membersPackArgs members ++ args))
    (hdelimited : ∀ c ∈ rest.head?, c ∉ marks) (hdepth : below.length + 2 + membersDepth members ≤ STACKCOUNT) :
    Gives strings (packStep strings st)
      ((membersPacked strings members ms st.scratch).map fun (ms', b) => (.object ms', b))
      (Packed (frame :: below) rest args) := by
  induction members generalizing st ms with
  | nil =>
    exact hholds.closed strings (.inl rfl) (show rbrace ∈ packAcceptKey by decide) rfl rfl hdelimited
  | cons m members ih =>
    obtain ⟨k, item⟩ := m
    obtain ⟨hk, hitem, hvalid⟩ := hvalid
    have hdepth' : below.length + 2 + item.depth ≤ STACKCOUNT ∧ below.length + 2 + membersDepth members ≤ STACKCOUNT := by
      rw [membersDepth] at hdepth
      omega
    have hholds' : Holds st (openedFrame lbrace (some ⟨ref, .object ms⟩)) (frame :: below)
        (lowerS :: (item.text ++ (membersText members ++ rbrace :: rest)))
        (.pointer (some k) :: (item.packArgs ++ (membersPackArgs members ++ args))) := by
      refine ⟨hholds.skipped, ?_, ?_, hholds.mem, hholds.stack⟩
      · rw [hholds.text, membersText, List.cons_append, List.append_assoc]
      · rw [hholds.args, membersPackArgs, List.cons_append, List.append_assoc]
    have hkey := packs_key strings hk hholds' (item.text_append_head _)
    rw [membersPacked]
    split at hkey
    · next r b hr =>
      obtain ⟨w, kref, hw, hscratch, hkeyed⟩ := hkey
      have hawaits : Awaits item w (membersText members ++ rbrace :: rest) (membersPackArgs members ++ args) := by
        refine ⟨hkeyed.skipped, hkeyed.text, hkeyed.args, membersText_head members rest, hkeyed.mem,
          ⟨_, _, hkeyed.stack, .inl rfl⟩, ?_⟩
        rw [hkeyed.stack]
        exact hdepth'.1
      have hpacks := h _ List.mem_cons_self hitem hawaits
      rw [hr, hw, Option.bind_some, Option.map_bind]
      dsimp only
      rw [← hscratch]
      refine .later (hpacks.bind fun j b st' _ hleft => ?_)
      obtain ⟨-, -, -, -, hstar⟩ := marks_ne (cur_not_mark hleft.skipped hleft.text (membersText_head members rest))
      rw [packStore_value (hleft.stack.trans hkeyed.stack) hstar]
      refine .later ?_
      have hnext : Holds { st' with
          stack := openedFrame lbrace (some ⟨ref, .object (setMember (ctext r) j ms)⟩) :: frame :: below
          events := st'.events ++ [.drop kref] }
          (openedFrame lbrace (some ⟨ref, .object (setMember (ctext r) j ms)⟩)) (frame :: below)
          (membersText members ++ rbrace :: rest) (membersPackArgs members ++ args) :=
        ⟨hleft.skipped, hleft.text, hleft.args, hleft.mem, rfl⟩
      rw [← hleft.scratch]
      exact ih (setMember (ctext r) j ms) (fun m hm => h m (List.mem_cons_of_mem _ hm)) hvalid hnext hdepth'.2
    · next hr =>
      obtain ⟨stop, hstop⟩ := hkey
      rw [hr, hstop]
      exact .fail

end

variable (strings) in
/-- The opening of a container. -/
theorem Awaits.opened {item : Item} {st : PackState D} {rest t : Bytes} {args : List (PackArg D)} {c : UInt8}
    (h : Awaits item st rest args) (htext : item.text = c :: t) (hc : c = lbracket ∨ c = lbrace)
    (hdepth : 0 < item.depth) : ∃ w ref, packStep strings st = .ok (.inl w) ∧ w.scratch = st.scratch ∧
      Holds w (openedFrame c (some ⟨ref, newContainer c⟩)) st.stack (t ++ rest) (item.packArgs ++ args) := by
  obtain ⟨hskipped, hrest, hstep⟩ := h.step strings htext (by rcases hc with rfl | rfl <;> decide)
  have hroom : st.stack.length < STACKCOUNT := by
    have := h.depth
    omega
  rw [hstep, if_pos hc, packOpen, if_pos hroom, alloc_eq (by exact h.mem)]
  exact ⟨_, _, rfl, rfl, hskipped, hrest, h.args, h.mem, rfl⟩

private theorem packs_array (items : List Item) (h : ∀ item ∈ items, item.Packs D strings) :
    (Item.array items).Packs D strings := by
  intro st rest args hvalid hawaits
  obtain ⟨w, ref, hw, hscratch, hholds⟩ := hawaits.opened strings rfl (.inl rfl) (Nat.succ_pos _)
  obtain ⟨top, below, hstack, -⟩ := hawaits.slot
  have hdepth := hawaits.depth
  rw [hstack, List.append_assoc] at hholds
  rw [hstack, Item.depth, List.length_cons] at hdepth
  have hitems := packs_items [] h hvalid hholds hawaits.delimited (by omega)
  rw [hw, ← hscratch, hstack]
  exact .later hitems

private theorem packs_object (members : List (Bytes × Item)) (h : ∀ m ∈ members, m.2.Packs D strings) :
    (Item.object members).Packs D strings := by
  intro st rest args hvalid hawaits
  obtain ⟨w, ref, hw, hscratch, hholds⟩ := hawaits.opened strings rfl (.inr rfl) (Nat.succ_pos _)
  obtain ⟨top, below, hstack, -⟩ := hawaits.slot
  have hdepth := hawaits.depth
  rw [hstack, List.append_assoc] at hholds
  rw [hstack, Item.depth, List.length_cons] at hdepth
  have hmembers := packs_members [] h hvalid.2 hholds hawaits.delimited (by omega)
  rw [hw, ← hscratch, hstack]
  exact .later hmembers

/-- The interpreter packs what an item says. -/
theorem Item.packs (item : Item) (strings : StringMaker) : item.Packs D strings := by
  induction item using Item.induct with
  | null =>
    intro st rest args _ h
    have hargs : st.args = args := h.args
    exact packs_scalar h rfl (by decide) (by decide) (by rw [← hargs]; rfl)
  | boolean b p =>
    intro st rest args _ h
    refine packs_made h rfl (by decide) (by decide) rfl fun u hu => ?_
    cases u
    cases hu
    rfl
  | int i p =>
    intro st rest args _ h
    refine packs_made h rfl (by decide) (by decide) rfl fun u hu => ?_
    cases u
    cases hu
    rfl
  | int64 i p =>
    intro st rest args _ h
    refine packs_made h rfl (by decide) (by decide) rfl fun u hu => ?_
    cases u
    cases hu
    rfl
  | string m p => exact packs_string m p
  | stringLen m n p pz => exact packs_stringLen m n p pz
  | bytes url m n p pz => exact packs_bytes url m n p pz
  | array items ih => exact packs_array items ih
  | object members ih => exact packs_object members ih

end AfbBinder.WrapJson
