import AfbBinder.Lib.Checked
import AfbBinder.Wsj1.Model

/-! The accesses to memory of wsj1_msg_scan and wsj1_msg_make: to the text, up to
its terminator, and to the items that were scanned. -/
namespace AfbBinder.Wsj1.Bounds
open Lib.Cstrings Lib.Json Lib.Checked

/-- A text without NUL: the one that ends it follows. -/
abbrev Ctext := { text : Bytes // (0 : UInt8) ∉ text }

/-! The scan. A pointer is what it points to, terminator included. -/

/-- Why the scan stops: a read after the terminator, or a jump to bad_scan. -/
inductive Stop where
  | beyond
  | badScan
  deriving DecidableEq, Repr

/-- From a pointer up to what is not a blank. -/
def skipBlanks : Bytes → Except Stop Bytes
  | [] => .error .beyond
  | c :: t => if c = blank then skipBlanks t else .ok (c :: t)

/-- The same, the pointer being incremented first. -/
def nextBlanks (pos : Bytes) : Except Stop Bytes := skipBlanks pos.tail

/-- Up to the comma or the bracket that ends an item. The int aux wraps. -/
def scanItem : Mode → Int32 → Bytes → Except Stop Bytes
  | _, _, [] => .error .beyond
  | .out, aux, c :: t =>
    if aux = 0 ∧ (c = comma ∨ c = rbracket) then .ok (c :: t)
    else if c = lbrace ∨ c = lbracket then scanItem .out (aux + 1) t
    else if c = rbrace ∨ c = rbracket then
      if aux ≠ 0 then scanItem .out (aux - 1) t else .error .badScan
    else if c = 0 then .error .badScan
    else if c = quote then scanItem .str aux t
    else scanItem .out aux t
  | .str, aux, c :: t =>
    if c = backslash then scanItem .esc aux t
    else if c = 0 then .error .badScan
    else if c = quote then scanItem .out aux t
    else scanItem .str aux t
  | .esc, aux, c :: t => if c ≠ 0 then scanItem .str aux t else .error .badScan

/-- The items, as many as there is room for, and the pointer to the last bracket.
The size is that of the text with its terminator. -/
def scanItems (size : Nat) : Nat → Bytes → Except Stop (List (Nat × Nat) × Bytes)
  | 0, _ => .error .badScan
  | n + 1, beg =>
    (scanItem .out 0 beg).bind fun pos =>
      let item := (size - beg.length, trimmed (beg.take (beg.length - pos.length)))
      if pos.head? = some rbracket then .ok ([item], pos)
      else (nextBlanks pos).bind fun next =>
        (scanItems size n next).bind fun r => .ok (item :: r.1, r.2)

/-- The items; a bad scan is the result -1. -/
def wsj1MsgScan (text : Bytes) : Except Stop (List (Nat × Nat)) :=
  (skipBlanks (text ++ [0])).bind fun pos =>
    if pos.head? ≠ some lbracket then .error .badScan
    else (nextBlanks pos).bind fun pos =>
      (if pos.head? ≠ some rbracket then scanItems (text.length + 1) 10 pos else .ok ([], pos)).bind fun r =>
        (nextBlanks r.2).bind fun last => if last.head? ≠ some 0 then .error .badScan else .ok r.1

/-! The message. -/

/-- Why no message is made: a bad header, or an access that must not be: to the text
after its terminator, to an item that was not scanned, a write after the text. -/
inductive Halt where
  | badHeader
  | beyond
  | item (index : Nat)
  | write (pos : Nat)
  deriving DecidableEq, Repr

def readItem (items : List (Nat × Nat)) (index : Nat) : Except Halt (Nat × Nat) :=
  match items[index]? with
  | some item => .ok item
  | none => .error (.item index)

def readChar (text : Bytes) (pos : Nat) : Except Halt UInt8 :=
  if pos ≤ text.length then .ok (charAt text pos) else .error .beyond

def writeNul (text : Bytes) (pos : Nat) : Except Halt Bytes :=
  if pos < text.length then .ok (text.set pos 0) else .error (.write pos)

def wsj1MsgParseExtract (text : Bytes) (item : Nat × Nat) : Except Halt (Bytes × Nat) :=
  (writeNul text (item.1 + item.2)).bind fun text => .ok (text, item.1)

def wsj1MsgParseString (text : Bytes) (item : Nat × Nat) : Except Halt (Bytes × Nat) :=
  if item.2 > 1 then
    (readChar text item.1).bind fun c =>
      if c = quote then wsj1MsgParseExtract text (item.1 + 1, item.2 - 2)
      else wsj1MsgParseExtract text item
  else wsj1MsgParseExtract text item

/-- CALL. -/
def makeCall (text : Bytes) (items : List (Nat × Nat)) : Except Halt Msg :=
  if items.length ≠ 4 ∧ items.length ≠ 5 then .error .badHeader
  else
    (readItem items 1).bind fun item1 =>
    (wsj1MsgParseString text item1).bind fun id =>
    (readItem items 2).bind fun item2 =>
    (wsj1MsgParseString id.1 item2).bind fun api =>
    match strchr api.1 api.2 slash with
    | none => .error .badHeader
    | some pos =>
      (writeNul api.1 pos).bind fun text =>
      (readChar text (pos + 1)).bind fun c =>
      if c = 0 ∨ c = slash then .error .badHeader
      else
        (readItem items 3).bind fun item3 =>
        (wsj1MsgParseExtract text item3).bind fun object =>
        let msg : Msg := {
          text := object.1
          code := .call
          id := some id.2
          api := some api.2
          verb := some (pos + 1)
          event := none
          objectS := object.2
          objectSLength := item3.2
          token := none }
        if items.length = 5 then
          (readItem items 4).bind fun item4 =>
          (wsj1MsgParseString object.1 item4).bind fun token =>
            .ok { msg with text := token.1, token := some token.2 }
        else .ok msg

/-- RETOK and RETERR. -/
def makeReply (code : Code) (text : Bytes) (items : List (Nat × Nat)) : Except Halt Msg :=
  if items.length ≠ 3 ∧ items.length ≠ 4 then .error .badHeader
  else
    (readItem items 1).bind fun item1 =>
    (wsj1MsgParseString text item1).bind fun id =>
    (readItem items 2).bind fun item2 =>
    (wsj1MsgParseExtract id.1 item2).bind fun object =>
    let msg : Msg := {
      text := object.1
      code := code
      id := some id.2
      api := none
      verb := none
      event := none
      objectS := object.2
      objectSLength := item2.2
      token := none }
    if items.length = 5 then
      (readItem items 3).bind fun item3 =>
      (wsj1MsgParseString object.1 item3).bind fun token =>
        .ok { msg with text := token.1, token := some token.2 }
    else .ok msg

/-- EVENT. -/
def makeEvent (text : Bytes) (items : List (Nat × Nat)) : Except Halt Msg :=
  if items.length ≠ 3 then .error .badHeader
  else
    (readItem items 1).bind fun item1 =>
    (wsj1MsgParseString text item1).bind fun event =>
    (readItem items 2).bind fun item2 =>
    (wsj1MsgParseExtract event.1 item2).bind fun object =>
      .ok {
        text := object.1
        code := .event
        id := none
        api := none
        verb := none
        event := some event.2
        objectS := object.2
        objectSLength := item2.2
        token := none }

/-- The size and the code of the first item are read before the count is looked at. -/
def wsj1MsgMake (text : Bytes) : Except Halt Msg :=
  match wsj1MsgScan text with
  | .error .beyond => .error .beyond
  | .error .badScan => .error .badHeader
  | .ok items =>
    (readItem items 0).bind fun item0 =>
    if item0.2 ≠ 1 then .error .badHeader
    else
      (readChar text item0.1).bind fun c =>
      match codeOf c with
      | none => .error .badHeader
      | some .call => makeCall text items
      | some .retok => makeReply .retok text items
      | some .reterr => makeReply .reterr text items
      | some .event => makeEvent text items

/-- The items are in the text, apart and in order, ten at most. -/
structure Ordered (text : Bytes) (items : List (Nat × Nat)) : Prop where
  count : items.length ≤ 10
  inside : ∀ item ∈ items, item.1 + item.2 < text.length
  apart : items.Pairwise fun a b => a.1 + a.2 < b.1

/-- The only error of a scan in a text is that of bad_scan. -/
abbrev Scans {α : Type} (P : α → Prop) (r : Except Stop α) : Prop := Meets P (· = .badScan) r

/-- What a pointer in a text points to: the bytes left and the terminator. -/
def Tail (p : Bytes) : Prop := ∃ x : Bytes, (0 : UInt8) ∉ x ∧ p = x ++ [0]

section
variable {p : Bytes} {c : UInt8} {size : Nat}

private theorem Tail.next (h : Tail (c :: p)) (hc : c ≠ 0) : Tail p := by
  obtain ⟨x, hx, heq⟩ := h
  cases x with
  | nil => exact absurd (List.cons.inj heq).1 hc
  | cons d x =>
    exact ⟨x, fun hm => hx (List.mem_cons_of_mem d hm), (List.cons.inj heq).2⟩

private theorem Tail.ne_nil (h : Tail p) : p ≠ [] := by
  obtain ⟨x, -, rfl⟩ := h
  simp

private theorem skipBlanks_meets (h : Tail p) :
    Scans (fun q => Tail q ∧ q.length ≤ p.length) (skipBlanks p) := by
  induction p with
  | nil => exact absurd rfl h.ne_nil
  | cons c p ih =>
    rw [skipBlanks]
    split
    next hc =>
      have hne : c ≠ 0 := by
        rw [hc]
        decide
      apply (ih (h.next hne)).imp
      intro q hq
      exact ⟨hq.1, Nat.le_succ_of_le hq.2⟩
    next => exact ⟨h, Nat.le_refl _⟩

private theorem nextBlanks_meets (h : Tail p) (hc : p.head? ≠ some 0) :
    Scans (fun q => Tail q ∧ q.length < p.length) (nextBlanks p) := by
  cases p with
  | nil => exact absurd rfl h.ne_nil
  | cons c p =>
    have hne : c ≠ 0 := fun h => hc (by rw [h]; rfl)
    apply (skipBlanks_meets (h.next hne)).imp
    intro q hq
    exact ⟨hq.1, Nat.lt_succ_of_le hq.2⟩

private theorem scanItem_meets {m : Mode} {aux : Int32} (h : Tail p) :
    Scans (fun q => Tail q ∧ q.length ≤ p.length ∧ (q.head? = some comma ∨ q.head? = some rbracket))
      (scanItem m aux p) := by
  induction p generalizing m aux with
  | nil => exact absurd rfl h.ne_nil
  | cons c p ih =>
    have step (hc : c ≠ 0) (m : Mode) (aux : Int32) : Scans (fun q => Tail q ∧
        q.length ≤ (c :: p).length ∧ (q.head? = some comma ∨ q.head? = some rbracket)) (scanItem m aux p) := by
      apply (ih (h.next hc)).imp
      intro q hq
      exact ⟨hq.1, Nat.le_succ_of_le hq.2.1, hq.2.2⟩
    cases m with
    | out =>
      rw [scanItem]
      split
      next hend => exact ⟨h, Nat.le_refl _, by simpa using hend.2⟩
      next =>
        split
        next hc => exact step (by rcases hc with rfl | rfl <;> decide) .out (aux + 1)
        next =>
          split
          next hc =>
            split
            · exact step (by rcases hc with rfl | rfl <;> decide) .out (aux - 1)
            · rfl
          next =>
            split
            · rfl
            next hc =>
              split
              · exact step hc .str aux
              · exact step hc .out aux
    | str =>
      rw [scanItem]
      split
      next hc =>
        exact step (by rw [hc]; decide) .esc aux
      next =>
        split
        · rfl
        next hc =>
          split
          · exact step hc .out aux
          · exact step hc .str aux
    | esc =>
      rw [scanItem]
      split
      next hc => exact step hc .str aux
      next => rfl

private theorem Tail.two_le (h : Tail p) (hc : p.head? ≠ some 0) : 2 ≤ p.length := by
  obtain ⟨x, -, rfl⟩ := h
  cases x with
  | nil => exact absurd rfl hc
  | cons c x => simp

private theorem trimmed_le (item : Bytes) : trimmed item ≤ item.length := by
  have hle := (List.dropWhile_sublist (· = blank) (l := item.reverse)).length_le
  rwa [List.length_reverse] at hle

private theorem scanItems_meets {n : Nat} (h : Tail p) (hp : p.length ≤ size) :
    Scans (fun r => r.1.length ≤ n ∧ r.1 ≠ [] ∧ Tail r.2 ∧ r.2.head? = some rbracket ∧
      (∀ item ∈ r.1, size - p.length ≤ item.1 ∧ item.1 + item.2 + 1 < size) ∧
      r.1.Pairwise fun a b => a.1 + a.2 < b.1) (scanItems size n p) := by
  induction n generalizing p with
  | zero => rfl
  | succ n ih =>
    rw [scanItems]
    apply (scanItem_meets h).bind
    intro pos hpos
    obtain ⟨hpos, hle, hsep⟩ := hpos
    have hne : pos.head? ≠ some 0 := by
      rcases hsep with hc | hc <;> rw [hc] <;> decide
    have htwo := hpos.two_le hne
    have htrim := trimmed_le (p.take (p.length - pos.length))
    rw [List.length_take] at htrim
    dsimp only
    split
    next hend =>
      refine ⟨by simp, by simp, hpos, hend, ?_, List.pairwise_singleton _ _⟩
      rw [List.forall_mem_singleton]
      omega
    next =>
      apply (nextBlanks_meets hpos hne).bind
      intro next hnext
      obtain ⟨hnext, hlt⟩ := hnext
      apply (ih hnext (by omega)).bind
      intro r hr
      obtain ⟨hcount, -, hlast, hend, hinside, hapart⟩ := hr
      refine ⟨by simpa using hcount, by simp, hlast, hend, ?_, ?_⟩
      · rw [List.forall_mem_cons]
        refine ⟨by omega, ?_⟩
        intro item hitem
        have := hinside item hitem
        omega
      · rw [List.pairwise_cons]
        refine ⟨?_, hapart⟩
        intro item hitem
        have := (hinside item hitem).1
        dsimp only
        omega

/-- The scan does not read after the terminator; what it finds is in order. -/
theorem wsj1MsgScan_meets {text : Bytes} (h : (0 : UInt8) ∉ text) :
    Scans (Ordered text) (wsj1MsgScan text) := by
  have htail : Tail (text ++ [0]) := ⟨text, h, rfl⟩
  rw [wsj1MsgScan]
  apply (skipBlanks_meets htail).bind
  intro pos hpos
  split
  · rfl
  next hopen =>
    have hne : pos.head? ≠ some 0 := by
      rw [not_not.mp hopen]
      decide
    apply (nextBlanks_meets hpos.1 hne).bind
    intro pos' hpos'
    have hsize : pos'.length ≤ text.length + 1 := by
      have hle := hpos.2
      rw [List.length_append, List.length_singleton] at hle
      exact (hpos'.2.le).trans hle
    refine Meets.bind (P := fun r => Ordered text r.1 ∧ Tail r.2 ∧ r.2.head? = some rbracket) ?_ ?_
    · split
      · apply (scanItems_meets hpos'.1 hsize).imp
        intro r hr
        obtain ⟨hcount, -, hlast, hend, hinside, hapart⟩ := hr
        exact ⟨⟨hcount, fun item hitem => by have := (hinside item hitem).2; omega, hapart⟩, hlast, hend⟩
      next hend =>
        exact ⟨⟨by simp, by simp, List.Pairwise.nil⟩, hpos'.1, not_not.mp hend⟩
    · intro r hr
      obtain ⟨hordered, hlast, hend⟩ := hr
      apply (nextBlanks_meets hlast (by rw [hend]; decide)).bind
      intro last _
      split
      · rfl
      · exact hordered

/-- Going over blanks leaves the other bytes to come. -/
theorem skipBlanks_iff {rest : Bytes} : (∃ t, skipBlanks p = .ok (c :: t) ∧ t.filter (· ≠ blank) = rest) ↔
    p.filter (· ≠ blank) = c :: rest := by
  induction p with
  | nil => simp [skipBlanks]
  | cons d p ih =>
    rw [skipBlanks]
    by_cases hd : d = blank
    · rw [if_pos hd, List.filter_cons_of_neg (by simp [hd]), ih]
    · rw [if_neg hd, List.filter_cons_of_pos (by simp [hd])]
      constructor
      · rintro ⟨t, heq, hrest⟩
        obtain ⟨rfl, rfl⟩ := List.cons.inj (Except.ok.inj heq)
        rw [hrest]
      · intro heq
        obtain ⟨rfl, hrest⟩ := List.cons.inj heq
        exact ⟨p, rfl, hrest⟩

private theorem nextBlanks_iff {d : UInt8} {rest : Bytes} : (∃ t, nextBlanks (d :: p) = .ok (c :: t) ∧
    t.filter (· ≠ blank) = rest) ↔ p.filter (· ≠ blank) = c :: rest := skipBlanks_iff

private theorem exists_cons_of_head? {l : Bytes} (h : l.head? = some c) : ∃ t, l = c :: t := by
  cases l with
  | nil => cases h
  | cons d t => exact ⟨t, by rw [Option.some.inj h]⟩

private theorem scanItems_ne_nil {n : Nat} {r : List (Nat × Nat) × Bytes} (h : scanItems size n p = .ok r) :
    r.1 ≠ [] := by
  cases n with
  | zero => cases h
  | succ n =>
    rw [scanItems] at h
    obtain ⟨pos, -, h⟩ := bind_ok.mp h
    dsimp only at h
    split at h
    · cases h
      exact List.cons_ne_nil _ _
    · obtain ⟨next, -, h⟩ := bind_ok.mp h
      obtain ⟨r, -, h⟩ := bind_ok.mp h
      cases h
      exact List.cons_ne_nil _ _

/-- No item is found in brackets with nothing but blanks inside, and in them only. -/
theorem wsj1MsgScan_nil_iff {text : Bytes} (h : (0 : UInt8) ∉ text) :
    wsj1MsgScan text = .ok [] ↔ text.filter (· ≠ blank) = [lbracket, rbracket] := by
  have hfilter : (text ++ [0]).filter (· ≠ blank) = text.filter (· ≠ blank) ++ [0] := by
    rw [List.filter_append]
    rfl
  constructor
  · intro hscan
    rw [wsj1MsgScan] at hscan
    obtain ⟨pos, hskip1, hscan⟩ := bind_ok.mp hscan
    obtain ⟨hopen, hscan⟩ := guard_ok.mp hscan
    obtain ⟨t1, rfl⟩ := exists_cons_of_head? (not_not.mp hopen)
    obtain ⟨pos, hskip2, hscan⟩ := bind_ok.mp hscan
    obtain ⟨r, hitems, hscan⟩ := bind_ok.mp hscan
    obtain ⟨last, hskip3, hscan⟩ := bind_ok.mp hscan
    obtain ⟨hend, hnone⟩ := guard_ok.mp hscan
    obtain ⟨t3, rfl⟩ := exists_cons_of_head? (not_not.mp hend)
    split at hitems
    · exact absurd (Except.ok.inj hnone) (scanItems_ne_nil hitems)
    next hclose =>
      obtain ⟨t2, rfl⟩ := exists_cons_of_head? (not_not.mp hclose)
      cases hitems
      have h3 := nextBlanks_iff.mp ⟨t3, hskip3, rfl⟩
      have h2 := nextBlanks_iff.mp ⟨t2, hskip2, h3⟩
      have h1 := skipBlanks_iff.mp ⟨t1, hskip1, h2⟩
      rw [hfilter] at h1
      -- before the first NUL are the bytes of the text and the two brackets
      have hnul : ∀ b ∈ text.filter (· ≠ blank), decide (b ≠ 0) = true := by
        intro b hb
        refine decide_eq_true fun hz => h ?_
        rw [← hz]
        exact (List.mem_filter.mp hb).1
      have hbefore := congrArg (List.takeWhile (· ≠ 0)) h1
      rw [List.takeWhile_append_of_pos hnul, List.takeWhile_cons_of_neg (by decide), List.append_nil] at hbefore
      exact hbefore
  · intro hnone
    rw [hnone] at hfilter
    obtain ⟨t1, hskip1, ht1⟩ := skipBlanks_iff.mpr hfilter
    obtain ⟨t2, hskip2, ht2⟩ := (nextBlanks_iff (d := lbracket)).mpr ht1
    obtain ⟨t3, hskip3, ht3⟩ := (nextBlanks_iff (d := rbracket)).mpr ht2
    rw [wsj1MsgScan, hskip1]
    simp only [Except.bind, hskip2, hskip3, List.head?_cons, ne_eq, not_true_eq_false, if_false]

end

/-! Making the message. -/

/-- What the functions give when they do not go out of bounds. -/
def ofOption {α : Type} : Option α → Except Halt α
  | some a => .ok a
  | none => .error .badHeader

section
variable {text : Bytes} {items : List (Nat × Nat)} {item : Nat × Nat} {pos i : Nat}

private theorem writeNul_eq (h : pos < text.length) : writeNul text pos = .ok (text.set pos 0) := if_pos h

private theorem readChar_eq (h : pos ≤ text.length) : readChar text pos = .ok (charAt text pos) := if_pos h

private theorem readItem_eq (h : i < items.length) : readItem items i = .ok (items.getD i (0, 0)) := by
  simp [readItem, h]

/-- The item is in the text. -/
def Inside (text : Bytes) (item : Nat × Nat) : Prop := item.1 + item.2 < text.length

private theorem wsj1MsgParseExtract_eq (h : Inside text item) :
    wsj1MsgParseExtract text item = .ok (Wsj1.wsj1MsgParseExtract text item) := by
  rw [wsj1MsgParseExtract, writeNul_eq h]
  rfl

private theorem wsj1MsgParseString_eq (h : Inside text item) :
    wsj1MsgParseString text item = .ok (Wsj1.wsj1MsgParseString text item) := by
  rw [wsj1MsgParseString, Wsj1.wsj1MsgParseString]
  unfold Inside at h
  split
  next hsize =>
    rw [readChar_eq (by omega)]
    by_cases hquote : charAt text item.1 = quote
    · rw [if_pos ⟨hsize, hquote⟩, ← wsj1MsgParseExtract_eq (by unfold Inside; omega)]
      exact if_pos hquote
    · rw [if_neg fun hc => hquote hc.2, ← wsj1MsgParseExtract_eq h]
      exact if_neg hquote
  next hsize =>
    rw [if_neg fun hc => hsize hc.1, wsj1MsgParseExtract_eq h]

private theorem length_parseExtract : (Wsj1.wsj1MsgParseExtract text item).1.length =
    text.length := List.length_set

private theorem length_parseString : (Wsj1.wsj1MsgParseString text item).1.length = text.length := by
  rw [Wsj1.wsj1MsgParseString]
  split <;> exact length_parseExtract

private theorem strchr_lt {c : UInt8} {n : Nat} (h : strchr text pos c = some n) : n < text.length := by
  rw [strchr] at h
  split at h
  next hmem =>
    cases h
    have hidx := List.idxOf_lt_length_of_mem hmem
    have hle : (cstr text pos).length ≤ text.length - pos := by
      rw [← List.length_drop]
      exact (List.takeWhile_sublist _).length_le
    omega
  · cases h

private theorem inside_getD (h : ∀ item ∈ items, Inside text item) (hi : i < items.length) :
    Inside text (items.getD i (0, 0)) := by
  have hget : items.getD i (0, 0) = items[i] := by simp [hi]
  rw [hget]
  exact h _ (List.getElem_mem hi)

private theorem Inside.of_length {text' : Bytes} (h : Inside text item) (hlen : text'.length = text.length) :
    Inside text' item := by
  rw [Inside, hlen]
  exact h

private theorem makeCall_eq (h : ∀ item ∈ items, Inside text item) :
    makeCall text items = ofOption (Wsj1.makeCall text items) := by
  rw [makeCall, Wsj1.makeCall]
  dsimp only
  split
  · rfl
  next hcount =>
    have hid := inside_getD h (i := 1) (by omega)
    have hapi := inside_getD h (i := 2) (by omega)
    have hobject := inside_getD h (i := 3) (by omega)
    rw [readItem_eq (by omega), ok_bind, wsj1MsgParseString_eq hid, ok_bind, readItem_eq (by omega), ok_bind,
      wsj1MsgParseString_eq (hapi.of_length length_parseString), ok_bind]
    have hlen : (Wsj1.wsj1MsgParseString (Wsj1.wsj1MsgParseString text (items.getD 1 (0, 0))).1
        (items.getD 2 (0, 0))).1.length = text.length := length_parseString.trans length_parseString
    generalize Wsj1.wsj1MsgParseString (Wsj1.wsj1MsgParseString text (items.getD 1 (0, 0))).1
      (items.getD 2 (0, 0)) = api at *
    cases hslash : strchr api.1 api.2 slash with
    | none => rfl
    | some pos =>
      have hpos := strchr_lt hslash
      have hlen : (api.1.set pos 0).length = text.length := List.length_set.trans hlen
      dsimp only
      rw [writeNul_eq hpos, ok_bind, readChar_eq (by rw [List.length_set]; exact hpos), ok_bind, Option.bind_some]
      split
      · rfl
      · rw [readItem_eq (by omega), ok_bind, wsj1MsgParseExtract_eq (hobject.of_length hlen), ok_bind]
        by_cases hfive : items.length = 5
        · have htoken := inside_getD h (i := 4) (by omega)
          rw [if_pos hfive, if_pos hfive, readItem_eq (by omega), ok_bind,
            wsj1MsgParseString_eq (htoken.of_length (length_parseExtract.trans hlen)), ok_bind]
          rfl
        · rw [if_neg hfive, if_neg hfive]
          rfl

private theorem makeReply_eq {code : Code} (h : ∀ item ∈ items, Inside text item) :
    makeReply code text items = ofOption (Wsj1.makeReply code text items) := by
  rw [makeReply, Wsj1.makeReply]
  dsimp only
  split
  · rfl
  next hcount =>
    have hid := inside_getD h (i := 1) (by omega)
    have hobject := inside_getD h (i := 2) (by omega)
    -- the count is 3 or 4 here, so that the token is never read
    have hfive : ¬items.length = 5 := by omega
    rw [readItem_eq (by omega), ok_bind, wsj1MsgParseString_eq hid, ok_bind, readItem_eq (by omega), ok_bind,
      wsj1MsgParseExtract_eq (hobject.of_length length_parseString), ok_bind, if_neg hfive, if_neg hfive]
    rfl

private theorem makeEvent_eq (h : ∀ item ∈ items, Inside text item) :
    makeEvent text items = ofOption (Wsj1.makeEvent text items) := by
  rw [makeEvent, Wsj1.makeEvent]
  dsimp only
  split
  · rfl
  next hcount =>
    have hevent := inside_getD h (i := 1) (by omega)
    have hobject := inside_getD h (i := 2) (by omega)
    rw [readItem_eq (by omega), ok_bind, wsj1MsgParseString_eq hevent, ok_bind, readItem_eq (by omega), ok_bind,
      wsj1MsgParseExtract_eq (hobject.of_length length_parseString), ok_bind]
    rfl

end

/-- With the items of a scan: the item read first must be one of them. -/
theorem wsj1MsgMake_of_scan {text : Bytes} {items : List (Nat × Nat)} (h : (0 : UInt8) ∉ text)
    (hscan : wsj1MsgScan text = .ok items) : wsj1MsgMake text =
      if items = [] then .error (.item 0)
      else if (items.getD 0 (0, 0)).2 ≠ 1 then .error .badHeader
      else ofOption ((codeOf (charAt text (items.getD 0 (0, 0)).1)).bind fun code =>
        match code with
        | .call => Wsj1.makeCall text items
        | .retok => Wsj1.makeReply .retok text items
        | .reterr => Wsj1.makeReply .reterr text items
        | .event => Wsj1.makeEvent text items) := by
  have hordered := (meets_iff.mp (wsj1MsgScan_meets h)).1 items hscan
  rw [wsj1MsgMake, hscan]
  dsimp only
  split
  next hnil =>
    rw [hnil]
    rfl
  next hne =>
    have hpos := List.length_pos_iff.mpr hne
    have hfirst := inside_getD hordered.inside hpos
    unfold Inside at hfirst
    rw [readItem_eq hpos, ok_bind]
    split
    · rfl
    · rw [readChar_eq (by omega), ok_bind]
      cases codeOf (charAt text (items.getD 0 (0, 0)).1) with
      | none => rfl
      | some code =>
        cases code with
        | call => exact makeCall_eq hordered.inside
        | retok => exact makeReply_eq hordered.inside
        | reterr => exact makeReply_eq hordered.inside
        | event => exact makeEvent_eq hordered.inside

/-! The functions without the accesses. An int counts the nestings of a text shorter
than 2 ^ 31 bytes. -/

section
variable {x text : Bytes} {n pos : Nat}

private theorem skipBlanks_eq : skipBlanks (x ++ [0]) = .ok
    (x.drop (x.takeWhile (· = blank)).length ++ [0]) := by
  induction x with
  | nil => rfl
  | cons c x ih =>
    rw [List.cons_append, skipBlanks]
    by_cases hc : c = blank
    · rw [if_pos hc, ih, List.takeWhile_cons_of_pos (by simpa using hc), List.length_cons, List.drop_succ_cons]
    · rw [if_neg hc, List.takeWhile_cons_of_neg (by simpa using hc)]
      rfl

/-- The memory from a position of the text on. -/
def memory (text : Bytes) (pos : Nat) : Bytes := text.drop pos ++ [0]

private theorem skipBlanks_memory : skipBlanks (memory text pos) = .ok
    (memory text (Wsj1.skipBlanks text pos)) := by
  rw [memory, skipBlanks_eq, List.drop_drop]
  rfl

private theorem head?_memory (h : pos ≤ text.length) : (memory text pos).head? = some (charAt text pos) := by
  rcases Nat.lt_or_eq_of_le h with hlt | rfl
  · simp [memory, charAt, List.head?_append, List.head?_drop, hlt]
  · simp [memory, charAt]

private theorem nextBlanks_memory (h : pos < text.length) :
    nextBlanks (memory text pos) = .ok (memory text (Wsj1.skipBlanks text (pos + 1))) := by
  have htail : (memory text pos).tail = memory text (pos + 1) := by
    rw [memory, List.tail_append_of_ne_nil (by simpa using h), List.tail_drop]
    rfl
  rw [nextBlanks, htail, skipBlanks_memory]

private theorem skipBlanks_le (h : pos ≤ text.length) : Wsj1.skipBlanks text pos ≤ text.length := by
  have hle := (List.takeWhile_sublist (· = blank) (l := text.drop pos)).length_le
  rw [List.length_drop] at hle
  rw [Wsj1.skipBlanks]
  omega

/-- The scans without the accesses. -/
def ofScan {α β : Type} (f : α → β) : Option α → Except Stop β
  | some a => .ok (f a)
  | none => .error .badScan

private theorem ofScan_map {α β γ : Type} {f : β → γ} {g : α → β} {r : Option α} :
    ofScan f (r.map g) = ofScan (fun a => f (g a)) r := by
  cases r <;> rfl

private theorem aux_eq_zero (h : n < 2 ^ 31) : Int32.ofNat n = 0 ↔ n = 0 := by
  constructor
  · intro hz
    have hint := congrArg Int32.toInt hz
    rw [Int32.toInt_ofNat_of_lt h] at hint
    exact Int.natCast_eq_zero.mp hint
  · rintro rfl
    rfl

private theorem aux_pred (h : n ≠ 0) : Int32.ofNat n - 1 = Int32.ofNat (n - 1) :=
  (Int32.ofNat_sub n 1 (Nat.one_le_iff_ne_zero.mpr h)).symm

private theorem scanItem_nul {m : Mode} {aux : Int32} : scanItem m aux [0] = .error .badScan := by
  cases m with
  | out =>
    rw [scanItem, if_neg fun hc => absurd hc.2 (by decide)]
    rfl
  | str => rfl
  | esc => rfl

private theorem scanItem_eq {m : Mode} (h : n + x.length < 2 ^ 31) :
    scanItem m (Int32.ofNat n) (x ++ [0]) = ofScan (fun size => x.drop size ++ [0]) (itemSize m n x) := by
  induction x generalizing m n with
  | nil => exact scanItem_nul.trans (by cases m <;> rfl)
  | cons c x ih =>
    rw [List.length_cons] at h
    have step (m : Mode) {k : Nat} (hk : k ≤ n + 1) : scanItem m (Int32.ofNat k) (x ++ [0]) =
        ofScan (fun size => (c :: x).drop size ++ [0]) ((itemSize m k x).map (· + 1)) := by
      rw [ih (by omega), ofScan_map]
      rfl
    have hzero : Int32.ofNat n = 0 ↔ n = 0 := aux_eq_zero (by omega)
    rw [List.cons_append]
    cases m with
    | out =>
      rw [scanItem, itemSize]
      simp only [hzero, ne_eq]
      split
      · rfl
      · split
        · rw [show Int32.ofNat n + 1 = Int32.ofNat (n + 1) from (Int32.ofNat_add n 1).symm]
          exact step .out (by omega)
        · split
          · split
            next haux =>
              rw [aux_pred haux]
              exact step .out (by omega)
            · rfl
          · split
            · rfl
            · split
              · exact step .str (by omega)
              · exact step .out (by omega)
    | str =>
      rw [scanItem, itemSize]
      split
      · exact step .esc (by omega)
      · split
        · rfl
        · split
          · exact step .out (by omega)
          · exact step .str (by omega)
    | esc =>
      rw [scanItem, itemSize]
      split
      · exact step .str (by omega)
      · rfl

private theorem itemSize_lt {m : Mode} {size : Nat} (h : itemSize m n x = some size) : size < x.length := by
  induction x generalizing m n size with
  | nil => cases h
  | cons c x ih =>
    have step {m : Mode} {k : Nat} (h : (itemSize m k x).map (· + 1) = some size) : size < (c :: x).length := by
      obtain ⟨size, hsize, rfl⟩ := Option.map_eq_some_iff.mp h
      exact Nat.succ_lt_succ (ih hsize)
    cases m with
    | out =>
      rw [itemSize] at h
      repeat' split at h
      all_goals first
        | exact step h
        | cases h
      exact Nat.succ_pos _
    | str =>
      rw [itemSize] at h
      repeat' split at h
      all_goals first
        | exact step h
        | cases h
    | esc =>
      rw [itemSize] at h
      split at h
      · exact step h
      · cases h

private theorem scanItems_eq {count : Nat} (h : text.length < 2 ^ 31) (hpos : pos ≤ text.length) :
    scanItems (text.length + 1) count (memory text pos) =
      ofScan (fun r => (r.1, memory text r.2)) (Wsj1.scanItems text count pos) := by
  induction count generalizing pos with
  | zero => rfl
  | succ count ih =>
    have hitem : scanItem .out 0 (memory text pos) =
        ofScan (fun size => memory text (pos + size)) (itemSize .out 0 (text.drop pos)) := by
      refine (scanItem_eq (n := 0) (x := text.drop pos) (by rw [List.length_drop]; omega)).trans ?_
      simp only [memory, List.drop_drop]
    rw [scanItems, Wsj1.scanItems, hitem]
    cases hsize : itemSize .out 0 (text.drop pos) with
    | none => rfl
    | some size =>
      have hlt := itemSize_lt hsize
      rw [List.length_drop] at hlt
      have hlen (k : Nat) : (memory text k).length = text.length - k + 1 := by simp [memory]
      have hstart : text.length + 1 - (memory text pos).length = pos := by
        rw [hlen]
        omega
      have htake : (memory text pos).take ((memory text pos).length - (memory text (pos + size)).length) =
          (text.drop pos).take size := by
        rw [hlen, hlen, memory, List.take_append_of_le_length (by rw [List.length_drop]; omega)]
        congr 1
        omega
      rw [ofScan, ok_bind, Option.bind_some, hstart, htake, head?_memory (by omega)]
      simp only [Option.some.injEq]
      split
      · rfl
      · rw [nextBlanks_memory (by omega), ok_bind, ih (skipBlanks_le (by omega)), ofScan_map]
        cases Wsj1.scanItems text count (Wsj1.skipBlanks text (pos + size + 1)) with
        | none => rfl
        | some r => rfl

private theorem scanItems_end {count : Nat} {r : List (Nat × Nat) × Nat}
    (h : Wsj1.scanItems text count pos = some r) :
    charAt text r.2 = rbracket := by
  induction count generalizing pos r with
  | zero => cases h
  | succ count ih =>
    rw [Wsj1.scanItems] at h
    obtain ⟨size, -, h⟩ := Option.bind_eq_some_iff.mp h
    dsimp only at h
    split at h
    next hend =>
      cases h
      exact hend
    next =>
      obtain ⟨r', hr, rfl⟩ := Option.map_eq_some_iff.mp h
      exact ih (r := r') hr

private theorem charAt_lt (h : charAt text pos ≠ 0) : pos < text.length := by
  by_contra hge
  exact h (by simp [charAt, Nat.le_of_not_lt hge])

/-- The scan finds the items of the text. -/
theorem wsj1MsgScan_eq (h : text.length < 2 ^ 31) : wsj1MsgScan text = ofScan id (Wsj1.wsj1MsgScan text) := by
  have hstart : skipBlanks (text ++ [0]) = .ok (memory text (Wsj1.skipBlanks text 0)) :=
    (skipBlanks_memory : skipBlanks (memory text 0) = _)
  have hle : Wsj1.skipBlanks text 0 ≤ text.length := skipBlanks_le (Nat.zero_le _)
  rw [wsj1MsgScan, Wsj1.wsj1MsgScan, hstart, ok_bind, head?_memory hle]
  simp only [ne_eq, Option.some.injEq]
  generalize Wsj1.skipBlanks text 0 = pos at *
  split
  · rfl
  next hopen =>
    have hlt : pos < text.length := charAt_lt (by rw [not_not.mp hopen]; decide)
    rw [nextBlanks_memory hlt, ok_bind]
    have hle : Wsj1.skipBlanks text (pos + 1) ≤ text.length := skipBlanks_le (Nat.succ_le_of_lt hlt)
    generalize Wsj1.skipBlanks text (pos + 1) = pos' at *
    have hitems : (if ¬(memory text pos').head? = some rbracket then
          scanItems (text.length + 1) 10 (memory text pos') else .ok ([], memory text pos')) =
        ofScan (fun r => (r.1, memory text r.2))
          (if ¬charAt text pos' = rbracket then Wsj1.scanItems text 10 pos' else some ([], pos')) := by
      rw [head?_memory hle, scanItems_eq h hle]
      simp only [Option.some.injEq]
      split <;> rfl
    rw [hitems]
    cases hr : (if ¬charAt text pos' = rbracket then Wsj1.scanItems text 10 pos' else some ([], pos')) with
    | none => rfl
    | some r =>
      have hend : charAt text r.2 = rbracket := by
        split at hr
        · exact scanItems_end hr
        next hclose =>
          cases hr
          exact not_not.mp hclose
      have hlast : r.2 < text.length := charAt_lt (by rw [hend]; decide)
      rw [ofScan, ok_bind, Option.bind_some, nextBlanks_memory hlast, ok_bind,
        head?_memory (skipBlanks_le (Nat.succ_le_of_lt hlast))]
      simp only [Option.some.injEq]
      split <;> rfl

end

/-- Where a first item is scanned the message is the one that the text makes. -/
theorem wsj1MsgMake_eq {text : Bytes} (h : (0 : UInt8) ∉ text) (hlen : text.length < 2 ^ 31) :
    wsj1MsgMake text =
      if Wsj1.wsj1MsgScan text = some [] then .error (.item 0) else ofOption (Wsj1.wsj1MsgMake text) := by
  have hscan := wsj1MsgScan_eq hlen
  rw [Wsj1.wsj1MsgMake]
  cases hitems : Wsj1.wsj1MsgScan text with
  | none =>
    rw [hitems] at hscan
    rw [wsj1MsgMake, hscan]
    rfl
  | some items =>
    rw [hitems] at hscan
    rw [wsj1MsgMake_of_scan h (show wsj1MsgScan text = .ok items from hscan), Option.bind_some]
    by_cases hnil : items = []
    · rw [if_pos hnil, if_pos (congrArg some hnil)]
    · rw [if_neg hnil, if_neg fun hc => hnil (Option.some.inj hc)]
      dsimp only
      split <;> rfl

private theorem ofOption_error {α : Type} {r : Option α} {halt : Halt} (h : ofOption r = .error halt) :
    halt = .badHeader := by
  cases r with
  | none => exact (Except.error.inj h).symm
  | some a => cases h

/-- The accesses of the scan and of the making of a message are in bounds, the items
found in order. -/
def Bounded (text : Bytes) : Prop :=
  Scans (Ordered text) (wsj1MsgScan text) ∧ ∀ halt, wsj1MsgMake text = .error halt → halt = .badHeader

/-- The first item is read although no item was scanned. -/
theorem wsj1MsgMake_no_item : ¬ Bounded [lbracket, rbracket] := by
  intro h
  have hread : wsj1MsgMake [lbracket, rbracket] = .error (.item 0) := by decide
  cases h.2 _ hread

/-- All is in bounds but for the brackets without item. -/
theorem wsj1MsgMake_bounded_iff (text : Ctext) :
    Bounded text ↔ text.val.filter (· ≠ blank) ≠ [lbracket, rbracket] := by
  obtain ⟨text, htext⟩ := text
  have hmeets := wsj1MsgScan_meets htext
  rw [Ne, ← wsj1MsgScan_nil_iff htext]
  constructor
  · intro h hnil
    have hread := wsj1MsgMake_of_scan htext hnil
    rw [if_pos rfl] at hread
    cases h.2 _ hread
  · intro hne
    refine ⟨hmeets, fun halt hhalt => ?_⟩
    cases hscan : wsj1MsgScan text with
    | error stop =>
      have hstop := (meets_iff.mp hmeets).2 stop hscan
      rw [hstop] at hscan
      rw [wsj1MsgMake, hscan] at hhalt
      exact (Except.error.inj hhalt).symm
    | ok items =>
      rw [wsj1MsgMake_of_scan htext hscan, if_neg fun hitems : items = [] => hne (hitems ▸ hscan)] at hhalt
      split at hhalt
      · exact (Except.error.inj hhalt).symm
      · exact ofOption_error hhalt

end AfbBinder.Wsj1.Bounds
