import AfbBinder.Wsj1.Model

/-! What wsj1_msg_scan finds in a list of texts of JSON. -/
namespace AfbBinder.Wsj1
open Lib.Cstrings Lib.Json

/-! One byte of the scan of an item. -/

private theorem itemSize_out (aux : Nat) (c : UInt8) (t : Bytes) : itemSize .out aux (c :: t) =
    if aux = 0 ∧ (c = comma ∨ c = rbracket) then some 0
    else if c = lbrace ∨ c = lbracket then (itemSize .out (aux + 1) t).map (· + 1)
    else if c = rbrace ∨ c = rbracket then
      if aux ≠ 0 then (itemSize .out (aux - 1) t).map (· + 1) else none
    else if c = 0 then none
    else if c = quote then (itemSize .str aux t).map (· + 1)
    else (itemSize .out aux t).map (· + 1) := rfl

private theorem itemSize_str (aux : Nat) (c : UInt8) (t : Bytes) : itemSize .str aux (c :: t) =
    if c = backslash then (itemSize .esc aux t).map (· + 1)
    else if c = 0 then none
    else if c = quote then (itemSize .out aux t).map (· + 1)
    else (itemSize .str aux t).map (· + 1) := rfl

private theorem itemSize_esc (aux : Nat) (c : UInt8) (t : Bytes) : itemSize .esc aux (c :: t) =
    if c ≠ 0 then (itemSize .str aux t).map (· + 1) else none := rfl

/-- The scan of an item goes over these bytes. -/
def Skips (m : Mode) (aux : Nat) (x : Bytes) (m' : Mode) (aux' : Nat) : Prop :=
  ∀ rest, itemSize m aux (x ++ rest) = (itemSize m' aux' rest).map (· + x.length)

section
variable {m m' m'' : Mode} {aux aux' aux'' : Nat} {x y : Bytes} {b : UInt8}

private theorem Skips.nil : Skips m aux [] m aux := fun rest => by
  simp

private theorem Skips.trans (hx : Skips m aux x m' aux') (hy : Skips m' aux' y m'' aux'') :
    Skips m aux (x ++ y) m'' aux'' := fun rest => by
  rw [List.append_assoc, hx, hy, Option.map_map, List.length_append]
  congr 1
  funext n
  simp only [Function.comp_apply]
  omega

private theorem Skips.cons (hb : Skips m aux [b] m' aux') (hx : Skips m' aux' x m'' aux'') :
    Skips m aux (b :: x) m'' aux'' := hb.trans hx

private theorem skips_inert (h : Inert b) : Skips .out aux [b] .out aux := fun rest => by
  obtain ⟨hcomma, hlbracket, hrbracket, hlbrace, hrbrace, hquote, hnul⟩ := h
  simp only [List.singleton_append, itemSize_out, hcomma, hlbracket, hrbracket, hlbrace, hrbrace, hquote, hnul,
    or_self, and_false, if_false]
  rfl

private theorem skips_inerts (h : ∀ b ∈ x, Inert b) : Skips .out aux x .out aux := by
  induction x with
  | nil => exact .nil
  | cons b x ih =>
    rw [List.forall_mem_cons] at h
    exact (skips_inert h.1).cons (ih h.2)

private theorem skips_comma : Skips .out (aux + 1) [comma] .out (aux + 1) := fun rest => by
  rw [List.singleton_append, itemSize_out, if_neg (by omega), if_neg (by decide), if_neg (by decide),
    if_neg (by decide), if_neg (by decide)]
  rfl

private theorem skips_open (h : b = lbrace ∨ b = lbracket) : Skips .out aux [b] .out (aux + 1) := fun rest => by
  have hne : ¬ (b = comma ∨ b = rbracket) := by rcases h with rfl | rfl <;> decide
  rw [List.singleton_append, itemSize_out, if_neg fun hc => hne hc.2, if_pos h]
  rfl

private theorem skips_close (h : b = rbrace ∨ b = rbracket) : Skips .out (aux + 1)
    [b] .out aux := fun rest => by
  have hne : ¬ (b = lbrace ∨ b = lbracket) := by rcases h with rfl | rfl <;> decide
  rw [List.singleton_append, itemSize_out, if_neg (by omega), if_neg hne, if_pos h, if_pos (by omega)]
  rfl

private theorem skips_quote : Skips .out aux [quote] .str aux := fun rest => by
  rw [List.singleton_append, itemSize_out, if_neg fun hc => absurd hc.2 (by decide), if_neg (by decide), if_neg (by decide),
    if_neg (by decide), if_pos rfl]
  rfl

private theorem skips_unquote : Skips .str aux [quote] .out aux := fun rest => by
  rw [List.singleton_append, itemSize_str, if_neg (by decide), if_neg (by decide), if_pos rfl]
  rfl

private theorem skips_plain (hq : b ≠ quote) (hb : b ≠ backslash) (hn : b ≠ 0) :
    Skips .str aux [b] .str aux := fun rest => by
  rw [List.singleton_append, itemSize_str, if_neg hb, if_neg hn, if_neg hq]
  rfl

private theorem skips_escape (hb : b ≠ 0) : Skips .str aux [backslash, b] .str aux := fun rest => by
  simp only [List.cons_append, List.nil_append, itemSize_str, itemSize_esc, if_true, ne_eq, hb, not_false_eq_true,
    Option.map_map]
  rfl

private theorem skips_chars (h : Chars x) : Skips .str aux x .str aux := by
  induction h with
  | nil => exact .nil
  | plain h hq hb _ ih =>
    refine (skips_plain hq hb ?_).cons ih
    rintro rfl
    exact absurd h (by decide)
  | @escape b x h _ ih =>
    have hne : b ≠ 0 := by
      rintro rfl
      exact absurd h (by decide)
    exact (skips_escape hne).trans ih
  | @unicode a b c d x ha hb hc hd _ ih =>
    have hex {b : UInt8} (h : HexDigit b) : Skips .str aux [b] .str aux := by
      refine skips_plain ?_ ?_ ?_ <;> rintro rfl <;> unfold HexDigit Digit at h <;> exact absurd h (by decide)
    exact (skips_escape (b := 0x75) (by decide)).trans
      ((hex ha).cons ((hex hb).cons ((hex hc).cons ((hex hd).cons ih))))

private theorem skips_quoted (h : Skips .str aux x .str aux) :
    Skips .out aux (quote :: (x ++ [quote])) .out aux :=
  skips_quote.cons (h.trans skips_unquote)

private theorem skips_ws (h : Ws x) : Skips .out aux x .out aux :=
  skips_inerts fun _ hb => inert_of_ws h hb

private theorem skips_grouped {c : UInt8} (hb : b = lbrace ∨ b = lbracket) (hc : c = rbrace ∨ c = rbracket)
    (hx : Skips .out (aux + 1) x .out (aux + 1)) : Skips .out aux (b :: (x ++ [c])) .out aux :=
  (skips_open hb).cons (hx.trans (skips_close hc))

/-- The scan goes over a text of JSON; the commas of its parts are inside of brackets. -/
theorem skips_derives {p : Part} (h : Derives p x) (hp : p ≠ .value → 0 < aux) :
    Skips .out aux x .out aux := by
  induction h generalizing aux with
  | literal h => exact skips_inerts fun _ hb => (inert_of_literal h hb).1
  | number h => exact skips_inerts fun _ hb => (inert_of_number h hb).1
  | string h => exact skips_quoted (skips_chars h)
  | noElement h => exact skips_grouped (.inr rfl) (.inr rfl) (skips_ws h)
  | array h ih => exact skips_grouped (.inr rfl) (.inr rfl) (ih fun _ => aux.succ_pos)
  | noMember h => exact skips_grouped (.inl rfl) (.inl rfl) (skips_ws h)
  | object h ih => exact skips_grouped (.inl rfl) (.inl rfl) (ih fun _ => aux.succ_pos)
  | element hw hv hw' ih => exact ((skips_ws hw).trans (ih fun h => absurd rfl h)).trans (skips_ws hw')
  | elements hw hv hw' hx ihv ihx =>
    obtain ⟨n, rfl⟩ := Nat.exists_eq_succ_of_ne_zero (Nat.ne_of_gt (hp (by decide)))
    exact (((skips_ws hw).trans (ihv fun h => absurd rfl h)).trans (skips_ws hw')).trans
      (skips_comma.cons (ihx fun _ => n.succ_pos))
  | member h₁ hk h₂ h₃ hv h₄ ih =>
    exact (((skips_ws h₁).trans (skips_quoted (skips_chars hk))).trans (skips_ws h₂)).trans
      ((skips_inert (by decide)).cons (((skips_ws h₃).trans (ih fun h => absurd rfl h)).trans (skips_ws h₄)))
  | members h₁ hk h₂ h₃ hv h₄ hx ihv ihx =>
    obtain ⟨n, rfl⟩ := Nat.exists_eq_succ_of_ne_zero (Nat.ne_of_gt (hp (by decide)))
    exact ((((skips_ws h₁).trans (skips_quoted (skips_chars hk))).trans (skips_ws h₂)).trans
      ((skips_inert (by decide)).cons (((skips_ws h₃).trans (ihv fun h => absurd rfl h)).trans
        (skips_ws h₄)))).trans (skips_comma.cons (ihx fun _ => n.succ_pos))

end

/-! The items. -/

/-- An item that the scan finds as it is: not empty, without blank at its ends. -/
structure Solid (x : Bytes) : Prop where
  skips : Skips .out 0 x .out 0
  ne_nil : x ≠ []
  head : x.head? ≠ some blank
  last : x.getLast? ≠ some blank

/-- A string of C without quote nor backslash. -/
def Plain (s : Bytes) : Prop := ∀ b ∈ s, b ≠ quote ∧ b ≠ backslash ∧ b ≠ 0

def quoted (s : Bytes) : Bytes := quote :: (s ++ [quote])

theorem solid_text {x : Bytes} (h : Text x) : Solid x :=
  ⟨skips_derives h fun h => absurd rfl h, h.ends.1, h.ends.2.1, h.ends.2.2⟩

theorem solid_quoted {s : Bytes} (h : Plain s) : Solid (quoted s) := by
  have hskips : Skips .str 0 s .str 0 := by
    induction s with
    | nil => exact .nil
    | cons b s ih =>
      rw [Plain, List.forall_mem_cons] at h
      exact (skips_plain h.1.1 h.1.2.1 h.1.2.2).cons (ih h.2)
  have hlast : (quoted s).getLast? = some quote := by
    rw [quoted, ← List.cons_append]
    exact List.getLast?_concat
  refine ⟨skips_quoted hskips, List.cons_ne_nil _ _, ?_, ?_⟩
  · exact fun h => absurd (Option.some.inj h) (by decide)
  · rw [hlast]
    exact fun h => absurd (Option.some.inj h) (by decide)

theorem solid_code (i1 : Code) : Solid (codeText i1) := by
  have hinert : ∀ b ∈ codeText i1, Inert b := by
    rw [codeText, List.forall_mem_singleton]
    cases i1 <;> decide
  refine ⟨skips_inerts hinert, List.cons_ne_nil _ _, ?_, ?_⟩ <;> cases i1 <;> decide

/-- Items separated by commas, and the bracket after them. -/
def joined : List Bytes → Bytes
  | [] => [rbracket]
  | [x] => x ++ [rbracket]
  | x :: y :: items => x ++ comma :: joined (y :: items)

/-- Where they are. -/
def layout : Nat → List Bytes → List (Nat × Nat)
  | _, [] => []
  | pos, x :: items => (pos, x.length) :: layout (pos + x.length + 1) items

section
variable {x y p rest : Bytes}

private theorem itemSize_solid {sep : UInt8} (h : Solid x) (hsep : sep = comma ∨ sep = rbracket) :
    itemSize .out 0 (x ++ sep :: rest) = some x.length := by
  rw [h.skips, itemSize_out, if_pos ⟨rfl, hsep⟩, Option.map_some, Nat.zero_add]

private theorem trimmed_solid (h : Solid x) : trimmed x = x.length := by
  obtain ⟨y, b, rfl⟩ : ∃ y b, x = y ++ [b] := ⟨_, _, (List.dropLast_append_getLast h.ne_nil).symm⟩
  have hb : b ≠ blank := fun hb => h.last (by rw [hb, List.getLast?_concat])
  simp [trimmed, hb]

private theorem skipBlanks_solid (h : Solid x) : skipBlanks (p ++ (x ++ rest)) p.length = p.length := by
  obtain ⟨b, y, rfl⟩ := List.exists_cons_of_ne_nil h.ne_nil
  have hb : b ≠ blank := fun hb => h.head (by rw [hb]; rfl)
  simp [skipBlanks, hb]

private theorem joined_cons (x : Bytes) (items : List Bytes) : ∃ rest, joined (x :: items) = x ++ rest := by
  cases items with
  | nil => exact ⟨_, rfl⟩
  | cons z items => exact ⟨_, rfl⟩

private theorem charAt_append (c : UInt8) : charAt (p ++ c :: rest) p.length = c := by
  simp [charAt]

private theorem solid_head (h : Solid x) : charAt (p ++ (x ++ rest)) p.length ≠ rbracket := by
  have hsize : itemSize .out 0 (x ++ [comma]) = some x.length := itemSize_solid h (.inl rfl)
  obtain ⟨b, y, rfl⟩ := List.exists_cons_of_ne_nil h.ne_nil
  rw [List.cons_append, charAt_append]
  rintro rfl
  rw [List.cons_append, itemSize_out, if_pos ⟨rfl, .inr rfl⟩] at hsize
  exact nomatch hsize

private theorem scanItems_joined {items : List Bytes} {n : Nat} (hne : items ≠ []) (hn : items.length ≤ n)
    (hsolid : ∀ x ∈ items, Solid x) : scanItems (p ++ joined items) n p.length =
      some (layout p.length items, (p ++ joined items).length - 1) := by
  induction items generalizing p n with
  | nil => exact absurd rfl hne
  | cons x items ih =>
    obtain ⟨n, rfl⟩ := Nat.exists_eq_succ_of_ne_zero (Nat.ne_of_gt (Nat.lt_of_lt_of_le items.length.succ_pos hn))
    rw [List.forall_mem_cons] at hsolid
    have hx := hsolid.1
    rw [scanItems, List.drop_left]
    cases items with
    | nil =>
      rw [joined, itemSize_solid hx (.inr rfl), Option.bind_some]
      dsimp only
      rw [List.take_left, trimmed_solid hx, ← List.append_assoc, ← List.length_append, charAt_append,
        if_pos rfl]
      simp [layout]
    | cons y items =>
      rw [joined, itemSize_solid hx (.inl rfl), Option.bind_some]
      dsimp only
      have hcomma : charAt (p ++ (x ++ comma :: joined (y :: items))) (p.length + x.length) = comma := by
        rw [← List.append_assoc, ← List.length_append, charAt_append]
      have htext : p ++ (x ++ comma :: joined (y :: items)) =
          (p ++ x ++ [comma]) ++ joined (y :: items) := by simp
      have hpos : p.length + x.length + 1 = (p ++ x ++ [comma]).length := by
        simp only [List.length_append, List.length_singleton]
      rw [List.take_left, trimmed_solid hx, hcomma, if_neg (by decide), htext, hpos]
      obtain ⟨rest, hrest⟩ := joined_cons y items
      have hskip : skipBlanks (p ++ x ++ [comma] ++ joined (y :: items)) (p ++ x ++ [comma]).length =
          (p ++ x ++ [comma]).length := by
        rw [hrest]
        exact skipBlanks_solid (hsolid.2 y List.mem_cons_self)
      have hlayout : layout p.length (x :: y :: items) =
          (p.length, x.length) :: layout (p ++ x ++ [comma]).length (y :: items) := by
        rw [← hpos]
        rfl
      rw [hskip, ih (List.cons_ne_nil _ _) (by simpa using hn) hsolid.2, hlayout]
      rfl

/-- A list of items is scanned as they are. -/
theorem wsj1MsgScan_joined {items : List Bytes} (hne : items ≠ []) (hn : items.length ≤ 10)
    (hsolid : ∀ x ∈ items, Solid x) : wsj1MsgScan (lbracket :: joined items) = some (layout 1 items) := by
  obtain ⟨x, items', rfl⟩ := List.exists_cons_of_ne_nil hne
  have hx := hsolid x List.mem_cons_self
  obtain ⟨rest, hrest⟩ := joined_cons x items'
  have hstart : skipBlanks (lbracket :: joined (x :: items')) 0 = 0 := by
    simp [skipBlanks, show lbracket ≠ blank by decide]
  have hfirst : skipBlanks (lbracket :: joined (x :: items')) (0 + 1) = 1 := by
    rw [hrest]
    exact skipBlanks_solid (p := [lbracket]) hx
  have hopen : charAt (lbracket :: joined (x :: items')) 1 ≠ rbracket := by
    rw [hrest]
    exact solid_head (p := [lbracket]) hx
  have hend : charAt (lbracket :: joined (x :: items')) (skipBlanks (lbracket :: joined (x :: items'))
      ((lbracket :: joined (x :: items')).length - 1 + 1)) = 0 := by
    rw [Nat.sub_add_cancel (List.length_pos_iff.mpr (List.cons_ne_nil _ _))]
    simp [skipBlanks, charAt]
  have hitems := scanItems_joined (p := [lbracket]) hne hn hsolid
  rw [List.singleton_append, List.length_singleton] at hitems
  rw [wsj1MsgScan]
  dsimp only
  rw [hstart, if_neg (not_not.mpr (show charAt _ 0 = lbracket from rfl)), hfirst, if_pos hopen, hitems, Option.bind_some, if_neg (not_not.mpr hend)]

end

end AfbBinder.Wsj1
