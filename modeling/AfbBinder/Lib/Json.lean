import AfbBinder.Lib.Cstrings

/-! The grammar of the texts of JSON, over bytes. -/
namespace AfbBinder.Lib.Json
open Cstrings

/-- The bytes of a text of ASCII. -/
def ascii (s : String) : Bytes := s.toList.map fun c => UInt8.ofNat c.toNat

/-- A number as printf writes it. -/
def decimal (n : Nat) : Bytes := (Nat.toDigits 10 n).map fun c => UInt8.ofNat c.toNat

abbrev blank : UInt8 := 0x20
abbrev quote : UInt8 := 0x22
abbrev comma : UInt8 := 0x2C
abbrev slash : UInt8 := 0x2F
abbrev colon : UInt8 := 0x3A
abbrev lbracket : UInt8 := 0x5B
abbrev backslash : UInt8 := 0x5C
abbrev rbracket : UInt8 := 0x5D
abbrev lbrace : UInt8 := 0x7B
abbrev rbrace : UInt8 := 0x7D

/-- Blanks, tabulations and ends of line. -/
def Ws (x : Bytes) : Prop := ∀ b ∈ x, b = blank ∨ b = 0x09 ∨ b = 0x0A ∨ b = 0x0D

def Digit (b : UInt8) : Prop := 0x30 ≤ b ∧ b ≤ 0x39

def HexDigit (b : UInt8) : Prop := Digit b ∨ (0x41 ≤ b ∧ b ≤ 0x46) ∨ (0x61 ≤ b ∧ b ≤ 0x66)

def Digits (x : Bytes) : Prop := x ≠ [] ∧ ∀ b ∈ x, Digit b

/-- A number: its sign, its integer without leading zero, its fraction, its exponent. -/
structure Number (x : Bytes) : Prop where
  parts : ∃ sign int frac exp, x = sign ++ int ++ frac ++ exp ∧ (sign = [] ∨ sign = ascii "-") ∧
    Digits int ∧ (int.head? = some 0x30 → int = [0x30]) ∧
    (frac = [] ∨ ∃ d, frac = ascii "." ++ d ∧ Digits d) ∧
    (exp = [] ∨ ∃ e s d, exp = e :: (s ++ d) ∧ (e = 0x45 ∨ e = 0x65) ∧
      (s = [] ∨ s = ascii "+" ∨ s = ascii "-") ∧ Digits d)

/-- What is between the quotes of a string. -/
inductive Chars : Bytes → Prop
  | nil : Chars []
  | plain {b : UInt8} {x : Bytes} (h : 0x20 ≤ b) (hq : b ≠ quote) (hb : b ≠ backslash) :
    Chars x → Chars (b :: x)
  | escape {b : UInt8} {x : Bytes} (h : b ∈ ascii "\"\\/bfnrt") : Chars x → Chars (backslash :: b :: x)
  | unicode {a b c d : UInt8} {x : Bytes} (ha : HexDigit a) (hb : HexDigit b) (hc : HexDigit c)
    (hd : HexDigit d) : Chars x → Chars (backslash :: 0x75 :: a :: b :: c :: d :: x)

/-- The parts of the grammar: a value, what is between brackets, what is between braces. -/
inductive Part where
  | value
  | elements
  | members
  deriving DecidableEq, Repr

inductive Derives : Part → Bytes → Prop
  | literal {x : Bytes} (h : x = ascii "true" ∨ x = ascii "false" ∨ x = ascii "null") : Derives .value x
  | number {x : Bytes} (h : Number x) : Derives .value x
  | string {x : Bytes} (h : Chars x) : Derives .value (quote :: (x ++ [quote]))
  | noElement {w : Bytes} (h : Ws w) : Derives .value (lbracket :: (w ++ [rbracket]))
  | array {x : Bytes} (h : Derives .elements x) : Derives .value (lbracket :: (x ++ [rbracket]))
  | noMember {w : Bytes} (h : Ws w) : Derives .value (lbrace :: (w ++ [rbrace]))
  | object {x : Bytes} (h : Derives .members x) : Derives .value (lbrace :: (x ++ [rbrace]))
  | element {v w w' : Bytes} (hw : Ws w) (hv : Derives .value v) (hw' : Ws w') :
    Derives .elements (w ++ v ++ w')
  | elements {v w w' x : Bytes} (hw : Ws w) (hv : Derives .value v) (hw' : Ws w')
    (hx : Derives .elements x) : Derives .elements (w ++ v ++ w' ++ comma :: x)
  | member {k v w₁ w₂ w₃ w₄ : Bytes} (h₁ : Ws w₁) (hk : Chars k) (h₂ : Ws w₂) (h₃ : Ws w₃)
    (hv : Derives .value v) (h₄ : Ws w₄) :
    Derives .members (w₁ ++ quote :: (k ++ [quote]) ++ w₂ ++ colon :: (w₃ ++ v ++ w₄))
  | members {k v w₁ w₂ w₃ w₄ x : Bytes} (h₁ : Ws w₁) (hk : Chars k) (h₂ : Ws w₂) (h₃ : Ws w₃)
    (hv : Derives .value v) (h₄ : Ws w₄) (hx : Derives .members x) :
    Derives .members (w₁ ++ quote :: (k ++ [quote]) ++ w₂ ++ colon :: (w₃ ++ v ++ w₄) ++ comma :: x)

/-- A text without blank at its ends. -/
def Text (x : Bytes) : Prop := Derives .value x

/-- A byte that neither groups, separates, quotes nor ends. -/
def Inert (b : UInt8) : Prop :=
  b ≠ comma ∧ b ≠ lbracket ∧ b ≠ rbracket ∧ b ≠ lbrace ∧ b ≠ rbrace ∧ b ≠ quote ∧ b ≠ 0

instance (b : UInt8) : Decidable (Inert b) := inferInstanceAs (Decidable (_ ∧ _))

section
variable {x : Bytes} {b : UInt8}

theorem inert_of_ws (h : Ws x) (hb : b ∈ x) : Inert b := by
  rcases h b hb with rfl | rfl | rfl | rfl <;> decide

private theorem ne_of_digit {c : UInt8} (h : Digit b) (hc : c.toNat < 48 ∨ 57 < c.toNat) : b ≠ c := by
  rintro rfl
  have hlow : 48 ≤ b.toNat := UInt8.le_iff_toNat_le.mp h.1
  have hhigh : b.toNat ≤ 57 := UInt8.le_iff_toNat_le.mp h.2
  omega

private theorem inert_of_digit (h : Digit b) : Inert b ∧ b ≠ blank := by
  refine ⟨⟨?_, ?_, ?_, ?_, ?_, ?_, ?_⟩, ?_⟩ <;> exact ne_of_digit h (by decide)

private theorem inert_of_all (h : x.all fun b => Inert b ∧ b ≠ blank) (hb : b ∈ x) : Inert b ∧ b ≠ blank := by
  rw [List.all_eq_true] at h
  exact of_decide_eq_true (h b hb)

private theorem inert_sign (hb : b ∈ ascii "+-.eE") : Inert b ∧ b ≠ blank := inert_of_all (by decide) hb

theorem inert_of_number (h : Number x) (hb : b ∈ x) : Inert b ∧ b ≠ blank := by
  obtain ⟨sign, int, frac, exp, rfl, hsign, hint, -, hfrac, hexp⟩ := h.parts
  simp only [List.mem_append] at hb
  rcases hb with ((hb | hb) | hb) | hb
  · rcases hsign with rfl | rfl
    · cases hb
    · exact inert_sign (by rw [List.mem_singleton.mp hb]; decide)
  · exact inert_of_digit (hint.2 b hb)
  · rcases hfrac with rfl | ⟨d, rfl, hd⟩
    · cases hb
    · rcases List.mem_append.mp hb with hb | hb
      · exact inert_sign (by rw [List.mem_singleton.mp hb]; decide)
      · exact inert_of_digit (hd.2 b hb)
  · rcases hexp with rfl | ⟨e, s, d, rfl, he, hs, hd⟩
    · cases hb
    · rcases List.mem_cons.mp hb with rfl | hb
      · rcases he with rfl | rfl <;> exact inert_sign (by decide)
      · rcases List.mem_append.mp hb with hb | hb
        · rcases hs with rfl | rfl | rfl
          · cases hb
          · exact inert_sign (by rw [List.mem_singleton.mp hb]; decide)
          · exact inert_sign (by rw [List.mem_singleton.mp hb]; decide)
        · exact inert_of_digit (hd.2 b hb)

theorem inert_of_literal (h : x = ascii "true" ∨ x = ascii "false" ∨ x = ascii "null") (hb : b ∈ x) :
    Inert b ∧ b ≠ blank := by
  rcases h with rfl | rfl | rfl <;> exact inert_of_all (by decide) hb

/-! The texts have no NUL, nor a blank at an end. -/

private theorem ne_nul_of_hex (h : HexDigit b) : b ≠ 0 := by
  rintro rfl
  unfold HexDigit Digit at h
  exact absurd h (by decide)

private theorem Chars.noNul (h : Chars x) : 0 ∉ x := by
  induction h with
  | nil => exact List.not_mem_nil
  | plain h _ _ _ ih =>
    refine List.not_mem_cons_of_ne_of_not_mem ?_ ih
    rintro rfl
    exact absurd h (by decide)
  | escape h _ ih =>
    simp only [List.mem_cons, not_or]
    refine ⟨by decide, ?_, ih⟩
    rintro rfl
    exact absurd h (by decide)
  | unicode ha hb hc hd _ ih =>
    simp only [List.mem_cons, not_or]
    exact ⟨by decide, by decide, (ne_nul_of_hex ha).symm, (ne_nul_of_hex hb).symm, (ne_nul_of_hex hc).symm,
      (ne_nul_of_hex hd).symm, ih⟩

private theorem Ws.noNul (h : Ws x) : 0 ∉ x := fun hb => (inert_of_ws h hb).2.2.2.2.2.2 rfl

private theorem marks_ne_nul : (0 : UInt8) ≠ quote ∧ (0 : UInt8) ≠ comma ∧ (0 : UInt8) ≠ colon ∧
    (0 : UInt8) ≠ lbracket ∧ (0 : UInt8) ≠ rbracket ∧ (0 : UInt8) ≠ lbrace ∧ (0 : UInt8) ≠ rbrace := by
  decide

theorem Derives.noNul {p : Part} (h : Derives p x) : 0 ∉ x := by
  induction h with
  | literal h => exact fun hb => (inert_of_literal h hb).1.2.2.2.2.2.2 rfl
  | number h => exact fun hb => (inert_of_number h hb).1.2.2.2.2.2.2 rfl
  | string h => simp [marks_ne_nul, h.noNul]
  | noElement h => simp [marks_ne_nul, h.noNul]
  | array h ih => simp [marks_ne_nul, ih]
  | noMember h => simp [marks_ne_nul, h.noNul]
  | object h ih => simp [marks_ne_nul, ih]
  | element hw hv hw' ih => simp [hw.noNul, ih, hw'.noNul]
  | elements hw hv hw' hx ihv ihx => simp [marks_ne_nul, hw.noNul, ihv, hw'.noNul, ihx]
  | member h₁ hk h₂ h₃ hv h₄ ih => simp [marks_ne_nul, h₁.noNul, hk.noNul, h₂.noNul, h₃.noNul, ih, h₄.noNul]
  | members h₁ hk h₂ h₃ hv h₄ hx ihv ihx =>
    simp [marks_ne_nul, h₁.noNul, hk.noNul, h₂.noNul, h₃.noNul, ihv, h₄.noNul, ihx]

private theorem enclosed_ends {a c : UInt8} (ha : a ≠ blank) (hc : c ≠ blank) (y : Bytes) :
    a :: (y ++ [c]) ≠ [] ∧ (a :: (y ++ [c])).head? ≠ some blank ∧ (a :: (y ++ [c])).getLast? ≠ some blank := by
  have hlast : (a :: (y ++ [c])).getLast? = some c := by
    rw [← List.cons_append]
    exact List.getLast?_concat
  refine ⟨List.cons_ne_nil _ _, fun h => ha (Option.some.inj h), fun h => hc ?_⟩
  rw [hlast] at h
  exact Option.some.inj h

private theorem ends_of_all (h : ∀ b ∈ x, b ≠ blank) :
    x.head? ≠ some blank ∧ x.getLast? ≠ some blank :=
  ⟨fun hb => h blank (List.mem_of_mem_head? hb) rfl, fun hb => h blank (List.mem_of_getLast? hb) rfl⟩

theorem Text.ends (h : Text x) : x ≠ [] ∧ x.head? ≠ some blank ∧ x.getLast? ≠ some blank := by
  unfold Text at h
  cases h with
  | literal h =>
    have hne : x ≠ [] := by rcases h with rfl | rfl | rfl <;> decide
    exact ⟨hne, ends_of_all fun b hb => (inert_of_literal h hb).2⟩
  | number h =>
    have hne : x ≠ [] := by
      obtain ⟨sign, int, frac, exp, rfl, -, hint, -⟩ := h.parts
      simp [hint.1]
    exact ⟨hne, ends_of_all fun b hb => (inert_of_number h hb).2⟩
  | string h => exact enclosed_ends (by decide) (by decide) _
  | noElement h => exact enclosed_ends (by decide) (by decide) _
  | array h => exact enclosed_ends (by decide) (by decide) _
  | noMember h => exact enclosed_ends (by decide) (by decide) _
  | object h => exact enclosed_ends (by decide) (by decide) _

end

/-! Numbers and strings that are written. -/

private theorem toNat_digit {n : Nat} {c : Char} (h : c ∈ Nat.toDigits 10 n) : 48 ≤ c.toNat ∧ c.toNat ≤ 57 := by
  have hdigit := Nat.isDigit_of_mem_toDigits (by decide) (by decide) h
  simp only [Char.isDigit, Bool.and_eq_true, decide_eq_true_eq] at hdigit
  exact ⟨UInt32.le_iff_toNat_le.mp hdigit.1, UInt32.le_iff_toNat_le.mp hdigit.2⟩

theorem digit_of_mem_decimal {n : Nat} {b : UInt8} (h : b ∈ decimal n) : Digit b := by
  obtain ⟨c, hc, rfl⟩ := List.mem_map.mp h
  have hdigit := toNat_digit hc
  rw [Digit, UInt8.le_iff_toNat_le, UInt8.le_iff_toNat_le, UInt8.toNat_ofNat', Nat.mod_eq_of_lt (by omega)]
  exact hdigit

theorem decimal_injective : Function.Injective decimal := by
  have hchars (n : Nat) : (decimal n).map (fun b => Char.ofNat b.toNat) = Nat.toDigits 10 n := by
    rw [decimal, List.map_map]
    refine (List.map_congr_left fun c hc => ?_).trans (List.map_id _)
    have hdigit := toNat_digit hc
    rw [Function.comp_apply, UInt8.toNat_ofNat', Nat.mod_eq_of_lt (by omega), Char.ofNat_toNat, id]
  intro m n h
  rw [← Nat.ofDigitChars_ten_toDigits (n := m), ← hchars m, h, hchars n, Nat.ofDigitChars_ten_toDigits]

theorem chars_of_all {x : Bytes} (h : x.all fun b => 0x20 ≤ b ∧ b ≠ quote ∧ b ≠ backslash) : Chars x := by
  induction x with
  | nil => exact .nil
  | cons b x ih =>
    rw [List.all_cons, Bool.and_eq_true, decide_eq_true_eq] at h
    exact .plain h.1.1 h.1.2.1 h.1.2.2 (ih h.2)

end AfbBinder.Lib.Json
