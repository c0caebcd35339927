import Mathlib.Data.List.DropRight
import Mathlib.Data.List.Induction
import AfbBinder.Lib.Words
import AfbBinder.WsClient.Lines

/-! The headers of a response, as they are sent and as receive_response reads them. -/
namespace AfbBinder.WsClient
open Lib.Cstrings Lib.CrLf Lib.Words
open Lib.Json (ascii)

/-! The headers as they are sent. -/

/-- The line is a header of this name, that its case does not change. -/
def Headed (key line : Bytes) : Prop :=
  colon ∈ line ∧ (line.takeWhile (· ≠ colon)).map tolower = key.map tolower

instance (key line : Bytes) : Decidable (Headed key line) := inferInstanceAs (Decidable (_ ∧ _))

/-- Blanks and tabs. -/
def isOuter (c : UInt8) : Bool := c = blank ∨ c = 9

/-- All that follows the colon, without the blanks around it. -/
def headerText (line : Bytes) : Bytes :=
  (((line.dropWhile (· ≠ colon)).drop 1).dropWhile isOuter).rdropWhile isOuter

def textsOf (key : Bytes) (lines : List Bytes) : List Bytes := (lines.filter (Headed key)).map headerText

/-- The protocols that the headers name. -/
def namedProtocols (lines : List Bytes) : List Bytes :=
  (textsOf secWebSocketProtocol lines).flatMap (words fun c => isOuter c || c = comma)

/-- The length of the body that the last header Content-Length tells. -/
def bodyLength (lines : List Bytes) : Int := ((textsOf contentLengthName lines).getLast?.map atol).getD 0

/-! The headers as receive_response reads them. -/

/-- The line gives a value to the header of this name. -/
def named (key str : Bytes) : Bool := hasHeader str && isheader str (nameLength str) key

/-- The values that the lines give to the header of this name, in order: their first words. -/
def valuesOf (key : Bytes) (lines : List Bytes) : List Bytes :=
  (lines.filter fun line => named key (cString line)).map fun line => value (cString line)

/-- The length that is read in the last header Content-Length. -/
def contentLength (lines : List Bytes) : Int := ((valuesOf contentLengthName lines).getLast?.map atol).getD 0

section
variable {key key' str line ack : Bytes} {lines protocols : List Bytes} {v : Vars}

private theorem isheader_lower {klen : Nat} (h : isheader str klen key = true) (hkey : 0 ∉ key) :
    (str.take klen).map tolower = key.map tolower := by
  obtain ⟨heq, hend⟩ := of_decide_eq_true h
  have hlower := strcasecmp_eq.mp heq
  have hle : key.length ≤ klen := by
    by_contra hlt
    have hlt := Nat.not_le.mp hlt
    rw [List.getD_eq_getElem?_getD, List.getElem?_eq_getElem hlt, Option.getD_some] at hend
    exact hkey (hend ▸ List.getElem_mem hlt)
  rwa [List.take_of_length_le hle] at hlower

private theorem isheader_unique {klen : Nat} (h : isheader str klen key = true)
    (hne : key.map tolower ≠ key'.map tolower)
    (hkey : 0 ∉ key) (hkey' : 0 ∉ key') : isheader str klen key' = false := by
  refine Bool.eq_false_iff.mpr fun h' => hne ?_
  rw [← isheader_lower h hkey, ← isheader_lower h' hkey']

/-- The name of a header. -/
def Name (key : Bytes) : Prop := key ≠ [] ∧ ∀ b ∈ key, b ≠ 0 ∧ b ≠ colon ∧ b ≠ blank

instance (key : Bytes) : Decidable (Name key) := @instDecidableAnd _ _ inferInstance (List.decidableBAll _ key)

/-- What is taken stops at the first element that is not. -/
theorem takeWhile_word {α : Type} {p : α → Bool} {word rest : List α} {c : α} (hword : ∀ b ∈ word, p b = true)
    (hc : p c = false) : (word ++ c :: rest).takeWhile p = word := by
  rw [List.takeWhile_append_of_pos hword, List.takeWhile_cons_of_neg (by simp [hc]), List.append_nil]

/-- A name that differs by its case only is a name. -/
theorem Name.of_lower {name : Bytes} (hkey : Name key) (h : name.map tolower = key.map tolower) : Name name := by
  refine ⟨?_, fun b hb => ?_⟩
  · rintro rfl
    exact hkey.1 (List.map_eq_nil_iff.mp h.symm)
  · obtain ⟨c, hc, hbc⟩ := List.mem_map.mp (h ▸ List.mem_map_of_mem hb)
    refine ⟨?_, ?_, ?_⟩
    · rintro rfl
      exact (hkey.2 c hc).1 ((tolower_eq_iff (by decide)).mp hbc)
    · rintro rfl
      exact (hkey.2 c hc).2.1 ((tolower_eq_iff (by decide)).mp hbc)
    · rintro rfl
      exact (hkey.2 c hc).2.2 ((tolower_eq_iff (by decide)).mp hbc)

/-- A line with a name before a colon, as the code reads it. -/
theorem name_facts {name : Bytes} (hname : Name name) (rest : Bytes) :
    cString (name ++ colon :: rest) = name ++ colon :: cString rest ∧
      nameLength (name ++ colon :: rest) = name.length ∧ hasHeader (name ++ colon :: rest) = true := by
  have hlength : nameLength (name ++ colon :: rest) = name.length := by
    rw [nameLength, takeWhile_word (fun b hb => ?_) (by decide)]
    simpa using (hname.2 b hb).2
  refine ⟨?_, hlength, ?_⟩
  · rw [cString, List.takeWhile_append_of_pos fun b hb => by simpa using (hname.2 b hb).1,
      List.takeWhile_cons_of_pos (by decide)]
    rfl
  · rw [hasHeader, hlength, List.getElem?_append_right (Nat.le_refl _), Nat.sub_self]
    simpa using hname.1

/-- The code finds the headers of a name. -/
theorem named_iff (hkey : Name key) : named key (cString line) = true ↔ Headed key line := by
  constructor
  · intro h
    obtain ⟨hhas, his⟩ := Bool.and_eq_true_iff.mp h
    obtain ⟨-, hcolon⟩ := of_decide_eq_true hhas
    have hlower := isheader_lower his fun h0 => (hkey.2 0 h0).1 rfl
    -- the name ends at the colon, which the string of the line has
    have hsplit : cString line = (cString line).take (nameLength (cString line)) ++ colon ::
        (cString line).drop (nameLength (cString line) + 1) := by
      obtain ⟨hlt, hget⟩ := List.getElem?_eq_some_iff.mp hcolon
      conv_lhs => rw [← List.take_append_drop (nameLength (cString line)) (cString line)]
      rw [List.drop_eq_getElem_cons hlt, hget]
    have hline : line = (cString line).take (nameLength (cString line)) ++ colon ::
        ((cString line).drop (nameLength (cString line) + 1) ++ line.dropWhile (· ≠ 0)) := by
      rw [← List.cons_append, ← List.append_assoc, ← hsplit]
      exact List.takeWhile_append_dropWhile.symm
    have hname := hkey.of_lower hlower
    constructor
    · rw [hline]
      simp
    · have htake : line.takeWhile (· ≠ colon) = (cString line).take (nameLength (cString line)) := by
        conv_lhs => rw [hline]
        exact takeWhile_word (fun b hb => by simpa using (hname.2 b hb).2.1) (by decide)
      rw [htake, hlower]
  · rintro ⟨hcolon, hlower⟩
    have hname := hkey.of_lower hlower
    obtain ⟨rest, hline⟩ : ∃ rest, line = line.takeWhile (· ≠ colon) ++ colon :: rest := by
      cases hdrop : line.dropWhile (· ≠ colon) with
      | nil =>
        have hall := List.dropWhile_eq_nil_iff.mp hdrop colon hcolon
        simp at hall
      | cons c rest =>
        have hc : c = colon := by simpa using stop_of_dropWhile hdrop
        subst hc
        refine ⟨rest, ?_⟩
        rw [← hdrop, List.takeWhile_append_dropWhile]
    obtain ⟨hstring, -, -⟩ := name_facts hname rest
    obtain ⟨-, hlength, hhas⟩ := name_facts hname (cString rest)
    rw [hline, hstring, named, hhas, Bool.true_and, hlength, isheader, List.take_left' rfl]
    have hlen : (line.takeWhile (· ≠ colon)).length = key.length := by
      simpa using congrArg List.length hlower
    rw [hlen, List.take_length]
    refine decide_eq_true ⟨strcasecmp_eq.mpr hlower, ?_⟩
    rw [List.getD_eq_getElem?_getD, List.getElem?_eq_none (Nat.le_refl _)]
    rfl

private theorem valuesOf_concat : valuesOf key (lines ++ [line]) =
    valuesOf key lines ++ if named key (cString line) then [value (cString line)] else [] := by
  unfold valuesOf
  rw [List.filter_append, List.map_append]
  cases h : named key (cString line) <;> simp [h]

private theorem getLast?_valuesOf_concat : (valuesOf key (lines ++ [line])).getLast? =
    if named key (cString line) then some (value (cString line)) else (valuesOf key lines).getLast? := by
  rw [valuesOf_concat]
  split
  · rw [List.getLast?_concat]
  · rw [List.append_nil]

/-- What the scan of a line does to each variable. -/
theorem scan_eq (v : Vars) : v.scan protocols ack str =
    ⟨v.haserr || named secWebSocketAccept str && value str != ack ||
        named upgrade str && value str != ascii "websocket",
      if named secWebSocketProtocol str then some (protocols.idxOf (value str)) else v.result,
      nameLength str,
      if named contentLengthName str then toSize (atol (value str)) else v.clen⟩ := by
  unfold Vars.scan named
  dsimp only
  cases hhas : hasHeader str with
  | false => simp
  | true =>
    rw [if_pos rfl]
    simp only [Bool.true_and]
    by_cases haccept : isheader str (nameLength str) secWebSocketAccept = true
    · have hprotocol : isheader str (nameLength str) secWebSocketProtocol = false :=
        isheader_unique haccept (by decide) (by decide) (by decide)
      have hupgrade : isheader str (nameLength str) upgrade = false :=
        isheader_unique haccept (by decide) (by decide) (by decide)
      have hlength : isheader str (nameLength str) contentLengthName = false :=
        isheader_unique haccept (by decide) (by decide) (by decide)
      by_cases hvalue : value str = ack <;> simp [haccept, hprotocol, hupgrade, hlength, hvalue]
    by_cases hprotocol : isheader str (nameLength str) secWebSocketProtocol = true
    · have hupgrade : isheader str (nameLength str) upgrade = false :=
        isheader_unique hprotocol (by decide) (by decide) (by decide)
      have hlength : isheader str (nameLength str) contentLengthName = false :=
        isheader_unique hprotocol (by decide) (by decide) (by decide)
      simp [haccept, hprotocol, hupgrade, hlength]
    by_cases hupgrade : isheader str (nameLength str) upgrade = true
    · have hlength : isheader str (nameLength str) contentLengthName = false :=
        isheader_unique hupgrade (by decide) (by decide) (by decide)
      by_cases hvalue : value str = ascii "websocket" <;> simp [haccept, hprotocol, hupgrade, hlength, hvalue]
    by_cases hlength : isheader str (nameLength str) contentLengthName = true <;>
      simp [haccept, hprotocol, hupgrade, hlength]

end

/-! What the scan of all of the lines leaves. -/

section
variable {key ack : Bytes} {lines protocols : List Bytes} {v : Vars}

/-- The variables after these lines. -/
def scanned (protocols : List Bytes) (ack : Bytes) (v : Vars) (lines : List Bytes) : Vars :=
  lines.foldl (fun v line => v.scan protocols ack (cString line)) v

/-- All of the values of a header are this one. -/
def agree (key expected : Bytes) (lines : List Bytes) : Prop := ∀ s ∈ valuesOf key lines, s = expected

instance {expected : Bytes} : Decidable (agree key expected lines) :=
  inferInstanceAs (Decidable (∀ s ∈ valuesOf key lines, s = expected))

private theorem scanned_concat {line : Bytes} : scanned protocols ack v (lines ++ [line]) =
    (scanned protocols ack v lines).scan protocols ack (cString line) := List.foldl_concat _ _ _ _

private theorem agree_concat {expected line : Bytes} : agree key expected (lines ++ [line]) ↔
    agree key expected lines ∧ (named key (cString line) && value (cString line) != expected) = false := by
  unfold agree
  rw [valuesOf_concat, List.forall_mem_append]
  refine and_congr_right fun _ => ?_
  cases named key (cString line) <;> simp

theorem scanned_haserr : (scanned protocols ack v lines).haserr = false ↔
    v.haserr = false ∧ agree secWebSocketAccept ack lines ∧ agree upgrade (ascii "websocket") lines := by
  induction lines using List.reverseRecOn with
  | nil => exact ⟨fun h => ⟨h, nofun, nofun⟩, And.left⟩
  | append_singleton lines line ih =>
    rw [scanned_concat, scan_eq, agree_concat, agree_concat]
    dsimp only
    rw [Bool.or_eq_false_iff, Bool.or_eq_false_iff, ih]
    tauto

theorem scanned_result : (scanned protocols ack v lines).result =
    ((valuesOf secWebSocketProtocol lines).getLast?.map fun s => protocols.idxOf s).or v.result := by
  induction lines using List.reverseRecOn with
  | nil => rfl
  | append_singleton lines line ih =>
    rw [scanned_concat, scan_eq, getLast?_valuesOf_concat]
    dsimp only
    split
    · rfl
    · exact ih

theorem scanned_clen : (scanned protocols ack v lines).clen =
    ((valuesOf contentLengthName lines).getLast?.map fun s => toSize (atol s)).getD v.clen := by
  induction lines using List.reverseRecOn with
  | nil => rfl
  | append_singleton lines line ih =>
    rw [scanned_concat, scan_eq, getLast?_valuesOf_concat]
    dsimp only
    split
    · rfl
    · exact ih

theorem scanned_len : (scanned protocols ack v lines).len =
    (lines.getLast?.map fun line => nameLength (cString line)).getD v.len := by
  induction lines using List.reverseRecOn with
  | nil => rfl
  | append_singleton lines line _ =>
    rw [scanned_concat, scan_eq, List.getLast?_concat]
    rfl

end

end AfbBinder.WsClient
