import AfbBinder.Creds.Model
import AfbBinder.Lib.Json

/-! A credential reads back from its text, and what is read of a text that comes from a peer. -/
namespace AfbBinder.Creds
open Lib.Cstrings Lib.Scanf
open Lib.Json (decimal)

/-- What the creation sets, and keeps with the text once it is made. -/
structure Cred.Made (c : Cred) : Prop where
  user : c.user = userText c.uid
  id : c.id = idText c.label
  exported : ∀ text, c.exported = some text → text = exportText c.uid c.gid c.pid c.label

section
variable {uid gid : UInt32} {pid : Int32} {label text : Bytes} {c : Cred} {mem : Bool}

private theorem mkcred_made (h : mkcred uid gid pid label mem = some c) : c.Made := by
  unfold mkcred at h
  split_ifs at h
  obtain rfl := Option.some.inj h
  exact ⟨rfl, rfl, fun _ h => by cases h⟩

private theorem export_made (hc : c.Made) : (afbCredExport c mem).2.Made := by
  unfold afbCredExport
  cases he : c.exported with
  | some text => exact hc
  | none =>
    dsimp only
    split_ifs
    · refine ⟨hc.user, hc.id, fun text h => ?_⟩
      obtain rfl := Option.some.inj h
      rw [UInt32.toUInt32_toInt32, UInt32.toUInt32_toInt32]
    · exact hc

/-- The text that is given is recorded, so it is that of the fields. -/
theorem export_text (hc : c.Made) (h : (afbCredExport c mem).1 = some text) :
    text = exportText c.uid c.gid c.pid c.label := by
  have hmade : (afbCredExport c mem).2.Made := export_made hc
  unfold afbCredExport at h hmade
  cases he : c.exported with
  | some old =>
    rw [he] at h hmade
    exact hmade.exported text (he.trans h)
  | none =>
    rw [he] at h hmade
    dsimp only at h hmade
    split_ifs at h hmade
    exact hmade.exported text h

/-- A number before a mark that is no digit is read, and the mark after it. -/
theorem scan_number (lax : Bool) (format : List Directive) (n : Nat) (v : UInt32) (mark : UInt8)
    (hmark : isxdigit mark = false ∧ mark ≠ 88 ∧ mark ≠ 120) (rest : Bytes) :
    scan lax (.hex :: .literal mark :: format) n (hexText v.toNat ++ mark :: rest) =
      let r := scan lax format (n + (hexText v.toNat).length + 1) rest
      { r with values := v :: r.values } := by
  have hhead : ∀ c ∈ (mark :: rest).head?, isxdigit c = false ∧ c ≠ 88 ∧ c ≠ 120 := by
    intro c hc
    obtain rfl : mark = c := by simpa using hc
    exact hmark
  have hscan := scanHex_hexText lax v.toNat_lt_size hhead
  rw [UInt32.ofNat_toNat] at hscan
  rw [scan, hscan]
  dsimp only
  rw [scan, if_pos rfl, List.length_append, Nat.add_sub_cancel]

/-- Import gives back the credential of a text that export made. -/
theorem import_text (lax : Bool) (uid gid : UInt32) (pid : Int32) (label : Bytes) :
    afbCredImport lax (exportText uid gid pid label) true =
      .cred ⟨1, uid, gid, pid, userText uid, label, idText label, none⟩ := by
  have hcolon : isxdigit colon = false ∧ colon ≠ 88 ∧ colon ≠ 120 := by decide
  have hdash : isxdigit dash = false ∧ dash ≠ 88 ∧ dash ≠ 120 := by decide
  have hread : sscanf lax (exportText uid gid pid label) importFormat =
      ⟨[uid, gid, pid.toUInt32], [(hexText uid.toNat ++ colon :: (hexText gid.toNat ++ colon ::
        (hexText pid.toUInt32.toNat ++ [dash]))).length]⟩ := by
    rw [sscanf, importFormat, exportText, scan_number lax _ _ _ _ hcolon,
      scan_number lax _ _ _ _ hcolon, scan_number lax _ _ _ _ hdash]
    simp only [scan, List.length_append, List.length_cons, List.length_nil]
    congr 2
    omega
  have hlabel : exportText uid gid pid label = (hexText uid.toNat ++ colon :: (hexText gid.toNat ++
      colon :: (hexText pid.toUInt32.toNat ++ [dash]))) ++ label := by
    simp [exportText]
  unfold afbCredImport
  rw [hread]
  dsimp only
  rw [hlabel, List.drop_left, UInt32.toUInt32_toInt32, UInt32.toUInt32_toInt32,
    Int32.toInt32_toUInt32]
  rfl

end

/-- For every uid, gid, pid and label, and every credential made of them, with its text made or
not: when export gives a text, and it does for lengths that fit in an int, import gives back
from it all that the credential has, less the count of its references and the text. -/
theorem afbCredImport_afbCredExport (lax : Bool) (c : Cred) (hc : c.Made) :
    ((exportText c.uid c.gid c.pid c.label).length ≤ INT_MAX →
      ∃ text, (afbCredExport c true).1 = some text) ∧
    ∀ mem text, (afbCredExport c mem).1 = some text →
      afbCredImport lax text true = .cred { c with refcount := 1, exported := none } := by
  refine ⟨fun hlength => ?_, fun mem text h => ?_⟩
  · unfold afbCredExport
    cases he : c.exported with
    | some text => exact ⟨text, rfl⟩
    | none =>
      dsimp only
      rw [UInt32.toUInt32_toInt32, UInt32.toUInt32_toInt32, if_pos ⟨rfl, hlength⟩]
      exact ⟨_, rfl⟩
  · rw [export_text hc h, import_text, ← hc.user, ← hc.id]

/-- The greatest uid, and a label with the marks of the format and blanks. -/
theorem afbCredImport_afbCredExport_marks : ∃ text,
    (afbCredExport ⟨1, 4294967295, 0, -1, userText 4294967295, [45, 58, 32, 45], [32, 45], none⟩
      true).1 = some text ∧
    afbCredImport false text true =
      .cred ⟨1, 4294967295, 0, -1, userText 4294967295, [45, 58, 32, 45], [32, 45], none⟩ := by
  have hmkcred : mkcred 4294967295 0 (-1) [45, 58, 32, 45] true =
      some ⟨1, 4294967295, 0, -1, userText 4294967295, [45, 58, 32, 45], [32, 45], none⟩ := rfl
  have h := afbCredImport_afbCredExport false
    ⟨1, 4294967295, 0, -1, userText 4294967295, [45, 58, 32, 45], [32, 45], none⟩ (mkcred_made hmkcred)
  obtain ⟨text, htext⟩ := h.1 (by decide)
  exact ⟨text, htext, h.2 true text htext⟩

/-- What follows three hexadecimal numbers separated by colons, when the string has them. -/
def afterNumbers (lax : Bool) (string : Bytes) : Option Bytes :=
  (scanHex lax string).bind fun (_, s) => if s.head? = some colon then
    (scanHex lax s.tail).bind fun (_, s) => if s.head? = some colon then
      (scanHex lax s.tail).map Prod.snd else none
  else none

/-- What is expected of the import of a string: it fails, or the string has the form of the
texts of credentials and the label is what follows the dash. Nothing else is read. -/
structure ImportSafe (lax : Bool) (string : Bytes) (mem : Bool) : Prop where
  imported : afbCredImport lax string mem = .null EINVAL ∨
    ∃ t1 t2 t3 label, HexNumber lax t1 ∧ HexNumber lax t2 ∧ HexNumber lax t3 ∧
      string = t1 ++ colon :: (t2 ++ colon :: (t3 ++ dash :: label)) ∧
      (mem = false ∧ afbCredImport lax string mem = .null ENOMEM ∨
        ∃ c, afbCredImport lax string mem = .cred c ∧ c.label = label)
  mixed : ∀ cred permission, ∃ used,
    afbCredMixedOnBehalfImport lax cred (some string) permission mem = some used

section
variable {lax : Bool} {string : Bytes} {mem : Bool}

theorem scan_hex_literal (c : UInt8) (format : List Directive) (n : Nat) (s : Bytes) :
    scan lax (.hex :: .literal c :: format) n s =
      match scanHex lax s with
      | none => ⟨[], []⟩
      | some (v, rest) =>
        if rest.head? = some c then
          let r := scan lax format (n + (s.length - rest.length) + 1) rest.tail
          { r with values := v :: r.values }
        else ⟨[v], []⟩ := by
  rw [scan]
  cases scanHex lax s with
  | none => rfl
  | some x =>
    obtain ⟨v, rest⟩ := x
    cases rest with
    | nil => rfl
    | cons y rest =>
      by_cases hy : y = c
      · have hhead : (y :: rest).head? = some c := congrArg some hy
        dsimp only
        rw [scan, if_pos hy, if_pos hhead]
        rfl
      · have hhead : (y :: rest).head? ≠ some c := fun h => hy (Option.some.inj h)
        dsimp only
        rw [scan, if_neg hy, if_neg hhead]

/-- Without the three numbers fewer than three values are stored. -/
theorem sscanf_short (h : afterNumbers lax string = none) :
    (sscanf lax string importFormat).values.length < 3 := by
  unfold afterNumbers at h
  rw [sscanf, importFormat, scan_hex_literal]
  cases h1 : scanHex lax string with
  | none => exact Nat.zero_lt_succ _
  | some x1 =>
    rw [h1, Option.bind_some] at h
    dsimp only at h ⊢
    split_ifs at h ⊢ with hc1
    case neg => exact Nat.one_lt_succ_succ _
    rw [scan_hex_literal]
    cases h2 : scanHex lax x1.2.tail with
    | none => exact Nat.one_lt_succ_succ _
    | some x2 =>
      rw [h2, Option.bind_some] at h
      dsimp only at h ⊢
      split_ifs at h ⊢ with hc2
      case neg => exact Nat.lt_succ_self 2
      rw [Option.map_eq_none_iff] at h
      rw [scan_hex_literal, h]
      exact Nat.lt_succ_self 2

/-- The three numbers that are read, and the offset after the dash if there is one. -/
theorem sscanf_numbers {rest : Bytes} (h : afterNumbers lax string = some rest) :
    ∃ t1 t2 t3 uid gid pid, HexNumber lax t1 ∧ HexNumber lax t2 ∧ HexNumber lax t3 ∧
      string = t1 ++ colon :: (t2 ++ colon :: (t3 ++ rest)) ∧
      sscanf lax string importFormat = ⟨[uid, gid, pid], if rest.head? = some dash then
        [(t1 ++ colon :: (t2 ++ colon :: (t3 ++ [dash]))).length] else []⟩ := by
  unfold afterNumbers at h
  obtain ⟨⟨uid, r1⟩, h1, h⟩ := Option.bind_eq_some_iff.mp h
  dsimp only at h
  split_ifs at h with hc1
  obtain ⟨⟨gid, r2⟩, h2, h⟩ := Option.bind_eq_some_iff.mp h
  dsimp only at h
  split_ifs at h with hc2
  obtain ⟨⟨pid, r3⟩, h3, rfl⟩ := Option.map_eq_some_iff.mp h
  obtain ⟨t1, ht1, hs1⟩ := scanHex_sound h1
  obtain ⟨t2, ht2, hs2⟩ := scanHex_sound h2
  obtain ⟨t3, ht3, hs3⟩ := scanHex_sound h3
  have hr1 : r1 = colon :: r1.tail := (List.cons_head?_tail hc1).symm
  have hr2 : r2 = colon :: r2.tail := (List.cons_head?_tail hc2).symm
  refine ⟨t1, t2, t3, uid, gid, pid, ht1, ht2, ht3, ?_, ?_⟩
  · rw [← hs3, ← hr2, ← hs2, ← hr1, hs1]
  · rw [sscanf, importFormat, scan_hex_literal, h1]
    dsimp only
    rw [if_pos hc1, scan_hex_literal, h2]
    dsimp only
    rw [if_pos hc2, scan_hex_literal, h3]
    have hlength : ∀ {s t r : Bytes}, s = t ++ r → s.length - r.length = t.length := by
      intro s t r hs
      rw [hs, List.length_append, Nat.add_sub_cancel]
    dsimp only
    rw [hlength hs1, hlength hs2, hlength hs3]
    split_ifs with hdash
    · simp only [scan, List.length_append, List.length_cons, List.length_nil]
      congr 2
      omega
    · rfl

variable (mem) in
private theorem import_short (h : afterNumbers lax string = none) :
    afbCredImport lax string mem = .null EINVAL := by
  have hshort := sscanf_short h
  unfold afbCredImport
  dsimp only
  split
  · rename_i hvalues
    rw [hvalues] at hshort
    exact absurd hshort (by simp)
  · rfl

variable (mem) in
/-- The label of a credential is what follows the dash. -/
theorem import_label {t1 t2 t3 label : Bytes} {uid gid pid : UInt32}
    (hstring : string = t1 ++ colon :: (t2 ++ colon :: (t3 ++ dash :: label)))
    (hscan : sscanf lax string importFormat =
      ⟨[uid, gid, pid], [(t1 ++ colon :: (t2 ++ colon :: (t3 ++ [dash]))).length]⟩) :
    mem = false ∧ afbCredImport lax string mem = .null ENOMEM ∨
      ∃ c, afbCredImport lax string mem = .cred c ∧ c.label = label := by
  have hsplit : string = (t1 ++ colon :: (t2 ++ colon :: (t3 ++ [dash]))) ++ label := by
    simp [hstring]
  have hdrop : string.drop (t1 ++ colon :: (t2 ++ colon :: (t3 ++ [dash]))).length = label := by
    rw [hsplit, List.drop_left]
  unfold afbCredImport
  rw [hscan]
  dsimp only
  rw [hdrop]
  cases mem with
  | false => exact .inl ⟨rfl, rfl⟩
  | true => exact .inr ⟨_, rfl, rfl⟩

variable (mem) in
private theorem import_undefined {rest : Bytes} (h : afterNumbers lax string = some rest)
    (hdash : rest.head? ≠ some dash) : afbCredImport lax string mem = .undefined := by
  obtain ⟨_, _, _, uid, gid, pid, -, -, -, -, hscan⟩ := sscanf_numbers h
  rw [if_neg hdash] at hscan
  unfold afbCredImport
  rw [hscan]

private theorem mixed_defined (h : afbCredImport lax string mem ≠ .undefined) (cred : Option Cred)
    (permission : Bool) :
    ∃ used, afbCredMixedOnBehalfImport lax cred (some string) permission mem = some used := by
  unfold afbCredMixedOnBehalfImport
  dsimp only
  split
  · split
    · exact ⟨_, rfl⟩
    · exact ⟨_, rfl⟩
    · rename_i hundefined
      exact absurd hundefined h
  · exact ⟨_, rfl⟩

end

/-- For every string: the import is safe exactly when what follows three hexadecimal numbers
separated by colons, if the string starts so, is a dash. -/
theorem afbCredImport_safe_iff (lax : Bool) (string : Bytes) (mem : Bool) :
    ImportSafe lax string mem ↔
      ∀ rest, afterNumbers lax string = some rest → rest.head? = some dash := by
  constructor
  · intro h rest hrest
    by_contra hdash
    have hundefined := import_undefined mem hrest hdash
    rcases h.imported with heinval | ⟨t1, t2, t3, label, -, -, -, -, ⟨-, hnull⟩ | ⟨c, hc, -⟩⟩
    · rw [hundefined] at heinval
      cases heinval
    · rw [hundefined] at hnull
      cases hnull
    · rw [hundefined] at hc
      cases hc
  · intro h
    cases hrest : afterNumbers lax string with
    | none =>
      have heinval := import_short mem hrest
      exact ⟨.inl heinval, mixed_defined (by rw [heinval]; simp)⟩
    | some rest =>
      have hdash := h rest hrest
      obtain ⟨t1, t2, t3, uid, gid, pid, ht1, ht2, ht3, hstring, hscan⟩ := sscanf_numbers hrest
      rw [if_pos hdash] at hscan
      rw [← List.cons_head?_tail hdash] at hstring
      have hlabel := import_label mem hstring hscan
      refine ⟨.inr ⟨t1, t2, t3, rest.tail, ht1, ht2, ht3, hstring, hlabel⟩, mixed_defined ?_⟩
      rcases hlabel with ⟨-, hnull⟩ | ⟨c, hc, -⟩
      · rw [hnull]
        simp
      · rw [hc]
        simp

/-- The string 1:2:3 has three numbers and no dash. -/
theorem afbCredImport_no_dash : ¬ImportSafe false [49, 58, 50, 58, 51] true := by
  intro h
  have hundefined : afbCredImport false [49, 58, 50, 58, 51] true = .undefined := by decide
  obtain ⟨used, hused⟩ := h.mixed none true
  rw [afbCredMixedOnBehalfImport, hundefined] at hused
  cases hused

end AfbBinder.Creds
