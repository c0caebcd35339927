import AfbBinder.Locale.Model

/-! The folders of a definition: what they depend on. -/
namespace AfbBinder.Locale
open Lib.Bsearch Lib.Cstrings

/-- Two texts alike up to a length, but for the case of the letters. -/
structure Alike (d e : Bytes) (n : Nat) : Prop where
  left : n ≤ d.length
  right : n ≤ e.length
  lower : (d.take n).map tolower = (e.take n).map tolower
  blank : isBlank (charAt d n) = isBlank (charAt e n)

section
variable {d e : Bytes} {n i back stop : Nat}

/-- A test that the case of a letter does not change. -/
def Caseless (p : UInt8 → Bool) : Prop := ∀ c, p (tolower c) = p c

private theorem caseless_ne {x : UInt8} (hx : x < 65) : Caseless (· ≠ x) := fun c => by
  simp only [ne_eq, tolower_eq_iff hx]

private theorem caseless_eq {x : UInt8} (hx : x < 65) : Caseless (· = x) := fun c => by
  simp only [tolower_eq_iff hx]

private theorem caseless_blank : Caseless isBlank := fun c => by
  simp only [isBlank, tolower_eq_iff (x := space) (by decide), tolower_eq_iff (x := tab) (by decide)]

private theorem caseless_separator : Caseless isSeparator := fun c => by
  rw [isSeparator, isSeparator, caseless_blank c]
  simp only [tolower_eq_iff (x := comma) (by decide)]

private theorem caseless_inTag : Caseless fun c => c ≠ comma && c ≠ semicolon := fun c => by
  simp only [ne_eq, tolower_eq_iff (x := comma) (by decide),
    tolower_eq_iff (x := semicolon) (by decide)]

private theorem Alike.char (h : Alike d e n) {p : UInt8 → Bool} (hp : Caseless p) (hi : i < n) :
    p (charAt d i) = p (charAt e i) := by
  have hd : i < d.length := Nat.lt_of_lt_of_le hi h.left
  have he : i < e.length := Nat.lt_of_lt_of_le hi h.right
  have hchar : tolower (charAt d i) = tolower (charAt e i) := by
    have hget := congrArg (fun l => l[i]?) h.lower
    simpa [charAt, List.getElem?_take, hi, hd, he] using hget
  rw [← hp (charAt d i), hchar, hp]

private theorem Alike.drop (h : Alike d e n) (hs : stop ≤ n) :
    Alike (d.drop stop) (e.drop stop) (n - stop) := by
  have hchar : ∀ l : Bytes, charAt (l.drop stop) (n - stop) = charAt l n := by
    intro l
    rw [charAt, charAt, List.getD_eq_getElem?_getD, List.getD_eq_getElem?_getD, List.getElem?_drop,
      Nat.add_sub_cancel' hs]
  have htake : ∀ l : Bytes, (l.drop stop).take (n - stop) = (l.take n).drop stop :=
    fun l => (List.drop_take ..).symm
  refine ⟨?_, ?_, ?_, by rw [hchar, hchar, h.blank]⟩
  · rw [List.length_drop]
    have := h.left
    omega
  · rw [List.length_drop]
    have := h.right
    omega
  · rw [htake, htake, List.map_drop, List.map_drop, h.lower]

private theorem Alike.scan (h : Alike d e n) {p : UInt8 → Bool} (hp : Caseless p) (stop : Nat) :
    scan p d n stop = scan p e n stop := by
  have hlower : ∀ l : Bytes, (l.takeWhile p).length = ((l.map tolower).takeWhile p).length := by
    intro l
    rw [List.takeWhile_map, List.length_map]
    congr 2
    exact funext fun c => (hp c).symm
  unfold Locale.scan
  rw [hlower ((d.take n).drop stop), hlower ((e.take n).drop stop), List.map_drop, List.map_drop,
    h.lower]

theorem scan_le {p : UInt8 → Bool} (hd : n ≤ d.length) (hs : stop ≤ n) : scan p d n stop ≤ n := by
  have hle := (List.takeWhile_prefix p (l := (d.take n).drop stop)).length_le
  rw [List.length_drop, List.length_take] at hle
  unfold scan
  omega

private theorem Alike.trim (h : Alike d e n) (hs : stop ≤ n) : trim d stop = trim e stop := by
  induction stop with
  | zero => rfl
  | succ back ih =>
    have hblank : isBlank (charAt d (back + 1)) = isBlank (charAt e (back + 1)) := by
      rcases Nat.lt_or_eq_of_le hs with hlt | heq
      · exact h.char caseless_blank hlt
      · rw [heq, h.blank]
    rw [Locale.trim, Locale.trim, hblank, ih (by omega)]

theorem trim_le (d : Bytes) (back : Nat) : trim d back ≤ back := by
  induction back with
  | zero => exact Nat.le_refl _
  | succ back ih =>
    rw [trim]
    split
    · omega
    · exact Nat.le_refl _

private theorem backToDash_le (d : Bytes) (back : Nat) : backToDash d back ≤ back := by
  induction back with
  | zero => exact Nat.le_refl _
  | succ back ih =>
    rw [backToDash]
    split <;> omega

private theorem Alike.isDash (h : Alike d e n) (hi : i < n) : charAt d i = dash ↔ charAt e i = dash := by
  have hchar := h.char (caseless_eq (x := dash) (by decide)) hi
  simpa using hchar

private theorem Alike.backToDash (h : Alike d e n) (hb : back ≤ n) :
    backToDash d back = backToDash e back := by
  induction back with
  | zero => rfl
  | succ back ih => simp only [Locale.backToDash, h.isDash (show back < n by omega), ih (by omega)]

private theorem backOverDashes_le (d : Bytes) (back : Nat) : backOverDashes d back ≤ back := by
  induction back with
  | zero => exact Nat.le_refl _
  | succ back ih =>
    rw [backOverDashes]
    split <;> omega

private theorem Alike.backOverDashes (h : Alike d e n) (hb : back < n) :
    backOverDashes d back = backOverDashes e back := by
  induction back with
  | zero => rfl
  | succ back ih =>
    simp only [Locale.backOverDashes, h.isDash hb, h.isDash (show back < n by omega), ih (by omega)]

private theorem Alike.searchFolder (c : Container) (h : Alike d e n) (hb : back ≤ n) :
    searchFolder c d back = searchFolder c e back := by
  have hlower : (d.take back).map tolower = (e.take back).map tolower := by
    have htake := congrArg (List.take back) h.lower
    rwa [← List.map_take, ← List.map_take, List.take_take, List.take_take, Nat.min_eq_left hb]
      at htake
  have hcmp : ∀ name : Bytes, strncasecmp name d back = strncasecmp name e back := by
    intro name
    rw [strncasecmp, strncasecmp, strcasecmp, strcasecmp, hlower]
  simp only [Locale.searchFolder, hcmp]

/-- The place where the next shorter tag ends. -/
theorem next_lt (hb : back ≠ 0) : Locale.backOverDashes d (Locale.backToDash d back) < back := by
  obtain ⟨k, rfl⟩ := Nat.exists_eq_add_one_of_ne_zero hb
  have hle := backOverDashes_le d (Locale.backToDash d (k + 1))
  have hlt : Locale.backToDash d (k + 1) ≤ k := by
    rw [Locale.backToDash]
    split
    · exact Nat.le_refl _
    · exact backToDash_le d k
  omega

private theorem Alike.appendTag (c : Container) (immediate : Bool) (h : Alike d e n) (hb : back ≤ n)
    (fuel : Nat) (l : List FolderId) :
    appendTag c d immediate fuel back l = appendTag c e immediate fuel back l := by
  induction fuel generalizing back l with
  | zero => rfl
  | succ fuel ih =>
    rw [Locale.appendTag, Locale.appendTag]
    by_cases h0 : back = 0
    · rw [if_pos h0, if_pos h0]
    · have hnext := next_lt (d := d) h0
      have hlt : Locale.backToDash d back < n := by
        obtain ⟨k, rfl⟩ := Nat.exists_eq_succ_of_ne_zero h0
        rw [Locale.backToDash]
        have := backToDash_le d k
        split <;> omega
      have heq : Locale.backOverDashes d (Locale.backToDash d back) =
          Locale.backOverDashes e (Locale.backToDash e back) := by
        rw [h.backOverDashes hlt, h.backToDash hb]
      rw [if_neg h0, if_neg h0, ← heq, h.searchFolder c hb]
      dsimp only
      split
      · exact ih (by omega) _
      · split
        · exact ih (by omega) _
        · rfl

private theorem Alike.appendTags (c : Container) (immediate : Bool) (h : Alike d e n) (fuel : Nat)
    (l : List FolderId) : appendTags c immediate fuel d n l = appendTags c immediate fuel e n l := by
  induction fuel generalizing d e n l with
  | zero => rfl
  | succ fuel ih =>
    rw [Locale.appendTags, Locale.appendTags]
    by_cases h0 : n = 0
    · rw [if_pos h0, if_pos h0]
    · have hstop := scan_le (p := fun c => c ≠ comma && c ≠ semicolon) h.left (Nat.zero_le n)
      rw [if_neg h0, if_neg h0]
      dsimp only
      rw [← h.scan caseless_inTag, ← h.trim hstop, ← h.scan (caseless_ne (by decide)),
        ← h.scan caseless_separator, h.appendTag c immediate (Nat.le_trans (trim_le _ _) hstop)]
      refine ih (h.drop ?_) _
      exact scan_le h.left (scan_le h.left hstop)

/-- The folders depend on the definition but for the case of its letters, and on whether a blank
follows it. -/
theorem createFolders_alike (c : Container) (immediate : Bool) (h : Alike d e n) :
    createFolders c d n immediate = createFolders c e n immediate := by
  rw [createFolders, createFolders, h.appendTags]

end

end AfbBinder.Locale
