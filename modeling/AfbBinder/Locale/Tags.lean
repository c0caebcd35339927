import AfbBinder.Locale.Containers
import AfbBinder.Locale.Folders

/-! The tags of a definition and their truncations: what create_search looks for. -/
namespace AfbBinder.Locale
open Lib.Bsearch Lib.Cstrings

/-- The prefixes of a tag before a run of dashes, shorter than a length, from the longest. -/
def truncationsBelow (t : Bytes) : Nat → List Bytes
  | 0 => []
  | k + 1 =>
    if k ≠ 0 ∧ charAt t k = dash ∧ charAt t (k - 1) ≠ dash then t.take k :: truncationsBelow t k
    else truncationsBelow t k

/-- A tag and its truncations. -/
def truncations (t : Bytes) : List Bytes := if t = [] then [] else t :: truncationsBelow t t.length

/-- The folders of a tag: those of all its truncations, or that of the longest that has one. -/
def foundFolders (lookup : Bytes → Option FolderId) (immediate : Bool) (t : Bytes) : List FolderId :=
  if immediate then (truncations t).filterMap lookup else ((truncations t).findSome? lookup).toList

/-- The folder of a name. -/
def lookup (c : Container) (t : Bytes) : Option FolderId := searchFolder c t t.length

section
variable {c : Container} {d t : Bytes} {back n k : Nat} {immediate : Bool}

private theorem charAt_take (h : k < n) : charAt (d.take n) k = charAt d k := by
  simp [charAt, List.getD_eq_getElem?_getD, h]

private theorem charAt_drop : charAt (d.drop n) k = charAt d (n + k) := by
  simp [charAt, List.getD_eq_getElem?_getD, List.getElem?_drop]

theorem searchFolder_eq (h : back ≤ d.length) : searchFolder c d back = lookup c (d.take back) := by
  have hlen : (d.take back).length = back := by rw [List.length_take, Nat.min_eq_left h]
  simp only [lookup, searchFolder, strncasecmp, hlen, List.take_take, Nat.min_self]

private theorem truncationsBelow_take (h : k ≤ n) : truncationsBelow (d.take n) k = truncationsBelow d k := by
  induction k with
  | zero => rfl
  | succ k ih =>
    rw [truncationsBelow, truncationsBelow, charAt_take (by omega), charAt_take (by omega), ih (by omega),
      List.take_take, Nat.min_eq_left (by omega)]

/-- No dash is passed on the way back to one. -/
theorem truncationsBelow_backToDash (d : Bytes) (back : Nat) :
    truncationsBelow d back = truncationsBelow d (backToDash d back + 1) := by
  induction back with
  | zero => rfl
  | succ back ih =>
    rw [backToDash]
    split
    · rfl
    next hdash => rw [truncationsBelow, if_neg fun h => hdash h.2.1, ih]

/-- A run of dashes is passed as one. -/
theorem truncationsBelow_backOverDashes (h : charAt d k = dash ∨ k = 0) : truncationsBelow d (k + 1) =
    if backOverDashes d k = 0 then []
    else d.take (backOverDashes d k) :: truncationsBelow d (backOverDashes d k) := by
  induction k with
  | zero => rfl
  | succ k ih =>
    have hdash : charAt d (k + 1) = dash := h.resolve_right (Nat.succ_ne_zero k)
    rw [truncationsBelow]
    by_cases hprev : charAt d k = dash
    · have hback : backOverDashes d (k + 1) = backOverDashes d k := by rw [backOverDashes, if_pos ⟨hdash, hprev⟩]
      rw [if_neg fun hc => hc.2.2 hprev, hback, ih (.inl hprev)]
    · have hback : backOverDashes d (k + 1) = k + 1 := by rw [backOverDashes, if_neg fun hc => hprev hc.2]
      rw [if_pos ⟨Nat.succ_ne_zero k, hdash, hprev⟩, hback, if_neg (Nat.succ_ne_zero k)]

private theorem backToDash_stops (d : Bytes) (back : Nat) :
    charAt d (backToDash d back) = dash ∨ backToDash d back = 0 := by
  induction back with
  | zero => exact .inr rfl
  | succ back ih =>
    rw [backToDash]
    split
    next hdash => exact .inl hdash
    next => exact ih

private theorem truncationsBelow_next (d : Bytes) (back : Nat) : truncationsBelow d back =
    if backOverDashes d (backToDash d back) = 0 then []
    else d.take (backOverDashes d (backToDash d back)) ::
      truncationsBelow d (backOverDashes d (backToDash d back)) :=
  (truncationsBelow_backToDash d back).trans (truncationsBelow_backOverDashes (backToDash_stops d back))

/-- The truncations from a place on. -/
def truncationsAt (d : Bytes) (back : Nat) : List Bytes :=
  if back = 0 then [] else d.take back :: truncationsBelow d back

private theorem truncationsAt_eq (h : back ≤ d.length) : truncationsAt d back = truncations (d.take back) := by
  have hlen : (d.take back).length = back := by rw [List.length_take, Nat.min_eq_left h]
  rw [truncationsAt, truncations, hlen, truncationsBelow_take (Nat.le_refl back)]
  by_cases h0 : back = 0
  · rw [if_pos h0, if_pos (by simp [h0])]
  · rw [if_neg h0, if_neg fun hnil => h0 (by rw [hnil] at hlen; exact hlen.symm)]

/-- The loop over a tag appends the folders of its truncations. -/
theorem appendTag_eq {fuel : Nat} (hfuel : back ≤ fuel) (h : back ≤ d.length) (l : List FolderId) :
    appendTag c d immediate fuel back l =
      (foundFolders (lookup c) immediate (d.take back)).foldl searchAppendFolder l := by
  have hloop : ∀ (fuel back : Nat) (l : List FolderId), back ≤ fuel → back ≤ d.length →
      appendTag c d immediate fuel back l =
        (if immediate then (truncationsAt d back).filterMap (lookup c)
          else ((truncationsAt d back).findSome? (lookup c)).toList).foldl searchAppendFolder l := by
    intro fuel
    induction fuel with
    | zero =>
      intro back l hfuel _
      rw [Nat.le_zero.mp hfuel]
      cases immediate <;> rfl
    | succ fuel ih =>
      intro back l hfuel hback
      rw [appendTag, truncationsAt]
      by_cases h0 : back = 0
      · rw [if_pos h0, if_pos h0]
        cases immediate <;> rfl
      · have hnext := next_lt (d := d) h0
        have hrest := ih (backOverDashes d (backToDash d back))
        rw [if_neg h0, if_neg h0, searchFolder_eq hback, truncationsBelow_next, ← truncationsAt]
        dsimp only
        cases hfound : lookup c (d.take back) with
        | none =>
          dsimp only
          rw [hrest l (by omega) (by omega), List.filterMap_cons_none hfound, List.findSome?_cons, hfound]
        | some folder =>
          dsimp only
          cases immediate with
          | true =>
            rw [if_pos rfl, if_pos rfl, hrest _ (by omega) (by omega), List.filterMap_cons_some hfound, if_pos rfl]
            rfl
          | false =>
            rw [if_neg Bool.false_ne_true, if_neg Bool.false_ne_true, List.findSome?_cons, hfound]
            rfl
  rw [hloop fuel back l hfuel h, truncationsAt_eq h]
  rfl

end

/-! The tags. -/

/-- The characters of a tag. -/
def inTag (x : UInt8) : Bool := x ≠ comma && x ≠ semicolon

/-- The tag at the start of a text, as it is looked for; the flag tells that a blank follows
the text. -/
def usedTag (blank : Bool) (w : Bytes) : Bytes :=
  if blank ∧ (w.takeWhile inTag).length = w.length then w.take (trim w (w.length - 1)) else w.takeWhile inTag

/-- The text that follows the first tag. -/
def afterTag (w : Bytes) : Bytes := (w.dropWhile (· ≠ comma)).dropWhile isSeparator

/-- The tags of a text, one a unit of fuel. -/
def usedTags (blank : Bool) : Nat → Bytes → List Bytes
  | 0, _ => []
  | fuel + 1, w => if w = [] then [] else usedTag blank w :: usedTags blank fuel (afterTag w)

section
variable {c : Container} {d : Bytes} {n : Nat} {immediate : Bool}

private theorem drop_takeWhile {p : UInt8 → Bool} (w : Bytes) : w.drop (w.takeWhile p).length =
    w.dropWhile p := by
  calc w.drop (w.takeWhile p).length
      = (w.takeWhile p ++ w.dropWhile p).drop (w.takeWhile p).length := by rw [List.takeWhile_append_dropWhile]
    _ = w.dropWhile p := List.drop_left

private theorem drop_scan {p : UInt8 → Bool} (stop : Nat) :
    (d.take n).drop (scan p d n stop) = ((d.take n).drop stop).dropWhile p := by
  rw [scan, ← List.drop_drop, drop_takeWhile]

/-- A tag has no comma, so that what comes before the next comma starts with it. -/
theorem dropWhile_inTag (w : Bytes) : (w.dropWhile inTag).dropWhile (· ≠ comma) = w.dropWhile (· ≠ comma) := by
  induction w with
  | nil => rfl
  | cons x w ih =>
    by_cases hx : inTag x = true
    · have hcomma : x ≠ comma := by
        rintro rfl
        exact absurd hx (by decide)
      rw [List.dropWhile_cons_of_pos hx, List.dropWhile_cons_of_pos (by simpa using hcomma), ih]
    · rw [List.dropWhile_cons_of_neg hx]

private theorem trim_take {k : Nat} (h : k < n) : trim (d.take n) k = trim d k := by
  induction k with
  | zero => rfl
  | succ k ih => rw [trim, trim, charAt_take h, ih (by omega)]

theorem trim_of_not_blank {k : Nat} (h : isBlank (charAt d k) = false) : trim d k = k := by
  cases k with
  | zero => rfl
  | succ k => rw [trim, h, if_neg Bool.false_ne_true]

private theorem not_inTag_of_takeWhile {w : Bytes} (h : (w.takeWhile inTag).length < w.length) :
    inTag (charAt w (w.takeWhile inTag).length) = false := by
  have hhead := List.head?_dropWhile_not inTag w
  rw [← drop_takeWhile, List.head?_drop, List.getElem?_eq_getElem h] at hhead
  rw [charAt, List.getD_eq_getElem?_getD, List.getElem?_eq_getElem h, Option.getD_some]
  exact hhead

/-- The place where the loop over a tag starts gives the tag that is looked for. -/
theorem take_trim (hn : n ≤ d.length) : d.take (trim d (scan inTag d n 0)) =
    usedTag (isBlank (charAt d n)) (d.take n) := by
  have hlen : (d.take n).length = n := by rw [List.length_take, Nat.min_eq_left hn]
  have htag : scan inTag d n 0 = ((d.take n).takeWhile inTag).length := Nat.zero_add _
  have hprefix : d.take (scan inTag d n 0) = (d.take n).takeWhile inTag := by
    have hle := scan_le (p := inTag) hn (Nat.zero_le n)
    rw [← Nat.min_eq_left hle, ← List.take_take, htag]
    exact (List.prefix_iff_eq_take.mp (List.takeWhile_prefix inTag)).symm
  rw [usedTag, hlen, ← htag]
  by_cases hend : scan inTag d n 0 = n
  · cases hblank : isBlank (charAt d n) with
    | false =>
      rw [if_neg fun h => Bool.false_ne_true h.1, ← hprefix]
      rw [trim_of_not_blank (by rw [hend]; exact hblank)]
    | true =>
      rw [if_pos ⟨rfl, hend⟩, hend]
      cases n with
      | zero => simp [trim]
      | succ n =>
        have hle := trim_le d n
        rw [trim, hblank, if_pos rfl, Nat.add_sub_cancel, trim_take (Nat.lt_succ_self n), List.take_take,
          Nat.min_eq_left (by omega)]
  · have hlt : ((d.take n).takeWhile inTag).length < (d.take n).length := by
      have hle := scan_le (p := inTag) hn (Nat.zero_le n)
      omega
    have hsep := not_inTag_of_takeWhile hlt
    rw [← htag, charAt_take (by omega)] at hsep
    have hblank : isBlank (charAt d (scan inTag d n 0)) = false := by
      simp only [inTag, ne_eq, Bool.and_eq_false_iff, decide_eq_false_iff_not, not_not] at hsep
      rcases hsep with hc | hc <;> rw [hc] <;> decide
    rw [trim_of_not_blank hblank, if_neg fun h => hend h.2, hprefix]

/-- The loop over a definition appends the folders of its tags. -/
theorem appendTags_eq {fuel : Nat} (hn : n ≤ d.length) (l : List FolderId) :
    appendTags c immediate fuel d n l = ((usedTags (isBlank (charAt d n)) fuel (d.take n)).flatMap
      (foundFolders (lookup c) immediate)).foldl searchAppendFolder l := by
  induction fuel generalizing d n l with
  | zero => rfl
  | succ fuel ih =>
    have hlen : (d.take n).length = n := by rw [List.length_take, Nat.min_eq_left hn]
    rw [appendTags, usedTags]
    by_cases h0 : n = 0
    · rw [if_pos h0, if_pos (by rw [h0]; rfl)]
      rfl
    · have hstop : scan inTag d n 0 ≤ n := scan_le hn (Nat.zero_le n)
      have hcomma : scan (· ≠ comma) d n (scan inTag d n 0) ≤ n := scan_le hn hstop
      have hnext : scan isSeparator d n (scan (· ≠ comma) d n (scan inTag d n 0)) ≤ n := scan_le hn hcomma
      have hrest : (d.take n).drop (scan isSeparator d n (scan (· ≠ comma) d n (scan inTag d n 0))) =
          afterTag (d.take n) := by
        rw [drop_scan, drop_scan, drop_scan, List.drop_zero, dropWhile_inTag, afterTag]
      have hback := trim_le d (scan inTag d n 0)
      rw [if_neg h0, if_neg fun hnil => h0 (by rw [hnil] at hlen; exact hlen.symm)]
      dsimp only
      rw [← show inTag = (fun c => decide (c ≠ comma) && decide (c ≠ semicolon)) from rfl,
        appendTag_eq (Nat.le_refl _) (by omega), take_trim hn, ih (by rw [List.length_drop]; omega),
        charAt_drop, Nat.add_sub_cancel' hnext, List.flatMap_cons, List.foldl_append, ← hrest, List.drop_take]

end

end AfbBinder.Locale
