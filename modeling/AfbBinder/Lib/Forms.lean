import Mathlib.Data.List.Basic
import AfbBinder.Lib.Scanf

/-! The queries of urls, as forms: how a url is cut and its pairs decoded. -/
namespace AfbBinder.Lib.Forms
open Cstrings Scanf

abbrev hash : UInt8 := 35
abbrev percent : UInt8 := 37
abbrev ampersand : UInt8 := 38
abbrev plus : UInt8 := 43
abbrev equal : UInt8 := 61
abbrev question : UInt8 := 63

def unplus (c : UInt8) : UInt8 := if c = plus then 32 else c

/-- Plus is a space, and percent with two hexadecimal digits a byte. -/
def unescape : Bytes → Bytes
  | c :: a :: b :: s =>
    if c = percent then
      match hexValue a, hexValue b with
      | some x, some y => UInt8.ofNat (16 * x + y) :: unescape s
      | _, _ => c :: unescape (a :: b :: s)
    else unplus c :: unescape (a :: b :: s)
  | c :: s => unplus c :: unescape s
  | [] => []

/-- What is before the first mark, and what is after it. -/
def cut (mark : UInt8) (s : Bytes) : Bytes × Option Bytes :=
  match s.dropWhile (· ≠ mark) with
  | [] => (s, none)
  | _ :: rest => (s.takeWhile (· ≠ mark), some rest)

def decodePair (s : Bytes) : Bytes × Option Bytes :=
  let (key, value) := cut equal s
  (unescape key, value.map unescape)

/-- The url without its fragment and its query, and the pairs of the query. -/
def decodeUrl (s : Bytes) : Bytes × List (Bytes × Option Bytes) :=
  let (url, query) := cut question (cut hash s).1
  (url, match query with
    | none => []
    | some q => (q.splitOnP (· = ampersand)).map decodePair)

section
variable {mark : UInt8} {a b : Bytes}

theorem all_ne (h : mark ∉ a) : ∀ x ∈ a, decide (x ≠ mark) = true := by
  intro x hx
  exact decide_eq_true fun he => h (he ▸ hx)

theorem cut_append (h : mark ∉ a) : cut mark (a ++ mark :: b) = (a, some b) := by
  have hdrop : (a ++ mark :: b).dropWhile (· ≠ mark) = mark :: b := by
    rw [List.dropWhile_append_of_pos (all_ne h), List.dropWhile_cons_of_neg (by simp)]
  have htake : (a ++ mark :: b).takeWhile (· ≠ mark) = a := by
    rw [List.takeWhile_append_of_pos (all_ne h), List.takeWhile_cons_of_neg (by simp),
      List.append_nil]
  rw [cut, hdrop, htake]

theorem cut_of_notMem (h : mark ∉ a) : cut mark a = (a, none) := by
  have hdrop : a.dropWhile (· ≠ mark) = [] := by
    rw [← List.append_nil a, List.dropWhile_append_of_pos (all_ne h), List.dropWhile_nil]
  rw [cut, hdrop]

theorem cut_fst (mark : UInt8) (s : Bytes) : (cut mark s).1 = s.takeWhile (· ≠ mark) := by
  unfold cut
  split
  · rename_i hdrop
    have := List.takeWhile_append_dropWhile (p := fun x => decide (x ≠ mark)) (l := s)
    rwa [hdrop, List.append_nil, eq_comm] at this
  · rfl

theorem unescape_cons {c : UInt8} (h : c ≠ percent) (s : Bytes) :
    unescape (c :: s) = unplus c :: unescape s := by
  match s with
  | [] => rfl
  | [_] => rfl
  | _ :: _ :: _ => rw [unescape, if_neg h]

theorem unescape_percent {x y : UInt8} {m n : Nat} (hx : hexValue x = some m)
    (hy : hexValue y = some n) (s : Bytes) :
    unescape (percent :: x :: y :: s) = UInt8.ofNat (16 * m + n) :: unescape s := by
  rw [unescape, if_pos rfl, hx, hy]

end

/-- Splitting undoes joining. -/
theorem splitOnP_join {p : Bytes} {ps : List Bytes} (hp : ampersand ∉ p)
    (hps : ∀ q ∈ ps, ampersand ∉ q) :
    (p ++ ps.flatMap (ampersand :: ·)).splitOnP (· = ampersand) = p :: ps := by
  have hnot : ∀ {s : Bytes}, ampersand ∉ s → ∀ x ∈ s, decide (x = ampersand) = false := by
    intro s hs x hx
    exact decide_eq_false fun he => hs (he ▸ hx)
  induction ps generalizing p with
  | nil => rw [List.flatMap_nil, List.append_nil, List.splitOnP_eq_singleton (hnot hp)]
  | cons q ps ih =>
    rw [List.flatMap_cons, List.cons_append,
      List.splitOnP_append_cons_of_forall_mem (hnot hp) ampersand (by simp),
      ih (hps q List.mem_cons_self) fun r hr => hps r (List.mem_cons_of_mem q hr)]

end AfbBinder.Lib.Forms
