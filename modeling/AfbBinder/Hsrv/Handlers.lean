import Mathlib.Data.List.DropRight
import AfbBinder.Lib.Cstrings
import AfbBinder.Lib.Insertions

/-! The handlers of the HTTP server, by priority, and the search of the one that takes a request. -/
namespace AfbBinder.Hsrv
open Lib.Cstrings Lib.Insertions

def slash : UInt8 := 47

/-- The fields of a request that the search of a handler reads. The status is the one replied. -/
structure Hreq where
  url : Bytes
  lenurl : Nat
  tail : Bytes
  lentail : Nat
  scanned : Bool
  replied : Option Nat
  suspended : Bool
  deriving DecidableEq, Repr

/-- What a handler gives back: it leaves the url and the tail as they are. -/
structure Answer (σ : Type) where
  accepted : Bool
  replied : Option Nat
  suspended : Bool
  world : σ

/-- A prefix without its ending slashes. -/
def bare (text : Bytes) : Bytes := text.rdropWhile (· = slash)

/-- A handler of the list, its data being part of the function. -/
structure Link (σ : Type) where
  text : Bytes
  length : Nat
  handler : Hreq → σ → Answer σ
  priority : Int
  trimmed : length = (bare text).length

def trimLength (text : Bytes) : Nat → Nat
  | 0 => 0
  | length + 1 => if text[length]? = some slash then trimLength text length else length + 1

private theorem trimLength_take (text : Bytes) (n : Nat) (h : n ≤ text.length) :
    trimLength text n = (bare (text.take n)).length := by
  induction n with
  | zero => rfl
  | succ n ih =>
    rw [trimLength, List.take_add_one, bare, List.getElem?_eq_getElem h, Option.toList_some,
      List.rdropWhile_concat]
    by_cases hslash : text[n] = slash
    · rw [if_pos (by rw [hslash]), if_pos (by simpa using hslash), ih (Nat.le_of_succ_le h), bare]
    · rw [if_neg (by simpa using hslash), if_neg (by simpa using hslash), List.length_append,
        List.length_take_of_le (Nat.le_of_succ_le h), List.length_singleton]

private theorem trimLength_bare (text : Bytes) : trimLength text text.length = (bare text).length := by
  rw [trimLength_take text _ (Nat.le_refl _), List.take_length]

section
variable {σ : Type}

/-- A call of afb_hsrv_add_handler; mem tells whether malloc succeeds. -/
structure Add (σ : Type) where
  text : Bytes
  handler : Hreq → σ → Answer σ
  priority : Int
  mem : Bool

def Add.link (add : Add σ) : Link σ :=
  ⟨add.text, trimLength add.text add.text.length, add.handler, add.priority,
    trimLength_bare add.text⟩

/-- The new link goes past iter. -/
def goesPast (iter link : Link σ) : Bool :=
  link.priority < iter.priority ∨ link.priority = iter.priority ∧ link.length ≤ iter.length

def newHandler (head : List (Link σ)) (add : Add σ) : Option (List (Link σ)) :=
  if add.mem then some (insertAfter goesPast add.link head) else none

def addHandler (handlers : List (Link σ)) (add : Add σ) : List (Link σ) :=
  (newHandler handlers add).getD handlers

/-- The handlers added, in the order of the calls. -/
def added (adds : List (Add σ)) : List (Link σ) :=
  (adds.filter Add.mem).map Add.link

private theorem goesPast_total (a b : Link σ) (h : goesPast a b = false) : goesPast b a = true := by
  simp only [goesPast, decide_eq_false_iff_not, decide_eq_true_eq] at *
  omega

private theorem goesPast_trans (a b c : Link σ) (h1 : goesPast a b = true) (h2 : goesPast b c = true) :
    goesPast a c = true := by
  simp only [goesPast, decide_eq_true_eq] at *
  omega

private theorem addHandler_pairwise {handlers : List (Link σ)} (add : Add σ)
    (h : handlers.Pairwise fun a b => goesPast a b = true) :
    (addHandler handlers add).Pairwise fun a b => goesPast a b = true := by
  rw [addHandler, newHandler]
  split
  · exact pairwise_insertAfter goesPast_total goesPast_trans h
  · exact h

/-- The handlers of one priority and one length. -/
def rank (priority : Int) (length : Nat) (link : Link σ) : Bool :=
  link.priority = priority ∧ link.length = length

private theorem addHandler_filter {handlers : List (Link σ)} (add : Add σ) (priority : Int) (length : Nat)
    (h : handlers.Pairwise fun a b => goesPast a b = true) :
    (addHandler handlers add).filter (rank priority length) =
      handlers.filter (rank priority length) ++ (added [add]).filter (rank priority length) := by
  rw [addHandler, newHandler, added]
  cases hmem : add.mem with
  | false =>
    rw [List.filter_cons_of_neg (by simp [hmem])]
    exact (List.append_nil _).symm
  | true =>
    rw [List.filter_cons_of_pos (by simp [hmem])]
    refine filter_insertAfter goesPast_trans (fun a b ha hb => ?_) h
    simp only [rank, goesPast, decide_eq_true_eq] at *
    omega

theorem adds_pairwise (adds : List (Add σ)) {handlers : List (Link σ)}
    (h : handlers.Pairwise fun a b => goesPast a b = true) :
    (adds.foldl addHandler handlers).Pairwise fun a b => goesPast a b = true := by
  induction adds generalizing handlers with
  | nil => exact h
  | cons add adds ih => exact ih (addHandler_pairwise add h)

theorem adds_filter (adds : List (Add σ)) {handlers : List (Link σ)} (priority : Int) (length : Nat)
    (h : handlers.Pairwise fun a b => goesPast a b = true) :
    (adds.foldl addHandler handlers).filter (rank priority length) =
      handlers.filter (rank priority length) ++ (added adds).filter (rank priority length) := by
  induction adds generalizing handlers with
  | nil => exact (List.append_nil _).symm
  | cons add adds ih =>
    have hcons : added (add :: adds) = added [add] ++ added adds := by
      rw [added, added, added, ← List.map_append, ← List.filter_append, List.singleton_append]
    rw [List.foldl_cons, ih (addHandler_pairwise add h), addHandler_filter add priority length h,
      hcons, List.filter_append, List.append_assoc]

end

end AfbBinder.Hsrv
