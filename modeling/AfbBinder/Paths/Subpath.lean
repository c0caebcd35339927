import Mathlib.Algebra.BigOperators.Group.List.Basic
import Mathlib.Algebra.Ring.Int.Defs
import Mathlib.Data.List.TakeWhile
import AfbBinder.Lib.Cstrings
import AfbBinder.Lib.Words

/-! The two checks that a path does not climb above where it starts, each a loop over the
characters of the path with a level, and the normalisation that uses one of them. Neither the
index nor the level overflows an int: no path is that long. -/
namespace AfbBinder.Paths
open Lib.Cstrings

def slash : UInt8 := 47
def dot : UInt8 := 46

/-- What a turn of the switch does to the level. -/
inductive Move where
  | stay
  | up
  | down
  deriving DecidableEq, Repr

/-- The end of the name: the next slash or the end of the path. -/
def skipName (path : Bytes) : Bytes := path.dropWhile (· ≠ slash)

/-- A turn of the switch on the character c, with what follows it: both functions have the
same one, but for the level. -/
def turn (c : UInt8) (rest : Bytes) : Move × Bytes :=
  if c = dot then
    match rest with
    | [] => (.stay, [])
    | d :: rest =>
      if d = slash then (.stay, rest)
      else if d = dot then
        match rest with
        | [] => (.up, [])
        | e :: rest => if e = slash then (.up, rest) else (.down, skipName rest)
      else (.down, skipName rest)
  else if c = slash then (.stay, rest)
  else (.down, skipName rest)

private theorem length_skipName (path : Bytes) : (skipName path).length ≤ path.length :=
  (List.dropWhile_sublist _).length_le

private theorem length_turn (c : UInt8) (rest : Bytes) : (turn c rest).2.length ≤ rest.length := by
  unfold turn
  split
  · cases rest with
    | nil => exact Nat.le_refl _
    | cons d rest =>
      dsimp only
      split
      · exact Nat.le_succ _
      · split
        · cases rest with
          | nil => exact Nat.le_succ _
          | cons e rest =>
            dsimp only
            have := length_skipName rest
            split
            · simp only [List.length_cons]
              omega
            · simp only [List.length_cons]
              omega
        · have := length_skipName rest
          simp only [List.length_cons]
          omega
  · split
    · exact Nat.le_refl _
    · exact length_skipName rest

/-- The loop over the path: none when it returns in the middle. -/
def inspect (level : Move → Int → Option Int) : Bytes → Int → Option Int
  | [], l => some l
  | c :: rest, l =>
    match level (turn c rest).1 l with
    | none => none
    | some l => inspect level (turn c rest).2 l
  termination_by path => path.length
  decreasing_by exact Nat.lt_succ_of_le (length_turn c rest)

/-- The level of validsubpath: it returns 0 as soon as the level is negative. -/
def strictLevel : Move → Int → Option Int
  | .stay, l => some l
  | .up, l => if l - 1 < 0 then none else some (l - 1)
  | .down, l => some (l + 1)

def validsubpath (subpath : Bytes) : Bool := (inspect strictLevel subpath 0).isSome

/-- The level of subpath_is_valid: once negative it does not go down again. -/
def stuckLevel : Move → Int → Option Int
  | .stay, l => some l
  | .up, l => some (l - 1)
  | .down, l => some (if 0 ≤ l then l + 1 else l)

def subpathIsValid (path : Bytes) : Bool :=
  if path.head? = some slash then false
  else (inspect stuckLevel path 0).any fun l => 0 ≤ l

/-- The path is none for NULL. -/
def subpath (path : Option Bytes) : Option Bytes :=
  path.bind fun path =>
    if subpathIsValid path then some (if path = [] then [dot] else path) else none

def subpathForce (path : Option Bytes) : Option Bytes :=
  subpath (path.map fun path => path.dropWhile (· = slash))

def components (path : Bytes) : List Bytes := path.splitOn slash

/-- By how much a component goes down. -/
def descent (component : Bytes) : Int :=
  if component = [] ∨ component = [dot] then 0 else if component = [dot, dot] then -1 else 1

/-- Read from the given depth, the components never lead to a negative depth. -/
def StaysFrom (depth : Int) (components : List Bytes) : Prop :=
  ∀ n, 0 ≤ depth + ((components.take n).map descent).sum

section
variable {l : Int} {c : UInt8} {component rest path : Bytes} {cs : List Bytes}

private theorem staysFrom_nil : StaysFrom l [] ↔ 0 ≤ l := by
  simp [StaysFrom]

private theorem staysFrom_cons :
    StaysFrom l (component :: cs) ↔ 0 ≤ l ∧ StaysFrom (l + descent component) cs := by
  constructor
  · intro h
    refine ⟨by simpa using h 0, fun n => ?_⟩
    have := h (n + 1)
    rw [List.take_succ_cons, List.map_cons, List.sum_cons] at this
    omega
  · rintro ⟨hl, h⟩ n
    cases n with
    | zero => simpa using hl
    | succ n =>
      have := h n
      rw [List.take_succ_cons, List.map_cons, List.sum_cons]
      omega

private theorem StaysFrom.nonneg (h : StaysFrom l cs) : 0 ≤ l := by
  simpa using h 0

private theorem staysFrom_empty : StaysFrom l ([] :: cs) ↔ StaysFrom l cs := by
  rw [staysFrom_cons]
  have hzero : l + descent [] = l := by simp [descent]
  rw [hzero]
  exact and_iff_right_of_imp StaysFrom.nonneg

private theorem components_slash : components (slash :: path) = [] :: components path := by
  rw [components, List.splitOn_cons_eq_if_modifyHead, if_pos (by simp)]
  rfl

/-- A component that ends at a slash or at the end of the path. -/
theorem staysFrom_append (component : Bytes) {tail : Bytes} (h : ∀ x ∈ component, x ≠ slash)
    (htail : tail = [] ∨ ∃ r, tail = slash :: r) :
    StaysFrom l (components (component ++ tail)) ↔
      0 ≤ l ∧ StaysFrom (l + descent component) (components tail) := by
  have hfalse : ∀ x ∈ component, (x == slash) = false := fun x hx => by simpa using h x hx
  rcases htail with rfl | ⟨r, rfl⟩
  · have hone : components component = [component] :=
      List.splitOn_eq_singleton_of_beq_eq_false hfalse
    have hnil : components [] = [[]] := List.splitOn_nil _
    rw [List.append_nil, hone, hnil, staysFrom_cons, staysFrom_empty]
  · have hcons : components (component ++ slash :: r) = component :: components r := by
      unfold components
      rw [List.splitOn_eq_splitOnP, List.splitOn_eq_splitOnP,
        List.splitOnP_append_cons_of_forall_mem hfalse slash (by simp)]
    rw [hcons, components_slash, staysFrom_cons, staysFrom_empty]

private theorem skipName_cases (path : Bytes) : skipName path = [] ∨ ∃ r, skipName path = slash :: r := by
  cases h : skipName path with
  | nil => exact .inl rfl
  | cons x r =>
    have hx : x = slash := by simpa using Lib.Words.stop_of_dropWhile h
    exact .inr ⟨r, by rw [hx]⟩

/-- The characters of the name that the switch has read, and the ones that skipName goes by. -/
theorem staysFrom_name (read : Bytes) (h : ∀ x ∈ read, x ≠ slash)
    (hdescent : ∀ name, descent (read ++ name) = 1) :
    StaysFrom l (components (read ++ rest)) ↔
      0 ≤ l ∧ StaysFrom (l + 1) (components (skipName rest)) := by
  have hname : ∀ x ∈ read ++ rest.takeWhile (· ≠ slash), x ≠ slash := by
    intro x hx
    rcases List.mem_append.mp hx with hx | hx
    · exact h x hx
    · simpa using List.mem_takeWhile_imp hx
  have hsplit : read ++ rest = (read ++ rest.takeWhile (· ≠ slash)) ++ skipName rest := by
    rw [List.append_assoc, skipName, List.takeWhile_append_dropWhile]
  rw [hsplit, staysFrom_append _ hname (skipName_cases rest), hdescent]

def Move.descent : Move → Int
  | .stay => 0
  | .up => -1
  | .down => 1

/-- A turn of the switch goes by one component, or by one slash. -/
theorem staysFrom_turn : StaysFrom l (components (c :: rest)) ↔
    0 ≤ l ∧ StaysFrom (l + (turn c rest).1.descent) (components (turn c rest).2) := by
  have hnil : ([] : Bytes) = [] ∨ ∃ r, ([] : Bytes) = slash :: r := .inl rfl
  have hslash : ∀ r : Bytes, slash :: r = [] ∨ ∃ r', slash :: r = slash :: r' := fun r => .inr ⟨r, rfl⟩
  have hempty : ∀ (l : Int) (r : Bytes),
      StaysFrom l (components (slash :: r)) ↔ StaysFrom l (components r) := fun l r => by
    rw [components_slash, staysFrom_empty]
  unfold turn
  split
  · rename_i hc
    subst hc
    cases rest with
    | nil => exact staysFrom_append [dot] (by simp [dot, slash]) hnil
    | cons d rest =>
      dsimp only
      split
      · rename_i hd
        subst hd
        exact (staysFrom_append [dot] (by simp [dot, slash]) (hslash rest)).trans
          (and_congr_right fun _ => hempty _ _)
      · rename_i hd
        split
        · rename_i hdot
          subst hdot
          cases rest with
          | nil => exact staysFrom_append [dot, dot] (by simp [dot, slash]) hnil
          | cons e rest =>
            dsimp only
            split
            · rename_i he
              subst he
              exact (staysFrom_append [dot, dot] (by simp [dot, slash]) (hslash rest)).trans
                (and_congr_right fun _ => hempty _ _)
            · rename_i he
              refine staysFrom_name [dot, dot, e] ?_ fun name => ?_
              · simp only [List.mem_cons, List.not_mem_nil, or_false]
                rintro x (rfl | rfl | rfl)
                · decide
                · decide
                · exact he
              · simp [descent]
        · rename_i hdot
          refine staysFrom_name [dot, d] ?_ fun name => ?_
          · simp only [List.mem_cons, List.not_mem_nil, or_false]
            rintro x (rfl | rfl)
            · decide
            · exact hd
          · simp [descent, hdot]
  · rename_i hdot
    split
    · rename_i hc
      subst hc
      have hzero : l + Move.stay.descent = l := Int.add_zero l
      rw [hempty]
      dsimp only
      rw [hzero]
      exact (and_iff_right_of_imp StaysFrom.nonneg).symm
    · rename_i hc
      refine staysFrom_name [c] (by simpa using hc) fun name => ?_
      simp [descent, hdot]

/-- The loop of validsubpath, from a level that is not negative. -/
theorem strict_inspect (hl : 0 ≤ l) :
    (inspect strictLevel path l).isSome = true ↔ StaysFrom l (components path) := by
  fun_induction inspect strictLevel path l with
  | case1 l =>
    have hnil : components [] = [[]] := List.splitOn_nil _
    rw [hnil, staysFrom_empty, staysFrom_nil]
    exact iff_of_true rfl hl
  | case2 c rest l hm =>
    -- the level would be negative after this component
    refine iff_of_false Bool.false_ne_true fun h => ?_
    have hdown := (staysFrom_turn.mp h).2.nonneg
    cases ht : (turn c rest).1 with
    | stay => rw [ht] at hm; cases hm
    | down => rw [ht] at hm; cases hm
    | up =>
      rw [ht, strictLevel] at hm
      rw [ht, Move.descent] at hdown
      have hneg : l - 1 < 0 := by
        by_contra hge
        rw [if_neg hge] at hm
        cases hm
      omega
  | case3 c rest l m hm ih =>
    have hmove : m = l + (turn c rest).1.descent ∧ 0 ≤ m := by
      cases ht : (turn c rest).1 with
      | stay =>
        rw [ht] at hm
        obtain rfl := Option.some.inj hm
        exact ⟨(Int.add_zero l).symm, hl⟩
      | down =>
        rw [ht] at hm
        obtain rfl := Option.some.inj hm
        exact ⟨rfl, Int.le_add_one hl⟩
      | up =>
        rw [ht] at hm
        obtain ⟨hnn, hm⟩ := Option.ite_none_left_eq_some.mp hm
        obtain rfl := Option.some.inj hm
        exact ⟨rfl, Int.not_lt.mp hnn⟩
    rw [staysFrom_turn, ← hmove.1, ih hmove.2]
    exact (and_iff_right hl).symm

/-- A negative level stays negative. -/
theorem stuck_negative (path : Bytes) (hl : l < 0) :
    ∃ m, inspect stuckLevel path l = some m ∧ m < 0 := by
  fun_induction inspect stuckLevel path l with
  | case1 l => exact ⟨l, rfl, hl⟩
  | case2 c rest l hm => cases ht : (turn c rest).1 <;> rw [ht] at hm <;> cases hm
  | case3 c rest l m hm ih =>
    refine ih ?_
    cases ht : (turn c rest).1 with
    | stay =>
      rw [ht] at hm
      obtain rfl := Option.some.inj hm
      exact hl
    | up =>
      rw [ht] at hm
      obtain rfl := Option.some.inj hm
      omega
    | down =>
      rw [ht, stuckLevel, if_neg (Int.not_le.mpr hl)] at hm
      obtain rfl := Option.some.inj hm
      exact hl

/-- The loop of subpath_is_valid, from a level that is not negative. -/
theorem stuck_inspect (hl : 0 ≤ l) :
    ((inspect stuckLevel path l).any fun m => 0 ≤ m) = true ↔ StaysFrom l (components path) := by
  fun_induction inspect stuckLevel path l with
  | case1 l =>
    have hnil : components [] = [[]] := List.splitOn_nil _
    rw [hnil, staysFrom_empty, staysFrom_nil]
    simp [hl]
  | case2 c rest l hm => cases ht : (turn c rest).1 <;> rw [ht] at hm <;> cases hm
  | case3 c rest l m hm ih =>
    have hmove : m = l + (turn c rest).1.descent := by
      cases ht : (turn c rest).1 with
      | stay =>
        rw [ht] at hm
        obtain rfl := Option.some.inj hm
        exact (Int.add_zero l).symm
      | up =>
        rw [ht] at hm
        obtain rfl := Option.some.inj hm
        rfl
      | down =>
        rw [ht, stuckLevel, if_pos hl] at hm
        obtain rfl := Option.some.inj hm
        rfl
    rw [staysFrom_turn, ← hmove]
    by_cases hneg : m < 0
    · obtain ⟨last, hlast, hlt⟩ := stuck_negative (turn c rest).2 hneg
      rw [hlast]
      refine iff_of_false (by simpa using hlt) fun h => ?_
      exact absurd h.2.nonneg (Int.not_le.mpr hneg)
    · rw [ih (Int.not_lt.mp hneg)]
      exact (and_iff_right hl).symm

end

/-- The components of the path never lead above where it starts. -/
def NeverAbove (path : Bytes) : Prop := StaysFrom 0 (components path)

private theorem subpathIsValid_iff (path : Bytes) :
    subpathIsValid path = true ↔ path.head? ≠ some slash ∧ NeverAbove path := by
  unfold subpathIsValid
  split
  · rename_i h
    exact iff_of_false Bool.false_ne_true fun hn => hn.1 h
  · rename_i h
    exact (stuck_inspect (Int.le_refl 0)).trans (and_iff_right h).symm

/-- Both checks decide that no component leads above the start, and what subpath_force gives is
the path without its first slashes, which passes the check. -/
theorem subpaths_never_above (path : Bytes) :
    (validsubpath path = true ↔ NeverAbove path) ∧
      (subpathIsValid path = true ↔ path.head? ≠ some slash ∧ NeverAbove path) ∧
      ∀ result, subpathForce (some path) = some result →
        (result = if path.dropWhile (· = slash) = [] then [dot]
          else path.dropWhile (· = slash)) ∧ subpathIsValid result = true := by
  refine ⟨strict_inspect (Int.le_refl 0), subpathIsValid_iff path, fun result h => ?_⟩
  obtain ⟨hvalid, rfl⟩ := Option.ite_some_none_eq_some.mp h
  refine ⟨rfl, ?_⟩
  split
  · rw [subpathIsValid_iff]
    refine ⟨by decide, (strict_inspect (Int.le_refl 0)).mp ?_⟩
    simp [inspect, turn, strictLevel]
  · exact hvalid

end AfbBinder.Paths
