import AfbBinder.Lib.Json
import AfbBinder.Lib.Shortcuts
import AfbBinder.Contexts.Chains
import AfbBinder.WrapJson.Values

/-! The description of an authorisation: a tree is described by one object, its conjunctions in one
array and its disjunctions in another, and the description is read back as a check. -/
namespace AfbBinder.Contexts
open Lib.Cstrings Lib.Shortcuts Sessions
open Lib.Json (ascii)
open WrapJson (Json objectGet)

variable {D : Type}

def AFB_SESSION_CHECK_X2 : BitVec 32 := 4

def utf8 (text : String) : Bytes := text.toUTF8.toList

/-- json_object_array_add, that adds to nothing but an array. -/
def arrayAdd (a x : Json D) : Json D :=
  match a with
  | .array items => .array (items ++ [x])
  | a => a

/-- json_object_object_get_ex on any value. -/
def objectGetEx (o : Json D) (key : Bytes) : Option (Json D) :=
  match o with
  | .object members => objectGet key members
  | _ => none

/-- The array is the one in the object. -/
def addToAllOf (o x : Json D) : Json D :=
  match o with
  | .object members =>
    .object (members.map fun m => if m.1 = ascii "allOf" then (m.1, arrayAdd m.2 x) else m)
  | o => o

def addperm (o : Option (Json D)) (x : Json D) : Json D :=
  match o with
  | none => x
  | some o =>
    match objectGetEx o (ascii "allOf") with
    | some _ => addToAllOf o x
    | none => .object [(ascii "allOf", .array [o, x])]

def addpermKeyVal (o : Option (Json D)) (key : String) (val : Json D) : Json D :=
  addperm o (.object [(ascii key, val)])

def addpermKeyValstr (o : Option (Json D)) (key : String) (val : String) : Json D :=
  addpermKeyVal o key (.string (utf8 val))

/-- The parameter of addperm_key_valint is an int: it has the 32 bits of the value given. -/
def addpermKeyValint (o : Option (Json D)) (key : String) (val : Nat) : Json D :=
  addpermKeyVal o key (.int (Int.bmod val (2 ^ 32)))

def Auth.isOr : Auth → Bool
  | .or _ _ => true
  | _ => false

mutual

def addauth (o : Option (Json D)) (auth : Auth) : Json D :=
  match auth with
  | .no => addperm o (.boolean false)
  | .token => addpermKeyValstr o "session" "check"
  | .loa loa => addpermKeyValint o "LOA" loa
  | .permission text => addpermKeyValstr o "permission" text
  | .or first next => addpermKeyVal o "anyOf" (addauthOrArray (.array []) (.or first next))
  | .and first next => addauth (some (addauth o first)) next
  | .not first => addpermKeyVal o "not" (addauth none first)
  | .yes => addperm o (.boolean true)
termination_by (sizeOf auth, if auth.isOr then 2 else 0)
decreasing_by all_goals simp_wf; simp [Auth.isOr]; omega

def addauthOrArray (o : Json D) (auth : Auth) : Json D :=
  if h : auth.isOr then
    match auth, h with
    | .or first next, _ => addauthOrArray (addauthOrArray o first) next
  else arrayAdd o (addauth none auth)
termination_by (sizeOf auth, 1)
decreasing_by
  · simp_wf
    omega
  · simp_wf
    omega
  · rw [if_neg h]
    exact Prod.Lex.right _ Nat.zero_lt_one

end

def afbAuthJsonV2 (auth : Option Auth) (session : BitVec 32) : Option (Json D) :=
  let result := none
  let result := if session &&& AFB_SESSION_CLOSE_X2 ≠ 0 then
    some (addpermKeyValstr result "session" "close") else result
  let result := if session &&& AFB_SESSION_CHECK_X2 ≠ 0 then
    some (addpermKeyValstr result "session" "check") else result
  let result := if session &&& AFB_SESSION_REFRESH_X2 ≠ 0 then
    some (addpermKeyValstr result "token" "refresh") else result
  let result := if session &&& AFB_SESSION_LOA_MASK_X2 ≠ 0 then
    some (addpermKeyValint result "LOA" (session &&& AFB_SESSION_LOA_MASK_X2).toNat) else result
  match auth with
  | some auth => some (addauth result auth)
  | none => result

section
variable (token : Option Bool) (loa : Option Nat) (permitted : Bytes → Bool)

mutual

/-- What a description grants, checked from left to right; what has no reading is refused. -/
def granted : Json D → Option Bool
  | .boolean b => some b
  | .object members => grantedMembers members
  | _ => some false

def grantedMembers : List (Bytes × Json D) → Option Bool
  | [(key, val)] =>
    if key = ascii "not" then (granted val).map (!·)
    else
      match val with
      | .array items =>
        if key = ascii "anyOf" then anyGranted items
        else if key = ascii "allOf" then allGranted items
        else some false
      | .string text =>
        if key = ascii "session" ∧ text = utf8 "check" then token
        else some (key = ascii "permission" && permitted text)
      | .int n => if key = ascii "LOA" then loa.map fun l : Nat => decide (n ≤ (l : Int))
        else some false
      | _ => some false
  | _ => some false

def anyGranted : List (Json D) → Option Bool
  | [] => some false
  | item :: items => either (granted item) (anyGranted items)

def allGranted : List (Json D) → Option Bool
  | [] => some true
  | item :: items => both (granted item) (allGranted items)

end

end

/-- The tree with each LOA as it is read in the description: a negative one asks for nothing. -/
def Auth.signed : Auth → Auth
  | .loa n => .loa (Int.bmod n (2 ^ 32)).toNat
  | .or first next => .or first.signed next.signed
  | .and first next => .and first.signed next.signed
  | .not first => .not first.signed
  | auth => auth

/-- No LOA of the tree is past the last int. -/
def Auth.Fitting : Auth → Prop
  | .loa n => n < 2 ^ 31
  | .or first next => first.Fitting ∧ next.Fitting
  | .and first next => first.Fitting ∧ next.Fitting
  | .not first => first.Fitting
  | _ => True

/-- What the description of a request at a verb is for. -/
def grants (fuel : Nat) (s : SessionSet) (permitted : Bytes → Bool) (chain : Chain) (j : Json D) :
    Option Bool :=
  granted (Chain.afbContextCheck fuel chain) (afbContextGetLoa s chain.context) permitted j

def checks (fuel : Nat) (s : SessionSet) (permitted : Bytes → Bool) (chain : Chain) (auth : Auth) :
    Option Bool :=
  Chain.afbAuthCheck fuel s (permitted ∘ utf8) chain auth

/-- The description of a conjunction. -/
def conjunction (items : List (Json D)) : Json D := .object [(ascii "allOf", .array items)]

/-- A value that has no conjunction, or is one. -/
def Growable (j : Json D) : Prop :=
  objectGetEx j (ascii "allOf") = none ∨ ∃ items, j = conjunction items

section
variable {token : Option Bool} {loa : Option Nat} {permitted : Bytes → Bool} {o : Option (Json D)}
  {x : Json D}

private theorem anyGranted_append (xs ys : List (Json D)) : anyGranted token loa permitted (xs ++ ys) =
    either (anyGranted token loa permitted xs) (anyGranted token loa permitted ys) := by
  induction xs with
  | nil => rfl
  | cons x xs ih => rw [List.cons_append, anyGranted, anyGranted, ih, either_assoc]

private theorem allGranted_append (xs ys : List (Json D)) : allGranted token loa permitted (xs ++ ys) =
    both (allGranted token loa permitted xs) (allGranted token loa permitted ys) := by
  induction xs with
  | nil => rfl
  | cons x xs ih => rw [List.cons_append, allGranted, allGranted, ih, both_assoc]

private theorem anyGranted_single (x : Json D) :
    anyGranted token loa permitted [x] = granted token loa permitted x := by
  rw [anyGranted, anyGranted, either_no]

private theorem allGranted_single (x : Json D) :
    allGranted token loa permitted [x] = granted token loa permitted x := by
  rw [allGranted, allGranted, both_yes]

private theorem grantedMembers_not (val : Json D) : grantedMembers token loa permitted [(ascii "not", val)] =
    (granted token loa permitted val).map (!·) := by
  cases val <;> simp [grantedMembers]

private theorem granted_conjunction (items : List (Json D)) :
    granted token loa permitted (conjunction items) = allGranted token loa permitted items := by
  rw [conjunction, granted, grantedMembers, if_neg (by decide), if_neg (by decide), if_pos rfl]

/-- What is described so far asks for. -/
def soFar (token : Option Bool) (loa : Option Nat) (permitted : Bytes → Bool)
    (o : Option (Json D)) : Option Bool :=
  o.elim (some true) (granted token loa permitted)

/-- One more condition is one more term of the conjunction. -/
theorem addperm_granted (h : ∀ j ∈ o, Growable j) (x : Json D) :
    granted token loa permitted (addperm o x) =
      both (soFar token loa permitted o) (granted token loa permitted x) := by
  cases o with
  | none => rfl
  | some j =>
    rcases h j rfl with hnone | ⟨items, rfl⟩
    · have hadd : addperm (some j) x = conjunction [j, x] := by
        rw [addperm, hnone]
        rfl
      rw [hadd, granted_conjunction, allGranted, allGranted_single]
      rfl
    · have hadd : addperm (some (conjunction items)) x = conjunction (items ++ [x]) := rfl
      rw [hadd, granted_conjunction, allGranted_append, allGranted_single, soFar, Option.elim_some,
        granted_conjunction]

private theorem addperm_growable (h : ∀ j ∈ o, Growable j) (hx : Growable x) : Growable (addperm o x) := by
  cases o with
  | none => exact hx
  | some j =>
    rcases h j rfl with hnone | ⟨items, rfl⟩
    · refine .inr ⟨[j, x], ?_⟩
      rw [addperm, hnone]
      rfl
    · exact .inr ⟨items ++ [x], rfl⟩

private theorem growable_member {key : String} (h : ascii key ≠ ascii "allOf") (val : Json D) :
    Growable (.object [(ascii key, val)]) := .inl (if_neg h)

/-- The description of a tree after what is described so far, and its terms in a disjunction. -/
structure Describes (token : Option Bool) (loa : Option Nat) (permitted : Bytes → Bool) (D : Type)
    (auth : Auth) (check : Option Bool) : Prop where
  growable : ∀ o : Option (Json D), (∀ j ∈ o, Growable j) → Growable (addauth o auth)
  granted : ∀ o : Option (Json D), (∀ j ∈ o, Growable j) →
    granted token loa permitted (addauth o auth) = both (soFar token loa permitted o) check
  terms : ∀ items : List (Json D), ∃ more, addauthOrArray (.array items) auth =
    .array (items ++ more) ∧ anyGranted token loa permitted more = check

section
variable {auth : Auth} {check : Option Bool}

/-- Outside a disjunction the tree is one term. -/
theorem describes_term (h : auth.isOr = false)
    (hgrow : ∀ o : Option (Json D), (∀ j ∈ o, Growable j) → Growable (addauth o auth))
    (hgrant : ∀ o : Option (Json D), (∀ j ∈ o, Growable j) →
      granted token loa permitted (addauth o auth) = both (soFar token loa permitted o) check) :
    Describes token loa permitted D auth check := by
  refine ⟨hgrow, hgrant, fun items => ⟨[addauth none auth], ?_, ?_⟩⟩
  · rw [addauthOrArray, dif_neg (by rw [h]; exact Bool.false_ne_true)]
    rfl
  · rw [anyGranted_single, hgrant none fun j hj => absurd hj (Option.not_mem_none j)]
    rfl

private theorem describes_leaf (h : auth.isOr = false) (hadd : ∀ o, addauth o auth = addperm o x)
    (hgrow : Growable x) (hgrant : granted token loa permitted x = check) :
    Describes token loa permitted D auth check := by
  apply describes_term h
  · intro o ho
    rw [hadd]
    exact addperm_growable ho hgrow
  · intro o ho
    rw [hadd, addperm_granted ho, hgrant]

private theorem describes_and {first next : Auth} {check' : Option Bool}
    (hfirst : Describes token loa permitted D first check)
    (hnext : Describes token loa permitted D next check') :
    Describes token loa permitted D (.and first next) (both check check') := by
  have hsome : ∀ o : Option (Json D), (∀ j ∈ o, Growable j) →
      ∀ j ∈ some (addauth o first), Growable j := by
    intro o ho j hj
    cases hj
    exact hfirst.growable o ho
  apply describes_term rfl
  · intro o ho
    rw [addauth]
    exact hnext.growable _ (hsome o ho)
  · intro o ho
    rw [addauth, hnext.granted _ (hsome o ho), soFar, Option.elim_some, hfirst.granted o ho,
      both_assoc]

private theorem describes_or {first next : Auth} {check' : Option Bool}
    (hfirst : Describes token loa permitted D first check)
    (hnext : Describes token loa permitted D next check') :
    Describes token loa permitted D (.or first next) (either check check') := by
  have hterms : ∀ items : List (Json D), ∃ more, addauthOrArray (.array items) (.or first next) =
      .array (items ++ more) ∧ anyGranted token loa permitted more = either check check' := by
    intro items
    obtain ⟨more, hmore, hcheck⟩ := hfirst.terms items
    obtain ⟨more', hmore', hcheck'⟩ := hnext.terms (items ++ more)
    refine ⟨more ++ more', ?_, by rw [anyGranted_append, hcheck, hcheck']⟩
    rw [addauthOrArray, dif_pos (show (Auth.or first next).isOr = true from rfl)]
    dsimp only
    rw [hmore, hmore', List.append_assoc]
  obtain ⟨more, hmore, hcheck⟩ := hterms []
  have hadd : ∀ o : Option (Json D), addauth o (.or first next) =
      addperm o (.object [(ascii "anyOf", .array more)]) := by
    intro o
    rw [addauth, hmore]
    rfl
  have hgrant : granted token loa permitted (.object [(ascii "anyOf", .array more)] : Json D) =
      either check check' := by
    rw [granted, grantedMembers, if_neg (by decide)]
    rw [if_pos rfl, hcheck]
  refine ⟨fun o ho => ?_, fun o ho => ?_, hterms⟩
  · rw [hadd]
    exact addperm_growable ho (growable_member (by decide) _)
  · rw [hadd, addperm_granted ho, hgrant]

private theorem describes_not {first : Auth} (hfirst : Describes token loa permitted D first check) :
    Describes token loa permitted D (.not first) (check.map (!·)) := by
  apply describes_leaf rfl (fun o => by rw [addauth]; rfl) (growable_member (by decide) _)
  have hsub := hfirst.granted none fun j hj => absurd hj (Option.not_mem_none j)
  rw [granted, grantedMembers_not, hsub]
  rfl

end

end

private theorem checkLoa_signed (s : SessionSet) (c : Context) (n : Nat) :
    (afbContextGetLoa s c).map (fun l : Nat => decide (Int.bmod n (2 ^ 32) ≤ (l : Int))) =
      afbContextCheckLoa s c (Int.bmod n (2 ^ 32)).toNat := by
  have hread : ∀ (i : Int) (l : Nat), decide (i ≤ (l : Int)) = decide (i.toNat ≤ l) :=
    fun i l => decide_eq_decide.mpr Int.toNat_le.symm
  rw [afbContextCheckLoa, funext (hread (Int.bmod n (2 ^ 32)))]

/-- The description grants what the tree grants with its LOAs as they are read. -/
theorem describes (D : Type) (fuel : Nat) (s : SessionSet) (permitted : Bytes → Bool) (chain : Chain)
    (auth : Auth) : Describes (Chain.afbContextCheck fuel chain) (afbContextGetLoa s chain.context)
      permitted D auth (checks fuel s permitted chain auth.signed) := by
  induction auth with
  | no => exact describes_leaf rfl (fun o => by rw [addauth]) (.inl rfl) rfl
  | token =>
    apply describes_leaf rfl (fun o => by rw [addauth]; rfl) (growable_member (by decide) _)
    rw [granted, grantedMembers, if_neg (by decide)]
    rw [if_pos ⟨rfl, rfl⟩]
    rfl
  | loa n =>
    apply describes_leaf rfl (fun o => by rw [addauth]; rfl) (growable_member (by decide) _)
    rw [granted, grantedMembers, if_neg (by decide)]
    rw [if_pos rfl, checkLoa_signed]
    rfl
  | permission text =>
    apply describes_leaf rfl (fun o => by rw [addauth]; rfl) (growable_member (by decide) _)
    have hkey : ascii "permission" ≠ ascii "session" := by decide
    rw [granted, grantedMembers, if_neg (by decide), if_neg fun h => hkey h.1]
    rfl
  | or first next ihfirst ihnext => exact describes_or ihfirst ihnext
  | and first next ihfirst ihnext => exact describes_and ihfirst ihnext
  | not first ih => exact describes_not ih
  | yes => exact describes_leaf rfl (fun o => by rw [addauth]) (.inl rfl) rfl

/-- The LOAs that fit an int are read as they are. -/
theorem signed_of_fitting {auth : Auth} (h : auth.Fitting) : auth.signed = auth := by
  induction auth with
  | loa n =>
    have hn : n < 2 ^ 31 := h
    have hread : Int.bmod n (2 ^ 32) = n := Int.bmod_eq_of_le (by omega) (by omega)
    rw [Auth.signed, hread, Int.toNat_natCast]
  | or first next ihfirst ihnext => rw [Auth.signed, ihfirst h.1, ihnext h.2]
  | and first next ihfirst ihnext => rw [Auth.signed, ihfirst h.1, ihnext h.2]
  | not first ih => rw [Auth.signed, ih h]
  | _ => rfl

section
variable (D : Type) (fuel : Nat) (s : SessionSet) (permitted : Bytes → Bool) (chain : Chain)
  (auth : Auth)

private theorem grants_signed : grants fuel s permitted chain (addauth (none : Option (Json D)) auth) =
    checks fuel s permitted chain auth.signed :=
  (describes D fuel s permitted chain auth).granted none fun j hj => absurd hj (Option.not_mem_none j)

/-- For every request, the description of a tree whose LOAs fit an int grants what the tree does. -/
theorem description_right (h : auth.Fitting) : ∃ j : Json D, afbAuthJsonV2 (some auth) 0 = some j ∧
    grants fuel s permitted chain j = checks fuel s permitted chain auth := by
  have hgrants := grants_signed D fuel s permitted chain auth
  rw [signed_of_fitting h] at hgrants
  exact ⟨_, rfl, hgrants⟩

/-- The description of a tree grants what the tree does exactly when its LOAs, read as ints, do. -/
theorem description_right_iff :
    (∃ j : Json D, afbAuthJsonV2 (some auth) 0 = some j ∧
        grants fuel s permitted chain j = checks fuel s permitted chain auth) ↔
      checks fuel s permitted chain auth.signed = checks fuel s permitted chain auth := by
  have hgrants := grants_signed D fuel s permitted chain auth
  constructor
  · rintro ⟨j, hj, hsame⟩
    cases hj
    exact hgrants.symm.trans hsame
  · intro hsame
    exact ⟨_, rfl, hgrants.trans hsame⟩

end

/-- The LOA past the last int is described as a negative one, that every session has. -/
theorem loa_described_negative :
    ∃ (c : Context) (s : SessionSet),
      afbContextConnect .start none none [[97]] true = some (.ok c, s) ∧
        checks 1 s (fun _ => true) (.root c) (.loa (2 ^ 31)) = some false ∧
        ¬∃ j : Json Unit, afbAuthJsonV2 (some (.loa (2 ^ 31))) 0 = some j ∧
          grants 1 s (fun _ => true) (.root c) j =
            checks 1 s (fun _ => true) (.root c) (.loa (2 ^ 31)) := by
  have hjson : afbAuthJsonV2 (some (.loa (2 ^ 31))) 0 =
      some (.object [(ascii "LOA", .int (-2147483648))] : Json Unit) := by
    have hadd : addauth (none : Option (Json Unit)) (.loa (2 ^ 31)) =
        .object [(ascii "LOA", .int (-2147483648))] := by
      rw [addauth]
      rfl
    exact congrArg some hadd
  refine ⟨_, _, rfl, by decide +kernel, ?_⟩
  rintro ⟨j, hj, hsame⟩
  rw [hjson, Option.some.injEq] at hj
  subst hj
  revert hsame
  decide +kernel

end AfbBinder.Contexts
