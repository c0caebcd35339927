import AfbBinder.Lib.Loops
import AfbBinder.WrapJson.Base64
import AfbBinder.WrapJson.Formats
import AfbBinder.WrapJson.Objects

/-! The interpreter vunpack, one iteration of its loop a step. -/
namespace AfbBinder.WrapJson
open Lib.Cstrings Lib.Loops
open Lib.Json (lbracket rbracket lbrace rbrace colon)

def unpackAcceptArr : Bytes := [star, bang, rbracket, lbracket, lbrace, lowerS, lowerN, lowerB, lowerI,
  upperI, lowerF, upperF, lowerO, upperO, lowerY, upperY]

def unpackAcceptKey : Bytes := [star, bang, lowerS, rbrace]

def unpackAcceptAny : Bytes := unpackAcceptArr.drop 3

/-- An argument of wrap_json_vunpack: a key, or the address of what is stored. None is NULL. -/
inductive UnpackArg where
  | key (k : Option Bytes)
  | string (p : Option Nat)
  | size (p : Option Nat)
  | int (p : Option Nat)
  | int64 (p : Option Nat)
  | double (p : Option Nat)
  | object (p : Option Nat)
  | bytes (p : Option Nat)

def UnpackArg.asString : UnpackArg → Option (Option Nat)
  | .string p => some p
  | _ => none

def UnpackArg.asSize : UnpackArg → Option (Option Nat)
  | .size p => some p
  | _ => none

def UnpackArg.asInt : UnpackArg → Option (Option Nat)
  | .int p => some p
  | _ => none

def UnpackArg.asInt64 : UnpackArg → Option (Option Nat)
  | .int64 p => some p
  | _ => none

def UnpackArg.asDouble : UnpackArg → Option (Option Nat)
  | .double p => some p
  | _ => none

def UnpackArg.asObject : UnpackArg → Option (Option Nat)
  | .object p => some p
  | _ => none

def UnpackArg.asBytes : UnpackArg → Option (Option Nat)
  | .bytes p => some p
  | _ => none

/-- What is stored: of a string, the text that is pointed to; of bytes, the allocated block or NULL. -/
inductive Stored (D : Type) where
  | string (s : Bytes)
  | size (n : UInt64)
  | int (i : Int32)
  | int64 (i : Int64)
  | double (x : D)
  | object (o : JsonObject D)
  | bytes (p : Option Bytes)

structure UnpackFrame (D : Type) where
  parent : JsonObject D
  acc : Bytes
  index : Int32
  count : Int32
  type : UInt8

/-- The variables of the loop, the stack being from its top and empty when top is NULL, xacc being
xacc[0], and the stores being those made so far. -/
structure UnpackState (D : Type) where
  d : Bytes
  args : List UnpackArg
  acc : Bytes
  xacc : UInt8
  stack : List (UnpackFrame D)
  ignore : Nat
  obj : JsonObject D
  stores : List (Nat × Stored D)

/-- json_object_get_double, of an int. -/
structure Doubles (D : Type) where
  ofInt : Int64 → D

section
variable {D : Type} (doubles : Doubles D) (store : Bool)

def UnpackState.put (st : UnpackState D) (p : Option Nat) (x : Stored D) : UnpackState D :=
  match p with
  | some p => { st with stores := st.stores ++ [(p, x)] }
  | none => st

/-- missfit, at the character that is read. -/
def missfit (st : UnpackState D) (fit : Bytes) : Stop (UnpackState D) :=
  .error .missfitType { st with d := fit }

/-- json_object_object_get_ex: the member of the name, if the object has one. -/
def objectGetEx (o : JsonObject D) (name : Bytes) : Option (JsonObject D) :=
  match o with
  | .object members => members.lookup name
  | _ => none

/-- A key: the object is that of the key in the parent, or the value of the key is ignored. -/
def unpackKey (st : UnpackState D) : Except (Stop (UnpackState D)) (UnpackState D) :=
  match st.args with
  | .key none :: args => .error (.error .nullKey { st with args })
  | .key (some k) :: args =>
    if 0 ∉ k then .error (.fault .read)
    else
      let optional := cur st.d = question
      let st := { st with
        d := if optional then advance st.d else st.d
        args, xacc := colon, acc := unpackAcceptAny }
      if st.ignore ≠ 0 then .ok { st with ignore := st.ignore + 1 }
      else
        match st.stack with
        | [] => .error (.fault .read)
        | top :: below =>
          match objectGetEx top.parent (k.takeWhile (· ≠ 0)) with
          | some obj => .ok { st with obj, stack := { top with index := top.index + 1 } :: below }
          | none =>
            if optional then .ok { st with ignore := 1, obj := .null }
            else .error (.error .keyNotFound st)
  | _ => .error (.fault .argument)

/-- The address that is the next argument, none also when nothing is stored. -/
def takeArg (address : UnpackArg → Option (Option Nat)) (st : UnpackState D) :
    Except (Stop (UnpackState D)) (Option Nat × UnpackState D) :=
  if store then
    match st.args with
    | [] => .error (.fault .argument)
    | arg :: args =>
      match address arg with
      | some p => .ok (p, { st with args })
      | none => .error (.fault .argument)
  else .ok (none, st)

/-- The value of the object goes to the address, if the object has the type. -/
def storeValue (st : UnpackState D) (fit : Bytes) (p : Option Nat)
    (value : JsonObject D → Option (Stored D)) : Except (Stop (UnpackState D)) (UnpackState D) :=
  if st.ignore = 0 then
    match value st.obj with
    | some x => .ok (st.put p x)
    | none => .error (missfit st fit)
  else .ok st

def unpackScalar (st : UnpackState D) (fit : Bytes) (address : UnpackArg → Option (Option Nat))
    (value : JsonObject D → Option (Stored D)) : Except (Stop (UnpackState D)) (UnpackState D) :=
  (takeArg store address st).bind fun (p, st) => storeValue st fit p value

def stringValue : JsonObject D → Option (Stored D)
  | .string s => some (.string s)
  | _ => none

def booleanValue : JsonObject D → Option (Stored D)
  | .boolean b => some (.int b)
  | _ => none

def intValue : JsonObject D → Option (Stored D)
  | .int i => some (.int (getInt i))
  | _ => none

def int64Value : JsonObject D → Option (Stored D)
  | .int i => some (.int64 i)
  | _ => none

def doubleValue (int : Bool) : JsonObject D → Option (Stored D)
  | .double x => some (.double x)
  | .int i => if int then some (.double (doubles.ofInt i)) else none
  | _ => none

def unpackString (st : UnpackState D) (fit : Bytes) : Except (Stop (UnpackState D)) (UnpackState D) :=
  (unpackScalar store st fit UnpackArg.asString stringValue).bind fun st =>
    if cur st.d = percent then
      (takeArg store UnpackArg.asSize { st with d := advance st.d }).bind fun (pz, st) =>
        if st.ignore = 0 then .ok (st.put pz (.size (UInt64.ofNat st.obj.getString.length)))
        else .ok st
    else .ok st

/-- The two stores of an array of bytes, both or none. -/
def putBytes (st : UnpackState D) (py pz : Option Nat) (p : Option Bytes) : UnpackState D :=
  match py, pz with
  | some py, some pz =>
    (st.put (some py) (.bytes p)).put (some pz) (.size (UInt64.ofNat (p.getD []).length))
  | _, _ => st

def unpackBytes (st : UnpackState D) (fit : Bytes) : Except (Stop (UnpackState D)) (UnpackState D) :=
  (takeArg store UnpackArg.asBytes st).bind fun (py, st) =>
    (takeArg store UnpackArg.asSize st).bind fun (pz, st) =>
      if st.ignore = 0 then
        match st.obj with
        | .null => .ok (putBytes st py pz none)
        | .string s =>
          if py.isSome ∧ pz.isSome then
            match decodeBase64 s with
            | some data => .ok (putBytes st py pz (some data))
            | none => .error (.error .badBase64 st)
          else .ok st
        | _ => .error (missfit st fit)
      else .ok st

/-- The second switch of the loop: what comes after a value, or after the opening of an array. -/
def unpackNext (st : UnpackState D) : Except (Stop (UnpackState D)) (UnpackState D ⊕ UnpackState D) :=
  if st.xacc = 0 then
    if st.stack ≠ [] then .error (.error .internalError st)
    else if cur st.d ≠ 0 then .error (.error .invalidCharacter st)
    else .ok (.inr st)
  else if st.xacc = rbracket then
    -- strchr finds the NUL at the end of the accepted characters
    if st.ignore = 0 ∧ (cur st.d = 0 ∨ cur st.d ∈ unpackAcceptAny) then
      match st.stack with
      | [] => .error (.fault .read)
      | top :: below =>
        if top.count ≤ top.index then .error (.error .outOfRange st)
        else
          let obj := match top.parent with
            | .array items => items.getD top.index.toNatClampNeg .null
            | _ => .null
          .ok (.inl { st with obj, stack := { top with index := top.index + 1 } :: below })
    else .ok (.inl st)
  else if st.xacc = colon then
    .ok (.inl { st with acc := unpackAcceptKey, xacc := rbrace, ignore := st.ignore - 1 })
  else .error (.error .internalError st)

/-- The container that the character opens has the type of the object. -/
def JsonObject.opensWith (o : JsonObject D) (c : UInt8) : Bool :=
  match o with
  | .array _ => c = lbracket
  | .object _ => c = lbrace
  | _ => false

/-- The opening of a container. The count is not set when the value is ignored, and not read then. -/
def unpackOpen (st : UnpackState D) (fit : Bytes) (c : UInt8) :
    Except (Stop (UnpackState D)) (UnpackState D ⊕ UnpackState D) :=
  if st.stack.length < STACKCOUNT then
    let top : UnpackFrame D := ⟨st.obj, st.acc, 0, Int32.ofNat st.obj.length, st.xacc⟩
    let st := { st with
      ignore := if st.ignore ≠ 0 then st.ignore + 1 else 0
      stack := top :: st.stack }
    if st.ignore = 0 ∧ !st.obj.opensWith c then .error (missfit st fit)
    else if c = lbracket then unpackNext { st with xacc := rbracket, acc := unpackAcceptArr }
    else .ok (.inl { st with xacc := rbrace, acc := unpackAcceptKey })
  else .error (.error .tooDeep st)

def unpackClose (st : UnpackState D) (c : UInt8) : Except (Stop (UnpackState D)) (UnpackState D) :=
  match st.stack with
  | [] => .error (.error .internalError st)
  | top :: below =>
    if c ≠ st.xacc then .error (.error .internalError st)
    else .ok { st with acc := top.acc, xacc := top.type, stack := below, ignore := st.ignore - 1 }

/-- The marks ! and *: the container ends. -/
def unpackEnd (st : UnpackState D) (c : UInt8) : Except (Stop (UnpackState D)) (UnpackState D) :=
  let last : UnpackState D := { st with acc := [st.xacc] }
  if c = bang then
    if cur st.d ≠ st.xacc then .error (.error .invalidCharacter st)
    else if st.ignore = 0 then
      match st.stack with
      | [] => .error (.fault .read)
      | top :: _ => if top.index ≠ top.count then .error (.error .incomplete st) else .ok last
    else .ok last
  else .ok last

def unpackItem (st : UnpackState D) (fit : Bytes) (c : UInt8) :
    Except (Stop (UnpackState D)) (UnpackState D) :=
  if c = lowerS then unpackString store st fit
  else if c = lowerN then
    if st.ignore = 0 ∧ !st.obj.isNull then .error (missfit st fit) else .ok st
  else if c = lowerB then unpackScalar store st fit UnpackArg.asInt booleanValue
  else if c = lowerI then unpackScalar store st fit UnpackArg.asInt intValue
  else if c = upperI then unpackScalar store st fit UnpackArg.asInt64 int64Value
  else if c = lowerF ∨ c = upperF then
    unpackScalar store st fit UnpackArg.asDouble (doubleValue doubles (c = upperF))
  else if c = lowerO ∨ c = upperO then
    unpackScalar store st fit UnpackArg.asObject fun o => some (.object o)
  else if c = lowerY ∨ c = upperY then unpackBytes store st fit
  else if c = rbrace ∨ c = rbracket then unpackClose st c
  else .error (.error .internalError st)

def unpackStep (st : UnpackState D) :
    Except (Stop (UnpackState D)) (UnpackState D ⊕ UnpackState D) :=
  let fit := st.d
  let c := cur st.d
  if c = 0 then .error (.error .truncated st)
  else if c ∉ st.acc then .error (.error .invalidCharacter st)
  else
    let st := { st with d := advance st.d }
    if c = lowerS ∧ st.xacc = rbrace then (unpackKey st).map .inl
    else if c = lbracket ∨ c = lbrace then unpackOpen st fit c
    else if c = bang ∨ c = star then (unpackEnd st c).map .inl
    else (unpackItem doubles store st fit c).bind unpackNext

def unpackStart (object : JsonObject D) (desc : Bytes) (args : List UnpackArg) : UnpackState D :=
  ⟨skip desc, args, unpackAcceptAny, 0, [], 0, object, []⟩

/-- The loop, that reads a character of the descriptor each time. -/
def unpackRun (object : JsonObject D) (desc : Option Bytes) (args : List UnpackArg) :
    Option (Except (Stop (UnpackState D)) (UnpackState D)) :=
  match desc with
  | none => some (.error (.error .nullSpec (unpackStart object [] args)))
  | some desc => iterate (unpackStep doubles store) (desc.length + 1) (unpackStart object desc args)

/-- The end of a call: the value returned and the stores, or what C gives no meaning to. -/
inductive UnpackResult (D : Type) where
  | done (rc : Int32) (stores : List (Nat × Stored D))
  | fault (f : Fault)

def vunpack (object : JsonObject D) (desc : Option Bytes) (args : List UnpackArg) :
    Option (UnpackResult D) :=
  (unpackRun doubles store object desc args).map fun
    | .ok st => .done 0 st.stores
    | .error (.error e st) => .done (e.rc ((desc.getD []).length - st.d.length)) st.stores
    | .error (.fault f) => .fault f

def wrapJsonVunpack (object : JsonObject D) (desc : Option Bytes) (args : List UnpackArg) :
    Option (UnpackResult D) := vunpack doubles true object desc args

def wrapJsonVcheck (object : JsonObject D) (desc : Option Bytes) (args : List UnpackArg) :
    Option (UnpackResult D) := vunpack doubles false object desc args

end

end AfbBinder.WrapJson
