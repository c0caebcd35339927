import AfbBinder.Lib.Ledgers
import AfbBinder.Lib.Loops
import AfbBinder.WrapJson.Base64
import AfbBinder.WrapJson.Formats
import AfbBinder.WrapJson.Objects

/-! The interpreter wrap_json_vpack, one iteration of its loop a step. -/
namespace AfbBinder.WrapJson
open Lib.Cstrings Lib.Ledgers Lib.Loops
open Lib.Json (lbracket rbracket lbrace rbrace colon)

def packAcceptArr : Bytes := [rbracket, lbracket, lbrace, lowerS, lowerN, lowerB, lowerI, upperI,
  lowerF, lowerO, upperO, lowerY, upperY]

def packAcceptKey : Bytes := [lowerS, rbrace]

def packAcceptAny : Bytes := packAcceptArr.drop 1

/-- An argument of wrap_json_vpack. A pointer gives the bytes up to the end of its block, none is NULL. -/
inductive PackArg (D : Type) where
  | pointer (p : Option Bytes)
  | size (n : UInt64)
  | int (i : Int32)
  | int64 (i : Int64)
  | double (d : D)
  | object (o : JsonObject D)

/-- A pointer of a slot that is not NULL, with a ghost, the number of the reference. -/
structure Held (D : Type) where
  ref : Nat
  obj : JsonObject D

structure PackFrame (D : Type) where
  cont : Option (Held D)
  key : Option (Held D)
  acc : Bytes
  type : UInt8

/-- A slot leaves what it points to. -/
def dropped {D : Type} (p : Option (Held D)) : List Event :=
  match p with
  | some h => [.drop h.ref]
  | none => []

/-- The variables ssz and s, the latter being the block that it points to. -/
structure Scratch where
  ssz : UInt64
  s : Bytes

/-- The block for the strings: a new one when the size is above ssz. Its bytes are written before
they are read. -/
def Scratch.reserve (b : Scratch) (sz : UInt64) : Scratch :=
  if b.ssz < sz then
    ⟨if b.ssz + b.ssz < sz then sz else b.ssz + b.ssz, List.replicate sz.toNat 0⟩
  else b

/-- The variables of the loop, with the stack from its top, and the outcomes of the allocations to come,
that succeed after them. The events are a ghost: a slot gets a reference, of a new container or of a
key, or leaves it, when the container ends or the key is released. -/
structure PackState (D : Type) where
  d : Bytes
  args : List (PackArg D)
  scratch : Scratch
  stack : List (PackFrame D)
  mem : List Bool
  events : List Event

section
variable {D : Type}

/-- The size of a string: an argument if it is asked for, or that of the text. -/
def stringSize (st : PackState D) (str : Option Bytes) :
    Except (Stop (PackState D)) (UInt64 × PackState D) :=
  if cur st.d = percent then
    match st.args with
    | .size n :: args => .ok (n, { st with d := advance st.d, args })
    | _ => .error (.fault .argument)
  else if cur st.d = hash then
    match st.args with
    | .int i :: args => .ok (i.toInt64.toUInt64, { st with d := advance st.d, args })
    | _ => .error (.fault .argument)
  else
    match str with
    | none => .ok (0, st)
    | some m =>
      match strlen m with
      | some n => .ok (n, st)
      | none => .error (.fault .read)

/-- The array strs, from its end, with the sum of its sizes. -/
structure Strings where
  strs : List (Option Bytes × UInt64)
  sz : UInt64
  notnull : Bool
  nullable : Bool

/-- The mark ?, if it is there. -/
def question? (st : PackState D) : Bool × PackState D :=
  if cur st.d = question then (true, { st with d := advance st.d }) else (false, st)

/-- The loop over the strings of an item, for the places left in strs. -/
def scanStrings : Nat → PackState D → Strings →
    Except (Stop (PackState D)) (Strings × PackState D)
  | 0, st, _ => .error (.error .tooLong st)
  | left + 1, st, v =>
    match st.args with
    | .pointer str :: args =>
      let (before, st) := question? { st with args }
      (stringSize st str).bind fun (n, st) =>
        let (after, st) := question? st
        let v : Strings := ⟨(str, n) :: v.strs, v.sz + n, v.notnull || str.isSome,
          v.nullable || before || after⟩
        if cur st.d ≠ plus then .ok (v, st)
        else if left = 0 then .error (.error .tooLong st)
        else scanStrings left { st with d := advance st.d } v
    | _ => .error (.fault .argument)

/-- memcpy(&s[dsz], str, n), where both blocks have the bytes. -/
def memcpy (s : Bytes) (dsz : Nat) (str : Bytes) (n : Nat) : Bytes := s.take dsz ++ str.take n ++ s.drop (dsz + n)

/-- The copies of the strings, from the last one. A write out of s is told before a read out of a string. -/
def copyStrings : List (Option Bytes × UInt64) → UInt64 → Bytes → Except Fault Bytes
  | [], _, s => .ok s
  | (str, n) :: strs, dsz, s =>
    if n = 0 then copyStrings strs dsz s
    else if s.length < (dsz - n).toNat + n.toNat then .error .write
    else
      (copyStrings strs (dsz - n) (memcpy s (dsz - n).toNat (str.getD []) n.toNat)).bind fun s =>
        if (str.getD []).length < n.toNat then .error .read else .ok s

variable (strings : StringMaker)

/-- An allocation; the flag tells whether the memory suffices. -/
def alloc (st : PackState D) : Bool × PackState D :=
  match st.mem with
  | [] => (true, st)
  | ok :: mem => (ok, { st with mem })

/-- A new object, or NULL. -/
def newObject (st : PackState D) (obj : Option (JsonObject D)) :
    Except (Stop (PackState D)) (JsonObject D × PackState D) :=
  match obj, alloc st with
  | some obj, (true, st) => .ok (obj, st)
  | _, (_, st) => .error (.error .outOfMemory st)

def newString (st : PackState D) (s : Bytes) (len : Int32) :
    Except (Stop (PackState D)) (JsonObject D × PackState D) :=
  newObject st ((strings.newStringLen s len).map JsonObject.string)

def packString (st : PackState D) : Except (Stop (PackState D)) (JsonObject D × PackState D) :=
  (scanStrings STRCOUNT st ⟨[], 0, false, false⟩).bind fun (v, st) =>
    if v.notnull then
      let scratch := st.scratch.reserve v.sz
      match copyStrings v.strs v.sz scratch.s with
      | .ok s => newString strings { st with scratch := { scratch with s } } s v.sz.toUInt32.toInt32
      | .error f => .error (.fault f)
    else if v.nullable ∨ cur st.d = star then .ok (.null, st)
    else .error (.error .nullString st)

def packObject (st : PackState D) : Except (Stop (PackState D)) (JsonObject D × PackState D) :=
  match st.args with
  | .object o :: args =>
    if cur st.d = question then .ok (o, { st with d := advance st.d, args })
    else if cur st.d ≠ star ∧ o.isNull then .error (.error .nullObject { st with args })
    else .ok (o, { st with args })
  | _ => .error (.fault .argument)

/-- The text of the bytes, or NULL. -/
def encodeBytes (st : PackState D) (p : Option Bytes) (n : UInt64) (url : Bool) :
    Except (Stop (PackState D)) (JsonObject D × PackState D) :=
  match p with
  | none => .ok (.null, st)
  | some m =>
    if n = 0 then .ok (.null, st)
    else if m.length < n.toNat then .error (.fault .read)
    else if (alloc st).1 = false then .error (.error .outOfMemory (alloc st).2)
    else
      let st := (alloc st).2
      match encodeBase64 (m.take n.toNat) 0 false url with
      | some (out, outsz) => newString strings st out (Int32.ofNat outsz)
      | none => .error (.fault .read)

def packBytes (st : PackState D) (url : Bool) :
    Except (Stop (PackState D)) (JsonObject D × PackState D) :=
  match st.args with
  | .pointer p :: .size n :: args =>
    (encodeBytes strings { st with args } p n url).bind fun (obj, st) =>
      if cur st.d = question then .ok (obj, { st with d := advance st.d })
      else if cur st.d ≠ star ∧ obj.isNull then newString strings st st.d 0
      else .ok (obj, st)
  | _ => .error (.fault .argument)

def PackFrame.update (top : PackFrame D) (add : JsonObject D → JsonObject D) : PackFrame D :=
  { top with cont := top.cont.map fun h => ⟨h.ref, add h.obj⟩ }

/-- The second switch of the loop: where the object goes. -/
def packStore (st : PackState D) (obj : JsonObject D) :
    Except (Stop (PackState D)) (PackState D ⊕ JsonObject D) :=
  match st.stack with
  | [] => .error (.error .internalError st)
  | top :: below =>
    let d := if cur st.d = star then advance st.d else st.d
    let added := !obj.isNull || cur st.d ≠ star
    if top.type = 0 then
      if below ≠ [] then .error (.error .internalError st)
      else if cur st.d ≠ 0 then .error (.error .invalidCharacter st)
      else .ok (.inr obj)
    else if top.type = rbracket then
      let top := if added then top.update (·.arrayAdd obj) else top
      .ok (.inl { st with d, stack := top :: below })
    else if top.type = rbrace then
      if obj.isNull then .error (.error .nullKey st)
      else
        let ref := st.events.length
        let top := { top with key := some ⟨ref, obj⟩, acc := packAcceptAny, type := colon }
        .ok (.inl { st with stack := top :: below, events := st.events ++ [.hold ref] })
    else if top.type = colon then
      let name := (top.key.elim .null Held.obj).getString
      let cont := if added then top.update (·.objectAdd name obj) else top
      let events := st.events ++ dropped top.key
      let top := { cont with key := none, acc := packAcceptKey, type := rbrace }
      .ok (.inl { st with d, stack := top :: below, events })
    else .error (.error .internalError st)

/-- The slot for an opening character. -/
def openedFrame (c : UInt8) (cont : Option (Held D)) : PackFrame D :=
  if c = lbracket then ⟨cont, none, packAcceptArr, rbracket⟩ else ⟨cont, none, packAcceptKey, rbrace⟩

def newContainer (c : UInt8) : JsonObject D := if c = lbracket then .array [] else .object []

def packOpen (st : PackState D) (c : UInt8) : Except (Stop (PackState D)) (PackState D) :=
  if st.stack.length < STACKCOUNT then
    let ref := st.events.length
    match alloc st with
    | (true, st) =>
      let top := openedFrame c (some ⟨ref, newContainer c⟩)
      .ok { st with stack := top :: st.stack, events := st.events ++ [.hold ref] }
    | (false, st) => .error (.error .outOfMemory { st with stack := openedFrame c none :: st.stack })
  else .error (.error .tooDeep st)

def packClose (st : PackState D) (c : UInt8) :
    Except (Stop (PackState D)) (JsonObject D × PackState D) :=
  match st.stack with
  | top :: frame :: below =>
    if c ≠ top.type then .error (.error .internalError st)
    else
      let cont := top.cont.elim .null Held.obj
      let obj := if cur st.d = star ∧ cont.length = 0 then .null else cont
      .ok (obj, { st with stack := frame :: below, events := st.events ++ dropped top.cont })
  | _ => .error (.error .internalError st)

/-- The first switch of the loop, but for the opening characters. -/
def packItem (st : PackState D) (c : UInt8) :
    Except (Stop (PackState D)) (JsonObject D × PackState D) :=
  if c = lowerS then packString strings st
  else if c = lowerN then .ok (.null, st)
  else if c = lowerB then
    match st.args with
    | .int i :: args => newObject { st with args } (some (.boolean i))
    | _ => .error (.fault .argument)
  else if c = lowerI then
    match st.args with
    | .int i :: args => newObject { st with args } (some (.int i.toInt64))
    | _ => .error (.fault .argument)
  else if c = upperI then
    match st.args with
    | .int64 i :: args => newObject { st with args } (some (.int i))
    | _ => .error (.fault .argument)
  else if c = lowerF then
    match st.args with
    | .double x :: args => newObject { st with args } (some (.double x))
    | _ => .error (.fault .argument)
  else if c = lowerO ∨ c = upperO then packObject st
  else if c = lowerY ∨ c = upperY then packBytes strings st (c = lowerY)
  else if c = rbrace ∨ c = rbracket then packClose st c
  else .error (.error .internalError st)

def packStep (st : PackState D) : Except (Stop (PackState D)) (PackState D ⊕ JsonObject D) :=
  match st.stack with
  | [] => .error (.error .internalError st)
  | top :: _ =>
    let c := cur st.d
    if c = 0 then .error (.error .truncated st)
    else if c ∉ top.acc then .error (.error .invalidCharacter st)
    else
      let st := { st with d := advance st.d }
      if c = lbracket ∨ c = lbrace then (packOpen st c).map .inl
      else (packItem strings st c).bind fun (obj, st) => packStore st obj

/-- The buffer of the function, and the first slot. -/
def packStart (desc : Bytes) (args : List (PackArg D)) (mem : List Bool) : PackState D :=
  ⟨skip desc, args, ⟨256, List.replicate 256 0⟩, [⟨none, none, packAcceptAny, 0⟩], mem, []⟩

/-- The loop, that reads a character of the descriptor each time. -/
def packRun (desc : Option Bytes) (args : List (PackArg D)) (mem : List Bool) :
    Option (Except (Stop (PackState D)) (JsonObject D)) :=
  match desc with
  | none => some (.error (.error .nullSpec (packStart [] args mem)))
  | some desc => iterate (packStep strings) (desc.length + 1) (packStart desc args mem)

/-- The end of a call: the value returned and *result, or what C gives no meaning to. -/
inductive PackResult (D : Type) where
  | done (rc : Int32) (result : JsonObject D)
  | fault (f : Fault)

def wrapJsonVpack (desc : Option Bytes) (args : List (PackArg D)) (mem : List Bool) :
    Option (PackResult D) :=
  (packRun strings desc args mem).map fun
    | .ok obj => .done 0 obj
    | .error (.error e st) => .done (e.rc ((desc.getD []).length - st.d.length)) .null
    | .error (.fault f) => .fault f

end

end AfbBinder.WrapJson
