import AfbBinder.Lib.Scanf

/-! Credentials of a peer and their text, that goes with the requests made on its behalf. -/
namespace AfbBinder.Creds
open Lib.Cstrings Lib.Scanf

abbrev dash : UInt8 := 45
abbrev colon : UInt8 := 58

structure Cred where
  refcount : Nat
  uid : UInt32
  gid : UInt32
  pid : Int32
  user : Bytes
  label : Bytes
  id : Bytes
  exported : Option Bytes
  deriving DecidableEq, Repr

def EINVAL : Nat := 22
def ENOMEM : Nat := 12

/-- The loop on the digits of the uid, the least first; room is that of the buffer. -/
def userDigits : Nat → UInt32 → Bytes
  | 0, _ => []
  | room + 1, u => (48 + (u % 10).toUInt8) :: if u / 10 ≠ 0 then userDigits room (u / 10) else []

def userText (uid : UInt32) : Bytes := (userDigits 64 uid).reverse

/-- The text after the last colon, all of it without colon. -/
def idText (label : Bytes) : Bytes := (label.reverse.takeWhile (· ≠ colon)).reverse

/-- None when the memory lacks. -/
def mkcred (uid gid : UInt32) (pid : Int32) (label : Bytes) (mem : Bool) : Option Cred :=
  if mem then some ⟨1, uid, gid, pid, userText uid, label, idText label, none⟩ else none

def DEFAULT_PEERSEC_LABEL : Bytes := [78, 111, 76, 97, 98, 101, 108]

def afbCredCreate (uid gid : UInt32) (pid : Int32) (label : Option Bytes) (mem : Bool) :
    Option Cred :=
  mkcred uid gid pid (label.getD DEFAULT_PEERSEC_LABEL) mem

def INT_MAX : Nat := 2147483647

/-- The text of the format %x:%x:%x-%s. -/
def exportText (uid gid : UInt32) (pid : Int32) (label : Bytes) : Bytes :=
  hexText uid.toNat ++ colon :: (hexText gid.toNat ++ colon ::
    (hexText pid.toUInt32.toNat ++ dash :: label))

/-- The text is made once; asprintf counts its length in an int. -/
def afbCredExport (c : Cred) (mem : Bool) : Option Bytes × Cred :=
  match c.exported with
  | some text => (some text, c)
  | none =>
    let text := exportText c.uid.toInt32.toUInt32 c.gid.toInt32.toUInt32 c.pid c.label
    if mem = true ∧ text.length ≤ INT_MAX then (some text, { c with exported := some text })
    else (none, c)

/-- The directives of %x:%x:%x-%n. -/
def importFormat : List Directive :=
  [.hex, .literal colon, .hex, .literal colon, .hex, .literal dash, .count]

/-- What an import gives: NULL and an error, a credential, or what the source says nothing of,
for the variable pos is read and was not set. -/
inductive Imported where
  | null (errno : Nat)
  | cred (c : Cred)
  | undefined
  deriving DecidableEq, Repr

/-- The string is given without its end; lax tells how the library reads 0x alone. -/
def afbCredImport (lax : Bool) (string : Bytes) (mem : Bool) : Imported :=
  let r := sscanf lax string importFormat
  match r.values with
  | [uid, gid, pid] =>
    match r.counts with
    | pos :: _ =>
      match afbCredCreate uid.toInt32.toUInt32 gid.toInt32.toUInt32 pid.toInt32
          (some (string.drop pos)) mem with
      | some c => .cred c
      | none => .null ENOMEM
    | [] => .undefined
  | _ => .null EINVAL

def afbCredAddref (c : Option Cred) : Option Cred :=
  c.map fun c => { c with refcount := c.refcount + 1 }

/-- The credential used for a request: none of pos set is undefined again. Permission is the
answer of afb_cred_has_permission. -/
def afbCredMixedOnBehalfImport (lax : Bool) (cred : Option Cred) (exported : Option Bytes)
    (permission mem : Bool) : Option (Option Cred) :=
  match exported with
  | some string =>
    if permission then
      match afbCredImport lax string mem with
      | .cred c => some (some c)
      | .null _ => some (afbCredAddref cred)
      | .undefined => none
    else some (afbCredAddref cred)
  | none => some (afbCredAddref cred)

end AfbBinder.Creds
