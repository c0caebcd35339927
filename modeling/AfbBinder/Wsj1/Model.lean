import AfbBinder.Lib.Json
import AfbBinder.Websock.Frames

/-! The messages of afb_wsj1: the texts that are sent, and how a text received is scanned and
split in place. -/
namespace AfbBinder.Wsj1
open Lib.Cstrings Lib.Json Websock

inductive Code where
  | call
  | retok
  | reterr
  | event
  deriving DecidableEq, Repr

def Code.toNat : Code → Nat
  | .call => 2
  | .retok => 3
  | .reterr => 4
  | .event => 5

/-! Sending. -/

/-- The texts before the NULL of a variable list of them. -/
def texts : List (Option Bytes) → List Bytes
  | some s :: args => s :: texts args
  | _ => []

/-- The text that is sent, none for an error. -/
def afbWsTexts (connected : Bool) (args : List (Option Bytes)) : Option Bytes :=
  if !connected then none
  else if 32 < (texts args).length then none
  else (websockSendV 1 0 0 0 OPCODE_TEXT (texts args)).map fun _ => (texts args).flatten

def codeText (i1 : Code) : Bytes := [UInt8.ofNat (0x30 + i1.toNat)]

def wsj1SendIsot (connected : Bool) (i1 : Code) (s1 : Bytes) (o1 t1 : Option Bytes) : Option Bytes :=
  afbWsTexts connected [some (ascii "["), some (codeText i1), some (ascii ",\""), some s1,
    some (ascii "\","), some (o1.getD (ascii "null")),
    some (if t1.isSome then ascii ",\"" else ascii "]"), t1, some (ascii "\"]")]

def wsj1SendIssot (connected : Bool) (i1 : Code) (s1 s2 : Bytes) (o1 t1 : Option Bytes) : Option Bytes :=
  afbWsTexts connected [some (ascii "["), some (codeText i1), some (ascii ",\""), some s1,
    some (ascii "\",\""), some s2, some (ascii "\","), some (o1.getD (ascii "null")),
    some (if t1.isSome then ascii ",\"" else ascii "]"), t1, some (ascii "\"]")]

/-! Scanning. A NUL follows the text. -/

def charAt (text : Bytes) (pos : Nat) : UInt8 := text.getD pos 0

def skipBlanks (text : Bytes) (pos : Nat) : Nat := pos + ((text.drop pos).takeWhile (· = blank)).length

/-- Where the scan of an item is: outside of strings, inside of one, after a backslash. -/
inductive Mode where
  | out
  | str
  | esc
  deriving DecidableEq, Repr

/-- The size of an item, up to the comma or the bracket that ends it, none for a bad scan. aux
counts the brackets and the braces that are open. -/
def itemSize : Mode → Nat → Bytes → Option Nat
  | _, _, [] => none
  | .out, aux, c :: t =>
    if aux = 0 ∧ (c = comma ∨ c = rbracket) then some 0
    else if c = lbrace ∨ c = lbracket then (itemSize .out (aux + 1) t).map (· + 1)
    else if c = rbrace ∨ c = rbracket then
      if aux ≠ 0 then (itemSize .out (aux - 1) t).map (· + 1) else none
    else if c = 0 then none
    else if c = quote then (itemSize .str aux t).map (· + 1)
    else (itemSize .out aux t).map (· + 1)
  | .str, aux, c :: t =>
    if c = backslash then (itemSize .esc aux t).map (· + 1)
    else if c = 0 then none
    else if c = quote then (itemSize .out aux t).map (· + 1)
    else (itemSize .str aux t).map (· + 1)
  | .esc, aux, c :: t => if c ≠ 0 then (itemSize .str aux t).map (· + 1) else none

/-- The blanks at the end of an item are not of it. -/
def trimmed (item : Bytes) : Nat := (item.reverse.dropWhile (· = blank)).length

/-- The items from a position on, with their sizes, and the position of the last bracket. -/
def scanItems (text : Bytes) : Nat → Nat → Option (List (Nat × Nat) × Nat)
  | 0, _ => none
  | n + 1, pos =>
    (itemSize .out 0 (text.drop pos)).bind fun size =>
      let item := (pos, trimmed ((text.drop pos).take size))
      if charAt text (pos + size) = rbracket then some ([item], pos + size)
      else (scanItems text n (skipBlanks text (pos + size + 1))).map fun r => (item :: r.1, r.2)

def wsj1MsgScan (text : Bytes) : Option (List (Nat × Nat)) :=
  let pos := skipBlanks text 0
  if charAt text pos ≠ lbracket then none
  else
    let pos := skipBlanks text (pos + 1)
    let list := if charAt text pos ≠ rbracket then scanItems text 10 pos else some ([], pos)
    list.bind fun r => if charAt text (skipBlanks text (r.2 + 1)) ≠ 0 then none else some r.1

/-! Splitting. -/

def wsj1MsgParseExtract (text : Bytes) (item : Nat × Nat) : Bytes × Nat :=
  (text.set (item.1 + item.2) 0, item.1)

def wsj1MsgParseString (text : Bytes) (item : Nat × Nat) : Bytes × Nat :=
  if item.2 > 1 ∧ charAt text item.1 = quote then wsj1MsgParseExtract text (item.1 + 1, item.2 - 2)
  else wsj1MsgParseExtract text item

/-- The string at an address. -/
def cstr (text : Bytes) (pos : Nat) : Bytes := (text.drop pos).takeWhile (· ≠ 0)

def strchr (text : Bytes) (pos : Nat) (c : UInt8) : Option Nat :=
  if c ∈ cstr text pos then some (pos + (cstr text pos).idxOf c) else none

/-- A message: its strings are addresses in its text. -/
structure Msg where
  text : Bytes
  code : Code
  id : Option Nat
  api : Option Nat
  verb : Option Nat
  event : Option Nat
  objectS : Nat
  objectSLength : Nat
  token : Option Nat
  deriving DecidableEq, Repr

def codeOf (c : UInt8) : Option Code :=
  if c = 0x32 then some .call
  else if c = 0x33 then some .retok
  else if c = 0x34 then some .reterr
  else if c = 0x35 then some .event
  else none

/-- CALL. -/
def makeCall (text : Bytes) (items : List (Nat × Nat)) : Option Msg :=
  let n := items.length
  let item (i : Nat) := items.getD i (0, 0)
  if n ≠ 4 ∧ n ≠ 5 then none
  else
    let id := wsj1MsgParseString text (item 1)
    let api := wsj1MsgParseString id.1 (item 2)
    (strchr api.1 api.2 slash).bind fun pos =>
      let text := api.1.set pos 0
      let verb := pos + 1
      if charAt text verb = 0 ∨ charAt text verb = slash then none
      else
        let object := wsj1MsgParseExtract text (item 3)
        let token := if n = 5 then some (wsj1MsgParseString object.1 (item 4)) else none
        some {
          text := (token.map Prod.fst).getD object.1
          code := .call
          id := some id.2
          api := some api.2
          verb := some verb
          event := none
          objectS := object.2
          objectSLength := (item 3).2
          token := token.map Prod.snd }

/-- RETOK and RETERR. -/
def makeReply (code : Code) (text : Bytes) (items : List (Nat × Nat)) : Option Msg :=
  let n := items.length
  let item (i : Nat) := items.getD i (0, 0)
  if n ≠ 3 ∧ n ≠ 4 then none
  else
    let id := wsj1MsgParseString text (item 1)
    let object := wsj1MsgParseExtract id.1 (item 2)
    let token := if n = 5 then some (wsj1MsgParseString object.1 (item 3)) else none
    some {
      text := (token.map Prod.fst).getD object.1
      code := code
      id := some id.2
      api := none
      verb := none
      event := none
      objectS := object.2
      objectSLength := (item 2).2
      token := token.map Prod.snd }

/-- EVENT. -/
def makeEvent (text : Bytes) (items : List (Nat × Nat)) : Option Msg :=
  let item (i : Nat) := items.getD i (0, 0)
  if items.length ≠ 3 then none
  else
    let event := wsj1MsgParseString text (item 1)
    let object := wsj1MsgParseExtract event.1 (item 2)
    some {
      text := object.1
      code := .event
      id := none
      api := none
      verb := none
      event := some event.2
      objectS := object.2
      objectSLength := (item 2).2
      token := none }

/-- None for a bad header. Without items the first one has no meaning, and their number is
refused whatever it is. -/
def wsj1MsgMake (text : Bytes) : Option Msg :=
  (wsj1MsgScan text).bind fun items =>
    let item := items.getD 0 (0, 0)
    if item.2 ≠ 1 then none
    else
      (codeOf (charAt text item.1)).bind fun code =>
        match code with
        | .call => makeCall text items
        | .retok => makeReply .retok text items
        | .reterr => makeReply .reterr text items
        | .event => makeEvent text items

end AfbBinder.Wsj1
