import AfbBinder.HookFlags.Known
import AfbBinder.Trace.Drops

/-! What the descriptions of an add request ask for, with those under for, which inherit the fields
of the outer ones. -/
namespace AfbBinder.Trace
open Lib.Cstrings Lib.Words WrapJson HookFlags
open Lib.Json (ascii)

/-- The flags that a text is for. -/
def meant (type : TraceType) (text : Bytes) : BitVec 32 :=
  orAll ((words sep text).filterMap (known type.table))

/-- The flags that a text gives. -/
def given (type : TraceType) (text : Bytes) : BitVec 32 :=
  fromText (some (if text = ascii "*" then ascii "all" else text)) type.table.flags

def TraceType.key : TraceType → Bytes
  | .xreq => ascii "request"
  | .api => ascii "api"
  | .evt => ascii "event"
  | .session => ascii "session"
  | .global => ascii "global"
  | .ditf => ascii "daemon"
  | .svc => ascii "service"

/-- A description with what it inherits; it is divided when it has descriptions under for. -/
structure Wish where
  desc : Desc
  texts : TraceType → List Bytes
  divided : Bool

def noWish : Wish := ⟨noDesc, fun _ => [], false⟩

/-- More names for a type. -/
def Wish.tells (outer : Wish) (type : TraceType) (names : List Bytes) : Wish :=
  { outer with texts := Function.update outer.texts type (outer.texts type ++ names) }

section
variable {D : Type}

/-- A wish with the fields of an object, or with names for the requests. -/
def Wish.reads (outer : Wish) : Json D → Wish
  | .object members =>
    match unpackStrings members stringKeys outer.desc with
    | (desc, true) =>
      { outer with
        desc := { desc with
          apiname := replaceStar desc.apiname
          verbname := replaceStar desc.verbname
          uuid := replaceStar desc.uuid }
        texts := fun type => outer.texts type ++ strings (field type.key members) }
    | _ => outer
  | object => outer.tells .xreq ((optarray object).filterMap unpackString)

/-- The strings of an object have the expected type. -/
def unpacks (members : List (Bytes × Json D)) : Bool := (unpackStrings members stringKeys noDesc).2

mutual

/-- A description and those that are under it. -/
def descriptions (outer : Wish) : Json D → List Wish
  | .object members =>
    let own := outer.reads (.object members)
    match if unpacks members then nested own members else none with
    | none => [own]
    | some inner => { own with divided := true } :: inner
  | object => [outer.reads object]

def nested (own : Wish) : List (Bytes × Json D) → Option (List Wish)
  | [] => none
  | (key, object) :: members =>
    if key = ascii "for" then
      match object with
      | .null => none
      | .array items => some (allDescriptions own items)
      | object => some (descriptions own object)
    else nested own members

def allDescriptions (outer : Wish) : List (Json D) → List Wish
  | [] => []
  | item :: items => descriptions outer item ++ allDescriptions outer items

end

/-- The descriptions of a request. -/
def requested (args : Json D) : List Wish := allDescriptions noWish (optarray args)

def unnested : Json D → Json D
  | .object members => .object (members.filter fun m => m.1 ≠ ascii "for")
  | object => object

/-- The request without what is under for. -/
def withoutFor : Json D → Json D
  | .array items => .array (items.map unnested)
  | object => unnested object

end

/-- The flags of the traces of daemons and of services are flags of the api. -/
def joined (flags : TraceType → BitVec 32) : TraceType → BitVec 32
  | .api => flags .api ||| (flags .ditf ||| flags .svc)
  | .ditf => 0
  | .svc => 0
  | type => flags type

/-- What add does with the flags that it has read. -/
def Desc.joins (desc : Desc) : Desc := { desc with flags := joined desc.flags }

/-- A description with the flags of its texts. -/
def Wish.described (wish : Wish) (value : TraceType → Bytes → BitVec 32) : Desc :=
  { wish.desc with flags := fun type => orAll ((wish.texts type).map (value type)) }

def Desc.origin (desc : Desc) : Origin :=
  ⟨desc.name.getD DEFAULT_EVENT_NAME, desc.tag.getD DEFAULT_TAG_NAME, desc.uuid⟩

/-- A hook but for its session and its records. -/
abbrev Shown := Origin × Handler

def Handler.sessionless : Handler → Handler
  | .xreq apiname verbname _ flags => .xreq apiname verbname none flags
  | handler => handler

def Hook.shown (hook : Hook) : Shown := (hook.origin, hook.handler.sessionless)

/-- The hook of the type that a description asks for, if it has flags. -/
def Desc.hook (desc : Desc) (type : TraceType) : Option Shown :=
  if desc.flags type = 0 then none else (newHandler desc none type).map (desc.origin, ·)

def Wish.hook (wish : Wish) (value : TraceType → Bytes → BitVec 32) (type : TraceType) :
    Option Shown :=
  (wish.described value).joins.hook type

/-- The hooks of the type that a request asks for, one set for each description that is not
divided. -/
def wanted {D : Type} (args : Json D) (type : TraceType) : List Shown :=
  ((requested args).filter fun wish => !wish.divided).filterMap (·.hook meant type)

/-- Nothing is refused. -/
structure Granted (g : Grants) : Prop where
  hook : g.hook = true
  event : g.event = true
  session : g.session.isSome
  handler : g.handler = true

/-- What an add request is for: the hooks that are installed are those that it asks for, as far as
they are allowed and the memory suffices; the names that are unknown are reported. -/
structure AddsRight {D : Type} (args : Json D) : Prop where
  installs : ∀ grants t te, afbTraceAdd grants args t = some te → ∀ type, ∃ new,
    te.1.hooks type = new ++ t.hooks type ∧ (new.reverse.map Hook.shown).Sublist (wanted args type)
  completes : ∀ grants t, t.bound = none → (∀ i type, Granted (grants i type)) → ∃ te,
    afbTraceAdd grants args t = some te ∧ ∀ type, ∃ new,
      te.1.hooks type = new ++ t.hooks type ∧ new.reverse.map Hook.shown = wanted args type
  reports : ∀ grants t te, afbTraceAdd grants args t = some te → ∀ wish ∈ requested args,
    ∀ type, ∀ text ∈ wish.texts type, ∀ token ∈ words sep text,
      (∀ value, ¬Stands type.table.flags token value) → .unknownName type text ∈ te.2

section
variable {type : TraceType} {text : Bytes}

/-- The flags of the tokens of a text, wherever they are all found. -/
theorem given_eq (h : ∀ token ∈ words sep text, getFlag token type.table.flags ≠ -1) :
    given type text = orAll ((words sep text).map (getFlag · type.table.flags)) := by
  rw [given]
  split
  · rename_i hstar
    have htoken := h (ascii "*") (by rw [hstar, words_star]; exact List.mem_singleton_self _)
    rw [fromText_known, tokens, Option.elim_some, words_all, hstar, words_star, List.map_singleton,
      List.map_singleton, getFlag_all]
    intro token hall
    rw [tokens, Option.elim_some, words_all, List.mem_singleton] at hall
    rw [hall, getFlag_all]
    exact htoken
  · exact fromText_known h

/-- A text of names that are all found. -/
theorem given_found (h : ∀ token ∈ words sep text, Found type.table token) :
    given type text = meant type text := by
  rw [given_eq fun token htoken => (h token htoken).flag_ne, meant, ← List.filterMap_eq_map]
  refine congrArg orAll (List.filterMap_congr fun token htoken => ?_)
  exact (h token htoken).known_eq.symm

theorem given_lost (h : ∃ token ∈ words sep text, ¬Found type.table token) :
    given type text = -1 := by
  obtain ⟨token, htoken, hlost⟩ := h
  have hstar : text ≠ ascii "*" := by
    rintro rfl
    rw [words_star, List.mem_singleton] at htoken
    exact hlost (htoken ▸ found_star _)
  rw [given, if_neg hstar]
  exact fromText_unknown ⟨token, htoken, getFlag_of_not_found hlost⟩

theorem meant_msb (type : TraceType) (text : Bytes) : (meant type text).msb = false := by
  refine foldl_or_msb (fun value hvalue => ?_) rfl
  obtain ⟨token, -, hknown⟩ := List.mem_filterMap.mp hvalue
  exact stands_msb (known_iff.mp hknown)

end

end AfbBinder.Trace
