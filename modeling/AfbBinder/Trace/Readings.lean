import AfbBinder.Trace.Descriptions

/-! What the code reads of a description. -/
namespace AfbBinder.Trace
open Lib.Cstrings Lib.Runs WrapJson HookFlags
open Lib.Json (ascii)

section
variable {D : Type} {desc : Desc} {errors : List Error} {type : TraceType}

/-- The flags of names, added to those of a type. -/
def Desc.gives (desc : Desc) (type : TraceType) (names : List Bytes) : Desc :=
  { desc with
    flags := Function.update desc.flags type
      (names.foldl (fun flags name => flags ||| given type name) (desc.flags type)) }

private theorem Desc.gives_nil : desc.gives type [] = desc := by
  rw [gives, List.foldl_nil, Function.update_eq_self]

private theorem Desc.gives_cons (name : Bytes) (names : List Bytes) :
    desc.gives type (name :: names) = (desc.gives type [name]).gives type names := by
  simp only [gives, List.foldl_cons, List.foldl_nil, Function.update_self, Function.update_idem]

private theorem addFlags_fst (object : Json D) :
    (addFlags type object desc errors).1 = desc.gives type (unpackString object).toList := by
  rw [addFlags]
  cases unpackString object with
  | none => exact Desc.gives_nil.symm
  | some name =>
    change (if given type name ≠ 0 then _ else _ : Desc × List Error).1 = desc.gives type [name]
    split
    · rfl
    · rename_i hzero
      have hsame : desc.flags type ||| given type name = desc.flags type := by
        rw [not_not.mp hzero]
        exact BitVec.or_zero
      rw [Desc.gives, List.foldl_cons, List.foldl_nil, hsame, Function.update_eq_self]

private theorem addAllFlags_fst (objects : List (Json D)) :
    (addAllFlags type objects desc errors).1 = desc.gives type (objects.filterMap unpackString) := by
  rw [addAllFlags]
  induction objects generalizing desc errors with
  | nil => exact Desc.gives_nil.symm
  | cons object objects ih =>
    rw [List.foldl_cons, ih, addFlags_fst, List.filterMap_cons]
    cases unpackString object with
    | none => rw [Option.toList_none, Desc.gives_nil]
    | some name => exact (Desc.gives_cons name _).symm

/-- The names under a key of the object. -/
theorem readKey_fst (members : List (Bytes × Json D)) (d : Desc × List Error) (key : Bytes × TraceType) :
    (match field key.1 members with
      | none => d
      | some objects => addAllFlags key.2 (optarray objects) d.1 d.2).1 =
        d.1.gives key.2 (strings (field key.1 members)) := by
  cases field key.1 members with
  | none => exact Desc.gives_nil.symm
  | some objects => exact addAllFlags_fst (optarray objects)

private theorem readKeys_fst (members : List (Bytes × Json D)) (keys : List (Bytes × TraceType))
    {step : Desc × List Error → Bytes × TraceType → Desc × List Error}
    (hstep : ∀ d key, (step d key).1 = d.1.gives key.2 (strings (field key.1 members)))
    (d : Desc × List Error) :
    (keys.foldl step d).1 =
      keys.foldl (fun desc key => desc.gives key.2 (strings (field key.1 members))) d.1 :=
  (List.foldl_hom Prod.fst fun d key => (hstep d key).symm).symm

/-- From no flags, the flags of each type are those of the names under its key. -/
theorem readKeys_flags (members : List (Bytes × Json D)) (h : desc.flags = fun _ => 0) :
    flagKeys.foldl (fun d key => d.gives key.2 (strings (field key.1 members))) desc =
      { desc with
        flags := fun type => orAll ((strings (field type.key members)).map (given type)) } := by
  simp only [flagKeys, List.foldl_cons, List.foldl_nil, Desc.gives, h]
  congr 1
  funext type
  rw [orAll, List.foldl_map]
  cases type <;> rfl

private theorem unpackStrings_flags (members : List (Bytes × Json D))
    {keys : List (Bytes × (Bytes → Desc → Desc))}
    (hkeys : ∀ key ∈ keys, ∀ s desc, (key.2 s desc).flags = desc.flags) :
    (unpackStrings members keys desc).1.flags = desc.flags := by
  induction keys generalizing desc with
  | nil => rfl
  | cons key keys ih =>
    have hrest := fun k hk => hkeys k (List.mem_cons_of_mem _ hk)
    rw [unpackStrings]
    split
    · exact ih hrest
    · split
      · rfl
      · rw [ih hrest, hkeys key List.mem_cons_self]

private theorem stringKeys_flags : ∀ key ∈ stringKeys, ∀ s desc, (key.2 s desc).flags = desc.flags := by
  simp [stringKeys]

private theorem noDesc_gives (names : List Bytes) :
    noDesc.gives .xreq names = (noWish.tells .xreq names).described given := by
  have hflags : (noDesc.gives .xreq names).flags =
      ((noWish.tells .xreq names).described given).flags := by
    funext type
    cases type with
    | xreq =>
      change names.foldl _ _ = orAll (names.map (given .xreq))
      rw [orAll, List.foldl_map]
      rfl
    | _ => rfl
  exact congrArg (fun flags => { noDesc with flags }) hflags

/-- The hooks that the code makes of a description are those of its own fields: it never reads
what is under for. -/
theorem readDesc_hook (item : Json D) (errors : List Error) (type : TraceType) :
    (readDesc item noDesc errors).1.joins.hook type = (noWish.reads item).hook given type := by
  have hother : (addAllFlags .xreq (optarray item) noDesc errors).1 = Wish.described
      (noWish.tells .xreq ((optarray item).filterMap unpackString)) given := by
    rw [addAllFlags_fst, noDesc_gives]
  cases item with
  | object members =>
    have hflags : (unpackStrings members stringKeys noDesc).1.flags = noDesc.flags :=
      unpackStrings_flags members stringKeys_flags
    cases hread : unpackStrings members stringKeys noDesc with
    | mk desc ok =>
      have hwish : unpackStrings members stringKeys noWish.desc = (desc, ok) := hread
      rw [hread] at hflags
      simp only [readDesc, unpackDesc, Wish.reads, hread, hwish]
      cases ok with
      | true =>
        refine congrArg (fun desc : Desc => desc.joins.hook type) ?_
        exact (readKeys_fst members flagKeys (readKey_fst members) _).trans
          (readKeys_flags members hflags)
      | false =>
        have hnone : (addAllFlags .xreq (optarray (Json.object members)) desc errors).1 = desc := by
          rw [addAllFlags_fst]
          exact Desc.gives_nil
        dsimp only
        rw [hnone, Desc.hook, Wish.hook, Desc.hook, Desc.joins, Desc.joins, hflags]
        cases type <;> rfl
  | array items => exact congrArg (fun desc : Desc => desc.joins.hook type) hother
  | null => exact congrArg (fun desc : Desc => desc.joins.hook type) hother
  | boolean b => exact congrArg (fun desc : Desc => desc.joins.hook type) hother
  | double d => exact congrArg (fun desc : Desc => desc.joins.hook type) hother
  | int i => exact congrArg (fun desc : Desc => desc.joins.hook type) hother
  | string s => exact congrArg (fun desc : Desc => desc.joins.hook type) hother

/-- A name is reported when it gives no flag. -/
def Honest (errors : List Error) : Prop :=
  ∀ type name, Error.unknownName type name ∈ errors → given type name = 0

private theorem honest_addFlags (object : Json D) (h : Honest errors) :
    Honest (addFlags type object desc errors).2 := by
  rw [addFlags]
  split
  · intro other name hmem
    rcases List.mem_append.mp hmem with hmem | hmem
    · exact h other name hmem
    · simp at hmem
  · rename_i name hname
    change Honest (if given type name ≠ 0 then _ else _ : Desc × List Error).2
    split
    · exact h
    · rename_i hzero
      intro other text hmem
      rcases List.mem_append.mp hmem with hmem | hmem
      · exact h other text hmem
      · cases List.mem_singleton.mp hmem
        exact not_not.mp hzero

private theorem honest_addAllFlags (objects : List (Json D)) (h : Honest errors) :
    Honest (addAllFlags type objects desc errors).2 :=
  foldl_keeps (I := fun d : Desc × List Error => Honest d.2)
    (fun _ object hd => honest_addFlags object hd) objects h

theorem honest_readDesc (item : Json D) (h : Honest errors) :
    Honest (readDesc item desc errors).2 := by
  unfold readDesc
  split
  · refine foldl_keeps (I := fun d : Desc × List Error => Honest d.2) (fun d key hd => ?_) flagKeys h
    split
    · exact hd
    · exact honest_addAllFlags _ hd
  · exact honest_addAllFlags _ h

end

end AfbBinder.Trace
