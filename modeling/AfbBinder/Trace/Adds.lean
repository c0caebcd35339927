import AfbBinder.Trace.Installs

/-! The descriptions of a request, those that it has without the nested ones, and what is installed
against what they ask for. -/
namespace AfbBinder.Trace
open Lib.Cstrings Lib.Words WrapJson HookFlags
open Lib.Json (ascii)

section
variable {D : Type} {outer wish : Wish} {args item : Json D} {type : TraceType}

/-- A description is the first of those that it makes. -/
theorem descriptions_head (outer : Wish) (item : Json D) :
    ∃ wish ∈ descriptions outer item, wish.texts = (outer.reads item).texts := by
  unfold descriptions
  split
  · dsimp only
    split
    · exact ⟨_, List.mem_singleton_self _, rfl⟩
    · exact ⟨_, List.mem_cons_self, rfl⟩
  · exact ⟨_, List.mem_singleton_self _, rfl⟩

private theorem allDescriptions_eq (outer : Wish) (items : List (Json D)) :
    allDescriptions outer items = items.flatMap (descriptions outer) := by
  induction items with
  | nil => rw [allDescriptions, List.flatMap_nil]
  | cons item items ih => rw [allDescriptions, List.flatMap_cons, ih]

private theorem nested_none (own : Wish) {members : List (Bytes × Json D)}
    (h : ∀ m ∈ members, m.1 ≠ ascii "for") : nested own members = none := by
  induction members with
  | nil => rw [nested]
  | cons m members ih =>
    obtain ⟨key, object⟩ := m
    unfold nested
    rw [if_neg (h _ List.mem_cons_self)]
    exact ih fun m hm => h m (List.mem_cons_of_mem _ hm)

private theorem objectGet_unnested {key : Bytes} (hkey : key ≠ ascii "for") (members : List (Bytes × Json D)) :
    objectGet key (members.filter fun m => m.1 ≠ ascii "for") = objectGet key members := by
  induction members with
  | nil => rfl
  | cons m members ih =>
    obtain ⟨name, object⟩ := m
    by_cases hname : name = ascii "for"
    · rw [List.filter_cons_of_neg (by simpa using hname), ih, objectGet,
        if_neg fun heq => hkey (heq.symm.trans hname)]
    · rw [List.filter_cons_of_pos (by simpa using hname), objectGet, objectGet, ih]

private theorem unpackStrings_unnested (members : List (Bytes × Json D)) {desc : Desc}
    {keys : List (Bytes × (Bytes → Desc → Desc))} (hkeys : ∀ key ∈ keys, key.1 ≠ ascii "for") :
    unpackStrings (members.filter fun m => m.1 ≠ ascii "for") keys desc =
      unpackStrings members keys desc := by
  induction keys generalizing desc with
  | nil => rfl
  | cons key keys ih =>
    have hrest := fun k hk => hkeys k (List.mem_cons_of_mem _ hk)
    rw [unpackStrings, unpackStrings, objectGet_unnested (hkeys key List.mem_cons_self)]
    split
    · exact ih hrest
    · split
      · rfl
      · exact ih hrest

private theorem key_ne (type : TraceType) : type.key ≠ ascii "for" := by
  cases type <;> decide

private theorem reads_unnested (outer : Wish) (item : Json D) :
    outer.reads (unnested item) = outer.reads item := by
  cases item with
  | object members =>
    have hkeys : ∀ key ∈ stringKeys, key.1 ≠ ascii "for" := by decide
    have hfield : ∀ type : TraceType, field type.key (members.filter fun m => m.1 ≠ ascii "for") =
        field type.key members := fun type => by rw [field, field, objectGet_unnested (key_ne type)]
    rw [unnested, Wish.reads, Wish.reads, unpackStrings_unnested members hkeys]
    simp only [hfield]
  | _ => rfl

private theorem descriptions_unnested (outer : Wish) (item : Json D) :
    descriptions outer (unnested item) = [outer.reads item] := by
  rw [← reads_unnested]
  cases item with
  | object members =>
    have hnone : nested (outer.reads (unnested (.object members)))
        (members.filter fun m => m.1 ≠ ascii "for") = none :=
      nested_none _ fun m hm => of_decide_eq_true (List.mem_filter.mp hm).2
    rw [unnested, descriptions]
    rw [unnested] at hnone
    rw [hnone, ite_self]
  | _ => rfl

private theorem requested_withoutFor (args : Json D) :
    requested (withoutFor args) = (optarray args).map noWish.reads := by
  have hitems : optarray (withoutFor args) = (optarray args).map unnested := by
    cases args <;> rfl
  rw [requested, allDescriptions_eq, hitems, List.flatMap_map, List.flatMap_congr
    fun item _ => descriptions_unnested noWish item]
  exact List.flatMap_pure_eq_map _ _

/-- The names of all the descriptions are known, those of the outer ones are also found, and the
request asks for the same hooks without its nested descriptions. -/
structure Plain (args : Json D) : Prop where
  known : ∀ wish ∈ requested args, ∀ type, ∀ text ∈ wish.texts type, ∀ token ∈ words sep text,
    ∃ value, Stands type.table.flags token value
  kept : ∀ wish ∈ requested (withoutFor args), ∀ type, ∀ text ∈ wish.texts type,
    ∀ token ∈ words sep text, ∀ name ∈ type.table.lost, ¬Alike token name
  same : ∀ type, wanted (withoutFor args) type = wanted args type

private theorem reads_divided (outer : Wish) (item : Json D) : (outer.reads item).divided = outer.divided := by
  unfold Wish.reads
  split
  · split
    · rfl
    · rfl
  · rfl

private theorem wanted_withoutFor (args : Json D) (type : TraceType) : wanted (withoutFor args) type =
    (optarray args).filterMap fun item => (noWish.reads item).hook meant type := by
  have hall : ((optarray args).map noWish.reads).filter (fun wish => !wish.divided) =
      (optarray args).map noWish.reads := by
    refine List.filter_eq_self.mpr fun wish hwish => ?_
    obtain ⟨item, -, rfl⟩ := List.mem_map.mp hwish
    rw [reads_divided]
    rfl
  rw [wanted, requested_withoutFor, hall, List.filterMap_map]
  rfl

/-- The flags of a hook. -/
def Handler.flags : Handler → BitVec 32
  | .xreq _ _ _ flags => flags
  | .api _ flags => flags
  | .evt _ flags => flags
  | .session _ flags => flags
  | .global flags => flags

private theorem newHandler_flags {desc : Desc} {session : Option SessionId} {handler : Handler}
    (h : newHandler desc session type = some handler) : handler.flags = desc.flags type := by
  cases type with
  | ditf => cases h
  | svc => cases h
  | _ =>
    cases h
    rfl

private theorem Desc.hook_flags {desc : Desc} {shown : Shown} (h : desc.hook type = some shown) :
    shown.2.flags = desc.flags type := by
  rw [Desc.hook] at h
  split at h
  · cases h
  · obtain ⟨handler, hhandler, rfl⟩ := Option.map_eq_some_iff.mp h
    exact newHandler_flags hhandler

private theorem joined_msb {flags : TraceType → BitVec 32} (h : ∀ type, (flags type).msb = false) :
    (joined flags type).msb = false := by
  cases type with
  | api =>
    change (flags .api ||| (flags .ditf ||| flags .svc)).msb = false
    rw [BitVec.msb_or, BitVec.msb_or, h, h, h]
    rfl
  | ditf => exact BitVec.msb_zero
  | svc => exact BitVec.msb_zero
  | _ => exact h _

private theorem wanted_msb {shown : Shown} (h : shown ∈ wanted args type) : shown.2.flags.msb = false := by
  obtain ⟨wish, -, hhook⟩ := List.mem_filterMap.mp h
  rw [Desc.hook_flags hhook]
  refine joined_msb fun other => ?_
  change (orAll _).msb = false
  rw [orAll_msb, List.any_map]
  exact List.any_eq_false.mpr fun text _ => by simp [meant_msb]

/-- The type of the hooks that have the flags of a type. -/
def TraceType.target : TraceType → TraceType
  | .ditf => .api
  | .svc => .api
  | type => type

private theorem joined_target {flags : TraceType → BitVec 32} (h : (flags type).msb = true) :
    (joined flags type.target).msb = true := by
  cases type with
  | api =>
    change (flags .api ||| (flags .ditf ||| flags .svc)).msb = true
    rw [BitVec.msb_or, h, Bool.true_or]
  | ditf =>
    change (flags .api ||| (flags .ditf ||| flags .svc)).msb = true
    rw [BitVec.msb_or, BitVec.msb_or, h, Bool.true_or, Bool.or_true]
  | svc =>
    change (flags .api ||| (flags .ditf ||| flags .svc)).msb = true
    rw [BitVec.msb_or, BitVec.msb_or, h, Bool.or_true, Bool.or_true]
  | _ => exact h

private theorem newHandler_target (desc : Desc) (type : TraceType) :
    (newHandler desc none type.target).isSome := by
  cases type <;> rfl

/-- A name that is not found gives all the bits. -/
theorem installed_msb (hitem : item ∈ optarray args) {text token : Bytes}
    (htext : text ∈ (noWish.reads item).texts type) (htoken : token ∈ words sep text)
    (hlost : ¬Found type.table token) :
    ∃ shown ∈ installed args type.target, shown.2.flags.msb = true := by
  have hgiven : (given type text).msb = true := by
    rw [given_lost ⟨token, htoken, hlost⟩]
    rfl
  have htexts : (((noWish.reads item).described given).flags type).msb = true := by
    change (orAll _).msb = true
    rw [orAll_msb, List.any_map]
    exact List.any_eq_true.mpr ⟨text, htext, hgiven⟩
  have hmsb : (((noWish.reads item).described given).joins.flags type.target).msb = true :=
    joined_target htexts
  have hne : ((noWish.reads item).described given).joins.flags type.target ≠ 0 := by
    intro hzero
    rw [hzero] at hmsb
    cases hmsb
  obtain ⟨handler, hhandler⟩ := Option.isSome_iff_exists.mp
    (newHandler_target ((noWish.reads item).described given).joins type)
  have hhook : (noWish.reads item).hook given type.target =
      some (((noWish.reads item).described given).joins.origin, handler) := by
    rw [Wish.hook, Desc.hook, if_neg hne, hhandler]
    rfl
  refine ⟨_, List.mem_filterMap.mpr ⟨item, hitem, hhook⟩, ?_⟩
  rw [Desc.hook_flags hhook]
  exact hmsb

private theorem described_found (h : ∀ type, ∀ text ∈ wish.texts type, ∀ token ∈ words sep text,
    Found type.table token) : wish.described given = wish.described meant := by
  rw [Wish.described, Wish.described]
  congr 1
  funext type
  exact congrArg orAll (List.map_congr_left fun text htext => given_found (h type text htext))

private theorem installed_found (h : ∀ item ∈ optarray args, ∀ type, ∀ text ∈ (noWish.reads item).texts type,
    ∀ token ∈ words sep text, Found type.table token) :
    installed args type = wanted (withoutFor args) type := by
  rw [wanted_withoutFor, installed]
  refine List.filterMap_congr fun item hitem => ?_
  rw [Wish.hook, Wish.hook, described_found (h item hitem)]

/-- With nothing refused, exactly the hooks of the outer descriptions are installed. -/
theorem afbTraceAdd_installed {grants : Nat → TraceType → Grants} {t : AfbTrace}
    {te : AfbTrace × List Error} (hs : afbTraceAdd grants args t = some te)
    (hg : ∀ i type, Granted (grants i type)) (hnone : t.bound = none) {new : List Hook}
    (hnew : te.1.hooks type = new ++ t.hooks type) :
    new.reverse.map Hook.shown = installed args type := by
  obtain ⟨new', hnew', -, hall⟩ := (afbTraceAdd_grows hs).grown type
  rw [List.append_cancel_right (hnew.symm.trans hnew')]
  exact hall hg hnone

/-- An add request is right if and only if its names are known and found, and it asks for the same
hooks without its nested descriptions. -/
theorem adds_right_iff (args : Json D) : AddsRight args ↔ Plain args := by
  constructor
  · intro h
    have hg : ∀ (i : Nat) (type : TraceType), Granted ⟨true, true, true, some 0, true, true⟩ :=
      fun _ _ => ⟨rfl, rfl, rfl, rfl⟩
    obtain ⟨te, hte, hhooks⟩ := h.completes _ (afbTraceCreate ⟨[], List.not_mem_nil⟩ none) rfl hg
    have hsame : ∀ type, installed args type = wanted args type := by
      intro type
      obtain ⟨new, hnew, hwanted⟩ := hhooks type
      rw [← afbTraceAdd_installed hte hg rfl hnew, hwanted]
    have hfound : ∀ item ∈ optarray args, ∀ type, ∀ text ∈ (noWish.reads item).texts type,
        ∀ token ∈ words sep text, Found type.table token := by
      intro item hitem type text htext token htoken
      by_contra hlost
      obtain ⟨shown, hshown, hmsb⟩ := installed_msb hitem htext htoken hlost
      rw [hsame] at hshown
      rw [wanted_msb hshown] at hmsb
      cases hmsb
    refine ⟨fun wish hwish type text htext token htoken => ?_, ?_, fun type => ?_⟩
    · by_contra hnone
      push Not at hnone
      have hzero := honest_afbTraceAdd hte type text
        (h.reports _ _ te hte wish hwish type text htext token htoken hnone)
      rw [given_lost ⟨token, htoken, fun hf => hf.stands.elim hnone⟩] at hzero
      cases hzero
    · intro wish hwish type text htext token htoken
      rw [requested_withoutFor] at hwish
      obtain ⟨item, hitem, rfl⟩ := List.mem_map.mp hwish
      exact (hfound item hitem type text htext token htoken).kept
    · rw [← installed_found hfound, hsame]
  · intro h
    have hfound : ∀ item ∈ optarray args, ∀ type, ∀ text ∈ (noWish.reads item).texts type,
        ∀ token ∈ words sep text, Found type.table token := by
      intro item hitem type text htext token htoken
      refine ⟨?_, ?_⟩
      · obtain ⟨wish, hwish, htexts⟩ := descriptions_head noWish item
        refine h.known wish ?_ type text (htexts ▸ htext) token htoken
        rw [requested, allDescriptions_eq]
        exact List.mem_flatMap.mpr ⟨item, hitem, hwish⟩
      · refine h.kept (noWish.reads item) ?_ type text htext token htoken
        rw [requested_withoutFor]
        exact List.mem_map_of_mem hitem
    have hsame : ∀ type, installed args type = wanted args type := fun type =>
      (installed_found hfound).trans (h.same type)
    refine ⟨fun grants t te hte type => ?_, fun grants t hnone hg => ?_, ?_⟩
    · obtain ⟨new, hnew, hsub, -⟩ := (afbTraceAdd_grows hte).grown type
      exact ⟨new, hnew, hsame type ▸ hsub⟩
    · obtain ⟨te, hte⟩ := Option.isSome_iff_exists.mp (afbTraceAdd_isSome args hg hnone)
      refine ⟨te, hte, fun type => ?_⟩
      obtain ⟨new, hnew, -, hall⟩ := (afbTraceAdd_grows hte).grown type
      exact ⟨new, hnew, (hall hg hnone).trans (hsame type)⟩
    · intro grants t te hte wish hwish type text htext token htoken hnone
      obtain ⟨value, hvalue⟩ := h.known wish hwish type text htext token htoken
      exact absurd hvalue (hnone value)

end

/-- Two nested descriptions: the outer one is installed instead. -/
def nestedArgs : Json Unit :=
  .object [(ascii "request", .string (ascii "end")),
    (ascii "for", .array [.object [(ascii "apiname", .string (ascii "a"))],
      .object [(ascii "apiname", .string (ascii "b"))]])]

theorem adds_nested_ignored : ¬AddsRight nestedArgs := by
  intro h
  obtain ⟨te, hte, hhooks⟩ := h.completes (fun _ _ => ⟨true, true, true, some 0, true, true⟩)
    monitorTrace rfl fun _ _ => ⟨rfl, rfl, rfl, rfl⟩
  obtain ⟨new, hnew, hwanted⟩ := hhooks .xreq
  have hlengths : (afbTraceAdd (fun _ _ => ⟨true, true, true, some 0, true, true⟩) nestedArgs
      monitorTrace).map (fun te => (te.1.hooks .xreq).length) = some 1 ∧
        (wanted nestedArgs .xreq).length = 2 := by
    decide +kernel
  rw [hte] at hlengths
  have hone : (te.1.hooks .xreq).length = 1 := Option.some_inj.mp hlengths.1
  rw [hnew, List.length_append] at hone
  have htwo := congrArg List.length hwanted
  rw [List.length_map, List.length_reverse, hlengths.2] at htwo
  omega

end AfbBinder.Trace
