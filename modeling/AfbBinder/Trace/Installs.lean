import AfbBinder.Trace.Readings

/-! The hooks that are installed for the descriptions. -/
namespace AfbBinder.Trace
open Lib.Cstrings Lib.Runs WrapJson HookFlags
open Lib.Json (ascii)

section
variable {D : Type} {t t' t'' : AfbTrace} {te te' : AfbTrace × List Error} {desc : Desc}
  {errors : List Error} {type : TraceType} {g : Grants} {full : Prop}
  {hooks hooks' : TraceType → List Shown}

/-- A trace got hooks among those, in their order; all of them when it is free and nothing is
refused. -/
structure Grows (full : Prop) (hooks : TraceType → List Shown) (t t' : AfbTrace) : Prop where
  bound : t'.bound = t.bound
  grown : ∀ type, ∃ new, t'.hooks type = new ++ t.hooks type ∧
    (new.reverse.map Hook.shown).Sublist (hooks type) ∧
      (full → t.bound = none → new.reverse.map Hook.shown = hooks type)

private theorem Grows.short (hooks : TraceType → List Shown) (hbound : t'.bound = t.bound)
    (hhooks : t'.hooks = t.hooks) (hshort : full → t.bound = none → ∀ type, hooks type = []) :
    Grows full hooks t t' := by
  refine ⟨hbound, fun type => ⟨[], by rw [hhooks, List.nil_append], List.nil_sublist _, ?_⟩⟩
  intro hfull hnone
  exact (hshort hfull hnone type).symm

private theorem Grows.refl (full : Prop) (t : AfbTrace) : Grows full (fun _ => []) t t :=
  .short _ rfl rfl fun _ _ _ => rfl

private theorem Grows.trans (h : Grows full hooks t t') (h' : Grows full hooks' t' t'') :
    Grows full (fun type => hooks type ++ hooks' type) t t'' := by
  refine ⟨h'.bound.trans h.bound, fun type => ?_⟩
  obtain ⟨new, hnew, hsub, hall⟩ := h.grown type
  obtain ⟨new', hnew', hsub', hall'⟩ := h'.grown type
  refine ⟨new' ++ new, by rw [hnew', hnew, List.append_assoc], ?_, fun hfull hnone => ?_⟩
  · rw [List.reverse_append, List.map_append]
    exact hsub.append hsub'
  · rw [List.reverse_append, List.map_append, hall hfull hnone,
      hall' hfull (h.bound.trans hnone)]

private theorem Grows.imp {full' : Prop} (h : Grows full hooks t t') (hfull : full' → full) :
    Grows full' hooks t t' := by
  refine ⟨h.bound, fun type => ?_⟩
  obtain ⟨new, hnew, hsub, hall⟩ := h.grown type
  exact ⟨new, hnew, hsub, fun h' => hall (hfull h')⟩

/-- The hooks of a run, item after item. -/
theorem grows_foldlM {β : Type} {f : AfbTrace × List Error → β → Option (AfbTrace × List Error)}
    {hooks : β → TraceType → List Shown} {l : List β}
    (hf : ∀ b ∈ l, ∀ te te', f te b = some te' → Grows full (hooks b) te.1 te'.1)
    (h : l.foldlM f te = some te') :
    Grows full (fun type => l.flatMap (hooks · type)) te.1 te'.1 := by
  induction l generalizing te with
  | nil =>
    cases h
    exact .refl full _
  | cons b l ih =>
    rw [List.foldlM_cons] at h
    obtain ⟨m, hm, hrest⟩ := Option.bind_eq_some_iff.mp h
    exact (hf b List.mem_cons_self te m hm).trans
      (ih (fun b hb => hf b (List.mem_cons_of_mem _ hb)) hrest)

private theorem getTag_same (name : Bytes) (mem : Bool) :
    (traceGetTag t name mem).2.hooks = t.hooks ∧ (traceGetTag t name mem).2.bound = t.bound := by
  unfold traceGetTag
  split
  · exact ⟨rfl, rfl⟩
  · split
    · exact ⟨rfl, rfl⟩
    · exact ⟨rfl, rfl⟩

private theorem getEvent_same (name : Bytes) (mem : Bool) :
    (traceGetEvent t name mem).2.hooks = t.hooks ∧ (traceGetEvent t name mem).2.bound = t.bound := by
  unfold traceGetEvent
  split
  · exact ⟨rfl, rfl⟩
  · split
    · exact ⟨rfl, rfl⟩
    · exact ⟨rfl, rfl⟩

private theorem gotSession_same {session : Option SessionId}
    (hs : (if type = .xreq then hookSession t desc g else some (none, t)) = some (session, t')) :
    t'.hooks = t.hooks ∧ t'.bound = t.bound := by
  unfold hookSession at hs
  split at hs
  · split at hs
    · cases hs
      exact ⟨rfl, rfl⟩
    · obtain ⟨found, -, heq⟩ := Option.map_eq_some_iff.mp hs
      cases heq
      unfold openSession
      split
      · exact ⟨rfl, rfl⟩
      · exact ⟨rfl, rfl⟩
  · cases hs
    exact ⟨rfl, rfl⟩

private theorem gotSession_none
    (hs : (if type = .xreq then hookSession t desc g else some (none, t)) = none) : ¬Granted g := by
  intro hg
  unfold hookSession at hs
  split at hs
  · split at hs
    · cases hs
    · have hsession := hg.session
      rw [Option.map_eq_none_iff.mp hs] at hsession
      cases hsession
  · cases hs

private theorem newHandler_none {session : Option SessionId} (h : newHandler desc session type = none) :
    newHandler desc none type = none := by
  cases type with
  | ditf => rfl
  | svc => rfl
  | _ => cases h

private theorem newHandler_sessionless {session : Option SessionId} {handler : Handler}
    (h : newHandler desc session type = some handler) :
    newHandler desc none type = some handler.sessionless := by
  cases type with
  | ditf => cases h
  | svc => cases h
  | _ =>
    cases h
    rfl

private theorem Grows.attach {hook : Hook} (hook' : Option Shown) (hbound : t'.bound = t.bound)
    (hhooks : t'.hooks = t.hooks) (hshown : hook' = some hook.shown) :
    Grows full (fun other => if other = type then hook'.toList else []) t
      (traceAttachHook t' hook type) := by
  refine ⟨hbound, fun other => ?_⟩
  by_cases hother : other = type
  · subst hother
    have hnew : (traceAttachHook t' hook other).hooks other = hook :: t.hooks other := by
      rw [← hhooks]
      exact Function.update_self other _ _
    rw [if_pos rfl, hshown]
    exact ⟨[hook], hnew, List.Sublist.refl _, fun _ _ => rfl⟩
  · have hsame : (traceAttachHook t' hook type).hooks other = t.hooks other := by
      rw [← hhooks]
      exact Function.update_of_ne hother _ _
    rw [if_neg hother]
    exact ⟨[], hsame, List.Sublist.refl _, fun _ _ => rfl⟩

private theorem addhook_grows (hflags : desc.flags type ≠ 0) (hs : addhook g desc type t errors = some te) :
    Grows (Granted g) (fun other => if other = type then (desc.hook type).toList else []) t te.1 := by
  unfold addhook at hs
  split at hs
  · rename_i hbound
    cases hs
    exact .short _ rfl rfl fun _ hnone => by simp [hnone] at hbound
  split at hs
  · rename_i hbound
    cases hs
    exact .short _ rfl rfl fun _ hnone => by simp [hnone] at hbound
  split at hs
  · rename_i hhook
    cases hs
    exact .short _ rfl rfl fun hfull _ => by simp [hfull.hook] at hhook
  dsimp only at hs
  obtain ⟨htags, htagsBound⟩ := getTag_same (t := t) (desc.tag.getD DEFAULT_TAG_NAME) g.tag
  obtain ⟨hevents, heventsBound⟩ := getEvent_same
    (t := (traceGetTag t (desc.tag.getD DEFAULT_TAG_NAME) g.tag).2)
    (desc.name.getD DEFAULT_EVENT_NAME) g.event
  split at hs
  · rename_i hsession
    cases hs
    exact .short _ (heventsBound.trans htagsBound) (hevents.trans htags) fun hfull _ =>
      absurd hfull (gotSession_none hsession)
  · rename_i session opened hsession
    obtain ⟨hgot, hgotBound⟩ := gotSession_same hsession
    split at hs
    · rename_i hhandler
      cases hs
      refine .short _ (hgotBound.trans (heventsBound.trans htagsBound))
        (hgot.trans (hevents.trans htags)) fun hfull _ other => ?_
      rw [if_pos hfull.handler] at hhandler
      rw [Desc.hook, if_neg hflags, newHandler_none hhandler]
      exact ite_self []
    · rename_i handler hhandler
      obtain ⟨event, -, rfl⟩ := Option.map_eq_some_iff.mp hs
      refine .attach _ (hgotBound.trans (heventsBound.trans htagsBound))
        (hgot.trans (hevents.trans htags)) ?_
      split at hhandler
      · rw [Desc.hook, if_neg hflags, newHandler_sessionless hhandler]
        rfl
      · cases hhandler

private theorem addhooks_eq (grants : TraceType → Grants) (desc : Desc) (t : AfbTrace) (errors : List Error) :
    addhooks grants desc t errors = traceTypes.foldlM (fun te type =>
      if desc.joins.flags type ≠ 0 then addhook (grants type) desc.joins type te.1 te.2
      else some te) (t, errors) := by
  have hjoins : (fun type => Function.update (Function.update (Function.update desc.flags .api
      (desc.flags .api ||| (desc.flags .ditf ||| desc.flags .svc))) .ditf 0) .svc 0 type) =
        joined desc.flags := by
    funext type
    cases type <;> rfl
  rw [Desc.joins, ← hjoins]
  rfl

/-- One set of hooks. -/
theorem addhooks_grows {grants : TraceType → Grants}
    (hs : addhooks grants desc t errors = some te) :
    Grows (∀ type, Granted (grants type)) (fun type => (desc.joins.hook type).toList) t te.1 := by
  rw [addhooks_eq] at hs
  have hrun : Grows (∀ type, Granted (grants type)) (fun other => traceTypes.flatMap fun type =>
      if other = type then (desc.joins.hook type).toList else []) t te.1 := by
    refine grows_foldlM (fun type _ te te' hstep => ?_) hs
    split at hstep
    · rename_i hflags
      exact (addhook_grows hflags hstep).imp fun hgranted => hgranted type
    · rename_i hzero
      cases hstep
      refine .short _ rfl rfl fun _ _ other => ?_
      rw [Desc.hook, if_pos (not_not.mp hzero)]
      exact ite_self []
  have hflat : (fun other => traceTypes.flatMap fun type =>
      if other = type then (desc.joins.hook type).toList else []) =
        fun other => (desc.joins.hook other).toList := by
    funext other
    cases other <;> simp [traceTypes]
  rw [hflat] at hrun
  exact hrun

private theorem getEvent_isSome (name : Bytes) {mem : Bool} (hmem : mem = true) :
    (traceGetEvent t name mem).1.isSome := by
  unfold traceGetEvent
  split
  · rfl
  · rw [if_pos hmem]
    rfl

private theorem addhook_isSome (hg : Granted g) (hnone : t.bound = none) :
    (addhook g desc type t errors).isSome := by
  have hfree : ¬t.bound.isSome := by simp [hnone]
  unfold addhook
  rw [if_neg fun h => hfree h.1, if_neg fun h => hfree h.1, if_neg (by simp [hg.hook])]
  dsimp only
  split
  · rfl
  · split
    · rfl
    · rw [Option.isSome_map]
      exact getEvent_isSome _ hg.event

/-- On a free trace with nothing refused, the hooks of a description are made. -/
theorem addhooks_isSome {grants : TraceType → Grants} (hg : ∀ type, Granted (grants type))
    (hnone : t.bound = none) : (addhooks grants desc t errors).isSome := by
  rw [addhooks_eq]
  refine foldlM_isSome (I := fun te : AfbTrace × List Error => te.1.bound = none)
    (fun te type hte => ?_) (fun te type te' hte hstep => ?_) _ hnone
  · split
    · exact addhook_isSome (hg type) hte
    · rfl
  · split at hstep
    · rename_i hflags
      exact (addhook_grows hflags hstep).bound.trans hte
    · cases hstep
      exact hte

private theorem Honest.append {error : Error} (h : Honest errors)
    (herror : ∀ type name, error ≠ .unknownName type name) : Honest (errors ++ [error]) := by
  intro type name hmem
  rcases List.mem_append.mp hmem with hmem | hmem
  · exact h type name hmem
  · exact absurd (List.mem_singleton.mp hmem).symm (herror type name)

theorem honest_addhook (h : Honest errors) (hs : addhook g desc type t errors = some te) :
    Honest te.2 := by
  unfold addhook at hs
  split at hs
  · cases hs
    exact h.append nofun
  split at hs
  · cases hs
    exact h.append nofun
  split at hs
  · cases hs
    exact h.append nofun
  dsimp only at hs
  split at hs
  · cases hs
    exact h.append nofun
  split at hs
  · cases hs
    exact h.append nofun
  · obtain ⟨event, -, rfl⟩ := Option.map_eq_some_iff.mp hs
    exact h

private theorem honest_addhooks {grants : TraceType → Grants} (h : Honest errors)
    (hs : addhooks grants desc t errors = some te) : Honest te.2 := by
  rw [addhooks_eq] at hs
  refine foldlM_keeps (I := fun te : AfbTrace × List Error => Honest te.2)
    (fun te type te' hte hstep => ?_) h hs
  split at hstep
  · exact honest_addhook hte hstep
  · cases hstep
    exact hte

/-- The hooks that the descriptions of a request give by their own fields. -/
def installed (args : Json D) (type : TraceType) : List Shown :=
  (optarray args).filterMap fun item => (noWish.reads item).hook given type

theorem afbTraceAdd_grows {grants : Nat → TraceType → Grants} {args : Json D}
    (hs : afbTraceAdd grants args t = some te) :
    Grows (∀ i type, Granted (grants i type)) (installed args) t te.1 := by
  have hrun : Grows (∀ i type, Granted (grants i type)) (fun type => (optarray args).zipIdx.flatMap
      fun item => ((noWish.reads item.1).hook given type).toList) t te.1 := by
    refine grows_foldlM (fun item _ te te' hstep => ?_) hs
    have hadd : addhooks (grants item.2) (readDesc item.1 noDesc te.2).1 te.1
      (readDesc item.1 noDesc te.2).2 = some te' := hstep
    have hgrows := addhooks_grows hadd
    simp only [readDesc_hook] at hgrows
    exact hgrows.imp fun hgranted => hgranted item.2
  have hflat : (fun type => (optarray args).zipIdx.flatMap
      fun item => ((noWish.reads item.1).hook given type).toList) = installed args := by
    funext type
    have hmap := List.flatMap_map Prod.fst (fun item => ((noWish.reads item).hook given type).toList)
      (optarray args).zipIdx
    rw [List.zipIdx_map_fst] at hmap
    rw [installed, List.filterMap_eq_flatMap_toList, hmap]
  rw [hflat] at hrun
  exact hrun

theorem afbTraceAdd_isSome {grants : Nat → TraceType → Grants} (args : Json D)
    (hg : ∀ i type, Granted (grants i type)) (hnone : t.bound = none) :
    (afbTraceAdd grants args t).isSome := by
  refine foldlM_isSome (I := fun te : AfbTrace × List Error => te.1.bound = none)
    (fun te item hte => ?_) (fun te item te' hte hstep => ?_) _ hnone
  · exact addhooks_isSome (hg item.2) hte
  · exact (addhooks_grows hstep).bound.trans hte

/-- An unknown name that is reported has no flag, in every answer. -/
theorem honest_afbTraceAdd {grants : Nat → TraceType → Grants} {args : Json D}
    (hs : afbTraceAdd grants args t = some te) : Honest te.2 := by
  refine foldlM_keeps (I := fun te : AfbTrace × List Error => Honest te.2)
    (fun te item te' hte hstep => ?_) ?_ hs
  · exact honest_addhooks (honest_readDesc item.1 hte) hstep
  · intro type name hmem
    cases hmem

end

end AfbBinder.Trace
