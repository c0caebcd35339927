import AfbBinder.WrapJson.PackRuns

/-! The end of wrap_json_vpack on an error: the slots that are visited, and what they release. -/
namespace AfbBinder.WrapJson
open Lib.Cstrings Lib.Checked Lib.Ledgers Lib.Loops
open Lib.Json (lbracket rbracket lbrace rbrace colon)

variable {D : Type} {strings : StringMaker}

/-- What a slot releases: its key, then its container. -/
def PackFrame.refs (f : PackFrame D) : List Nat := (f.key.map Held.ref).toList ++ (f.cont.map Held.ref).toList

def stackRefs (stack : List (PackFrame D)) : List Nat := stack.flatMap PackFrame.refs

/-- The slots from top to the first one, none being out of the array: when it is too deep, top is
after the last one. -/
def errorSlots (e : JsonError) (st : PackState D) : List (Option (PackFrame D)) :=
  if e = .tooDeep then none :: st.stack.map some else st.stack.map some

def released (slots : List (Option (PackFrame D))) : List Nat := slots.flatMap fun slot => slot.elim [] PackFrame.refs

/-- Only slots of the array are visited, and what they hold is released once. -/
structure Clean (e : JsonError) (st : PackState D) : Prop where
  slots : ∀ slot ∈ errorSlots e st, slot.isSome
  once : ∀ r, (released (errorSlots e st)).count r = if HeldAfter st.events r then 1 else 0

/-- The iteration is to open a container, and no slot is left. -/
structure Overflows (st : PackState D) : Prop where
  full : STACKCOUNT ≤ st.stack.length
  opens : cur st.d = lbracket ∨ cur st.d = lbrace
  accepted : ∀ top ∈ st.stack.head?, cur st.d ∈ top.acc

/-- The slots hold what the events tell, and only a slot that waits for a value has a key. -/
structure Sound (st : PackState D) : Prop where
  ledger : Ledger (stackRefs st.stack) st.events
  keys : ∀ f ∈ st.stack, f.type ≠ colon → f.key = none

/-- An end that leaves the slots so, but for a depth that is too much. -/
def SoundStop : Stop (PackState D) → Prop
  | .error e st => Sound st ∧ e ≠ .tooDeep
  | .fault _ => True

section
variable {st st' : PackState D} {top f : PackFrame D} {below : List (PackFrame D)} {obj : JsonObject D} {c : UInt8}

private theorem sound_start (desc : Bytes) (args : List (PackArg D)) (mem : List Bool) : Sound
    (packStart desc args mem) where
  ledger := ledger_nil
  keys f hf _ := by
    rw [List.mem_singleton.mp hf]

private theorem Sound.reads (h : Sound st) (hr : Reads st st') : Sound st' where
  ledger := by
    rw [hr.stack, hr.events]
    exact h.ledger
  keys := by
    rw [hr.stack]
    exact h.keys

private theorem Sound.stops {write : Bool} {stop : Stop (PackState D)} (h : Sound st)
    (hstop : Stops write st stop) :
    SoundStop stop := by
  cases stop with
  | error e u => exact ⟨h.reads hstop.1, hstop.2⟩
  | fault f => trivial

private theorem stackRefs_cons : stackRefs (top :: below) =
    (top.key.map Held.ref).toList ++ ((top.cont.map Held.ref).toList ++ stackRefs below) := by
  rw [stackRefs, List.flatMap_cons, PackFrame.refs, List.append_assoc]
  rfl

private theorem update_refs {add : JsonObject D → JsonObject D} : (top.update add).cont.map Held.ref =
    top.cont.map Held.ref := by
  rw [PackFrame.update, Option.map_map]
  rfl

private theorem ledger_dropped {p : Option (Held D)} {refs : List Nat} {events : List Event}
    (h : Ledger ((p.map Held.ref).toList ++ refs) events) : Ledger refs (events ++ dropped p) := by
  cases p with
  | none =>
    rw [dropped, List.append_nil]
    exact h
  | some held => exact h.drop

/-- Another state of the slot at the top, that has the same references. -/
theorem Sound.replace (h : Sound st) (hstack : st.stack = top :: below) (hst : st'.stack = f :: below)
    (hevents : st'.events = st.events) (hkey : f.key = top.key) (htype : f.type = top.type)
    (hcont : f.cont.map Held.ref = top.cont.map Held.ref) : Sound st' where
  ledger := by
    have hledger := h.ledger
    rw [hstack, stackRefs_cons] at hledger
    rw [hst, hevents, stackRefs_cons, hkey, hcont]
    exact hledger
  keys g hg hne := by
    rw [hst] at hg
    rcases List.mem_cons.mp hg with rfl | hg
    · rw [hkey]
      exact h.keys top (hstack ▸ List.mem_cons_self) (htype ▸ hne)
    · exact h.keys g (hstack ▸ List.mem_cons_of_mem _ hg) hne

theorem sound_packOpen (h : Sound st) : Meets Sound (fun stop => ∀ e u, stop = .error e u →
    Sound u ∧ (e = .tooDeep → u = st ∧ STACKCOUNT ≤ st.stack.length)) (packOpen st c) := by
  have hidle := idle_alloc st
  have hkey (cont : Option (Held D)) : (openedFrame c cont).key = none ∧ (openedFrame c cont).cont = cont := by
    unfold openedFrame
    split <;> exact ⟨rfl, rfl⟩
  have hkeys (cont : Option (Held D)) (u : PackState D) (hu : Sound u) (g : PackFrame D)
      (hg : g ∈ openedFrame c cont :: u.stack) (hne : g.type ≠ colon) : g.key = none := by
    rcases List.mem_cons.mp hg with rfl | hg
    · exact (hkey cont).1
    · exact hu.keys g hg hne
  unfold packOpen
  split
  · split
    · next u halloc =>
      rw [halloc] at hidle
      have hu : Sound u := h.reads hidle.toReads
      refine ⟨?_, hkeys _ u hu⟩
      rw [stackRefs_cons, (hkey _).1, (hkey _).2, hidle.events]
      have hledger := hu.ledger.hold
      rw [hidle.events] at hledger
      exact hledger
    · next u halloc =>
      rw [halloc] at hidle
      have hu : Sound u := h.reads hidle.toReads
      intro e v heq
      cases heq
      refine ⟨⟨?_, hkeys _ u hu⟩, nofun⟩
      rw [stackRefs_cons, (hkey _).1, (hkey _).2]
      exact hu.ledger
  · next hfull =>
    intro e v heq
    cases heq
    exact ⟨h, fun _ => ⟨rfl, Nat.le_of_not_lt hfull⟩⟩

private theorem sound_packClose (h : Sound st) (hc : c ≠ colon) : Meets (fun x => Sound x.2) SoundStop
    (packClose st c) := by
  unfold packClose
  split
  next top frame below hstack =>
    split
    · exact ⟨h, by decide⟩
    next htype =>
      have hkey : top.key = none := h.keys top (hstack ▸ List.mem_cons_self) (not_not.mp htype ▸ hc)
      have hledger := h.ledger
      rw [hstack, stackRefs_cons, hkey] at hledger
      refine ⟨ledger_dropped hledger, fun g hg hne => ?_⟩
      exact h.keys g (hstack ▸ List.mem_cons_of_mem _ hg) hne
  next => exact ⟨h, by decide⟩

theorem sound_packStore (h : Sound st) : Meets (fun x => ∀ u, x = .inl u → Sound u) SoundStop (packStore st obj) := by
  unfold packStore
  split
  · exact ⟨h, by decide⟩
  next top below hstack =>
    have hledger := h.ledger
    rw [hstack, stackRefs_cons] at hledger
    have hkeys (g : PackFrame D) (hg : g ∈ below) (hne : g.type ≠ colon) : g.key = none :=
      h.keys g (hstack ▸ List.mem_cons_of_mem _ hg) hne
    dsimp only
    split
    · split
      · exact ⟨h, by decide⟩
      · split
        · exact ⟨h, by decide⟩
        · nofun
    split
    · intro u hu
      cases hu
      refine h.replace hstack rfl rfl ?_ ?_ ?_ <;> split <;> first | rfl | exact update_refs
    split
    · next htype =>
      split
      · exact ⟨h, by decide⟩
      · intro u hu
        cases hu
        have hkey : top.key = none :=
          h.keys top (hstack ▸ List.mem_cons_self) (by rw [htype]; decide)
        refine ⟨?_, fun g hg hne => ?_⟩
        · rw [hkey] at hledger
          rw [stackRefs_cons]
          exact hledger.hold
        · rcases List.mem_cons.mp hg with rfl | hg
          · exact absurd rfl hne
          · exact hkeys g hg hne
    split
    · intro u hu
      cases hu
      refine ⟨?_, fun g hg hne => ?_⟩
      · rw [stackRefs_cons]
        have hcont : (if (!obj.isNull || decide (cur st.d ≠ star)) = true then
            top.update fun x => x.objectAdd (top.key.elim .null Held.obj).getString obj else top).cont.map Held.ref =
              top.cont.map Held.ref := by
          split
          · exact update_refs
          · rfl
        dsimp only
        rw [hcont]
        exact ledger_dropped hledger
      · rcases List.mem_cons.mp hg with rfl | hg
        · rfl
        · exact hkeys g hg hne
    · exact ⟨h, by decide⟩

private theorem sound_packItem (h : Sound st) : Meets (fun x => Sound x.2) SoundStop
    (packItem strings st c) := by
  by_cases hc : c = rbrace ∨ c = rbracket
  · rw [packItem_close hc]
    refine sound_packClose h ?_
    rintro rfl
    exact absurd hc (by decide)
  · by_cases hs : c = lowerS
    · rw [hs]
      exact reads_packString.mono (fun _ => h.reads) fun _ => h.stops
    · exact (quiet_packItem hs (not_or.mp hc)).mono (fun _ hidle => h.reads hidle.toReads) fun _ => h.stops

variable (strings) in
/-- An iteration keeps the account of the references, also when it fails, and it fails for the
depth when the slots are all in use. -/
theorem sound_packStep (h : Sound st) : Meets (fun x => ∀ u, x = .inl u → Sound u)
    (fun stop => ∀ e u, stop = .error e u → Sound u ∧ (e = .tooDeep → Overflows st)) (packStep strings st) := by
  have hsame (d : Bytes) : Sound { st with d } := ⟨h.ledger, h.keys⟩
  have hstop {stop : Stop (PackState D)} (hs : SoundStop stop) (e : JsonError) (u : PackState D)
      (heq : stop = .error e u) : Sound u ∧ (e = .tooDeep → Overflows st) := by
    rw [heq] at hs
    exact ⟨hs.1, fun he => absurd he hs.2⟩
  cases hstack : st.stack with
  | nil =>
    rw [packStep_nil hstack]
    exact hstop ⟨h, by decide⟩
  | cons top below =>
    rw [packStep_eq hstack]
    split
    · exact hstop ⟨h, by decide⟩
    split
    · exact hstop ⟨h, by decide⟩
    next hacc =>
      split
      · next hopen =>
        refine Meets.map ((sound_packOpen (hsame _)).mono (fun u hu v hv => ?_) fun stop hs e u heq => ?_)
        · cases hv
          exact hu
        · obtain ⟨hu, hdeep⟩ := hs e u heq
          refine ⟨hu, fun he => ⟨(hdeep he).2, hopen, fun t ht => ?_⟩⟩
          rw [hstack, List.head?_cons, Option.mem_def, Option.some.injEq] at ht
          exact ht ▸ not_not.mp hacc
      · exact Meets.bind ((sound_packItem (hsame _)).mono (fun _ hx => hx) fun _ => hstop) fun x hx =>
          (sound_packStore hx).mono (fun _ hy => hy) fun _ => hstop

variable (strings) in
/-- No container is opened when the slots are all in use. -/
theorem packStep_overflows (h : Overflows st) : ∃ u, packStep strings st = .error (.error .tooDeep u) := by
  obtain ⟨hfull, hopen, hacc⟩ := h
  cases hstack : st.stack with
  | nil =>
    rw [hstack] at hfull
    exact absurd hfull (Nat.not_succ_le_zero 31)
  | cons top below =>
    have hne : cur st.d ≠ 0 := by
      rcases hopen with heq | heq <;> rw [heq] <;> decide
    have hin : cur st.d ∈ top.acc := hacc top (by rw [hstack]; rfl)
    rw [packStep_eq hstack, if_neg hne, if_neg (not_not_intro hin), if_pos hopen, packOpen,
      if_neg (Nat.not_lt.mpr hfull)]
    exact ⟨_, rfl⟩

end

/-! The error of a run. -/

section
variable {desc : Option Bytes} {args : List (PackArg D)} {mem : List Bool} {e : JsonError} {st : PackState D}

private theorem Sound.steps {u v : PackState D} (h : Sound u) (hs : Steps (packStep strings) u v) : Sound v :=
  hs.keeps (fun s t hsound hstep => by
    have hmeets := sound_packStep strings hsound
    rw [hstep] at hmeets
    exact hmeets t rfl) h

/-- Where a run has failed. -/
theorem packRun_error (h : packRun strings desc args mem = some (.error (.error e st))) :
    Sound st ∧ (e = .tooDeep ↔ ∃ u, Steps (packStep strings) (packStart (desc.getD []) args mem) u ∧ Overflows u) := by
  cases desc with
  | none =>
    cases h
    refine ⟨sound_start _ _ _, nofun, ?_⟩
    rintro ⟨u, hsteps, hover⟩
    cases hsteps.cases_head with
    | inl heq =>
      subst heq
      exact absurd hover.full (Nat.not_le.mpr (Nat.one_lt_succ_succ 30))
    | inr hstep =>
      obtain ⟨v, hv, -⟩ := hstep
      cases hv
  | some desc =>
    have hends := ends_of_iterate h
    obtain ⟨last, hsteps, hlast⟩ := hends.last
    have hsound := sound_packStep strings ((sound_start desc args mem).steps hsteps)
    rw [hlast] at hsound
    obtain ⟨hst, hdeep⟩ := hsound e st rfl
    refine ⟨hst, fun he => ⟨last, hsteps, hdeep he⟩, ?_⟩
    rintro ⟨u, hu, hover⟩
    obtain ⟨v, hv⟩ := packStep_overflows strings hover
    cases hends.unique (Ends.of_steps hu (.error hv))
    rfl

private theorem released_some (stack : List (PackFrame D)) : released (stack.map some) = stackRefs stack := by
  rw [released, List.flatMap_map]
  rfl

/-- On an error *result is NULL, and the slots in use are visited, that release what they hold once:
if and only if no container is to be opened when the slots are all in use. -/
theorem wrapJsonVpack_clean_iff (h : packRun strings desc args mem = some (.error (.error e st))) :
    ((∃ rc, wrapJsonVpack strings desc args mem = some (.done rc .null)) ∧ Clean e st) ↔
      ∀ u, Steps (packStep strings) (packStart (desc.getD []) args mem) u → ¬Overflows u := by
  obtain ⟨hsound, hdeep⟩ := packRun_error h
  have hnull : ∃ rc, wrapJsonVpack strings desc args mem = some (.done rc .null) := by
    rw [wrapJsonVpack, h]
    exact ⟨_, rfl⟩
  constructor
  · rintro ⟨-, hslots, -⟩ u hu hover
    rw [errorSlots, if_pos (hdeep.mpr ⟨u, hu, hover⟩)] at hslots
    exact absurd (hslots none List.mem_cons_self) Bool.false_ne_true
  · intro hall
    have he : e ≠ .tooDeep := by
      intro he
      obtain ⟨u, hu, hover⟩ := hdeep.mp he
      exact hall u hu hover
    refine ⟨hnull, ?_, ?_⟩
    · rw [errorSlots, if_neg he]
      intro slot hslot
      obtain ⟨f, -, rfl⟩ := List.mem_map.mp hslot
      rfl
    · intro r
      rw [errorSlots, if_neg he, released_some]
      exact hsound.ledger.count r

/-- The error of a run, with what the slots that are visited hold then. -/
def endsWith {α : Type} : Option (Except (Stop (PackState D)) α) → Option (JsonError × List Nat)
  | some (.error (.error e st)) => some (e, released (errorSlots e st))
  | _ => none

/-- An array that holds a string, then an object, that waits for the value of its key: the key is
released, then the object and the array. -/
theorem wrapJsonVpack_clean_truncated : ∃ st : PackState Unit,
    packRun takingMaker (some [lbracket, lowerS, lbrace, lowerS])
        [.pointer (some [97, 0]), .pointer (some [98, 0])] [] = some (.error (.error .truncated st)) ∧
      released (errorSlots .truncated st) = [2, 1, 0] ∧ Clean .truncated st := by
  have hends : endsWith (packRun takingMaker (some [lbracket, lowerS, lbrace, lowerS])
      ([.pointer (some [97, 0]), .pointer (some [98, 0])] : List (PackArg Unit)) []) =
      some (.truncated, [2, 1, 0]) := by
    decide +kernel
  unfold endsWith at hends
  split at hends
  · next e st hrun =>
    obtain ⟨rfl, hreleased⟩ := Prod.mk.inj (Option.some.inj hends)
    refine ⟨st, hrun, hreleased, ((wrapJsonVpack_clean_iff hrun).mpr fun u hu hover => ?_).2⟩
    exact absurd ((packRun_error hrun).2.mpr ⟨u, hu, hover⟩) (by decide)
  · cases hends

/-- The call ends with the error of the depth. -/
def endsTooDeep {S α : Type} : Option (Except (Stop S) α) → Bool
  | some (.error (.error .tooDeep _)) => true
  | _ => false

/-- With 32 containers the first slot visited is out of the array. -/
theorem wrapJsonVpack_too_deep : ¬ ∀ (desc : Option Bytes) (args : List (PackArg Unit)) (mem : List Bool)
    (e : JsonError) (st : PackState Unit), packRun takingMaker desc args mem = some (.error (.error e st)) →
      Clean e st := by
  intro hall
  have hdeep : endsTooDeep (packRun takingMaker (some (List.replicate 32 lbracket)) ([] : List (PackArg Unit)) []) := by
    decide +kernel
  unfold endsTooDeep at hdeep
  split at hdeep
  · next st hrun =>
    have hslots := (hall _ _ _ _ _ hrun).slots
    rw [errorSlots, if_pos rfl] at hslots
    exact absurd (hslots none List.mem_cons_self) Bool.false_ne_true
  · cases hdeep

end

end AfbBinder.WrapJson
