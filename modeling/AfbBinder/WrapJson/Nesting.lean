import AfbBinder.WrapJson.PackRuns
import AfbBinder.WrapJson.Strictness
import AfbBinder.WrapJson.UnpackRuns

/-! The two interpreters of descriptors have no internal error: the open containers, the
characters that are accepted and the type of the innermost container go together. -/
namespace AfbBinder.WrapJson
open Lib.Cstrings Lib.Checked Lib.Loops
open Lib.Json (lbracket rbracket lbrace rbrace colon)

variable {D : Type}

/-- An end that is no internal error. -/
def Expected {S : Type} : Stop S → Prop
  | .error e _ => e ≠ .internalError
  | .fault _ => True

/-- A part of an iteration without internal error. -/
abbrev Safe {S α : Type} (r : Except (Stop S) α) : Prop := Meets (fun _ => True) Expected r

private theorem expected_rc {e : JsonError} (he : e ≠ .internalError) (p p' : Nat) :
    e.rc p ≠ JsonError.internalError.rc p' := fun h => he (JsonError.rc_inj h)

/-! The stack of wrap_json_vpack. -/

/-- The slot of an open container: what it accepts is told by its type. -/
def PackFrame.Inside (f : PackFrame D) : Prop :=
  f.type = rbracket ∧ f.acc = packAcceptArr ∨ f.type = rbrace ∧ f.acc = packAcceptKey ∨
    f.type = colon ∧ f.acc = packAcceptAny

/-- The slots of open containers over the first one, from the top. -/
inductive Slots : List (PackFrame D) → Prop
  | first {f : PackFrame D} (htype : f.type = 0) (hacc : f.acc = packAcceptAny) : Slots [f]
  | inside {f : PackFrame D} {below : List (PackFrame D)} (hin : f.Inside) (hbelow : Slots below) :
    Slots (f :: below)

section
variable {st st' : PackState D} {top f : PackFrame D} {below : List (PackFrame D)} {c : UInt8}

private theorem Slots.ne_nil (h : Slots below) : below ≠ [] := by
  cases h <;> exact List.cons_ne_nil _ _

/-- The characters of an item, and those of the brackets. -/
def packItems : Bytes := packAcceptAny.drop 2

/-- What is accepted is an item, an opening character or the closing one of the container. -/
theorem Slots.accepted (h : Slots (top :: below)) (hc : c ∈ top.acc) :
    c ∈ packItems ∨ (c = lbracket ∨ c = lbrace) ∨
      ((c = rbrace ∨ c = rbracket) ∧ c = top.type ∧ below ≠ []) := by
  have hany : c ∈ packAcceptAny → c ∈ packItems ∨ c = lbracket ∨ c = lbrace := by
    intro hmem
    change c ∈ lbracket :: lbrace :: packItems at hmem
    rw [List.mem_cons, List.mem_cons] at hmem
    tauto
  cases h with
  | first htype hacc =>
    rw [hacc] at hc
    have := hany hc
    tauto
  | inside hin hbelow =>
    have hne := hbelow.ne_nil
    rcases hin with ⟨htype, hacc⟩ | ⟨htype, hacc⟩ | ⟨htype, hacc⟩
    · rw [hacc] at hc
      change c ∈ rbracket :: packAcceptAny at hc
      rw [List.mem_cons] at hc
      rcases hc with rfl | hc
      · exact .inr (.inr ⟨.inr rfl, htype.symm, hne⟩)
      · have := hany hc
        tauto
    · rw [hacc] at hc
      change c ∈ [lowerS, rbrace] at hc
      rw [List.mem_pair] at hc
      rcases hc with rfl | rfl
      · exact .inl (by decide)
      · exact .inr (.inr ⟨.inl rfl, htype.symm, hne⟩)
    · rw [hacc] at hc
      have := hany hc
      tauto

variable {α : Type} {strings : StringMaker}

private theorem safe_newObject {obj : Option (JsonObject D)} : Safe (newObject st obj) := by
  unfold newObject
  split
  · trivial
  · exact (by decide : JsonError.outOfMemory ≠ .internalError)

private theorem safe_stringSize {str : Option Bytes} : Safe (stringSize st str) := by
  unfold stringSize
  split
  · split <;> trivial
  · split
    · split <;> trivial
    · split
      · trivial
      · split <;> trivial

private theorem safe_scanStrings (left : Nat) (st : PackState D) (v : Strings) : Safe
    (scanStrings left st v) := by
  induction left generalizing st v with
  | zero => exact (by decide : JsonError.tooLong ≠ .internalError)
  | succ left ih =>
    rw [scanStrings]
    split
    · refine Meets.bind safe_stringSize fun n _ => ?_
      dsimp only
      split
      · trivial
      · split
        · exact (by decide : JsonError.tooLong ≠ .internalError)
        · exact ih _ _
    · trivial

private theorem safe_packString : Safe (packString strings st) := by
  refine Meets.bind (safe_scanStrings _ _ _) fun v _ => ?_
  dsimp only
  split
  · split
    · exact safe_newObject
    · trivial
  · split
    · trivial
    · exact (by decide : JsonError.nullString ≠ .internalError)

private theorem safe_packObject : Safe (packObject st) := by
  unfold packObject
  split
  · split
    · trivial
    · split
      · exact (by decide : JsonError.nullObject ≠ .internalError)
      · trivial
  · trivial

private theorem safe_encodeBytes {p : Option Bytes} {n : UInt64} {url : Bool} : Safe
    (encodeBytes strings st p n url) := by
  unfold encodeBytes
  split
  · trivial
  split
  · trivial
  split
  · trivial
  split
  · exact (by decide : JsonError.outOfMemory ≠ .internalError)
  dsimp only
  split
  · exact safe_newObject
  · trivial

private theorem safe_packBytes {url : Bool} : Safe (packBytes strings st url) := by
  unfold packBytes
  split
  · refine Meets.bind safe_encodeBytes fun x _ => ?_
    dsimp only
    split
    · trivial
    · split
      · exact safe_newObject
      · trivial
  · trivial

/-- The item is made, and the slots are left alone. -/
theorem packItem_slots (hc : c ∈ packItems) :
    Meets (fun x => x.2.stack = st.stack) Expected (packItem strings st c) := by
  have hsafe : Safe (packItem strings st c) := by
    unfold packItem
    split
    · exact safe_packString
    split
    · trivial
    iterate 4
      split
      · split
        · exact safe_newObject
        · trivial
    split
    · exact safe_packObject
    split
    · exact safe_packBytes
    next hs hn hb hi hi' hf ho hy =>
      simp only [packItems, packAcceptAny, packAcceptArr, List.drop_succ_cons, List.drop_zero,
        List.mem_cons, List.not_mem_nil, or_false] at hc
      tauto
  have hclose : c ≠ rbrace ∧ c ≠ rbracket := by
    constructor
    all_goals
      rintro rfl
      exact absurd hc (by decide)
  have hstack : Meets (fun x => x.2.stack = st.stack) (fun _ => True) (packItem strings st c) := by
    by_cases hs : c = lowerS
    · rw [hs]
      exact reads_packString.mono (fun _ h => h.stack) fun _ _ => trivial
    · exact (quiet_packItem hs hclose).mono (fun _ h => h.stack) fun _ _ => trivial
  exact meets_iff.mpr ⟨(meets_iff.mp hstack).1, (meets_iff.mp hsafe).2⟩

private theorem slots_packClose (h : Slots (top :: below)) (hstack : st.stack = top :: below)
    (htype : c = top.type)
    (hbelow : below ≠ []) : Meets (fun x => Slots x.2.stack) Expected (packClose st c) := by
  unfold packClose
  rw [hstack]
  cases below with
  | nil => exact absurd rfl hbelow
  | cons frame below =>
    dsimp only
    rw [if_neg (not_not_intro htype)]
    cases h with
    | inside hin hbelow => exact hbelow

private theorem slots_packOpen (h : Slots st.stack) (hc : c = lbracket ∨ c = lbrace) :
    Meets (fun u => Slots u.stack) Expected (packOpen st c) := by
  have hinside (cont : Option (Held D)) : (openedFrame c cont).Inside := by
    rcases hc with rfl | rfl
    · exact .inl ⟨rfl, rfl⟩
    · exact .inr (.inl ⟨rfl, rfl⟩)
  unfold packOpen
  split
  · split
    · next u halloc =>
      have hidle := idle_alloc st
      rw [halloc] at hidle
      exact .inside (hinside _) (hidle.stack ▸ h)
    · exact (by decide : JsonError.outOfMemory ≠ .internalError)
  · exact (by decide : JsonError.tooDeep ≠ .internalError)

/-- The object is stored in a container that takes it. -/
theorem slots_packStore {obj : JsonObject D} (h : Slots st.stack) :
    Meets (fun x => ∀ u, x = .inl u → Slots u.stack) Expected (packStore st obj) := by
  unfold packStore
  cases hstack : st.stack with
  | nil => exact absurd hstack h.ne_nil
  | cons top below =>
    rw [hstack] at h
    dsimp only
    cases h with
    | first htype hacc =>
      rw [if_pos htype, if_neg (not_not_intro rfl)]
      split
      · exact (by decide : JsonError.invalidCharacter ≠ .internalError)
      · exact fun u hu => nomatch hu
    | inside hin hbelow =>
      have hupdate (add : JsonObject D → JsonObject D) : (top.update add).Inside := hin
      rcases hin with ⟨htype, hacc⟩ | ⟨htype, hacc⟩ | ⟨htype, hacc⟩
      · rw [htype, if_neg (by decide), if_pos rfl]
        rintro u ⟨⟩
        refine .inside ?_ hbelow
        split
        · exact hupdate _
        · exact .inl ⟨htype, hacc⟩
      · rw [htype, if_neg (by decide), if_neg (by decide), if_pos rfl]
        split
        · exact (by decide : JsonError.nullKey ≠ .internalError)
        · rintro u ⟨⟩
          exact .inside (.inr (.inr ⟨rfl, rfl⟩)) hbelow
      · rw [htype, if_neg (by decide), if_neg (by decide), if_neg (by decide), if_pos rfl]
        rintro u ⟨⟩
        exact .inside (.inr (.inl ⟨rfl, rfl⟩)) hbelow

/-- An iteration keeps the slots so, and has no internal error. -/
theorem slots_packStep (h : Slots st.stack) :
    Meets (fun x => ∀ u, x = .inl u → Slots u.stack) Expected (packStep strings st) := by
  obtain ⟨top, below, hstack⟩ := List.exists_cons_of_ne_nil h.ne_nil
  rw [packStep_eq hstack]
  split
  · exact (by decide : JsonError.truncated ≠ .internalError)
  split
  · exact (by decide : JsonError.invalidCharacter ≠ .internalError)
  next hacc =>
    have hslots : Slots (top :: below) := hstack ▸ h
    have hopen (hno : cur st.d ∉ [lbracket, lbrace]) : ¬ (cur st.d = lbracket ∨ cur st.d = lbrace) := by
      rwa [List.mem_pair] at hno
    rcases hslots.accepted (not_not.mp hacc) with hitem | hbracket | ⟨hclose, htype, hbelow⟩
    · have hno : cur st.d ∉ [lbracket, lbrace] := by
        rw [List.mem_pair]
        rintro (heq | heq)
        all_goals
          rw [heq] at hitem
          exact absurd hitem (by decide)
      rw [if_neg (hopen hno)]
      refine Meets.bind (packItem_slots hitem) fun x hx => ?_
      exact slots_packStore (hx ▸ h)
    · rw [if_pos hbracket]
      have hstart : Slots ({ st with d := advance st.d } : PackState D).stack := h
      refine Meets.map ((slots_packOpen hstart hbracket).imp fun u hu v hv => ?_)
      cases hv
      exact hu
    · have hno : cur st.d ∉ [lbracket, lbrace] := by
        rcases hclose with heq | heq
        all_goals
          rw [heq]
          decide
      rw [if_neg (hopen hno), packItem_close hclose]
      exact Meets.bind (slots_packClose hslots hstack htype hbelow) fun x hx => slots_packStore hx

variable {desc : Bytes} {args : List (PackArg D)} {mem : List Bool}

private theorem slots_steps (h : Steps (packStep strings) (packStart desc args mem) st) : Slots st.stack := by
  refine h.keeps (I := fun u => Slots u.stack) (fun u v hu hstep => ?_) (.first rfl rfl)
  exact (meets_iff.mp (slots_packStep hu)).1 _ hstep v rfl

variable (strings) in
/-- The loop ends, without internal error. -/
theorem packRun_expected (desc : Option Bytes) (args : List (PackArg D)) (mem : List Bool) :
    ∃ r, packRun strings desc args mem = some r ∧ Safe r := by
  obtain ⟨r, hr⟩ : ∃ r, packRun strings desc args mem = some r := packRun_isSome desc args mem
  refine ⟨r, hr, ?_⟩
  cases desc with
  | none =>
    cases hr
    exact (by decide : JsonError.nullSpec ≠ .internalError)
  | some desc =>
    cases r with
    | ok obj => trivial
    | error stop =>
      obtain ⟨u, hsteps, hlast⟩ := (ends_of_iterate hr).last
      exact (meets_iff.mp (slots_packStep (slots_steps hsteps))).2 _ hlast

end

/-! The containers that vunpack has opened. -/

/-- What is accepted in an open container, by the type of what comes next in it. -/
def Accepts (xacc : UInt8) (acc : Bytes) : Prop :=
  xacc = rbracket ∧ (acc = unpackAcceptArr ∨ acc = [rbracket]) ∨
    xacc = rbrace ∧ (acc = unpackAcceptKey ∨ acc = [rbrace]) ∨ xacc = colon ∧ acc = unpackAcceptAny

/-- The variables xacc and acc and the stack from its top: each slot has those of the place, no key,
where its container was opened. -/
inductive Nested : UInt8 → Bytes → List (UnpackFrame D) → Prop
  | outside : Nested 0 unpackAcceptAny []
  | inside {xacc : UInt8} {acc : Bytes} {f : UnpackFrame D} {below : List (UnpackFrame D)}
    (hacc : Accepts xacc acc) (hvalue : f.type ≠ rbrace) (hbelow : Nested f.type f.acc below) :
    Nested xacc acc (f :: below)

def UnpackState.Consistent (st : UnpackState D) : Prop := Nested st.xacc st.acc st.stack

section
variable {st st' : UnpackState D} {c xacc : UInt8} {acc fit : Bytes} {stack : List (UnpackFrame D)}

/-- What is accepted is a value, a key, a mark of the end or the closing character of the container. -/
theorem Nested.accepted (h : Nested xacc acc stack) (hc : c ∈ acc) :
    (c ∈ unpackAcceptAny ∧ xacc ≠ rbrace) ∨ (c = lowerS ∧ xacc = rbrace ∧ stack ≠ []) ∨
      ((c = bang ∨ c = star) ∧ (xacc = rbracket ∨ xacc = rbrace) ∧ stack ≠ []) ∨
      ((c = rbrace ∨ c = rbracket) ∧ c = xacc ∧ stack ≠ []) := by
  cases h with
  | outside => exact .inl ⟨hc, by decide⟩
  | @inside _ _ f below hacc hvalue hbelow =>
    have hne := List.cons_ne_nil f below
    rcases hacc with ⟨rfl, rfl | rfl⟩ | ⟨rfl, rfl | rfl⟩ | ⟨rfl, rfl⟩
    · change c ∈ star :: bang :: rbracket :: unpackAcceptAny at hc
      simp only [List.mem_cons] at hc
      rcases hc with rfl | rfl | rfl | hc
      · exact .inr (.inr (.inl ⟨.inr rfl, .inl rfl, hne⟩))
      · exact .inr (.inr (.inl ⟨.inl rfl, .inl rfl, hne⟩))
      · exact .inr (.inr (.inr ⟨.inr rfl, rfl, hne⟩))
      · exact .inl ⟨hc, by decide⟩
    · exact .inr (.inr (.inr ⟨.inr (List.mem_singleton.mp hc), List.mem_singleton.mp hc, hne⟩))
    · change c ∈ [star, bang, lowerS, rbrace] at hc
      simp only [List.mem_cons, List.not_mem_nil, or_false] at hc
      rcases hc with rfl | rfl | rfl | rfl
      · exact .inr (.inr (.inl ⟨.inr rfl, .inr rfl, hne⟩))
      · exact .inr (.inr (.inl ⟨.inl rfl, .inr rfl, hne⟩))
      · exact .inr (.inl ⟨rfl, rfl, hne⟩)
      · exact .inr (.inr (.inr ⟨.inl rfl, rfl, hne⟩))
    · exact .inr (.inr (.inr ⟨.inl (List.mem_singleton.mp hc), List.mem_singleton.mp hc, hne⟩))
    · exact .inl ⟨hc, by decide⟩

/-- The place in the containers is left alone. -/
structure SamePlace (st st' : UnpackState D) : Prop where
  acc : st'.acc = st.acc
  xacc : st'.xacc = st.xacc
  stack : st'.stack = st.stack

private theorem SamePlace.trans {u : UnpackState D} (h : SamePlace st st') (h' : SamePlace st' u) :
    SamePlace st u :=
  ⟨h'.acc.trans h.acc, h'.xacc.trans h.xacc, h'.stack.trans h.stack⟩

private theorem SamePlace.refl : SamePlace st st := ⟨rfl, rfl, rfl⟩

private theorem SamePlace.consistent (h : SamePlace st st') (hst : st.Consistent) : st'.Consistent := by
  unfold UnpackState.Consistent at *
  rw [h.xacc, h.acc, h.stack]
  exact hst

private theorem samePlace_put (p : Option Nat) (x : Stored D) : SamePlace st (st.put p x) := by
  cases p with
  | none => exact .refl
  | some p => exact ⟨rfl, rfl, rfl⟩

variable {doubles : Doubles D} {store : Bool}

private theorem takeArg_place {address : UnpackArg → Option (Option Nat)} :
    Meets (fun x => SamePlace st x.2) Expected (takeArg store address st) := by
  unfold takeArg
  split
  · split
    · trivial
    · split
      · exact ⟨rfl, rfl, rfl⟩
      · trivial
  · exact .refl

private theorem storeValue_place {p : Option Nat} {value : JsonObject D → Option (Stored D)} :
    Meets (SamePlace st) Expected (storeValue st fit p value) := by
  unfold storeValue
  split
  · split
    · exact samePlace_put _ _
    · exact (by decide : JsonError.missfitType ≠ .internalError)
  · exact .refl

private theorem unpackScalar_place {address : UnpackArg → Option (Option Nat)}
    {value : JsonObject D → Option (Stored D)} :
    Meets (SamePlace st) Expected (unpackScalar store st fit address value) :=
  Meets.bind takeArg_place fun _ hx => storeValue_place.imp fun _ => hx.trans

private theorem unpackString_place : Meets (SamePlace st) Expected (unpackString store st fit) := by
  refine Meets.bind unpackScalar_place fun u hu => ?_
  split
  · refine Meets.bind takeArg_place fun x hx => ?_
    have hplace : SamePlace st x.2 := hu.trans ⟨hx.acc, hx.xacc, hx.stack⟩
    dsimp only
    split
    · exact hplace.trans (samePlace_put _ _)
    · exact hplace
  · exact hu

private theorem storeBytes_place {py pz : Option Nat} : Meets (SamePlace st) Expected
    (storeBytes st fit py pz) := by
  have hput (p : Option Bytes) : SamePlace st (putBytes st py pz p) := by
    unfold putBytes
    split
    · exact (samePlace_put _ _).trans (samePlace_put _ _)
    · exact .refl
  unfold storeBytes
  split
  · split
    · exact hput _
    · split
      · split
        · exact hput _
        · exact (by decide : JsonError.badBase64 ≠ .internalError)
      · exact .refl
    · exact (by decide : JsonError.missfitType ≠ .internalError)
  · exact .refl

private theorem unpackBytes_place : Meets (SamePlace st) Expected (unpackBytes store st fit) := by
  rw [unpackBytes_eq]
  refine Meets.bind takeArg_place fun x hx => ?_
  refine Meets.bind takeArg_place fun y hy => ?_
  exact storeBytes_place.imp fun _ => (hx.trans hy).trans

/-- The characters of a value that opens no container. -/
def unpackItems : Bytes := unpackAcceptAny.drop 2

private theorem unpackItem_place (hc : c ∈ unpackItems) :
    Meets (SamePlace st) Expected (unpackItem doubles store st fit c) := by
  unfold unpackItem
  split
  · exact unpackString_place
  split
  · split
    · exact (by decide : JsonError.missfitType ≠ .internalError)
    · exact .refl
  iterate 5
    split
    · exact unpackScalar_place
  split
  · exact unpackBytes_place
  next hs hn hb hi hi' hf ho hy =>
    simp only [unpackItems, unpackAcceptAny, unpackAcceptArr, List.drop_succ_cons, List.drop_zero,
      List.mem_cons, List.not_mem_nil, or_false] at hc
    tauto

/-- The second switch, at a place where a value was read. -/
theorem unpackNext_consistent (h : st.Consistent) (hxacc : st.xacc ≠ rbrace) :
    Meets (fun x => ∀ u, x = .inl u → u.Consistent) Expected (unpackNext st) := by
  obtain ⟨d, args, acc, xacc, stack, ignore, obj, stores⟩ := st
  have hnested : Nested xacc acc stack := h
  unfold unpackNext
  cases hnested with
  | outside =>
    rw [if_pos rfl, if_neg (not_not_intro rfl)]
    split
    · exact (by decide : JsonError.invalidCharacter ≠ .internalError)
    · exact fun u hu => nomatch hu
  | inside hacc hvalue hbelow =>
    rcases hacc with ⟨rfl, hacc⟩ | ⟨rfl, -⟩ | ⟨rfl, -⟩
    · dsimp only
      rw [if_neg (by decide), if_pos rfl]
      split
      · split
        · exact (by decide : JsonError.outOfRange ≠ .internalError)
        · rintro u ⟨⟩
          exact .inside (.inl ⟨rfl, hacc⟩) hvalue hbelow
      · rintro u ⟨⟩
        exact h
    · exact absurd rfl hxacc
    · dsimp only
      rw [if_neg (by decide), if_neg (by decide), if_pos rfl]
      rintro u ⟨⟩
      exact .inside (.inr (.inl ⟨rfl, .inl rfl⟩)) hvalue hbelow

private theorem unpackKey_consistent (h : st.Consistent) (hne : st.stack ≠ []) :
    Meets UnpackState.Consistent Expected (unpackKey st) := by
  obtain ⟨d, args, acc, xacc, stack, ignore, obj, stores⟩ := st
  have hnested : Nested xacc acc stack := h
  cases hnested with
  | outside => exact absurd rfl hne
  | inside hacc hvalue hbelow =>
    unfold unpackKey
    split
    · exact (by decide : JsonError.nullKey ≠ .internalError)
    · split
      · trivial
      dsimp only
      split
      · exact .inside (.inr (.inr ⟨rfl, rfl⟩)) hvalue hbelow
      split
      · exact .inside (.inr (.inr ⟨rfl, rfl⟩)) hvalue hbelow
      · split
        · exact .inside (.inr (.inr ⟨rfl, rfl⟩)) hvalue hbelow
        · exact (by decide : JsonError.keyNotFound ≠ .internalError)
    · trivial

private theorem unpackOpen_consistent (h : st.Consistent) (hxacc : st.xacc ≠ rbrace) :
    Meets (fun x => ∀ u, x = .inl u → u.Consistent) Expected (unpackOpen st fit c) := by
  unfold unpackOpen
  split
  · dsimp only
    generalize (if st.ignore ≠ 0 then st.ignore + 1 else 0) = ignore
    split
    · exact (by decide : JsonError.missfitType ≠ .internalError)
    split
    · exact unpackNext_consistent (.inside (.inl ⟨rfl, .inl rfl⟩) hxacc h) (show rbracket ≠ rbrace by decide)
    · rintro u ⟨⟩
      exact .inside (.inr (.inl ⟨rfl, .inl rfl⟩)) hxacc h
  · exact (by decide : JsonError.tooDeep ≠ .internalError)

/-- The mark of an end is followed by the closing character. -/
theorem unpackEnd_consistent (h : st.Consistent) (hxacc : st.xacc = rbracket ∨ st.xacc = rbrace) (hne : st.stack ≠ []) :
    Meets UnpackState.Consistent Expected (unpackEnd st c) := by
  have hlast : ({ st with acc := [st.xacc] } : UnpackState D).Consistent := by
    obtain ⟨d, args, acc, xacc, stack, ignore, obj, stores⟩ := st
    have hnested : Nested xacc acc stack := h
    cases hnested with
    | outside => exact absurd rfl hne
    | inside hacc hvalue hbelow =>
      refine .inside ?_ hvalue hbelow
      rcases hxacc with rfl | rfl
      · exact .inl ⟨rfl, .inr rfl⟩
      · exact .inr (.inl ⟨rfl, .inr rfl⟩)
  unfold unpackEnd
  dsimp only
  split
  · split
    · exact (by decide : JsonError.invalidCharacter ≠ .internalError)
    split
    · split
      · trivial
      · split
        · exact (by decide : JsonError.incomplete ≠ .internalError)
        · exact hlast
    · exact hlast
  · exact hlast

private theorem unpackClose_consistent (h : st.Consistent) (hc : c = st.xacc) (hne : st.stack ≠ []) :
    Meets (fun u => u.Consistent ∧ u.xacc ≠ rbrace) Expected (unpackClose st c) := by
  obtain ⟨d, args, acc, xacc, stack, ignore, obj, stores⟩ := st
  have hnested : Nested xacc acc stack := h
  unfold unpackClose
  cases hnested with
  | outside => exact absurd rfl hne
  | inside hacc hvalue hbelow =>
    dsimp only
    rw [if_neg (not_not_intro hc)]
    exact ⟨hbelow, hvalue⟩

/-- An iteration keeps the place consistent, and has no internal error. -/
theorem unpackStep_consistent (h : st.Consistent) :
    Meets (fun x => ∀ u, x = .inl u → u.Consistent) Expected (unpackStep doubles store st) := by
  have hmap {r : Except (Stop (UnpackState D)) (UnpackState D)} (hr : Meets UnpackState.Consistent Expected r) :
      Meets (fun x : UnpackState D ⊕ UnpackState D => ∀ u, x = .inl u → u.Consistent) Expected (r.map .inl) := by
    refine Meets.map (hr.imp fun u hu v hv => ?_)
    cases hv
    exact hu
  have hread : ({ st with d := advance st.d } : UnpackState D).Consistent := h
  unfold unpackStep
  dsimp only
  split
  · exact (by decide : JsonError.truncated ≠ .internalError)
  split
  · exact (by decide : JsonError.invalidCharacter ≠ .internalError)
  next hacc =>
    rcases h.accepted (not_not.mp hacc) with ⟨hvalue, hxacc⟩ | ⟨hs, hxacc, hne⟩ | ⟨hmark, hxacc, hne⟩ | ⟨hclose, heq, hne⟩
    · rw [if_neg fun hkey => hxacc hkey.2]
      by_cases hopen : cur st.d = lbracket ∨ cur st.d = lbrace
      · rw [if_pos hopen]
        exact unpackOpen_consistent hread hxacc
      · have hitem : cur st.d ∈ unpackItems := by
          change cur st.d ∈ lbracket :: lbrace :: unpackItems at hvalue
          rw [List.mem_cons, List.mem_cons] at hvalue
          tauto
        have hmark : ¬ (cur st.d = bang ∨ cur st.d = star) := by
          rintro (heq | heq)
          all_goals
            rw [heq] at hitem
            exact absurd hitem (by decide)
        rw [if_neg hopen, if_neg hmark]
        refine Meets.bind (unpackItem_place hitem) fun u hu => ?_
        exact unpackNext_consistent (hu.consistent hread) (hu.xacc ▸ hxacc)
    · rw [if_pos ⟨hs, hxacc⟩]
      exact hmap (unpackKey_consistent hread hne)
    · have hs : ¬ (cur st.d = lowerS ∧ st.xacc = rbrace) := by
        rcases hmark with heq | heq
        all_goals
          rw [heq]
          exact fun hkey => absurd hkey.1 (by decide)
      have hopen : ¬ (cur st.d = lbracket ∨ cur st.d = lbrace) := by
        rcases hmark with heq | heq
        all_goals
          rw [heq]
          decide
      rw [if_neg hs, if_neg hopen, if_pos hmark]
      exact hmap (unpackEnd_consistent hread hxacc hne)
    · have hbrackets : cur st.d ∉ [lowerS, lbracket, lbrace, bang, star] ∧
          unpackItem doubles store { st with d := advance st.d } st.d (cur st.d) =
            unpackClose { st with d := advance st.d } (cur st.d) := by
        rcases hclose with heq | heq
        all_goals
          rw [heq]
          exact ⟨by decide, rfl⟩
      obtain ⟨hno, hitem⟩ := hbrackets
      simp only [List.mem_cons, List.not_mem_nil, or_false, not_or] at hno
      rw [if_neg fun hkey => hno.1 hkey.1, if_neg (not_or.mpr ⟨hno.2.1, hno.2.2.1⟩), if_neg (not_or.mpr hno.2.2.2), hitem]
      exact Meets.bind (unpackClose_consistent hread heq hne) fun u hu => unpackNext_consistent hu.1 hu.2

variable {object : JsonObject D} {desc : Bytes} {args : List UnpackArg}

private theorem consistent_steps (h : Steps (unpackStep doubles store) (unpackStart object desc args) st) :
    st.Consistent := by
  refine h.keeps (I := UnpackState.Consistent) (fun u v hu hstep => ?_) .outside
  exact (meets_iff.mp (unpackStep_consistent hu)).1 _ hstep v rfl

variable (doubles store) in
/-- The loop ends, without internal error. -/
theorem unpackRun_expected (object : JsonObject D) (desc : Option Bytes) (args : List UnpackArg) :
    ∃ r, unpackRun doubles store object desc args = some r ∧ Safe r := by
  cases desc with
  | none => exact ⟨_, rfl, (by decide : JsonError.nullSpec ≠ .internalError)⟩
  | some desc =>
    obtain ⟨r, hr⟩ := exists_ends doubles store (unpackStart object desc args)
    refine ⟨r, unpackRun_iff.mpr hr, ?_⟩
    cases r with
    | ok u => trivial
    | error stop =>
      obtain ⟨u, hsteps, hlast⟩ := hr.last
      exact (meets_iff.mp (unpackStep_consistent (consistent_steps hsteps))).2 _ hlast

end

private theorem not_closing {P : UInt8 → Prop} {c : UInt8} (h : P c) (hbrace : ¬ P rbrace)
    (hbracket : ¬ P rbracket) :
    ¬ (c = rbrace ∨ c = rbracket) := by
  rintro (rfl | rfl)
  · exact hbrace h
  · exact hbracket h

/-- Both interpreters end, and never return the code of an internal error, at any position. In all the
states that they go through the stack is consistent, and the closing character that is accepted is
that of the innermost open container. -/
theorem no_internal_error (strings : StringMaker) (doubles : Doubles D) (store : Bool) :
    (∀ (desc : Option Bytes) (args : List (PackArg D)) (mem : List Bool),
      (∃ r, wrapJsonVpack strings desc args mem = some r ∧
        ∀ position obj, r ≠ .done (JsonError.internalError.rc position) obj) ∧
      ∀ text ∈ desc, ∀ st, Steps (packStep strings) (packStart text args mem) st → Slots st.stack ∧
        ∀ top below, st.stack = top :: below → cur st.d ∈ top.acc → cur st.d = rbrace ∨ cur st.d = rbracket →
          cur st.d = top.type ∧ below ≠ []) ∧
    ∀ (object : JsonObject D) (desc : Option Bytes) (args : List UnpackArg),
      (∃ r, vunpack doubles store object desc args = some r ∧
        ∀ position stores, r ≠ .done (JsonError.internalError.rc position) stores) ∧
      ∀ text ∈ desc, ∀ st, Steps (unpackStep doubles store) (unpackStart object text args) st → st.Consistent ∧
        (cur st.d ∈ st.acc → cur st.d = rbrace ∨ cur st.d = rbracket → cur st.d = st.xacc ∧ st.stack ≠ []) := by
  have hzero (position : Nat) : (0 : Int32) ≠ JsonError.internalError.rc position :=
    (JsonError.rc_ne_zero _ position).symm
  constructor
  · intro desc args mem
    obtain ⟨r, hr, hsafe⟩ := packRun_expected strings desc args mem
    refine ⟨⟨_, by rw [wrapJsonVpack, hr]; rfl, fun position obj => ?_⟩, fun text _ st hsteps => ?_⟩
    · match r, hsafe with
      | .ok _, _ => exact fun h => hzero position (PackResult.done.inj h).1
      | .error (.error e u), hsafe => exact fun h => expected_rc hsafe _ position (PackResult.done.inj h).1
      | .error (.fault f), _ => exact nofun
    · have hslots := slots_steps hsteps
      refine ⟨hslots, fun top below hstack hacc hclose => ?_⟩
      rw [hstack] at hslots
      rcases hslots.accepted hacc with hitem | hopen | ⟨-, hclosed⟩
      · exact absurd hclose (not_closing (P := (· ∈ packItems)) hitem (by decide) (by decide))
      · exact absurd hclose (not_closing (P := fun c => c = lbracket ∨ c = lbrace) hopen (by decide) (by decide))
      · exact hclosed
  · intro object desc args
    obtain ⟨r, hr, hsafe⟩ := unpackRun_expected doubles store object desc args
    refine ⟨⟨_, by rw [vunpack, hr]; rfl, fun position stores => ?_⟩, fun text _ st hsteps => ?_⟩
    · match r, hsafe with
      | .ok _, _ => exact fun h => hzero position (UnpackResult.done.inj h).1
      | .error (.error e u), hsafe => exact fun h => expected_rc hsafe _ position (UnpackResult.done.inj h).1
      | .error (.fault f), _ => exact nofun
    · have hnested := consistent_steps hsteps
      refine ⟨hnested, fun hacc hclose => ?_⟩
      rcases hnested.accepted hacc with ⟨hitem, -⟩ | ⟨hs, -⟩ | ⟨hmark, -⟩ | ⟨-, hclosed⟩
      · exact absurd hclose (not_closing (P := (· ∈ unpackAcceptAny)) hitem (by decide) (by decide))
      · exact absurd hclose (not_closing (P := (· = lowerS)) hs (by decide) (by decide))
      · exact absurd hclose (not_closing (P := fun c => c = bang ∨ c = star) hmark (by decide) (by decide))
      · exact hclosed

end AfbBinder.WrapJson
