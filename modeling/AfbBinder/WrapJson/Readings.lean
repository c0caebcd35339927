import AfbBinder.Lib.Checked
import AfbBinder.WrapJson.Shapes

/-! The interpreter vunpack over the text of a shape: it does what the shape means, and nothing
when the value is ignored. -/
namespace AfbBinder.WrapJson
open Lib.Cstrings Lib.Checked Lib.Loops
open Lib.Json (lbracket rbracket lbrace rbrace colon)

section
variable {D : Type} {doubles : Doubles D} {store : Bool}

variable (store) in
/-- The value is the next thing to read, before the rest. A % would belong to it. -/
structure Ready (v : Shape) (st : UnpackState D) (rest : Bytes) (args : List UnpackArg) : Prop where
  skipped : Skipped st.d
  text : significant st.d = v.text ++ rest
  args : st.args = v.args store ++ args
  delimited : rest.head? ≠ some percent
  acc : st.acc = unpackAcceptAny ∨ st.acc = unpackAcceptArr
  place : st.xacc ≠ rbrace
  depth : st.stack.length + v.depth ≤ STACKCOUNT

/-- The value has been read, with its arguments. -/
structure Left (st st' : UnpackState D) (rest : Bytes) (args : List UnpackArg) : Prop where
  skipped : Skipped st'.d
  text : significant st'.d = rest
  args : st'.args = args
  acc : st'.acc = st.acc
  xacc : st'.xacc = st.xacc
  stack : st'.stack = st.stack
  ignore : st'.ignore = st.ignore

variable (doubles store) in
/-- From what an iteration gives, the outcome is met: the stores are made, and then the second
switch is at such a state, or it is the end for the error. -/
def Arrives (x : Except (Stop (UnpackState D)) (UnpackState D ⊕ UnpackState D)) (l : List (Nat × Stored D))
    (o : Outcome D) (P : UnpackState D → Prop) : Prop :=
  match o.error with
  | none => ∃ st', Leads (unpackStep doubles store) unpackNext st' x ∧ P st' ∧ st'.stores = l ++ o.stores
  | some e => ∃ st', Goes (unpackStep doubles store) x (.error (.error e st')) ∧ st'.stores = l ++ o.stores

variable (doubles store) in
/-- What the reading of a value does. -/
def Shape.Runs (v : Shape) : Prop := ∀ {st : UnpackState D} {rest : Bytes} {args : List UnpackArg},
  Ready store v st rest args → Arrives doubles store (unpackStep doubles store st) st.stores
    (if st.ignore = 0 then v.meaning doubles store st.obj else .ok []) (Left st · rest args)

section
variable {x : Except (Stop (UnpackState D)) (UnpackState D ⊕ UnpackState D)} {l : List (Nat × Stored D)}
  {o o' : Outcome D} {P Q : UnpackState D → Prop} {st w : UnpackState D} {e : JsonError}

private theorem Arrives.imp (h : Arrives doubles store x l o P) (hP : ∀ st', P st' → Q st') :
    Arrives doubles store x l o Q := by
  unfold Arrives at *
  split at h
  · obtain ⟨st', hleads, hp, hl⟩ := h
    exact ⟨st', hleads, hP st' hp, hl⟩
  · exact h

private theorem Arrives.later (h : Arrives doubles store (unpackStep doubles store w) l o P) :
    Arrives doubles store (.ok (.inl w)) l o P := by
  unfold Arrives at *
  split at h
  · obtain ⟨st', hleads, h⟩ := h
    exact ⟨st', .later hleads, h⟩
  · obtain ⟨st', hgoes, h⟩ := h
    exact ⟨st', ends_iff_goes.mpr hgoes, h⟩

private theorem Arrives.here {k : List (Nat × Stored D)} (hP : P st) (hl : st.stores = l ++ k) :
    Arrives doubles store (unpackNext st) l (.ok k) P :=
  ⟨st, .here, hP, hl⟩

private theorem Arrives.fail (hl : st.stores = l) : Arrives doubles store (.error (.error e st)) l
    (.fail e) P :=
  ⟨st, rfl, hl.trans (List.append_nil l).symm⟩

/-- One outcome after the other. -/
theorem Arrives.andThen (h : Arrives doubles store x l o P)
    (hnext : ∀ st', P st' → st'.stores = l ++ o.stores → Arrives doubles store (unpackNext st') st'.stores o' Q) :
    Arrives doubles store x l (o.andThen o') Q := by
  unfold Outcome.andThen
  cases herror : o.error with
  | some e =>
    unfold Arrives at *
    rw [herror] at h ⊢
    exact h
  | none =>
    unfold Arrives at h
    rw [herror] at h
    obtain ⟨st', hleads, hp, hl⟩ := h
    have hlast := hnext st' hp hl
    unfold Arrives at *
    dsimp only
    split at hlast
    next hnone =>
      obtain ⟨st'', hleads', hq, hl'⟩ := hlast
      exact ⟨st'', hleads.trans hleads', hq, by rw [hl', hl, List.append_assoc]⟩
    next e he =>
      obtain ⟨st'', hgoes, hl'⟩ := hlast
      exact ⟨st'', hleads.goes.mpr hgoes, by rw [hl', hl, List.append_assoc]⟩

private theorem Arrives.nothing (h : Arrives doubles store x l (.ok []) P)
    (hnext : ∀ st', P st' → st'.stores = l → Arrives doubles store (unpackNext st') st'.stores o' Q) :
    Arrives doubles store x l o' Q :=
  Arrives.andThen h fun st' hp hl => hnext st' hp (hl.trans (List.append_nil l))

end

/-! The values that are no containers. -/

section
variable {v : Shape} {st : UnpackState D} {rest : Bytes} {args : List UnpackArg} {c : UInt8}

private theorem Ready.accepts (h : Ready store v st rest args) (hc : c ∈ unpackAcceptAny) : c ∈ st.acc := by
  rcases h.acc with hacc | hacc
  · rwa [hacc]
  · rw [hacc]
    exact List.mem_of_mem_drop hc

/-- The character of a value is accepted, and no NUL nor a mark. -/
theorem acceptAny_ne (hc : c ∈ unpackAcceptAny) : c ≠ 0 ∧ c ≠ bang ∧ c ≠ star ∧ c ≠ rbracket ∧ c ≠ rbrace := by
  refine ⟨?_, ?_, ?_, ?_, ?_⟩ <;> rintro rfl <;> exact absurd hc (by decide)

/-- An iteration for a value that is no container. -/
theorem Ready.step_item (h : Ready store v st rest args) (htext : ∃ t, v.text = c :: t) (hc : c ∈ unpackAcceptAny)
    (hopen : c ≠ lbracket ∧ c ≠ lbrace) : unpackStep doubles store st =
      (unpackItem doubles store { st with d := advance st.d } st.d c).bind unpackNext := by
  obtain ⟨t, ht⟩ := htext
  have hsplit := h.skipped.split (h.text.trans (congrArg (· ++ rest) ht))
  obtain ⟨hzero, hbang, hstar, -⟩ := acceptAny_ne hc
  rw [unpackStep, hsplit.1]
  dsimp only
  rw [if_neg hzero, if_neg (not_not_intro (h.accepts hc)), if_neg fun hkey => h.place hkey.2, if_neg (not_or.mpr hopen),
    if_neg (not_or.mpr ⟨hbang, hstar⟩)]

private theorem takeArg_stored (st : UnpackState D) (asArg : UnpackArg → Option (Option Nat))
    {a : UnpackArg} {as : List UnpackArg} {p : Option Nat}
    (hargs : st.args = stored store (a :: as) ++ args) (ha : asArg a = some p) :
    takeArg store asArg st = .ok (address store p, { st with args := stored store as ++ args }) := by
  unfold takeArg
  cases store with
  | true =>
    have hcons : st.args = a :: (as ++ args) := hargs
    rw [if_pos rfl, hcons]
    dsimp only
    rw [ha]
    rfl
  | false =>
    have hsame : st.args = args := hargs
    rw [if_neg Bool.false_ne_true, ← hsame]
    rfl

private theorem put_stores (st : UnpackState D) (p : Option Nat) (x : Stored D) :
    (st.put p x).stores = st.stores ++ storedAt p x := by
  cases p with
  | none => exact (List.append_nil _).symm
  | some p => rfl

private theorem Left.put {st' : UnpackState D} (h : Left st st' rest args) (p : Option Nat) (x : Stored D) :
    Left st (st'.put p x) rest args := by
  cases p with
  | none => exact h
  | some p => exact ⟨h.skipped, h.text, h.args, h.acc, h.xacc, h.stack, h.ignore⟩

private theorem Ready.left (h : Ready store v st rest args) (htext : v.text = [c]) :
    Left st { st with d := advance st.d, args } rest args := by
  have hsplit := h.skipped.split (h.text.trans (congrArg (· ++ rest) htext))
  exact ⟨hsplit.2.2, hsplit.2.1, rfl, rfl, rfl, rfl, rfl⟩

/-- A value that is stored at one address. -/
theorem Ready.scalar (h : Ready store v st rest args) (htext : v.text = [c]) (hc : c ∈ unpackAcceptAny)
    (hopen : c ≠ lbracket ∧ c ≠ lbrace) {asArg : UnpackArg → Option (Option Nat)} {a : UnpackArg} {p : Option Nat}
    (hargs : v.args store = stored store [a]) (ha : asArg a = some p) {value : JsonObject D → Option (Stored D)}
    (hitem : ∀ u fit, unpackItem doubles store u fit c = unpackScalar store u fit asArg value) :
    Arrives doubles store (unpackStep doubles store st) st.stores
      (if st.ignore = 0 then valueOutcome store p (value st.obj) else .ok []) (Left st · rest args) := by
  have htake := takeArg_stored { st with d := advance st.d } asArg (h.args.trans (congrArg (· ++ args) hargs)) ha
  have hnil : stored store [] ++ args = args := by cases store <;> rfl
  have hleft := h.left htext
  rw [hnil] at htake
  rw [h.step_item ⟨[], htext⟩ hc hopen, hitem, unpackScalar, htake, ok_bind]
  unfold storeValue
  dsimp only
  by_cases hignore : st.ignore = 0
  · rw [if_pos hignore, if_pos hignore]
    cases value st.obj with
    | none => exact .fail rfl
    | some x => exact .here (hleft.put _ x) (put_stores ..)
  · rw [if_neg hignore, if_neg hignore]
    exact .here hleft (List.append_nil _).symm

private theorem runs_null : (Shape.null).Runs doubles store := by
  intro st rest args h
  have hleft := h.left (c := lowerN) rfl
  have hargs : st.args = args := h.args
  rw [h.step_item ⟨[], rfl⟩ (by decide) (by decide)]
  have hitem : unpackItem doubles store { st with d := advance st.d } st.d lowerN =
      if st.ignore = 0 ∧ !st.obj.isNull then .error (missfit { st with d := advance st.d } st.d)
      else .ok { st with d := advance st.d } := rfl
  rw [hitem, Shape.meaning]
  rw [← hargs] at hleft ⊢
  by_cases hignore : st.ignore = 0
  · cases hnull : st.obj.isNull with
    | true =>
      rw [if_pos hignore, if_neg (by simp), if_pos rfl]
      exact .here hleft (List.append_nil _).symm
    | false =>
      rw [if_pos hignore, if_pos ⟨hignore, rfl⟩, if_neg Bool.false_ne_true]
      exact .fail rfl
  · rw [if_neg hignore, if_neg fun hn => hignore hn.1]
    exact .here hleft (List.append_nil _).symm

private theorem Left.cur_ne (h : Ready store v st rest args) {st' : UnpackState D}
    (hleft : Left st st' rest args) :
    cur st'.d ≠ percent := by
  have hdelimited := h.delimited
  rw [hleft.skipped.cur_eq, hleft.text]
  cases rest with
  | nil => exact fun h => absurd h (by decide)
  | cons b rest => exact fun hb => hdelimited (congrArg some hb)

private theorem runs_string_plain (p : Option Nat) : (Shape.string p none).Runs doubles store := by
  intro st rest args h
  have htake := takeArg_stored { st with d := advance st.d } UnpackArg.asString h.args rfl
  have hnil : stored store [] ++ args = args := by cases store <;> rfl
  have hleft := h.left (c := lowerS) rfl
  have hitem (u : UnpackState D) (fit : Bytes) : unpackItem doubles store u fit lowerS = unpackString store u fit := rfl
  rw [hnil] at htake
  rw [h.step_item ⟨[], rfl⟩ (by decide) (by decide), hitem, unpackString, unpackScalar, htake, ok_bind]
  unfold storeValue
  dsimp only
  by_cases hignore : st.ignore = 0
  · rw [if_pos hignore, if_pos hignore, Shape.meaning]
    cases stringValue st.obj with
    | none => exact .fail rfl
    | some x =>
      have hput := hleft.put (address store p) x
      dsimp only
      rw [ok_bind, if_neg (hput.cur_ne h)]
      refine .here hput ((put_stores ..).trans ?_)
      exact congrArg _ (List.append_nil _).symm
  · rw [if_neg hignore, if_neg hignore, ok_bind, if_neg (hleft.cur_ne h)]
    exact .here hleft (List.append_nil _).symm

private theorem runs_string_size (p pz : Option Nat) : (Shape.string p (some pz)).Runs doubles store := by
  intro st rest args h
  have htake := takeArg_stored { st with d := advance st.d } UnpackArg.asString h.args rfl
  have hitem (u : UnpackState D) (fit : Bytes) : unpackItem doubles store u fit lowerS = unpackString store u fit := rfl
  obtain ⟨-, htext, hskipped⟩ := h.skipped.split h.text
  obtain ⟨hpercent, hrest, hskipped'⟩ := hskipped.split htext
  have hsize (u : UnpackState D) (hu : u.args = stored store [.size pz] ++ args) :
      takeArg store UnpackArg.asSize u = .ok (address store pz, { u with args }) := by
    have hnil : stored store [] ++ args = args := by cases store <;> rfl
    have htaken := takeArg_stored u UnpackArg.asSize hu rfl
    rwa [hnil] at htaken
  rw [h.step_item ⟨_, rfl⟩ (by decide) (by decide), hitem, unpackString, unpackScalar, htake, ok_bind]
  unfold storeValue
  dsimp only
  by_cases hignore : st.ignore = 0
  · rw [if_pos hignore, if_pos hignore, Shape.meaning]
    cases stringValue st.obj with
    | none => exact .fail rfl
    | some x =>
      dsimp only
      rw [ok_bind]
      generalize hput : UnpackState.put { st with d := advance st.d, args := stored store [.size pz] ++ args }
        (address store p) x = u
      have hstores := put_stores { st with d := advance st.d, args := stored store [.size pz] ++ args } (address store p) x
      rw [hput] at hstores
      have hsame : u = { st with d := advance st.d, args := stored store [.size pz] ++ args, stores := u.stores } := by
        rw [← hput]
        cases address store p <;> rfl
      rw [hsame, if_pos hpercent, hsize _ rfl, ok_bind, if_pos hignore]
      dsimp only
      have hlast : Left st { st with d := advance (advance st.d), args, stores := u.stores } rest args :=
        ⟨hskipped', hrest, rfl, rfl, rfl, rfl, rfl⟩
      refine .here (hlast.put _ _) ((put_stores ..).trans ?_)
      dsimp only
      rw [hstores]
      exact List.append_assoc ..
  · rw [if_neg hignore, if_neg hignore, ok_bind, if_pos hpercent, hsize _ rfl, ok_bind, if_neg hignore]
    exact .here ⟨hskipped', hrest, rfl, rfl, rfl, rfl, rfl⟩ (List.append_nil _).symm

private theorem runs_bytes (url : Bool) (py pz : Option Nat) : (Shape.bytes url py pz).Runs doubles store := by
  intro st rest args h
  have htext : (Shape.bytes url py pz).text = [if url then lowerY else upperY] := rfl
  have hc : (if url then lowerY else upperY) ∈ unpackAcceptAny := by cases url <;> decide
  have hopen : (if url then lowerY else upperY) ≠ lbracket ∧ (if url then lowerY else upperY) ≠ lbrace := by
    cases url <;> decide
  have hitem (u : UnpackState D) (fit : Bytes) :
      unpackItem doubles store u fit (if url then lowerY else upperY) = unpackBytes store u fit := by
    cases url <;> rfl
  have htake := takeArg_stored { st with d := advance st.d } UnpackArg.asBytes h.args rfl
  have hsize : takeArg store UnpackArg.asSize
      { st with d := advance st.d, args := stored store [.size pz] ++ args } =
        .ok (address store pz, { st with d := advance st.d, args }) := by
    have hnil : stored store [] ++ args = args := by cases store <;> rfl
    have htaken := takeArg_stored { st with d := advance st.d, args := stored store [.size pz] ++ args }
      UnpackArg.asSize rfl rfl
    rwa [hnil] at htaken
  have hleft (o : JsonObject D) : Left st { st with d := advance st.d, args, obj := o } rest args :=
    let hl := h.left htext
    ⟨hl.skipped, hl.text, hl.args, hl.acc, hl.xacc, hl.stack, hl.ignore⟩
  have hput (o : JsonObject D) (data : Option Bytes) : Left st (putBytes { st with d := advance st.d, args, obj := o }
      (address store py) (address store pz) data) rest args ∧
        (putBytes { st with d := advance st.d, args, obj := o } (address store py) (address store pz) data).stores =
          st.stores ++ bytesStores (address store py) (address store pz) data := by
    cases address store py with
    | none => exact ⟨hleft o, (List.append_nil _).symm⟩
    | some a =>
      cases address store pz with
      | none => exact ⟨hleft o, (List.append_nil _).symm⟩
      | some b => exact ⟨((hleft o).put (some a) _).put (some b) _, List.append_assoc ..⟩
  rw [h.step_item ⟨[], htext⟩ hc hopen, hitem, unpackBytes, htake, ok_bind]
  dsimp only
  rw [hsize, ok_bind]
  dsimp only
  by_cases hignore : st.ignore = 0
  · rw [if_pos hignore, if_pos hignore, Shape.meaning]
    cases st.obj with
    | null => exact .here (hput _ none).1 (hput _ none).2
    | string s =>
      unfold bytesOutcome
      dsimp only
      split
      · cases decodeBase64 s with
        | none => exact .fail rfl
        | some data => exact .here (hput _ (some data)).1 (hput _ (some data)).2
      · exact .here (hleft _) (List.append_nil _).symm
    | _ => exact .fail rfl
  · rw [if_neg hignore, if_neg hignore]
    exact .here (hleft _) (List.append_nil _).symm

end

/-! The containers. -/

/-- The interpreter is within a container that the character ends. -/
structure Inside (st : UnpackState D) (top : UnpackFrame D) (below : List (UnpackFrame D)) (close : UInt8)
    (text : Bytes) (args : List UnpackArg) : Prop where
  skipped : Skipped st.d
  text : significant st.d = text
  args : st.args = args
  xacc : st.xacc = close
  stack : st.stack = top :: below

/-- The container has been closed, that was there with the count of what is ignored. -/
structure Closed (top : UnpackFrame D) (below : List (UnpackFrame D)) (ignore : Nat) (rest : Bytes)
    (args : List UnpackArg) (st : UnpackState D) : Prop where
  skipped : Skipped st.d
  text : significant st.d = rest
  args : st.args = args
  acc : st.acc = top.acc
  xacc : st.xacc = top.type
  stack : st.stack = below
  ignore : st.ignore = ignore - 1

section
variable {st : UnpackState D} {top : UnpackFrame D} {below : List (UnpackFrame D)} {close : UInt8} {rest : Bytes}
  {args : List UnpackArg} {mark : Mark}

/-- The end of a container. -/
theorem Inside.closed (h : Inside st top below close (close :: rest) args) (hclose : close = rbracket ∨ close = rbrace)
    (hacc : close ∈ st.acc) {ignore : Nat} (hignore : st.ignore = ignore) {l : List (Nat × Stored D)}
    (hl : st.stores = l) : Arrives doubles store (unpackStep doubles store st) l (.ok [])
      (Closed top below ignore rest args) := by
  obtain ⟨hcur, hrest, hskipped⟩ := h.skipped.split h.text
  have hstep : unpackStep doubles store st = unpackNext
      { st with d := advance st.d, acc := top.acc, xacc := top.type, stack := below, ignore := st.ignore - 1 } := by
    have hclosed : unpackClose { st with d := advance st.d } close =
        .ok { st with d := advance st.d, acc := top.acc, xacc := top.type, stack := below, ignore := st.ignore - 1 } := by
      unfold unpackClose
      split
      · next hnil => rw [h.stack] at hnil; cases hnil
      · next hcons =>
        rw [h.stack] at hcons
        cases hcons
        exact if_neg (not_not_intro h.xacc.symm)
    have hitem : unpackItem doubles store { st with d := advance st.d } st.d close =
        unpackClose { st with d := advance st.d } close := by
      rcases hclose with rfl | rfl <;> rfl
    have hne : close ≠ 0 ∧ ¬(close = lowerS ∧ st.xacc = rbrace) ∧ ¬(close = lbracket ∨ close = lbrace) ∧
        ¬(close = bang ∨ close = star) := by
      refine ⟨?_, fun hs => ?_, ?_, ?_⟩
      · rcases hclose with rfl | rfl <;> decide
      · rcases hclose with heq | heq <;> rw [heq] at hs <;> exact absurd hs.1 (by decide)
      · rcases hclose with rfl | rfl <;> decide
      · rcases hclose with rfl | rfl <;> decide
    rw [unpackStep, hcur]
    dsimp only
    rw [if_neg hne.1, if_neg (not_not_intro hacc), if_neg hne.2.1, if_neg hne.2.2.1, if_neg hne.2.2.2, hitem, hclosed,
      ok_bind]
  rw [hstep]
  exact .here ⟨hskipped, hrest, h.args, rfl, rfl, rfl, congrArg (· - 1) hignore⟩ (hl.trans (List.append_nil _).symm)

/-- The end of a container, with its mark. -/
theorem Inside.marked (h : Inside st top below close (mark.text ++ close :: rest) args)
    (hclose : close = rbracket ∨ close = rbrace) (hacc : ∀ c, c = close ∨ c = bang ∨ c = star → c ∈ st.acc) :
    Arrives doubles store (unpackStep doubles store st) st.stores
      (if st.ignore = 0 then markOutcome mark top.count top.index else .ok []) (Closed top below st.ignore rest args) := by
  have hmark (c : UInt8) (hc : c = bang ∨ c = star) : c ∈ st.acc → cur st.d = c → unpackStep doubles store st =
      (unpackEnd { st with d := advance st.d } c).map .inl := by
    intro hin hcur
    have hne : c ≠ 0 ∧ c ≠ lowerS ∧ ¬(c = lbracket ∨ c = lbrace) := by
      rcases hc with rfl | rfl <;> decide
    rw [unpackStep, hcur]
    dsimp only
    rw [if_neg hne.1, if_neg (not_not_intro hin), if_neg fun hs => hne.2.1 hs.1, if_neg hne.2.2, if_pos hc]
  have hlast (htext : significant (advance st.d) = close :: rest) (hskipped : Skipped (advance st.d)) :
      Arrives doubles store (.ok (.inl { st with d := advance st.d, acc := [st.xacc] })) st.stores (.ok [])
        (Closed top below st.ignore rest args) := by
    have hwithin : Inside { st with d := advance st.d, acc := [st.xacc] } top below close (close :: rest) args :=
      ⟨hskipped, htext, h.args, h.xacc, h.stack⟩
    exact .later (hwithin.closed hclose (List.mem_singleton.mpr h.xacc.symm) rfl rfl)
  cases mark with
  | none =>
    have houtcome : (if st.ignore = 0 then markOutcome Mark.none top.count top.index else .ok []) =
        (.ok [] : Outcome D) := ite_self _
    rw [houtcome]
    exact h.closed hclose (hacc close (.inl rfl)) rfl rfl
  | rest =>
    obtain ⟨hcur, htext, hskipped⟩ := h.skipped.split h.text
    have houtcome : (if st.ignore = 0 then markOutcome Mark.rest top.count top.index else .ok []) =
        (.ok [] : Outcome D) := ite_self _
    rw [houtcome, hmark star (.inr rfl) (hacc star (.inr (.inr rfl))) hcur]
    exact hlast htext hskipped
  | strict =>
    obtain ⟨hcur, htext, hskipped⟩ := h.skipped.split h.text
    obtain ⟨hnext, -, -⟩ := hskipped.split htext
    rw [hmark bang (.inl rfl) (hacc bang (.inr (.inl rfl))) hcur, unpackEnd, if_pos rfl]
    dsimp only
    rw [hnext, if_neg (not_not_intro h.xacc.symm)]
    by_cases hignore : st.ignore = 0
    · rw [if_pos hignore, if_pos hignore, markOutcome]
      split
      · next hnil => rw [h.stack] at hnil; cases hnil
      · next hcons =>
        rw [h.stack] at hcons
        cases hcons
        by_cases hcount : top.index ≠ top.count
        · rw [if_pos hcount, if_pos ⟨rfl, hcount⟩]
          exact .fail rfl
        · rw [if_neg hcount, if_neg fun hs => hcount hs.2]
          exact hlast htext hskipped
    · rw [if_neg hignore, if_neg hignore]
      exact hlast htext hskipped

end

private theorem Shape.text_head (v : Shape) : ∃ c t, v.text = c :: t ∧ c ∈ unpackAcceptAny := by
  cases v with
  | string p size => cases size <;> exact ⟨_, _, rfl, by decide⟩
  | double int p => cases int <;> exact ⟨_, _, rfl, by decide⟩
  | any own p => cases own <;> exact ⟨_, _, rfl, by decide⟩
  | bytes url py pz => cases url <;> exact ⟨_, _, rfl, by decide⟩
  | _ => exact ⟨_, _, rfl, by decide⟩

/-- No % comes after an item. -/
theorem shapesText_head (items : List Shape) (mark : Mark) {close : UInt8} (hclose : close = rbracket ∨ close = rbrace)
    (rest : Bytes) : (shapesText items ++ (mark.text ++ close :: rest)).head? ≠ some percent := by
  cases items with
  | nil =>
    cases mark with
    | none => rcases hclose with rfl | rfl <;> exact fun h => absurd (Option.some.inj h) (by decide)
    | _ => exact fun h => absurd (Option.some.inj h) (by decide)
  | cons v items =>
    obtain ⟨c, t, htext, hc⟩ := v.text_head
    rw [shapesText, htext]
    intro h
    cases h
    exact absurd hc (by decide)

private theorem fieldsText_head (members : List ((KeyBlock × Bool) × Shape)) (mark : Mark) (rest : Bytes) :
    (fieldsText members ++ (mark.text ++ rbrace :: rest)).head? ≠ some percent := by
  cases members with
  | nil => exact shapesText_head [] mark (.inr rfl) rest
  | cons m members =>
    obtain ⟨⟨k, optional⟩, v⟩ := m
    rw [fieldsText]
    cases optional <;> exact fun h => absurd (Option.some.inj h) (by decide)

section
variable {st : UnpackState D} {top : UnpackFrame D} {below : List (UnpackFrame D)} {rest : Bytes}
  {args : List UnpackArg} {mark : Mark} {text : Bytes}

private theorem Inside.next_end (h : Inside st top below rbracket text args) (hcur : cur st.d ∉ unpackAcceptAny)
    (hne : cur st.d ≠ 0) : unpackNext st = .ok (.inl st) := by
  rw [unpackNext, h.xacc, if_neg (by decide), if_pos rfl, if_neg]
  rintro ⟨-, hzero | hin⟩
  · exact hne hzero
  · exact hcur hin

private theorem Inside.next_ignored (h : Inside st top below rbracket text args) (hignore : st.ignore ≠ 0) :
    unpackNext st = .ok (.inl st) := by
  rw [unpackNext, h.xacc, if_neg (by decide), if_pos rfl, if_neg fun hn => hignore hn.1]

/-- In an array, before an item. -/
theorem Inside.next_item (h : Inside st top below rbracket text args) (hcur : cur st.d ∈ unpackAcceptAny)
    (hignore : st.ignore = 0) {js : List (JsonObject D)} (hparent : top.parent = .array js) : unpackNext st =
      if top.count ≤ top.index then .error (.error .outOfRange st)
      else .ok (.inl { st with
        obj := js.getD top.index.toNatClampNeg .null, stack := { top with index := top.index + 1 } :: below }) := by
  rw [unpackNext, h.xacc, if_neg (by decide), if_pos rfl, if_pos ⟨hignore, .inr hcur⟩]
  split
  · next hnil => rw [h.stack] at hnil; cases hnil
  · next hcons =>
    rw [h.stack] at hcons
    cases hcons
    rw [hparent]

/-- The items of an array, to its end. -/
theorem runs_items {items : List Shape} (h : ∀ v ∈ items, v.Runs doubles store)
    (hwithin : Inside st top below rbracket (shapesText items ++ (mark.text ++ rbracket :: rest))
      (shapesArgs store items ++ args)) (hacc : st.acc = unpackAcceptArr)
    (hdepth : below.length + 1 + shapesDepth items ≤ STACKCOUNT) {js : List (JsonObject D)}
    (hparent : st.ignore = 0 → top.parent = .array js) :
    Arrives doubles store (unpackNext st) st.stores
      (if st.ignore = 0 then shapesMeaning doubles store items mark js top.count top.index else .ok [])
      (Closed top below st.ignore rest args) := by
  induction items generalizing st top with
  | nil =>
    have hcur : cur st.d ∉ unpackAcceptAny ∧ cur st.d ≠ 0 := by
      rw [hwithin.skipped.cur_eq, hwithin.text]
      cases mark with
      | none => exact ⟨show rbracket ∉ unpackAcceptAny by decide, show rbracket ≠ 0 by decide⟩
      | strict => exact ⟨show bang ∉ unpackAcceptAny by decide, show bang ≠ 0 by decide⟩
      | rest => exact ⟨show star ∉ unpackAcceptAny by decide, show star ≠ 0 by decide⟩
    rw [hwithin.next_end hcur.1 hcur.2]
    refine .later (Inside.marked hwithin (.inl rfl) ?_)
    rintro c (rfl | rfl | rfl) <;> rw [hacc] <;> decide
  | cons v items ih =>
    obtain ⟨c, t, hhead, hc⟩ := v.text_head
    have htext : significant st.d = v.text ++ (shapesText items ++ (mark.text ++ rbracket :: rest)) := by
      rw [hwithin.text, shapesText, List.append_assoc]
    have hargs : st.args = v.args store ++ (shapesArgs store items ++ args) := by
      rw [hwithin.args, shapesArgs, List.append_assoc]
    have hcur : cur st.d ∈ unpackAcceptAny := by
      rw [hwithin.skipped.cur_eq, htext, hhead]
      exact hc
    have hdepth' : below.length + 1 + v.depth ≤ STACKCOUNT ∧ below.length + 1 + shapesDepth items ≤ STACKCOUNT := by
      rw [shapesDepth] at hdepth
      omega
    have hready (u : UnpackState D) (f : UnpackFrame D) (hu : u = { st with obj := u.obj, stack := f :: below }) :
        Ready store v u (shapesText items ++ (mark.text ++ rbracket :: rest)) (shapesArgs store items ++ args) := by
      rw [hu]
      refine ⟨hwithin.skipped, htext, hargs, shapesText_head items mark (.inl rfl) rest, .inr hacc, ?_, hdepth'.1⟩
      dsimp only
      rw [hwithin.xacc]
      decide
    by_cases hignore : st.ignore = 0
    · rw [if_pos hignore, hwithin.next_item hcur hignore (hparent hignore), shapesMeaning]
      by_cases hrange : top.count ≤ top.index
      · rw [if_pos hrange, if_pos hrange]
        exact .fail rfl
      · rw [if_neg hrange, if_neg hrange]
        have hrun := h v List.mem_cons_self (hready { st with
          obj := js.getD top.index.toNatClampNeg .null, stack := { top with index := top.index + 1 } :: below } _ rfl)
        rw [if_pos hignore] at hrun
        refine .andThen (.later hrun) fun st' hleft _ => ?_
        have hinside : Inside st' { top with index := top.index + 1 } below rbracket
            (shapesText items ++ (mark.text ++ rbracket :: rest)) (shapesArgs store items ++ args) :=
          ⟨hleft.skipped, hleft.text, hleft.args, hleft.xacc.trans hwithin.xacc, hleft.stack⟩
        have hrest := ih (fun v hv => h v (List.mem_cons_of_mem _ hv)) hinside (hleft.acc.trans hacc) hdepth'.2
          fun _ => hparent hignore
        rw [hleft.ignore, if_pos hignore] at hrest
        exact hrest.imp fun u hu => ⟨hu.skipped, hu.text, hu.args, hu.acc, hu.xacc, hu.stack, hu.ignore⟩
    · rw [if_neg hignore, hwithin.next_ignored hignore]
      have hrun := h v List.mem_cons_self (hready st top (by rw [← hwithin.stack]))
      rw [if_neg hignore] at hrun
      refine .nothing (.later hrun) fun st' hleft _ => ?_
      have hinside : Inside st' top below rbracket (shapesText items ++ (mark.text ++ rbracket :: rest))
          (shapesArgs store items ++ args) :=
        ⟨hleft.skipped, hleft.text, hleft.args, hleft.xacc.trans hwithin.xacc, hleft.stack.trans hwithin.stack⟩
      have hrest := ih (fun v hv => h v (List.mem_cons_of_mem _ hv)) hinside (hleft.acc.trans hacc) hdepth'.2
        fun hzero => absurd (hleft.ignore.symm.trans hzero) hignore
      rw [hleft.ignore, if_neg hignore] at hrest
      exact hrest

variable (doubles store) in
/-- The reading of a key, before its value. -/
theorem Inside.step_key {v : Shape} {k : KeyBlock} {optional : Bool}
    (h : Inside st top below rbrace (keyText optional ++ (v.text ++ rest)) (.key (some k.1) :: args))
    (hacc : lowerS ∈ st.acc) : ∃ d, Skipped d ∧ significant d = v.text ++ rest ∧ unpackStep doubles store st =
      if st.ignore ≠ 0 then
        .ok (.inl { st with d, args, xacc := colon, acc := unpackAcceptAny, ignore := st.ignore + 1 })
      else
        match objectGetEx top.parent k.name with
        | some obj => .ok (.inl { st with
            d, args, xacc := colon, acc := unpackAcceptAny, obj, stack := { top with index := top.index + 1 } :: below })
        | none =>
          if optional then
            .ok (.inl { st with d, args, xacc := colon, acc := unpackAcceptAny, ignore := 1, obj := .null })
          else .error (.error .keyNotFound { st with d, args, xacc := colon, acc := unpackAcceptAny }) := by
  obtain ⟨c, t, hhead, hc⟩ := v.text_head
  have hsplit : cur st.d = lowerS ∧ ∃ d, d = (if cur (advance st.d) = question then advance (advance st.d)
      else advance st.d) ∧ Skipped d ∧ significant d = v.text ++ rest ∧
        (cur (advance st.d) = question ↔ optional = true) := by
    cases optional with
    | true =>
      obtain ⟨hcur, htext, hskipped⟩ := h.skipped.split h.text
      obtain ⟨hcur', htext', hskipped'⟩ := hskipped.split htext
      exact ⟨hcur, _, rfl, by rwa [if_pos hcur'], by rwa [if_pos hcur'], iff_of_true hcur' rfl⟩
    | false =>
      obtain ⟨hcur, htext, hskipped⟩ := h.skipped.split h.text
      have hne : cur (advance st.d) ≠ question := by
        have htext' : significant (advance st.d) = v.text ++ rest := htext
        rw [hskipped.cur_eq, htext', hhead]
        rintro rfl
        exact absurd hc (by decide)
      exact ⟨hcur, _, rfl, by rwa [if_neg hne], by rwa [if_neg hne], iff_of_false hne Bool.false_ne_true⟩
  obtain ⟨hcur, d, hd, hskipped, htext, hoptional⟩ := hsplit
  refine ⟨d, hskipped, htext, ?_⟩
  rw [unpackStep, hcur]
  dsimp only
  rw [if_neg (by decide), if_neg (not_not_intro hacc), if_pos ⟨rfl, h.xacc⟩, unpackKey]
  dsimp only
  rw [h.args]
  dsimp only
  rw [if_neg (not_not_intro k.2)]
  have hname : k.1.takeWhile (· ≠ 0) = k.name := rfl
  rw [← hd, hname]
  by_cases hignore : st.ignore ≠ 0
  · rw [if_pos hignore, if_pos hignore]
    rfl
  · rw [if_neg hignore, if_neg hignore]
    split
    · next hnil => rw [h.stack] at hnil; cases hnil
    · next hcons =>
      rw [h.stack] at hcons
      cases hcons
      cases objectGetEx top.parent k.name with
      | some obj => rfl
      | none =>
        dsimp only
        rw [if_congr hoptional rfl rfl]
        cases optional <;> rfl

theorem next_colon (hxacc : st.xacc = colon) :
    unpackNext st = .ok (.inl { st with acc := unpackAcceptKey, xacc := rbrace, ignore := st.ignore - 1 }) := by
  rw [unpackNext, hxacc, if_neg (by decide), if_neg (by decide), if_pos rfl]

private theorem Left.next_key {u st' : UnpackState D} {text : Bytes} (hleft : Left u st' text args)
    (hxacc : u.xacc = colon)
    (hstack : u.stack = top :: below) : ∃ w, unpackNext st' = .ok (.inl w) ∧ Inside w top below rbrace text args ∧
      w.acc = unpackAcceptKey ∧ w.ignore = u.ignore - 1 ∧ w.stores = st'.stores :=
  ⟨_, next_colon (hleft.xacc.trans hxacc), ⟨hleft.skipped, hleft.text, hleft.args, rfl, hleft.stack.trans hstack⟩, rfl,
    congrArg (· - 1) hleft.ignore, rfl⟩

/-- The members of an object, to its end. -/
theorem runs_fields {members : List ((KeyBlock × Bool) × Shape)} (h : ∀ m ∈ members, m.2.Runs doubles store)
    (hwithin : Inside st top below rbrace (fieldsText members ++ (mark.text ++ rbrace :: rest))
      (fieldsArgs store members ++ args)) (hacc : st.acc = unpackAcceptKey)
    (hdepth : below.length + 1 + fieldsDepth members ≤ STACKCOUNT) {ms : List (Bytes × JsonObject D)}
    (hparent : st.ignore = 0 → top.parent = .object ms) :
    Arrives doubles store (unpackStep doubles store st) st.stores
      (if st.ignore = 0 then fieldsMeaning doubles store members mark ms top.count top.index else .ok [])
      (Closed top below st.ignore rest args) := by
  induction members generalizing st top with
  | nil =>
    refine Inside.marked hwithin (.inr rfl) ?_
    rintro c (rfl | rfl | rfl) <;> rw [hacc] <;> decide
  | cons m members ih =>
    obtain ⟨⟨k, optional⟩, v⟩ := m
    have hwithin' : Inside st top below rbrace
        (keyText optional ++ (v.text ++ (fieldsText members ++ (mark.text ++ rbrace :: rest))))
        (.key (some k.1) :: (v.args store ++ (fieldsArgs store members ++ args))) := by
      refine ⟨hwithin.skipped, ?_, ?_, hwithin.xacc, hwithin.stack⟩
      · rw [hwithin.text, fieldsText, List.append_assoc, List.append_assoc]
      · rw [hwithin.args, fieldsArgs, List.cons_append, List.append_assoc]
    have hdepth' : below.length + 1 + v.depth ≤ STACKCOUNT ∧ below.length + 1 + fieldsDepth members ≤ STACKCOUNT := by
      rw [fieldsDepth] at hdepth
      omega
    obtain ⟨d, hskipped, htext, hstep⟩ := hwithin'.step_key doubles store
      (by rw [hacc]; decide)
    have hready (u : UnpackState D) (f : UnpackFrame D) (hu : u = { st with
        d, args := v.args store ++ (fieldsArgs store members ++ args), xacc := colon, acc := unpackAcceptAny,
        stack := f :: below, ignore := u.ignore, obj := u.obj }) :
        Ready store v u (fieldsText members ++ (mark.text ++ rbrace :: rest)) (fieldsArgs store members ++ args) := by
      rw [hu]
      exact ⟨hskipped, htext, rfl, fieldsText_head members mark rest, .inl rfl, show colon ≠ rbrace by decide, hdepth'.1⟩
    have hrun : v.Runs doubles store := h ((k, optional), v) List.mem_cons_self
    -- the members after the value, once the count of what is ignored is known
    have hnext (u st' : UnpackState D) (f : UnpackFrame D) (hleft : Left u st'
        (fieldsText members ++ (mark.text ++ rbrace :: rest)) (fieldsArgs store members ++ args))
        (hxacc : u.xacc = colon) (hstack : u.stack = f :: below)
        (hparent : u.ignore - 1 = 0 → f.parent = .object ms) : Arrives doubles store (unpackNext st') st'.stores
          (if u.ignore - 1 = 0 then fieldsMeaning doubles store members mark ms f.count f.index else .ok [])
          (Closed f below (u.ignore - 1) rest args) := by
      obtain ⟨w, hw, hwithin, hwacc, hwignore, hwstores⟩ := hleft.next_key hxacc hstack
      have hrest := ih (fun m hm => h m (List.mem_cons_of_mem _ hm)) hwithin hwacc hdepth'.2
        (fun hzero => hparent (hwignore.symm.trans hzero))
      rw [hwignore, hwstores] at hrest
      rw [hw]
      exact .later hrest
    rw [hstep]
    by_cases hignore : st.ignore = 0
    · have hms := hparent hignore
      have hget : objectGetEx top.parent k.name = ms.lookup k.name := by
        rw [hms]
        rfl
      rw [if_neg (not_not_intro hignore), if_pos hignore, fieldsMeaning, hget]
      dsimp only
      cases ms.lookup k.name with
      | some obj =>
        dsimp only
        have hvalue := hrun (hready { st with
          d, args := v.args store ++ (fieldsArgs store members ++ args), xacc := colon, acc := unpackAcceptAny, obj,
          stack := { top with index := top.index + 1 } :: below } _ rfl)
        rw [if_pos hignore] at hvalue
        dsimp only at hvalue
        refine .andThen (.later hvalue) fun st' hleft _ => ?_
        have hrest := hnext _ st' { top with index := top.index + 1 } hleft rfl rfl fun _ => hms
        dsimp only at hrest
        rw [hignore, if_pos rfl] at hrest
        rw [hignore]
        exact hrest.imp fun u hu => ⟨hu.skipped, hu.text, hu.args, hu.acc, hu.xacc, hu.stack, hu.ignore⟩
      | none =>
        dsimp only
        cases optional with
        | true =>
          rw [if_pos rfl, if_pos rfl]
          have hvalue := hrun (hready { st with
            d, args := v.args store ++ (fieldsArgs store members ++ args), xacc := colon, acc := unpackAcceptAny,
            ignore := 1, obj := .null } top (by rw [← hwithin.stack]))
          rw [if_neg Nat.one_ne_zero] at hvalue
          refine .nothing (.later hvalue) fun st' hleft _ => ?_
          have hrest := hnext _ st' top hleft rfl hwithin.stack fun _ => hms
          dsimp only at hrest
          rw [if_pos rfl] at hrest
          rw [hignore]
          exact hrest
        | false =>
          rw [if_neg Bool.false_ne_true, if_neg Bool.false_ne_true]
          exact .fail rfl
    · rw [if_pos hignore, if_neg hignore]
      have hvalue := hrun (hready { st with
        d, args := v.args store ++ (fieldsArgs store members ++ args), xacc := colon, acc := unpackAcceptAny,
        ignore := st.ignore + 1 } top (by rw [← hwithin.stack]))
      rw [if_neg (Nat.succ_ne_zero _)] at hvalue
      refine .nothing (.later hvalue) fun st' hleft _ => ?_
      have hrest := hnext _ st' top hleft rfl hwithin.stack fun hzero => absurd hzero hignore
      dsimp only at hrest
      rw [Nat.add_sub_cancel, if_neg hignore] at hrest
      exact hrest

end

variable (doubles) in
/-- The opening of a container. -/
theorem Ready.step_open {v : Shape} {st : UnpackState D} {rest : Bytes} {args : List UnpackArg} {c : UInt8} {t : Bytes}
    (h : Ready store v st rest args) (htext : v.text = c :: t) (hc : c = lbracket ∨ c = lbrace) :
    unpackStep doubles store st = unpackOpen { st with d := advance st.d } st.d c ∧
      significant (advance st.d) = t ++ rest ∧ Skipped (advance st.d) := by
  obtain ⟨hcur, hrest, hskipped⟩ := h.skipped.split (h.text.trans (congrArg (· ++ rest) htext))
  have hany : c ∈ unpackAcceptAny := by rcases hc with rfl | rfl <;> decide
  refine ⟨?_, hrest, hskipped⟩
  rw [unpackStep, hcur]
  dsimp only
  rw [if_neg (acceptAny_ne hany).1, if_neg (not_not_intro (h.accepts hany)), if_neg fun hkey => h.place hkey.2,
    if_pos hc]

private theorem runs_array (items : List Shape) (mark : Mark) (h : ∀ v ∈ items, v.Runs doubles store) :
    (Shape.array items mark).Runs doubles store := by
  intro st rest args hready
  obtain ⟨hstep, htext, hskipped⟩ := hready.step_open doubles rfl (.inl rfl)
  have hdepth : st.stack.length + 1 + shapesDepth items ≤ STACKCOUNT := by
    have := hready.depth
    rw [Shape.depth] at this
    omega
  have htext' : significant (advance st.d) = shapesText items ++ (mark.text ++ rbracket :: rest) := by
    rw [htext, List.append_assoc, List.append_assoc]
    rfl
  -- the array is open, with the count of what is ignored
  have hopened (w : UnpackState D) (ignore : Nat) (js : List (JsonObject D)) (hw : w = { st with
      d := advance st.d, ignore, xacc := rbracket, acc := unpackAcceptArr,
      stack := ⟨st.obj, st.acc, 0, Int32.ofNat st.obj.length, st.xacc⟩ :: st.stack })
      (hjs : ignore = 0 → st.obj = .array js) : Arrives doubles store (unpackNext w) st.stores
        (if ignore = 0 then shapesMeaning doubles store items mark js (Int32.ofNat st.obj.length) 0 else .ok [])
        (Closed ⟨st.obj, st.acc, 0, Int32.ofNat st.obj.length, st.xacc⟩ st.stack ignore rest args) := by
    have hinside : Inside w ⟨st.obj, st.acc, 0, Int32.ofNat st.obj.length, st.xacc⟩ st.stack rbracket
        (shapesText items ++ (mark.text ++ rbracket :: rest)) (shapesArgs store items ++ args) := by
      rw [hw]
      exact ⟨hskipped, htext', hready.args, rfl, rfl⟩
    have hignore : w.ignore = ignore := by rw [hw]
    have hstores : w.stores = st.stores := by rw [hw]
    have hrun := runs_items h hinside (by rw [hw]) hdepth fun hzero => hjs (hignore.symm.trans hzero)
    rwa [hignore, hstores] at hrun
  rw [hstep, unpackOpen, if_pos (show st.stack.length < STACKCOUNT by omega)]
  dsimp only
  by_cases hignore : st.ignore = 0
  · rw [if_neg (not_not_intro hignore), if_pos hignore]
    by_cases hobj : ∃ js, st.obj = .array js
    · obtain ⟨js, hjs⟩ := hobj
      have hfits : st.obj.opensWith lbracket = true := by rw [hjs]; rfl
      have hmeaning : (Shape.array items mark).meaning doubles store st.obj =
          shapesMeaning doubles store items mark js (Int32.ofNat st.obj.length) 0 := by rw [hjs]; rfl
      have hrun := hopened _ 0 js rfl fun _ => hjs
      rw [if_pos rfl] at hrun
      rw [if_neg (by simp [hfits]), if_pos rfl, hmeaning]
      exact hrun.imp fun u hu => ⟨hu.skipped, hu.text, hu.args, hu.acc, hu.xacc, hu.stack, hu.ignore.trans hignore.symm⟩
    · have hfits : st.obj.opensWith lbracket = false := by
        cases hcase : st.obj with
        | array js => exact absurd ⟨js, hcase⟩ hobj
        | _ => rfl
      have hmeaning : (Shape.array items mark).meaning doubles store st.obj = .fail .missfitType := by
        cases hcase : st.obj with
        | array js => exact absurd ⟨js, hcase⟩ hobj
        | _ => rfl
      rw [if_pos ⟨rfl, by simp [hfits]⟩, hmeaning]
      exact .fail rfl
  · have hrun := hopened _ (st.ignore + 1) [] rfl fun hzero => absurd hzero (Nat.succ_ne_zero _)
    rw [if_neg (Nat.succ_ne_zero _)] at hrun
    rw [if_pos hignore, if_neg hignore, if_neg fun hzero => absurd hzero.1 (Nat.succ_ne_zero _), if_pos rfl]
    exact hrun.imp fun u hu => ⟨hu.skipped, hu.text, hu.args, hu.acc, hu.xacc, hu.stack, hu.ignore⟩

private theorem runs_object (members : List ((KeyBlock × Bool) × Shape)) (mark : Mark)
    (h : ∀ m ∈ members, m.2.Runs doubles store) : (Shape.object members mark).Runs doubles store := by
  intro st rest args hready
  obtain ⟨hstep, htext, hskipped⟩ := hready.step_open doubles rfl (.inr rfl)
  have hdepth : st.stack.length + 1 + fieldsDepth members ≤ STACKCOUNT := by
    have := hready.depth
    rw [Shape.depth] at this
    omega
  have htext' : significant (advance st.d) = fieldsText members ++ (mark.text ++ rbrace :: rest) := by
    rw [htext, List.append_assoc, List.append_assoc]
    rfl
  -- the object is open, with the count of what is ignored
  have hopened (w : UnpackState D) (ignore : Nat) (ms : List (Bytes × JsonObject D)) (hw : w = { st with
      d := advance st.d, ignore, xacc := rbrace, acc := unpackAcceptKey,
      stack := ⟨st.obj, st.acc, 0, Int32.ofNat st.obj.length, st.xacc⟩ :: st.stack })
      (hms : ignore = 0 → st.obj = .object ms) : Arrives doubles store (unpackStep doubles store w) st.stores
        (if ignore = 0 then fieldsMeaning doubles store members mark ms (Int32.ofNat st.obj.length) 0 else .ok [])
        (Closed ⟨st.obj, st.acc, 0, Int32.ofNat st.obj.length, st.xacc⟩ st.stack ignore rest args) := by
    have hinside : Inside w ⟨st.obj, st.acc, 0, Int32.ofNat st.obj.length, st.xacc⟩ st.stack rbrace
        (fieldsText members ++ (mark.text ++ rbrace :: rest)) (fieldsArgs store members ++ args) := by
      rw [hw]
      exact ⟨hskipped, htext', hready.args, rfl, rfl⟩
    have hignore : w.ignore = ignore := by rw [hw]
    have hstores : w.stores = st.stores := by rw [hw]
    have hrun := runs_fields h hinside (by rw [hw]) hdepth fun hzero => hms (hignore.symm.trans hzero)
    rwa [hignore, hstores] at hrun
  rw [hstep, unpackOpen, if_pos (show st.stack.length < STACKCOUNT by omega)]
  dsimp only
  by_cases hignore : st.ignore = 0
  · rw [if_neg (not_not_intro hignore), if_pos hignore]
    by_cases hobj : ∃ ms, st.obj = .object ms
    · obtain ⟨ms, hms⟩ := hobj
      have hfits : st.obj.opensWith lbrace = true := by rw [hms]; rfl
      have hmeaning : (Shape.object members mark).meaning doubles store st.obj =
          fieldsMeaning doubles store members mark ms (Int32.ofNat st.obj.length) 0 := by rw [hms]; rfl
      have hrun := hopened _ 0 ms rfl fun _ => hms
      rw [if_pos rfl] at hrun
      rw [if_neg (by simp [hfits]), if_neg (by decide), hmeaning]
      exact .later (hrun.imp fun u hu =>
        ⟨hu.skipped, hu.text, hu.args, hu.acc, hu.xacc, hu.stack, hu.ignore.trans hignore.symm⟩)
    · have hfits : st.obj.opensWith lbrace = false := by
        cases hcase : st.obj with
        | object ms => exact absurd ⟨ms, hcase⟩ hobj
        | _ => rfl
      have hmeaning : (Shape.object members mark).meaning doubles store st.obj = .fail .missfitType := by
        cases hcase : st.obj with
        | object ms => exact absurd ⟨ms, hcase⟩ hobj
        | _ => rfl
      rw [if_pos ⟨rfl, by simp [hfits]⟩, hmeaning]
      exact .fail rfl
  · have hrun := hopened _ (st.ignore + 1) [] rfl fun hzero => absurd hzero (Nat.succ_ne_zero _)
    rw [if_neg (Nat.succ_ne_zero _)] at hrun
    rw [if_pos hignore, if_neg hignore, if_neg fun hzero => absurd hzero.1 (Nat.succ_ne_zero _), if_neg (by decide)]
    exact .later (hrun.imp fun u hu => ⟨hu.skipped, hu.text, hu.args, hu.acc, hu.xacc, hu.stack, hu.ignore⟩)

/-- The interpreter does what a shape means. -/
theorem Shape.runs (v : Shape) (doubles : Doubles D) : v.Runs doubles store := by
  induction v using Shape.induct with
  | null => exact runs_null
  | string p size =>
    cases size with
    | none => exact runs_string_plain p
    | some pz => exact runs_string_size p pz
  | boolean p => exact fun h => h.scalar rfl (by decide) (by decide) rfl rfl fun _ _ => rfl
  | int p => exact fun h => h.scalar rfl (by decide) (by decide) rfl rfl fun _ _ => rfl
  | int64 p => exact fun h => h.scalar rfl (by decide) (by decide) rfl rfl fun _ _ => rfl
  | double int p =>
    cases int <;> exact fun h => h.scalar rfl (by decide) (by decide) rfl rfl fun _ _ => rfl
  | any own p =>
    cases own <;> exact fun h => h.scalar rfl (by decide) (by decide) rfl rfl fun _ _ => rfl
  | bytes url py pz => exact runs_bytes url py pz
  | array items mark ih => exact runs_array items mark ih
  | object members mark ih => exact runs_object members mark ih

end

end AfbBinder.WrapJson
