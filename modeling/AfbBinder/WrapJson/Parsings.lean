import AfbBinder.WrapJson.Meanings

/-! The descriptors that vunpack reads to their end are the texts of shapes. -/
namespace AfbBinder.WrapJson
open Lib.Cstrings Lib.Checked Lib.Loops
open Lib.Json (lbracket rbracket lbrace rbrace colon)

variable {D : Type} {doubles : Doubles D} {store : Bool}

/-- What the frames of the stack give back when their containers are closed. -/
def outline (stack : List (UnpackFrame D)) : List (Bytes × UInt8) := stack.map fun f => (f.acc, f.type)

/-- The text has been read between the states. -/
structure Passed (text : Bytes) (st st' : UnpackState D) : Prop where
  text : significant st.d = text ++ significant st'.d
  skipped : Skipped st'.d
  suffix : st'.d <:+ st.d

/-- The place where a value was read is as before. -/
structure Kept (st st' : UnpackState D) : Prop where
  acc : st'.acc = st.acc
  xacc : st'.xacc = st.xacc
  outline : outline st'.stack = outline st.stack

section
variable {st st' st'' fin u : UnpackState D} {c : UInt8} {t t' d : Bytes}

private theorem Kept.refl : Kept st st := ⟨rfl, rfl, rfl⟩

private theorem Kept.trans (h : Kept st st') (h' : Kept st' st'') : Kept st st'' :=
  ⟨h'.acc.trans h.acc, h'.xacc.trans h.xacc, h'.outline.trans h.outline⟩

private theorem Passed.trans (h : Passed t st st') (h' : Passed t' st' st'') : Passed (t ++ t') st st'' :=
  ⟨by rw [h.text, h'.text, List.append_assoc], h'.skipped, h'.suffix.trans h.suffix⟩

private theorem significant_cur (h : Skipped d) (hc : cur d ≠ 0) : significant d = cur d :: significant
    (advance d) := by
  cases d with
  | nil => exact absurd rfl hc
  | cons b d =>
    rw [significant_cons (h b rfl), advance, List.tail_cons, significant_skip]
    rfl

private theorem passed_advance (h : Skipped st.d) (hc : cur st.d ≠ 0) (hd : u.d = advance st.d) : Passed
    [cur st.d] st u := by
  refine ⟨?_, hd ▸ skipped_skip _, hd ▸ advance_suffix _⟩
  rw [significant_cur h hc, hd]
  rfl

private theorem outline_length {stack stack' : List (UnpackFrame D)} (h : outline stack = outline stack') :
    stack.length = stack'.length := by
  have hlen := congrArg List.length h
  rwa [outline, outline, List.length_map, List.length_map] at hlen

end

/-! The values that are no containers. -/

section
variable {st u : UnpackState D} {fit : Bytes} {c : UInt8}

/-- The same descriptor, at the same place. -/
structure Unmoved (st u : UnpackState D) : Prop extends Kept st u where
  d : u.d = st.d

private theorem Unmoved.refl : Unmoved st st := ⟨.refl, rfl⟩

private theorem Unmoved.trans {u' : UnpackState D} (h : Unmoved st u) (h' : Unmoved u u') : Unmoved st u' :=
  ⟨h.toKept.trans h'.toKept, h'.d.trans h.d⟩

private theorem unmoved_put (p : Option Nat) (x : Stored D) : Unmoved st (st.put p x) := by
  cases p with
  | none => exact .refl
  | some p => exact ⟨⟨rfl, rfl, rfl⟩, rfl⟩

private theorem unmoved_takeArg {address : UnpackArg → Option (Option Nat)} :
    Meets (fun x => Unmoved st x.2) (fun _ => True) (takeArg store address st) := by
  unfold takeArg
  split
  · split
    · trivial
    · split
      · exact ⟨⟨rfl, rfl, rfl⟩, rfl⟩
      · trivial
  · exact .refl

private theorem unmoved_storeValue {p : Option Nat} {value : JsonObject D → Option (Stored D)} :
    Meets (Unmoved st) (fun _ => True) (storeValue st fit p value) := by
  unfold storeValue
  split
  · split
    · exact unmoved_put _ _
    · trivial
  · exact .refl

private theorem unmoved_unpackScalar {address : UnpackArg → Option (Option Nat)}
    {value : JsonObject D → Option (Stored D)} :
    Meets (Unmoved st) (fun _ => True) (unpackScalar store st fit address value) :=
  Meets.bind unmoved_takeArg fun _ hx => unmoved_storeValue.imp fun _ => hx.trans

private theorem unmoved_storeBytes {py pz : Option Nat} : Meets (Unmoved st) (fun _ => True)
    (storeBytes st fit py pz) := by
  have hput (data : Option Bytes) : Unmoved st (putBytes st py pz data) := by
    unfold putBytes
    split
    · exact (unmoved_put _ _).trans (unmoved_put _ _)
    · exact .refl
  unfold storeBytes
  split
  · split
    · exact hput _
    · split
      · split
        · exact hput _
        · trivial
      · exact .refl
    · trivial
  · exact .refl

private theorem unmoved_unpackBytes : Meets (Unmoved st) (fun _ => True) (unpackBytes store st fit) := by
  rw [unpackBytes_eq]
  refine Meets.bind unmoved_takeArg fun x hx => ?_
  refine Meets.bind unmoved_takeArg fun y hy => ?_
  exact unmoved_storeBytes.imp fun _ => (hx.trans hy).trans

/-- A string is read with the % after it. -/
def Sized (st u : UnpackState D) : Prop := Kept st u ∧ cur st.d = percent ∧ u.d = advance st.d

private theorem sized_unpackString : Meets (fun u => Unmoved st u ∨ Sized st u) (fun _ => True)
    (unpackString store st fit) := by
  refine Meets.bind unmoved_unpackScalar fun u hu => ?_
  split
  · next hpercent =>
    refine Meets.bind unmoved_takeArg fun x hx => ?_
    have hsized (w : UnpackState D) (hw : Unmoved x.2 w) : Sized st w := by
      have hadvanced : Kept u { u with d := advance u.d } := ⟨rfl, rfl, rfl⟩
      refine ⟨hu.toKept.trans (hadvanced.trans (hx.toKept.trans hw.toKept)), hu.d ▸ hpercent, ?_⟩
      rw [hw.d, hx.d, hu.d]
    dsimp only
    split
    · exact .inr (hsized _ (unmoved_put _ _))
    · exact .inr (hsized _ .refl)
  · exact .inl hu

/-- The reading of a value that is no container. -/
theorem unpackItem_kept (hc : c ∈ unpackAcceptAny) : Meets (fun u => Unmoved st u ∨ c = lowerS ∧ Sized st u)
    (fun _ => True) (unpackItem doubles store st fit c) := by
  obtain ⟨-, -, -, hbracket, hbrace⟩ := acceptAny_ne hc
  unfold unpackItem
  split
  · next hs => exact sized_unpackString.imp fun _ => Or.imp_right (And.intro hs)
  split
  · split
    · trivial
    · exact .inl .refl
  split
  · exact unmoved_unpackScalar.imp fun _ => .inl
  split
  · exact unmoved_unpackScalar.imp fun _ => .inl
  split
  · exact unmoved_unpackScalar.imp fun _ => .inl
  split
  · exact unmoved_unpackScalar.imp fun _ => .inl
  split
  · exact unmoved_unpackScalar.imp fun _ => .inl
  split
  · exact unmoved_unpackBytes.imp fun _ => .inl
  rw [if_neg (not_or.mpr ⟨hbrace, hbracket⟩)]
  trivial

/-- The shape of a character. -/
theorem exists_shape (hc : c ∈ unpackAcceptAny) (hopen : c ≠ lbracket ∧ c ≠ lbrace) :
    ∃ v : Shape, v.text = [c] ∧ v.depth = 0 := by
  simp only [unpackAcceptAny, unpackAcceptArr, List.drop_succ_cons, List.drop_zero, List.mem_cons, List.not_mem_nil,
    or_false] at hc
  rcases hc with rfl | rfl | rfl | rfl | rfl | rfl | rfl | rfl | rfl | rfl | rfl | rfl | rfl
  · exact absurd rfl hopen.1
  · exact absurd rfl hopen.2
  · exact ⟨.string none none, rfl, rfl⟩
  · exact ⟨.null, rfl, rfl⟩
  · exact ⟨.boolean none, rfl, rfl⟩
  · exact ⟨.int none, rfl, rfl⟩
  · exact ⟨.int64 none, rfl, rfl⟩
  · exact ⟨.double false none, rfl, rfl⟩
  · exact ⟨.double true none, rfl, rfl⟩
  · exact ⟨.any false none, rfl, rfl⟩
  · exact ⟨.any true none, rfl, rfl⟩
  · exact ⟨.bytes true none none, rfl, rfl⟩
  · exact ⟨.bytes false none none, rfl, rfl⟩

end

/-! From the end of the loop, what was read. -/

section
variable {st fin : UnpackState D} {c : UInt8}

private theorem goes_bind {α : Type} {x : Except (Stop (UnpackState D)) α}
    {f : α → Except (Stop (UnpackState D)) (UnpackState D ⊕ UnpackState D)}
    (h : Goes (unpackStep doubles store) (x.bind f) (.ok fin)) :
    ∃ a, x = .ok a ∧ Goes (unpackStep doubles store) (f a) (.ok fin) := by
  cases x with
  | error e => cases h
  | ok a => exact ⟨a, rfl, h⟩

/-- The character read is an accepted one. -/
theorem ends_accepts (h : Ends (unpackStep doubles store) st (.ok fin)) : cur st.d ≠ 0 ∧ cur st.d ∈ st.acc := by
  rw [ends_iff_goes, unpackStep] at h
  dsimp only at h
  split at h
  · cases h
  next hzero =>
  split at h
  · cases h
  next hacc => exact ⟨hzero, of_not_not hacc⟩

variable (doubles store) in
/-- From the state, with nothing to skip, the loop ends well. -/
structure Reaching (fin st : UnpackState D) : Prop where
  skipped : Skipped st.d
  ends : Ends (unpackStep doubles store) st (.ok fin)

variable (doubles store) in
/-- The text of a value has been read. -/
structure Past (fin st st' : UnpackState D) (text : Bytes) : Prop extends Passed text st st', Kept st st' where
  goes : Goes (unpackStep doubles store) (unpackNext st') (.ok fin)

variable (doubles store) in
/-- The text has been read to the end of the container, whose frame gives back what there was. -/
structure Shut (fin st st' : UnpackState D) (text : Bytes) : Prop extends Passed text st st' where
  outline : outline st.stack = (st'.acc, st'.xacc) :: outline st'.stack
  goes : Goes (unpackStep doubles store) (unpackNext st') (.ok fin)

/-- A value that is no container has been read. -/
theorem item_past (h : Reaching doubles store fin st) (hc : cur st.d ∈ unpackAcceptAny)
    (hopen : cur st.d ≠ lbracket ∧ cur st.d ≠ lbrace) (hplace : st.xacc ≠ rbrace) :
    ∃ (v : Shape) (st' : UnpackState D), v.depth = 0 ∧ Past doubles store fin st st' v.text := by
  obtain ⟨hzero, hacc⟩ := ends_accepts h.ends
  have hstep : unpackStep doubles store st =
      (unpackItem doubles store { st with d := advance st.d } st.d (cur st.d)).bind unpackNext := by
    obtain ⟨-, hbang, hstar, -⟩ := acceptAny_ne hc
    rw [unpackStep]
    dsimp only
    rw [if_neg hzero, if_neg (not_not_intro hacc), if_neg fun hkey => hplace hkey.2, if_neg (not_or.mpr hopen),
      if_neg (not_or.mpr ⟨hbang, hstar⟩)]
  have hgoes := ends_iff_goes.mp h.ends
  rw [hstep] at hgoes
  obtain ⟨u, hu, hgoes⟩ := goes_bind hgoes
  rcases (meets_iff.mp (unpackItem_kept hc)).1 u hu with hunmoved | ⟨hs, hkept, hpercent, hd⟩
  · obtain ⟨v, htext, hdepth⟩ := exists_shape hc hopen
    exact ⟨v, u, hdepth, htext ▸ passed_advance h.skipped hzero hunmoved.d, ⟨hunmoved.acc, hunmoved.xacc, hunmoved.outline⟩, hgoes⟩
  · have hfirst : Passed [cur st.d] st { st with d := advance st.d } := passed_advance h.skipped hzero rfl
    have hsecond : Passed [percent] { st with d := advance st.d } u := by
      have hne : cur (advance st.d) ≠ 0 := by
        rw [show cur (advance st.d) = percent from hpercent]
        decide
      have hpassed : Passed [cur (advance st.d)] { st with d := advance st.d } u :=
        passed_advance (skipped_skip _) hne hd
      rwa [show cur (advance st.d) = percent from hpercent] at hpassed
    have htext := hfirst.trans hsecond
    rw [hs] at htext
    exact ⟨.string none (some none), u, rfl, htext, ⟨hkept.acc, hkept.xacc, hkept.outline⟩, hgoes⟩

/-- The end of a container. -/
theorem close_shut (h : Reaching doubles store fin st) (hc : cur st.d = st.xacc)
    (hend : st.xacc = rbracket ∨ st.xacc = rbrace) : ∃ st', Shut doubles store fin st st' [st.xacc] := by
  obtain ⟨hzero, hacc⟩ := ends_accepts h.ends
  have hstep : unpackStep doubles store st =
      (unpackClose { st with d := advance st.d } st.xacc).bind unpackNext := by
    rw [unpackStep]
    dsimp only
    rw [if_neg hzero, if_neg (not_not_intro hacc), hc]
    rcases hend with hend | hend <;> rw [hend] <;> rfl
  have hgoes := ends_iff_goes.mp h.ends
  rw [hstep] at hgoes
  obtain ⟨u, hu, hgoes⟩ := goes_bind hgoes
  unfold unpackClose at hu
  split at hu
  · cases hu
  next top below hstack =>
  obtain ⟨-, hu⟩ := guard_ok.mp hu
  cases hu
  refine ⟨_, hc ▸ passed_advance h.skipped hzero rfl, ?_, hgoes⟩
  rw [show st.stack = top :: below from hstack]
  rfl

/-- The end of a container, with the mark before it. -/
theorem end_shut (h : Reaching doubles store fin st) (hend : st.xacc = rbracket ∨ st.xacc = rbrace)
    (hc : cur st.d = st.xacc ∨ cur st.d = bang ∨ cur st.d = star) :
    ∃ (mark : Mark) (st' : UnpackState D), Shut doubles store fin st st' (mark.text ++ [st.xacc]) := by
  obtain ⟨hzero, hacc⟩ := ends_accepts h.ends
  rcases hc with hc | hc
  · obtain ⟨st', hshut⟩ := close_shut h hc hend
    exact ⟨.none, st', hshut⟩
  · have hstep : unpackStep doubles store st = (unpackEnd { st with d := advance st.d } (cur st.d)).map .inl := by
      rw [unpackStep]
      dsimp only
      rw [if_neg hzero, if_neg (not_not_intro hacc)]
      rcases hc with hc | hc <;> rw [hc] <;> rfl
    have hgoes := ends_iff_goes.mp h.ends
    rw [hstep] at hgoes
    cases hu : unpackEnd { st with d := advance st.d } (cur st.d) with
    | error e =>
      rw [hu] at hgoes
      cases hgoes
    | ok u =>
      rw [hu] at hgoes
      replace hgoes : Ends (unpackStep doubles store) u (.ok fin) := hgoes
      obtain rfl := unpackEnd_ok hu
      have hlast := (ends_accepts hgoes).2
      obtain ⟨st', hshut⟩ := close_shut ⟨skipped_skip _, hgoes⟩ (List.mem_singleton.mp hlast) hend
      have hmark : Passed [cur st.d] st { st with d := advance st.d, acc := [st.xacc] } :=
        passed_advance h.skipped hzero rfl
      rcases hc with hc | hc
      · exact ⟨.strict, st', (hc ▸ hmark).trans hshut.toPassed, hshut.outline, hshut.goes⟩
      · exact ⟨.rest, st', (hc ▸ hmark).trans hshut.toPassed, hshut.outline, hshut.goes⟩

/-- After an item of an array, the next one is at the same place. -/
theorem next_item (h : Goes (unpackStep doubles store) (unpackNext st) (.ok fin)) (hxacc : st.xacc = rbracket) :
    ∃ u, Unmoved st u ∧ Ends (unpackStep doubles store) u (.ok fin) := by
  unfold unpackNext at h
  rw [hxacc, if_neg (by decide), if_pos rfl] at h
  split at h
  · split at h
    · cases h
    next top below hstack =>
    split at h
    · cases h
    · dsimp only at h
      change Ends (unpackStep doubles store) _ (.ok fin) at h
      refine ⟨_, ?_, h⟩
      exact ⟨⟨rfl, hxacc.symm, by rw [hstack]; rfl⟩, rfl⟩
  · exact ⟨_, .refl, h⟩

private theorem next_key (h : Goes (unpackStep doubles store) (unpackNext st) (.ok fin))
    (hxacc : st.xacc = colon) :
    Ends (unpackStep doubles store)
      { st with acc := unpackAcceptKey, xacc := rbrace, ignore := st.ignore - 1 } (.ok fin) := by
  unfold unpackNext at h
  rwa [hxacc, if_neg (by decide), if_neg (by decide), if_pos rfl] at h

private theorem Passed.shorter {st' : UnpackState D} {text : Bytes} (h : Passed text st st') (hne : text ≠ []) :
    st'.d.length < st.d.length := by
  refine Nat.lt_of_le_of_ne h.suffix.length_le fun hlen => hne ?_
  have hd := h.suffix.eq_of_length hlen
  have htext := h.text
  rw [hd] at htext
  exact List.append_left_eq_self.mp htext.symm

private theorem text_ne_nil (v : Shape) : v.text ≠ [] := by
  cases v with
  | string p size => cases size <;> exact List.cons_ne_nil _ _
  | _ => exact List.cons_ne_nil _ _

end

/-! The containers, by induction on what is left of the descriptor. -/

section
variable {fin : UnpackState D} {n : Nat}

variable (doubles store) in
/-- The values are read, when no more than so many characters are left. -/
def ReadsValues (fin : UnpackState D) (n : Nat) : Prop := ∀ st : UnpackState D, st.d.length < n →
  Reaching doubles store fin st → cur st.d ∈ unpackAcceptAny → st.xacc ≠ rbrace → st.stack.length ≤ STACKCOUNT →
    ∃ (v : Shape) (st' : UnpackState D), Past doubles store fin st st' v.text ∧ st.stack.length + v.depth ≤ STACKCOUNT

private theorem shut_before {st st' u : UnpackState D} {text t : Bytes} (h : Shut doubles store fin u st' text)
    (hpassed : Passed t st u) (houtline : outline u.stack = outline st.stack) :
    Shut doubles store fin st st' (t ++ text) :=
  ⟨hpassed.trans h.toPassed, houtline ▸ h.outline, h.goes⟩

/-- The items of an array, to its end. -/
theorem items_shut (hvalues : ReadsValues doubles store fin n) {st : UnpackState D} (hlen : st.d.length < n)
    (h : Reaching doubles store fin st) (hacc : st.acc = unpackAcceptArr) (hxacc : st.xacc = rbracket)
    (hroom : st.stack.length ≤ STACKCOUNT) : ∃ (items : List Shape) (mark : Mark) (st' : UnpackState D),
      Shut doubles store fin st st' (shapesText items ++ (mark.text ++ [rbracket])) ∧
        st.stack.length + shapesDepth items ≤ STACKCOUNT := by
  induction hsize : st.d.length using Nat.strongRecOn generalizing st with
  | ind size ih =>
  have haccepted := (ends_accepts h.ends).2
  by_cases hany : cur st.d ∈ unpackAcceptAny
  · obtain ⟨v, u, hpast, hdepth⟩ := hvalues st hlen h hany (by rw [hxacc]; decide) hroom
    obtain ⟨w, hunmoved, hends⟩ := next_item hpast.goes (hpast.xacc.trans hxacc)
    have hshorter := hpast.toPassed.shorter (text_ne_nil v)
    have houtline := hunmoved.outline.trans hpast.outline
    have hstack := outline_length houtline
    have hw : Passed v.text st w :=
      ⟨by rw [hunmoved.d]; exact hpast.text, by rw [hunmoved.d]; exact hpast.skipped, by rw [hunmoved.d]; exact hpast.suffix⟩
    rw [← hunmoved.d] at hshorter
    obtain ⟨items, mark, st', hshut, hitems⟩ := ih w.d.length (hsize ▸ hshorter) (Nat.lt_trans hshorter hlen)
      ⟨hw.skipped, hends⟩ (hunmoved.acc.trans (hpast.acc.trans hacc)) (hunmoved.xacc.trans (hpast.xacc.trans hxacc))
      (hstack ▸ hroom) rfl
    refine ⟨v :: items, mark, st', ?_, ?_⟩
    · rw [shapesText, List.append_assoc]
      exact shut_before hshut hw houtline
    · rw [hstack] at hitems
      rw [shapesDepth]
      omega
  · have hend : cur st.d = st.xacc ∨ cur st.d = bang ∨ cur st.d = star := by
      rw [hacc] at haccepted
      rw [hxacc]
      simp only [unpackAcceptAny, unpackAcceptArr, List.drop_succ_cons, List.drop_zero, List.mem_cons] at haccepted hany
      tauto
    obtain ⟨mark, st', hshut⟩ := end_shut h (.inl hxacc) hend
    rw [hxacc] at hshut
    exact ⟨[], mark, st', hshut, hroom⟩

private theorem lookupKey_outline {st u : UnpackState D} {optional : Bool} {name : Bytes}
    (h : lookupKey st optional name = .ok u) : Kept st u := by
  unfold lookupKey at h
  split at h
  · cases h
    exact ⟨rfl, rfl, rfl⟩
  split at h
  · cases h
  next hstack =>
  split at h
  · cases h
    exact ⟨rfl, rfl, by rw [hstack]; rfl⟩
  split at h
  · cases h
    exact ⟨rfl, rfl, rfl⟩
  · cases h

/-- A key has been read, with the question mark after it. -/
theorem key_passed {st : UnpackState D} (h : Reaching doubles store fin st) (hc : cur st.d = lowerS)
    (hxacc : st.xacc = rbrace) : ∃ (optional : Bool) (u : UnpackState D), Passed (keyText optional) st u ∧
      u.acc = unpackAcceptAny ∧ u.xacc = colon ∧ outline u.stack = outline st.stack ∧
        Ends (unpackStep doubles store) u (.ok fin) := by
  obtain ⟨hzero, hacc⟩ := ends_accepts h.ends
  have hstep : unpackStep doubles store st = (unpackKey { st with d := advance st.d }).map .inl := by
    rw [unpackStep]
    dsimp only
    rw [if_neg hzero, if_neg (not_not_intro hacc), if_pos ⟨hc, hxacc⟩]
  have hgoes := ends_iff_goes.mp h.ends
  rw [hstep] at hgoes
  cases hu : unpackKey { st with d := advance st.d } with
  | error e =>
    rw [hu] at hgoes
    cases hgoes
  | ok u =>
    rw [hu] at hgoes
    obtain ⟨k, args, hargs, hk⟩ := unpackKey_ok hu
    rw [unpackKey_eq hargs hk] at hu
    have hkept := lookupKey_outline hu
    have hd : u.d = unquestioned (advance st.d) := (lookupKey_same hu).1
    have hfirst : Passed [lowerS] st { st with d := advance st.d } := hc ▸ passed_advance h.skipped hzero rfl
    by_cases hquestion : cur (advance st.d) = question
    · rw [unquestioned, if_pos hquestion] at hd
      have hne : cur (advance st.d) ≠ 0 := by
        rw [hquestion]
        decide
      have hsecond : Passed [cur (advance st.d)] { st with d := advance st.d } u :=
        passed_advance (skipped_skip _) hne (show u.d = advance ({ st with d := advance st.d } : UnpackState D).d from hd)
      rw [hquestion] at hsecond
      exact ⟨true, u, hfirst.trans hsecond, hkept.acc, hkept.xacc, hkept.outline, hgoes⟩
    · rw [unquestioned, if_neg hquestion] at hd
      refine ⟨false, u, ⟨?_, ?_, ?_⟩, hkept.acc, hkept.xacc, hkept.outline, hgoes⟩ <;> rw [hd]
      · exact hfirst.text
      · exact hfirst.skipped
      · exact hfirst.suffix

private theorem keyText_ne_nil (optional : Bool) : keyText optional ≠ [] := by
  cases optional <;> exact List.cons_ne_nil _ _

/-- The members of an object, to its end. -/
theorem members_shut (hvalues : ReadsValues doubles store fin n) {st : UnpackState D} (hlen : st.d.length < n)
    (h : Reaching doubles store fin st) (hacc : st.acc = unpackAcceptKey) (hxacc : st.xacc = rbrace)
    (hroom : st.stack.length ≤ STACKCOUNT) :
    ∃ (members : List ((KeyBlock × Bool) × Shape)) (mark : Mark) (st' : UnpackState D),
      Shut doubles store fin st st' (fieldsText members ++ (mark.text ++ [rbrace])) ∧
        st.stack.length + fieldsDepth members ≤ STACKCOUNT := by
  induction hsize : st.d.length using Nat.strongRecOn generalizing st with
  | ind size ih =>
  have haccepted := (ends_accepts h.ends).2
  by_cases hkey : cur st.d = lowerS
  · obtain ⟨optional, u, hu, huacc, huxacc, huoutline, huends⟩ := key_passed h hkey hxacc
    have hushorter := hu.shorter (keyText_ne_nil optional)
    have hustack := outline_length huoutline
    have huany := (ends_accepts huends).2
    rw [huacc] at huany
    obtain ⟨v, w, hpast, hdepth⟩ := hvalues u (Nat.lt_trans hushorter hlen) ⟨hu.skipped, huends⟩ huany
      (by rw [huxacc]; decide) (hustack ▸ hroom)
    have hends := next_key hpast.goes (hpast.xacc.trans huxacc)
    have hshorter := Nat.lt_trans (hpast.toPassed.shorter (text_ne_nil v)) hushorter
    have houtline := hpast.outline.trans huoutline
    have hstack := outline_length houtline
    have hw : Passed (keyText optional ++ v.text) st
        { w with acc := unpackAcceptKey, xacc := rbrace, ignore := w.ignore - 1 } :=
      let hpassed := hu.trans hpast.toPassed
      ⟨hpassed.text, hpassed.skipped, hpassed.suffix⟩
    obtain ⟨members, mark, st', hshut, hmembers⟩ := @ih w.d.length (hsize ▸ hshorter)
      { w with acc := unpackAcceptKey, xacc := rbrace, ignore := w.ignore - 1 } (Nat.lt_trans hshorter hlen)
      ⟨hw.skipped, hends⟩ rfl rfl (hstack ▸ hroom) rfl
    refine ⟨((⟨[0], List.mem_singleton_self 0⟩, optional), v) :: members, mark, st', ?_, ?_⟩
    · rw [fieldsText, List.append_assoc, List.append_assoc, ← List.append_assoc (keyText optional)]
      exact shut_before hshut hw houtline
    · replace hmembers : w.stack.length + fieldsDepth members ≤ STACKCOUNT := hmembers
      rw [hstack] at hmembers
      rw [hustack] at hdepth
      rw [fieldsDepth]
      omega
  · have hend : cur st.d = st.xacc ∨ cur st.d = bang ∨ cur st.d = star := by
      rw [hacc] at haccepted
      rw [hxacc]
      simp only [unpackAcceptKey, List.mem_cons, List.not_mem_nil] at haccepted
      tauto
    obtain ⟨mark, st', hshut⟩ := end_shut h (.inr hxacc) hend
    rw [hxacc] at hshut
    exact ⟨[], mark, st', hshut, hroom⟩

/-- The opening of a container goes on inside it. -/
theorem open_passed {st : UnpackState D} (h : Reaching doubles store fin st)
    (hopen : cur st.d = lbracket ∨ cur st.d = lbrace) (hplace : st.xacc ≠ rbrace) : ∃ u : UnpackState D,
      Passed [cur st.d] st u ∧ Ends (unpackStep doubles store) u (.ok fin) ∧ st.stack.length < STACKCOUNT ∧
        outline u.stack = (st.acc, st.xacc) :: outline st.stack ∧
          (cur st.d = lbracket → u.acc = unpackAcceptArr ∧ u.xacc = rbracket) ∧
          (cur st.d = lbrace → u.acc = unpackAcceptKey ∧ u.xacc = rbrace) := by
  obtain ⟨hzero, hacc⟩ := ends_accepts h.ends
  have hgoes := ends_iff_goes.mp h.ends
  rw [unpackStep] at hgoes
  dsimp only at hgoes
  rw [if_neg hzero, if_neg (not_not_intro hacc), if_neg fun hkey => hplace hkey.2, if_pos hopen] at hgoes
  unfold unpackOpen at hgoes
  split at hgoes
  next hslot =>
    dsimp only at hgoes
    generalize (if st.ignore ≠ 0 then st.ignore + 1 else 0) = ignore at hgoes
    split at hgoes
    · cases hgoes
    split at hgoes
    · next hbracket =>
      obtain ⟨u, hunmoved, hends⟩ := next_item hgoes rfl
      have hu : u.d = advance st.d := hunmoved.d
      refine ⟨u, passed_advance h.skipped hzero hu, hends, hslot, hunmoved.outline, fun _ => ⟨hunmoved.acc, hunmoved.xacc⟩, ?_⟩
      intro hbrace
      rw [hbrace] at hbracket
      cases hbracket
    · next hbracket =>
      exact ⟨_, passed_advance h.skipped hzero rfl, hgoes, hslot, rfl, fun hc => absurd hc hbracket, fun _ => ⟨rfl, rfl⟩⟩
  next => cases hgoes

variable (doubles store fin) in
/-- Every value is read, whatever is left. -/
theorem readsValues (n : Nat) : ReadsValues doubles store fin n := by
  induction n with
  | zero => exact fun st hlen => absurd hlen (Nat.not_lt_zero _)
  | succ n ih =>
  intro st hlen h hany hplace hroom
  by_cases hopen : cur st.d = lbracket ∨ cur st.d = lbrace
  · obtain ⟨u, hu, hends, hslot, houtline, harray, hobject⟩ := open_passed h hopen hplace
    have hshorter := hu.shorter (List.cons_ne_nil _ _)
    have hstack : u.stack.length = st.stack.length + 1 := by
      have hlength := congrArg List.length houtline
      rwa [outline, outline, List.length_cons, List.length_map, List.length_map] at hlength
    have hpast {text : Bytes} {st' : UnpackState D} (hshut : Shut doubles store fin u st' text) :
        Past doubles store fin st st' (cur st.d :: text) := by
      obtain ⟨hkept, hbelow⟩ := List.cons.inj (houtline.symm.trans hshut.outline)
      obtain ⟨hsacc, hsxacc⟩ := Prod.mk.inj hkept
      exact ⟨hu.trans hshut.toPassed, ⟨hsacc.symm, hsxacc.symm, hbelow.symm⟩, hshut.goes⟩
    rcases hopen with hc | hc
    · obtain ⟨items, mark, st', hshut, hdepth⟩ := items_shut ih (Nat.lt_of_lt_of_le hshorter (Nat.le_of_lt_succ hlen))
        ⟨hu.skipped, hends⟩ (harray hc).1 (harray hc).2 (hstack ▸ hslot)
      rw [hstack] at hdepth
      have hread := hpast hshut
      rw [hc] at hread
      exact ⟨.array items mark, st', hread, by rw [Shape.depth]; omega⟩
    · obtain ⟨members, mark, st', hshut, hdepth⟩ := members_shut ih
        (Nat.lt_of_lt_of_le hshorter (Nat.le_of_lt_succ hlen)) ⟨hu.skipped, hends⟩ (hobject hc).1 (hobject hc).2
        (hstack ▸ hslot)
      rw [hstack] at hdepth
      have hread := hpast hshut
      rw [hc] at hread
      exact ⟨.object members mark, st', hread, by rw [Shape.depth]; omega⟩
  · obtain ⟨v, st', hdepth, hpast⟩ := item_past h hany (not_or.mp hopen) hplace
    exact ⟨v, st', hpast, by rwa [hdepth]⟩

end

/-- A descriptor with which a call succeeds is the text of a shape. -/
theorem vunpack_shape {object : JsonObject D} {desc : Bytes} (hnul : 0 ∉ desc) {args : List UnpackArg}
    {stores : List (Nat × Stored D)} (h : vunpack doubles store object (some desc) args = some (.done 0 stores)) :
    ∃ v : Shape, significant desc = v.text ∧ v.depth ≤ STACKCOUNT := by
  obtain ⟨r, hr, hdone⟩ := Option.map_eq_some_iff.mp h
  match r with
  | .error (.error e st) => exact absurd (UnpackResult.done.inj hdone).1 (e.rc_ne_zero _)
  | .error (.fault f) => cases hdone
  | .ok fin =>
    have hends := unpackRun_iff.mp hr
    have hreaching : Reaching doubles store fin (unpackStart object desc args) := ⟨skipped_skip desc, hends⟩
    obtain ⟨v, st', hpast, hdepth⟩ := readsValues doubles store fin _ (unpackStart object desc args) (Nat.lt_succ_self _)
      hreaching (ends_accepts hends).2 (show (0 : UInt8) ≠ rbrace by decide) (Nat.zero_le _)
    refine ⟨v, ?_, by rwa [unpackStart, List.length_nil, Nat.zero_add] at hdepth⟩
    have hxacc : st'.xacc = 0 := hpast.xacc
    have hcur : cur st'.d = 0 := by
      have hgoes := hpast.goes
      unfold unpackNext at hgoes
      rw [if_pos hxacc] at hgoes
      split at hgoes
      · cases hgoes
      split at hgoes
      · cases hgoes
      next hzero => exact of_not_not hzero
    have hnil : st'.d = [] := by
      cases hd : st'.d with
      | nil => rfl
      | cons b d =>
        rw [hd] at hcur
        have hmem : b ∈ desc := (hpast.suffix.trans (skip_suffix desc)).subset (hd ▸ List.mem_cons_self)
        exact absurd (show b = 0 from hcur) fun hb => hnul (hb ▸ hmem)
    have htext := hpast.text
    rw [hnil] at htext
    rw [← significant_skip desc]
    exact htext.trans (List.append_nil _)

end AfbBinder.WrapJson
