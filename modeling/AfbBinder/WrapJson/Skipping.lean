import AfbBinder.WrapJson.Meanings
import AfbBinder.WrapJson.Prefixes

/-! An optional key that the object does not have: the call does what it does without the key and
its value. -/
namespace AfbBinder.WrapJson
open Lib.Cstrings Lib.Checked Lib.Loops
open Lib.Json (lbracket rbracket lbrace rbrace colon)

variable {D : Type} {doubles : Doubles D} {store : Bool}

/-- The interpreter is at a key of the object of the frame, or at its end. -/
structure AtKey (st : UnpackState D) (top : UnpackFrame D) (below : List (UnpackFrame D)) : Prop where
  acc : st.acc = unpackAcceptKey
  xacc : st.xacc = rbrace
  ignore : st.ignore = 0
  stack : st.stack = top :: below

section
variable {st : UnpackState D} {top : UnpackFrame D} {below : List (UnpackFrame D)} {v : Shape} {k : KeyBlock}
  {rest : Bytes} {args : List UnpackArg}

private theorem AtKey.inside (h : AtKey st top below) (hskipped : Skipped st.d)
    (htext : significant st.d = rest)
    (hargs : st.args = args) : Inside st top below rbrace rest args :=
  ⟨hskipped, htext, hargs, h.xacc, h.stack⟩

/-- An optional key that is absent: its value is read and nothing is done. -/
theorem AtKey.absent (h : AtKey st top below) (hskipped : Skipped st.d)
    (htext : significant st.d = keyText true ++ (v.text ++ rest))
    (hargs : st.args = .key (some k.1) :: (v.args store ++ args)) (hdelimited : rest.head? ≠ some percent)
    (hdepth : st.stack.length + v.depth ≤ STACKCOUNT) (habsent : objectGetEx top.parent k.name = none) (doubles : Doubles D) :
    ∃ w, Steps (unpackStep doubles store) st w ∧ Skipped w.d ∧ significant w.d = rest ∧
      w = { st with d := w.d, args, obj := w.obj } := by
  obtain ⟨d, hd, hrest, hstep⟩ := (h.inside hskipped htext hargs).step_key doubles store
    (by rw [h.acc]; decide)
  rw [if_neg (not_not_intro h.ignore), habsent, if_pos rfl] at hstep
  have hready : Ready store v { st with
      d, args := v.args store ++ args, xacc := colon, acc := unpackAcceptAny, ignore := 1, obj := .null } rest args :=
    ⟨hd, hrest, rfl, hdelimited, .inl rfl, show colon ≠ rbrace by decide, hdepth⟩
  have hrun := v.runs doubles hready
  rw [if_neg Nat.one_ne_zero] at hrun
  obtain ⟨st', hleads, hleft, hstores⟩ := hrun
  have hnext := next_colon hleft.xacc
  refine ⟨_, .head hstep (hleads.steps rfl hnext), hleft.skipped, hleft.text, ?_⟩
  have hignore : st'.ignore - 1 = st.ignore := (congrArg (· - 1) hleft.ignore).trans h.ignore.symm
  rw [UnpackState.mk.injEq]
  exact ⟨rfl, hleft.args, h.acc.symm, h.xacc.symm, hleft.stack, hignore, rfl, hstores.trans (List.append_nil _)⟩

/-- An optional key that is present: its value is read. -/
theorem AtKey.present (h : AtKey st top below) (hskipped : Skipped st.d)
    (htext : significant st.d = keyText true ++ (v.text ++ rest))
    (hargs : st.args = .key (some k.1) :: (v.args store ++ args)) (hdelimited : rest.head? ≠ some percent)
    (hdepth : st.stack.length + v.depth ≤ STACKCOUNT) {o : JsonObject D} (hpresent : objectGetEx top.parent k.name = some o)
    (hvalue : (v.meaning doubles store o).error = none) :
    ∃ w, Steps (unpackStep doubles store) st w ∧ Skipped w.d ∧ significant w.d = rest ∧ w.args = args := by
  obtain ⟨d, hd, hrest, hstep⟩ := (h.inside hskipped htext hargs).step_key doubles store
    (by rw [h.acc]; decide)
  rw [if_neg (not_not_intro h.ignore), hpresent] at hstep
  have hready : Ready store v { st with
      d, args := v.args store ++ args, xacc := colon, acc := unpackAcceptAny, obj := o,
      stack := { top with index := top.index + 1 } :: below } rest args := by
    refine ⟨hd, hrest, rfl, hdelimited, .inl rfl, show colon ≠ rbrace by decide, ?_⟩
    rw [h.stack] at hdepth
    exact hdepth
  have hrun := v.runs doubles hready
  rw [if_pos h.ignore] at hrun
  unfold Arrives at hrun
  rw [hvalue] at hrun
  obtain ⟨st', hleads, hleft, -⟩ := hrun
  exact ⟨_, .head hstep (hleads.steps rfl (next_colon hleft.xacc)), hleft.skipped, hleft.text, hleft.args⟩

end

/-- Where nothing is to skip, what counts tells the place in the descriptor. -/
theorem eq_of_significant {d d' t : Bytes} (hd : d <:+ t) (hd' : d' <:+ t) (hskipped : Skipped d)
    (hskipped' : Skipped d') (h : significant d = significant d') : d = d' := by
  have hlonger (l l' : Bytes) (hl : l <:+ l') (hskipped : Skipped l') (h : significant l = significant l') : l = l' := by
    obtain ⟨u, rfl⟩ := hl
    cases u with
    | nil => rfl
    | cons b u =>
      have hb : b ∉ ignoreAll := hskipped b rfl
      have hlength := congrArg List.length h
      rw [List.cons_append, significant_cons hb, significant, significant, List.filter_append, List.length_cons,
        List.length_append] at hlength
      omega
  rcases List.suffix_or_suffix_of_suffix hd hd' with hl | hl
  · exact hlonger d d' hl hskipped' h
  · exact (hlonger d' d hl hskipped h.symm).symm

/-! The object of a state, where it is not read. -/

/-- What comes next is no value, or one that brings its object. -/
structure Unread (st : UnpackState D) : Prop where
  ignore : st.ignore = 0
  xacc : st.xacc = rbrace ∨ st.xacc = rbracket
  value : cur st.d ∈ st.acc → cur st.d ∈ unpackAcceptAny → cur st.d = lowerS ∧ st.xacc = rbrace

/-- The two do the same, but for an object that is not read. -/
inductive Resembles (o : JsonObject D) : Except (Stop (UnpackState D)) (UnpackState D ⊕ UnpackState D) →
    Except (Stop (UnpackState D)) (UnpackState D ⊕ UnpackState D) → Prop
  | same (t : UnpackState D) : Resembles o (.ok (.inl t)) (.ok (.inl t))
  | unread {t : UnpackState D} (h : Unread t) : Resembles o (.ok (.inl t)) (.ok (.inl { t with obj := o }))
  | done (t : UnpackState D) : Resembles o (.ok (.inr t)) (.ok (.inr { t with obj := o }))
  | error (e : JsonError) {t t' : UnpackState D} (h : t'.stores = t.stores) :
    Resembles o (.error (.error e t)) (.error (.error e t'))
  | fault (f : Fault) : Resembles o (.error (.fault f)) (.error (.fault f))

private theorem acceptKey_any : ∀ c ∈ unpackAcceptKey, c ∈ unpackAcceptAny → c = lowerS := by
  have hall : unpackAcceptKey.all (fun c => c ∈ unpackAcceptAny → c = lowerS) := by decide
  exact fun c hc => of_decide_eq_true (List.all_eq_true.mp hall c hc)

section
variable {st : UnpackState D}

private theorem resembles_next (o : JsonObject D) (h : st.ignore = 0) :
    Resembles o (unpackNext st) (unpackNext { st with obj := o }) := by
  unfold unpackNext
  dsimp only
  split
  · split
    · exact .error _ rfl
    · split
      · exact .error _ rfl
      · exact .done st
  split
  · next hbracket =>
    split
    · split
      · exact .fault _
      · split
        · exact .error _ rfl
        · exact .same _
    · next hitem =>
      refine .unread ⟨h, .inr hbracket, fun _ hany => ?_⟩
      exact absurd ⟨h, .inr hany⟩ hitem
  split
  · exact .unread ⟨by rw [h], .inl rfl, fun hkey hany => ⟨acceptKey_any _ hkey hany, rfl⟩⟩
  · exact .error _ rfl

variable (doubles store) in
/-- One iteration. -/
theorem Unread.step (h : Unread st) (o : JsonObject D) : Resembles o (unpackStep doubles store st)
    (unpackStep doubles store { st with obj := o }) := by
  unfold unpackStep
  dsimp only
  split
  · exact .error _ rfl
  split
  · exact .error _ rfl
  next hacc =>
  have hacc : cur st.d ∈ st.acc := of_not_not hacc
  split
  · unfold unpackKey
    dsimp only
    split
    · exact .error _ rfl
    · split
      · exact .fault _
      rw [if_neg (not_not_intro h.ignore), if_neg (not_not_intro h.ignore)]
      split
      · exact .fault _
      · split
        · exact .same _
        · split
          · exact .same _
          · exact .error _ rfl
    · exact .fault _
  next hkey =>
  have hany : cur st.d ∉ unpackAcceptAny := fun hany => hkey (h.value hacc hany)
  split
  · next hopen => exact absurd (by rcases hopen with heq | heq <;> rw [heq] <;> decide) hany
  split
  · next hmark =>
    have hunread : Unread { st with d := advance st.d, acc := [st.xacc] } := by
      refine ⟨h.ignore, h.xacc, fun hlast hany => ?_⟩
      dsimp only at hlast hany
      rw [List.mem_singleton.mp hlast] at hany
      rcases h.xacc with heq | heq <;> rw [heq] at hany <;> exact absurd hany (by decide)
    unfold unpackEnd
    dsimp only
    split
    · split
      · exact .error _ rfl
      rw [if_pos h.ignore, if_pos h.ignore]
      split
      · exact .fault _
      · split
        · exact .error _ rfl
        · exact .unread hunread
    · exact .unread hunread
  next hmark =>
  have hitem (u : UnpackState D) (fit : Bytes) : unpackItem doubles store u fit (cur st.d) =
      if cur st.d = rbrace ∨ cur st.d = rbracket then unpackClose u (cur st.d)
      else .error (.error .internalError u) := by
    have hne (c : UInt8) (hc : c ∈ unpackAcceptAny) : cur st.d ≠ c := fun heq => hany (heq ▸ hc)
    unfold unpackItem
    rw [if_neg (hne _ (by decide)), if_neg (hne _ (by decide)), if_neg (hne _ (by decide)), if_neg (hne _ (by decide)),
      if_neg (hne _ (by decide)), if_neg (not_or.mpr ⟨hne _ (by decide), hne _ (by decide)⟩),
      if_neg (not_or.mpr ⟨hne _ (by decide), hne _ (by decide)⟩),
      if_neg (not_or.mpr ⟨hne _ (by decide), hne _ (by decide)⟩)]
  rw [hitem, hitem]
  split
  · unfold unpackClose
    dsimp only
    split
    · exact .error _ rfl
    · split
      · exact .error _ rfl
      · exact resembles_next o (by rw [h.ignore])
  · exact .error _ rfl

end

/-- The outcome is the same for any object that is not read. -/
theorem Unread.ends {st : UnpackState D} (h : Unread st) (o : JsonObject D)
    {r : Except (Stop (UnpackState D)) (UnpackState D)} (hends : Ends (unpackStep doubles store) st r) :
    ∃ r', Ends (unpackStep doubles store) { st with obj := o } r' ∧ outcomeOf r' = outcomeOf r := by
  induction hends with
  | @next s t r hstep hrest ih =>
    have hresembles := h.step doubles store o
    generalize hx : unpackStep doubles store { s with obj := o } = x at hresembles
    rw [hstep] at hresembles
    cases hresembles with
    | same => exact ⟨r, .next hx hrest, rfl⟩
    | unread ht =>
      obtain ⟨r', hr', heq⟩ := ih ht
      exact ⟨r', .next hx hr', heq⟩
  | @done s t hstep =>
    have hresembles := h.step doubles store o
    generalize hx : unpackStep doubles store { s with obj := o } = x at hresembles
    rw [hstep] at hresembles
    cases hresembles with
    | done => exact ⟨_, .done hx, rfl⟩
  | @error s e hstep =>
    have hresembles := h.step doubles store o
    generalize hx : unpackStep doubles store { s with obj := o } = x at hresembles
    rw [hstep] at hresembles
    cases hresembles with
    | error e hst =>
      refine ⟨_, .error hx, ?_⟩
      rw [outcomeOf, outcomeOf, hst]
    | fault f => exact ⟨_, .error hx, rfl⟩

/-- An optional key that is absent from the object: no store is made for its value, the arguments
are taken as when the key is present, and the call ends as the one without the key and its value. -/
theorem optional_skipped (v : Shape) (k : KeyBlock) {object : JsonObject D} {before mid post : Bytes}
    {used rest : List UnpackArg} {st : UnpackState D} {top : UnpackFrame D} {below : List (UnpackFrame D)}
    (hmid : significant mid = keyText true ++ v.text) (hpost : (significant post).head? ≠ some percent)
    (hreach : Steps (unpackStep doubles store) (unpackStart object (before ++ (mid ++ post))
      (used ++ (.key (some k.1) :: (v.args store ++ rest)))) st)
    (hd : st.d = skip (mid ++ post)) (hargs : st.args = .key (some k.1) :: (v.args store ++ rest))
    (hat : AtKey st top below) (hdepth : st.stack.length + v.depth ≤ STACKCOUNT)
    (habsent : objectGetEx top.parent k.name = none) :
    (∃ w, Steps (unpackStep doubles store) st w ∧ w.d = skip post ∧ w.args = rest ∧ w.stores = st.stores) ∧
    (∀ (st' : UnpackState D) top' below' o, st'.d = st.d → st'.args = st.args → AtKey st' top' below' →
      st'.stack.length + v.depth ≤ STACKCOUNT → objectGetEx top'.parent k.name = some o →
      (v.meaning doubles store o).error = none →
        ∃ w, Steps (unpackStep doubles store) st' w ∧ w.d = skip post ∧ w.args = rest) ∧
    ∃ x position position', vunpack doubles store object (some (before ++ (mid ++ post)))
        (used ++ (.key (some k.1) :: (v.args store ++ rest))) = some (resultOf x position) ∧
      vunpack doubles store object (some (before ++ post)) (used ++ rest) = some (resultOf x position') := by
  have hskipped : Skipped st.d := hd ▸ skipped_skip _
  have htext : significant st.d = keyText true ++ (v.text ++ significant post) := by
    rw [hd, significant_skip, significant, List.filter_append, ← significant, ← significant, hmid, List.append_assoc]
  -- after the value, the descriptor is at what comes next
  have hplace (s w : UnpackState D) (hs : s.d = st.d) (hw : Steps (unpackStep doubles store) s w)
      (hwskipped : Skipped w.d) (hwtext : significant w.d = significant post) : w.d = skip post := by
    have hin : w.d <:+ mid ++ post := by
      have hon := (onward_steps hw).d
      rw [hs, hd] at hon
      exact hon.trans (skip_suffix _)
    exact eq_of_significant hin ((skip_suffix post).trans (List.suffix_append mid post)) hwskipped (skipped_skip post)
      (hwtext.trans (significant_skip post).symm)
  obtain ⟨w, hw, hwskipped, hwtext, hsame⟩ := hat.absent hskipped htext hargs hpost hdepth habsent doubles
  have hwd := hplace st w rfl hw hwskipped hwtext
  refine ⟨⟨w, hw, hwd, by rw [hsame], by rw [hsame]⟩, ?_, ?_⟩
  · intro st' top' below' o hd' hargs' hat' hdepth' hpresent hvalue
    obtain ⟨w', hw', hskipped', htext', hrest⟩ := hat'.present (hd' ▸ hskipped) (hd' ▸ htext) (hargs'.trans hargs) hpost
      hdepth' hpresent hvalue
    exact ⟨w', hw', hplace st' w' hd' hw' hskipped' htext', hrest⟩
  · -- the call without the key is at the same place
    have halike : Alike (significant st.d) (significant post) st.args rest
        (unpackStart object (before ++ (mid ++ post)) (used ++ (.key (some k.1) :: (v.args store ++ rest))))
        (unpackStart object (before ++ post) (used ++ rest)) := by
      refine ⟨skipped_skip _, skipped_skip _, ⟨significant before, ?_, ?_⟩, ⟨used, by rw [hargs]; rfl, rfl⟩, rfl, rfl, rfl,
        rfl, rfl, rfl⟩
      · rw [hd, significant_skip]
        exact (significant_skip _).trans (List.filter_append ..)
      · exact (significant_skip _).trans (List.filter_append ..)
    obtain ⟨t, ht, hat'⟩ := alike_steps halike (by rw [htext]; rfl) hpost hreach rfl rfl hat.xacc
      (by rw [hat.acc]; decide)
    have htd : t.d = skip post := by
      obtain ⟨u, hu, hu'⟩ := hat'.text
      rw [List.append_left_eq_self.mp hu.symm, List.nil_append] at hu'
      have hin : t.d <:+ before ++ post := (onward_steps ht).d.trans (skip_suffix _)
      exact eq_of_significant hin ((skip_suffix post).trans (List.suffix_append before post)) hat'.skipped'
        (skipped_skip post) (hu'.trans (significant_skip post).symm)
    have htargs : t.args = rest := by
      obtain ⟨u, hu, hu'⟩ := hat'.args
      rwa [List.append_left_eq_self.mp hu.symm, List.nil_append] at hu'
    have hwt : w = { t with obj := w.obj } := by
      rw [hsame, UnpackState.mk.injEq]
      exact ⟨hwd.trans htd.symm, htargs.symm, hat'.acc.symm, hat'.xacc.symm, hat'.stack.symm, hat'.ignore.symm, rfl,
        hat'.stores.symm⟩
    have hunread : Unread t := by
      refine ⟨hat'.ignore.trans hat.ignore, .inl (hat'.xacc.trans hat.xacc), fun hkey hany => ⟨?_, hat'.xacc.trans hat.xacc⟩⟩
      rw [hat'.acc, hat.acc] at hkey
      exact acceptKey_any _ hkey hany
    obtain ⟨r, hr⟩ := exists_ends doubles store t
    obtain ⟨r', hr', heq⟩ := hunread.ends w.obj hr
    rw [← hwt] at hr'
    obtain ⟨position, hfull⟩ := vunpack_ends (.of_steps (hreach.trans hw) hr')
    obtain ⟨position', hless⟩ := vunpack_ends (.of_steps ht hr)
    exact ⟨outcomeOf r, position, position', by rw [hfull, heq], hless⟩

/-- "{s?{s?[i!]!} si!}" for an object without the first key. -/
theorem optional_skipped_nested : ∃ x position position',
    vunpack (D := Unit) ⟨fun _ => ()⟩ true (.object [([0x62], .int 5)])
      (some ([lbrace] ++ ([lowerS, question, lbrace, lowerS, question, lbracket, lowerI, bang, rbracket, bang, rbrace] ++
        [lowerS, lowerI, bang, rbrace])))
      ([] ++ (.key (some [0x61, 0]) :: ([.key (some [0x63, 0]), .int (some 0)] ++
        [.key (some [0x62, 0]), .int (some 1)]))) = some (resultOf x position) ∧
    vunpack (D := Unit) ⟨fun _ => ()⟩ true (.object [([0x62], .int 5)])
      (some ([lbrace] ++ [lowerS, lowerI, bang, rbrace]))
      ([] ++ [.key (some [0x62, 0]), .int (some 1)]) = some (resultOf x position') :=
  (optional_skipped (.object [((⟨[0x63, 0], by decide⟩, true), .array [.int (some 0)] .strict)] .strict)
    ⟨[0x61, 0], by decide⟩ rfl (by decide) (.single rfl) rfl rfl ⟨rfl, rfl, rfl, rfl⟩ (by decide) rfl).2.2

end AfbBinder.WrapJson
