import AfbBinder.WrapJson.UnpackRuns

/-! Two calls of vunpack whose descriptors and whose arguments begin alike: they do the same until
what differs is read. -/
namespace AfbBinder.WrapJson
open Lib.Cstrings Lib.Checked Lib.Loops
open Lib.Json (lbracket rbracket lbrace rbrace colon)

variable {D : Type} {doubles : Doubles D} {store : Bool} {X X' : Bytes} {A A' : List UnpackArg}

/-- The states differ only in the ends of their descriptors and of their arguments. -/
structure Alike (X X' : Bytes) (A A' : List UnpackArg) (s s' : UnpackState D) : Prop where
  skipped : Skipped s.d
  skipped' : Skipped s'.d
  text : ∃ w, significant s.d = w ++ X ∧ significant s'.d = w ++ X'
  args : ∃ u, s.args = u ++ A ∧ s'.args = u ++ A'
  acc : s'.acc = s.acc
  xacc : s'.xacc = s.xacc
  stack : s'.stack = s.stack
  ignore : s'.ignore = s.ignore
  obj : s'.obj = s.obj
  stores : s'.stores = s.stores

/-- The ends have not been read. -/
structure Before (X : Bytes) (A : List UnpackArg) (s : UnpackState D) : Prop where
  text : X <:+ significant s.d
  args : A <:+ s.args

section
variable {s s' t : UnpackState D}

private theorem Before.of_onward (h : Before X A t) (hon : Onward s t) : Before X A s :=
  ⟨h.text.trans (hon.d.filter _), h.args.trans hon.args⟩

/-- What is common has been read only after the last iteration. -/
theorem significant_ne (ht : unpackStep doubles store s = .ok (.inl t)) (hskipped : Skipped s.d)
    (hX : X.head? = some lowerS) (htext : X <:+ significant t.d) : significant s.d ≠ X := by
  intro heq
  have hread := (htext.trans ((unpackStep_onward ht).2.d.filter _)).length_le
  cases X with
  | nil => cases hX
  | cons c X =>
    obtain ⟨-, hrest, -⟩ := hskipped.split heq
    change (c :: X).length ≤ (significant (advance s.d)).length at hread
    rw [hrest] at hread
    exact absurd hread (Nat.not_succ_le_self _)

private theorem Alike.cur_eq (h : Alike X X' A A' s s') (hne : significant s.d ≠ X) : cur s'.d = cur s.d := by
  obtain ⟨w, hw, hw'⟩ := h.text
  rw [h.skipped.cur_eq, h.skipped'.cur_eq, hw, hw']
  cases w with
  | nil => exact absurd hw hne
  | cons c w => rfl

private theorem Alike.advanced (h : Alike X X' A A' s s') (hne : significant s.d ≠ X) :
    Alike X X' A A' { s with d := advance s.d } { s' with d := advance s'.d } := by
  obtain ⟨w, hw, hw'⟩ := h.text
  cases w with
  | nil => exact absurd hw hne
  | cons c w =>
    obtain ⟨-, htext, hskipped⟩ := h.skipped.split hw
    obtain ⟨-, htext', hskipped'⟩ := h.skipped'.split hw'
    exact ⟨hskipped, hskipped', ⟨w, htext, htext'⟩, h.args, h.acc, h.xacc, h.stack, h.ignore, h.obj, h.stores⟩

private theorem Alike.put (h : Alike X X' A A' s s') (p : Option Nat) (x : Stored D) :
    Alike X X' A A' (s.put p x) (s'.put p x) := by
  cases p with
  | none => exact h
  | some p =>
    exact ⟨h.skipped, h.skipped', h.text, h.args, h.acc, h.xacc, h.stack, h.ignore, h.obj,
      congrArg (· ++ [(p, x)]) h.stores⟩

/-- Not even the last character is a % in one descriptor and not in the other. -/
theorem Alike.percent_iff (h : Alike X X' A A' s s') (hX : X.head? = some lowerS) (hX' : X'.head? ≠ some percent) :
    cur s'.d = percent ↔ cur s.d = percent := by
  by_cases hne : significant s.d = X
  · obtain ⟨w, hw, hw'⟩ := h.text
    have hnil : w = [] := List.append_left_eq_self.mp (hw.symm.trans hne)
    rw [h.skipped.cur_eq, h.skipped'.cur_eq, hw, hw', hnil]
    refine iff_of_false (fun hp => ?_) (fun hp => ?_)
    · cases X' with
      | nil => exact absurd hp (by decide)
      | cons c X' => exact hX' (congrArg some hp)
    · cases X with
      | nil => cases hX
      | cons c X =>
        cases hX
        cases hp
  · rw [h.cur_eq hne]

private theorem alike_takeArg (h : Alike X X' A A' s s') (asArg : UnpackArg → Option (Option Nat)) :
    Carries (fun x => A <:+ x.2.args) (fun x y => y.1 = x.1 ∧ Alike X X' A A' x.2 y.2)
      (takeArg store asArg s) (takeArg store asArg s') := by
  intro x hx hA
  unfold takeArg at *
  by_cases hstore : store = true
  · rw [if_pos hstore] at *
    obtain ⟨u, hu, hu'⟩ := h.args
    cases hargs : s.args with
    | nil =>
      rw [hargs] at hx
      cases hx
    | cons arg args =>
      rw [hargs] at hx
      dsimp only at hx
      cases harg : asArg arg with
      | none =>
        rw [harg] at hx
        cases hx
      | some p =>
        rw [harg] at hx
        cases hx
        cases u with
        | nil =>
          have hlength := hA.length_le
          rw [← List.nil_append A, ← hu, hargs] at hlength
          exact absurd hlength (Nat.not_succ_le_self _)
        | cons b u =>
          rw [hu, List.cons_append] at hargs
          obtain ⟨rfl, rfl⟩ := List.cons.inj hargs
          rw [hu', List.cons_append]
          dsimp only
          rw [harg]
          exact ⟨_, rfl, rfl, h.skipped, h.skipped', h.text, ⟨u, rfl, rfl⟩, h.acc, h.xacc, h.stack, h.ignore, h.obj,
            h.stores⟩
  · rw [if_neg hstore] at *
    cases hx
    exact ⟨_, rfl, rfl, h⟩

private theorem alike_storeValue (h : Alike X X' A A' s s') (fit fit' : Bytes) (p : Option Nat)
    (value : JsonObject D → Option (Stored D)) : Carries (fun t => A <:+ t.args) (Alike X X' A A')
      (storeValue s fit p value) (storeValue s' fit' p value) := by
  unfold storeValue
  rw [h.ignore, h.obj]
  split
  · split
    · exact carries_ok (h.put p _)
    · exact carries_error
  · exact carries_ok h

private theorem alike_unpackScalar (h : Alike X X' A A' s s') (fit fit' : Bytes)
    (asArg : UnpackArg → Option (Option Nat))
    (value : JsonObject D → Option (Stored D)) : Carries (fun t => A <:+ t.args) (Alike X X' A A')
      (unpackScalar store s fit asArg value) (unpackScalar store s' fit' asArg value) := by
  refine (alike_takeArg h asArg).bind (fun x t ht hA => ?_) fun x y hxy => ?_
  · exact hA.trans ((meets_iff.mp onward_storeValue).1 _ ht).args
  · obtain ⟨p, x⟩ := x
    obtain ⟨q, y⟩ := y
    obtain ⟨rfl, hxy⟩ := hxy
    exact alike_storeValue hxy fit fit' q value

private theorem alike_unpackString (h : Alike X X' A A' s s') (hX : X.head? = some lowerS)
    (hX' : X'.head? ≠ some percent)
    (fit fit' : Bytes) : Carries (Before X A) (Alike X X' A A') (unpackString store s fit)
      (unpackString store s' fit') := by
  refine (alike_unpackScalar h fit fit' _ _).bind (fun u t ht hbefore => ?_) fun u u' hu => ?_
  · refine hbefore.args.trans ?_
    dsimp only at ht
    split at ht
    · obtain ⟨x, hx, ht⟩ := bind_ok.mp ht
      have hon := (meets_iff.mp onward_takeArg).1 _ hx
      split at ht
      · cases ht
        exact (onward_put _ _).args.trans hon.1.args
      · cases ht
        exact hon.1.args
    · cases ht
      exact List.suffix_refl _
  · by_cases hpercent : cur u.d = percent
    · have hne : significant u.d ≠ X := by
        intro heq
        rw [hu.skipped.cur_eq, heq] at hpercent
        cases X with
        | nil => cases hX
        | cons c X =>
          cases hX
          cases hpercent
      rw [if_pos hpercent, if_pos ((hu.percent_iff hX hX').mpr hpercent)]
      refine (alike_takeArg (hu.advanced hne) _).bind (fun x t ht hbefore => ?_) fun x y hxy => ?_
      · dsimp only at ht
        split at ht
        · cases ht
          exact hbefore.args.trans (onward_put _ _).args
        · cases ht
          exact hbefore.args
      · obtain ⟨p, x⟩ := x
        obtain ⟨q, y⟩ := y
        obtain ⟨rfl, hxy⟩ := hxy
        dsimp only
        rw [hxy.ignore, hxy.obj]
        split
        · exact carries_ok (hxy.put q _)
        · exact carries_ok hxy
    · rw [if_neg hpercent, if_neg fun hp => hpercent ((hu.percent_iff hX hX').mp hp)]
      exact carries_ok hu

private theorem alike_putBytes (h : Alike X X' A A' s s') (py pz : Option Nat) (data : Option Bytes) :
    Alike X X' A A' (putBytes s py pz data) (putBytes s' py pz data) := by
  unfold putBytes
  split
  · exact (h.put _ _).put _ _
  · exact h

private theorem alike_storeBytes (h : Alike X X' A A' s s') (fit fit' : Bytes) (py pz : Option Nat) :
    Carries (Before X A) (Alike X X' A A') (storeBytes s fit py pz) (storeBytes s' fit' py pz) := by
  unfold storeBytes
  rw [h.ignore, h.obj]
  split
  · split
    · exact carries_ok (alike_putBytes h py pz none)
    · split
      · split
        · exact carries_ok (alike_putBytes h py pz _)
        · exact carries_error
      · exact carries_ok h
    · exact carries_error
  · exact carries_ok h

private theorem alike_unpackBytes (h : Alike X X' A A' s s') (fit fit' : Bytes) : Carries (Before X A)
    (Alike X X' A A')
    (unpackBytes store s fit) (unpackBytes store s' fit') := by
  rw [unpackBytes_eq, unpackBytes_eq]
  refine (alike_takeArg h _).bind (fun x t ht hbefore => ?_) fun x x' hx => ?_
  · obtain ⟨y, hy, ht⟩ := bind_ok.mp ht
    have hlast := ((meets_iff.mp onward_storeBytes).1 _ ht).args
    exact hbefore.args.trans (hlast.trans ((meets_iff.mp onward_takeArg).1 _ hy).1.args)
  refine (alike_takeArg hx.2 _).bind (fun y t ht hbefore => ?_) fun y y' hy => ?_
  · exact hbefore.args.trans ((meets_iff.mp onward_storeBytes).1 _ ht).args
  · rw [hx.1, hy.1]
    exact alike_storeBytes hy.2 fit fit' x.1 y.1

private theorem alike_unpackClose (h : Alike X X' A A' s s') (c : UInt8) : Carries (Before X A)
    (Alike X X' A A')
    (unpackClose s c) (unpackClose s' c) := by
  unfold unpackClose
  rw [h.stack, h.xacc, h.ignore]
  split
  · exact carries_error
  · split
    · exact carries_error
    · exact carries_ok ⟨h.skipped, h.skipped', h.text, h.args, rfl, rfl, rfl, rfl, h.obj, h.stores⟩

private theorem alike_unpackItem (h : Alike X X' A A' s s') (hX : X.head? = some lowerS)
    (hX' : X'.head? ≠ some percent)
    (fit fit' : Bytes) (c : UInt8) : Carries (Before X A) (Alike X X' A A') (unpackItem doubles store s fit c)
      (unpackItem doubles store s' fit' c) := by
  have hscalar (asArg : UnpackArg → Option (Option Nat)) (value : JsonObject D → Option (Stored D)) :
      Carries (Before X A) (Alike X X' A A') (unpackScalar store s fit asArg value)
        (unpackScalar store s' fit' asArg value) :=
    fun t ht hbefore => alike_unpackScalar h fit fit' asArg value t ht hbefore.args
  unfold unpackItem
  split
  · exact alike_unpackString h hX hX' fit fit'
  split
  · rw [h.ignore, h.obj]
    split
    · exact carries_error
    · exact carries_ok h
  split
  · exact hscalar _ _
  split
  · exact hscalar _ _
  split
  · exact hscalar _ _
  split
  · exact hscalar _ _
  split
  · exact hscalar _ _
  split
  · exact alike_unpackBytes h fit fit'
  split
  · exact alike_unpackClose h c
  · exact carries_error

private theorem alike_lookupKey (h : Alike X X' A A' s s') (optional : Bool) (name : Bytes) :
    Carries (fun _ => True) (Alike X X' A A') (lookupKey s optional name) (lookupKey s' optional name) := by
  unfold lookupKey
  rw [h.stack, h.ignore]
  split
  · exact carries_ok ⟨h.skipped, h.skipped', h.text, h.args, h.acc, h.xacc, rfl, rfl, h.obj, h.stores⟩
  split
  · exact carries_error
  split
  · exact carries_ok ⟨h.skipped, h.skipped', h.text, h.args, h.acc, h.xacc, rfl, rfl, rfl, h.stores⟩
  split
  · exact carries_ok ⟨h.skipped, h.skipped', h.text, h.args, h.acc, h.xacc, rfl, rfl, rfl, h.stores⟩
  · exact carries_error

/-- A key, whose value comes before the end. -/
theorem alike_unpackKey (h : Alike X X' A A' s s') (hX : X.head? = some lowerS) :
    Carries (fun t => Before X A t ∧ (significant t.d = X → t.xacc = rbrace)) (Alike X X' A A') (unpackKey s)
      (unpackKey s') := by
  intro t ht hend
  obtain ⟨k, args, hargs, hk⟩ := unpackKey_ok ht
  rw [unpackKey_eq hargs hk] at ht
  obtain ⟨hd, ha, hxacc⟩ := lookupKey_same ht
  have hne : significant s.d ≠ X := by
    intro heq
    have hquestion : cur s.d ≠ question := by
      rw [h.skipped.cur_eq, heq]
      cases X with
      | nil => cases hX
      | cons c X =>
        cases hX
        rintro ⟨⟩
    have hsame : unquestioned s.d = s.d := if_neg hquestion
    have hlast : colon = rbrace := hxacc.symm.trans (hend.2 (by rw [hd, hsame, heq]))
    exact absurd hlast (by decide)
  obtain ⟨u, hu, hu'⟩ := h.args
  cases u with
  | nil =>
    have hlength := hend.1.args.length_le
    rw [ha, ← List.nil_append A, ← hu, hargs] at hlength
    exact absurd hlength (Nat.not_succ_le_self _)
  | cons b u =>
    rw [hu, List.cons_append] at hargs
    obtain ⟨rfl, rfl⟩ := List.cons.inj hargs
    rw [unpackKey_eq hu' hk, h.cur_eq hne]
    refine alike_lookupKey ?_ _ _ t ht trivial
    have htext := h.advanced hne
    unfold unquestioned
    rw [h.cur_eq hne]
    split
    · exact ⟨htext.skipped, htext.skipped', htext.text, ⟨u, rfl, rfl⟩, rfl, rfl, h.stack, h.ignore, h.obj, h.stores⟩
    · exact ⟨h.skipped, h.skipped', h.text, ⟨u, rfl, rfl⟩, rfl, rfl, h.stack, h.ignore, h.obj, h.stores⟩

private theorem alike_unpackEnd (h : Alike X X' A A' s s') (c : UInt8) :
    Carries (fun t => significant t.d ≠ X) (Alike X X' A A') (unpackEnd s c) (unpackEnd s' c) := by
  have hlast : Alike X X' A A' { s with acc := [s.xacc] } { s' with
      acc := [s.xacc], xacc := s.xacc, stack := s.stack, ignore := s.ignore } :=
    ⟨h.skipped, h.skipped', h.text, h.args, rfl, rfl, rfl, rfl, h.obj, h.stores⟩
  intro t ht hne
  have hs : significant s.d ≠ X := by rwa [unpackEnd_ok ht] at hne
  revert t ht hne
  unfold unpackEnd
  dsimp only
  rw [h.stack, h.xacc, h.ignore, h.cur_eq hs]
  intro t ht hne
  refine (?_ : Carries (fun _ => True) (Alike X X' A A') _ _) t ht trivial
  split
  · split
    · exact carries_error
    split
    · split
      · exact carries_error
      · split
        · exact carries_error
        · exact carries_ok hlast
    · exact carries_ok hlast
  · exact carries_ok hlast

/-- The second switch, after which the end is not met but at a key. -/
theorem alike_unpackNext (h : Alike X X' A A' s s') (ht : unpackNext s = .ok (.inl t))
    (hlast : significant t.d = X → t.xacc = rbrace) : ∃ t', unpackNext s' = .ok (.inl t') ∧ Alike X X' A A' t t' := by
  by_cases hbracket : s.xacc = rbracket
  · have hcur : cur s'.d = cur s.d := by
      refine h.cur_eq fun heq => ?_
      have hbrace := hlast ((congrArg significant (unpackNext_same ht).1).trans heq)
      rw [unpackNext_array ht hbracket] at hbrace
      exact absurd hbrace (by decide)
    unfold unpackNext at *
    rw [hbracket, if_neg (by decide), if_pos rfl] at ht
    rw [h.xacc, hbracket, if_neg (by decide), if_pos rfl, h.ignore, hcur, h.stack]
    split at ht
    · next hitem =>
      rw [if_pos hitem]
      split at ht
      · cases ht
      · next top below hstack =>
        obtain ⟨hcount, ht⟩ := guard_ok.mp ht
        cases ht
        dsimp only
        rw [if_neg hcount]
        exact ⟨_, rfl, h.skipped, h.skipped', h.text, h.args, h.acc, rfl, rfl, rfl, rfl, h.stores⟩
    · next hitem =>
      cases ht
      rw [if_neg hitem]
      exact ⟨_, rfl, h⟩
  · unfold unpackNext at *
    rw [h.xacc]
    rw [if_neg hbracket] at ht
    split at ht
    · split at ht
      · cases ht
      · split at ht <;> cases ht
    next hzero =>
    rw [if_neg hzero, if_neg hbracket]
    obtain ⟨hcolon, ht⟩ := unless_ok.mp ht
    cases ht
    rw [if_pos hcolon, h.ignore]
    exact ⟨_, rfl, h.skipped, h.skipped', h.text, h.args, rfl, rfl, h.stack, rfl, h.obj, h.stores⟩

private theorem alike_unpackOpen (h : Alike X X' A A' s s') {fit : Bytes} (fit' : Bytes) {c : UInt8}
    (ht : unpackOpen s fit c = .ok (.inl t)) (hlast : significant t.d = X → t.xacc = rbrace) :
    ∃ t', unpackOpen s' fit' c = .ok (.inl t') ∧ Alike X X' A A' t t' := by
  unfold unpackOpen at *
  rw [h.stack, h.ignore, h.obj, h.acc, h.xacc]
  obtain ⟨hdepth, ht⟩ := unless_ok.mp ht
  rw [if_pos hdepth]
  dsimp only at *
  obtain ⟨hfits, ht⟩ := guard_ok.mp ht
  rw [if_neg hfits]
  split at ht
  · next hbracket =>
    rw [if_pos hbracket]
    refine alike_unpackNext ?_ ht hlast
    exact ⟨h.skipped, h.skipped', h.text, h.args, rfl, rfl, rfl, rfl, rfl, h.stores⟩
  · next hbracket =>
    rw [if_neg hbracket]
    cases ht
    exact ⟨_, rfl, h.skipped, h.skipped', h.text, h.args, rfl, rfl, rfl, rfl, rfl, h.stores⟩

/-- An iteration, after which the end is not met but at a key. -/
theorem alike_step (h : Alike X X' A A' s s') (hX : X.head? = some lowerS) (hX' : X'.head? ≠ some percent)
    (ht : unpackStep doubles store s = .ok (.inl t)) (hbefore : Before X A t)
    (hlast : significant t.d = X → t.xacc = rbrace ∧ lowerS ∈ t.acc) :
    ∃ t', unpackStep doubles store s' = .ok (.inl t') ∧ Alike X X' A A' t t' := by
  have hne := significant_ne ht h.skipped hX hbefore.text
  have hadvanced := h.advanced hne
  unfold unpackStep at *
  dsimp only at *
  rw [h.cur_eq hne]
  obtain ⟨hzero, ht⟩ := guard_ok.mp ht
  obtain ⟨hacc, ht⟩ := guard_ok.mp ht
  rw [if_neg hzero, if_neg (h.acc ▸ hacc)]
  split at ht
  · next hkey =>
    obtain ⟨u, hu, heq⟩ := map_ok.mp ht
    cases heq
    obtain ⟨t', ht', halike⟩ := alike_unpackKey hadvanced hX t hu ⟨hbefore, fun heq => (hlast heq).1⟩
    rw [if_pos ⟨hkey.1, h.xacc.trans hkey.2⟩, ht']
    exact ⟨t', rfl, halike⟩
  next hkey =>
  rw [if_neg fun hk => hkey ⟨hk.1, h.xacc.symm.trans hk.2⟩]
  split at ht
  · next hopen =>
    rw [if_pos hopen]
    exact alike_unpackOpen hadvanced s'.d ht fun heq => (hlast heq).1
  next hopen =>
  rw [if_neg hopen]
  split at ht
  · next hmark =>
    obtain ⟨u, hu, heq⟩ := map_ok.mp ht
    cases heq
    have hend : significant t.d ≠ X := by
      intro heq
      obtain ⟨hbrace, hin⟩ := hlast heq
      rw [unpackEnd_ok hu] at hbrace hin
      dsimp only at hbrace hin
      rw [hbrace] at hin
      exact absurd hin (by decide)
    obtain ⟨t', ht', halike⟩ := alike_unpackEnd hadvanced _ t hu hend
    rw [if_pos hmark, ht']
    exact ⟨t', rfl, halike⟩
  next hmark =>
  rw [if_neg hmark]
  obtain ⟨u, hu, hn⟩ := bind_ok.mp ht
  have hbefore' : Before X A u := by
    obtain ⟨hd, ha⟩ := unpackNext_same hn
    exact ⟨hd ▸ hbefore.text, ha ▸ hbefore.args⟩
  obtain ⟨u', hu', halike⟩ := alike_unpackItem hadvanced hX hX' s.d s'.d _ u hu hbefore'
  rw [hu', ok_bind]
  exact alike_unpackNext halike hn fun heq => (hlast heq).1

/-- The calls are alike until a key is met at the end of what is common. -/
theorem alike_steps (h : Alike X X' A A' s s') (hX : X.head? = some lowerS) (hX' : X'.head? ≠ some percent)
    (hsteps : Steps (unpackStep doubles store) s t) (htext : significant t.d = X) (hargs : t.args = A)
    (hxacc : t.xacc = rbrace) (hacc : lowerS ∈ t.acc) :
    ∃ t', Steps (unpackStep doubles store) s' t' ∧ Alike X X' A A' t t' := by
  induction hsteps using Relation.ReflTransGen.head_induction_on generalizing s' with
  | refl => exact ⟨s', .refl, h⟩
  | @head s u hu hrest ih =>
    have hon := onward_steps hrest
    have hbefore : Before X A u := .of_onward ⟨htext ▸ List.suffix_refl _, hargs ▸ List.suffix_refl _⟩ hon
    have hskipped : Skipped u.d := (onward_steps (.single hu)).skipped h.skipped
    have hlast (heq : significant u.d = X) : u.xacc = rbrace ∧ lowerS ∈ u.acc := by
      rcases hrest.cases_head with rfl | ⟨v, hv, hvt⟩
      · exact ⟨hxacc, hacc⟩
      · have hend : X <:+ significant v.d := htext ▸ (onward_steps hvt).d.filter _
        exact absurd heq (significant_ne hv hskipped hX hend)
    obtain ⟨u', hu', halike⟩ := alike_step h hX hX' hu hbefore hlast
    obtain ⟨t', ht', halike'⟩ := ih halike
    exact ⟨t', .head hu' ht', halike'⟩

end

end AfbBinder.WrapJson
