import Mathlib.Data.List.Nodup
import AfbBinder.Lib.Cstrings

/-! The verbs of an api: an array of dynamic ones, that grows at its end and where the last
one takes the place of a deleted one, then two static tables. A call selects the first match. -/
namespace AfbBinder.Exports
open Lib.Cstrings

/-- The address tells apart verbs of the same contents. -/
structure VerbV3 where
  addr : Nat
  verb : Bytes
  info : Option Bytes
  callback : Nat
  vcbdata : Nat
  auth : Option Nat
  session : UInt16
  glob : Bool
  deriving DecidableEq, Repr

structure VerbV2 where
  addr : Nat
  verb : Bytes
  deriving DecidableEq, Repr

/-- The static tables are given up to the item that ends them; heap is the next free address. -/
structure ApiV3 where
  verbs : List VerbV3
  verbsv2 : Option (List VerbV2)
  verbsv3 : Option (List VerbV3)
  heap : Nat
  deriving DecidableEq, Repr

inductive VerbErrno where
  | eexist
  | enoent
  | enomem
  deriving DecidableEq, Repr

/-- What a call selects, and where it was found. -/
inductive Called where
  | dynamic (verb : VerbV3)
  | static (verb : VerbV3)
  | legacy (verb : VerbV2)
  | unknown
  deriving DecidableEq, Repr

section
variable (fnmatch : Bytes → Bytes → Bool)

/-- Whether verb_name_compare is zero; fnmatch is the one of the C library, with its flags. -/
def verbNameMatches (name : Bytes) (v : VerbV3) : Bool :=
  if v.glob then fnmatch v.verb name else strcasecmp v.verb name = .eq

def searchDynamicVerb (api : ApiV3) (name : Bytes) : Option VerbV3 :=
  api.verbs.find? (verbNameMatches fnmatch name)

def afbApiV3ProcessCall (api : ApiV3) (name : Bytes) : Called :=
  match searchDynamicVerb fnmatch api name with
  | some v => .dynamic v
  | none =>
    match (api.verbsv3.getD []).find? (verbNameMatches fnmatch name) with
    | some v => .static v
    | none =>
      match (api.verbsv2.getD []).find? fun v => strcasecmp v.verb name = .eq with
      | some v => .legacy v
      | none => .unknown

end

/-- The test of the verbs that are there compares the int glob with a field of one bit. -/
def afbApiV3AddVerb (api : ApiV3) (verb : Bytes) (info : Option Bytes) (callback vcbdata : Nat)
    (auth : Option Nat) (session : UInt16) (glob : Int) (mem : Bool) : Except VerbErrno ApiV3 :=
  if api.verbs.any fun v => glob = v.glob.toNat ∧ strcasecmp verb v.verb = .eq then .error .eexist
  else if mem then
    .ok { api with
      verbs := api.verbs ++ [⟨api.heap, verb, info, callback, vcbdata, auth, session, glob ≠ 0⟩]
      heap := api.heap + 1 }
  else .error .enomem

/-- The item at the index gets the last one, and the array shrinks. -/
def takeLast (l : List VerbV3) (i : Nat) : List VerbV3 :=
  match l.getLast? with
  | some last => (l.set i last).dropLast
  | none => l

/-- The first verb of the name is deleted, glob or not; its data is given back. -/
def afbApiV3DelVerb (api : ApiV3) (verb : Bytes) : Except VerbErrno (ApiV3 × Nat) :=
  match api.verbs.findIdx? fun v => strcasecmp verb v.verb = .eq with
  | none => .error .enoent
  | some i => .ok ({ api with verbs := takeLast api.verbs i },
      (api.verbs[i]?.map VerbV3.vcbdata).getD 0)

inductive VerbOp where
  | add (verb : Bytes) (info : Option Bytes) (callback vcbdata : Nat) (auth : Option Nat)
    (session : UInt16) (glob : Int) (mem : Bool)
  | del (verb : Bytes)
  deriving DecidableEq, Repr

/-- A call that fails changes nothing. -/
def verbStep (api : ApiV3) : VerbOp → ApiV3
  | .add verb info callback vcbdata auth session glob mem =>
    match afbApiV3AddVerb api verb info callback vcbdata auth session glob mem with
    | .ok api => api
    | .error _ => api
  | .del verb =>
    match afbApiV3DelVerb api verb with
    | .ok (api, _) => api
    | .error _ => api

/-- The api that the calls build over the static tables. -/
def verbRun (verbsv2 : Option (List VerbV2)) (verbsv3 : Option (List VerbV3)) (ops : List VerbOp) :
    ApiV3 :=
  ops.foldl verbStep ⟨[], verbsv2, verbsv3, 0⟩

/-- Each dynamic verb has its own address. -/
structure Distinct (api : ApiV3) : Prop where
  nodup : api.verbs.Nodup
  below : ∀ v ∈ api.verbs, v.addr < api.heap

section
variable {l pre post : List VerbV3} {v last : VerbV3}

private theorem takeLast_end : takeLast (pre ++ [v]) pre.length = pre := by
  rw [takeLast, List.getLast?_concat]
  simp

/-- The last item goes where the deleted one was. -/
theorem takeLast_middle :
    takeLast (pre ++ v :: (post ++ [last])) pre.length = pre ++ last :: post := by
  have hlast : (pre ++ v :: (post ++ [last])).getLast? = some last := by
    rw [← List.cons_append, ← List.append_assoc, List.getLast?_concat]
  rw [takeLast, hlast]
  dsimp only
  rw [List.set_append_right _ _ (Nat.le_refl _), Nat.sub_self, List.set_cons_zero,
    ← List.cons_append, ← List.append_assoc, List.dropLast_concat]

/-- Deleting keeps some of the items, each once. -/
theorem takeLast_perm (h : l = pre ++ v :: post) :
    (v :: takeLast l pre.length).Perm l := by
  subst h
  rcases List.eq_nil_or_concat post with rfl | ⟨post, last, rfl⟩
  · rw [takeLast_end]
    exact (List.perm_append_singleton v pre).symm
  · rw [List.concat_eq_append, takeLast_middle]
    refine List.Perm.trans ?_ List.perm_middle.symm
    refine List.Perm.cons v (List.Perm.append_left pre ?_)
    exact (List.perm_append_singleton last post).symm

end

/-- The verb that gets deleted is the first of the name. -/
theorem delVerb_split {api api' : ApiV3} {verb : Bytes} {vcbdata : Nat}
    (h : afbApiV3DelVerb api verb = .ok (api', vcbdata)) :
    ∃ pre v post, api.verbs = pre ++ v :: post ∧ strcasecmp verb v.verb = .eq ∧
      (∀ u ∈ pre, strcasecmp verb u.verb ≠ .eq) ∧ vcbdata = v.vcbdata ∧
      api' = { api with verbs := takeLast api.verbs pre.length } := by
  unfold afbApiV3DelVerb at h
  split at h
  · cases h
  · rename_i i hi
    rw [List.findIdx?_eq_some_iff_getElem] at hi
    obtain ⟨hlt, hsame, hbefore⟩ := hi
    obtain ⟨rfl, rfl⟩ : { api with verbs := takeLast api.verbs i } = api' ∧
        (api.verbs[i]?.map VerbV3.vcbdata).getD 0 = vcbdata := by simpa using h
    refine ⟨api.verbs.take i, api.verbs[i], api.verbs.drop (i + 1), ?_, by simpa using hsame, ?_, ?_, ?_⟩
    · rw [← List.drop_eq_getElem_cons hlt, List.take_append_drop]
    · intro u hu
      obtain ⟨j, hj, rfl⟩ := List.mem_take_iff_getElem.mp hu
      have := hbefore j (by omega)
      simpa using this
    · rw [List.getElem?_eq_getElem hlt]
      rfl
    · rw [List.length_take_of_le (Nat.le_of_lt hlt)]

private theorem distinct_step {api : ApiV3} (h : Distinct api) (op : VerbOp) : Distinct (verbStep api op) := by
  cases op with
  | add verb info callback vcbdata auth session glob mem =>
    rw [verbStep, afbApiV3AddVerb]
    split_ifs
    · exact h
    · constructor
      case nodup =>
        refine List.nodup_append.mpr ⟨h.nodup, List.nodup_singleton _, ?_⟩
        rintro u hu v hv rfl
        have := h.below u hu
        rw [List.mem_singleton.mp hv] at this
        exact Nat.lt_irrefl _ this
      case below =>
        intro u hu
        rcases List.mem_append.mp hu with hu | hu
        · exact Nat.lt_succ_of_lt (h.below u hu)
        · rw [List.mem_singleton.mp hu]
          exact Nat.lt_succ_self _
    · exact h
  | del verb =>
    rw [verbStep]
    split
    · rename_i api' vcbdata hdel
      obtain ⟨pre, v, post, hsplit, -, -, -, rfl⟩ := delVerb_split hdel
      have hperm := takeLast_perm hsplit
      exact ⟨(List.nodup_cons.mp (hperm.nodup_iff.mpr h.nodup)).2,
        fun u hu => h.below u (hperm.mem_iff.mp (List.mem_cons_of_mem v hu))⟩
    · exact h

private theorem distinct_run (verbsv2 : Option (List VerbV2)) (verbsv3 : Option (List VerbV3))
    (ops : List VerbOp) : Distinct (verbRun verbsv2 verbsv3 ops) := by
  have hrun : ∀ api, Distinct api → Distinct (ops.foldl verbStep api) := by
    induction ops with
    | nil => exact fun _ h => h
    | cons op ops ih => exact fun api h => ih _ (distinct_step h op)
  exact hrun _ ⟨List.nodup_nil, by simp⟩

section
variable {fnmatch : Bytes → Bytes → Bool} {api api' : ApiV3} {name : Bytes} {v : VerbV3}

private theorem processCall_dynamic :
    afbApiV3ProcessCall fnmatch api name = .dynamic v ↔
      searchDynamicVerb fnmatch api name = some v := by
  unfold afbApiV3ProcessCall
  cases searchDynamicVerb fnmatch api name with
  | some u => simp
  | none =>
    dsimp only
    split
    · simp
    · split <;> simp

/-- With the same tables, the calls that differ are those that find other dynamic verbs. -/
theorem processCall_ne_iff (h2 : api'.verbsv2 = api.verbsv2) (h3 : api'.verbsv3 = api.verbsv3) :
    afbApiV3ProcessCall fnmatch api' name ≠ afbApiV3ProcessCall fnmatch api name ↔
      searchDynamicVerb fnmatch api' name ≠ searchDynamicVerb fnmatch api name := by
  refine not_congr ⟨fun h => ?_, fun h => ?_⟩
  · refine Option.ext fun v => ?_
    rw [← processCall_dynamic, ← processCall_dynamic, h]
  · unfold afbApiV3ProcessCall
    rw [h, h2, h3]

end

section
variable {p : VerbV3 → Bool} {pre post : List VerbV3} {v last : VerbV3}

/-- Without the last item, that is deleted, only what selected it changes. -/
theorem find_takeLast_end (hn : (pre ++ [v]).Nodup) :
    (takeLast (pre ++ [v]) pre.length).find? p ≠ (pre ++ [v]).find? p ↔
      (pre ++ [v]).find? p = some v := by
  have hv : pre.find? p ≠ some v := fun h =>
    (List.nodup_append.mp hn).2.2 v (List.mem_of_find?_eq_some h) v List.mem_cons_self rfl
  rw [takeLast_end, List.find?_append]
  cases hpre : pre.find? p with
  | some u =>
    rw [hpre] at hv
    simp [hv]
  | none => cases hp : p v <;> simp [hp]

/-- The last item goes before those that were between it and the deleted one. -/
theorem find_takeLast_middle (hn : (pre ++ v :: (post ++ [last])).Nodup) :
    (takeLast (pre ++ v :: (post ++ [last])) pre.length).find? p ≠
        (pre ++ v :: (post ++ [last])).find? p ↔
      (pre ++ v :: (post ++ [last])).find? p = some v ∨
        p last = true ∧ ∃ u ∈ post, (pre ++ v :: (post ++ [last])).find? p = some u := by
  obtain ⟨-, hafter, hpre⟩ := List.nodup_append.mp hn
  obtain ⟨hv, hpost⟩ := List.nodup_cons.mp hafter
  have hlast : last ∉ post := fun h =>
    (List.nodup_append.mp hpost).2.2 last h last List.mem_cons_self rfl
  rw [takeLast_middle, List.find?_append, List.find?_append]
  cases hfound : pre.find? p with
  | some u =>
    -- what is before the deleted item is neither it nor after it
    have hu : ∀ x ∈ v :: (post ++ [last]), u ≠ x := hpre u (List.mem_of_find?_eq_some hfound)
    simp only [Option.some_or, ne_eq, not_true, Option.some.injEq, false_iff, not_or, not_and]
    refine ⟨hu v List.mem_cons_self, ?_⟩
    rintro - ⟨x, hx, rfl⟩
    exact hu u (List.mem_cons_of_mem v (List.mem_append_left _ hx)) rfl
  | none =>
    rw [Option.none_or, Option.none_or, List.find?_cons, List.find?_cons, List.find?_append]
    cases hp : p v with
    | true =>
      refine iff_of_true (fun h => hv ?_) (.inl rfl)
      have hmem := List.mem_of_find?_eq_some ((List.find?_cons ..).trans h)
      rcases List.mem_cons.mp hmem with rfl | hmem
      · exact List.mem_append_right _ List.mem_cons_self
      · exact List.mem_append_left _ hmem
    | false =>
      have hne : (post.find? p).or ([last].find? p) ≠ some v := fun h =>
        hv (List.mem_of_find?_eq_some (List.find?_append.trans h))
      cases hl : p last with
      | false =>
        have hnot : post.find? p ≠ some v := by simpa [hl] using hne
        simp [hl, hnot]
      | true =>
        cases hfind : post.find? p with
        | some u =>
          have hu := List.mem_of_find?_eq_some hfind
          have hul : last ≠ u := by
            rintro rfl
            exact hlast hu
          simp [hul, hu]
        | none =>
          have hvl : last ≠ v := by
            rintro rfl
            exact hv (List.mem_append_right _ List.mem_cons_self)
          simp [hl, hvl, hlast]

/-- What was selected between the deleted item and the last one leaves its place to this one. -/
theorem find_takeLast_last (hn : (pre ++ v :: (post ++ [last])).Nodup) (hp : p last = true)
    {u : VerbV3} (hu : u ∈ post) (h : (pre ++ v :: (post ++ [last])).find? p = some u) :
    (takeLast (pre ++ v :: (post ++ [last])) pre.length).find? p = some last := by
  have hpre : pre.find? p = none := by
    rw [List.find?_append] at h
    cases hfound : pre.find? p with
    | none => rfl
    | some x =>
      rw [hfound, Option.some_or, Option.some.injEq] at h
      subst h
      exact absurd rfl ((List.nodup_append.mp hn).2.2 x (List.mem_of_find?_eq_some hfound) x
        (List.mem_cons_of_mem v (List.mem_append_left _ hu)))
  rw [takeLast_middle, List.find?_append, hpre, Option.none_or, List.find?_cons_of_pos hp]

end

/-- For every api built by additions and deletions over any static tables: deleting a
dynamic verb changes what a name selects exactly if the name selected it, or selected one
after it, that is not the last, while the last one matches the name and is selected then. -/
theorem delVerb_selects_iff (fnmatch : Bytes → Bytes → Bool) (verbsv2 : Option (List VerbV2))
    (verbsv3 : Option (List VerbV3)) (ops : List VerbOp) (verb : Bytes) (api' : ApiV3)
    (vcbdata : Nat)
    (h : afbApiV3DelVerb (verbRun verbsv2 verbsv3 ops) verb = .ok (api', vcbdata)) :
    ∃ pre v post, (verbRun verbsv2 verbsv3 ops).verbs = pre ++ v :: post ∧
      strcasecmp verb v.verb = .eq ∧ vcbdata = v.vcbdata ∧
      ∀ name, afbApiV3ProcessCall fnmatch api' name ≠
          afbApiV3ProcessCall fnmatch (verbRun verbsv2 verbsv3 ops) name ↔
        afbApiV3ProcessCall fnmatch (verbRun verbsv2 verbsv3 ops) name = .dynamic v ∨
        ∃ u ∈ post.dropLast, ∃ last, post.getLast? = some last ∧
          verbNameMatches fnmatch name last = true ∧
          afbApiV3ProcessCall fnmatch (verbRun verbsv2 verbsv3 ops) name = .dynamic u ∧
          afbApiV3ProcessCall fnmatch api' name = .dynamic last := by
  have hdistinct := distinct_run verbsv2 verbsv3 ops
  generalize verbRun verbsv2 verbsv3 ops = api at h hdistinct ⊢
  obtain ⟨pre, v, post, hsplit, hsame, -, hdata, rfl⟩ := delVerb_split h
  refine ⟨pre, v, post, hsplit, hsame, hdata, fun name => ?_⟩
  have hn := hdistinct.nodup
  rw [hsplit] at hn
  refine (processCall_ne_iff ?_ ?_).trans ?_
  · rfl
  · rfl
  simp only [processCall_dynamic, searchDynamicVerb]
  rw [hsplit]
  rcases List.eq_nil_or_concat post with rfl | ⟨post, last, rfl⟩
  · rw [find_takeLast_end hn]
    simp
  · rw [List.concat_eq_append] at hn ⊢
    rw [find_takeLast_middle hn, List.dropLast_concat, List.getLast?_concat]
    refine or_congr_right ⟨?_, ?_⟩
    · rintro ⟨hlast, u, hu, hfind⟩
      exact ⟨u, hu, last, rfl, hlast, hfind, find_takeLast_last hn hlast hu hfind⟩
    · rintro ⟨u, hu, l, hl, hlast, hfind, -⟩
      obtain rfl : last = l := by simpa using hl
      exact ⟨hlast, u, hu, hfind⟩

/-- The patterns with stars and no other special character, for names without slash or period. -/
def starMatches : Bytes → Bytes → Bool
  | [], name => name.isEmpty
  | p :: pattern, name =>
    if p = 42 then name.tails.any (starMatches pattern)
    else
      match name with
      | [] => false
      | c :: name => tolower p = tolower c && starMatches pattern name

/-- The verb x, the pattern a* and the verb ab. -/
def overlapping : List VerbOp :=
  [.add [120] none 0 0 none 0 0 true, .add [97, 42] none 1 1 none 0 1 true,
    .add [97, 98] none 2 2 none 0 0 true]

theorem delVerb_selects_x :
    ∃ pre v post, (verbRun none none overlapping).verbs = pre ++ v :: post ∧
      strcasecmp [120] v.verb = .eq ∧ 0 = v.vcbdata ∧
      ∀ name, afbApiV3ProcessCall starMatches
          (verbRun none none (overlapping ++ [.del [120]])) name ≠
          afbApiV3ProcessCall starMatches (verbRun none none overlapping) name ↔
        afbApiV3ProcessCall starMatches (verbRun none none overlapping) name = .dynamic v ∨
        ∃ u ∈ post.dropLast, ∃ last, post.getLast? = some last ∧
          verbNameMatches starMatches name last = true ∧
          afbApiV3ProcessCall starMatches (verbRun none none overlapping) name = .dynamic u ∧
          afbApiV3ProcessCall starMatches
            (verbRun none none (overlapping ++ [.del [120]])) name = .dynamic last :=
  delVerb_selects_iff starMatches none none overlapping [120] _ 0 (by decide)

/-- Deleting x gives the name ab to the verb ab, that the pattern had before. -/
theorem delVerb_changes_ab : ¬∀ ops verb api' vcbdata,
    afbApiV3DelVerb (verbRun none none ops) verb = .ok (api', vcbdata) →
      ∀ name, afbApiV3ProcessCall starMatches api' name ≠
          afbApiV3ProcessCall starMatches (verbRun none none ops) name →
        ∃ v, afbApiV3ProcessCall starMatches (verbRun none none ops) name = .dynamic v ∧
          strcasecmp verb v.verb = .eq := by
  intro h
  have hdel : afbApiV3DelVerb (verbRun none none overlapping) [120] =
      .ok (verbRun none none (overlapping ++ [.del [120]]), 0) := by decide
  have hbefore : afbApiV3ProcessCall starMatches (verbRun none none overlapping) [97, 98] =
      .dynamic ⟨1, [97, 42], none, 1, 1, none, 0, true⟩ := by decide
  have hafter : afbApiV3ProcessCall starMatches
      (verbRun none none (overlapping ++ [.del [120]])) [97, 98] =
        .dynamic ⟨2, [97, 98], none, 2, 2, none, 0, false⟩ := by decide
  obtain ⟨v, hv, hsame⟩ := h _ _ _ _ hdel [97, 98] (by rw [hbefore, hafter]; decide)
  rw [hbefore, Called.dynamic.injEq] at hv
  subst hv
  exact absurd hsame (by decide)

end AfbBinder.Exports
