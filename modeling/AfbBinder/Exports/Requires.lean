import AfbBinder.Lib.Scanf
import AfbBinder.Lib.Words
import AfbBinder.Apiset.StartOrder

/-! Requiring apis by a list of names: before its initialisation an api records what it
requires, for its start later; afterwards what it requires is searched, and started if asked. -/
namespace AfbBinder.Exports
open Lib.Cstrings Lib.Words Apiset
open Lib.Scanf (isspace)

def ENOMEM : Nat := 12

inductive ApiState where
  | preInit
  | init
  | run
  deriving DecidableEq, Repr

/-- The part of an api that require_api_cb reads. -/
structure Requirer where
  state : ApiState
  apiname : Bytes
  declareSet : SetId
  callSet : SetId
  deriving DecidableEq, Repr

structure Live where
  registry : Registry
  progress : Progress

def Live.setErrno (w : Live) (e : Nat) : Live :=
  { w with progress := { w.progress with errno := e } }

/-- The handler of a set for the names that it lacks. It may add apis, sets or classes and
start what it wants, but the sets stay ranked, so that a search along subsets ends. -/
structure LackHandler where
  call : Live → Bytes → Int × Live
  rank : ∀ w name, (call w name).2.registry.rank = w.registry.rank

structure Callbacks where
  onlack : SetId → Option LackHandler
  service : (r : Registry) → DescId → Nat → Answer r.descCount

def withDescs (r : Registry) (descs : DescId → ApiDesc) : Registry :=
  { r with descs := descs }

/-- The allocations are the one of the item and the one of the array. -/
def afbApisetRequire (w : Live) (set : SetId) (name required : Bytes) (mem : Bool) : Int × Live :=
  match w.registry.find set name with
  | none => (-1, w.setErrno ENOENT)
  | some a =>
    if mem then
      let desc := w.registry.descs a
      (0, { w with registry := withDescs w.registry (Function.update w.registry.descs a
        { desc with requireApis := desc.requireApis ++ [⟨set, required⟩] }) })
    else (-1, w.setErrno ENOMEM)

variable (cbs : Callbacks)

/-- The call of the handler and the search that follows when it tells to have added an api. -/
def onlackSearch (w : Live) (set : SetId) (name : Bytes) : Option DescId × Live :=
  match cbs.onlack set with
  | none => (none, w)
  | some handler =>
    let (n, w) := handler.call w name
    (if 0 < n then search w.registry.descs (w.registry.sets set) name else none, w)

private theorem onlackSearch_rank (w : Live) (set : SetId) (name : Bytes) :
    (onlackSearch cbs w set name).2.registry.rank = w.registry.rank := by
  unfold onlackSearch
  split
  · rfl
  · exact LackHandler.rank _ w name

def lookup (w : Live) (set : SetId) (name : Bytes) (recursive : Bool) : Option DescId × Live :=
  match search w.registry.descs (w.registry.sets set) name with
  | some d => (some d, w)
  | none =>
    match _h : onlackSearch cbs w set name with
    | (some d, w') => (some d, w')
    | (none, w') =>
      if recursive then
        match _hs : (w'.registry.sets set).subset with
        | some sub => lookup w' sub name recursive
        | none => (none, w')
      else (none, w')
  termination_by w.registry.rank set
  decreasing_by
    have hrank := onlackSearch_rank cbs w set name
    have hlt := w'.registry.acyclic set sub _hs
    rw [_h] at hrank
    rwa [← hrank]

def afbApisetLookup (w : Live) (set : SetId) (name : Bytes) (recursive : Bool) :
    Option DescId × Live :=
  match lookup cbs w set name recursive with
  | (some d, w) => (some d, w)
  | (none, w) => (none, w.setErrno ENOENT)

/-- None when the recursion of start_api is too deep. -/
def afbApisetLookupStarted (w : Live) (set : SetId) (name : Bytes) (recursive : Bool) :
    Option (Option DescId × Live) :=
  match lookup cbs w set name recursive with
  | (some d, w) =>
    if w.progress.status d = 0 then some (some d, w)
    else (startApi w.registry (cbs.service w.registry) (w.registry.descCount + 1) d
      w.progress).map fun (rc, p) => (if rc = 0 then some d else none, { w with progress := p })
  | (none, w) => some (none, w.setErrno ENOENT)

variable (ex : Requirer) (initialized : Bool)

/-- The search of a required api, for its result as an int. -/
def lookupRequired (word : Bytes) (w : Live) : Option (Int × Live) :=
  (if initialized then afbApisetLookupStarted cbs w ex.callSet word true
    else some (afbApisetLookup cbs w ex.callSet word true)).map fun (d, w) =>
      (if d.isSome then 0 else -1, w)

/-- The loop of require_api_cb; the allocation of the word number n succeeds if mem n. -/
def requireLoop (name : Bytes) (mem : Nat → Bool) (iter : Bytes) (n : Nat) (rc : Int) (w : Live) :
    Option (Int × Live) :=
  match _h : iter.dropWhile isspace with
  | [] => some (rc, w)
  | c :: rest =>
    let word := c :: rest.takeWhile fun c => !isspace c
    (if ex.state = .preInit then
      some (afbApisetRequire w ex.declareSet ex.apiname name (mem n))
    else lookupRequired cbs ex initialized word w).bind fun (rc2, w) =>
      requireLoop name mem (rest.dropWhile fun c => !isspace c) (n + 1)
        (if rc2 < 0 then rc2 else rc) w
  termination_by iter.length
  decreasing_by
    have hskip := (List.dropWhile_sublist isspace (l := iter)).length_le
    have hname := (List.dropWhile_sublist (fun c => !isspace c) (l := rest)).length_le
    rw [_h] at hskip
    exact Nat.lt_of_le_of_lt hname hskip

def requireApiCb (name : Bytes) (mem : Nat → Bool) (w : Live) : Option (Int × Live) :=
  requireLoop cbs ex initialized name mem name 0 0 w

/-- What is done with the word number n, when its dependency gets this name. -/
def asked (required : Bytes → Bytes) (mem : Nat → Bool) (n : Nat) (word : Bytes) (w : Live) :
    Option (Int × Live) :=
  if ex.state = .preInit then
    some (afbApisetRequire w ex.declareSet ex.apiname (required word) (mem n))
  else lookupRequired cbs ex initialized word w

/-- The words are processed once each and in order, with these results. -/
inductive Processed (check : Nat → Bytes → Live → Option (Int × Live)) :
    Nat → List Bytes → Live → List Int → Live → Prop
  | done (n : Nat) (w : Live) : Processed check n [] w [] w
  | word {n : Nat} {word : Bytes} {words : List Bytes} {w v u : Live} {rc : Int} {rcs : List Int}
      (first : check n word w = some (rc, v)) (rest : Processed check (n + 1) words v rcs u) :
      Processed check n (word :: words) w (rc :: rcs) u

/-- One dependency for each word from the number n, but where the allocation fails. -/
def recorded (set : SetId) (mem : Nat → Bool) : Nat → List Bytes → List Depend
  | _, [] => []
  | n, word :: words => (if mem n then [⟨set, word⟩] else []) ++ recorded set mem (n + 1) words

/-- What is expected of require_api. The registry r is any one at a later time. -/
structure RequireRight (name : Bytes) (mem : Nat → Bool) (w : Live) (rc : Int) (v : Live) :
    Prop where
  processed : ∃ rcs, Processed (asked cbs ex initialized id mem) 0 (words isspace name) w rcs v ∧
    (rc < 0 ↔ ∃ c ∈ rcs, c < 0)
  depends : ex.state = .preInit → ∀ a, w.registry.find ex.declareSet ex.apiname = some a →
    (v.registry.descs a).requireApis = (w.registry.descs a).requireApis ++
      recorded ex.declareSet mem 0 (words isspace name)
  starts : ex.state = .preInit → ∀ a, w.registry.find ex.declareSet ex.apiname = some a →
    ∀ (r : Registry) (service : DescId → Nat → Answer r.descCount) (fuel : Nat) (p q : Progress)
      (c : Int), (v.registry.descs a).requireApis ⊆ (r.descs a).requireApis → a < r.descCount →
      r.descCount < fuel → p.status a < 0 → startApi r service fuel a p = some (c, q) → 0 ≤ c →
      ∀ i word, (words isspace name)[i]? = some word → mem i = true →
        ∃ b, r.find ex.declareSet word = some b ∧ q.status b = 0

section
variable {r : Registry} {p q : Progress} {d : DescId}

private theorem ready_setStatus (h : Ready r d p.status) {e : DescId} (he : p.status e ≠ 0)
    (v : Int) : Ready r d (p.setStatus e v).status := by
  have hkeeps : ∀ a, p.status a = 0 → (p.setStatus e v).status a = 0 := by
    intro a ha
    have hae : a ≠ e := by
      rintro rfl
      exact he ha
    rw [p.setStatus_of_ne v hae, ha]
  refine ⟨fun c hc a ha => hkeeps a (h.1 c hc a ha), fun x hx => ?_⟩
  obtain ⟨a, hfind, ha⟩ := h.2 x hx
  exact ⟨a, hfind, hkeeps a ha⟩

/-- An api that these starts have started had what it requires started. -/
private structure Sound (r : Registry) (p : Progress) (stack : List DescId) (q : Progress) :
    Prop where
  marked : ∀ d ∈ stack, q.status d = EBUSY
  ready : ∀ d, q.status d = 0 → p.status d = 0 ∨ Ready r d q.status

private theorem sound_lasting (r : Registry) (p : Progress) : Lasting r (Sound r p) where
  errno _ h := ⟨h.marked, h.ready⟩
  returned h _ := ⟨h.marked, h.ready⟩
  called _ _ _ h _ := ⟨h.marked, h.ready⟩
  marked := by
    intro stack s d h hs
    constructor
    case marked =>
      intro e he
      by_cases hed : e = d
      · rw [hed, Progress.setStatus_self]
      · rw [s.setStatus_of_ne EBUSY hed]
        exact h.marked e ((List.mem_cons.mp he).resolve_left hed)
    case ready =>
      intro e he
      by_cases hed : e = d
      · rw [hed, Progress.setStatus_self] at he
        exact absurd he (by decide)
      · rw [s.setStatus_of_ne EBUSY hed] at he
        exact (h.ready e he).imp_right fun hr => ready_setStatus hr (Int.ne_of_lt hs) EBUSY
  ended := by
    intro stack s t d c v h hs _ ht hv _ hready
    have hbusy := ht.marked d List.mem_cons_self
    have hmark : t.status d ≠ 0 := by
      rw [hbusy]
      decide
    constructor
    case marked =>
      intro e he
      have hed : e ≠ d := by
        rintro rfl
        rw [h.marked e he] at hs
        exact absurd hs (by decide)
      exact (t.setStatus_of_ne v hed).trans (ht.marked e (List.mem_cons_of_mem _ he))
    case ready =>
      intro e he
      by_cases hed : e = d
      · subst hed
        exact .inr (ready_setStatus (hready (by simpa using he)) hmark v)
      · have he' : t.status e = 0 := (t.setStatus_of_ne v hed).symm.trans he
        exact (ht.ready e he').imp_right fun hr => ready_setStatus hr hmark v

/-- A start that succeeds, of an api that was not tried, leaves started what it requires. -/
theorem startApi_ready {service : DescId → Nat → Answer r.descCount} {fuel : Nat} {c : Int}
    (hd : d < r.descCount) (hfuel : r.descCount < fuel) (hp : p.status d < 0)
    (h : startApi r service fuel d p = some (c, q)) (hc : 0 ≤ c) : Ready r d q.status := by
  obtain ⟨c', q', h', hsound, -, hzero⟩ := startApi_meets r (sound_lasting r p) service hfuel d hd
    [] p ⟨by simp, fun _ => .inl⟩ (untried_le r p)
  rw [h, Option.some.injEq, Prod.mk.injEq] at h'
  obtain ⟨rfl, rfl⟩ := h'
  rcases hsound.ready d (hzero hc) with hz | hready
  · omega
  · exact hready

end

private theorem search_names {descs descs' : DescId → ApiDesc}
    (h : ∀ d, (descs' d).name = (descs d).name) (set : ApiSet) (name : Bytes) :
    search descs' set name = search descs set name := by
  unfold search
  simp only [h]

private theorem find_withDescs {r : Registry} {descs : DescId → ApiDesc}
    (h : ∀ d, (descs d).name = (r.descs d).name) (set : SetId) (name : Bytes) :
    (withDescs r descs).find set name = r.find set name := by
  have hrec : ∀ n i, searchrec descs r.sets name n i = searchrec r.descs r.sets name n i := by
    intro n
    induction n with
    | zero => exact fun i => search_names h (r.sets i) name
    | succ n ih =>
      intro i
      rw [searchrec, searchrec, search_names h, funext ih]
  exact hrec (r.rank set) set

section
variable {w v u : Live} {set : SetId} {name required : Bytes} {mem : Bool}

/-- A dependency that is recorded, or nothing. -/
theorem afbApisetRequire_depends {a : DescId} (ha : w.registry.find set name = some a) :
    ((afbApisetRequire w set name required mem).2.registry.descs a).requireApis =
      (w.registry.descs a).requireApis ++ if mem then [⟨set, required⟩] else [] := by
  unfold afbApisetRequire
  rw [ha]
  cases mem with
  | true => simp [withDescs]
  | false => simp [Live.setErrno]

private theorem afbApisetRequire_find (set' : SetId) (name' : Bytes) :
    (afbApisetRequire w set name required mem).2.registry.find set' name' =
      w.registry.find set' name' := by
  unfold afbApisetRequire
  split
  · rfl
  · rename_i a ha
    split
    · refine find_withDescs (fun d => ?_) set' name'
      by_cases hd : d = a
      · rw [hd, Function.update_self]
      · rw [Function.update_of_ne hd]
    · rfl

/-- What is not recorded does not count. -/
theorem afbApisetRequire_lost (h : w.registry.find set name = none ∨ mem = false)
    (required' : Bytes) :
    afbApisetRequire w set name required mem = afbApisetRequire w set name required' mem := by
  unfold afbApisetRequire
  rcases h with h | h
  · rw [h]
  · rw [h]
    simp

end

private theorem onlackSearch_lt {w v : Live} {set : SetId} {name : Bytes} {d : DescId}
    (h : onlackSearch cbs w set name = (some d, v)) : d < v.registry.descCount := by
  unfold onlackSearch at h
  split at h
  · cases h
  · rw [Prod.mk.injEq] at h
    obtain ⟨hfound, rfl⟩ := h
    split at hfound
    · exact search_lt _ hfound
    · cases hfound

/-- What is found is an api of the registry that the handlers leave. -/
theorem lookup_lt {w v : Live} {set : SetId} {name : Bytes} {recursive : Bool} {d : DescId}
    (h : lookup cbs w set name recursive = (some d, v)) : d < v.registry.descCount := by
  fun_induction lookup cbs w set name recursive with
  | case1 w set a ha =>
    obtain ⟨rfl, rfl⟩ : a = d ∧ w = v := by simpa using h
    exact search_lt w.registry ha
  | case2 w set hnone a u hu =>
    obtain ⟨rfl, rfl⟩ : a = d ∧ u = v := by simpa using h
    exact onlackSearch_lt cbs hu
  | case3 w set hnone u hu hrec sub hsub ih => exact ih h
  | case4 => cases h
  | case5 => cases h

/-- Searching ends, with the starts that it asks for. -/
theorem lookupRequired_ends (word : Bytes) (w : Live) :
    ∃ rc v, lookupRequired cbs ex initialized word w = some (rc, v) := by
  have hstarted : ∃ d v, afbApisetLookupStarted cbs w ex.callSet word true = some (d, v) := by
    unfold afbApisetLookupStarted
    split
    case h_1 d v hd =>
      split
      · exact ⟨_, _, rfl⟩
      · have hends : Lasting v.registry fun _ _ => True := by constructor <;> intros <;> trivial
        obtain ⟨rc, p, hp, -⟩ := startApi_meets v.registry hends (cbs.service v.registry)
          (Nat.lt_succ_self _) d (lookup_lt cbs hd) [] v.progress trivial (untried_le _ _)
        rw [hp]
        exact ⟨_, _, rfl⟩
    case h_2 => exact ⟨_, _, rfl⟩
  unfold lookupRequired
  cases initialized with
  | true =>
    obtain ⟨d, v, h⟩ := hstarted
    exact ⟨_, v, by rw [if_pos rfl, h]; rfl⟩
  | false => exact ⟨_, _, rfl⟩

private theorem asked_ends (required : Bytes → Bytes) (mem : Nat → Bool) (n : Nat) (word : Bytes)
    (w : Live) : ∃ rc v, asked cbs ex initialized required mem n word w = some (rc, v) := by
  unfold asked
  split
  · exact ⟨_, _, rfl⟩
  · exact lookupRequired_ends cbs ex initialized word w

/-- The loop, for the words that remain: each of them is required by the name of the whole
list. The result is that of the last failure. -/
theorem requireLoop_processed (name : Bytes) (mem : Nat → Bool) (iter : Bytes) (n : Nat) (rc : Int)
    (w : Live) : ∃ rcs rc' v, requireLoop cbs ex initialized name mem iter n rc w = some (rc', v) ∧
      Processed (asked cbs ex initialized (fun _ => name) mem) n (words isspace iter) w rcs v ∧
      (rc' < 0 ↔ rc < 0 ∨ ∃ c ∈ rcs, c < 0) := by
  fun_induction requireLoop cbs ex initialized name mem iter n rc w with
  | case1 iter n rc w hskip =>
    rw [← words_skip, hskip]
    exact ⟨[], rc, w, rfl, .done n w, by simp⟩
  | case2 iter n rc w c rest hskip word ih =>
    rw [← words_skip, hskip, words_cons rest (stop_of_dropWhile hskip)]
    obtain ⟨rc2, v, hfirst⟩ := asked_ends cbs ex initialized (fun _ => name) mem n word w
    obtain ⟨rcs, rc', u, hloop, hrest, hneg⟩ := ih rc2 v
    refine ⟨rc2 :: rcs, rc', u, ?_, .word hfirst hrest, ?_⟩
    · unfold asked at hfirst
      rw [hfirst]
      exact hloop
    · rw [hneg, List.exists_mem_cons_iff]
      split_ifs with h
      · simp [h]
      · simp [h]

section
variable {set : SetId} {mem : Nat → Bool}

private theorem mem_recorded {words : List Bytes} {n i : Nat} {word : Bytes}
    (h : words[i]? = some word) (hmem : mem (n + i) = true) :
    ⟨set, word⟩ ∈ recorded set mem n words := by
  induction words generalizing n i with
  | nil => cases h
  | cons first words ih =>
    rw [recorded, List.mem_append]
    cases i with
    | zero =>
      obtain rfl : first = word := by simpa using h
      rw [Nat.add_zero] at hmem
      exact .inl (by simp [hmem])
    | succ i => exact .inr (ih h (by rwa [Nat.add_right_comm, Nat.add_assoc]))

/-- The dependencies tell the names, where they were recorded. -/
theorem recorded_eq_iff {words : List Bytes} {n : Nat} {f g : Bytes → Bytes} :
    recorded set mem n (words.map f) = recorded set mem n (words.map g) ↔
      ∀ i word, words[i]? = some word → mem (n + i) = true → f word = g word := by
  induction words generalizing n with
  | nil => simp [recorded]
  | cons first words ih =>
    have hrest : (∀ i word, words[i]? = some word → mem (n + 1 + i) = true → f word = g word) ↔
        ∀ i word, (first :: words)[i + 1]? = some word → mem (n + (i + 1)) = true →
          f word = g word := by
      simp only [List.getElem?_cons_succ, Nat.add_assoc, Nat.add_comm 1]
    have hsplit : (∀ i word, (first :: words)[i]? = some word → mem (n + i) = true →
        f word = g word) ↔ (mem n = true → f first = g first) ∧
          ∀ i word, words[i]? = some word → mem (n + 1 + i) = true → f word = g word := by
      rw [hrest]
      constructor
      · exact fun h => ⟨h 0 first rfl, fun i => h (i + 1)⟩
      · intro h i word hi
        cases i with
        | zero =>
          obtain rfl : first = word := by simpa using hi
          exact h.1
        | succ i => exact h.2 i word hi
    rw [hsplit, ← ih, List.map_cons, List.map_cons, recorded, recorded]
    cases mem n with
    | true => simp
    | false => simp

end

variable {required : Bytes → Bytes} {mem : Nat → Bool} {n : Nat} {ws : List Bytes}
  {w v : Live} {rcs : List Int}

/-- Before the initialisation, what a run over the words records. -/
theorem processed_depends (hstate : ex.state = .preInit)
    (h : Processed (asked cbs ex initialized required mem) n ws w rcs v) {a : DescId}
    (ha : w.registry.find ex.declareSet ex.apiname = some a) :
    (v.registry.descs a).requireApis = (w.registry.descs a).requireApis ++
      recorded ex.declareSet mem n (ws.map required) := by
  induction h with
  | done n w => simp [recorded]
  | @word n word words w v u rc rcs first rest ih =>
    rw [asked, if_pos hstate, Option.some.injEq] at first
    have hv : v = (afbApisetRequire w ex.declareSet ex.apiname (required word) (mem n)).2 := by
      rw [first]
    subst hv
    rw [ih (by rwa [afbApisetRequire_find]), afbApisetRequire_depends ha, List.map_cons, recorded,
      List.append_assoc]

/-- Names that differ only where nothing is recorded give one run. -/
theorem processed_same {required' : Bytes → Bytes}
    (hsame : ex.state = .preInit → (w.registry.find ex.declareSet ex.apiname).isSome →
      ∀ i word, ws[i]? = some word → mem (n + i) = true → required word = required' word)
    (h : Processed (asked cbs ex initialized required mem) n ws w rcs v) :
    Processed (asked cbs ex initialized required' mem) n ws w rcs v := by
  induction h with
  | done n w => exact .done n w
  | @word n word words w v u rc rcs first rest ih =>
    by_cases hstate : ex.state = .preInit
    · rw [asked, if_pos hstate] at first
      have hfind : v.registry.find ex.declareSet ex.apiname =
          w.registry.find ex.declareSet ex.apiname := by
        have hv := congrArg (fun x => x.map fun y => y.2.registry.find ex.declareSet ex.apiname) first
        simp only [Option.map_some, Option.some.injEq, afbApisetRequire_find] at hv
        exact hv.symm
      refine .word ?_ (ih fun hs hsome i word' hi hmem => ?_)
      · rw [asked, if_pos hstate, ← first, Option.some.injEq]
        by_cases hlost : w.registry.find ex.declareSet ex.apiname = none ∨ mem n = false
        · exact afbApisetRequire_lost hlost _
        · rw [not_or] at hlost
          rw [hsame hstate (Option.isSome_iff_ne_none.mpr hlost.1) 0 word rfl (by simpa using hlost.2)]
      · exact hsame hs (by rwa [← hfind]) (i + 1) word' hi (by rwa [← Nat.add_assoc, Nat.add_right_comm])
    · rw [asked, if_neg hstate] at first
      refine .word (by rwa [asked, if_neg hstate]) (ih fun hs => absurd hs hstate)

/-- If it is right then what was recorded has the names of the words. -/
theorem words_of_right {name : Bytes} {rc : Int}
    (hstate : ex.state = .preInit) {a : DescId}
    (ha : w.registry.find ex.declareSet ex.apiname = some a)
    (hrun : Processed (asked cbs ex initialized (fun _ => name) mem) 0 (words isspace name) w rcs v)
    (h : RequireRight cbs ex initialized name mem w rc v) :
    ∀ i word, (words isspace name)[i]? = some word → mem i = true → word = name := by
  have hcode := processed_depends cbs ex initialized hstate hrun ha
  rw [h.depends hstate a ha, List.append_cancel_left_eq] at hcode
  have hnames := recorded_eq_iff.mp ((congrArg _ (List.map_id _)).trans hcode)
  intro i word hi hmem
  exact hnames i word hi (by rwa [Nat.zero_add])

/-- Require_api does what is expected of it for the names that are a single word, and whenever
it records nothing: outside the pre-initialisation, and when the api is not in its set. -/
theorem requireApiCb_right_iff (name : Bytes) (mem : Nat → Bool) (w : Live) :
    ∃ rc v, requireApiCb cbs ex initialized name mem w = some (rc, v) ∧
      (RequireRight cbs ex initialized name mem w rc v ↔
        (ex.state = .preInit → (w.registry.find ex.declareSet ex.apiname).isSome →
          ∀ i word, (words isspace name)[i]? = some word → mem i = true → word = name)) := by
  obtain ⟨rcs, rc, v, hloop, hrun, hneg⟩ :=
    requireLoop_processed cbs ex initialized name mem name 0 0 w
  refine ⟨rc, v, hloop, ⟨fun h hstate hsome => ?_, fun hcond => ?_⟩⟩
  · obtain ⟨a, ha⟩ := Option.isSome_iff_exists.mp hsome
    exact words_of_right cbs ex initialized hstate ha hrun h
  · have hasked : Processed (asked cbs ex initialized id mem) 0 (words isspace name) w rcs v :=
      processed_same cbs ex initialized
        (fun hs hf i word hi hmem => (hcond hs hf i word hi (by rwa [Nat.zero_add] at hmem)).symm) hrun
    have hdepends : ∀ a, ex.state = .preInit → w.registry.find ex.declareSet ex.apiname = some a →
        (v.registry.descs a).requireApis = (w.registry.descs a).requireApis ++
          recorded ex.declareSet mem 0 (words isspace name) := by
      intro a hs ha
      have := processed_depends cbs ex initialized hs hasked ha
      rwa [List.map_id] at this
    refine ⟨⟨rcs, hasked, by simpa using hneg⟩, fun hs a ha => hdepends a hs ha, ?_⟩
    intro hs a ha r service fuel p q c hsub hlt hfuel hp hstart hc i word hi hmem
    have hready := startApi_ready hlt hfuel hp hstart hc
    refine hready.2 ⟨ex.declareSet, word⟩ (hsub ?_)
    rw [hdepends a hs ha]
    exact List.mem_append_right _ (mem_recorded hi (by rwa [Nat.zero_add]))

/-- The api x alone in the set 0. -/
def loneRegistry : Registry where
  sets _ := ⟨[0], [], none⟩
  descs _ := ⟨[120], false, [], []⟩
  status _ := -1
  classes _ := ⟨[], []⟩
  allApis := [0]
  allClasses := []
  setCount := 1
  descCount := 1
  classCount := 0
  rank set := set
  acyclic := by simp
  apisLt := by simp
  aliasesLt := by simp
  providersLt := by simp

/-- Before its initialisation the api x requires the apis a and b by the text "a b". -/
theorem requireApiCb_two_words : ∃ rc v,
    requireApiCb ⟨fun _ => none, fun _ _ _ => ⟨[], 0, 0⟩⟩ ⟨.preInit, [120], 0, 0⟩ true [97, 32, 98]
      (fun _ => true) ⟨loneRegistry, Progress.init⟩ = some (rc, v) ∧
    ¬RequireRight ⟨fun _ => none, fun _ _ _ => ⟨[], 0, 0⟩⟩ ⟨.preInit, [120], 0, 0⟩ true
      [97, 32, 98] (fun _ => true) ⟨loneRegistry, Progress.init⟩ rc v := by
  obtain ⟨rcs, rc, v, hloop, hrun, -⟩ := requireLoop_processed
    ⟨fun _ => none, fun _ _ _ => ⟨[], 0, 0⟩⟩ ⟨.preInit, [120], 0, 0⟩ true [97, 32, 98]
    (fun _ => true) [97, 32, 98] 0 0 ⟨loneRegistry, Progress.init⟩
  refine ⟨rc, v, hloop, fun h => ?_⟩
  have hword := words_of_right _ ⟨.preInit, [120], 0, 0⟩ true rfl
    (show loneRegistry.find 0 [120] = some 0 by decide) hrun h 0 [97] (by decide) rfl
  exact absurd hword (by decide)

end AfbBinder.Exports
