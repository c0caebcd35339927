import AfbBinder.Jobs.Sections

/-! The records of jobs are each at one place, whatever is taken away from the queue: what the frames
execute stays in the queue or among what was taken, and no thread takes it a second time. -/
namespace AfbBinder.Jobs

/-- A job comes before another one, that is then blocked and waits if the group is the same. -/
def Before (s : State) (b a : Addr) : Prop :=
  SameGroup s.recs b a → (s.recs a).blocked = true ∧ ∀ t, a ∉ execs s t

def serialOf (s : State) (a : Addr) : Nat := (s.recs a).serial

/-- The jobs taken away from the queue are hidden in a list of jobs to go through, or they are away
with their serial number, that was aborted. -/
structure Core (hidden away : List Addr) (aborted : List Nat) (s : State) : Prop where
  nodup : (s.firstJob ++ hidden ++ (away ++ (s.freeJobs ++ s.mallocs))).Nodup
  alloc : ∀ a ∈ s.firstJob ++ hidden ++ (away ++ (s.freeJobs ++ s.mallocs)), a < s.brk
  execNodup : ∀ t, (execs s t).Nodup
  execThread : ∀ t u a, a ∈ execs s t → a ∈ execs s u → t = u
  execLive : ∀ t, ∀ a ∈ execs s t, a ∈ s.firstJob ++ hidden
  execBlocked : ∀ t, ∀ a ∈ execs s t, (s.recs a).blocked = true
  ordered : s.firstJob.Pairwise (Before s)
  serials : (aborted ++ (s.firstJob ++ hidden).map (serialOf s)).Nodup
  serialsLt : ∀ n ∈ aborted ++ (s.firstJob ++ hidden).map (serialOf s), n < s.serial

section
variable {hidden away : List Addr} {aborted : List Nat} {s u : State} {t : Nat} {a : Addr}

theorem core_init : Core [] [] [] init :=
  ⟨List.nodup_nil, fun _ h => absurd h List.not_mem_nil, fun _ => List.nodup_nil,
    fun _ _ _ h => absurd h List.not_mem_nil, fun _ _ h => absurd h List.not_mem_nil,
    fun _ _ h => absurd h List.not_mem_nil, List.Pairwise.nil, List.nodup_nil,
    fun _ h => absurd h List.not_mem_nil⟩

private theorem Core.not_pool (hi : Core hidden away aborted s) (ha : a ∈ s.firstJob ++ hidden) :
    a ∉ s.freeJobs ++ s.mallocs := by
  intro hpool
  exact (List.nodup_append.mp hi.nodup).2.2 a ha a (List.mem_append_right away hpool) rfl

/-- The records of the jobs, and what is executed, are as they were. -/
theorem Core.frame (hi : Core hidden away aborted s) {away' : List Addr}
    (hrecs : ∀ a ∈ s.firstJob ++ hidden, u.recs a = s.recs a) (hfirst : u.firstJob = s.firstJob)
    (hnodup : (u.firstJob ++ hidden ++ (away' ++ (u.freeJobs ++ u.mallocs))).Nodup)
    (halloc : ∀ a ∈ u.firstJob ++ hidden ++ (away' ++ (u.freeJobs ++ u.mallocs)), a < u.brk)
    (hserial : u.serial = s.serial) (hexecs : execs u = execs s) : Core hidden away' aborted u := by
  have hserials : (u.firstJob ++ hidden).map (serialOf u) = (s.firstJob ++ hidden).map (serialOf s) := by
    rw [hfirst]
    exact List.map_congr_left fun a ha => congrArg Job.serial (hrecs a ha)
  refine ⟨hnodup, halloc, ?_, ?_, ?_, ?_, ?_, ?_, ?_⟩
  · rw [hexecs]
    exact hi.execNodup
  · rw [hexecs]
    exact hi.execThread
  · rw [hexecs, hfirst]
    exact hi.execLive
  · intro t a ha
    rw [hexecs] at ha
    rw [hrecs a (hi.execLive t a ha)]
    exact hi.execBlocked t a ha
  · rw [hfirst]
    refine hi.ordered.imp_of_mem fun {b a} hb ha h hg => ?_
    have hra := hrecs a (List.mem_append_left _ ha)
    have hrb := hrecs b (List.mem_append_left _ hb)
    rw [SameGroup, hra, hrb] at hg
    rw [hra, hexecs]
    exact h hg
  · rw [hserials]
    exact hi.serials
  · rw [hserials, hserial]
    exact hi.serialsLt

/-- Jobs are taken away from the queue, or linked again. -/
theorem Core.sublist (hi : Core hidden away aborted s) {hidden' queue : List Addr} {remains : Int}
    (hsub : (queue ++ hidden').Sublist (s.firstJob ++ hidden))
    (hlive : ∀ t, ∀ a ∈ execs s t, a ∈ s.firstJob ++ hidden → a ∈ queue ++ hidden')
    (hordered : queue.Pairwise (Before s)) :
    Core hidden' away aborted { s with remains, firstJob := queue } where
  nodup := hi.nodup.sublist (hsub.append_right _)
  alloc a ha := hi.alloc a ((hsub.append_right _).subset ha)
  execNodup := hi.execNodup
  execThread := hi.execThread
  execLive t a ha := hlive t a ha (hi.execLive t a ha)
  execBlocked := hi.execBlocked
  ordered := hordered
  serials := hi.serials.sublist ((hsub.map _).append_left _)
  serialsLt n hn := hi.serialsLt n (((hsub.map _).append_left _).subset hn)

/-- A job that no frame executes is aborted. -/
theorem Core.abort (hi : Core (a :: hidden) away aborted s) (ha : ∀ t, a ∉ execs s t) :
    Core hidden (a :: away) (aborted ++ [serialOf s a]) s := by
  have hlist : (s.firstJob ++ a :: hidden).Perm (a :: (s.firstJob ++ hidden)) := List.perm_middle
  have hperm : (s.firstJob ++ a :: hidden ++ (away ++ (s.freeJobs ++ s.mallocs))).Perm
      (s.firstJob ++ hidden ++ (a :: away ++ (s.freeJobs ++ s.mallocs))) :=
    (hlist.append_right _).trans List.perm_middle.symm
  have hserials : (aborted ++ (s.firstJob ++ a :: hidden).map (serialOf s)).Perm
      (aborted ++ [serialOf s a] ++ (s.firstJob ++ hidden).map (serialOf s)) := by
    rw [List.append_assoc]
    exact (hlist.map _).append_left _
  refine ⟨hperm.nodup_iff.mp hi.nodup, fun b hb => hi.alloc b (hperm.mem_iff.mpr hb), hi.execNodup,
    hi.execThread, fun t b hb => ?_, hi.execBlocked, hi.ordered, hserials.nodup_iff.mp hi.serials,
    fun n hn => hi.serialsLt n (hserials.mem_iff.mpr hn)⟩
  rcases List.mem_cons.mp (hlist.mem_iff.mp (hi.execLive t b hb)) with rfl | hlive
  · exact absurd hb (ha t)
  · exact hlive

private theorem core_quiet (hi : Core hidden away aborted s) (h : Quiet s u) :
    Core hidden away aborted u := by
  have hperm : (s.firstJob ++ hidden ++ (away ++ (s.freeJobs ++ s.mallocs))).Perm
      (u.firstJob ++ hidden ++ (away ++ (u.freeJobs ++ u.mallocs))) := by
    rw [h.first]
    exact (h.pool.append_left away).append_left _
  refine hi.frame (fun a ha => h.recs a (hi.not_pool ha)) h.first (hperm.nodup_iff.mp hi.nodup)
    (fun a ha => ?_) h.serial h.executing
  rw [h.brk]
  exact hi.alloc a (hperm.mem_iff.mpr ha)

private theorem core_allocated (hi : Core hidden away aborted s) (h : Allocated s u) :
    Core hidden away aborted u := by
  have hperm : (s.brk :: (s.firstJob ++ hidden ++ (away ++ (s.freeJobs ++ s.mallocs)))).Perm
      (u.firstJob ++ hidden ++ (away ++ (u.freeJobs ++ u.mallocs))) := by
    rw [h.first]
    refine .trans ?_ ((h.pool.append_left away).append_left _)
    exact List.perm_middle.symm.trans (List.perm_middle.symm.append_left _)
  have hnew : s.brk ∉ s.firstJob ++ hidden ++ (away ++ (s.freeJobs ++ s.mallocs)) :=
    fun hm => absurd (hi.alloc _ hm) (Nat.lt_irrefl _)
  refine hi.frame (fun a _ => by rw [h.recs]) h.first
    (hperm.nodup_iff.mp (List.nodup_cons.mpr ⟨hnew, hi.nodup⟩)) (fun a ha => ?_) h.serial h.executing
  rw [h.brk]
  rcases List.mem_cons.mp (hperm.mem_iff.mpr ha) with rfl | hold
  · exact Nat.lt_succ_self _
  · exact Nat.lt_succ_of_lt (hi.alloc a hold)

private theorem core_queued (hi : Core hidden away aborted s) (h : Queued s u a) :
    Core hidden away aborted u := by
  have hpool : a ∈ s.freeJobs ++ s.mallocs := h.pool.mem_iff.mpr List.mem_cons_self
  have hlive : ∀ b ∈ s.firstJob ++ hidden, b ≠ a := fun b hb he => hi.not_pool hb (he ▸ hpool)
  have hnone : ∀ t, a ∉ execs s t := fun t he => hlive a (hi.execLive t a he) rfl
  have hold : ∀ b ∈ s.firstJob ++ hidden, u.recs b = s.recs b := fun b hb => h.recs b (hlive b hb)
  have hperm : (s.firstJob ++ hidden ++ (away ++ (s.freeJobs ++ s.mallocs))).Perm
      (u.firstJob ++ hidden ++ (away ++ (u.freeJobs ++ u.mallocs))) := by
    rw [h.first]
    refine ((h.pool.append_left away).append_left _).trans ?_
    rw [List.append_assoc, List.append_assoc, List.append_assoc s.firstJob [a]]
    refine List.Perm.append_left _ ?_
    rw [← List.append_assoc hidden, ← List.append_assoc hidden away]
    exact List.perm_middle
  have hserials : (aborted ++ (u.firstJob ++ hidden).map (serialOf u)).Perm
      (s.serial :: (aborted ++ (s.firstJob ++ hidden).map (serialOf s))) := by
    have hlist : (u.firstJob ++ hidden).Perm (a :: (s.firstJob ++ hidden)) := by
      rw [h.first, List.append_assoc]
      exact List.perm_middle
    have hmap : (s.firstJob ++ hidden).map (serialOf u) = (s.firstJob ++ hidden).map (serialOf s) :=
      List.map_congr_left fun b hb => congrArg Job.serial (hold b hb)
    refine ((hlist.map _).append_left _).trans ?_
    rw [List.map_cons, hmap, show serialOf u a = s.serial from h.job]
    exact List.perm_middle
  refine ⟨hperm.nodup_iff.mp hi.nodup, fun b hb => ?_, ?_, ?_, ?_, ?_, ?_, ?_, ?_⟩
  · rw [h.brk]
    exact hi.alloc b (hperm.mem_iff.mpr hb)
  · rw [h.executing]
    exact hi.execNodup
  · rw [h.executing]
    exact hi.execThread
  · intro t b hb
    rw [h.executing] at hb
    rw [h.first, List.append_assoc]
    rcases List.mem_append.mp (hi.execLive t b hb) with hq | hh
    · exact List.mem_append_left _ hq
    · exact List.mem_append_right _ (List.mem_append_right _ hh)
  · intro t b hb
    rw [h.executing] at hb
    rw [hold b (hi.execLive t b hb)]
    exact hi.execBlocked t b hb
  · rw [h.first]
    refine List.pairwise_append.mpr ⟨?_, List.pairwise_singleton _ _, fun b hb c hc hg => ?_⟩
    · refine hi.ordered.imp_of_mem fun {b c} hb hc hbc hg => ?_
      have hrc := hold c (List.mem_append_left _ hc)
      rw [SameGroup, hrc, hold b (List.mem_append_left _ hb)] at hg
      rw [hrc, h.executing]
      exact hbc hg
    · cases List.mem_singleton.mp hc
      refine ⟨h.blocked b hb (hlive b (List.mem_append_left _ hb)) hg, ?_⟩
      rw [h.executing]
      exact hnone
  · refine hserials.nodup_iff.mpr (List.nodup_cons.mpr ⟨fun hm => ?_, hi.serials⟩)
    exact absurd (hi.serialsLt _ hm) (Nat.lt_irrefl _)
  · intro n hn
    rw [h.serial]
    rcases List.mem_cons.mp (hserials.mem_iff.mp hn) with rfl | hm
    · exact Nat.lt_succ_self _
    · exact Nat.lt_succ_of_lt (hi.serialsLt n hm)

/-- The mark of a record changes, its group and its serial number do not. -/
structure Marked (s u : State) (b : Addr) : Prop where
  group : (u.recs b).group = (s.recs b).group
  serial : (u.recs b).serial = (s.recs b).serial

private theorem Took.marked (h : Took s u t a) (b : Addr) : Marked s u b := by
  by_cases hb : b = a
  · subst hb
    constructor <;> rw [h.recs, Function.update_self]
  · constructor <;> rw [h.recs, Function.update_of_ne hb]

private theorem map_serial {l : List Addr} (h : ∀ b, Marked s u b) :
    l.map (serialOf u) = l.map (serialOf s) := List.map_congr_left fun b _ => (h b).serial

private theorem sameGroup_marked (h : ∀ b, Marked s u b) (b c : Addr) :
    SameGroup u.recs b c ↔ SameGroup s.recs b c := by
  rw [SameGroup, SameGroup, (h b).group, (h c).group]

private theorem core_took (hi : Core hidden away aborted s) (h : Took s u t a) :
    Core hidden away aborted u := by
  have hnone : ∀ v, a ∉ execs s v := by
    intro v hv
    exact absurd (h.free.symm.trans (hi.execBlocked v a hv)) Bool.false_ne_true
  have hexec : ∀ v b, b ∈ execs u v ↔ (v = t ∧ b = a) ∨ b ∈ execs s v := by
    intro v b
    rw [h.executing]
    by_cases hv : v = t
    · subst hv
      rw [Function.update_self, List.mem_cons, and_iff_right rfl]
    · rw [Function.update_of_ne hv, iff_def]
      exact ⟨.inr, fun hb => hb.resolve_left fun hb => hv hb.1⟩
  have hblocked : ∀ b ≠ a, (u.recs b).blocked = (s.recs b).blocked := by
    intro b hb
    rw [h.recs, Function.update_of_ne hb]
  refine ⟨?_, ?_, fun v => ?_, fun v w b hb hb' => ?_, fun v b hb => ?_, fun v b hb => ?_, ?_, ?_, ?_⟩
  · rw [h.first, h.pool]
    exact hi.nodup
  · rw [h.first, h.pool, h.brk]
    exact hi.alloc
  · rw [h.executing]
    by_cases hv : v = t
    · subst hv
      rw [Function.update_self]
      exact List.nodup_cons.mpr ⟨hnone v, hi.execNodup v⟩
    · rw [Function.update_of_ne hv]
      exact hi.execNodup v
  · rcases (hexec v b).mp hb with hnew | hold <;> rcases (hexec w b).mp hb' with hnew' | hold'
    · exact hnew.1.trans hnew'.1.symm
    · exact absurd (hnew.2 ▸ hold') (hnone w)
    · exact absurd (hnew'.2 ▸ hold) (hnone v)
    · exact hi.execThread v w b hold hold'
  · rw [h.first]
    rcases (hexec v b).mp hb with ⟨-, rfl⟩ | hold
    · exact List.mem_append_left _ h.queued
    · exact hi.execLive v b hold
  · by_cases hba : b = a
    · rw [hba, h.recs, Function.update_self]
    · rw [hblocked b hba]
      exact hi.execBlocked v b (((hexec v b).mp hb).resolve_left fun hb => hba hb.2)
  · rw [h.first]
    refine hi.ordered.imp fun {b c} hbc hg => ?_
    obtain ⟨hmark, hidle⟩ := hbc ((sameGroup_marked h.marked b c).mp hg)
    have hca : c ≠ a := by
      rintro rfl
      exact absurd (h.free.symm.trans hmark) Bool.false_ne_true
    refine ⟨(hblocked c hca).trans hmark, fun v hv => ?_⟩
    exact hidle v (((hexec v c).mp hv).resolve_left fun hv => hca hv.2)
  · rw [h.first, map_serial h.marked]
    exact hi.serials
  · rw [h.first, map_serial h.marked, h.serial]
    exact hi.serialsLt

/-- What holds of the pairs of a list holds of other pairs too, but for those that end in one item. -/
theorem pairwise_except {α : Type*} {R S : α → α → Prop} {l r : List α} {i : α}
    (h : (l ++ i :: r).Pairwise R) (hother : ∀ b c, c ∈ l ++ r → R b c → S b c)
    (hitem : ∀ b ∈ l, S b i) : (l ++ i :: r).Pairwise S := by
  obtain ⟨hl, hr, hcross⟩ := List.pairwise_append.mp h
  obtain ⟨hi, htail⟩ := List.pairwise_cons.mp hr
  refine List.pairwise_append.mpr ⟨?_, List.pairwise_cons.mpr ⟨?_, ?_⟩, ?_⟩
  · exact hl.imp_of_mem fun {b c} _ hc hbc => hother b c (List.mem_append_left _ hc) hbc
  · exact fun c hc => hother i c (List.mem_append_right _ hc) (hi c hc)
  · exact htail.imp_of_mem fun {b c} _ hc hbc => hother b c (List.mem_append_right _ hc) hbc
  · intro b hb c hc
    rcases List.mem_cons.mp hc with rfl | hc
    · exact hitem b hb
    · exact hother b c (List.mem_append_right _ hc) (hcross b hb c (List.mem_cons_of_mem _ hc))

private theorem Released.marked {pre post : List Addr} (h : Released s u t a pre post) (b : Addr) :
    Marked s u b := by
  constructor
  · rw [h.recs, unblock_group]
  · rw [h.recs, unblock_serial]

/-- The jobs left are still in order: the one that is unblocked is the first of its group. -/
theorem ordered_released (hi : Core hidden away aborted s) {pre post : List Addr}
    (h : Released s u t a pre post) (hexec : ∀ v b, b ∈ execs u v → b ∈ execs s v) :
    (pre ++ post).Pairwise (Before u) := by
  have hmark := h.marked
  have hord : (pre ++ a :: post).Pairwise (Before s) := h.queued ▸ hi.ordered
  have hrun : a ∈ execs s t := by
    rw [h.last]
    exact List.mem_cons_self
  obtain ⟨-, hafter, hcross⟩ := List.pairwise_append.mp hord
  have hfirst : ∀ b ∈ pre, ¬SameGroup s.recs b a := fun b hb hg =>
    (hcross b hb a List.mem_cons_self hg).2 t hrun
  have hleft : (pre ++ post).Pairwise (Before s) :=
    hord.sublist ((List.sublist_cons_self a post).append_left pre)
  have hkeep : ∀ b c, u.recs c = s.recs c → Before s b c → Before u b c := by
    intro b c hc hbc hg
    obtain ⟨hblocked, hidle⟩ := hbc ((sameGroup_marked hmark b c).mp hg)
    exact ⟨by rw [hc]; exact hblocked, fun v hv => hidle v (hexec v c hv)⟩
  cases hgroup : (s.recs a).group with
  | none =>
    have hrecs : u.recs = s.recs := by rw [h.recs, hgroup, unblock]
    exact hleft.imp fun {b c} => hkeep b c (by rw [hrecs])
  | some g =>
    cases hfind : post.find? fun i => (s.recs i).group == some g with
    | none =>
      have hrecs : u.recs = s.recs := by simp only [h.recs, hgroup, unblock, hfind]
      exact hleft.imp fun {b c} => hkeep b c (by rw [hrecs])
    | some i =>
      obtain ⟨hig, p, q, hpost, hskip⟩ := List.find?_eq_some_iff_append.mp hfind
      have hrecs : u.recs = Function.update s.recs i { s.recs i with blocked := false } := by
        simp only [h.recs, hgroup, unblock, hfind]
      have hnodup : (pre ++ post).Nodup := by
        have hall := (List.nodup_append.mp (List.nodup_append.mp hi.nodup).1).1
        rw [h.queued] at hall
        exact hall.sublist ((List.sublist_cons_self a post).append_left pre)
      rw [hpost, ← List.append_assoc] at hleft hnodup ⊢
      refine pairwise_except hleft (fun b c hc => hkeep b c ?_) fun b hb hg => ?_
      · have hne : c ≠ i := by
          rintro rfl
          exact (List.nodup_middle.mp hnodup).notMem hc
        rw [hrecs, Function.update_of_ne hne]
      · have hsame : (s.recs b).group = (s.recs i).group := ((sameGroup_marked hmark b i).mp hg).2
        have hi' : (s.recs i).group = some g := beq_iff_eq.mp hig
        rcases List.mem_append.mp hb with hb | hb
        · refine absurd ⟨?_, ?_⟩ (hfirst b hb)
          · rw [hgroup]
            exact Option.some_ne_none g
          · rw [hsame, hi', hgroup]
        · have hno := hskip b hb
          rw [hsame, hi', beq_self_eq_true] at hno
          exact absurd hno (by decide)

/-- The job that is unblocked is executed by no frame. -/
theorem released_blocked (hi : Core hidden away aborted s) {pre post : List Addr}
    (h : Released s u t a pre post) {v : Nat} {b : Addr} (hb : b ∈ execs s v) :
    u.recs b = s.recs b := by
  have hord : (pre ++ a :: post).Pairwise (Before s) := h.queued ▸ hi.ordered
  have hafter := (List.pairwise_cons.mp (List.pairwise_append.mp hord).2.1).1
  rw [h.recs]
  cases hgroup : (s.recs a).group with
  | none => rfl
  | some g =>
    apply unblock_other
    by_contra hpost
    rw [not_or, not_not, not_not] at hpost
    have hsame : SameGroup s.recs a b := ⟨by rw [hpost.2]; exact Option.some_ne_none g, by
      rw [hgroup, hpost.2]⟩
    exact (hafter b hpost.1 hsame).2 v hb

private theorem core_released (hi : Core hidden away aborted s) {pre post : List Addr}
    (h : Released s u t a pre post) : Core hidden away aborted u := by
  have hmark := h.marked
  have hperm : (s.firstJob ++ hidden ++ (away ++ (s.freeJobs ++ s.mallocs))).Perm
      (u.firstJob ++ hidden ++ (away ++ (u.freeJobs ++ u.mallocs))) := by
    rw [h.queued, h.first, h.pool, List.append_assoc pre, List.cons_append, List.append_assoc pre,
      List.cons_append, List.append_assoc pre, List.append_assoc pre]
    refine List.Perm.append_left _ ?_
    rw [← List.append_assoc _ away, ← List.append_assoc _ away]
    exact List.perm_middle.symm
  have hrun : a ∈ execs s t := by
    rw [h.last]
    exact List.mem_cons_self
  have hexec : ∀ v b, b ∈ execs u v → b ∈ execs s v := by
    intro v b hb
    by_cases hv : v = t
    · subst hv
      rw [h.last]
      exact List.mem_cons_of_mem _ hb
    · rwa [h.others v hv] at hb
  have hne : ∀ v b, b ∈ execs u v → b ≠ a := by
    rintro v b hb rfl
    have hv := hi.execThread v t b (hexec v b hb) hrun
    subst hv
    have hnodup := hi.execNodup v
    rw [h.last] at hnodup
    exact (List.nodup_cons.mp hnodup).1 hb
  have hsub : (u.firstJob ++ hidden).Sublist (s.firstJob ++ hidden) := by
    rw [h.queued, h.first]
    exact ((List.sublist_cons_self a post).append_left pre).append_right hidden
  refine ⟨hperm.nodup_iff.mp hi.nodup, fun b hb => ?_, fun v => ?_, fun v w b hb hb' => ?_,
    fun v b hb => ?_, fun v b hb => ?_, ?_, ?_, fun n hn => ?_⟩
  · rw [h.brk]
    exact hi.alloc b (hperm.mem_iff.mpr hb)
  · by_cases hv : v = t
    · subst hv
      have hnodup := hi.execNodup v
      rw [h.last] at hnodup
      exact (List.nodup_cons.mp hnodup).2
    · rw [h.others v hv]
      exact hi.execNodup v
  · exact hi.execThread v w b (hexec v b hb) (hexec w b hb')
  · have hold := hi.execLive v b (hexec v b hb)
    have hba := hne v b hb
    rw [h.queued] at hold
    rw [h.first]
    simpa [hba] using hold
  · rw [released_blocked hi h (hexec v b hb)]
    exact hi.execBlocked v b (hexec v b hb)
  · rw [h.first]
    exact ordered_released hi h hexec
  · rw [map_serial hmark]
    exact hi.serials.sublist ((hsub.map _).append_left _)
  · rw [map_serial hmark] at hn
    rw [h.serial]
    exact hi.serialsLt n (((hsub.map _).append_left _).subset hn)

/-- Every section of the scheduler, whatever is taken away from the queue. -/
theorem core_step {x : Action} (hi : Core hidden away aborted s) (h : step s x = some u) :
    Core hidden away aborted u := by
  cases section_of_step h with
  | quiet hq => exact core_quiet hi hq
  | allocated ha => exact core_allocated hi ha
  | queued a hq => exact core_queued hi hq
  | took t a ht => exact core_took hi ht
  | released t a pre post hr => exact core_released hi hr

/-- The jobs of the queue, and those taken away from it, keep their groups and serial numbers. -/
theorem marked_of_step {x : Action} (hi : Core hidden away aborted s) (h : step s x = some u) :
    ∀ b ∈ s.firstJob ++ hidden, Marked s u b := by
  intro b hb
  cases section_of_step h with
  | quiet hq =>
    have hrec := hq.recs b (hi.not_pool hb)
    exact ⟨by rw [hrec], by rw [hrec]⟩
  | allocated ha => exact ⟨by rw [ha.recs], by rw [ha.recs]⟩
  | queued a hq =>
    have hne : b ≠ a := by
      rintro rfl
      exact hi.not_pool hb (hq.pool.mem_iff.mpr List.mem_cons_self)
    have hrec := hq.recs b hne
    exact ⟨by rw [hrec], by rw [hrec]⟩
  | took t a ht => exact ht.marked b
  | released t a pre post hr => exact hr.marked b

end

end AfbBinder.Jobs
