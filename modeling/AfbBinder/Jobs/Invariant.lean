import Mathlib.Data.List.Range
import Mathlib.Data.List.Perm.Basic
import AfbBinder.Lib.Lists
import AfbBinder.Jobs.Model

/-! The queue invariant and its preservation by every section of the scheduler. -/
namespace AfbBinder.Jobs
open Lib.Runs Lib.Lists

def queues (h : List Event) : List Nat :=
  h.filterMap fun | .queued n _ => some n | _ => none

def starts (h : List Event) : List Nat :=
  h.filterMap fun | .started n _ => some n | _ => none

def finishes (h : List Event) : List Nat :=
  h.filterMap fun | .finished n => some n | _ => none

def queuesOf (g : Nat) (h : List Event) : List Nat :=
  h.filterMap fun | .queued n k => if k = some g then some n else none | _ => none

def startsOf (g : Nat) (h : List Event) : List Nat :=
  h.filterMap fun | .started n k => if k = some g then some n else none | _ => none

section
variable (h : List Event) (n g : Nat) (k : Option Nat)

@[simp] theorem queues_queued : queues (h ++ [.queued n k]) = queues h ++ [n] := by simp [queues]
@[simp] theorem queues_started : queues (h ++ [.started n k]) = queues h := by simp [queues]
@[simp] theorem queues_finished : queues (h ++ [.finished n]) = queues h := by simp [queues]
@[simp] theorem starts_queued : starts (h ++ [.queued n k]) = starts h := by simp [starts]
@[simp] theorem starts_started : starts (h ++ [.started n k]) = starts h ++ [n] := by simp [starts]
@[simp] theorem starts_finished : starts (h ++ [.finished n]) = starts h := by simp [starts]
@[simp] theorem finishes_queued : finishes (h ++ [.queued n k]) = finishes h := by simp [finishes]
@[simp] theorem finishes_started : finishes (h ++ [.started n k]) = finishes h := by simp [finishes]
@[simp] theorem finishes_finished : finishes (h ++ [.finished n]) = finishes h ++ [n] := by
  simp [finishes]
@[simp] theorem queuesOf_queued :
    queuesOf g (h ++ [.queued n k]) = queuesOf g h ++ if k = some g then [n] else [] := by
  by_cases hk : k = some g <;> simp [queuesOf, hk]
@[simp] theorem queuesOf_started : queuesOf g (h ++ [.started n k]) = queuesOf g h := by
  simp [queuesOf]
@[simp] theorem queuesOf_finished : queuesOf g (h ++ [.finished n]) = queuesOf g h := by
  simp [queuesOf]
@[simp] theorem startsOf_queued : startsOf g (h ++ [.queued n k]) = startsOf g h := by
  simp [startsOf]
@[simp] theorem startsOf_started :
    startsOf g (h ++ [.started n k]) = startsOf g h ++ if k = some g then [n] else [] := by
  by_cases hk : k = some g <;> simp [startsOf, hk]
@[simp] theorem startsOf_finished : startsOf g (h ++ [.finished n]) = startsOf g h := by
  simp [startsOf]
end

/-- Two records carry the same group, and it is not NULL. -/
def SameGroup (recs : Addr → Job) (b a : Addr) : Prop :=
  (recs a).group ≠ none ∧ (recs b).group = (recs a).group

/-- The job was started and is not released yet, or was released. -/
def Started (s : State) (a : Addr) : Prop := (s.recs a).serial ∈ starts s.history

instance (s : State) (a : Addr) : Decidable (Started s a) := by
  unfold Started; infer_instance

/-- Serial numbers of the waiting jobs of a group among the given ones, in order. -/
def waitingOf (s : State) (g : Nat) (l : List Addr) : List Nat :=
  (l.filter fun a => (s.recs a).group = some g ∧ ¬ Started s a).map fun a => (s.recs a).serial

def serials (s : State) : List Nat := s.firstJob.map fun a => (s.recs a).serial

/-- Exclusion rests on the blocked mark: in the queue it is set exactly on the jobs
that are started and on those that have an earlier job of their group. -/
structure Inv (s : State) : Prop where
  nodup : (s.firstJob ++ (s.freeJobs ++ s.mallocs)).Nodup
  alloc : ∀ a ∈ s.firstJob ++ (s.freeJobs ++ s.mallocs), a < s.brk
  execNodup : ∀ t, (execs s t).Nodup
  execThread : ∀ t u a, a ∈ execs s t → a ∈ execs s u → t = u
  execIff : ∀ a, (∃ t, a ∈ execs s t) ↔ a ∈ s.firstJob ∧ Started s a
  blockedIff : ∀ pre a post, s.firstJob = pre ++ a :: post →
    ((s.recs a).blocked = true ↔ Started s a ∨ ∃ b ∈ pre, SameGroup s.recs b a)
  startedFirst : ∀ pre a post, s.firstJob = pre ++ a :: post → Started s a →
    ∀ b ∈ pre, ¬ SameGroup s.recs b a
  serialsNodup : (serials s).Nodup
  queuedAll : queues s.history = List.range s.serial
  startsNodup : (starts s.history).Nodup
  startsLt : ∀ n ∈ starts s.history, n < s.serial
  live : ∀ n, n < s.serial ↔ n ∈ finishes s.history ∨ n ∈ serials s
  gone : ∀ n ∈ finishes s.history, n ∈ starts s.history ∧ n ∉ serials s
  order : ∀ g, queuesOf g s.history = startsOf g s.history ++ waitingOf s g s.firstJob

theorem inv_init : Inv init := by
  constructor <;> simp [init, execs, serials, starts, finishes, queues, queuesOf, startsOf, waitingOf]

private theorem waitingOf_append (s : State) (g : Nat) (l m : List Addr) :
    waitingOf s g (l ++ m) = waitingOf s g l ++ waitingOf s g m := by
  simp [waitingOf]

private theorem waitingOf_cons (s : State) (g : Nat) (a : Addr) (l : List Addr) :
    waitingOf s g (a :: l) =
      (if (s.recs a).group = some g ∧ ¬ Started s a then [(s.recs a).serial] else []) ++
        waitingOf s g l := by
  by_cases h : (s.recs a).group = some g ∧ ¬ Started s a <;> simp [waitingOf, h]

private theorem waitingOf_congr {s u : State} {l : List Addr} (g : Nat)
    (h : ∀ a ∈ l, (u.recs a).group = (s.recs a).group ∧ (u.recs a).serial = (s.recs a).serial ∧
      (Started u a ↔ Started s a)) : waitingOf u g l = waitingOf s g l := by
  induction l with
  | nil => rfl
  | cons a l ih =>
    obtain ⟨hg, hs, hst⟩ := h a (by simp)
    rw [waitingOf_cons, waitingOf_cons, ih fun b hb => h b (by simp [hb])]
    simp only [hg, hs, hst]

/-- The invariant reads the records of the queue, the history and the running jobs;
the other records need only be distinct and allocated. -/
theorem Inv.frame {s u : State} (hi : Inv s)
    (hnd : (u.firstJob ++ (u.freeJobs ++ u.mallocs)).Nodup)
    (hal : ∀ a ∈ u.firstJob ++ (u.freeJobs ++ u.mallocs), a < u.brk)
    (hr : ∀ a ∈ s.firstJob, u.recs a = s.recs a) (hf : u.firstJob = s.firstJob)
    (hs : u.serial = s.serial) (hh : u.history = s.history) (he : execs u = execs s) : Inv u := by
  have hst : ∀ a ∈ s.firstJob, (Started u a ↔ Started s a) := fun a ha => by
    simp only [Started, hr a ha, hh]
  have hser : serials u = serials s := by
    simp only [serials, hf]
    exact List.map_congr_left fun a ha => by rw [hr a ha]
  have hsame : ∀ a ∈ s.firstJob, ∀ b ∈ s.firstJob,
      (SameGroup u.recs b a ↔ SameGroup s.recs b a) := fun a ha b hb => by
    simp only [SameGroup, hr a ha, hr b hb]
  constructor
  case nodup => exact hnd
  case alloc => exact hal
  case execNodup => simpa only [he] using hi.execNodup
  case execThread => simpa only [he] using hi.execThread
  case execIff =>
    intro a
    rw [he, hi.execIff a, hf]
    exact and_congr_right fun ha => (hst a ha).symm
  case blockedIff =>
    intro pre a post hq
    rw [hf] at hq
    have ha : a ∈ s.firstJob := by simp [hq]
    rw [hr a ha, hst a ha, hi.blockedIff pre a post hq]
    exact or_congr_right (exists_congr fun b => and_congr_right fun hb =>
      (hsame a ha b (by simp [hq, hb])).symm)
  case startedFirst =>
    intro pre a post hq hs b hb
    rw [hf] at hq
    have ha : a ∈ s.firstJob := by simp [hq]
    rw [hsame a ha b (by simp [hq, hb])]
    exact hi.startedFirst pre a post hq ((hst a ha).mp hs) b hb
  case serialsNodup => rw [hser]; exact hi.serialsNodup
  case queuedAll => rw [hh, hs, hi.queuedAll]
  case startsNodup => rw [hh]; exact hi.startsNodup
  case startsLt => rw [hh, hs]; exact hi.startsLt
  case live => rw [hh, hs, hser]; exact hi.live
  case gone => rw [hh, hser]; exact hi.gone
  case order =>
    intro g
    rw [hh, hf, hi.order g]
    exact congrArg _ (waitingOf_congr g fun a ha => ⟨by rw [hr a ha], by rw [hr a ha], hst a ha⟩).symm

private theorem Inv.congr {s u : State} (hi : Inv s) (hr : u.recs = s.recs)
    (hf : u.firstJob = s.firstJob) (ha : u.freeJobs = s.freeJobs) (hm : u.mallocs = s.mallocs)
    (hb : u.brk = s.brk) (hs : u.serial = s.serial) (hh : u.history = s.history)
    (he : execs u = execs s) : Inv u :=
  hi.frame (by rw [hf, ha, hm]; exact hi.nodup) (by rw [hf, ha, hm, hb]; exact hi.alloc)
    (fun a _ => by rw [hr]) hf hs hh he

theorem jobCreate_spec {s u : State} {fresh g timeout callback a}
    (h : jobCreate s fresh g timeout callback = some (a, u)) :
    ∃ free mal, u = { s with
        freeJobs := free, mallocs := mal
        recs := Function.update s.recs a ⟨g, timeout, callback, false, s.serial⟩ } ∧
      (s.freeJobs ++ s.mallocs).Perm (a :: (free ++ mal)) := by
  unfold jobCreate at h
  split at h
  · cases h
  · rename_i b rest he
    cases h
    exact ⟨rest, s.mallocs, rfl, by rw [he]; exact .refl _⟩
  · rename_i b
    split at h
    · rename_i hm
      cases h
      refine ⟨s.freeJobs, s.mallocs.erase a, rfl, ?_⟩
      exact ((List.perm_cons_erase hm).append_left _).trans List.perm_middle
    · cases h

/-- A created record joins the end of the queue, blocked by its group. -/
theorem inv_enqueue {s u : State} (hi : Inv s) {a : Addr}
    (hfirst : u.firstJob = s.firstJob ++ [a])
    (hperm : (s.freeJobs ++ s.mallocs).Perm (a :: (u.freeJobs ++ u.mallocs)))
    (hbrk : u.brk = s.brk) (hold : ∀ b ∈ s.firstJob, u.recs b = s.recs b)
    (hnew : (u.recs a).serial = s.serial)
    (hblk : (u.recs a).blocked = true ↔ ∃ b ∈ s.firstJob, SameGroup u.recs b a)
    (hserial : u.serial = s.serial + 1)
    (hhist : u.history = s.history ++ [.queued s.serial (u.recs a).group])
    (hexec : execs u = execs s) : Inv u := by
  have hall : (s.firstJob ++ (s.freeJobs ++ s.mallocs)).Perm
      (u.firstJob ++ (u.freeJobs ++ u.mallocs)) := by
    rw [hfirst]
    simpa using hperm.append_left s.firstJob
  have hnd := hall.nodup_iff.mp hi.nodup
  have ha : a ∉ s.firstJob := by
    rw [hfirst] at hnd
    intro hm
    exact (List.nodup_append.mp (List.nodup_append.mp hnd).1).2.2 a hm a (by simp) rfl
  have hstart : ∀ b ∈ s.firstJob, (Started u b ↔ Started s b) := by
    intro b hm
    simp only [Started, hold b hm, hhist, starts_queued]
  have hfresh : ¬ Started u a := by
    intro h
    simp only [Started, hnew, hhist, starts_queued] at h
    exact absurd (hi.startsLt _ h) (by omega)
  have hser : serials u = serials s ++ [s.serial] := by
    simp only [serials, hfirst, List.map_append, List.map_cons, List.map_nil, hnew]
    rw [List.map_congr_left (fun b hb => by rw [hold b hb])]
  have hlt : ∀ n ∈ serials s, n < s.serial := fun n hn => (hi.live n).mpr (.inr hn)
  constructor
  case nodup => exact hnd
  case alloc =>
    intro b hb
    rw [hbrk]
    exact hi.alloc b (hall.mem_iff.mpr hb)
  case execNodup => simpa only [hexec] using hi.execNodup
  case execThread => simpa only [hexec] using hi.execThread
  case execIff =>
    intro b
    rw [hexec, hi.execIff b, hfirst]
    constructor
    · rintro ⟨hm, hs⟩
      exact ⟨by simp [hm], (hstart b hm).mpr hs⟩
    · rintro ⟨hm, hs⟩
      rcases List.mem_append.mp hm with hm | hm
      · exact ⟨hm, (hstart b hm).mp hs⟩
      · exact absurd (List.mem_singleton.mp hm ▸ hs) hfresh
  case blockedIff =>
    intro pre b post he
    rw [hfirst] at he
    rcases split_snoc he with ⟨_, rfl, rfl⟩ | ⟨post', _, he'⟩
    · simp [hblk, hfresh]
    · have hpre : ∀ c ∈ pre, c ∈ s.firstJob := fun c hc => by simp [he', hc]
      have hb : b ∈ s.firstJob := by simp [he']
      rw [hstart b hb, hold b hb, hi.blockedIff pre b post' he']
      refine or_congr_right (exists_congr fun c => and_congr_right fun hc => ?_)
      simp only [SameGroup, hold b hb, hold c (hpre c hc)]
  case startedFirst =>
    intro pre b post he hs c hc
    rw [hfirst] at he
    rcases split_snoc he with ⟨_, rfl, rfl⟩ | ⟨post', _, he'⟩
    · exact absurd hs hfresh
    · have hb : b ∈ s.firstJob := by simp [he']
      have hcm : c ∈ s.firstJob := by simp [he', hc]
      simpa only [SameGroup, hold b hb, hold c hcm] using
        hi.startedFirst pre b post' he' ((hstart b hb).mp hs) c hc
  case serialsNodup =>
    rw [hser]
    exact List.nodup_append.mpr ⟨hi.serialsNodup, by simp, fun n hn m hm => by
      have := hlt n hn
      simp only [List.mem_singleton] at hm
      omega⟩
  case queuedAll => rw [hhist, queues_queued, hi.queuedAll, hserial, List.range_succ]
  case startsNodup => simpa only [hhist, starts_queued] using hi.startsNodup
  case startsLt =>
    intro n hn
    rw [hhist, starts_queued] at hn
    have := hi.startsLt n hn
    omega
  case live =>
    intro n
    rw [hser, hhist, finishes_queued, hserial, List.mem_append, List.mem_singleton, ← or_assoc,
      ← hi.live n]
    omega
  case gone =>
    intro n hn
    rw [hhist, finishes_queued] at hn
    obtain ⟨hs, hg⟩ := hi.gone n hn
    refine ⟨by rwa [hhist, starts_queued], ?_⟩
    have := hi.startsLt n hs
    simp only [hser, List.mem_append, List.mem_singleton, not_or]
    exact ⟨hg, by omega⟩
  case order =>
    intro g
    rw [hhist, queuesOf_queued, startsOf_queued, hi.order g, List.append_assoc]
    rw [hfirst, waitingOf_append, waitingOf_cons, waitingOf_congr (s := s) g fun b hb =>
      ⟨by rw [hold b hb], by rw [hold b hb], hstart b hb⟩]
    simp [hfresh, hnew, waitingOf]

private theorem serial_inj {s : State} (hi : Inv s) {a b : Addr} (ha : a ∈ s.firstJob)
    (hb : b ∈ s.firstJob) (h : (s.recs a).serial = (s.recs b).serial) : a = b :=
  List.inj_on_of_nodup_map hi.serialsNodup ha hb h

/-- The first unblocked job starts: nothing of its group is ahead of it. -/
theorem inv_start {s u : State} (hi : Inv s) {t : Nat} {a : Addr} {pre post : List Addr}
    (he : s.firstJob = pre ++ a :: post) (hb : (s.recs a).blocked = false)
    (hfirst : u.firstJob = s.firstJob) (hfree : u.freeJobs = s.freeJobs)
    (hmal : u.mallocs = s.mallocs) (hbrk : u.brk = s.brk)
    (hrecs : u.recs = Function.update s.recs a { s.recs a with blocked := true })
    (hserial : u.serial = s.serial)
    (hhist : u.history = s.history ++ [.started (s.recs a).serial (s.recs a).group])
    (hexec : execs u = Function.update (execs s) t (a :: execs s t)) : Inv u := by
  have ha : a ∈ s.firstJob := by simp [he]
  obtain ⟨hns, hnone⟩ : ¬ Started s a ∧ ¬ ∃ b ∈ pre, SameGroup s.recs b a := by
    have := hi.blockedIff pre a post he
    rw [hb] at this
    exact not_or.mp (this.not.mp Bool.false_ne_true)
  have hgroup : ∀ b, (u.recs b).group = (s.recs b).group := by
    intro b
    by_cases hba : b = a <;> simp [hrecs, hba, Function.update_of_ne]
  have hser : ∀ b, (u.recs b).serial = (s.recs b).serial := by
    intro b
    by_cases hba : b = a <;> simp [hrecs, hba, Function.update_of_ne]
  have hsame : ∀ b c, SameGroup u.recs b c ↔ SameGroup s.recs b c := by
    intro b c
    simp only [SameGroup, hgroup]
  have hstart : ∀ b ∈ s.firstJob, (Started u b ↔ Started s b ∨ b = a) := by
    intro b hm
    simp only [Started, hser, hhist, starts_started, List.mem_append, List.mem_singleton]
    exact or_congr_right ⟨serial_inj hi hm ha, fun h => by rw [h]⟩
  have hserials : serials u = serials s := by simp only [serials, hfirst, hser]
  have hnd : s.firstJob.Nodup := (List.nodup_append.mp hi.nodup).1
  have hidle : ∀ x, a ∉ execs s x := fun x hx => hns ((hi.execIff a).mp ⟨x, hx⟩).2
  have hexecs : ∀ x b, b ∈ execs u x ↔ x = t ∧ b = a ∨ b ∈ execs s x := by
    intro x b
    rw [hexec]
    by_cases hx : x = t
    · subst hx
      simp
    · simp [hx]
  constructor
  case nodup => simpa only [hfirst, hfree, hmal] using hi.nodup
  case alloc => simpa only [hfirst, hfree, hmal, hbrk] using hi.alloc
  case execNodup =>
    intro x
    rw [hexec]
    by_cases hx : x = t
    · subst hx
      rw [Function.update_self, List.nodup_cons]
      exact ⟨hidle x, hi.execNodup x⟩
    · rw [Function.update_of_ne hx]
      exact hi.execNodup x
  case execThread =>
    intro x y b hx hy
    rcases (hexecs x b).mp hx with ⟨rfl, rfl⟩ | hx <;>
      rcases (hexecs y b).mp hy with ⟨hyt, hya⟩ | hy
    · exact hyt.symm
    · exact absurd hy (hidle y)
    · exact absurd (hya ▸ hx) (hidle x)
    · exact hi.execThread x y b hx hy
  case execIff =>
    intro b
    have hmem : (∃ x, b ∈ execs u x) ↔ b = a ∨ ∃ x, b ∈ execs s x := by
      simp only [hexecs, exists_or, exists_eq_left]
    rw [hmem, hi.execIff b, hfirst]
    constructor
    · rintro (rfl | ⟨hm, hs⟩)
      · exact ⟨ha, (hstart b ha).mpr (.inr rfl)⟩
      · exact ⟨hm, (hstart b hm).mpr (.inl hs)⟩
    · rintro ⟨hm, hs⟩
      exact ((hstart b hm).mp hs).elim (fun h => .inr ⟨hm, h⟩) .inl
  case blockedIff =>
    intro p b q hq
    rw [hfirst] at hq
    have hm : b ∈ s.firstJob := by simp [hq]
    rw [hstart b hm]
    simp only [hsame]
    by_cases hba : b = a
    · simp [hrecs, hba]
    · rw [hrecs, Function.update_of_ne hba, hi.blockedIff p b q hq]
      simp [hba]
  case startedFirst =>
    intro p b q hq hs c hc
    rw [hfirst] at hq
    rw [hsame]
    rcases (hstart b (by simp [hq])).mp hs with hs | rfl
    · exact hi.startedFirst p b q hq hs c hc
    · have hp : pre = p := (split_unique (he ▸ hnd) (he ▸ hq)).1
      exact fun h => hnone ⟨c, hp.symm ▸ hc, h⟩
  case serialsNodup => rw [hserials]; exact hi.serialsNodup
  case queuedAll => rw [hhist, queues_started, hserial, hi.queuedAll]
  case startsNodup =>
    rw [hhist, starts_started]
    exact List.nodup_append.mpr ⟨hi.startsNodup, by simp, fun n hn m hm => by
      rw [List.mem_singleton.mp hm]
      rintro rfl
      exact hns hn⟩
  case startsLt =>
    intro n hn
    rw [hhist, starts_started, List.mem_append, List.mem_singleton] at hn
    rw [hserial]
    rcases hn with hn | rfl
    · exact hi.startsLt n hn
    · exact (hi.live _).mpr (.inr (List.mem_map_of_mem ha))
  case live => simpa only [hserial, hhist, finishes_started, hserials] using hi.live
  case gone =>
    intro n hn
    rw [hhist, finishes_started] at hn
    rw [hhist, starts_started, hserials]
    exact ⟨by simp [(hi.gone n hn).1], (hi.gone n hn).2⟩
  case order =>
    intro g
    rw [hhist, queuesOf_started, startsOf_started, hi.order g, hfirst, List.append_assoc]
    congr 1
    have hcongr : ∀ l, (∀ b ∈ l, b ∈ pre ++ post) → waitingOf u g l = waitingOf s g l := by
      intro l hl
      refine waitingOf_congr g fun b hb => ⟨hgroup b, hser b, ?_⟩
      have hm : b ∈ s.firstJob := by
        rw [he]
        have := hl b hb
        simp only [List.mem_append, List.mem_cons] at this ⊢
        tauto
      rw [hstart b hm]
      simp [ne_of_split (he ▸ hnd) (hl b hb)]
    have hsu : Started u a := (hstart a ha).mpr (.inr rfl)
    rw [he, waitingOf_append, waitingOf_append, waitingOf_cons, waitingOf_cons,
      hcongr pre (fun b hb => by simp [hb]), hcongr post (fun b hb => by simp [hb])]
    by_cases hg : (s.recs a).group = some g
    · -- no earlier job of the group, so the job is the first one that waits
      have hempty : waitingOf s g pre = [] := by
        rw [waitingOf, List.map_eq_nil_iff, List.filter_eq_nil_iff]
        intro b hb
        simp only [decide_eq_true_eq, not_and]
        intro hbg
        exact absurd ⟨b, hb, by simp [hg], by rw [hbg, hg]⟩ hnone
      simp [hempty, hg, hns, hsu]
    · simp [hg, hgroup]

/-- Releasing a job changes at most the mark of one later job of its group. -/
theorem unblock_cases (recs : Addr → Job) (g : Option Nat) (after : List Addr) :
    unblock recs g after = recs ∨ ∃ i ∈ after, (recs i).group = g ∧
      unblock recs g after = Function.update recs i { recs i with blocked := false } := by
  cases g with
  | none => exact .inl rfl
  | some k =>
    cases hf : after.find? fun i => (recs i).group == some k with
    | none => exact .inl (by simp [unblock, hf])
    | some i =>
      exact .inr ⟨i, List.mem_of_find?_eq_some hf, by simpa using List.find?_some hf,
        by simp [unblock, hf]⟩

theorem unblock_group (recs : Addr → Job) (g : Option Nat) (after : List Addr) (b : Addr) :
    (unblock recs g after b).group = (recs b).group := by
  rcases unblock_cases recs g after with h | ⟨i, _, _, h⟩
  · rw [h]
  · by_cases hb : b = i <;> simp [h, hb, Function.update_of_ne]

theorem unblock_serial (recs : Addr → Job) (g : Option Nat) (after : List Addr) (b : Addr) :
    (unblock recs g after b).serial = (recs b).serial := by
  rcases unblock_cases recs g after with h | ⟨i, _, _, h⟩
  · rw [h]
  · by_cases hb : b = i <;> simp [h, hb, Function.update_of_ne]

theorem unblock_other {recs : Addr → Job} {g : Option Nat} {after : List Addr} {b : Addr}
    (hb : b ∉ after ∨ (recs b).group ≠ g) : unblock recs g after b = recs b := by
  rcases unblock_cases recs g after with h | ⟨i, hm, hg, h⟩
  · rw [h]
  · rw [h]
    apply Function.update_of_ne
    rintro rfl
    exact hb.elim (· hm) (· hg)

/-- Among the later jobs of the group the first loses its mark and the others keep it. -/
theorem unblock_blocked {recs : Addr → Job} {k : Nat} {p q : List Addr} {b : Addr}
    (hn : (p ++ b :: q).Nodup) (hb : (recs b).group = some k) (hm : (recs b).blocked = true) :
    (unblock recs (some k) (p ++ b :: q) b).blocked = true ↔
      ∃ c ∈ p, (recs c).group = some k := by
  cases hp : p.find? fun i => (recs i).group == some k with
  | none =>
    have hnone : ¬ ∃ c ∈ p, (recs c).group = some k := by
      simpa using List.find?_eq_none.mp hp
    have hf : (p ++ b :: q).find? (fun i => (recs i).group == some k) = some b := by
      simp [List.find?_append, hp, hb]
    simp [unblock, hf, hnone]
  | some i =>
    have hi : i ∈ p := List.mem_of_find?_eq_some hp
    have hg : (recs i).group = some k := by simpa using List.find?_some hp
    have hf : (p ++ b :: q).find? (fun i => (recs i).group == some k) = some i := by
      simp [List.find?_append, hp]
    have hbi : b ≠ i := fun h => ne_of_split hn (List.mem_append_left q hi) h.symm
    simp only [unblock, hf, Function.update_of_ne hbi, hm, true_iff]
    exact ⟨i, hi, hg⟩

/-- Past the released job, a job of its group is marked when another one of the group stays ahead. -/
theorem blocked_next {s : State} (hi : Inv s) {a b : Addr} {pre r q : List Addr}
    (he : s.firstJob = pre ++ a :: (r ++ b :: q)) (hsa : Started s a)
    (hg : SameGroup s.recs a b) :
    (unblock s.recs (s.recs a).group (r ++ b :: q) b).blocked = true ↔
      Started s b ∨ ∃ c ∈ pre ++ r, SameGroup s.recs c b := by
  have hs : s.firstJob = (pre ++ a :: r) ++ b :: q := by simp [he]
  obtain ⟨k, hk⟩ := Option.ne_none_iff_exists'.mp hg.1
  have hak : (s.recs a).group = some k := hg.2.trans hk
  have hns : ¬ Started s b := fun h => hi.startedFirst _ b q hs h a (by simp) hg
  have hmark : (s.recs b).blocked = true :=
    (hi.blockedIff _ b q hs).mpr (.inr ⟨a, by simp, hg⟩)
  have hpost : (r ++ b :: q).Nodup := by
    have hnd := (List.nodup_append.mp hi.nodup).1
    rw [he] at hnd
    exact (List.nodup_cons.mp (List.nodup_append.mp hnd).2.1).2
  -- the released job was the first of the group
  have hbefore : ∀ c ∈ pre, (s.recs c).group ≠ some k := fun c hc h =>
    hi.startedFirst pre a _ he hsa c hc ⟨by simp [hak], by rw [h, hak]⟩
  rw [hak, unblock_blocked hpost hk hmark]
  simp only [hns, false_or, SameGroup, hk, ne_eq, reduceCtorEq, not_false_eq_true, true_and]
  constructor
  · rintro ⟨c, hc, h⟩
    exact ⟨c, by simp [hc], h⟩
  · rintro ⟨c, hc, h⟩
    rcases List.mem_append.mp hc with hc | hc
    · exact absurd h (hbefore c hc)
    · exact ⟨c, hc, h⟩

/-- A job of another group keeps its mark. -/
theorem blocked_unlike {s : State} (hi : Inv s) {a b : Addr} {pre r q : List Addr}
    (he : s.firstJob = pre ++ a :: (r ++ b :: q)) (hg : ¬ SameGroup s.recs a b) :
    (unblock s.recs (s.recs a).group (r ++ b :: q) b).blocked = true ↔
      Started s b ∨ ∃ c ∈ pre ++ r, SameGroup s.recs c b := by
  have hkeep : unblock s.recs (s.recs a).group (r ++ b :: q) b = s.recs b := by
    by_cases hba : (s.recs b).group = (s.recs a).group
    · have hnil : (s.recs a).group = none := by
        by_contra hne
        exact hg ⟨fun h => hne (hba ▸ h), hba.symm⟩
      rw [hnil]
      rfl
    · exact unblock_other (.inr hba)
  rw [hkeep, hi.blockedIff (pre ++ a :: r) b q (by simp [he])]
  refine or_congr_right ⟨?_, ?_⟩
  · rintro ⟨c, hc, h⟩
    rcases List.mem_append.mp hc with hc | hc
    · exact ⟨c, by simp [hc], h⟩
    · rcases List.mem_cons.mp hc with rfl | hc
      · exact absurd h hg
      · exact ⟨c, by simp [hc], h⟩
  · rintro ⟨c, hc, h⟩
    refine ⟨c, ?_, h⟩
    simp only [List.mem_append, List.mem_cons] at hc ⊢
    tauto

/-- The marks of the jobs that stay, once a running job is released. -/
theorem blocked_finish {s : State} (hi : Inv s) {a b : Addr} {pre post p q : List Addr}
    (he : s.firstJob = pre ++ a :: post) (hsa : Started s a) (hq : pre ++ post = p ++ b :: q) :
    (unblock s.recs (s.recs a).group post b).blocked = true ↔
      Started s b ∨ ∃ c ∈ p, SameGroup s.recs c b := by
  rcases split_erase hq with ⟨r, hp, -⟩ | ⟨r, rfl, hp⟩
  · -- the job is ahead of the released one
    have hs : s.firstJob = p ++ b :: (r ++ a :: post) := by simp [he, hp]
    have hnot : b ∉ post := by
      intro hm
      have hnd := (List.nodup_append.mp hi.nodup).1
      rw [hs] at hnd
      exact ne_of_split hnd (by simp [hm]) rfl
    rw [unblock_other (.inl hnot)]
    exact hi.blockedIff p b _ hs
  · subst hp
    by_cases hg : SameGroup s.recs a b
    · exact blocked_next hi he hsa hg
    · exact blocked_unlike hi he hg

/-- The job leaves the queue and the next one of its group becomes its first. -/
theorem inv_finish {s u : State} (hi : Inv s) {t : Nat} {a : Addr} {pre post : List Addr}
    {rest : List Addr} (he : s.firstJob = pre ++ a :: post) (hrun : execs s t = a :: rest)
    (hfirst : u.firstJob = pre ++ post) (hfree : u.freeJobs = a :: s.freeJobs)
    (hmal : u.mallocs = s.mallocs) (hbrk : u.brk = s.brk)
    (hrecs : u.recs = unblock s.recs (s.recs a).group post)
    (hserial : u.serial = s.serial)
    (hhist : u.history = s.history ++ [.finished (s.recs a).serial])
    (hexec : execs u = Function.update (execs s) t rest) : Inv u := by
  obtain ⟨ha, hsa⟩ := (hi.execIff a).mp ⟨t, by simp [hrun]⟩
  have hall : (s.firstJob ++ (s.freeJobs ++ s.mallocs)).Perm
      (u.firstJob ++ (u.freeJobs ++ u.mallocs)) := by
    rw [he, hfirst, hfree, hmal]
    simp only [List.append_assoc, List.cons_append]
    exact List.Perm.append_left pre List.perm_middle.symm
  have hnd : (pre ++ a :: post).Nodup := he ▸ (List.nodup_append.mp hi.nodup).1
  have hsub : ∀ b ∈ u.firstJob, b ∈ s.firstJob ∧ b ≠ a := by
    intro b hb
    rw [hfirst] at hb
    refine ⟨?_, ne_of_split hnd hb⟩
    rw [he]
    simp only [List.mem_append, List.mem_cons] at hb ⊢
    tauto
  have hgroup : ∀ b, (u.recs b).group = (s.recs b).group := fun b => by
    rw [hrecs, unblock_group]
  have hser : ∀ b, (u.recs b).serial = (s.recs b).serial := fun b => by
    rw [hrecs, unblock_serial]
  have hsame : ∀ b c, SameGroup u.recs b c ↔ SameGroup s.recs b c := by
    intro b c
    simp only [SameGroup, hgroup]
  have hstart : ∀ b, (Started u b ↔ Started s b) := by
    intro b
    simp only [Started, hser, hhist, starts_finished]
  have hserials : (serials s).Perm ((s.recs a).serial :: serials u) := by
    simp only [serials, he, hfirst, hser, List.map_append, List.map_cons]
    exact List.perm_middle
  have hleft : (s.recs a).serial ∉ serials u :=
    (List.nodup_cons.mp (hserials.nodup_iff.mp hi.serialsNodup)).1
  have hrest : a ∉ rest ∧ rest.Nodup := by
    have := hi.execNodup t
    rw [hrun] at this
    exact List.nodup_cons.mp this
  have hexecs : ∀ x b, b ∈ execs u x ↔ b ∈ execs s x ∧ b ≠ a := by
    intro x b
    rw [hexec]
    by_cases hx : x = t
    · subst hx
      rw [Function.update_self, hrun, List.mem_cons]
      constructor
      · intro hb
        exact ⟨.inr hb, fun h => hrest.1 (h ▸ hb)⟩
      · rintro ⟨hb | hb, hne⟩
        · exact absurd hb hne
        · exact hb
    · rw [Function.update_of_ne hx, iff_self_and]
      rintro hb rfl
      exact hx (hi.execThread x t b hb (by simp [hrun]))
  constructor
  case nodup => exact hall.nodup_iff.mp hi.nodup
  case alloc =>
    intro b hb
    rw [hbrk]
    exact hi.alloc b (hall.mem_iff.mpr hb)
  case execNodup =>
    intro x
    rw [hexec]
    by_cases hx : x = t
    · subst hx
      simpa using hrest.2
    · rw [Function.update_of_ne hx]
      exact hi.execNodup x
  case execThread =>
    intro x y b hx hy
    exact hi.execThread x y b ((hexecs x b).mp hx).1 ((hexecs y b).mp hy).1
  case execIff =>
    intro b
    simp only [hexecs, hstart, exists_and_right]
    rw [hi.execIff b, he, hfirst]
    constructor
    · rintro ⟨⟨hm, hs⟩, hne⟩
      refine ⟨?_, hs⟩
      simp only [List.mem_append, List.mem_cons] at hm ⊢
      tauto
    · rintro ⟨hm, hs⟩
      refine ⟨⟨?_, hs⟩, ne_of_split hnd hm⟩
      simp only [List.mem_append, List.mem_cons] at hm ⊢
      tauto
  case blockedIff =>
    intro p b q hq
    rw [hfirst] at hq
    simp only [hstart, hsame]
    rw [hrecs]
    exact blocked_finish hi he hsa hq
  case startedFirst =>
    intro p b q hq hs c hc
    rw [hfirst] at hq
    rw [hsame]
    rcases split_erase hq with ⟨r, hp, -⟩ | ⟨r, rfl, hp⟩
    · exact hi.startedFirst p b (r ++ a :: post) (by simp [he, hp]) ((hstart b).mp hs) c hc
    · refine hi.startedFirst (pre ++ a :: r) b q (by simp [he, hp]) ((hstart b).mp hs) c ?_
      simp only [List.mem_append, List.mem_cons] at hc ⊢
      tauto
  case serialsNodup => exact (List.nodup_cons.mp (hserials.nodup_iff.mp hi.serialsNodup)).2
  case queuedAll => rw [hhist, queues_finished, hserial, hi.queuedAll]
  case startsNodup => simpa only [hhist, starts_finished] using hi.startsNodup
  case startsLt => simpa only [hhist, starts_finished, hserial] using hi.startsLt
  case live =>
    intro n
    rw [hserial, hi.live n, hhist, finishes_finished, hserials.mem_iff]
    simp only [List.mem_append, List.mem_cons, List.not_mem_nil, or_false, or_assoc]
  case gone =>
    intro n hn
    rw [hhist, finishes_finished, List.mem_append, List.mem_singleton] at hn
    rw [hhist, starts_finished]
    rcases hn with hn | rfl
    · exact ⟨(hi.gone n hn).1, fun hm => (hi.gone n hn).2 (hserials.mem_iff.mpr (by simp [hm]))⟩
    · exact ⟨hsa, hleft⟩
  case order =>
    intro g
    have hc : ∀ l, waitingOf u g l = waitingOf s g l := fun l =>
      waitingOf_congr g fun b _ => ⟨hgroup b, hser b, hstart b⟩
    rw [hhist, queuesOf_finished, startsOf_finished, hi.order g, hc, hfirst, he]
    simp [waitingOf_append, waitingOf_cons, hsa]

theorem execs_update {s u : State} {t : Nat} {l : List Frame}
    (h : u.threads = Function.update s.threads t l) :
    execs u = Function.update (execs s) t (l.filterMap Frame.running) := by
  funext x
  by_cases hx : x = t <;> simp [execs, h, hx, Function.update_of_ne]

/-- The innermost frame of the thread is idle before and after. -/
theorem running_top {f g : Frame} (rest : List Frame) (hf : f.running = none)
    (hg : g.running = none) :
    (g :: rest).filterMap Frame.running = (f :: rest).filterMap Frame.running := by
  rw [List.filterMap_cons_none hf, List.filterMap_cons_none hg]

/-- A thread that runs the same jobs as before leaves the invariant alone. -/
theorem execs_same {s u : State} {t : Nat} {l : List Frame}
    (h : u.threads = Function.update s.threads t l)
    (hl : l.filterMap Frame.running = (s.threads t).filterMap Frame.running) :
    execs u = execs s := by
  rw [execs_update h, hl]
  exact Function.update_eq_self t (execs s)

private theorem inv_jobAdd {s u : State} (hi : Inv s) {fresh g timeout callback a}
    (h : jobCreate s fresh g timeout callback = some (a, u)) (r : Int) (c : Nat) :
    Inv (jobAdd { u with remains := r, creating := c } a) := by
  obtain ⟨free, mal, rfl, hp⟩ := jobCreate_spec h
  have ha : a ∉ s.firstJob := by
    intro hm
    exact (List.nodup_append.mp hi.nodup).2.2 a hm a (hp.mem_iff.mpr (by simp)) rfl
  have hne : ∀ b ∈ s.firstJob, b ≠ a := fun b hb he => ha (he ▸ hb)
  refine inv_enqueue hi (a := a) rfl hp rfl ?_ ?_ ?_ rfl ?_ rfl
  · intro b hb
    simp [jobAdd, Function.update_of_ne (hne b hb)]
  · simp [jobAdd]
  · simp only [jobAdd, Function.update_self, Bool.false_or, List.any_eq_true, Bool.and_eq_true,
      beq_iff_eq, SameGroup]
    refine exists_congr fun b => and_congr_right fun hb => ?_
    simp [Function.update_of_ne (hne b hb), Option.isSome_iff_ne_none]
  · simp [jobAdd]

private theorem inv_recycle {s u : State} (hi : Inv s) {fresh g timeout callback a}
    (h : jobCreate s fresh g timeout callback = some (a, u)) :
    Inv { u with freeJobs := a :: u.freeJobs } := by
  obtain ⟨free, mal, rfl, hp⟩ := jobCreate_spec h
  have hall := hp.append_left s.firstJob
  refine hi.frame (hall.nodup_iff.mp hi.nodup) (fun b hb => hi.alloc b (hall.mem_iff.mpr hb))
    ?_ rfl rfl rfl rfl
  intro b hb
  refine Function.update_of_ne ?_ _ _
  rintro rfl
  exact (List.nodup_append.mp hi.nodup).2.2 b hb b (hp.mem_iff.mpr (by simp)) rfl

private theorem inv_threadEnter {s : State} (hi : Inv s) (t : Nat) (main : Bool) :
    Inv (threadEnter s t main) :=
  hi.congr rfl rfl rfl rfl rfl rfl rfl (execs_same (t := t) rfl (List.filterMap_cons_none rfl))

private theorem inv_jobsQueue {s u : State} (hi : Inv s) {fresh g timeout callback created rc}
    (h : jobsQueue s fresh g timeout callback created = some (rc, u)) : Inv u := by
  simp only [jobsQueue, Option.map_eq_some_iff, Prod.exists] at h
  obtain ⟨a, v, hc, h⟩ := h
  split_ifs at h
  · cases h
    exact inv_recycle hi hc
  · cases h
    exact inv_recycle hi hc
  · cases h
    exact inv_jobAdd hi hc _ _
  · cases h
    exact inv_jobAdd hi hc _ v.creating

private theorem inv_takeJob {s u : State} (hi : Inv s) {t : Nat} (h : takeJob s t = some u) :
    Inv u := by
  obtain ⟨f, rest, a, hth, hphase, ha, rfl⟩ := takeJob_cases h
  obtain ⟨hb, pre, post, he, -⟩ := List.find?_eq_some_iff_append.mp ha
  refine inv_start hi (t := t) he (by simpa using hb) rfl rfl rfl rfl rfl rfl rfl ?_
  rw [execs_update (s := s) (t := t) rfl, List.filterMap_cons_some (f := Frame.running) (b := a) rfl,
    execs, hth, List.filterMap_cons_none (by simp [Frame.running, hphase])]

private theorem inv_releaseJob {s u : State} (hi : Inv s) {t : Nat} (h : releaseJob s t = some u) :
    Inv u := by
  obtain ⟨f, rest, a, before, after, hth, hphase, he, rfl⟩ := releaseJob_cases h
  have hrun : execs s t = a :: rest.filterMap Frame.running := by simp [execs, hth, Frame.running, hphase]
  refine inv_finish hi (t := t) he hrun rfl rfl rfl rfl rfl rfl rfl ?_
  rw [execs_update (s := s) (t := t) rfl, List.filterMap_cons_none rfl]

private theorem inv_top {s u : State} (hi : Inv s) {t : Nat} {f g : Frame} {rest : List Frame}
    (hth : s.threads t = f :: rest) (hf : f.running = none) (hg : g.running = none) {running : Int}
    (hu : u = setTop { s with running } t g rest) : Inv u := by
  subst hu
  refine hi.congr rfl rfl rfl rfl rfl rfl rfl (execs_same (t := t) rfl ?_)
  rw [hth]
  exact running_top rest hf hg

private theorem inv_idle {s u : State} (hi : Inv s) {t : Nat} {free : Bool}
    (h : idle s t free = some u) : Inv u := by
  obtain ⟨f, rest, hth, hphase, hu | hu⟩ := idle_cases h
  · exact inv_top hi hth (by simp [Frame.running, hphase]) rfl hu
  · exact inv_top hi hth (by simp [Frame.running, hphase]) rfl hu

private theorem inv_wake {s u : State} (hi : Inv s) {t : Nat} (h : wake s t = some u) : Inv u := by
  obtain ⟨f, rest, hth, ⟨hphase, hu⟩ | ⟨hphase, hu⟩⟩ := wake_cases h
  · exact inv_top hi hth (by simp [Frame.running, hphase]) rfl hu
  · exact inv_top hi hth (by simp [Frame.running, hphase]) rfl hu

private theorem inv_exitLoop {s u : State} (hi : Inv s) {t : Nat} (h : exitLoop s t = some u) :
    Inv u := by
  obtain ⟨f, rest, hth, hphase, rfl⟩ := exitLoop_cases h
  refine hi.congr rfl rfl rfl rfl rfl rfl rfl (execs_same (t := t) rfl ?_)
  rw [hth, List.filterMap_cons_none (by simp [Frame.running, hphase])]

theorem running_modify (l : List Frame) (depth : Nat) :
    (l.modify depth fun f => { f with stop := true }).filterMap Frame.running =
      l.filterMap Frame.running := by
  induction l generalizing depth with
  | nil => simp
  | cons f l ih =>
    cases depth with
    | zero => rfl
    | succ depth =>
      simp only [List.modify_succ_cons, List.filterMap_cons, ih]

/-- Every section of the scheduler keeps the queue invariant. -/
theorem inv_step {s u : State} {x : Action} (hi : Inv s) (h : step s x = some u) : Inv u := by
  cases x with
  | malloc =>
    simp only [step, Option.ite_none_right_eq_some, Option.some.injEq] at h
    obtain ⟨hf, rfl⟩ := h
    have hnd := hi.nodup
    have hal := hi.alloc
    rw [hf, List.nil_append] at hnd hal
    refine hi.frame ?_ ?_ (fun _ _ => rfl) rfl rfl rfl rfl
    · simp only [hf, List.nil_append]
      refine (List.perm_middle.nodup_iff).mpr (List.nodup_cons.mpr ⟨fun hm => ?_, hnd⟩)
      exact absurd (hal s.brk hm) (Nat.lt_irrefl _)
    · intro a ha
      simp only [hf, List.nil_append, List.mem_append, List.mem_cons] at ha
      rcases ha with ha | rfl | ha
      · exact Nat.lt_succ_of_lt (hal a (by simp [ha]))
      · exact Nat.lt_succ_self _
      · exact Nat.lt_succ_of_lt (hal a (by simp [ha]))
  | jobsQueue fresh group timeout callback created =>
    obtain ⟨⟨rc, v⟩, hq, rfl⟩ := Option.map_eq_some_iff.mp h
    exact inv_jobsQueue hi hq
  | doSync t fresh group timeout callback =>
    simp only [step, doSync, Option.ite_none_right_eq_some, Option.map_eq_some_iff,
      Prod.exists] at h
    obtain ⟨-, a, v, hc, rfl⟩ := h
    exact inv_threadEnter (inv_jobAdd hi hc v.remains v.creating) t false
  | jobsStart allowed starts waiters =>
    simp only [step, Option.ite_none_right_eq_some, Option.some.injEq] at h
    obtain ⟨-, rfl⟩ := h
    exact hi.congr rfl rfl rfl rfl rfl rfl rfl rfl
  | startJob t fresh callback =>
    simp only [step, Option.ite_none_right_eq_some, Option.map_eq_some_iff, Prod.exists] at h
    obtain ⟨-, a, v, hc, rfl⟩ := h
    refine inv_threadEnter ?_ t false
    exact (inv_jobAdd hi hc v.remains v.creating).congr rfl rfl rfl rfl rfl rfl rfl rfl
  | threadMain t =>
    simp only [step, Option.ite_none_right_eq_some, Option.some.injEq] at h
    obtain ⟨-, rfl⟩ := h
    refine inv_threadEnter ?_ t true
    exact hi.congr rfl rfl rfl rfl rfl rfl rfl rfl
  | take t => exact inv_takeJob hi h
  | release t => exact inv_releaseJob hi h
  | idle t free => exact inv_idle hi h
  | wake t => exact inv_wake hi h
  | jobsLeave t depth =>
    simp only [step, Option.some.injEq] at h
    subst h
    exact hi.congr rfl rfl rfl rfl rfl rfl rfl (execs_same (t := t) rfl (running_modify _ _))
  | exit t => exact inv_exitLoop hi h

end AfbBinder.Jobs
