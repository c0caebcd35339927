import AfbBinder.Jobs.Ownership
import AfbBinder.Jobs.Terminate

/-! The calls of jobs_terminate of a thread, one within the callback of another: what each has still
to go through, and what it has linked in the queue again. -/
namespace AfbBinder.Jobs

/-- The d oldest frames of a thread. -/
def oldest (d : Nat) (l : List Frame) : List Frame := l.drop (l.length - d)

/-- The jobs that they execute. -/
def own (d : Nat) (l : List Frame) : List Addr := (oldest d l).filterMap Frame.running

def heads (cs : List Call) : List Addr := cs.flatMap Call.head

def underway (cs : List Call) : List Addr := cs.filterMap Call.cancelling

section frames
variable {x : Action} {t d : Nat} {f : Frame} {l m : List Frame} {a : Addr}

private theorem oldest_cons (h : d ≤ l.length) (f : Frame) : oldest d (f :: l) = oldest d l := by
  rw [oldest, List.length_cons, Nat.succ_sub h, List.drop_succ_cons, oldest]

theorem oldest_length (l : List Frame) : oldest l.length l = l := by
  rw [oldest, Nat.sub_self, List.drop_zero]

theorem own_here {s : State} (h : (s.threads t).length = d) : own d (s.threads t) = execs s t := by
  rw [own, ← h, oldest_length, execs]

theorem own_running (h : a ∈ own d l) : a ∈ l.filterMap Frame.running := by
  obtain ⟨f, hf, hrun⟩ := List.mem_filterMap.mp h
  exact List.mem_filterMap.mpr ⟨f, List.mem_of_mem_drop hf, hrun⟩

/-- What the calls of jobs_terminate read of a frame. -/
def Frame.reads (f : Frame) : Option Addr × Phase := (f.job, f.phase)

private theorem running_of_reads {f g : Frame} (h : f.reads = g.reads) : f.running = g.running := by
  have hphase : f.phase = g.phase := congrArg Prod.snd h
  rw [Frame.running, Frame.running, hphase]

theorem running_reads (h : l.map Frame.reads = m.map Frame.reads) :
    l.filterMap Frame.running = m.filterMap Frame.running := by
  induction l generalizing m with
  | nil =>
    cases m with
    | nil => rfl
    | cons g m => cases h
  | cons f l ih =>
    cases m with
    | nil => cases h
    | cons g m =>
      obtain ⟨hfirst, hrest⟩ := List.cons.inj h
      rw [List.filterMap_cons, List.filterMap_cons, running_of_reads hfirst, ih hrest]

private theorem stacked_reads (garbage : Nat → Option Addr) (h : l.map Frame.reads = m.map Frame.reads)
    (a : Addr) : stacked garbage l a = stacked garbage m a := by
  induction l generalizing m with
  | nil =>
    cases m with
    | nil => rfl
    | cons g m => cases h
  | cons f l ih =>
    cases m with
    | nil => cases h
    | cons g m =>
      obtain ⟨hfirst, hrest⟩ := List.cons.inj h
      have hlen : l.length = m.length := by simpa using congrArg List.length hrest
      rw [stacked, stacked, ih hrest, hlen, show f.job = g.job from congrArg Prod.fst hfirst]

theorem modify_reads (l : List Frame) (depth : Nat) :
    (l.modify depth fun f => { f with stop := true }).map Frame.reads = l.map Frame.reads := by
  induction l generalizing depth with
  | nil => simp
  | cons f l ih =>
    cases depth with
    | zero => rfl
    | succ depth => rw [List.modify_succ_cons, List.map_cons, List.map_cons, ih]

theorem records_reads (h : l.map Frame.reads = m.map Frame.reads) (hl : ∀ f ∈ l, f.Records) :
    ∀ f ∈ m, f.Records := by
  intro f hf a ha
  have hmem : f.reads ∈ l.map Frame.reads := by
    rw [h]
    exact List.mem_map_of_mem hf
  obtain ⟨g, hg, hreads⟩ := List.mem_map.mp hmem
  obtain ⟨hjob, hphase⟩ := Prod.mk.inj hreads
  exact hjob.symm.trans (hl g hg a (hphase.trans ha))

/-- The d oldest frames are the same, but for the request to stop. -/
structure Below (d : Nat) (l m : List Frame) : Prop where
  deep : d ≤ m.length
  reads : (oldest d m).map Frame.reads = (oldest d l).map Frame.reads

theorem Below.own (h : Below d l m) : own d m = own d l := running_reads h.reads

private theorem Below.stacked (h : Below d l m) (garbage : Nat → Option Addr) (a : Addr) :
    stacked garbage (oldest d m) a = stacked garbage (oldest d l) a :=
  stacked_reads garbage h.reads a

theorem below_reads (h : d ≤ l.length) (hm : m.map Frame.reads = l.map Frame.reads) : Below d l m := by
  have hlen : m.length = l.length := by simpa using congrArg List.length hm
  refine ⟨hlen ▸ h, ?_⟩
  rw [oldest, oldest, List.map_drop, List.map_drop, hm, hlen]

theorem below_of_moves (h : Moves x t l m) (hd : d ≤ l.length) (hloops : x.loops = some t → d < l.length) :
    Below d l m := by
  cases h with
  | same h =>
    subst h
    exact ⟨hd, rfl⟩
  | stopped depth h => exact below_reads hd (h ▸ modify_reads l depth)
  | entered hx f hf h =>
    subst h
    exact ⟨Nat.le_succ_of_le hd, by rw [oldest_cons hd]⟩
  | looped hx f g rest hl hg h =>
    subst hl h
    have hrest : d ≤ rest.length := Nat.le_of_lt_succ (hloops hx)
    exact ⟨Nat.le_succ_of_le hrest, by rw [oldest_cons hrest, oldest_cons hrest]⟩
  | returned hx f rest hl h =>
    subst hl h
    have hrest : d ≤ m.length := Nat.le_of_lt_succ (hloops hx)
    exact ⟨hrest, by rw [oldest_cons hrest]⟩

/-- A frame records the job that it runs. -/
theorem stacked_of_running (garbage : Nat → Option Addr) (hl : ∀ f ∈ l, f.Records)
    (h : a ∈ l.filterMap Frame.running) : stacked garbage l a = true := by
  induction l with
  | nil => cases h
  | cons f l ih =>
    rw [stacked, Bool.or_eq_true]
    obtain ⟨g, hg, hrun⟩ := List.mem_filterMap.mp h
    rcases List.mem_cons.mp hg with rfl | hg
    · have hphase : g.phase = .run a := by
        unfold Frame.running at hrun
        split at hrun
        · rename_i b hb
          cases hrun
          exact hb
        · cases hrun
      rw [hl g List.mem_cons_self a hphase]
      exact .inl (beq_self_eq_true _)
    · exact .inr (ih (fun f hf => hl f (List.mem_cons_of_mem _ hf)) (List.mem_filterMap.mpr ⟨g, hg, hrun⟩))

end frames

/-- A call in its loop: the jobs kept so far are at the start of the queue that it sees, the other
jobs that its frames execute are still in its list or in those of the calls around it. -/
structure Stands (s : State) (aborts : List Nat) (l : List Frame) (queue : List Addr) (c : Call)
    (outer : List Call) (kept : List Addr) : Prop where
  start : kept <+: queue
  tail : c.tail = kept.getLast?
  mine : ∀ a ∈ kept, a ∈ own c.depth l
  found : ∀ a ∈ own c.depth l, a ∈ kept ++ c.head ++ heads outer
  apart : (kept ++ c.head.filter (· ∈ own c.depth l)).Pairwise fun b a => ¬SameGroup s.recs b a
  honest : ∀ a ∈ c.head, stacked c.garbage (oldest c.depth l) a = true → a ∈ own c.depth l
  told : ∀ n ∈ c.waiting, n ∈ aborts ∨ ∃ a ∈ c.head, a ∉ own c.depth l ∧ serialOf s a = n

/-- A call that waits for the other threads. -/
structure Pending (c : Call) : Prop where
  joined : c.joined = false
  head : c.head = []
  tail : c.tail = none
  cancelling : c.cancelling = none

/-- The calls around a call are in the callback of the job that they cancel. -/
def Within (c : Call) (outer : List Call) : Prop :=
  ∀ c' ∈ outer, c'.joined = true ∧ c'.cancelling.isSome = true ∧ c'.depth ≤ c.depth

/-- The calls of a thread, each with the queue that it sees once the inner ones have returned. -/
def Chain (s : State) (aborts : List Nat) (l : List Frame) : List Addr → List Call → Prop
  | _, [] => True
  | queue, c :: outer => Within c outer ∧
    if c.joined then ∃ kept, Stands s aborts l queue c outer kept ∧
      Chain s aborts l (kept ++ c.head.filter (· ∈ own c.depth l)) outer
    else Pending c ∧ Chain s aborts l queue outer

section chain
variable {s u : State} {aborts : List Nat} {l m : List Frame} {queue queue' : List Addr}
  {cs outer : List Call} {c : Call}

/-- The jobs kept stay at the start of the queue. -/
def Starts (l : List Frame) (queue queue' : List Addr) (cs : List Call) : Prop :=
  ∀ c ∈ cs, ∀ kept, kept <+: queue → (∀ a ∈ kept, a ∈ own c.depth l) → kept <+: queue'

private theorem Stands.steady {kept : List Addr} (h : Stands s aborts l queue c outer kept)
    (hbelow : Below c.depth l m) (hmark : ∀ a ∈ queue ++ c.head, Marked s u a)
    (hstart : kept <+: queue') : Stands u aborts m queue' c outer kept where
  start := hstart
  tail := h.tail
  mine := by rw [hbelow.own]; exact h.mine
  found := by rw [hbelow.own]; exact h.found
  apart := by
    have hmem : ∀ a ∈ kept ++ c.head.filter (· ∈ own c.depth l), Marked s u a := by
      intro a ha
      rcases List.mem_append.mp ha with ha | ha
      · exact hmark a (List.mem_append_left _ (h.start.subset ha))
      · exact hmark a (List.mem_append_right _ (List.mem_of_mem_filter ha))
    rw [hbelow.own]
    refine h.apart.imp_of_mem fun {b a} hb ha hno hg => hno ?_
    rwa [SameGroup, (hmem b hb).group, (hmem a ha).group] at hg
  honest a ha hs := by
    rw [hbelow.stacked] at hs
    rw [hbelow.own]
    exact h.honest a ha hs
  told n hn := by
    rw [hbelow.own]
    refine (h.told n hn).imp_right ?_
    rintro ⟨a, ha, hown, hserial⟩
    exact ⟨a, ha, hown, (hmark a (List.mem_append_right _ ha)).serial.trans hserial⟩

theorem Chain.steady (h : Chain s aborts l queue cs) (hbelow : ∀ c ∈ cs, Below c.depth l m)
    (hmark : ∀ a ∈ queue ++ heads cs, Marked s u a) (hstart : Starts l queue queue' cs) :
    Chain u aborts m queue' cs := by
  induction cs generalizing queue queue' with
  | nil => trivial
  | cons c outer ih =>
    have hc := hbelow c List.mem_cons_self
    have houter : ∀ c' ∈ outer, Below c'.depth l m := fun c' hc' =>
      hbelow c' (List.mem_cons_of_mem _ hc')
    obtain ⟨hwithin, hrest⟩ := h
    refine ⟨hwithin, ?_⟩
    have hheads : heads (c :: outer) = c.head ++ heads outer := rfl
    rw [hheads] at hmark
    by_cases hj : c.joined
    · rw [if_pos hj] at hrest ⊢
      obtain ⟨kept, hstands, hchain⟩ := hrest
      refine ⟨kept, hstands.steady hc (fun a ha => ?_)
        (hstart c List.mem_cons_self kept hstands.start hstands.mine), ?_⟩
      · refine hmark a ?_
        rw [← List.append_assoc]
        exact List.mem_append_left _ ha
      · rw [hc.own]
        refine ih hchain houter (fun a ha => hmark a ?_) fun c' _ kept' hk _ => hk
        rcases List.mem_append.mp ha with ha | ha
        · rcases List.mem_append.mp ha with ha | ha
          · exact List.mem_append_left _ (hstands.start.subset ha)
          · exact List.mem_append_right _ (List.mem_append_left _ (List.mem_of_mem_filter ha))
        · exact List.mem_append_right _ (List.mem_append_right _ ha)
    · rw [if_neg hj] at hrest ⊢
      refine ⟨hrest.1, ih hrest.2 houter (fun a ha => hmark a ?_) fun c' hc' => ?_⟩
      · rwa [hrest.1.head, List.nil_append]
      · exact hstart c' (List.mem_cons_of_mem _ hc')

/-- More aborts tell as much. -/
theorem Chain.told (h : Chain s aborts l queue cs) {more : List Nat} :
    Chain s (aborts ++ more) l queue cs := by
  induction cs generalizing queue with
  | nil => trivial
  | cons c outer ih =>
    obtain ⟨hwithin, hrest⟩ := h
    refine ⟨hwithin, ?_⟩
    by_cases hj : c.joined
    · rw [if_pos hj] at hrest ⊢
      obtain ⟨kept, hstands, hchain⟩ := hrest
      refine ⟨kept, { hstands with told := fun n hn => ?_ }, ih hchain⟩
      exact (hstands.told n hn).imp_left (List.mem_append_left _)
    · rw [if_neg hj] at hrest ⊢
      exact ⟨hrest.1, ih hrest.2⟩

end chain

end AfbBinder.Jobs
