import AfbBinder.Lib.Checked
import AfbBinder.WrapJson.Packing

/-! The iterations of wrap_json_vpack: what each leaves alone, and that the loop ends. -/
namespace AfbBinder.WrapJson
open Lib.Cstrings Lib.Checked Lib.Loops
open Lib.Json (lbracket rbracket lbrace rbrace colon)

variable {D : Type} {strings : StringMaker}

/-- More of the descriptor is read, and the slots are left alone. -/
structure Reads (st st' : PackState D) : Prop where
  stack : st'.stack = st.stack
  events : st'.events = st.events
  length : st'.d.length ≤ st.d.length

/-- So is the block for the strings. -/
structure Idle (st st' : PackState D) : Prop extends Reads st st' where
  scratch : st'.scratch = st.scratch

/-- An end that is not for the depth; the flag tells whether it may be for a write. -/
def Stops (write : Bool) (st : PackState D) : Stop (PackState D) → Prop
  | .error e st' => Reads st st' ∧ e ≠ .tooDeep
  | .fault f => f = .write → write = true

section
variable {st st' st'' : PackState D} {write : Bool} {stop : Stop (PackState D)}

private theorem Reads.refl : Reads st st := ⟨rfl, rfl, Nat.le_refl _⟩

private theorem Reads.trans (h : Reads st st') (h' : Reads st' st'') : Reads st st'' :=
  ⟨h'.stack.trans h.stack, h'.events.trans h.events, Nat.le_trans h'.length h.length⟩

private theorem Idle.refl : Idle st st := ⟨.refl, rfl⟩

private theorem Idle.trans (h : Idle st st') (h' : Idle st' st'') : Idle st st'' :=
  ⟨h.toReads.trans h'.toReads, h'.scratch.trans h.scratch⟩

private theorem idle_args (args : List (PackArg D)) : Idle st { st with args } :=
    ⟨⟨rfl, rfl, Nat.le_refl _⟩, rfl⟩

private theorem idle_advance : Idle st { st with d := advance st.d } := ⟨⟨rfl, rfl, advance_length_le _⟩, rfl⟩

private theorem Stops.trans (h : Reads st st') (hstop : Stops write st' stop) : Stops write st stop := by
  cases stop with
  | error e u => exact ⟨h.trans hstop.1, hstop.2⟩
  | fault f => exact hstop

private theorem Stops.mono (hstop : Stops false st stop) : Stops write st stop := by
  cases stop with
  | error e u => exact hstop
  | fault f => exact fun h => absurd (hstop h) Bool.false_ne_true

end

/-- A part of an iteration that only reads. -/
abbrev Quiet {α : Type} (st : PackState D) (r : Except (Stop (PackState D)) (α × PackState D)) : Prop :=
  Meets (fun x => Idle st x.2) (Stops false st) r

section
variable {α β : Type} {st st' : PackState D} {str : Option Bytes}
  {r : Except (Stop (PackState D)) (α × PackState D)}

private theorem Quiet.trans (h : Idle st st') (hr : Quiet st' r) : Quiet st r :=
  hr.mono (fun _ => h.trans) fun _ => .trans h.toReads

private theorem quiet_fault {f : Fault} (h : f ≠ .write) : Quiet st
    (.error (.fault f) : Except _ (α × PackState D)) := fun hf => absurd hf h

private theorem quiet_argument : Quiet st
    (.error (.fault .argument) : Except _ (α × PackState D)) := quiet_fault (by decide)

private theorem quiet_read : Quiet st (.error (.fault .read) : Except _ (α × PackState D)) := quiet_fault
    (by decide)

private theorem quiet_error {e : JsonError} (h : Idle st st') (he : e ≠ .tooDeep) :
    Quiet st (.error (.error e st') : Except _ (α × PackState D)) := ⟨h.toReads, he⟩

private theorem Quiet.bind {f : α × PackState D → Except (Stop (PackState D)) (β × PackState D)}
    (hr : Quiet st r)
    (hf : ∀ x st', Idle st st' → Quiet st' (f (x, st'))) : Quiet st (r.bind f) :=
  Meets.bind hr fun x hx => (hf x.1 x.2 hx).trans hx

private theorem quiet_stringSize : Quiet st (stringSize st str) := by
  unfold stringSize
  split
  · split
    · exact idle_advance.trans (idle_args _)
    · exact quiet_argument
  · split
    · split
      · exact idle_advance.trans (idle_args _)
      · exact quiet_argument
    · split
      · exact .refl
      · split
        · exact .refl
        · exact quiet_read

private theorem idle_question (st : PackState D) : Idle st (question? st).2 := by
  unfold question?
  split
  · exact idle_advance
  · exact .refl

theorem quiet_scanStrings (left : Nat) (st : PackState D) (v : Strings) : Quiet st (scanStrings left st v) := by
  induction left generalizing st v with
  | zero => exact quiet_error .refl (by decide)
  | succ left ih =>
    rw [scanStrings]
    split
    next str args hargs =>
      have hbefore := (idle_args args).trans (idle_question { st with args })
      refine Quiet.trans hbefore (quiet_stringSize.bind fun n u hu => ?_)
      have hafter := idle_question u
      dsimp only
      split
      · exact hafter
      · split
        · exact quiet_error hafter (by decide)
        · exact Quiet.trans (hafter.trans idle_advance) (ih _ _)
    next => exact quiet_argument

theorem idle_alloc (st : PackState D) : Idle st (alloc st).2 := by
  unfold alloc
  split
  · exact .refl
  · exact ⟨⟨rfl, rfl, Nat.le_refl _⟩, rfl⟩

theorem quiet_newObject {obj : Option (JsonObject D)} : Quiet st (newObject st obj) := by
  have hidle := idle_alloc st
  unfold newObject
  split
  · next h =>
    rw [h] at hidle
    exact hidle
  · next h =>
    rw [h] at hidle
    exact quiet_error hidle (by decide)

private theorem quiet_packObject : Quiet st (packObject st) := by
  unfold packObject
  split
  · split
    · exact idle_advance.trans (idle_args _)
    · split
      · exact quiet_error (idle_args _) (by decide)
      · exact idle_args _
  · exact quiet_argument

private theorem quiet_encodeBytes {p : Option Bytes} {n : UInt64} {url : Bool} :
    Quiet st (encodeBytes strings st p n url) := by
  unfold encodeBytes
  split
  · exact .refl
  split
  · exact .refl
  split
  · exact quiet_read
  split
  · exact quiet_error (idle_alloc st) (by decide)
  dsimp only
  split
  · exact Quiet.trans (idle_alloc st) quiet_newObject
  · exact quiet_read

private theorem quiet_packBytes {url : Bool} : Quiet st (packBytes strings st url) := by
  unfold packBytes
  split
  · refine Quiet.trans (idle_args _) (quiet_encodeBytes.bind fun obj u _ => ?_)
    dsimp only
    split
    · exact idle_advance
    · split
      · exact quiet_newObject
      · exact .refl
  · exact quiet_argument

/-- The other items than the strings and the ends of containers. -/
theorem quiet_packItem {c : UInt8} (hs : c ≠ lowerS) (hc : c ≠ rbrace ∧ c ≠ rbracket) :
    Quiet st (packItem strings st c) := by
  unfold packItem
  rw [if_neg hs]
  split
  · exact .refl
  split
  · split
    · exact Quiet.trans (idle_args _) quiet_newObject
    · exact quiet_argument
  split
  · split
    · exact Quiet.trans (idle_args _) quiet_newObject
    · exact quiet_argument
  split
  · split
    · exact Quiet.trans (idle_args _) quiet_newObject
    · exact quiet_argument
  split
  · split
    · exact Quiet.trans (idle_args _) quiet_newObject
    · exact quiet_argument
  split
  · exact quiet_packObject
  split
  · exact quiet_packBytes
  rw [if_neg (not_or.mpr hc)]
  exact quiet_error .refl (by decide)

/-- The strings. -/
theorem reads_packString :
    Meets (fun x => Reads st x.2) (Stops true st) (packString strings st) := by
  refine Meets.bind ((quiet_scanStrings _ _ _).mono (fun _ h => h) fun _ => Stops.mono) fun x hx => ?_
  dsimp only
  split
  · split
    · next s _ =>
      have hcopied : Reads st { x.2 with scratch := { x.2.scratch.reserve x.1.sz with s } } :=
        hx.toReads.trans ⟨rfl, rfl, Nat.le_refl _⟩
      exact quiet_newObject.mono (fun _ h => hcopied.trans h.toReads) fun _ h => .trans hcopied (.mono h)
    · exact fun _ => rfl
  · split
    · exact hx.toReads
    · exact ⟨hx.toReads, by decide⟩

end

/-! The end of an iteration. -/

/-- What the second switch and the brackets leave alone. -/
def Stays (st : PackState D) : PackState D ⊕ JsonObject D → Prop
  | .inl st' => st'.scratch = st.scratch ∧ st'.d.length ≤ st.d.length
  | .inr _ => True

/-- No end is for a write. -/
def NoWrite : Stop (PackState D) → Prop
  | .error _ _ => True
  | .fault f => f ≠ .write

section
variable {st st' : PackState D} {obj : JsonObject D} {c : UInt8}

theorem stays_packStore : Meets (Stays st) NoWrite (packStore st obj) := by
  have hd : (if cur st.d = star then advance st.d else st.d).length ≤ st.d.length := by
    split
    · exact advance_length_le _
    · exact Nat.le_refl _
  unfold packStore
  split
  · trivial
  dsimp only
  split
  · split
    · trivial
    · split <;> trivial
  split
  · exact ⟨rfl, hd⟩
  split
  · split
    · trivial
    · exact ⟨rfl, Nat.le_refl _⟩
  split
  · exact ⟨rfl, hd⟩
  · trivial

theorem packItem_close (hc : c = rbrace ∨ c = rbracket) : packItem strings st c = packClose st c := by
  rcases hc with rfl | rfl <;> rfl

private theorem stays_packClose :
    Meets (fun x => x.2.scratch = st.scratch ∧ x.2.d.length ≤ st.d.length) NoWrite (packClose st c) := by
  unfold packClose
  split
  · split
    · trivial
    · exact ⟨rfl, Nat.le_refl _⟩
  · trivial

theorem stays_packOpen : Meets (fun u => u.scratch = st.scratch ∧ u.d.length ≤ st.d.length) NoWrite
    (packOpen st c) := by
  have hidle := idle_alloc st
  unfold packOpen
  split
  · split
    · next h =>
      rw [h] at hidle
      exact ⟨hidle.scratch, hidle.length⟩
    · trivial
  · trivial

private theorem Stops.noWrite {stop : Stop (PackState D)} (h : Stops false st stop) : NoWrite stop := by
  cases stop with
  | error e u => trivial
  | fault f => exact fun hf => absurd (h hf) Bool.false_ne_true

/-- An item that is not a string. -/
theorem stays_packItem (hs : c ≠ lowerS) :
    Meets (fun x => x.2.scratch = st.scratch ∧ x.2.d.length ≤ st.d.length) NoWrite (packItem strings st c) := by
  by_cases hc : c = rbrace ∨ c = rbracket
  · rw [packItem_close hc]
    exact stays_packClose
  · exact (quiet_packItem hs (not_or.mp hc)).mono (fun _ h => ⟨h.scratch, h.length⟩) fun _ => Stops.noWrite

private theorem packItem_length : Meets (fun x => x.2.d.length ≤ st.d.length) (fun _ => True)
    (packItem strings st c) := by
  by_cases hs : c = lowerS
  · rw [hs]
    exact reads_packString.mono (fun _ h => h.length) fun _ _ => trivial
  · exact (stays_packItem hs).mono (fun _ h => h.2) fun _ _ => trivial

theorem packStep_nil (h : st.stack = []) : packStep strings st = .error (.error .internalError st) := by
  unfold packStep
  split
  · rfl
  · next hcons => rw [h] at hcons; cases hcons

/-- An iteration, by the slot that top points to. -/
theorem packStep_eq {top : PackFrame D} {below : List (PackFrame D)} (h : st.stack = top :: below) :
    packStep strings st =
      if cur st.d = 0 then .error (.error .truncated st)
      else if cur st.d ∉ top.acc then .error (.error .invalidCharacter st)
      else if cur st.d = lbracket ∨ cur st.d = lbrace then
        (packOpen { st with d := advance st.d } (cur st.d)).map .inl
      else (packItem strings { st with d := advance st.d } (cur st.d)).bind fun x => packStore x.2 x.1 := by
  unfold packStep
  split
  · next hnil => rw [h] at hnil; cases hnil
  · next hcons => rw [h] at hcons; cases hcons; rfl

/-- An iteration for a string. -/
theorem packStep_string {top : PackFrame D} {below : List (PackFrame D)} (h : st.stack = top :: below)
    (hs : cur st.d = lowerS) : packStep strings st =
      if lowerS ∉ top.acc then .error (.error .invalidCharacter st)
      else (packString strings { st with d := advance st.d }).bind fun x => packStore x.2 x.1 := by
  rw [packStep_eq h, hs, if_neg (by decide)]
  split
  · rfl
  · exact if_neg (by decide)

/-- The characters are read one after the other. -/
theorem packStep_length (h : packStep strings st = .ok (.inl st')) : st'.d.length < st.d.length := by
  have hmeets : Meets (fun x => ∀ u, x = .inl u → u.d.length < st.d.length) (fun _ => True)
      (packStep strings st) := by
    unfold packStep
    split
    · trivial
    dsimp only
    split
    · trivial
    next hc =>
      split
      · trivial
      have hlt := advance_length hc
      split
      · refine Meets.map (stays_packOpen.mono (fun u hu v hv => ?_) fun _ _ => trivial)
        cases hv
        exact Nat.lt_of_le_of_lt hu.2 hlt
      · refine Meets.bind packItem_length fun x hx => stays_packStore.mono (fun y hy u hu => ?_) fun _ _ => trivial
        rw [hu] at hy
        exact Nat.lt_of_le_of_lt (Nat.le_trans hy.2 hx) hlt
  rw [h] at hmeets
  exact hmeets st' rfl

end

/-- The loop ends. -/
theorem packRun_isSome (desc : Option Bytes) (args : List (PackArg D)) (mem : List Bool) :
    ∃ r, packRun strings desc args mem = some r := by
  cases desc with
  | none => exact ⟨_, rfl⟩
  | some desc =>
    exact exists_iterate (fun _ _ => packStep_length) (Nat.lt_succ_of_le (skip_length desc))

end AfbBinder.WrapJson
