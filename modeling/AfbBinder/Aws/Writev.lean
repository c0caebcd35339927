import Mathlib.Algebra.GroupWithZero.Nat
import Mathlib.Algebra.Ring.Int.Defs
import Mathlib.Data.List.Basic
import Mathlib.Tactic.ByContra

/-! The writing of vectors of bytes to the socket of a websocket connection:
aws_writev sends again what writev did not take. -/
namespace AfbBinder.Aws

abbrev Bytes := List UInt8

/-- struct iovec: where the bytes are and how many. -/
structure Iovec where
  iov_base : Nat
  iov_len : Nat
deriving DecidableEq, Repr

/-- The entry lies in the half of the address space that a process has. -/
def Iovec.Inside (v : Iovec) : Prop := v.iov_base + v.iov_len < 2 ^ 63

instance (v : Iovec) : Decidable v.Inside := inferInstanceAs (Decidable (_ < _))

/-- An array of a caller: every entry designates memory that the process can have. -/
abbrev Iovecs := { l : List Iovec // ∀ v ∈ l, v.Inside }

/-- The bytes that an entry designates. -/
def Iovec.bytes (memory : Nat → UInt8) (v : Iovec) : Bytes :=
  (List.range v.iov_len).map fun k => memory (v.iov_base + k)

/-- The concatenation of the entries. -/
def contents (memory : Nat → UInt8) (l : List Iovec) : Bytes := l.flatMap (Iovec.bytes memory)

/-- The conversion to ssize_t. -/
def toSsize (n : Int) : Int := n.bmod (2 ^ 64)

/-- The conversion to size_t. -/
def toSize (n : Int) : Nat := (n % 2 ^ 64).toNat

inductive Errno
  | EINTR | EAGAIN | EINVAL
  | other (code : Nat)
deriving DecidableEq, Repr

/-- What a call of writev meets: an error, or a socket that has room for some bytes
and takes that many of those offered, all of them when they are fewer. -/
inductive Attempt
  | failed (errno : Errno)
  | room (n : Nat)
deriving DecidableEq, Repr

/-- The variables of aws_writev, with the caller's array, the one allocated for
the entries still to be sent, none before it is, and what writev took so far.
Both pointers are indexes, iov in the caller's array and iov2 in the array in use. -/
structure Writing where
  caller : List Iovec
  iov : Nat
  copy : Option (List Iovec)
  iov2 : Nat
  iovcnt : Nat
  dsz : Int
  accepted : Bytes
deriving DecidableEq, Repr

/-- The array in which iov2 points. -/
def Writing.array (st : Writing) : List Iovec := st.copy.getD st.caller

/-- Reading n entries from an index, none when one is beyond the array. -/
def entries (l : List Iovec) (i n : Nat) : Option (List Iovec) :=
  if i + n ≤ l.length then some ((l.drop i).take n) else none

/-- Writing the entry at iov2, in the array in which it points. -/
def Writing.store (st : Writing) (v : Iovec) : Writing :=
  match st.copy with
  | some copied => { st with copy := some (copied.set st.iov2 v) }
  | none => { st with caller := st.caller.set st.iov2 v }

/-- The count of the entries written whole and what was written of the next one. -/
def skipWritten : List Iovec → Int → Option (Nat × Int)
  | [], _ => none
  | v :: rest, rc =>
    if toSsize v.iov_len ≤ rc then
      (skipWritten rest (rc - toSsize v.iov_len)).map fun (i, rc) => (i + 1, rc)
    else some (0, rc)

/-- The first entry loses the bytes already written. -/
def Writing.advance (st : Writing) (rc : Int) : Option Writing :=
  st.array[st.iov2]?.map fun v =>
    st.store { iov_base := toSize (v.iov_base + rc), iov_len := toSize (v.iov_len - rc) }

/-- Making iov2 point i entries further: the first time the entries left are copied. -/
def Writing.pass (st : Writing) (i : Nat) : Option Writing :=
  match st.copy with
  | some _ => some { st with iovcnt := st.iovcnt - i, iov2 := st.iov2 + i }
  | none => (entries st.caller (st.iov + i) (st.iovcnt - i)).map fun copied =>
      { st with iovcnt := st.iovcnt - i, iov := st.iov + i, copy := some copied, iov2 := 0 }

/-- What follows a write of rc bytes that did not send everything. -/
def Writing.resume (st : Writing) (rc : Int) : Option Writing :=
  (skipWritten (st.array.drop st.iov2) rc).bind fun (i, rc) =>
    (st.pass i).bind fun st => st.advance rc

/-- The end of the run: the value returned with errno when it was set, or the
loop waits for the next attempt. -/
inductive Outcome
  | returned (rc : Int) (errno : Option Errno) (st : Writing)
  | waiting (st : Writing)
deriving DecidableEq, Repr

def Outcome.state : Outcome → Writing
  | returned _ _ st => st
  | waiting st => st

/-- The loop over the attempts to write. The call of poll after an attempt that
took nothing or not enough only waits. None is an access beyond an array. -/
def writeLoop (memory : Nat → UInt8) (sz : Int) : List Attempt → Writing → Option Outcome
  | [], st => some (.waiting st)
  | attempt :: rest, st =>
    (entries st.array st.iov2 st.iovcnt).bind fun vs =>
      match attempt with
      | .failed e =>
        if e = .EINTR ∨ e = .EAGAIN then writeLoop memory sz rest st
        else some (.returned (-1) (some e) st)
      | .room n =>
        let taken := (contents memory vs).take n
        let st := { st with dsz := st.dsz - taken.length, accepted := st.accepted ++ taken }
        if st.dsz = 0 then some (.returned sz none st)
        else (st.resume taken.length).bind fun st => writeLoop memory sz rest st

/-- The sum of the lengths in a ssize_t, an error when it gets negative. -/
def addSizes : List Iovec → Int → Except Errno Int
  | [], dsz => .ok dsz
  | v :: rest, dsz =>
    if toSsize (dsz + v.iov_len) < 0 then .error .EINVAL else addSizes rest (toSsize (dsz + v.iov_len))

def Writing.start (iovecs : List Iovec) (dsz : Int) : Writing :=
  { caller := iovecs, iov := 0, copy := none, iov2 := 0, iovcnt := iovecs.length, dsz, accepted := [] }

def awsWritev (memory : Nat → UInt8) (iovecs : List Iovec) (attempts : List Attempt) : Option Outcome :=
  match addSizes iovecs 0 with
  | .error e => some (.returned (-1) (some e) (.start iovecs 0))
  | .ok dsz =>
    if dsz = 0 then some (.returned 0 none (.start iovecs 0))
    else writeLoop memory dsz attempts (.start iovecs dsz)

section
variable {memory : Nat → UInt8} {l : List Iovec} {v : Iovec} {n : Nat} {rc dsz sz : Int} {st : Writing}

@[simp] theorem Iovec.bytes_length : (v.bytes memory).length = v.iov_len := by
  simp [Iovec.bytes]

@[simp] theorem contents_nil : contents memory [] = [] := rfl

@[simp] theorem contents_cons : contents memory (v :: l) = v.bytes memory ++ contents memory l :=
  List.flatMap_cons

private theorem toSsize_of_lt (hl : -2 ^ 63 ≤ dsz) (hr : dsz < 2 ^ 63) : toSsize dsz = dsz :=
  Int.bmod_eq_of_le (by omega) (by omega)

private theorem Iovec.Inside.toSsize (h : v.Inside) : toSsize v.iov_len = v.iov_len := by
  simp only [Iovec.Inside] at h
  exact toSsize_of_lt (by omega) (by omega)

private theorem toSize_of_lt (hl : 0 ≤ dsz) (hr : dsz < 2 ^ 64) : (toSize dsz : Int) = dsz := by
  rw [toSize]
  omega

/-- The entry after its first bytes. -/
def Iovec.after (v : Iovec) (n : Nat) : Iovec := { iov_base := v.iov_base + n, iov_len := v.iov_len - n }

private theorem Iovec.after_eq (h : v.Inside) (hn : n ≤ v.iov_len) :
    Iovec.mk (toSize (v.iov_base + n)) (toSize (v.iov_len - n)) = v.after n := by
  simp only [Iovec.Inside] at h
  have hbase := @toSize_of_lt (v.iov_base + n) (by omega) (by omega)
  have hlen := @toSize_of_lt (v.iov_len - n) (by omega) (by omega)
  rw [Iovec.after, Iovec.mk.injEq]
  omega

private theorem Iovec.Inside.after (h : v.Inside) (hn : n ≤ v.iov_len) : (v.after n).Inside := by
  simp only [Iovec.Inside, Iovec.after] at *
  omega

private theorem Iovec.bytes_after : (v.after n).bytes memory = (v.bytes memory).drop n := by
  apply List.ext_getElem
  · simp [Iovec.after]
  · intro k h1 h2
    simp [Iovec.bytes, Iovec.after, Nat.add_assoc]

private theorem entries_full {i : Nat} (h : i + n = l.length) : entries l i n = some (l.drop i) := by
  rw [entries, if_pos (Nat.le_of_eq h), List.take_of_length_le (by rw [List.length_drop]; omega)]

/-- The first byte not written is in an entry of the array. -/
theorem skipWritten_spec (hl : ∀ v ∈ l, v.Inside) (hn : n < (contents memory l).length) :
    ∃ i v rest, ∃ r : Nat, skipWritten l n = some (i, (r : Int)) ∧ l.drop i = v :: rest ∧ r < v.iov_len ∧
      (contents memory l).drop n = (contents memory (v :: rest)).drop r := by
  induction l generalizing n with
  | nil => simp at hn
  | cons v l ih =>
    obtain ⟨hv, hl⟩ := List.forall_mem_cons.mp hl
    rw [contents_cons, List.length_append, Iovec.bytes_length] at hn
    by_cases hle : v.iov_len ≤ n
    · obtain ⟨i, w, rest, r, hskip, hdrop, hr, heq⟩ := ih hl (n := n - v.iov_len) (by omega)
      refine ⟨i + 1, w, rest, r, ?_, hdrop, hr, ?_⟩
      · rw [skipWritten, hv.toSsize, if_pos (by omega), ← Int.ofNat_sub hle, hskip]
        rfl
      · rw [contents_cons, List.drop_append, List.drop_of_length_le (by simpa using hle), Iovec.bytes_length,
          heq, List.nil_append]
    · refine ⟨0, v, l, n, ?_, rfl, by omega, rfl⟩
      rw [skipWritten, hv.toSsize, if_neg (by omega)]

end

/-- The pointers and the count designate entries of the array in use, the
caller's array being as it was. -/
structure Writing.Placed (l : List Iovec) (st : Writing) : Prop where
  caller : st.caller = l
  first : st.copy = none → st.iov = st.iov2
  count : st.iov2 + st.iovcnt = st.array.length
  inside : ∀ v ∈ st.array.drop st.iov2, v.Inside

/-- The bytes still to be sent. -/
def Writing.left (memory : Nat → UInt8) (st : Writing) : Bytes :=
  contents memory (st.array.drop st.iov2)

/-- What writev took with what is left is the concatenation of the entries. -/
structure Writing.Sound (memory : Nat → UInt8) (l : List Iovec) (st : Writing) : Prop extends
    Writing.Placed l st where
  sent : st.accepted ++ st.left memory = contents memory l
  remaining : st.dsz = (st.left memory).length

section
variable {memory : Nat → UInt8} {l : List Iovec} {n : Nat} {st : Writing}

/-- After the entries written whole the array in use is the copy. -/
theorem Writing.Placed.pass (h : st.Placed l) {i : Nat} (hi : i ≤ st.iovcnt) :
    ∃ st' copied, st.pass i = some st' ∧ st'.caller = st.caller ∧ st'.dsz = st.dsz ∧ st'.accepted = st.accepted ∧
      st'.copy = some copied ∧ copied.drop st'.iov2 = st.array.drop (st.iov2 + i) ∧
      st'.iov2 + st'.iovcnt = copied.length := by
  obtain ⟨-, hfirst, hcount, -⟩ := h
  obtain ⟨caller, iov, copy, iov2, iovcnt, dsz, accepted⟩ := st
  cases copy with
  | none =>
    obtain rfl : iov = iov2 := hfirst rfl
    have hread : entries caller (iov + i) (iovcnt - i) = some (caller.drop (iov + i)) := by
      apply entries_full
      simp only [Writing.array, Option.getD_none] at hcount hi
      omega
    refine ⟨⟨caller, iov + i, some (caller.drop (iov + i)), 0, iovcnt - i, dsz, accepted⟩,
      caller.drop (iov + i), ?_, rfl, rfl, rfl, rfl, rfl, ?_⟩
    · simp only [Writing.pass, hread, Option.map_some]
    · simp only [Writing.array, Option.getD_none, List.length_drop] at hcount ⊢
      omega
  | some copied =>
    refine ⟨_, copied, rfl, rfl, rfl, rfl, rfl, rfl, ?_⟩
    simp only [Writing.array, Option.getD_some] at hcount hi ⊢
    omega

variable (memory) in
/-- Only the copy is written. -/
theorem Writing.resume_spec (h : st.Placed l) (hn : n < (st.left memory).length) :
    ∃ st', st.resume n = some st' ∧ st'.Placed l ∧ st'.dsz = st.dsz ∧ st'.accepted = st.accepted ∧
      st'.left memory = (st.left memory).drop n := by
  obtain ⟨i, v, rest, r, hskip, hdrop, hr, hleft⟩ := skipWritten_spec h.inside hn
  rw [List.drop_drop] at hdrop
  have hlen := congrArg List.length hdrop
  have hcount := h.count
  rw [List.length_drop, List.length_cons] at hlen
  obtain ⟨st', copied, hpass, hcaller, hdsz, haccepted, hcopy, htail, hcount'⟩ := h.pass (i := i) (by omega)
  have hv : v.Inside := h.inside v (List.mem_of_mem_drop (i := i) (by rw [List.drop_drop, hdrop]; simp))
  have hrest : ∀ w ∈ rest, w.Inside := fun w hw =>
    h.inside w (List.mem_of_mem_drop (i := i) (by rw [List.drop_drop, hdrop]; simp [hw]))
  rw [hdrop] at htail
  have hat : copied[st'.iov2]? = some v := by
    rw [← List.head?_drop, htail, List.head?_cons]
  obtain ⟨caller, iov, copy, iov2, iovcnt, dsz, accepted⟩ := st'
  obtain rfl : copy = some copied := hcopy
  have hset : (copied.set iov2 (v.after r)).drop iov2 = v.after r :: rest := by
    rw [List.drop_set, if_neg (Nat.lt_irrefl iov2), Nat.sub_self, htail, List.set_cons_zero]
  refine ⟨⟨caller, iov, some (copied.set iov2 (v.after r)), iov2, iovcnt, dsz, accepted⟩, ?_, ⟨?_, ?_, ?_, ?_⟩,
    hdsz, haccepted, ?_⟩
  · rw [Writing.resume, hskip, Option.bind_some]
    dsimp only
    rw [hpass, Option.bind_some, Writing.advance]
    simp only [Writing.array, Option.getD_some, hat, Option.map_some, Iovec.after_eq hv (Nat.le_of_lt hr)]
    rfl
  · exact hcaller.trans h.caller
  · intro hnone
    cases hnone
  · simpa [Writing.array] using hcount'
  · simp only [Writing.array, Option.getD_some, hset]
    exact List.forall_mem_cons.mpr ⟨hv.after (Nat.le_of_lt hr), hrest⟩
  · have hdropped : ((v.bytes memory) ++ contents memory rest).drop r =
        (v.bytes memory).drop r ++ contents memory rest := by
      rw [List.drop_append_of_le_length (by rw [Iovec.bytes_length]; exact (Nat.le_of_lt hr))]
    simp only [Writing.left, Writing.array, Option.getD_some, hset]
    rw [contents_cons, Iovec.bytes_after, ← hdropped, ← contents_cons, ← hleft]
    rfl

/-- The loop keeps what was sent and what is left the two parts of the whole; it
returns a count only when all is sent. -/
theorem writeLoop_spec (sz : Int) (h : st.Sound memory l) (attempts : List Attempt) :
    ∃ outcome, writeLoop memory sz attempts st = some outcome ∧ outcome.state.caller = l ∧
      outcome.state.accepted <+: contents memory l ∧
      ∀ rc e st', outcome = .returned rc e st' → 0 ≤ rc → rc = sz ∧ st'.accepted = contents memory l := by
  induction attempts generalizing st with
  | nil =>
    refine ⟨.waiting st, rfl, h.caller, ⟨_, h.sent⟩, ?_⟩
    intro rc e st' heq
    cases heq
  | cons attempt rest ih =>
    rw [writeLoop, entries_full h.count, Option.bind_some]
    cases attempt with
    | failed e =>
      dsimp only
      split
      · exact ih h
      · refine ⟨_, rfl, h.caller, ⟨_, h.sent⟩, ?_⟩
        intro rc e' st' heq hrc
        cases heq
        omega
    | room n =>
      dsimp only
      rw [show contents memory (st.array.drop st.iov2) = st.left memory from rfl]
      have hsent : st.accepted ++ (st.left memory).take n ++ (st.left memory).drop n = contents memory l := by
        rw [List.append_assoc, List.take_append_drop, h.sent]
      have hleft : st.dsz - ((st.left memory).take n).length = ((st.left memory).drop n).length := by
        rw [h.remaining, List.length_take, List.length_drop]
        omega
      split
      next hzero =>
        rw [hleft, Int.natCast_eq_zero, List.length_eq_zero_iff] at hzero
        rw [hzero, List.append_nil] at hsent
        refine ⟨_, rfl, h.caller, ⟨[], (List.append_nil _).trans hsent⟩, ?_⟩
        intro rc e st' heq hrc
        cases heq
        exact ⟨rfl, hsent⟩
      next hmore =>
        have hn : n < (st.left memory).length := by
          rw [hleft, List.length_drop] at hmore
          omega
        have htake : ((st.left memory).take n).length = n := by
          rw [List.length_take]
          omega
        rw [htake] at hleft ⊢
        have hplaced : Writing.Placed l
            { st with dsz := st.dsz - n, accepted := st.accepted ++ (st.left memory).take n } :=
          ⟨h.caller, h.first, h.count, h.inside⟩
        obtain ⟨st', hresume, hplaced', hdsz, haccepted, hleft'⟩ :=
          Writing.resume_spec memory hplaced hn
        rw [hresume, Option.bind_some]
        apply ih
        exact ⟨hplaced', by rw [haccepted, hleft']; exact hsent, by rw [hdsz, hleft']; exact hleft⟩

end

theorem addSizes_spec {l : List Iovec} {dsz sz : Int} (hl : ∀ v ∈ l, v.Inside) (hdsz : 0 ≤ dsz)
    (hlt : dsz < 2 ^ 63) (h : addSizes l dsz = .ok sz) : sz = dsz + (l.map Iovec.iov_len).sum := by
  induction l generalizing dsz with
  | nil =>
    cases h
    simp
  | cons v l ih =>
    obtain ⟨hv, hl⟩ := List.forall_mem_cons.mp hl
    simp only [Iovec.Inside] at hv
    rw [addSizes] at h
    split at h
    · cases h
    next hpos =>
      -- two summands below 2^63 do not reach 2^64, so a carry shows as a negative sum
      have hno : dsz + v.iov_len < 2 ^ 63 := by
        by_contra hcarry
        apply hpos
        rw [toSsize, Int.bmod_def, if_neg (by omega)]
        omega
      rw [toSsize_of_lt (by omega) hno] at h hpos
      rw [ih hl (by omega) hno h, List.map_cons, List.sum_cons]
      omega

theorem contents_length (memory : Nat → UInt8) {l : List Iovec} :
    (contents memory l).length = (l.map Iovec.iov_len).sum := by
  rw [contents, List.length_flatMap]
  congr 2
  funext v
  exact Iovec.bytes_length

/-- No access is beyond an array and the caller's array stays as it was; when the
value returned is a length, writev took each byte of the entries once, in order,
and that length is theirs. -/
theorem awsWritev_sends (memory : Nat → UInt8) (iovecs : Iovecs) (attempts : List Attempt) :
    ∃ outcome, awsWritev memory iovecs attempts = some outcome ∧ outcome.state.caller = iovecs ∧
      outcome.state.accepted <+: contents memory iovecs ∧
      ∀ rc e st, outcome = .returned rc e st → 0 ≤ rc →
        st.accepted = contents memory iovecs ∧ rc = (iovecs.val.map Iovec.iov_len).sum := by
  obtain ⟨l, hl⟩ := iovecs
  rw [awsWritev]
  cases hsum : addSizes l 0 with
  | error e =>
    refine ⟨_, rfl, rfl, List.nil_prefix, ?_⟩
    intro rc e' st heq hrc
    cases heq
    omega
  | ok dsz =>
    have htotal := addSizes_spec hl (Int.le_refl 0) (by decide) hsum
    rw [Int.zero_add, ← contents_length memory] at htotal
    dsimp only
    split
    next hzero =>
      refine ⟨_, rfl, rfl, List.nil_prefix, ?_⟩
      intro rc e' st heq hrc
      cases heq
      rw [hzero] at htotal
      have hnil : contents memory l = [] := List.length_eq_zero_iff.mp (by omega)
      refine ⟨hnil.symm, ?_⟩
      rw [← contents_length memory, ← htotal]
    next hmore =>
      have hsound : (Writing.start l dsz).Sound memory l :=
        ⟨⟨rfl, fun _ => rfl, Nat.zero_add _, hl⟩, rfl, htotal⟩
      obtain ⟨outcome, hloop, hcaller, hprefix, hall⟩ := writeLoop_spec dsz hsound attempts
      refine ⟨outcome, hloop, hcaller, hprefix, ?_⟩
      intro rc e st heq hrc
      obtain ⟨rfl, haccepted⟩ := hall rc e st heq hrc
      exact ⟨haccepted, by rw [← contents_length memory, ← htotal]⟩

/-- Three entries of which one is empty, sent in two writes with interruptions. -/
example : (awsWritev (fun a => a.toUInt8) [⟨10, 2⟩, ⟨50, 0⟩, ⟨20, 3⟩]
    [.room 1, .failed .EAGAIN, .room 2, .failed .EINTR, .room 9]).map
      (fun o => (o.state.accepted, o.state.caller)) =
    some ([10, 11, 20, 21, 22], [⟨10, 2⟩, ⟨50, 0⟩, ⟨20, 3⟩]) := by decide

end AfbBinder.Aws
