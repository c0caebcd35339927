import AfbBinder.Websock.Decoder

/-! What the code reads of the payloads: the unmasking does not depend on addresses nor on
cuts, aws_read waits for its bytes, websock_drop takes those at hand. -/
namespace AfbBinder.Websock
open Lib.Cstrings Lib.Chunks

section
variable (m : Mask)

theorem length_unmaskBytes (x : Bytes) : (unmaskBytes m x).1.length = x.length := by
  induction x generalizing m with
  | nil => rfl
  | cons b x ih => simp [unmaskBytes, ih]

theorem unmaskBytes_append (x y : Bytes) :
    unmaskBytes m (x ++ y) = ((unmaskBytes m x).1 ++ (unmaskBytes (unmaskBytes m x).2 y).1,
      (unmaskBytes (unmaskBytes m x).2 y).2) := by
  induction x generalizing m with
  | nil => rfl
  | cons b x ih => simp [unmaskBytes, ih]

theorem unmaskBytes_zero (x : Bytes) : unmaskBytes .zero x = (x, .zero) := by
  induction x with
  | nil => rfl
  | cons b x ih =>
    have hrotate : Mask.zero.rotate = .zero := rfl
    have hbyte : Mask.zero.b0 = 0 := rfl
    simp only [unmaskBytes, hrotate, ih, hbyte, UInt8.xor_zero]

private theorem unmaskWords_eq : ∀ x : Bytes, unmaskWords m x = unmaskBytes m x
  | b0 :: b1 :: b2 :: b3 :: x => by
    simp only [unmaskWords, unmaskBytes, Mask.rotate, unmaskWords_eq x]
  | [] => rfl
  | [_] => rfl
  | [_, _] => rfl
  | [_, _, _] => rfl

theorem unmask_eq (addr : Nat) (x : Bytes) : unmask addr m x = unmaskBytes m x := by
  induction x generalizing addr m with
  | nil => rfl
  | cons b x ih =>
    rw [unmask]
    split
    · rw [ih]
      rfl
    · exact unmaskWords_eq m (b :: x)

end

/-- The connection r with what the reads of s look at and change. -/
def Conn.beside (s r : Conn) : Conn :=
  { r with length := s.length, mask := s.mask, avail := s.avail, later := s.later, eof := s.eof }

section
variable {e : Env} {r : Conn} (s : Conn)

/-- A read looks at nothing else of the connection and changes nothing else of it. -/
theorem awsReadv_beside (size : Nat) :
    awsReadv size (s.beside r) = ((awsReadv size s).1, (awsReadv size s).2.beside r) := by
  unfold awsReadv Conn.beside
  dsimp only
  split
  · split <;> rfl
  · rfl

theorem websockRead_beside (h : r.wsState = s.wsState) (addr size : Nat) : websockRead addr size (s.beside r) =
    ((websockRead addr size s).1, (websockRead addr size s).2.beside r) := by
  unfold websockRead
  rw [show (s.beside r).wsState = s.wsState from h]
  split
  · rw [show (s.beside r).length = s.length from rfl, awsReadv_beside]
    cases awsReadv (min size s.length) s with
    | mk rc t => cases rc <;> rfl
  · rfl

/-- What a read leaves is the connection but for those fields. -/
theorem awsReadv_rest (size : Nat) : (awsReadv size s).2 = (awsReadv size s).2.beside s :=
  congrArg Prod.snd (awsReadv_beside (r := s) s size)

theorem websockRead_rest (addr size : Nat) :
    (websockRead addr size s).2 = (websockRead addr size s).2.beside s :=
  congrArg Prod.snd (websockRead_beside (r := s) s rfl addr size)

theorem websockDropLoop_beside (h : r.wsState = s.wsState) (fuel : Nat) :
    websockDropLoop e fuel (s.beside r) = (websockDropLoop e fuel s).beside r := by
  induction fuel generalizing s with
  | zero => rfl
  | succ fuel ih =>
    have hkept := congrArg Conn.wsState (websockRead_rest s e.stack 8000)
    rw [websockDropLoop, websockDropLoop, show (s.beside r).length = s.length from rfl]
    split
    · rfl
    · rw [websockRead_beside s h]
      cases hread : websockRead e.stack 8000 s with
      | mk rc t =>
        rw [hread] at hkept
        cases rc with
        | data b => exact ih t (h.trans hkept.symm)
        | again => rfl
        | closed => rfl

theorem websockDropLoop_rest (fuel : Nat) :
    websockDropLoop e fuel s = (websockDropLoop e fuel s).beside s :=
  websockDropLoop_beside (r := s) s rfl fuel

end

section
variable {s : Conn} {addr size : Nat}

/-- A read of the payload with bytes at hand. -/
theorem websockRead_data (hdata : s.wsState = .data) (ha : s.avail ≠ []) :
    websockRead addr size s = (.data (unmaskBytes s.mask (s.avail.take (min size s.length))).1,
      { s with
        avail := s.avail.drop (min size s.length)
        length := s.length - (s.avail.take (min size s.length)).length
        mask := (unmaskBytes s.mask (s.avail.take (min size s.length))).2 }) := by
  rw [websockRead, if_pos hdata, awsReadv, if_neg ha]
  by_cases hm : s.mask = .zero
  · simp only [hm, if_true, unmaskBytes_zero]
  · simp only [if_neg hm, unmask_eq]

private theorem websockRead_next {c : Bytes} {cs : List Bytes} (hdata : s.wsState = .data)
    (ha : s.avail = []) (hl : s.later = c :: cs) :
    websockRead addr size s = (.again, { s with avail := c, later := cs }) := by
  rw [websockRead, if_pos hdata, awsReadv, if_pos ha, hl]

private theorem websockRead_end (hdata : s.wsState = .data) (ha : s.avail = []) (hl : s.later = [])
    (he : s.eof = false) : websockRead addr size s = (.again, s) := by
  rw [websockRead, if_pos hdata, awsReadv, if_pos ha, hl, he]
  rfl

variable (addr size) in
/-- A read takes bytes of the stream and gives them unmasked, or waits. -/
theorem websockRead_cases (hdata : s.wsState = .data) :
    (∃ y t, websockRead addr size s = (.data (unmaskBytes s.mask y).1, t) ∧ s.stream = y ++ t.stream ∧
      t.wsState = .data ∧ t.length + y.length = s.length ∧ t.mask = (unmaskBytes s.mask y).2 ∧
      t.later = s.later ∧ (0 < size → 0 < s.length → y ≠ [])) ∨
    ∃ rc t, websockRead addr size s = (rc, t) ∧ (∀ b, rc ≠ .data b) ∧ t.stream = s.stream ∧ t.wsState = .data ∧
      t.length = s.length ∧ t.mask = s.mask ∧ (s.stream ≠ [] → t.later.length < s.later.length) := by
  by_cases ha : s.avail = []
  · right
    cases hl : s.later with
    | nil =>
      have hnone : s.stream = [] := by
        rw [Conn.stream, ha, hl]
        rfl
      refine ⟨if s.eof then .closed else .again, s, ?_, ?_, rfl, hdata, rfl, rfl, fun hne => absurd hnone hne⟩
      · rw [websockRead, if_pos hdata, awsReadv, if_pos ha, hl]
        cases s.eof <;> rfl
      · cases s.eof <;> rintro b ⟨⟩
    | cons c cs =>
      refine ⟨.again, _, websockRead_next hdata ha hl, ?_, ?_, hdata, rfl, rfl, fun _ => Nat.lt_succ_self _⟩
      · rintro b ⟨⟩
      · rw [Conn.stream, Conn.stream, ha, hl]
        rfl
  · left
    refine ⟨_, _, websockRead_data hdata ha, ?_, hdata, ?_, rfl, rfl, fun hsize hlength => ?_⟩
    · rw [Conn.stream, Conn.stream, ← List.append_assoc, List.take_append_drop]
    · have htake : (s.avail.take (min size s.length)).length ≤ s.length := by
        rw [List.length_take]
        omega
      exact Nat.sub_add_cancel htake
    · rw [Ne, List.take_eq_nil_iff]
      exact not_or.mpr ⟨by omega, ha⟩

end

/-- The whole payload is at hand: it is dropped. -/
theorem websockDrop_all (e : Env) {s : Conn} (hdata : s.wsState = .data)
    (hlen : s.length ≤ s.avail.length) :
    ∃ m, websockDrop e s = { s with length := 0, mask := m, avail := s.avail.drop s.length } := by
  suffices hloop : ∀ fuel (s : Conn), s.length ≤ fuel → s.wsState = .data →
      s.length ≤ s.avail.length → ∃ m, websockDropLoop e fuel s =
        { s with length := 0, mask := m, avail := s.avail.drop s.length } from
    hloop s.length s (Nat.le_refl _) hdata hlen
  intro fuel
  induction fuel with
  | zero =>
    intro s hfuel _ _
    have hz : s.length = 0 := Nat.le_zero.mp hfuel
    refine ⟨s.mask, ?_⟩
    rw [websockDropLoop, hz, List.drop_zero, ← hz]
  | succ fuel ih =>
    intro s hfuel hdata hlen
    rw [websockDropLoop]
    by_cases hz : s.length = 0
    · refine ⟨s.mask, ?_⟩
      rw [if_pos hz, hz, List.drop_zero, ← hz]
    · have ha : s.avail ≠ [] := by
        rintro h
        rw [h] at hlen
        exact hz (Nat.le_zero.mp hlen)
      have htake : (s.avail.take (min 8000 s.length)).length = min 8000 s.length := by
        rw [List.length_take]
        omega
      rw [if_neg hz, websockRead_data hdata ha]
      dsimp only
      rw [htake]
      obtain ⟨m, hm⟩ := ih { s with
        avail := s.avail.drop (min 8000 s.length)
        length := s.length - min 8000 s.length
        mask := (unmaskBytes s.mask (s.avail.take (min 8000 s.length))).2 }
        (by dsimp only; omega) hdata (by dsimp only; rw [List.length_drop]; omega)
      refine ⟨m, hm.trans ?_⟩
      dsimp only
      rw [List.drop_drop]
      congr 2
      omega

/-- A part of the payload is not there: websock_drop stops at the cut. -/
theorem websockDrop_cut (e : Env) {s : Conn} (hdata : s.wsState = .data)
    (hlen : s.avail.length < s.length) :
    ∃ m, websockDrop e s = { s with
      length := s.length - s.avail.length
      mask := m
      avail := s.later.headD []
      later := s.later.tail } := by
  suffices hloop : ∀ fuel (s : Conn), s.length ≤ fuel → s.wsState = .data →
      s.avail.length < s.length → ∃ m, websockDropLoop e fuel s = { s with
        length := s.length - s.avail.length
        mask := m
        avail := s.later.headD []
        later := s.later.tail } from
    hloop s.length s (Nat.le_refl _) hdata hlen
  intro fuel
  induction fuel with
  | zero =>
    intro s hfuel _ hlen
    omega
  | succ fuel ih =>
    intro s hfuel hdata hlen
    rw [websockDropLoop, if_neg (by omega)]
    by_cases ha : s.avail = []
    · refine ⟨s.mask, ?_⟩
      cases hl : s.later with
      | nil =>
        have hs : { s with
            length := s.length - s.avail.length
            avail := ([] : List Bytes).headD []
            later := ([] : List Bytes).tail } = s := by
          rw [ha, List.length_nil, Nat.sub_zero, List.headD_nil, List.tail_nil, ← ha, ← hl]
        rw [hs, websockRead, if_pos hdata, awsReadv, if_pos ha, hl]
        cases s.eof <;> rfl
      | cons c cs =>
        rw [websockRead_next hdata ha hl]
        simp [ha]
    · rw [websockRead_data hdata ha]
      dsimp only
      have hpos : 0 < s.avail.length := List.length_pos_iff.mpr ha
      have htake : (s.avail.take (min 8000 s.length)).length =
          min (min 8000 s.length) s.avail.length := List.length_take
      rw [htake]
      obtain ⟨m, hm⟩ := ih { s with
        avail := s.avail.drop (min 8000 s.length)
        length := s.length - min (min 8000 s.length) s.avail.length
        mask := (unmaskBytes s.mask (s.avail.take (min 8000 s.length))).2 }
        (by dsimp only; omega) hdata (by dsimp only; rw [List.length_drop]; omega)
      refine ⟨m, hm.trans ?_⟩
      dsimp only
      rw [List.length_drop]
      congr 1
      omega

/-- What websock_drop does: it drops the payload, or stops at a cut. -/
theorem websockDrop_spec (e : Env) {s : Conn} (hdata : s.wsState = .data) :
    ∃ x m a l n, Reads s.avail s.later x a l ∧ x.length + n = s.length ∧
      websockDrop e s = { s with length := n, mask := m, avail := a, later := l } ∧
      (n = 0 ∨ (x = s.avail ∧ a = s.later.headD [] ∧ l = s.later.tail)) := by
  by_cases hlen : s.length ≤ s.avail.length
  · obtain ⟨m, hm⟩ := websockDrop_all e hdata hlen
    exact ⟨s.avail.take s.length, m, s.avail.drop s.length, s.later, 0, .take _ _ _,
      by rw [List.length_take]; omega, hm, .inl rfl⟩
  · obtain ⟨m, hm⟩ := websockDrop_cut e hdata (Nat.lt_of_not_le hlen)
    refine ⟨s.avail, m, _, _, s.length - s.avail.length, ?_, by omega, hm, .inr ⟨rfl, rfl, rfl⟩⟩
    have hall := Reads.take s.avail s.later s.avail.length
    rw [List.take_length, List.drop_length] at hall
    cases hl : s.later with
    | nil => rwa [hl] at hall
    | cons c cs =>
      rw [hl] at hall
      simpa using hall.trans (.next c (.none c cs))

/-- These bytes of the payload are read into the buffer, the socket is left with others. -/
def Conn.readPayload (s : Conn) (x a : Bytes) (l : List Bytes) : Conn :=
  { s with
    length := s.length - x.length
    mask := (unmaskBytes s.mask x).2
    buffer := s.buffer ++ (unmaskBytes s.mask x).1
    avail := a
    later := l }

private theorem readPayload_nil (s : Conn) : s.readPayload [] s.avail s.later = s := by
  simp [Conn.readPayload, unmaskBytes]

private theorem readPayload_append (s : Conn) (x y a a' : Bytes) (l l' : List Bytes) :
    (s.readPayload x a l).readPayload y a' l' = s.readPayload (x ++ y) a' l' := by
  simp [Conn.readPayload, unmaskBytes_append, Nat.sub_sub]

/-- The loop of aws_read gives the payload, or the stream ends before. -/
theorem awsReadLoop_spec (e : Env) (fuel : Nat) {s : Conn}
    (hfuel : s.length + s.later.length + 1 ≤ fuel) (hdata : s.wsState = .data) (he : s.eof = false) :
    ∃ x a l, Reads s.avail s.later x a l ∧
      ((x.length = s.length ∧ awsReadLoop e fuel s.length s = (.done, s.readPayload x a l)) ∨
        (x.length < s.length ∧ a = [] ∧ l = [] ∧
          awsReadLoop e fuel s.length s = (.blocked, { s.readPayload x a l with blocked := true }))) := by
  induction fuel generalizing s with
  | zero => omega
  | succ fuel ih =>
    rw [awsReadLoop]
    by_cases hz : s.length = 0
    · refine ⟨[], s.avail, s.later, .none _ _, .inl ⟨hz.symm, ?_⟩⟩
      rw [if_pos hz, readPayload_nil]
    rw [if_neg hz]
    by_cases ha : s.avail = []
    · cases hl : s.later with
      | nil =>
        refine ⟨[], [], [], ?_, .inr ⟨Nat.pos_of_ne_zero hz, rfl, rfl, ?_⟩⟩
        · rw [ha]
          exact .none _ _
        · have hs : s.readPayload [] [] [] = s := by
            conv_rhs => rw [← readPayload_nil s, ha, hl]
          rw [websockRead_end hdata ha hl he, hs]
          rfl
      | cons c cs =>
        rw [websockRead_next hdata ha hl]
        dsimp only
        rw [if_neg (by simp)]
        rw [hl, List.length_cons] at hfuel
        obtain ⟨x, a, l, hreads, hend⟩ := ih (s := { s with avail := c, later := cs })
          (by dsimp only; omega) hdata he
        refine ⟨x, a, l, ?_, hend⟩
        rw [ha]
        exact .next c hreads
    · rw [websockRead_data hdata ha, Nat.min_self]
      dsimp only
      have hpos : 0 < s.avail.length := List.length_pos_iff.mpr ha
      have htake : (s.avail.take s.length).length = min s.length s.avail.length := List.length_take
      rw [length_unmaskBytes]
      obtain ⟨x, a, l, hreads, hend⟩ := ih
        (s := s.readPayload (s.avail.take s.length) (s.avail.drop s.length) s.later)
        (by dsimp only [Conn.readPayload]; omega) hdata he
      rw [readPayload_append] at hend
      refine ⟨s.avail.take s.length ++ x, a, l, (Reads.take _ _ _).trans hreads, ?_⟩
      rw [List.length_append]
      rcases hend with ⟨hlen, hrun⟩ | ⟨hlen, ha', hl', hrun⟩
      · refine .inl ⟨?_, hrun⟩
        dsimp only [Conn.readPayload] at hlen
        omega
      · refine .inr ⟨?_, ha', hl', hrun⟩
        dsimp only [Conn.readPayload] at hlen
        omega

theorem awsRead_spec (e : Env) {s : Conn} (hdata : s.wsState = .data) (he : s.eof = false) :
    ∃ x a l, Reads s.avail s.later x a l ∧
      ((x.length = s.length ∧ awsRead e s.length s = (.done, s.readPayload x a l)) ∨
        (x.length < s.length ∧ a = [] ∧ l = [] ∧
          awsRead e s.length s = (.blocked, { s.readPayload x a l with blocked := true }))) :=
  awsReadLoop_spec e _ (Nat.le_refl _) hdata he

end AfbBinder.Websock
