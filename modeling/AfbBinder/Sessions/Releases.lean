import AfbBinder.Sessions.Cookies
import AfbBinder.Sessions.Destruction

/-! The values kept with a releaser, from the call that stores them to their release. -/
namespace AfbBinder.Sessions
open Lib.Runs Lib.Updates

/-- The releasers that the cookies of a list keep, with their values. -/
def kept (l : List Cookie) : List (Nat × Nat) := l.filterMap fun x => x.freecb.map (·, x.value)

/-- What a call gives to keep with a releaser: the value it stores, or the value it made that
no cookie could take. -/
def CookieCall.takes (c : CookieCall) (mem : Bool) : Option Cookie → List (Nat × Nat)
  | none => if mem ∨ c.makecb.isSome then (c.freecb.map (·, c.value)).toList else []
  | some _ => if c.replace then (c.freecb.map (·, c.value)).toList else []

/-- What a cookie keeps with a releaser and gets again: this value is not released. -/
def CookieCall.again (c : CookieCall) : Option Cookie → List (Nat × Nat)
  | none => []
  | some x => if c.replace ∧ x.value = c.value then (x.freecb.map (·, x.value)).toList else []

/-- A value stored again passes to the releaser of the call. -/
def CookieCall.hands (c : CookieCall) (cookie : Option Cookie) : List (Nat × Nat) :=
  if c.freecb.isSome then c.again cookie else []

/-- A value stored again without releaser has none any more. -/
def CookieCall.strands (c : CookieCall) (cookie : Option Cookie) : List (Nat × Nat) :=
  if c.freecb.isSome then [] else c.again cookie

def taken (s : SessionSet) : Op → List (SessionId × Nat × Nat)
  | .cookie i key makecb freecb closure replace mem =>
    (CookieCall.takes ⟨key, makecb, freecb, closure, replace⟩ mem
      (cookieAt (s.session i) key)).map (i, ·)
  | _ => []

def handedOver (s : SessionSet) : Op → List (SessionId × Nat × Nat)
  | .cookie i key makecb freecb closure replace _ =>
    (CookieCall.hands ⟨key, makecb, freecb, closure, replace⟩
      (cookieAt (s.session i) key)).map (i, ·)
  | _ => []

def stranded (s : SessionSet) : Op → List (SessionId × Nat × Nat)
  | .cookie i key makecb freecb closure replace _ =>
    (CookieCall.strands ⟨key, makecb, freecb, closure, replace⟩
      (cookieAt (s.session i) key)).map (i, ·)
  | _ => []

/-- The set, with what its sessions took and what passed from a releaser to the next one. -/
structure Books where
  set : SessionSet
  stored : List (SessionId × Nat × Nat)
  handed : List (SessionId × Nat × Nat)

def Books.start : Books := ⟨.start, [], []⟩

def booksStep (b : Books) (op : Op) : Option Books :=
  (step b.set op).map fun t =>
    ⟨t, b.stored ++ taken b.set op, b.handed ++ handedOver b.set op⟩

/-- The cookies of the session that keep the value with the releaser. -/
def held (x : Session) (f v : Nat) : Nat := ∑ idx, (kept (x.cookies idx)).count (f, v)

/-- Each value stored with a releaser was released once, or is kept by a session that still
lives; nothing reaches a destroyed session. -/
def ReleasedOnce (b : Books) : Prop :=
  (∀ j f v, b.stored.count (j, f, v) = frees b.set j f v + b.handed.count (j, f, v) +
    if destroyed b.set j then 0 else held (b.set.session j) f v) ∧
  ∀ j, destroyed b.set j → b.set.owned j = 0 ∧ j ∉ linked b.set

section
variable {s t u : SessionSet} {i j : SessionId} {op : Op} {l : List Cookie}

private theorem kept_cons (x : Cookie) (l : List Cookie) :
    kept (x :: l) = (x.freecb.map (·, x.value)).toList ++ kept l := by
  unfold kept
  cases hx : x.freecb <;> simp [hx]

private theorem count_again (c : CookieCall) (cookie : Option Cookie) (p : Nat × Nat) :
    (c.again cookie).count p = (c.hands cookie).count p + (c.strands cookie).count p := by
  unfold CookieCall.hands CookieCall.strands
  split <;> simp

/-- What is released, kept or stored again was kept or is taken. -/
theorem scan_balance (c : CookieCall) (mem : Bool) (l : List Cookie) (p : Nat × Nat) :
    (c.scan mem l).2.2.count p + (kept (c.scan mem l).1).count p +
        (c.again (l.find? fun x => x.key = c.key)).count p =
      (kept l).count p + (c.takes mem (l.find? fun x => x.key = c.key)).count p := by
  induction l with
  | nil =>
    unfold CookieCall.scan cookieScan CookieCall.takes CookieCall.again CookieCall.value
    cases hf : c.freecb <;> cases hm : c.makecb <;> cases mem <;> cases hr : c.replace <;>
      simp [kept]
  | cons x l ih =>
    by_cases hx : x.key = c.key
    · rw [List.find?_cons, decide_eq_true hx, kept_cons]
      unfold CookieCall.scan cookieScan CookieCall.takes CookieCall.again
      rw [if_pos hx]
      cases hr : c.replace with
      | false => simp [kept_cons]
      | true =>
        have hv : c.makecb.getD c.closure = c.value := rfl
        simp only [if_true, hv, true_and]
        by_cases hsame : x.value = c.value
        · simp only [hsame, ne_eq, not_true_eq_false, if_false, if_true]
          split
          · rename_i hd
            simp [hd.2]
            omega
          · rw [kept_cons]
            simp only [List.count_append, List.count_nil]
            omega
        · simp only [ne_eq, hsame, not_false_eq_true, if_true, if_false]
          split
          · rename_i hd
            simp [hd.2]
          · rw [kept_cons]
            simp only [List.count_append, List.count_nil]
            omega
    · rw [List.find?_cons, decide_eq_false hx, kept_cons]
      unfold CookieCall.scan at ih ⊢
      unfold cookieScan
      rw [if_neg hx]
      dsimp only
      rw [kept_cons]
      simp only [List.count_append]
      omega

/-- The releases of a close, counted. -/
theorem count_releases (j : SessionId) (x : Session) (f v : Nat) :
    (releases j x).count (.freecb j f v) = held x f v := by
  have hlist : ∀ l : List Cookie, (l.filterMap fun c => c.freecb.map (Hook.freecb j · c.value)) =
      (kept l).map fun p => Hook.freecb j p.1 p.2 := by
    intro l
    unfold kept
    rw [List.map_filterMap]
    simp [Function.comp_def]
  rw [releases, List.count_flatMap, held, Fin.sum_univ_def]
  congr 1
  refine List.map_congr_left fun idx _ => ?_
  rw [Function.comp_apply, hlist]
  exact List.count_map_of_injective _ _ (hook_injective j) (f, v)

/-- The books balance when what destroyed sessions hold is counted. -/
def Balanced (b : Books) : Prop :=
  ∀ j f v, b.stored.count (j, f, v) =
    frees b.set j f v + b.handed.count (j, f, v) + held (b.set.session j) f v

private theorem count_tagged (i j : SessionId) (l : List (Nat × Nat)) (f v : Nat) :
    (l.map (i, ·)).count (j, f, v) = if i = j then l.count (f, v) else 0 := by
  by_cases hj : i = j
  · subst hj
    rw [if_pos rfl]
    exact List.count_map_of_injective l _ (Prod.mk_right_injective i) (f, v)
  · rw [if_neg hj, List.count_eq_zero]
    simp [hj]

private theorem taken_other (hop : ∀ key makecb freecb closure replace mem,
    op ≠ .cookie j key makecb freecb closure replace mem) (s : SessionSet) (f v : Nat) :
    (taken s op).count (j, f, v) = 0 ∧ (handedOver s op).count (j, f, v) = 0 ∧
      (stranded s op).count (j, f, v) = 0 := by
  cases op with
  | cookie i key makecb freecb closure replace mem =>
    have hne : i ≠ j := fun he => hop key makecb freecb closure replace mem (he ▸ rfl)
    have hnone (l : List (Nat × Nat)) : (l.map (i, ·)).count (j, f, v) = 0 :=
      (count_tagged i j l f v).trans (if_neg hne)
    exact ⟨hnone _, hnone _, hnone _⟩
  | _ => exact ⟨rfl, rfl, rfl⟩

private theorem held_congr {x y : Session} (h : y.cookies = x.cookies) (f v : Nat) :
    held y f v = held x f v := by
  rw [held, held, h]

private theorem held_empty {x : Session} (h : x.cookies = fun _ => []) (f v : Nat) :
    held x f v = 0 := by
  rw [held, h]
  simp [kept]

private theorem balanced_cookie (s : SessionSet) (j : SessionId) (key : Nat)
    (makecb freecb : Option Nat) (closure : Nat) (replace mem : Bool) (f v : Nat) :
    let op := Op.cookie j key makecb freecb closure replace mem
    let t := (afbSessionCookie s j key makecb freecb closure replace mem).2
    frees t j f v + (handedOver s op).count (j, f, v) + (stranded s op).count (j, f, v) +
        held (t.session j) f v =
      frees s j f v + (taken s op).count (j, f, v) + held (s.session j) f v := by
  intro op t
  obtain ⟨-, hcookies, hfrees⟩ := cookie_self s j key makecb freecb closure replace mem
  have hbalance := scan_balance ⟨key, makecb, freecb, closure, replace⟩ mem
    ((s.session j).cookies (cookeyidx key)) (f, v)
  have hsum := sum_update (s.session j).cookies (fun l => (kept l).count (f, v)) (cookeyidx key)
    (cookieScan key makecb freecb closure replace mem
      ((s.session j).cookies (cookeyidx key))).1
  have htaken : (taken s op).count (j, f, v) =
      (CookieCall.takes ⟨key, makecb, freecb, closure, replace⟩ mem
        (cookieAt (s.session j) key)).count (f, v) :=
    (count_tagged j j _ f v).trans (if_pos rfl)
  have hagain : (CookieCall.again ⟨key, makecb, freecb, closure, replace⟩
        (cookieAt (s.session j) key)).count (f, v) =
      (handedOver s op).count (j, f, v) + (stranded s op).count (j, f, v) := by
    rw [count_again, handedOver, stranded, count_tagged, count_tagged, if_pos rfl, if_pos rfl]
  rw [Nat.add_assoc (frees t j f v), ← hagain, hfrees, htaken, held, hcookies, held]
  unfold CookieCall.scan at hbalance
  unfold cookieAt
  dsimp only at hbalance hsum ⊢
  omega

/-- What the books miss after a call is what it left without releaser. -/
theorem balance_step {b b' : Books} (hs : Sound b.set) (hb : Balanced b)
    (h : booksStep b op = some b') (j : SessionId) (f v : Nat) :
    b'.stored.count (j, f, v) = frees b'.set j f v + b'.handed.count (j, f, v) +
      held (b'.set.session j) f v + (stranded b.set op).count (j, f, v) := by
  obtain ⟨t, ht, rfl⟩ := Option.map_eq_some_iff.mp h
  have hold := hb j f v
  dsimp only
  rw [List.count_append, List.count_append]
  by_cases hop : ∃ key makecb freecb closure replace mem,
      op = .cookie j key makecb freecb closure replace mem
  · obtain ⟨key, makecb, freecb, closure, replace, mem, rfl⟩ := hop
    obtain ⟨-, rfl⟩ := Option.ite_some_none_eq_some.mp ht
    have := balanced_cookie b.set j key makecb freecb closure replace mem f v
    dsimp only at this
    omega
  · have hne : ∀ key makecb freecb closure replace mem,
        op ≠ .cookie j key makecb freecb closure replace mem :=
      fun key makecb freecb closure replace mem he =>
        hop ⟨key, makecb, freecb, closure, replace, mem, he⟩
    obtain ⟨htaken, hhanded, hstranded⟩ := taken_other hne b.set f v
    rw [htaken, hhanded, hstranded]
    cases step_effect hs ht j with
    | kept closed cookies frees =>
      rw [frees, held_congr cookies]
      omega
    | closed _ _ _ cookies frees =>
      rw [frees, count_releases, held_empty cookies]
      omega
    | cookie _ key makecb freecb closure replace mem op => exact absurd op (hne _ _ _ _ _ _)

/-- The call does not store again, without releaser, a value that its cookie keeps with one, and
does not destroy a session that is closed already and keeps a value with its releaser. -/
def LeavesNothing (b : Books) (op : Op) : Prop :=
  (booksStep b op).isSome → stranded b.set op = [] ∧
    ∀ j, (b.set.session j).closed = true → Destroys b.set op j → ∀ f v, held (b.set.session j) f v = 0

private structure Kept (b : Books) : Prop where
  sound : Sound b.set
  shut : Shut b.set
  balanced : Balanced b
  empty : ∀ j, destroyed b.set j → ∀ f v, held (b.set.session j) f v = 0

private theorem kept_start : Kept .start := by
  refine ⟨sound_start, fun j hj => absurd hj (Nat.not_lt_zero j), fun j f v => ?_,
    fun j hd => absurd hd (Nat.lt_irrefl 0)⟩
  simp [Books.start, frees, held, kept, SessionSet.start, calloc]

private theorem destroyed_out (hi : Inv s) (hd : destroyed s j) : s.owned j = 0 ∧ j ∉ linked s := by
  obtain ⟨hc, hr, hn⟩ := (destroyed_iff hi j).mp hd
  refine ⟨(hi.owned j hc).symm.trans hr, fun hm => ?_⟩
  obtain ⟨idx, hm⟩ := mem_linked.mp hm
  exact (hi.notinset j hc).mp hn idx hm

private theorem released_once {b : Books} (hb : Kept b) : ReleasedOnce b := by
  refine ⟨fun j f v => ?_, fun j hd => destroyed_out hb.sound.inv hd⟩
  have hbalance := hb.balanced j f v
  split
  · rename_i hd
    rw [hb.empty j hd f v] at hbalance
    exact hbalance
  · exact hbalance

private theorem destroys_not_cookie (h : Destroys s op j) {key : Nat} {makecb freecb : Option Nat}
    {closure : Nat} {replace mem : Bool} (hop : op = .cookie i key makecb freecb closure replace mem) :
    False := by
  subst hop
  rcases h with ⟨he, -⟩ | ⟨force, hf, -⟩
  · cases he
  · cases hf

private theorem held_destroys (hs : Sound s) (h : step s op = some t)
    (hclosed : (s.session j).closed = true) (hd : Destroys s op j) (f v : Nat) :
    held (t.session j) f v = held (s.session j) f v := by
  cases step_effect hs h j with
  | kept _ cookies => exact held_congr cookies f v
  | closed _ isOpen => exact absurd hclosed (Bool.eq_false_iff.mp isOpen)
  | cookie _ _ _ _ _ _ _ hop => exact (destroys_not_cookie hd hop).elim

private theorem kept_step {b b' : Books} (hb : Kept b) (hc : LeavesNothing b op)
    (h : booksStep b op = some b') : Kept b' := by
  obtain ⟨t, ht, he⟩ := Option.map_eq_some_iff.mp h
  have hset : b'.set = t := he ▸ rfl
  have hsound := sound_step hb.sound ht
  have hshut := shut_step hb.sound hb.shut ht
  have hbalanced : Balanced b' := by
    intro j f v
    rw [balance_step hb.sound hb.balanced h, (hc (h ▸ rfl)).1, List.count_nil, Nat.add_zero]
  refine ⟨hset ▸ hsound, hset ▸ hshut, hbalanced, fun j hd f v => ?_⟩
  rw [hset] at hd ⊢
  rcases (destroyed_step hb.sound ht j).mp hd with hold | hnew
  · cases step_effect hb.sound ht j with
    | kept _ cookies => exact (held_congr cookies f v).trans (hb.empty j hold f v)
    | closed _ _ _ cookies => exact held_empty cookies f v
    | cookie _ _ _ _ _ _ _ hop =>
      subst hop
      obtain ⟨ho, -⟩ := Option.ite_some_none_eq_some.mp ht
      exact absurd (destroyed_out hb.sound.inv hold).1 (Nat.ne_of_gt ho)
  · by_cases hclosed : (b.set.session j).closed = true
    · rw [held_destroys hb.sound ht hclosed hnew]
      exact (hc (h ▸ rfl)).2 j hclosed hnew f v
    -- the call closes it: what is destroyed is out of the set, hence closed
    · obtain ⟨hj, -, hn⟩ := (destroyed_iff hsound.inv j).mp hd
      have hnow := hshut j hj hn
      cases step_effect hb.sound ht j with
      | kept closed => exact absurd (closed ▸ hnow) hclosed
      | closed _ _ _ cookies => exact held_empty cookies f v
      | cookie _ _ _ _ _ _ _ _ closed => exact absurd (closed ▸ hnow) hclosed

private theorem leaves_break {b : Books} (hb : Kept b) (hc : ¬ LeavesNothing b op) :
    ∃ b', booksStep b op = some b' ∧ ¬ ReleasedOnce b' := by
  unfold LeavesNothing at hc
  obtain ⟨hsome, hnot⟩ := Classical.not_imp.mp hc
  obtain ⟨b', h⟩ := Option.isSome_iff_exists.mp hsome
  refine ⟨b', h, fun hreleased => hnot ?_⟩
  have hbalance := balance_step hb.sound hb.balanced h
  constructor
  · refine List.eq_nil_iff_forall_not_mem.mpr ?_
    rintro ⟨j, f, v⟩ hmem
    have honce := hreleased.1 j f v
    have hpos := List.count_pos_iff.mpr hmem
    rw [hbalance] at honce
    split at honce <;> omega
  · intro j hclosed hd f v
    have honce := hreleased.1 j f v
    obtain ⟨t, ht, rfl⟩ := Option.map_eq_some_iff.mp h
    rw [hbalance, if_pos ((destroyed_step hb.sound ht j).mpr (.inr hd))] at honce
    rw [← held_destroys hb.sound ht hclosed hd f v]
    dsimp only at honce
    omega

end

/-- The values stored with a releaser are released once, at the latest with the destruction of
their session, in exactly the runs in which no call takes the releaser of such a value away and
none destroys a session that was closed already and keeps such a value. -/
theorem values_released_iff (ops : List Op) :
    Always booksStep ReleasedOnce .start ops ↔ Along booksStep LeavesNothing .start ops :=
  always_iff_along (fun _ => released_once) (fun _ _ _ hb hc h => kept_step hb hc h)
    (fun _ _ hb hc => leaves_break hb hc) kept_start ops

/-- The session is closed while it is used, then its user stores a value. -/
def leakOps : List Op :=
  [.init 5 60 none [42], .get (some [97]) 5 [] true, .close 0, .cookie 0 32 none (some 1) 7 true true,
    .purge, .unref 0]

theorem closed_session_leaks :
    ∃ b, exec booksStep .start leakOps = some b ∧ destroyed b.set 0 ∧
      b.stored = [(0, 1, 7)] ∧ b.handed = [] ∧ frees b.set 0 1 7 = 0 ∧ ¬ ReleasedOnce b := by
  refine ⟨_, rfl, by decide, rfl, rfl, rfl, fun h => ?_⟩
  have hcount := h.1 0 1 7
  revert hcount
  decide

end AfbBinder.Sessions
