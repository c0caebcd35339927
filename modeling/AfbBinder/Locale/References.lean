import Mathlib.Data.List.Perm.Basic
import AfbBinder.Lib.Runs
import AfbBinder.Locale.Model

/-! The references between a root and its searches, and the end of the root. -/
namespace AfbBinder.Locale
open Lib.Runs

/-- No user owns a reference to the root or to one of its searches. -/
def Released (s : Root) : Prop := s.owned = 0 ∧ ∀ i, s.held i = 0

/-- The root is destroyed once it is released, only then and only once. -/
def DestroyedOnRelease (s : Root) : Prop :=
  (Released s → s.destroyed = 1) ∧ (¬ Released s → s.destroyed = 0)

/-- The last reference of the users is not dropped while a default search is set. -/
def ClearsDefault (s : Root) : Action → Prop
  | .unref => s.owned = 1 → (∀ i, s.held i = 0) → s.defaultSearch = none
  | .searchUnref i => s.owned = 0 → s.held i = 1 → (∀ j, j ≠ i → s.held j = 0) →
      s.defaultSearch = none
  | _ => True

/-- The references that the root has on a search: those of the cache, dropped with the last
external reference to the root, and the default search. -/
def inner (s : Root) (i : SearchId) : Nat :=
  (if 0 < s.owned then s.lru.count (some i) else 0) + if s.defaultSearch = some i then 1 else 0

/-- Each search has the given count of references; the internal count of the root is the given
one and a unit for each search that lives. -/
structure Books (s : Root) (want : SearchId → Nat) (base : Nat) : Prop where
  refcount : ∀ i, (s.search i).refcount = want i
  intcount : ∃ live : List SearchId, live.Nodup ∧ (∀ i, i ∈ live ↔ 0 < want i) ∧
    s.intcount = base + live.length
  destroyed : s.destroyed = if s.intcount = 0 then 1 else 0

structure Counted (s : Root) : Prop where
  refcount : s.refcount = s.owned
  books : Books s (fun i => s.held i + inner s i) (if 0 < s.owned then 1 else 0)
  fresh : ∀ i, s.count ≤ i → s.held i + inner s i = 0

section
variable {s t : Root} {want want' : SearchId → Nat} {base : Nat} {i : SearchId}

private theorem Books.congr (h : Books s want base) (hw : ∀ i, want i = want' i) : Books s want' base :=
  funext hw ▸ h

private theorem Books.same (h : Books s want base) (hs : t.search = s.search) (hi : t.intcount = s.intcount)
    (hd : t.destroyed = s.destroyed) : Books t want base := by
  refine ⟨fun i => hs ▸ h.refcount i, hi ▸ h.intcount, ?_⟩
  rw [hd, hi]
  exact h.destroyed

private theorem refcount_update (h : ∀ j, (s.search j).refcount = want j) (i : SearchId) {n : Int} {m : Nat}
    (hn : n = m) (j : SearchId) :
    ((setRefcount s i n).search j).refcount = Function.update want i m j := by
  by_cases hj : j = i
  · subst hj
    simp [setRefcount, hn]
  · simp [setRefcount, hj, h j]

private theorem Books.addref (h : Books s want base) (hi : 0 < want i) :
    Books (localeSearchAddref s i) (Function.update want i (want i + 1)) base := by
  obtain ⟨live, hnd, hlive, hint⟩ := h.intcount
  refine ⟨refcount_update h.refcount i (by rw [h.refcount i]; rfl), ⟨live, hnd, fun j => ?_, hint⟩,
    h.destroyed⟩
  rw [hlive j]
  by_cases hj : j = i
  · subst hj
    simp [hi]
  · simp [hj]

private theorem Books.unref (h : Books s want base) (hi : 0 < want i) :
    Books (localeSearchUnref s (some i)) (Function.update want i (want i - 1)) base := by
  obtain ⟨live, hnd, hlive, hint⟩ := h.intcount
  have hdec : (s.search i).refcount - 1 = ((want i - 1 : Nat) : Int) := by
    rw [h.refcount i]
    omega
  have hmem : i ∈ live := (hlive i).mpr hi
  have hlen := List.length_pos_of_mem hmem
  rw [localeSearchUnref]
  by_cases h0 : (s.search i).refcount - 1 = 0
  · rw [if_pos h0]
    have herase := List.length_erase_of_mem hmem
    refine ⟨refcount_update h.refcount i hdec, ⟨live.erase i, hnd.erase i, fun j => ?_, ?_⟩, ?_⟩
    · rw [hnd.mem_erase_iff, hlive j]
      by_cases hj : j = i
      · subst hj
        simp
        omega
      · simp [hj]
    · change s.intcount - 1 = _
      omega
    · -- the root was alive, since the search was
      have hdestroyed : s.destroyed = 0 := by rw [h.destroyed, if_neg (by omega)]
      change (if s.intcount - 1 = 0 then s.destroyed + 1 else s.destroyed) =
        if s.intcount - 1 = 0 then 1 else 0
      rw [hdestroyed]
  · rw [if_neg h0]
    refine ⟨refcount_update h.refcount i hdec, ⟨live, hnd, fun j => ?_, hint⟩, h.destroyed⟩
    rw [hlive j]
    by_cases hj : j = i
    · subst hj
      simp
      omega
    · simp [hj]

private theorem Books.create (h : Books s want base) (hbase : 0 < base) (hnew : want s.count = 0)
    (d : Lib.Cstrings.Bytes) (length : Nat) (immediate : Bool) :
    Books (createSearch s d length immediate) (Function.update want s.count 1) base := by
  obtain ⟨live, hnd, hlive, hint⟩ := h.intcount
  have hnot : s.count ∉ live := fun hm => by
    have := (hlive s.count).mp hm
    omega
  refine ⟨fun j => ?_, ⟨s.count :: live, List.nodup_cons.mpr ⟨hnot, hnd⟩, fun j => ?_, ?_⟩, ?_⟩
  · by_cases hj : j = s.count
    · subst hj
      simp [createSearch]
    · simp [createSearch, hj, h.refcount j]
  · by_cases hj : j = s.count
    · subst hj
      simp
    · simp [hj, hlive j]
  · change s.intcount + 1 = _
    rw [List.length_cons]
    omega
  · have hdestroyed : s.destroyed = 0 := by rw [h.destroyed, if_neg (by omega)]
    change s.destroyed = if s.intcount + 1 = 0 then 1 else 0
    rw [hdestroyed, if_neg (by omega)]

private theorem Books.internalUnref (h : Books s want (base + 1)) : Books (internalUnref s) want base := by
  obtain ⟨live, hnd, hlive, hint⟩ := h.intcount
  refine ⟨h.refcount, ⟨live, hnd, hlive, ?_⟩, ?_⟩
  · change s.intcount - 1 = _
    omega
  · have hdestroyed : s.destroyed = 0 := by rw [h.destroyed, if_neg (by omega)]
    change (if s.intcount - 1 = 0 then s.destroyed + 1 else s.destroyed) =
      if s.intcount - 1 = 0 then 1 else 0
    rw [hdestroyed]

/-- The reference that an optional search loses. -/
theorem Books.unrefOption (h : Books s want base) (x : Option SearchId)
    (hx : ∀ i, x = some i → 0 < want i) :
    Books (localeSearchUnref s x) (fun j => want j - if x = some j then 1 else 0) base := by
  cases x with
  | none => exact h.congr fun j => by simp
  | some i =>
    refine (h.unref (hx i rfl)).congr fun j => ?_
    by_cases hj : j = i
    · subst hj
      simp
    · simp [hj, Ne.symm hj]

/-- The references of the cache are all dropped. -/
theorem Books.foldl_unref (l : List (Option SearchId)) (h : Books s want base)
    (hl : ∀ i, l.count (some i) ≤ want i) :
    Books (l.foldl localeSearchUnref s) (fun i => want i - l.count (some i)) base := by
  induction l generalizing s want with
  | nil => exact h.congr fun i => by simp
  | cons x l ih =>
    cases x with
    | none =>
      have hl' : ∀ i, l.count (some i) ≤ want i := fun i => by simpa using hl i
      exact (ih h hl').congr fun i => by simp
    | some e =>
      have he : 0 < want e := by
        have := hl e
        simp at this
        omega
      refine (ih (h.unref he) fun i => ?_).congr fun i => ?_
      · have := hl i
        by_cases hi : i = e
        · subst hi
          simp at this ⊢
          omega
        · have hne : (some e == some i) = false := by simp [Ne.symm hi]
          simpa [List.count_cons, hne, hi] using this
      · by_cases hi : i = e
        · subst hi
          simp
          omega
        · have hne : (some e == some i) = false := by simp [Ne.symm hi]
          simp [List.count_cons, hne, hi]

/-- What the reference operations on a search leave alone. -/
structure Framed (s t : Root) : Prop where
  refcount : t.refcount = s.refcount
  lru : t.lru = s.lru
  defaultSearch : t.defaultSearch = s.defaultSearch
  count : t.count = s.count
  owned : t.owned = s.owned
  held : t.held = s.held

private theorem framed_unref (s : Root) (x : Option SearchId) : Framed s (localeSearchUnref s x) := by
  cases x with
  | none => exact ⟨rfl, rfl, rfl, rfl, rfl, rfl⟩
  | some i =>
    rw [localeSearchUnref]
    split
    · exact ⟨rfl, rfl, rfl, rfl, rfl, rfl⟩
    · exact ⟨rfl, rfl, rfl, rfl, rfl, rfl⟩

private theorem framed_foldl (s : Root) (l : List (Option SearchId)) :
    Framed s (l.foldl localeSearchUnref s) := by
  induction l generalizing s with
  | nil => exact ⟨rfl, rfl, rfl, rfl, rfl, rfl⟩
  | cons x l ih =>
    have h := framed_unref s x
    have h' := ih (localeSearchUnref s x)
    exact ⟨h'.refcount.trans h.refcount, h'.lru.trans h.lru, h'.defaultSearch.trans h.defaultSearch,
      h'.count.trans h.count, h'.owned.trans h.owned, h'.held.trans h.held⟩

private theorem framed_rootUnref (s : Root) : (localeRootUnref s).refcount = s.refcount - 1 ∧
    (localeRootUnref s).lru = s.lru ∧ (localeRootUnref s).defaultSearch = s.defaultSearch ∧
    (localeRootUnref s).count = s.count ∧ (localeRootUnref s).held = s.held := by
  rw [localeRootUnref]
  split
  · have h := framed_foldl { s with refcount := s.refcount - 1 } s.lru
    exact ⟨h.refcount, h.lru, h.defaultSearch, h.count, h.held⟩
  · exact ⟨rfl, rfl, rfl, rfl, rfl⟩

private theorem search_owned {definition : Option CString} {immediate mem : Bool}
    (h : step s (.search definition immediate mem) = some t) : t.owned = s.owned := by
  obtain ⟨-, rfl⟩ := Option.ite_some_none_eq_some.mp h
  rcases search_cases s definition immediate mem with ⟨i, e, -, -, -, heq⟩ | ⟨-, heq⟩
  · rw [heq]
    rfl
  · rw [heq]
    cases mem with
    | false => rfl
    | true => exact (framed_unref (createSearch s (normalStart definition)
        (normalLength (normalStart definition)) immediate) (s.lru.getLastD none)).owned

private theorem setDefault_owned (s : Root) (x : Option SearchId) :
    (localeRootSetDefaultSearch s x).owned = s.owned := by
  cases x with
  | none => exact (framed_unref { s with defaultSearch := none } s.defaultSearch).owned
  | some i =>
    exact (framed_unref (localeSearchAddref { s with defaultSearch := some i } i)
      s.defaultSearch).owned

private theorem counted_create (container : Container) : Counted (localeRootCreate container) := by
  have hzero : ∀ i, (localeRootCreate container).held i +
      inner (localeRootCreate container) i = 0 := by
    intro i
    simp [localeRootCreate, inner]
  refine ⟨rfl, ⟨fun i => ?_, ⟨[], List.nodup_nil, fun i => ?_, rfl⟩, rfl⟩, fun i _ => hzero i⟩
  · rw [hzero i]
    rfl
  · simp [hzero i]

private theorem Counted.unref (h : Counted s) (ho : 0 < s.owned) :
    Counted { localeRootUnref s with owned := s.owned - 1 } := by
  obtain ⟨href, hlru, hdef, hcount, hheld⟩ := framed_rootUnref s
  have hinner : ∀ i, inner { localeRootUnref s with owned := s.owned - 1 } i =
      (if 0 < s.owned - 1 then s.lru.count (some i) else 0) +
        if s.defaultSearch = some i then 1 else 0 := by
    intro i
    rw [inner, hlru, hdef]
  have hbooks := h.books
  rw [if_pos ho] at hbooks
  refine ⟨?_, ?_, fun i hi => ?_⟩
  · change (localeRootUnref s).refcount = ((s.owned - 1 : Nat) : Int)
    rw [href, h.refcount]
    omega
  · by_cases h1 : s.owned = 1
    · -- the last reference: the cache is emptied and the root lets go
      have hroot : localeRootUnref s = internalUnref (s.lru.foldl localeSearchUnref
          { s with refcount := s.refcount - 1 }) := by
        rw [localeRootUnref, if_pos (by rw [h.refcount, h1]; rfl)]
      have hdec : Books { s with refcount := s.refcount - 1 } (fun i => s.held i + inner s i) 1 :=
        hbooks.same rfl rfl rfl
      have hall := (hdec.foldl_unref s.lru fun i => by rw [inner, if_pos ho]; omega).internalUnref
      rw [← hroot] at hall
      rw [if_neg (by simp [h1])]
      have hlast : Books { localeRootUnref s with owned := s.owned - 1 }
          (fun i => s.held i + inner s i - s.lru.count (some i)) 0 := hall.same rfl rfl rfl
      refine hlast.congr fun i => ?_
      change _ = (localeRootUnref s).held i + _
      rw [hinner, hheld, inner, if_pos ho, if_neg (show ¬ 0 < s.owned - 1 by omega)]
      omega
    · have hroot : localeRootUnref s = { s with refcount := s.refcount - 1 } := by
        rw [localeRootUnref, if_neg (by rw [h.refcount]; omega)]
      have hpos : 0 < s.owned - 1 := by omega
      rw [if_pos hpos]
      have hdec : Books { localeRootUnref s with owned := s.owned - 1 }
          (fun i => s.held i + inner s i) 1 := by
        rw [hroot]
        exact hbooks.same rfl rfl rfl
      refine hdec.congr fun i => ?_
      change _ = (localeRootUnref s).held i + _
      rw [hinner, hheld, inner, if_pos ho, if_pos hpos]
  · have hfresh := h.fresh i (hcount ▸ hi)
    change (localeRootUnref s).held i + _ = 0
    rw [hinner, hheld]
    rw [inner, if_pos ho] at hfresh
    split <;> omega

private theorem count_front {l : List (Option SearchId)} {i : Nat} {e : SearchId} (h : l[i]? = some (some e))
    (j : SearchId) : (some e :: l.eraseIdx i).count (some j) = l.count (some j) := by
  obtain ⟨hi, he⟩ := List.getElem?_eq_some_iff.mp h
  rw [← he]
  exact (List.getElem_cons_eraseIdx_perm hi).count_eq _

private theorem count_dropLast (l : List (Option SearchId)) (j : SearchId) :
    l.count (some j) = l.dropLast.count (some j) +
      if l.getLastD none = some j then 1 else 0 := by
  rcases List.eq_nil_or_concat l with rfl | ⟨l', x, rfl⟩
  · simp
  · simp [List.count_append, List.count_singleton]

private theorem inner_of_owned (ho : 0 < s.owned) (i : SearchId) :
    inner s i = s.lru.count (some i) + if s.defaultSearch = some i then 1 else 0 := by
  rw [inner, if_pos ho]

private theorem Counted.addref (h : Counted s) (ho : 0 < s.owned) :
    Counted { localeRootAddref s with owned := s.owned + 1 } := by
  have hinner : ∀ i, inner { localeRootAddref s with owned := s.owned + 1 } i = inner s i := by
    intro i
    rw [inner_of_owned ho, inner_of_owned (Nat.succ_pos _)]
    rfl
  refine ⟨?_, ?_, fun i hi => ?_⟩
  · change s.refcount + 1 = ((s.owned + 1 : Nat) : Int)
    rw [h.refcount]
    rfl
  · have hbooks := h.books
    rw [if_pos ho] at hbooks
    rw [if_pos (Nat.succ_pos _)]
    have hsame : Books { localeRootAddref s with owned := s.owned + 1 }
        (fun i => s.held i + inner s i) 1 := hbooks.same rfl rfl rfl
    exact hsame.congr fun i => by rw [hinner]; rfl
  · rw [hinner]
    exact h.fresh i hi

/-- A reference taken or dropped by a user that owns one. -/
theorem Counted.hold (h : Counted s) (hi : 0 < s.held i) {u : Root} (hu : Framed s u) (n : Nat)
    (hb : Books u (Function.update (fun i => s.held i + inner s i) i (n + inner s i))
      (if 0 < s.owned then 1 else 0)) : Counted (hold u i n) := by
  have hinner : ∀ j, inner (Locale.hold u i n) j = inner s j := by
    intro j
    change (if 0 < u.owned then u.lru.count (some j) else 0) +
      (if u.defaultSearch = some j then 1 else 0) = _
    rw [hu.owned, hu.lru, hu.defaultSearch]
    rfl
  have hheld : ∀ j, j ≠ i → (Locale.hold u i n).held j = s.held j := by
    intro j hj
    change Function.update u.held i n j = _
    rw [Function.update_of_ne hj, hu.held]
  have howned : (Locale.hold u i n).owned = s.owned := hu.owned
  refine ⟨?_, ?_, fun j hj => ?_⟩
  · change u.refcount = u.owned
    rw [hu.refcount, hu.owned, h.refcount]
  · rw [howned]
    have hsame : Books (Locale.hold u i n) _ _ := hb.same rfl rfl rfl
    refine hsame.congr fun j => ?_
    rw [hinner]
    by_cases hj : j = i
    · subst hj
      simp [Locale.hold]
    · rw [Function.update_of_ne hj, hheld j hj]
  · have hcount : s.count ≤ j := by
      have hc : (Locale.hold u i n).count = s.count := hu.count
      omega
    have hfresh := h.fresh j hcount
    have hne : j ≠ i := by
      rintro rfl
      omega
    rw [hinner, hheld j hne, hfresh]

private theorem Counted.searchAddref (h : Counted s) (hi : 0 < s.held i) :
    Counted (Locale.hold (localeSearchAddref s i) i (s.held i + 1)) := by
  have hframed : Framed s (localeSearchAddref s i) := ⟨rfl, rfl, rfl, rfl, rfl, rfl⟩
  refine h.hold hi hframed _ ?_
  have hbooks := h.books.addref (i := i) (show 0 < s.held i + inner s i by omega)
  rwa [Nat.add_right_comm] at hbooks

private theorem Counted.searchUnref (h : Counted s) (hi : 0 < s.held i) :
    Counted (Locale.hold (localeSearchUnref s (some i)) i (s.held i - 1)) := by
  refine h.hold hi (framed_unref s (some i)) _ ?_
  have hbooks := h.books.unref (i := i) (show 0 < s.held i + inner s i by omega)
  have hsub : s.held i + inner s i - 1 = s.held i - 1 + inner s i := by omega
  rwa [hsub] at hbooks

private theorem Counted.setDefault (h : Counted s) (ho : 0 < s.owned) (x : Option SearchId)
    (hx : ∀ i, x = some i → 0 < s.held i) : Counted (localeRootSetDefaultSearch s x) := by
  -- the new default is referenced before the older one loses its reference
  obtain ⟨u, hu, hframed, hbooks⟩ : ∃ u, localeRootSetDefaultSearch s x =
      localeSearchUnref u s.defaultSearch ∧ Framed { s with defaultSearch := x } u ∧
      Books u (fun j => s.held j + inner s j + if x = some j then 1 else 0) 1 := by
    have hold := h.books
    rw [if_pos ho] at hold
    cases x with
    | none =>
      refine ⟨{ s with defaultSearch := none }, rfl, ⟨rfl, rfl, rfl, rfl, rfl, rfl⟩, ?_⟩
      have hsame : Books { s with defaultSearch := none } _ 1 := hold.same rfl rfl rfl
      exact hsame.congr fun j => by simp
    | some i =>
      refine ⟨localeSearchAddref { s with defaultSearch := some i } i, rfl,
        ⟨rfl, rfl, rfl, rfl, rfl, rfl⟩, ?_⟩
      have hsame : Books { s with defaultSearch := some i } _ 1 := hold.same rfl rfl rfl
      refine (hsame.addref (Nat.add_pos_left (hx i rfl) _)).congr fun j => ?_
      by_cases hj : j = i
      · subst hj
        simp
      · simp [hj, Ne.symm hj]
  have hlast := framed_unref u s.defaultSearch
  have howned : (localeSearchUnref u s.defaultSearch).owned = s.owned :=
    hlast.owned.trans hframed.owned
  have hinner : ∀ j, inner (localeSearchUnref u s.defaultSearch) j =
      s.lru.count (some j) + if x = some j then 1 else 0 := by
    intro j
    rw [inner_of_owned (howned ▸ ho), hlast.lru, hlast.defaultSearch, hframed.lru,
      hframed.defaultSearch]
  have hheld : (localeSearchUnref u s.defaultSearch).held = s.held := hlast.held.trans hframed.held
  rw [hu]
  refine ⟨?_, ?_, fun j hj => ?_⟩
  · rw [howned, hlast.refcount, hframed.refcount, ← h.refcount]
  · rw [howned, if_pos ho]
    refine (hbooks.unrefOption s.defaultSearch fun i hi => ?_).congr fun j => ?_
    · rw [inner_of_owned ho, hi, if_pos rfl]
      omega
    · rw [hinner, hheld, inner_of_owned ho]
      omega
  · have hfresh := h.fresh j (by rw [← hframed.count, ← hlast.count]; exact hj)
    have hne : x ≠ some j := fun hxj => by
      have := hx j hxj
      omega
    rw [inner_of_owned ho] at hfresh
    rw [hinner, hheld, if_neg hne]
    omega

/-- A search is put at the front of the cache and given to the user. -/
theorem Counted.given {u : Root} (ho : 0 < u.owned) {e : SearchId} (href : u.refcount = u.owned)
    {lru : List (Option SearchId)} (hfresh : ∀ j, u.count ≤ j → u.held j +
      (lru.count (some j) + if u.defaultSearch = some j then 1 else 0) = 0) (he : e < u.count)
    (hin : some e ∈ lru)
    (hb : Books u (fun j => u.held j + (lru.count (some j) +
      if u.defaultSearch = some j then 1 else 0)) 1) :
    Counted (Locale.hold (localeSearchAddref { u with lru } e) e (u.held e + 1)) := by
  have hinner : ∀ j, inner (Locale.hold (localeSearchAddref { u with lru } e) e (u.held e + 1)) j =
      lru.count (some j) + if u.defaultSearch = some j then 1 else 0 := fun j =>
    inner_of_owned (s := Locale.hold (localeSearchAddref { u with lru } e) e (u.held e + 1)) ho j
  have hheld : ∀ j, (Locale.hold (localeSearchAddref { u with lru } e) e (u.held e + 1)).held j =
      Function.update u.held e (u.held e + 1) j := fun j => rfl
  refine ⟨href, ?_, fun j hj => ?_⟩
  · have hpos : 0 < (Locale.hold (localeSearchAddref { u with lru } e) e (u.held e + 1)).owned := ho
    rw [if_pos hpos]
    have hsame : Books { u with lru } _ 1 := hb.same rfl rfl rfl
    have hcount : 0 < lru.count (some e) := List.count_pos_iff.mpr hin
    have hadd := hsame.addref (i := e) (by omega)
    have hgiven : Books (Locale.hold (localeSearchAddref { u with lru } e) e (u.held e + 1)) _ 1 :=
      hadd.same rfl rfl rfl
    refine hgiven.congr fun j => ?_
    rw [hinner, hheld]
    by_cases hj : j = e
    · subst hj
      simp
      omega
    · simp [hj]
  · have hne : j ≠ e := by
      rintro rfl
      exact absurd he (Nat.not_lt.mpr hj)
    rw [hinner, hheld, Function.update_of_ne hne]
    exact hfresh j hj

/-- What the creation of a search leaves alone. -/
structure Grown (s t : Root) : Prop where
  refcount : t.refcount = s.refcount
  defaultSearch : t.defaultSearch = s.defaultSearch
  owned : t.owned = s.owned
  held : t.held = s.held

/-- The new search takes in the cache the place of the oldest. -/
theorem Counted.created (h : Counted s) (ho : 0 < s.owned)
    (hb : Books t (Function.update (fun j => s.held j + inner s j) s.count 1) 1) (ht : Grown s t)
    (hcount : t.count = s.count + 1) :
    Counted (Locale.hold (localeSearchAddref { localeSearchUnref t (s.lru.getLastD none) with
      lru := some s.count :: s.lru.dropLast } s.count) s.count (s.held s.count + 1)) := by
  have hnew : s.held s.count + inner s s.count = 0 := h.fresh s.count (Nat.le_refl _)
  have hu := framed_unref t (s.lru.getLastD none)
  have hheld : (localeSearchUnref t (s.lru.getLastD none)).held = s.held := hu.held.trans ht.held
  have hdefault : (localeSearchUnref t (s.lru.getLastD none)).defaultSearch = s.defaultSearch :=
    hu.defaultSearch.trans ht.defaultSearch
  have howned : (localeSearchUnref t (s.lru.getLastD none)).owned = s.owned :=
    hu.owned.trans ht.owned
  have hinner : ∀ j, inner s j = s.lru.dropLast.count (some j) +
      (if s.lru.getLastD none = some j then 1 else 0) +
      if s.defaultSearch = some j then 1 else 0 := fun j => by
    rw [inner_of_owned ho, count_dropLast s.lru j]
  have hlast : ∀ j, s.lru.getLastD none = some j → j ≠ s.count := by
    rintro j hj rfl
    have := hinner s.count
    rw [if_pos hj] at this
    omega
  rw [← hheld]
  refine Counted.given (howned ▸ ho) ?_ (fun j hj => ?_) ?_ List.mem_cons_self ?_
  · rw [hu.refcount, ht.refcount, howned, h.refcount]
  · have hlt : s.count < j := by
      rw [hu.count, hcount] at hj
      exact hj
    have hfresh := h.fresh j (Nat.le_of_lt hlt)
    have hne : (some s.count == some j) = false := by simp [Nat.ne_of_lt hlt]
    rw [hinner j] at hfresh
    rw [hheld, hdefault, List.count_cons, hne]
    simp only [Bool.false_eq_true, if_false]
    omega
  · rw [hu.count, hcount]
    exact Nat.lt_succ_self _
  · refine (hb.unrefOption (s.lru.getLastD none) fun j hj => ?_).congr fun j => ?_
    · rw [Function.update_of_ne (hlast j hj), hinner j, if_pos hj]
      omega
    · rw [hheld, hdefault, List.count_cons]
      by_cases hj : j = s.count
      · subst hj
        have hne : s.lru.getLastD none ≠ some s.count := fun h => hlast _ h rfl
        rw [hinner s.count] at hnew
        rw [Function.update_self, if_neg hne]
        simp only [beq_self_eq_true, if_true]
        omega
      · have hne : (some s.count == some j) = false := by simp [Ne.symm hj]
        rw [Function.update_of_ne hj, hinner j, hne]
        simp only [Bool.false_eq_true, if_false]
        omega

theorem Counted.search (h : Counted s) (ho : 0 < s.owned) (definition : Option CString)
    (immediate mem : Bool) : Counted (match localeRootSearch s definition immediate mem with
      | (none, t) => t
      | (some i, t) => Locale.hold t i (s.held i + 1)) := by
  have hold := h.books
  rw [if_pos ho] at hold
  rcases search_cases s definition immediate mem with ⟨i, e, -, hget, -, heq⟩ | ⟨-, heq⟩
  · rw [heq]
    have hmem : some e ∈ s.lru := List.mem_of_getElem? hget
    have he : e < s.count := by
      by_contra hge
      have hfresh := h.fresh e (Nat.not_lt.mp hge)
      have hcount := List.count_pos_iff.mpr hmem
      rw [inner_of_owned ho] at hfresh
      omega
    refine Counted.given ho h.refcount (fun j hj => ?_) he List.mem_cons_self (hold.congr fun j => ?_)
    · rw [count_front hget, ← inner_of_owned ho]
      exact h.fresh j hj
    · rw [count_front hget, inner_of_owned ho]
  · rw [heq]
    cases mem with
    | false => exact h
    | true =>
      have hnew : s.held s.count + inner s s.count = 0 := h.fresh s.count (Nat.le_refl _)
      have hcreated := hold.create Nat.one_pos hnew (normalStart definition)
        (normalLength (normalStart definition)) immediate
      exact h.created ho hcreated ⟨rfl, rfl, rfl, rfl⟩ rfl

private theorem counted_step {x : Action} (h : Counted s) (hstep : step s x = some t) : Counted t := by
  cases x with
  | addref =>
    obtain ⟨ho, rfl⟩ := Option.ite_some_none_eq_some.mp hstep
    exact h.addref ho
  | unref =>
    obtain ⟨ho, rfl⟩ := Option.ite_some_none_eq_some.mp hstep
    exact h.unref ho
  | search definition immediate mem =>
    obtain ⟨ho, rfl⟩ := Option.ite_some_none_eq_some.mp hstep
    exact h.search ho definition immediate mem
  | searchAddref i =>
    obtain ⟨hi, rfl⟩ := Option.ite_some_none_eq_some.mp hstep
    exact h.searchAddref hi
  | searchUnref i =>
    obtain ⟨hi, rfl⟩ := Option.ite_some_none_eq_some.mp hstep
    exact h.searchUnref hi
  | setDefaultSearch x =>
    obtain ⟨⟨ho, hx⟩, rfl⟩ := Option.ite_some_none_eq_some.mp hstep
    exact h.setDefault ho x hx

/-- What the counts say of the end of the root. -/
theorem intcount_zero_iff (h : Counted s) :
    s.intcount = 0 ↔ Released s ∧ s.defaultSearch = none := by
  obtain ⟨live, hnd, hlive, hint⟩ := h.books.intcount
  constructor
  · intro h0
    have ho : s.owned = 0 := by
      by_contra hne
      rw [if_pos (Nat.pos_of_ne_zero hne)] at hint
      omega
    have hnil : live = [] := by
      rw [if_neg (by omega)] at hint
      exact List.length_eq_zero_iff.mp (by omega)
    have hwant : ∀ i, s.held i + inner s i = 0 := by
      intro i
      by_contra hne
      have := (hlive i).mpr (Nat.pos_of_ne_zero hne)
      rw [hnil] at this
      cases this
    refine ⟨⟨ho, fun i => by have := hwant i; omega⟩, ?_⟩
    cases hd : s.defaultSearch with
    | none => rfl
    | some i =>
      have := hwant i
      rw [inner, hd, if_pos rfl] at this
      omega
  · rintro ⟨⟨ho, hheld⟩, hdef⟩
    have hnil : live = [] := by
      refine List.eq_nil_iff_forall_not_mem.mpr fun i hm => ?_
      have := (hlive i).mp hm
      rw [hheld i, inner, ho, hdef] at this
      simp at this
    rw [if_neg (by omega), hnil] at hint
    simpa using hint

private theorem clearsDefault_keeps {x : Action}
    (hc : ClearsDefault s x) (hstep : step s x = some t) : Released t → t.defaultSearch = none := by
  rintro ⟨ho, hheld⟩
  cases x with
  | addref =>
    obtain ⟨-, rfl⟩ := Option.ite_some_none_eq_some.mp hstep
    cases ho
  | unref =>
    obtain ⟨hpos, rfl⟩ := Option.ite_some_none_eq_some.mp hstep
    obtain ⟨-, -, hdef, -, hsame⟩ := framed_rootUnref s
    change (localeRootUnref s).defaultSearch = none
    rw [hdef]
    refine hc ?_ fun i => ?_
    · change s.owned - 1 = 0 at ho
      omega
    · rw [← hsame]
      exact hheld i
  | search definition immediate mem =>
    obtain ⟨hpos, -⟩ := Option.ite_some_none_eq_some.mp hstep
    rw [search_owned hstep] at ho
    omega
  | searchAddref i =>
    obtain ⟨hi, rfl⟩ := Option.ite_some_none_eq_some.mp hstep
    have h0 := hheld i
    simp [Locale.hold] at h0
  | searchUnref i =>
    obtain ⟨hi, rfl⟩ := Option.ite_some_none_eq_some.mp hstep
    have hu := framed_unref s (some i)
    change (localeSearchUnref s (some i)).defaultSearch = none
    rw [hu.defaultSearch]
    refine hc ?_ ?_ fun j hj => ?_
    · rw [← hu.owned]
      exact ho
    · have h0 := hheld i
      simp [Locale.hold] at h0
      omega
    · have h0 := hheld j
      simp [Locale.hold, hj, hu.held] at h0
      exact h0
  | setDefaultSearch x =>
    obtain ⟨⟨hpos, hx⟩, rfl⟩ := Option.ite_some_none_eq_some.mp hstep
    rw [setDefault_owned s x] at ho
    omega

/-- The step that drops the last reference of the users, the default search set. -/
theorem not_clearsDefault {x : Action} (h : ¬ ClearsDefault s x) :
    ∃ t, step s x = some t ∧ Released t ∧ t.defaultSearch ≠ none := by
  cases x with
  | unref =>
    simp only [ClearsDefault, not_forall] at h
    obtain ⟨ho, hheld, hdef⟩ := h
    obtain ⟨-, -, hsame, -, hh⟩ := framed_rootUnref s
    refine ⟨_, if_pos (by omega), ⟨?_, fun i => ?_⟩, ?_⟩
    · change s.owned - 1 = 0
      rw [ho]
    · change (localeRootUnref s).held i = 0
      rw [hh]
      exact hheld i
    · change (localeRootUnref s).defaultSearch ≠ none
      rw [hsame]
      exact hdef
  | searchUnref i =>
    simp only [ClearsDefault, not_forall] at h
    obtain ⟨ho, hi, hheld, hdef⟩ := h
    have hu := framed_unref s (some i)
    refine ⟨_, if_pos (by omega), ⟨?_, fun j => ?_⟩, ?_⟩
    · exact hu.owned.trans ho
    · by_cases hj : j = i
      · subst hj
        simp [Locale.hold, hi]
      · simp [Locale.hold, hj, hu.held, hheld j hj]
    · change (localeSearchUnref s (some i)).defaultSearch ≠ none
      rw [hu.defaultSearch]
      exact hdef
  | addref => exact absurd trivial h
  | search definition immediate mem => exact absurd trivial h
  | searchAddref i => exact absurd trivial h
  | setDefaultSearch x => exact absurd trivial h

private theorem Counted.destroyedOnRelease (h : Counted s) (hr : Released s → s.defaultSearch = none) :
    DestroyedOnRelease s := by
  constructor
  · intro hrel
    rw [h.books.destroyed, if_pos ((intcount_zero_iff h).mpr ⟨hrel, hr hrel⟩)]
  · intro hrel
    rw [h.books.destroyed, if_neg fun h0 => hrel ((intcount_zero_iff h).mp h0).1]

theorem destroyed_iff_clears (container : Container) (actions : List Action) :
    Always step DestroyedOnRelease (localeRootCreate container) actions ↔
      Along step ClearsDefault (localeRootCreate container) actions := by
  have hstart : Released (localeRootCreate container) →
      (localeRootCreate container).defaultSearch = none := fun _ => rfl
  refine always_iff_along (I := fun s => Counted s ∧ (Released s → s.defaultSearch = none))
    (fun s hs => hs.1.destroyedOnRelease hs.2)
    (fun s x t hs hc ht => ⟨counted_step hs.1 ht, clearsDefault_keeps hc ht⟩)
    (fun s x hs hc => ?_) ⟨counted_create container, hstart⟩ actions
  obtain ⟨t, ht, hrel, hdef⟩ := not_clearsDefault hc
  refine ⟨t, ht, fun hd => ?_⟩
  have hcounted := counted_step hs.1 ht
  have hzero : t.intcount = 0 := by
    by_contra hne
    have hlive := hcounted.books.destroyed
    rw [if_neg hne, hd.1 hrel] at hlive
    cases hlive
  exact hdef ((intcount_zero_iff hcounted).mp hzero).2

end

/-- The schedule of a default search that outlives the users. -/
def defaultLeft : List Action :=
  [.search none false true, .setDefaultSearch (some 0), .searchUnref 0, .unref]

theorem default_never_destroyed : ¬ Always step DestroyedOnRelease
    (localeRootCreate ⟨[], fun _ hf => absurd hf List.not_mem_nil⟩) defaultLeft := by
  rintro ⟨-, h⟩
  have hlast := ((((h _ rfl).2 _ rfl).2 _ rfl).2 _ rfl).1
  have hheld : ∀ i : SearchId, Function.update (Function.update (fun _ => 0) 0 1) 0 0 i = 0 := by
    intro i
    by_cases hi : i = 0
    · simp [hi]
    · simp [hi]
  exact absurd (hlast ⟨rfl, hheld⟩) (by decide)

end AfbBinder.Locale
