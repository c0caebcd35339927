import Mathlib.Data.List.Basic
import Mathlib.Data.List.Nodup
import Mathlib.Data.List.Perm.Subperm

/-! Positions in a list, given by splitting it at an element. -/
namespace AfbBinder.Lib.Lists
variable {α : Type*} {l pre post p q : List α} {a b : α}

/-- A position of a list extended at its end is the new one or an old one. -/
theorem split_snoc (h : l ++ [b] = pre ++ a :: post) :
    (post = [] ∧ pre = l ∧ a = b) ∨ ∃ post', post = post' ++ [b] ∧ l = pre ++ a :: post' := by
  rcases List.eq_nil_or_concat post with rfl | ⟨post', c, rfl⟩
  · obtain ⟨h1, h2⟩ := List.append_inj' h rfl
    exact .inl ⟨rfl, h1.symm, (List.cons.inj h2).1.symm⟩
  · have h' : l ++ [b] = (pre ++ a :: post') ++ [c] := by simpa using h
    obtain ⟨h1, h2⟩ := List.append_inj' h' rfl
    exact .inr ⟨post', by rw [(List.cons.inj h2).1, List.concat_eq_append], h1⟩

/-- The first position of an element is one. -/
theorem split_first (hp : a ∉ pre) (hq : a ∉ p) (h : pre ++ a :: post = p ++ a :: q) : pre = p ∧ post = q := by
  induction pre generalizing p with
  | nil =>
    cases p with
    | nil => exact ⟨rfl, (List.cons.inj h).2⟩
    | cons b p => exact absurd (List.mem_cons.mpr (.inl (List.cons.inj h).1)) hq
  | cons b pre ih =>
    rw [List.mem_cons, not_or] at hp
    cases p with
    | nil => exact absurd (List.cons.inj h).1.symm hp.1
    | cons c p =>
      rw [List.mem_cons, not_or] at hq
      obtain ⟨rfl, hrest⟩ := List.cons.inj h
      obtain ⟨rfl, rfl⟩ := ih hp.2 hq.2 hrest
      exact ⟨rfl, rfl⟩

/-- Without repetition the element differs from all those around it. -/
theorem ne_of_split (hn : (pre ++ a :: post).Nodup) (hb : b ∈ pre ++ post) : b ≠ a := by
  rintro rfl
  rcases List.mem_append.mp hb with h | h
  · exact (List.nodup_append.mp hn).2.2 b h b (by simp) rfl
  · exact (List.nodup_cons.mp (List.nodup_append.mp hn).2.1).1 h

/-- A prefix without the item ends before it. -/
theorem prefix_before {k : List α} (h : k <+: pre ++ a :: post) (hk : a ∉ k) : k <+: pre := by
  rw [List.append_cons] at h
  rcases List.prefix_or_prefix_of_prefix h (List.prefix_append (pre ++ [a]) post) with hle | hge
  · refine (List.prefix_concat_iff.mp hle).resolve_left fun heq => hk ?_
    rw [heq]
    exact List.mem_append_right _ List.mem_cons_self
  · exact absurd (hge.subset (List.mem_append_right _ List.mem_cons_self)) hk

/-- Without repetition an element has one position. -/
theorem split_unique (hn : (pre ++ a :: post).Nodup) (h : pre ++ a :: post = p ++ a :: q) :
    pre = p ∧ post = q := by
  have h1 : a ∉ pre := fun hm => ne_of_split hn (List.mem_append_left _ hm) rfl
  have h2 : a ∉ post := fun hm => ne_of_split hn (List.mem_append_right _ hm) rfl
  obtain ⟨hp, -, hq⟩ := (List.append_cons_inj_of_notMem h1 h2).mp h
  exact ⟨hp, hq⟩

/-- A position after an element is removed was a position before. -/
theorem split_erase (h : pre ++ post = p ++ b :: q) :
    (∃ r, pre = p ++ b :: r ∧ q = r ++ post) ∨ ∃ r, p = pre ++ r ∧ post = r ++ b :: q := by
  rcases List.append_eq_append_iff.mp h with ⟨r, rfl, hr⟩ | ⟨r, hr, h'⟩
  · exact .inr ⟨r, rfl, hr⟩
  · cases r with
    | nil => exact .inr ⟨[], by simpa using hr.symm, by simpa using h'.symm⟩
    | cons c r =>
      obtain ⟨rfl, rfl⟩ := List.cons.inj h'
      exact .inl ⟨r, hr, rfl⟩

/-- What is taken at the front of a list is taken at the front of its first part. -/
theorem split_take {f x r : List α} (n : Nat) (h : l ++ f = x ++ r)
    (hn : (l.take n).length ≤ x.length) : ∃ z, x = l.take n ++ z ∧ l.drop n ++ f = z ++ r := by
  have h' : l.take n ++ (l.drop n ++ f) = x ++ r := by
    rw [← List.append_assoc, List.take_append_drop, h]
  rcases List.append_eq_append_iff.mp h' with ⟨z, hx, hz⟩ | ⟨z, htake, hz⟩
  · exact ⟨z, hx, hz⟩
  · have hnil : z = [] := by
      have hlen := congrArg List.length htake
      rw [List.length_append] at hlen
      exact List.length_eq_zero_iff.mp (by omega)
    subst hnil
    exact ⟨[], by simpa using htake.symm, by simpa using hz.symm⟩

/-- Distinct elements of a list are at most as many as it has. -/
theorem le_length_of_injOn {f : Nat → α} {n : Nat} (hf : ∀ i < n, ∀ j < n, f i = f j → i = j)
    (h : ∀ i < n, f i ∈ l) : n ≤ l.length := by
  have hnodup : ((List.range n).map f).Nodup := List.nodup_range.map_on fun i hi j hj =>
    hf i (List.mem_range.mp hi) j (List.mem_range.mp hj)
  have hsub : (List.range n).map f ⊆ l := by
    intro x hx
    obtain ⟨i, hi, rfl⟩ := List.mem_map.mp hx
    exact h i (List.mem_range.mp hi)
  have hle := (List.subperm_of_subset hnodup hsub).length_le
  rwa [List.length_map, List.length_range] at hle

/-- Without repetition two elements come in one order. -/
theorem not_sublist_swap (hl : l.Nodup) (hab : [a, b].Sublist l) : ¬ [b, a].Sublist l := by
  induction l with
  | nil => cases hab
  | cons x l ih =>
    obtain ⟨hx, hl⟩ := List.nodup_cons.mp hl
    intro hba
    rcases List.sublist_cons_iff.mp hab with h | ⟨r, heq, h⟩ <;>
      rcases List.sublist_cons_iff.mp hba with h' | ⟨r', heq', h'⟩
    · exact ih hl h h'
    · obtain ⟨rfl, rfl⟩ := List.cons.inj heq'
      exact hx (h.subset (by simp))
    · obtain ⟨rfl, rfl⟩ := List.cons.inj heq
      exact hx (h'.subset (by simp))
    · obtain ⟨rfl, rfl⟩ := List.cons.inj heq
      obtain ⟨rfl, rfl⟩ := List.cons.inj heq'
      exact hx (h.subset (by simp))

/-- With distinct keys the first element with a key is the one that has it. -/
theorem find_key {β : Type*} [DecidableEq β] {f : α → β} (hl : (l.map f).Nodup) (ha : a ∈ l) :
    l.find? (fun x => f x = f a) = some a := by
  induction l with
  | nil => exact absurd ha List.not_mem_nil
  | cons x l ih =>
    rw [List.map_cons, List.nodup_cons] at hl
    rcases List.mem_cons.mp ha with rfl | hmem
    · exact List.find?_cons_of_pos (decide_eq_true rfl)
    · have hne : f x ≠ f a := fun h => hl.1 (List.mem_map.mpr ⟨a, hmem, h.symm⟩)
      rw [List.find?_cons_of_neg (by simp [hne])]
      exact ih hl.2 hmem

theorem eraseP_key {β : Type*} [DecidableEq α] [DecidableEq β] {f : α → β} (hl : (l.map f).Nodup) (ha : a ∈ l) :
    l.eraseP (fun x => f x = f a) = l.erase a := by
  induction l with
  | nil => exact absurd ha List.not_mem_nil
  | cons x l ih =>
    rw [List.map_cons, List.nodup_cons] at hl
    by_cases hx : x = a
    · rw [hx, List.eraseP_cons_of_pos (by simp), List.erase_cons_head]
    · have hmem : a ∈ l := (List.mem_cons.mp ha).resolve_left (Ne.symm hx)
      have hne : f x ≠ f a := fun h => hl.1 (List.mem_map.mpr ⟨a, hmem, h.symm⟩)
      rw [List.eraseP_cons_of_neg (by simp [hne]), List.erase_cons_tail (by simp [hx]), ih hl.2 hmem]

/-- Two lists of one length that differ do so first at some place. -/
theorem first_difference {k l : List α} (hlen : k.length = l.length) (hne : k ≠ l) :
    ∃ p a b ks ls, k = p ++ a :: ks ∧ l = p ++ b :: ls ∧ a ≠ b := by
  induction k generalizing l with
  | nil => exact absurd (List.length_eq_zero_iff.mp hlen.symm).symm hne
  | cons a ks ih =>
    obtain - | ⟨b, ls⟩ := l
    · cases hlen
    by_cases hab : a = b
    · subst hab
      obtain ⟨p, c, d, ks', ls', hk, hl, hcd⟩ := ih (Nat.succ.inj hlen) fun h => hne (by rw [h])
      exact ⟨a :: p, c, d, ks', ls', by rw [hk]; rfl, by rw [hl]; rfl, hcd⟩
    · exact ⟨[], a, b, ks, ls, rfl, rfl, hab⟩

/-- Appending what is not there yet keeps the first of the equal elements. -/
theorem foldl_append_eraseDups [DecidableEq α] (xs l : List α) :
    xs.foldl (fun l x => if x ∈ l then l else l ++ [x]) l = l ++ (xs.filter (· ∉ l)).eraseDups := by
  induction xs generalizing l with
  | nil => simp
  | cons x xs ih =>
    rw [List.foldl_cons, ih]
    by_cases hx : x ∈ l
    · rw [if_pos hx, List.filter_cons_of_neg (by simpa using hx)]
    · have hfilter : (xs.filter (· ∉ l)).filter (fun b => !b == x) = xs.filter (· ∉ l ++ [x]) := by
        rw [List.filter_filter]
        apply List.filter_congr
        intro b _
        by_cases hb : b = x <;> simp [hb]
      rw [if_neg hx, List.filter_cons_of_pos (by simpa using hx), List.eraseDups_cons, hfilter, List.append_assoc]
      rfl

theorem nodup_eraseDups [DecidableEq α] (xs : List α) : xs.eraseDups.Nodup := by
  have hkeep : ∀ xs l : List α, l.Nodup → (xs.foldl (fun l x => if x ∈ l then l else l ++ [x]) l).Nodup := by
    intro xs
    induction xs with
    | nil => exact fun l hl => hl
    | cons x xs ih =>
      intro l hl
      rw [List.foldl_cons]
      split
      · exact ih l hl
      next hx =>
        refine ih _ (List.nodup_append.mpr ⟨hl, List.nodup_singleton x, ?_⟩)
        intro b hb y hy heq
        rw [List.mem_singleton.mp hy] at heq
        exact hx (heq ▸ hb)
  have h := hkeep xs [] List.nodup_nil
  rw [foldl_append_eraseDups] at h
  simpa using h

end AfbBinder.Lib.Lists
