import Mathlib.Data.List.Perm.Basic

/-! Actions taken in another order: when the pairs that change their order commute, the
state at the end is the same. -/
namespace AfbBinder.Lib.Traces
variable {σ ι : Type*} {f : σ → ι → σ}

/-- An action that commutes with each of a list may be taken before them. -/
theorem foldl_comm {a : ι} {l : List ι} (h : ∀ b ∈ l, ∀ s, f (f s b) a = f (f s a) b) (s : σ) :
    f (l.foldl f s) a = l.foldl f (f s a) := by
  induction l generalizing s with
  | nil => rfl
  | cons b l ih =>
    rw [List.foldl_cons, ih fun c hc => h c (List.mem_cons_of_mem b hc), List.foldl_cons,
      h b List.mem_cons_self]

/-- Two orders of the same actions. -/
theorem foldl_reordered {l l' : List ι} (hp : l.Perm l')
    (h : ∀ a b, [a, b].Sublist l → [b, a].Sublist l' → ∀ s, f (f s a) b = f (f s b) a) (s : σ) :
    l.foldl f s = l'.foldl f s := by
  induction l' generalizing l s with
  | nil => rw [hp.eq_nil]
  | cons a l' ih =>
    -- the first of the second order goes to the front of the first one
    obtain ⟨p, q, rfl⟩ := List.append_of_mem (hp.mem_iff.mpr List.mem_cons_self)
    have hrest : (p ++ q).Perm l' :=
      (List.perm_cons a).mp (List.perm_middle.symm.trans hp)
    have hsub : (p ++ q).Sublist (p ++ a :: q) :=
      List.Sublist.append_left (List.sublist_cons_self a q) p
    have hfront : ∀ b ∈ p, ∀ s, f (f s b) a = f (f s a) b := by
      intro b hb
      refine h b a ?_ ?_
      · exact (List.singleton_sublist.mpr hb).append (List.singleton_sublist.mpr List.mem_cons_self)
      · exact (List.singleton_sublist.mpr
          (hrest.mem_iff.mp (List.mem_append_left q hb))).cons_cons a
    calc (p ++ a :: q).foldl f s
        = q.foldl f (f (p.foldl f s) a) := by rw [List.foldl_append, List.foldl_cons]
      _ = (p ++ q).foldl f (f s a) := by rw [foldl_comm hfront, List.foldl_append]
      _ = l'.foldl f (f s a) := by
        refine ih hrest (fun b c hbc hcb => ?_) (f s a)
        exact h b c (hbc.trans hsub) (hcb.cons a)

end AfbBinder.Lib.Traces
