-- Lists that are sorted and cut to a length: what comes first in the order goes.
-- The sort is stable, so of equal ones the one that was added last stays longest.
import Mathlib.Data.List.Sort
import Mathlib.Tactic.Common

namespace oldest_out

theorem nodup_map_of_subperm {α β : Type} {f : α → β} {l l' : List α} (h : l.Subperm l')
    (hl' : (l'.map f).Nodup) : (l.map f).Nodup := by
  obtain ⟨m, hperm, hsub⟩ := h
  exact (hperm.map f).nodup_iff.1 ((hsub.map f).nodup hl')

variable {α : Type} (r : α → α → Prop) [DecidableRel r]

/-- The last `n` of the sorted list. -/
def keep_last (n : Nat) (l : List α) : List α :=
  (l.insertionSort r).drop ((l.insertionSort r).length - n)

variable {r} {n : Nat} {l : List α} {a : α}

theorem keep_last_subperm (n : Nat) (l : List α) : (keep_last r n l).Subperm l :=
  (List.drop_sublist _ _).subperm.trans (List.perm_insertionSort r l).subperm

theorem length_keep_last_le (n : Nat) (l : List α) : (keep_last r n l).length ≤ n := by
  unfold keep_last
  rw [List.length_drop]
  omega

/-- Nothing goes as long as there is room. -/
theorem mem_keep_last_of_length_le (h : l.length ≤ n) (ha : a ∈ l) : a ∈ keep_last r n l := by
  unfold keep_last
  rw [List.length_insertionSort, Nat.sub_eq_zero_of_le h, List.drop_zero]
  exact (List.mem_insertionSort r).2 ha

/-- With one too many, the first one goes. -/
theorem keep_last_of_length_eq (h : l.length = n + 1) :
    ∃ first, l.insertionSort r = first :: keep_last r n l := by
  have hlen : (l.insertionSort r).length = n + 1 := by rw [List.length_insertionSort, h]
  rcases hsorted : l.insertionSort r with _ | ⟨first, rest⟩
  · rw [hsorted] at hlen
    cases hlen
  · refine ⟨first, ?_⟩
    unfold keep_last
    rw [hsorted] at hlen ⊢
    rw [hlen, Nat.add_sub_cancel_left]
    rfl

variable [Std.Total r] [IsTrans α r]

theorem keep_last_pairwise (n : Nat) (l : List α) : (keep_last r n l).Pairwise r :=
  (List.pairwise_insertionSort r l).sublist (List.drop_sublist _ _)

/-- What goes comes before all others. -/
theorem first_of_not_mem (hlen : l.length ≤ n + 1) (ha : a ∈ l) (hnot : a ∉ keep_last r n l) :
    l.length = n + 1 ∧ ∀ b ∈ l, r a b := by
  have hfull : l.length = n + 1 := by
    by_contra hne
    exact hnot (mem_keep_last_of_length_le (by omega) ha)
  refine ⟨hfull, ?_⟩
  obtain ⟨first, hsorted⟩ := keep_last_of_length_eq (r := r) hfull
  have hpairwise := List.pairwise_insertionSort r l
  have hfirst : a = first := by
    have hmem := (List.mem_insertionSort r).2 ha
    rw [hsorted, List.mem_cons] at hmem
    exact hmem.resolve_right hnot
  rw [hsorted] at hpairwise
  intro b hb
  have hmem := (List.mem_insertionSort r).2 hb
  rw [hsorted, List.mem_cons] at hmem
  rw [hfirst]
  rcases hmem with rfl | hmem
  · exact (Std.Total.total b b).elim id id
  · exact (List.pairwise_cons.1 hpairwise).1 b hmem

/-- The one that was added last goes exactly if the others are many and each of
them comes strictly after it. -/
theorem added_not_mem_iff (hlen : l.length ≤ n) (hnodup : (l ++ [a]).Nodup) :
    a ∉ keep_last r n (l ++ [a]) ↔ l.length = n ∧ ∀ b ∈ l, ¬ r b a := by
  have hlen' : (l ++ [a]).length = l.length + 1 := by simp
  have hout : a ∉ l := fun ha => (List.nodup_append.1 hnodup).2.2 a ha a (by simp) rfl
  constructor
  · intro hnot
    obtain ⟨hfull, -⟩ := first_of_not_mem (by omega) (by simp) hnot
    refine ⟨by omega, fun b hb hba => hnot ?_⟩
    -- The sort is stable: one that may come before it does.
    have hpair : [b, a].Sublist (l ++ [a]) := (List.singleton_sublist.2 hb).append (.refl [a])
    have hsub := List.pair_sublist_insertionSort hba hpair
    obtain ⟨first, hsorted⟩ := keep_last_of_length_eq (r := r) hfull
    rw [hsorted] at hsub
    cases hsub with
    | cons _ hsub => exact hsub.subset (by simp)
    | cons_cons _ hsub => exact List.singleton_sublist.1 hsub
  · rintro ⟨hfull, hafter⟩ hmem
    obtain ⟨first, hsorted⟩ := keep_last_of_length_eq (r := r) (l := l ++ [a]) (n := n) (by omega)
    have hpairwise := List.pairwise_insertionSort r (l ++ [a])
    have hnodup' := (List.perm_insertionSort r (l ++ [a])).nodup_iff.2 hnodup
    have hfirst := (List.mem_insertionSort r).1 (hsorted ▸ List.mem_cons_self :
      first ∈ (l ++ [a]).insertionSort r)
    rw [hsorted] at hpairwise hnodup'
    rcases List.mem_append.1 hfirst with hfirst | hfirst
    · exact hafter first hfirst ((List.pairwise_cons.1 hpairwise).1 a hmem)
    · rw [List.mem_singleton.1 hfirst] at hnodup'
      exact (List.nodup_cons.1 hnodup').1 hmem

end oldest_out
