-- A queue that may lose items. The ledger of a queue says of every item that
-- was put in what became of it, so that no loss goes unaccounted for. The rules
-- keep a ledger under each change of a queue.
import Mathlib.Data.List.InsertIdx
import Mathlib.Data.List.Perm.Basic
import Mathlib.Tactic.Common

namespace lossy_queue

/-- The items of a queue by the number of their arrival: taken out, still
waiting, replaced by the item that came next, or dropped. -/
structure Ledger where
  taken : List Nat
  waiting : List Nat
  replaced : List Nat
  dropped : List Nat

namespace Ledger

variable {α : Type}

/-- `l` accounts for a queue that got the items `all`, gave the items `out` and
holds `queue`. An item may be replaced if it is `excused`, and `lost` items are
dropped. -/
structure Of (l : Ledger) (all out queue : List α) (excused : Nat → Prop) (lost : Nat) :
    Prop where
  in_order : (l.taken ++ l.waiting).Pairwise (· < ·)
  one_fate : (l.taken ++ l.waiting ++ l.replaced ++ l.dropped).Perm (List.range all.length)
  taken_eq : l.taken.map (all[·]?) = out.map some
  waiting_eq : l.waiting.map (all[·]?) = queue.map some
  excused_of_replaced : ∀ i ∈ l.replaced, excused i
  lost_eq : l.dropped.length = lost

/-- What waits at the back came last. -/
def NewestAtBack (l : Ledger) (all : List α) : Prop :=
  ∀ i ∈ l.waiting.getLast?, i + 1 = all.length

variable {l : Ledger} {all out queue : List α} {excused : Nat → Prop} {lost : Nat}

theorem Of.nil (excused : Nat → Prop) : Of ⟨[], [], [], []⟩ ([] : List α) [] [] excused 0 where
  in_order := List.Pairwise.nil
  one_fate := List.Perm.refl _
  taken_eq := rfl
  waiting_eq := rfl
  excused_of_replaced := by simp
  lost_eq := rfl

theorem Of.lt_length (h : l.Of all out queue excused lost) {i : Nat}
    (hi : i ∈ l.taken ++ l.waiting) : i < all.length := by
  have hmem : i ∈ l.taken ++ l.waiting ++ l.replaced ++ l.dropped := by
    rw [List.append_assoc]
    exact List.mem_append_left _ hi
  exact List.mem_range.1 (h.one_fate.mem_iff.1 hmem)

/-- What waits was put in. -/
theorem Of.mem_all (h : l.Of all out queue excused lost) {a : α} (ha : a ∈ queue) : a ∈ all := by
  have hmem : some a ∈ l.waiting.map (all[·]?) := by
    rw [h.waiting_eq]
    exact List.mem_map_of_mem ha
  obtain ⟨i, -, hi⟩ := List.mem_map.1 hmem
  exact List.mem_of_getElem? hi

theorem Of.mono (h : l.Of all out queue excused lost) {excused' : Nat → Prop}
    (hmono : ∀ i, excused i → excused' i) : l.Of all out queue excused' lost :=
  { h with excused_of_replaced := fun i hi => hmono i (h.excused_of_replaced i hi) }

/-! ## An item is put in -/

/-- The numbers keep their meaning. -/
theorem map_getElem?_append {is : List Nat} {all : List α} (a : α)
    (h : ∀ i ∈ is, i < all.length) : is.map ((all ++ [a])[·]?) = is.map (all[·]?) := by
  apply List.map_congr_left
  intro i hi
  exact List.getElem?_append_left (h i hi)

/-- An item is put in at the back. -/
theorem Of.put (h : l.Of all out queue excused lost) (a : α) :
    ∃ l', Of l' (all ++ [a]) out (queue ++ [a]) excused lost ∧ l'.NewestAtBack (all ++ [a]) := by
  have htaken := map_getElem?_append a fun i hi => h.lt_length (List.mem_append_left _ hi)
  have hwaiting := map_getElem?_append a fun i hi => h.lt_length (List.mem_append_right _ hi)
  refine ⟨{ l with waiting := l.waiting ++ [all.length] }, ⟨?_, ?_, ?_, ?_,
    h.excused_of_replaced, h.lost_eq⟩, ?_⟩
  · rw [← List.append_assoc]
    refine List.pairwise_append.2 ⟨h.in_order, List.pairwise_singleton _ _, ?_⟩
    intro i hi j hj
    rw [List.mem_singleton.1 hj]
    exact h.lt_length hi
  · have hend : (l.taken ++ (l.waiting ++ [all.length]) ++ l.replaced ++ l.dropped).Perm
        (l.taken ++ l.waiting ++ l.replaced ++ l.dropped ++ [all.length]) := by
      simp only [List.append_assoc]
      refine List.Perm.append_left _ (List.Perm.append_left _ ?_)
      rw [← List.append_assoc l.replaced]
      exact List.perm_append_comm
    rw [List.length_append, List.length_singleton, List.range_succ]
    exact hend.trans (h.one_fate.append_right _)
  · rw [htaken]
    exact h.taken_eq
  · rw [List.map_append, List.map_append, hwaiting, h.waiting_eq]
    simp
  · intro i hi
    simp only [List.getLast?_append, List.getLast?_singleton, Option.some_or,
      Option.mem_some_iff] at hi
    simp [hi]

/-! ## An item goes -/

/-- The item at the front is taken out. -/
theorem Of.take {a : α} (h : l.Of all out (a :: queue) excused lost) (hback : l.NewestAtBack all) :
    ∃ l', Of l' all (out ++ [a]) queue excused lost ∧ l'.NewestAtBack all := by
  obtain ⟨i, is, hw⟩ : ∃ i is, l.waiting = i :: is := by
    have hlen := congrArg List.length h.waiting_eq
    simp only [List.length_map, List.length_cons] at hlen
    exact List.exists_cons_of_length_eq_add_one hlen
  have hwaiting := h.waiting_eq
  rw [hw, List.map_cons, List.map_cons, List.cons.injEq] at hwaiting
  have hsplit : l.taken ++ [i] ++ is = l.taken ++ l.waiting := by simp [hw]
  refine ⟨⟨l.taken ++ [i], is, l.replaced, l.dropped⟩, ⟨?_, ?_, ?_, hwaiting.2,
    h.excused_of_replaced, h.lost_eq⟩, ?_⟩
  · rw [hsplit]
    exact h.in_order
  · simp only [hsplit]
    exact h.one_fate
  · rw [List.map_append, List.map_append, h.taken_eq]
    simp [hwaiting.1]
  · intro j hj
    apply hback
    rw [hw]
    cases is with
    | nil => cases hj
    | cons k is => simpa [List.getLast?_cons_cons] using hj

/-- The numbers that wait after the one at `k` is gone. -/
theorem Of.eraseIdx (h : l.Of all out queue excused lost) {k : Nat} (hk : k < queue.length) :
    ∃ i, l.waiting[k]? = some i ∧ all[i]? = queue[k]? ∧
      l.waiting.Perm (i :: l.waiting.eraseIdx k) ∧
      (l.taken ++ l.waiting.eraseIdx k).Pairwise (· < ·) ∧
      (l.waiting.eraseIdx k).map (all[·]?) = (queue.eraseIdx k).map some := by
  have hlen : l.waiting.length = queue.length := by
    simpa using congrArg List.length h.waiting_eq
  have hk' : k < l.waiting.length := by omega
  refine ⟨l.waiting[k], List.getElem?_eq_getElem hk', ?_, ?_, ?_, ?_⟩
  · have hat := congrArg (fun m => m[k]?) h.waiting_eq
    simpa [hk, hk'] using hat
  · exact (List.getElem_cons_eraseIdx_perm hk').symm
  · exact h.in_order.sublist (List.Sublist.append_left (List.eraseIdx_sublist _ _) _)
  · rw [← List.eraseIdx_map, ← List.eraseIdx_map, h.waiting_eq]

/-- The item at `k` is dropped. -/
theorem Of.drop (h : l.Of all out queue excused lost) {k : Nat} (hk : k < queue.length) :
    ∃ l', Of l' all out (queue.eraseIdx k) excused (lost + 1) := by
  obtain ⟨i, -, -, hperm, horder, hmap⟩ := h.eraseIdx hk
  refine ⟨⟨l.taken, l.waiting.eraseIdx k, l.replaced, i :: l.dropped⟩, horder, ?_, h.taken_eq, hmap,
    h.excused_of_replaced, ?_⟩
  · refine List.Perm.trans ?_ h.one_fate
    refine List.perm_middle.trans ?_
    simp only [List.append_assoc]
    refine List.perm_middle.symm.trans (List.Perm.append_left _ ?_)
    exact (hperm.append_right _).symm
  · simp [h.lost_eq]

/-- The item at the back is replaced. -/
theorem Of.replace {a : α} (h : l.Of all out (queue ++ [a]) excused lost)
    (hback : l.NewestAtBack all)
    (hexcused : ∀ i, i + 1 = all.length → all[i]? = some a → excused i) :
    ∃ l', Of l' all out queue excused lost := by
  have hk : queue.length < (queue ++ [a]).length := by simp
  obtain ⟨i, hi, hat, hperm, horder, hmap⟩ := h.eraseIdx hk
  have hlast : i ∈ l.waiting.getLast? := by
    have hlen : l.waiting.length = queue.length + 1 := by
      simpa using congrArg List.length h.waiting_eq
    rw [List.getLast?_eq_getElem?, hlen]
    exact hi
  have hqueue : (queue ++ [a]).eraseIdx queue.length = queue := by
    rw [List.eraseIdx_append_of_length_le (Nat.le_refl _)]
    simp
  rw [hqueue] at hmap
  refine ⟨⟨l.taken, l.waiting.eraseIdx queue.length, i :: l.replaced, l.dropped⟩, horder, ?_,
    h.taken_eq, hmap, ?_, h.lost_eq⟩
  · refine List.Perm.trans ?_ h.one_fate
    simp only [List.append_assoc, List.cons_append]
    refine List.Perm.append_left _ (List.perm_middle.trans ?_)
    rw [← List.cons_append]
    exact (hperm.append_right _).symm
  · intro j hj
    rcases List.mem_cons.1 hj with rfl | hj
    · exact hexcused j (hback j hlast) (by simpa using hat)
    · exact h.excused_of_replaced j hj

end Ledger

end lossy_queue
