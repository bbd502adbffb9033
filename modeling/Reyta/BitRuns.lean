-- Runs of equal bits below a bound: the scan to the end of a run, the runs of
-- zeros in their order, and bits that are spelled by the lengths of their runs.
import Mathlib.Data.List.Basic
import Mathlib.Data.Nat.Count
import Mathlib.Tactic.Common

namespace bit_run

variable (p : Nat → Bool) (n : Nat)

/-- `while i < n && p(i) == v { i += 1 }` with at most `k` turns. -/
def scan (v : Bool) : Nat → Nat → Nat
  | 0, i => i
  | k + 1, i => if i < n ∧ p i = v then scan v k (i + 1) else i

/-- Where the run of `v` from `i` on ends. -/
def run_end (v : Bool) (i : Nat) : Nat := scan p n v (n - i) i

/-- The runs of zeros from `i` on, at most `k` of them. A run has a start and an
end, and the end does not belong to it. -/
def zero_runs : Nat → Nat → List (Nat × Nat)
  | 0, _ => []
  | k + 1, i =>
    let start := run_end p n true i
    if start < n then (start, run_end p n false start) :: zero_runs k (run_end p n false start)
    else []

/-- A run of zeros starts here. -/
def starts_zeros (i : Nat) : Bool := !p i && (i == 0 || p (i - 1))

/-- How many runs of zeros there are below `n`. -/
def zero_run_count : Nat := Nat.count (fun i => starts_zeros p i = true) n

/-- The run of `v` from `i` on ends at `e`. -/
structure EndsAt (v : Bool) (i e : Nat) : Prop where
  le : i ≤ e
  le_bound : e ≤ n
  run : ∀ j, i ≤ j → j < e → p j = v
  stop : e < n → p e ≠ v

/-- The list has all runs of zeros from `i` on. -/
inductive ZeroRuns : Nat → List (Nat × Nat) → Prop
  | nil {i} (h : ∀ j, i ≤ j → j < n → p j = true) : ZeroRuns i []
  | cons {i s e l} (hs : EndsAt p n true i s) (hlt : s < n) (he : EndsAt p n false s e)
      (h : ZeroRuns e l) : ZeroRuns i ((s, e) :: l)

/-- A run of zeros with a one on both sides, or the end of the bits. -/
structure IsZeroRun (r : Nat × Nat) : Prop where
  lt : r.1 < r.2
  le : r.2 ≤ n
  zeros : ∀ j, r.1 ≤ j → j < r.2 → p j = false
  before : 0 < r.1 → p (r.1 - 1) = true
  after : r.2 < n → p r.2 = true

variable {p n}

theorem scan_spec {v : Bool} {k i : Nat} (hk : i + k = n) : EndsAt p n v i (scan p n v k i) := by
  induction k generalizing i with
  | zero => exact ⟨Nat.le_refl _, by rw [scan]; omega, fun j _ _ => by rw [scan] at *; omega,
      fun h => by rw [scan] at h; omega⟩
  | succ k ih =>
    rw [scan]
    split_ifs with h
    · obtain ⟨hle, hbound, hrun, hstop⟩ := ih (i := i + 1) (by omega)
      refine ⟨by omega, hbound, ?_, hstop⟩
      intro j hj hlt
      by_cases he : j = i
      · rw [he]
        exact h.2
      · exact hrun j (by omega) hlt
    · refine ⟨Nat.le_refl _, by omega, fun j _ _ => by omega, ?_⟩
      intro hlt hv
      exact h ⟨hlt, hv⟩

theorem run_end_spec {v : Bool} {i : Nat} (h : i ≤ n) : EndsAt p n v i (run_end p n v i) :=
  scan_spec (by omega)

/-- A run with a first bit is not empty. -/
theorem EndsAt.lt {v : Bool} {i e : Nat} (h : EndsAt p n v i e) (hi : i < n) (hv : p i = v) :
    i < e := by
  apply Nat.lt_of_le_of_ne h.le
  rintro rfl
  exact h.stop hi hv

theorem EndsAt.bit_false {i s : Nat} (h : EndsAt p n true i s) (hlt : s < n) : p s = false := by
  simpa using h.stop hlt

theorem EndsAt.unique {v : Bool} {i e e' : Nat} (h : EndsAt p n v i e) (h' : EndsAt p n v i e') :
    e = e' := by
  have hle := h.le
  have hle' := h'.le
  have hbound := h.le_bound
  have hbound' := h'.le_bound
  rcases Nat.lt_trichotomy e e' with hlt | he | hlt
  · exact absurd (h'.run e hle hlt) (h.stop (by omega))
  · exact he
  · exact absurd (h.run e' hle' hlt) (h'.stop (by omega))

theorem zero_runs_spec {k i : Nat} (hi : i ≤ n) (hk : n - i ≤ k) :
    ZeroRuns p n i (zero_runs p n k i) := by
  induction k generalizing i with
  | zero => exact .nil fun j hj hlt => by omega
  | succ k ih =>
    have hs : EndsAt p n true i (run_end p n true i) := run_end_spec hi
    rw [zero_runs]
    split_ifs with hlt
    · have he : EndsAt p n false (run_end p n true i) _ := run_end_spec hs.le_bound
      have hpos := he.lt hlt (hs.bit_false hlt)
      have hle := hs.le
      exact .cons hs hlt he (ih he.le_bound (by omega))
    · exact .nil fun j hj hjn => hs.run j hj (by omega)

/-- Such a run has every run of zeros that it meets. -/
theorem IsZeroRun.within {r r' : Nat × Nat} {j : Nat} (h : IsZeroRun p n r)
    (h' : IsZeroRun p n r') (hj : r.1 ≤ j ∧ j < r.2) (hj' : r'.1 ≤ j ∧ j < r'.2) :
    r'.1 ≤ r.1 ∧ r.2 ≤ r'.2 := by
  have hle := h.le
  constructor
  · by_contra hlt
    have hone := h'.before (by omega)
    rw [h.zeros (r'.1 - 1) (by omega) (by omega)] at hone
    cases hone
  · by_contra hlt
    have hone := h'.after (by omega)
    rw [h.zeros r'.2 (by omega) (by omega)] at hone
    cases hone

/-- Two such runs with a bit in common are one. -/
theorem IsZeroRun.eq_of_mem {r r' : Nat × Nat} {j : Nat} (h : IsZeroRun p n r)
    (h' : IsZeroRun p n r') (hj : r.1 ≤ j ∧ j < r.2) (hj' : r'.1 ≤ j ∧ j < r'.2) : r = r' := by
  obtain ⟨hstart, hstop⟩ := h.within h' hj hj'
  obtain ⟨hstart', hstop'⟩ := h'.within h hj' hj
  exact Prod.ext (Nat.le_antisymm hstart' hstart) (Nat.le_antisymm hstop hstop')

namespace ZeroRuns

variable {i : Nat} {l : List (Nat × Nat)}

theorem start_ge (h : ZeroRuns p n i l) {r : Nat × Nat} (hr : r ∈ l) : i ≤ r.1 := by
  induction h with
  | nil => cases hr
  | cons hs _ he _ ih =>
    have hle := hs.le
    have hle' := he.le
    rcases List.mem_cons.1 hr with rfl | hr
    · exact hle
    · have := ih hr
      omega

/-- A bit is zero exactly if a run has it. -/
theorem mem_iff (h : ZeroRuns p n i l) {j : Nat} (hi : i ≤ j) (hj : j < n) :
    p j = false ↔ ∃ r ∈ l, r.1 ≤ j ∧ j < r.2 := by
  induction h with
  | nil hall => simp [hall j hi hj]
  | @cons i s e l hs hlt he hrest ih =>
    simp only [List.mem_cons, exists_eq_or_imp]
    by_cases hjs : j < s
    · have hone := hs.run j hi hjs
      have hnone : ∀ r ∈ l, ¬ (r.1 ≤ j ∧ j < r.2) := by
        intro r hr hin
        have hge := hrest.start_ge hr
        have hle := he.le
        omega
      simp only [hone, Bool.true_eq_false, false_iff, not_or, not_exists, not_and]
      exact ⟨fun h => by omega, fun r hr h => by have := hnone r hr; omega⟩
    · by_cases hje : j < e
      · have hzero := he.run j (by omega) hje
        simp only [hzero, true_iff]
        exact .inl ⟨by omega, hje⟩
      · rw [ih (by omega)]
        simp only [show ¬ (s ≤ j ∧ j < e) by omega, false_or]

/-- The runs lie apart, in their order. -/
theorem pairwise (h : ZeroRuns p n i l) :
    l.Pairwise (fun r r' => r.2 < r'.1) ∧ ∀ r ∈ l, r.1 < r.2 ∧ r.2 ≤ n ∧ p r.1 = false := by
  induction h with
  | nil => simp
  | @cons i s e l hs hlt he hrest ih =>
    obtain ⟨hsorted, hruns⟩ := ih
    have hzero := hs.bit_false hlt
    refine ⟨List.pairwise_cons.2 ⟨?_, hsorted⟩, ?_⟩
    · intro r hr
      obtain ⟨hr1, hr2, hr0⟩ := hruns r hr
      have hge := hrest.start_ge hr
      have hne : r.1 ≠ e := by
        intro heq
        rw [heq] at hr0
        exact he.stop (by omega) hr0
      change e < r.1
      omega
    · intro r hr
      rcases List.mem_cons.1 hr with rfl | hr
      · exact ⟨he.lt hlt hzero, he.le_bound, hzero⟩
      · exact hruns r hr

/-- The runs in the list are the runs of zeros that cannot be made longer. -/
theorem isZeroRun (h : ZeroRuns p n i l) (hi : i = 0 ∨ i = n ∨ p i = true) {r : Nat × Nat}
    (hr : r ∈ l) : IsZeroRun p n r := by
  induction h with
  | nil => cases hr
  | @cons i s e l hs hlt he hrest ih =>
    have hzero := hs.bit_false hlt
    have hle := hs.le
    rcases List.mem_cons.1 hr with rfl | hr
    · refine ⟨he.lt hlt hzero, he.le_bound, he.run, ?_, ?_⟩
      · intro hpos
        by_cases hsi : s = i
        · rw [hsi] at hzero hlt hpos
          rcases hi with rfl | rfl | hone
          · omega
          · omega
          · rw [hone] at hzero
            cases hzero
        · exact hs.run (s - 1) (by omega) (by omega)
      · intro hen
        simpa using he.stop hen
    · refine ih ?_ hr
      by_cases hen : e < n
      · right; right
        simpa using he.stop hen
      · have hbound := he.le_bound
        right; left
        omega

theorem mem_iff_isZeroRun (h : ZeroRuns p n 0 l) {r : Nat × Nat} : r ∈ l ↔ IsZeroRun p n r := by
  constructor
  · exact h.isZeroRun (.inl rfl)
  · intro hr
    have hlt := hr.lt
    have hle := hr.le
    have hzero := hr.zeros r.1 (Nat.le_refl _) hlt
    obtain ⟨r', hr', hin⟩ := (h.mem_iff (Nat.zero_le _) (by omega)).1 hzero
    rw [hr.eq_of_mem (h.isZeroRun (.inl rfl) hr') ⟨Nat.le_refl _, hlt⟩ hin]
    exact hr'

/-- Some run is not among the first `m`. -/
theorem exists_zero_not_taken (h : ZeroRuns p n i l) {m : Nat} (hm : m < l.length) :
    ∃ j, i ≤ j ∧ j < n ∧ p j = false ∧ ∀ r ∈ l.take m, ¬ (r.1 ≤ j ∧ j < r.2) := by
  obtain ⟨hsorted, hruns⟩ := h.pairwise
  have hmem : l[m] ∈ l := List.getElem_mem hm
  obtain ⟨hlt, hle, hzero⟩ := hruns _ hmem
  refine ⟨l[m].1, h.start_ge hmem, by omega, hzero, ?_⟩
  intro r hr hin
  obtain ⟨k, hk, rfl⟩ := List.getElem_of_mem hr
  rw [List.length_take] at hk
  rw [List.getElem_take] at hin
  have hlt' := List.pairwise_iff_getElem.1 hsorted k m (by omega) hm (by omega)
  omega

end ZeroRuns

/-- No start of a run in an interval. -/
theorem count_eq_of_none {q : Nat → Prop} [DecidablePred q] {i e : Nat} (h : i ≤ e)
    (hnone : ∀ j, i ≤ j → j < e → ¬ q j) : Nat.count q e = Nat.count q i := by
  induction e, h using Nat.le_induction with
  | base => rfl
  | succ e hie ih =>
    rw [Nat.count_succ, if_neg (hnone e hie (Nat.lt_succ_self e)), Nat.add_zero]
    exact ih fun j hj hlt => hnone j hj (by omega)

theorem ZeroRuns.length_add_count {i : Nat} {l : List (Nat × Nat)} (h : ZeroRuns p n i l)
    (hi : i ≤ n) (hstart : i = 0 ∨ i = n ∨ p i = true) :
    l.length + Nat.count (fun j => starts_zeros p j = true) i = zero_run_count p n := by
  unfold zero_run_count
  induction h with
  | @nil i hall =>
    rw [List.length_nil, Nat.zero_add]
    refine (count_eq_of_none hi ?_).symm
    intro j hj hlt
    simp [starts_zeros, hall j hj hlt]
  | @cons i s e l hs hlt he hrest ih =>
    have hzero := hs.bit_false hlt
    have hpos := he.lt hlt hzero
    -- the run counts once, at its start
    have hbefore : Nat.count (fun j => starts_zeros p j = true) s =
        Nat.count (fun j => starts_zeros p j = true) i := by
      refine count_eq_of_none hs.le ?_
      intro j hj hjs
      simp [starts_zeros, hs.run j hj hjs]
    have hat : starts_zeros p s = true := by
      by_cases hsi : s = i
      · rw [hsi] at hzero hlt
        rcases hstart with rfl | rfl | hone
        · simp [starts_zeros, hsi, hzero]
        · omega
        · rw [hone] at hzero
          cases hzero
      · have hle := hs.le
        have hprev := hs.run (s - 1) (by omega) (by omega)
        simp [starts_zeros, hzero, hprev]
    have hafter : Nat.count (fun j => starts_zeros p j = true) e =
        Nat.count (fun j => starts_zeros p j = true) (s + 1) := by
      refine count_eq_of_none hpos ?_
      intro j hj hje
      have hprev := he.run (j - 1) (by omega) (by omega)
      simp [starts_zeros, hprev]
      omega
    have hrest' := ih he.le_bound (by
      by_cases hen : e = n
      · exact .inr (.inl hen)
      · right; right
        have hbound := he.le_bound
        simpa using he.stop (by omega))
    rw [hafter, Nat.count_succ, if_pos hat, hbefore] at hrest'
    rw [List.length_cons]
    omega

/-! ## Bits spelled by the lengths of their runs -/

variable (p n) in
/-- The lengths of runs from `i` up to the bound, which alternate and start with
a run of `v`. A run may be empty. -/
inductive Spells : Nat → Bool → List Nat → Prop
  | nil (v : Bool) : Spells n v []
  | cons {i e v l} (hle : i ≤ e) (hrun : ∀ j, i ≤ j → j < e → p j = v) (h : Spells e (!v) l) :
      Spells i v ((e - i) :: l)

namespace Spells

variable {i : Nat} {v : Bool} {l : List Nat}

theorem le (h : Spells p n i v l) : i ≤ n := by
  induction h with
  | nil => exact Nat.le_refl _
  | cons hle _ _ ih => exact Nat.le_trans hle ih

theorem mem_le (h : Spells p n i v l) {k : Nat} (hk : k ∈ l) : k ≤ n := by
  induction h with
  | nil => cases hk
  | cons hle _ hrest ih =>
    have hbound := hrest.le
    rcases List.mem_cons.1 hk with rfl | hk
    · omega
    · exact ih hk

/-- Bits that always change need a run each. -/
theorem le_length (h : Spells p n i v l) (hchange : ∀ j, j + 1 < n → p j ≠ p (j + 1)) :
    n - i ≤ l.length := by
  induction h with
  | nil => omega
  | @cons i e v l hle hrun hrest ih =>
    have hbound := hrest.le
    have hone : e ≤ i + 1 := by
      by_contra hlong
      apply hchange i (by omega)
      rw [hrun i (by omega) (by omega), hrun (i + 1) (by omega) (by omega)]
    rw [List.length_cons]
    omega

end Spells

end bit_run
