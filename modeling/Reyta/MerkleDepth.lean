-- How much the check of a proof does for the size that a peer claims. All its loops
-- end within 64 turns and nothing it computes overflows, whatever the size is, since
-- the path to a leaf has at most one turn for each level of the tree.
import Mathlib.Data.Nat.Log
import Mathlib.Order.Bounds.Basic
import Reyta.CheckedLoop
import Reyta.Merkle

open byte_string checked_loop hash_tree

namespace rtp2_core.merkle

open crypto

/-! ## The check, with limits -/

/-- A turn of `while k <= (leaf_count - 1) / 2 { k *= 2 }`. -/
def double_turn (leaf_count k : UInt64) : Option (Turn UInt64 UInt64) := do
  let last ← checked_sub leaf_count 1
  if k ≤ last / 2 then (checked_mul k 2).map .next else some (.done k)

/-- `expected_directions_inner` with at most `levels` calls of itself. -/
def directions_within : Nat → UInt64 → UInt64 → Option (List Direction)
  | 0, leaf_count, _ => if leaf_count ≤ 1 then some [] else none
  | levels + 1, leaf_count, index =>
    if leaf_count ≤ 1 then some []
    else do
      let k ← run (double_turn leaf_count) 64 1
      if index < k then
        let dirs ← directions_within levels k index
        some (dirs ++ [.Right])
      else
        let count ← checked_sub leaf_count k
        let rest ← checked_sub index k
        let dirs ← directions_within levels count rest
        some (dirs ++ [.Left])

/-- A turn of the loop over the siblings. -/
def hash_turn (P : Primitives) (acc : Arr 32) (step : ProofStep) : Arr 32 :=
  match step.direction with
  | .Left => node_hash P step.hash acc
  | .Right => node_hash P acc step.hash

/-- `verify_proof` in which no loop takes more than `levels` turns. The loop over
the directions goes on after a difference. -/
def verify_proof_within (P : Primitives) (levels : Nat) (leaf : Arr 32) (index leaf_count : UInt64)
    (siblings : List ProofStep) (expected_root : Arr 32) : Option (Except ProofError Unit) :=
  if index ≥ leaf_count then some (.error .IndexOutOfRange)
  else if leaf_count = 0 then some (.error .Malformed)
  else do
    let last ← checked_sub leaf_count 1
    let max_depth := 64 - leading_zeros last
    if siblings.length > max_depth then some (.error .DepthExceeded)
    else
      let expected_dirs ← directions_within levels leaf_count index
      if siblings.length ≠ expected_dirs.length then some (.error .TrailingSiblings)
      else
        let differs ← fold (fun differs s => differs || decide (s.1.direction ≠ s.2)) levels
          (siblings.zip expected_dirs) false
        if differs then some (.error .Malformed)
        else
          let acc ← fold (hash_turn P) levels siblings leaf
          some (if ct_eq acc.bytes expected_root.bytes then .ok () else .error .RootMismatch)

/-! ## The split -/

section Split

variable {n : UInt64}

theorem toNat_of_one_lt (h : 1 < n) : 1 < n.toNat := UInt64.lt_iff_toNat_lt.1 h

/-- A power of two that the doubling reaches, and from which it finds the split. -/
def Doubles (n k : UInt64) : Prop :=
  ∃ (hk : 0 < k.toNat) (j : Nat), k.toNat = 2 ^ j ∧ j ≤ 63 ∧ double_u64 n k hk = split_u64 n

theorem Doubles.turn (hn : 1 < n) {k : UInt64} (h : Doubles n k) :
    (∃ k', double_turn n k = some (.next k') ∧ Doubles n k' ∧
      63 - k'.toNat.log2 < 63 - k.toNat.log2) ∨
    ∃ r, double_turn n k = some (.done r) ∧ r = split_u64 n := by
  obtain ⟨hk, j, hj, hj63, hsplit⟩ := h
  have hlast : checked_sub n 1 = some (n - 1) := checked_sub_of_le (UInt64.le_of_lt hn)
  unfold double_turn
  rw [hlast]
  rw [double_u64] at hsplit
  by_cases hle : k ≤ (n - 1) / 2
  · obtain ⟨hdouble, hbound⟩ := toNat_double hle
    have hmax := (n - 1).toNat_lt
    have hnext : (k * 2).toNat = 2 ^ (j + 1) := by rw [hdouble, hj, Nat.pow_succ]
    have hj64 : j + 1 < 64 := by
      rw [← Nat.pow_lt_pow_iff_right (a := 2) (by decide)]
      omega
    have hmul : checked_mul k 2 = some (k * 2) := by
      refine checked_mul_of_lt (Nat.lt_of_le_of_lt ?_ hmax)
      exact hbound
    rw [dif_pos hle] at hsplit
    refine .inl ⟨k * 2, ?_, ⟨by omega, j + 1, hnext, by omega, hsplit⟩, ?_⟩
    · change (if k ≤ (n - 1) / 2 then _ else _) = _
      rw [if_pos hle, hmul]
      rfl
    · rw [hnext, hj, Nat.log2_two_pow, Nat.log2_two_pow]
      omega
  · rw [dif_neg hle] at hsplit
    exact .inr ⟨k, if_neg hle, hsplit⟩

/-- The doubling ends within 64 turns. -/
theorem run_double_turn (h : 1 < n) : run (double_turn n) 64 1 = some (split_u64 n) := by
  have hstart : Doubles n 1 := ⟨by decide, 0, rfl, by decide, rfl⟩
  obtain ⟨k, hrun, rfl⟩ := run_of_variant (Doubles n) (fun k => 63 - k.toNat.log2)
    (fun k hk => hk.turn h) hstart (show 63 - (1 : UInt64).toNat.log2 < 64 by decide)
  exact hrun

/-- The split is the largest power of two below the count. -/
theorem split_u64_isGreatest (h : 1 < n) :
    IsGreatest {p | (∃ j, p = 2 ^ j) ∧ p < n.toNat} (split_u64 n).toNat := by
  obtain ⟨hsame, -, hlt⟩ := split_u64.spec (UInt64.not_le.2 h)
  obtain ⟨⟨j, hj⟩, hhalf⟩ := double_below_pow n.toNat 1 (by decide)
  change largest_power_of_two_below n.toNat = 1 * 2 ^ j at hj
  change n.toNat ≤ 2 * largest_power_of_two_below n.toNat at hhalf
  rw [Nat.one_mul] at hj
  constructor
  · exact ⟨⟨j, hsame.trans hj⟩, hlt⟩
  · rintro p ⟨⟨i, rfl⟩, hi⟩
    rw [hj, ← Nat.pow_succ'] at hhalf
    have hij : i < j + 1 :=
      (Nat.pow_lt_pow_iff_right (show 1 < 2 by decide)).1 (Nat.lt_of_lt_of_le hi hhalf)
    rw [hsame, hj]
    exact Nat.pow_le_pow_right (by decide) (Nat.le_of_lt_succ hij)

end Split

/-! ## The path -/

section Path

variable {leaf_count index : UInt64}

/-- A tree that fits into `levels` levels needs no more calls. -/
theorem directions_within_eq {levels : Nat} (h : leaf_count.toNat ≤ 2 ^ levels) :
    directions_within levels leaf_count index = some (expected_directions leaf_count index) := by
  unfold expected_directions
  induction levels generalizing leaf_count index with
  | zero =>
    have hone : leaf_count ≤ 1 := UInt64.le_iff_toNat_le.2 h
    rw [directions_within, if_pos hone, expected_directions_inner, dif_pos hone]
  | succ levels ih =>
    rw [directions_within, expected_directions_inner]
    by_cases hone : leaf_count ≤ 1
    · rw [if_pos hone, dif_pos hone]
    · have hlt := UInt64.not_le.1 hone
      obtain ⟨hsplit, -, hbelow⟩ := split_u64.spec hone
      obtain ⟨hleft, hright⟩ := largest_power_of_two_below.le_half (toNat_of_one_lt hlt) h
      have hsub : split_u64 leaf_count ≤ leaf_count :=
        UInt64.le_iff_toNat_le.2 (Nat.le_of_lt hbelow)
      rw [if_neg hone, dif_neg hone, run_double_turn hlt]
      change (if index < split_u64 leaf_count then _ else _) = _
      by_cases hside : index < split_u64 leaf_count
      · rw [if_pos hside, ih (by rwa [hsplit])]
        simp only [if_pos hside]
        rfl
      · rw [if_neg hside, checked_sub_of_le hsub, checked_sub_of_le (UInt64.not_lt.1 hside)]
        simp only [if_neg hside]
        change (directions_within levels (leaf_count - split_u64 leaf_count)
          (index - split_u64 leaf_count)).bind _ = _
        rw [ih (by rwa [UInt64.toNat_sub_of_le _ _ hsub, hsplit])]
        rfl

theorem length_directions_within_le {levels : Nat} {dirs : List Direction}
    (h : directions_within levels leaf_count index = some dirs) : dirs.length ≤ levels := by
  induction levels generalizing leaf_count index dirs with
  | zero =>
    rw [directions_within] at h
    split_ifs at h
    obtain rfl := Option.some.inj h
    exact Nat.le_refl _
  | succ levels ih =>
    rw [directions_within] at h
    split_ifs at h
    · obtain rfl := Option.some.inj h
      exact Nat.zero_le _
    · simp only [Option.bind_eq_bind, Option.bind_eq_some_iff] at h
      obtain ⟨k, -, h⟩ := h
      split_ifs at h
      · obtain ⟨inner, hinner, hdirs⟩ := Option.bind_eq_some_iff.1 h
        rw [← Option.some.inj hdirs, List.length_append, List.length_singleton]
        exact Nat.succ_le_succ (ih hinner)
      · obtain ⟨count, -, h⟩ := Option.bind_eq_some_iff.1 h
        obtain ⟨rest, -, h⟩ := Option.bind_eq_some_iff.1 h
        obtain ⟨inner, hinner, hdirs⟩ := Option.bind_eq_some_iff.1 h
        rw [← Option.some.inj hdirs, List.length_append, List.length_singleton]
        exact Nat.succ_le_succ (ih hinner)

/-- The depth that the check allows is the logarithm of the size, rounded up. -/
theorem max_depth_eq_clog (h : 0 < leaf_count.toNat) :
    64 - leading_zeros (leaf_count - 1) = Nat.clog 2 leaf_count.toNat := by
  apply Nat.le_antisymm
  · unfold leading_zeros
    by_cases hzero : leaf_count - 1 = 0
    · rw [if_pos hzero]
      exact Nat.zero_le _
    · have hne : (leaf_count - 1).toNat ≠ 0 := fun h0 => hzero (UInt64.toNat_inj.1 h0)
      have hself := Nat.log2_self_le hne
      have hlog := (Nat.log2_lt hne).2 (leaf_count - 1).toNat_lt
      rw [toNat_sub_one h] at hself
      have hdeep : (leaf_count - 1).toNat.log2 < Nat.clog 2 leaf_count.toNat := by
        rw [Nat.lt_clog_iff_pow_lt (by decide), toNat_sub_one h]
        omega
      rw [if_neg hzero]
      omega
  · exact Nat.clog_le_of_le_pow (le_pow_max_depth h)

end Path

/-! ## The whole check -/

theorem foldl_or_eq_any {α : Type} (p : α → Bool) (l : List α) (found : Bool) :
    l.foldl (fun found a => found || p a) found = (found || l.any p) := by
  induction l generalizing found with
  | nil => simp
  | cons a l ih => simp [ih, Bool.or_assoc]

theorem foldl_hash_turn (P : Primitives) (leaf : Arr 32) (siblings : List ProofStep) :
    siblings.foldl (hash_turn P) leaf = climb (nodePair P) leaf siblings :=
  fold_eq_climb P leaf siblings

/-- No loop of the check takes more than 64 turns, and nothing overflows. -/
theorem verify_proof_within_eq (P : Primitives) (leaf : Arr 32) (index leaf_count : UInt64)
    (siblings : List ProofStep) (root : Arr 32) :
    verify_proof_within P 64 leaf index leaf_count siblings root =
      some (verify_proof P leaf index leaf_count siblings root) := by
  unfold verify_proof_within verify_proof
  by_cases hindex : index ≥ leaf_count
  · rw [if_pos hindex, if_pos hindex]
  · by_cases hzero : leaf_count = 0
    · rw [if_neg hindex, if_neg hindex, if_pos hzero, if_pos hzero]
    · have hpos : 0 < leaf_count.toNat :=
        Nat.pos_of_ne_zero fun h0 => hzero (UInt64.toNat_inj.1 h0)
      have hlast : checked_sub leaf_count 1 = some (leaf_count - 1) :=
        checked_sub_of_le (UInt64.le_iff_toNat_le.2 hpos)
      rw [if_neg hindex, if_neg hindex, if_neg hzero, if_neg hzero, hlast]
      simp only [Option.bind_eq_bind, Option.bind_some]
      by_cases hdeep : siblings.length > 64 - leading_zeros (leaf_count - 1)
      · rw [if_pos hdeep, if_pos hdeep]
      · have hshort : siblings.length ≤ 64 := by omega
        have hzip : (siblings.zip (expected_directions leaf_count index)).length ≤ 64 := by
          rw [List.length_zip]
          omega
        rw [if_neg hdeep, if_neg hdeep, directions_within_eq (Nat.le_of_lt leaf_count.toNat_lt)]
        simp only [Option.bind_some, fold_of_length_le hzip, fold_of_length_le hshort,
          foldl_or_eq_any, Bool.false_or, foldl_hash_turn, fold_eq_climb]
        split_ifs <;> rfl

/-- For every size and every leaf of it: the path is found with as many calls as the
tree has levels, which is the logarithm of the size rounded up, without an overflow
and with doublings of at most 64 turns. Each split is the largest power of two below
the count. So the check of a proof takes at most 64 turns in each of its loops. -/
theorem a_claimed_size_costs_at_most_64_levels (P : Primitives) (leaf_count index : UInt64)
    (hi : index < leaf_count) :
    directions_within (64 - leading_zeros (leaf_count - 1)) leaf_count index =
      some (expected_directions leaf_count index) ∧
    (expected_directions leaf_count index).length ≤ 64 - leading_zeros (leaf_count - 1) ∧
    64 - leading_zeros (leaf_count - 1) = Nat.clog 2 leaf_count.toNat ∧
    (∀ count : UInt64, 1 < count →
      run (double_turn count) 64 1 = some (split_u64 count) ∧
      IsGreatest {p | (∃ j, p = 2 ^ j) ∧ p < count.toNat} (split_u64 count).toNat) ∧
    ∀ (leaf : Arr 32) (siblings : List ProofStep) (root : Arr 32),
      verify_proof_within P 64 leaf index leaf_count siblings root =
        some (verify_proof P leaf index leaf_count siblings root) := by
  have hpos : 0 < leaf_count.toNat := Nat.zero_lt_of_lt (UInt64.lt_iff_toNat_lt.1 hi)
  have hdirs : directions_within (64 - leading_zeros (leaf_count - 1)) leaf_count index =
      some (expected_directions leaf_count index) := directions_within_eq (le_pow_max_depth hpos)
  exact ⟨hdirs, length_directions_within_le hdirs, max_depth_eq_clog hpos,
    fun count hcount => ⟨run_double_turn hcount, split_u64_isGreatest hcount⟩,
    fun leaf siblings root => verify_proof_within_eq P leaf index leaf_count siblings root⟩

/-- The largest size and its last leaf. -/
theorem the_largest_size_has_64_levels :
    (expected_directions 0xffffffffffffffff 0xfffffffffffffffe).length ≤ 64 ∧
      Nat.clog 2 (0xffffffffffffffff : UInt64).toNat = 64 := by
  obtain ⟨-, hlen, hlog, -⟩ := a_claimed_size_costs_at_most_64_levels sample 0xffffffffffffffff
    0xfffffffffffffffe (by decide)
  have hdepth : 64 - leading_zeros (0xffffffffffffffff - 1) = 64 := by decide
  exact ⟨hlen.trans (Nat.le_of_eq hdepth), hlog.symm.trans hdepth⟩

end rtp2_core.merkle
