-- The BLAKE3 Merkle commitment over ciphertext chunks. The tree is split at
-- the largest power of two below its size, a proof is checked along the one
-- path that the size and the index fix, and so it opens that leaf only.
import Reyta.Crypto

open byte_string hash_tree

namespace rtp2_core.merkle

open crypto

def LEAF_DOMAIN : Bytes := ascii "RTP2-MERKLE-LEAF-v1\x00"
def NODE_DOMAIN : Bytes := ascii "RTP2-MERKLE-NODE-v1\x00"
def EMPTY_DOMAIN : Bytes := ascii "RTP2-MERKLE-EMPTY-v1\x00"

inductive ProofError where
  | IndexOutOfRange
  | DepthExceeded
  | TrailingSiblings
  | RootMismatch
  | Malformed
  deriving DecidableEq, Repr

/-- The side of a sibling: `Left` or `Right`. -/
abbrev Direction := Side

/-- A `direction` and the `hash` of a sibling. -/
abbrev ProofStep := Step (Arr 32)

variable (P : Primitives)

/-! ## The tree and its proofs -/

def leaf_hash (index : UInt64) (ciphertext : Bytes) : Arr 32 :=
  P.blake3 (LEAF_DOMAIN ++ be_bytes 8 index.toNat ++ be_bytes 4 ciphertext.length ++ ciphertext)

def node_hash (left right : Arr 32) : Arr 32 :=
  P.blake3 (NODE_DOMAIN ++ left.bytes ++ right.bytes)

def empty_root : Arr 32 := P.blake3 EMPTY_DOMAIN

/-- The loop `while k * 2 < n { k *= 2 }`. -/
def double_below (n k : Nat) (hk : 0 < k) : Nat :=
  if k * 2 < n then double_below n (k * 2) (by omega) else k
termination_by n - k

def largest_power_of_two_below (n : Nat) : Nat := double_below n 1 (by decide)

theorem double_below_spec (n k : Nat) (hk : 0 < k) (hlt : k < n) :
    0 < double_below n k hk ∧ double_below n k hk < n := by
  fun_induction double_below n k hk with
  | case1 k hk h ih => exact ih h
  | case2 k hk h => exact ⟨hk, hlt⟩

/-- The split leaves something on both sides. -/
theorem largest_power_of_two_below.spec {n : Nat} (h : 1 < n) :
    0 < largest_power_of_two_below n ∧ largest_power_of_two_below n < n :=
  double_below_spec n 1 (by decide) h

def merkle_root (leaves : List (Arr 32)) : Arr 32 :=
  if leaves.length = 0 then empty_root P
  else if h : leaves.length = 1 then leaves[0]
  else
    let k := largest_power_of_two_below leaves.length
    node_hash P (merkle_root (leaves.take k)) (merkle_root (leaves.drop k))
termination_by leaves.length
decreasing_by
  all_goals
    have := largest_power_of_two_below.spec (n := leaves.length) (by omega)
    simp only [List.length_take, List.length_drop]
    omega

def build_proof_inner (leaves : List (Arr 32)) (index : Nat) : List ProofStep :=
  if leaves.length ≤ 1 then []
  else
    let k := largest_power_of_two_below leaves.length
    if index < k then
      build_proof_inner (leaves.take k) index ++ [⟨.Right, merkle_root P (leaves.drop k)⟩]
    else
      build_proof_inner (leaves.drop k) (index - k) ++ [⟨.Left, merkle_root P (leaves.take k)⟩]
termination_by leaves.length
decreasing_by
  all_goals
    have := largest_power_of_two_below.spec (n := leaves.length) (by omega)
    simp only [List.length_take, List.length_drop]
    omega

def build_proof (leaves : List (Arr 32)) (index : Nat) : Except ProofError (List ProofStep) :=
  if index ≥ leaves.length then .error .IndexOutOfRange else .ok (build_proof_inner P leaves index)

theorem build_proof_inner_length (leaves : List (Arr 32)) (index : Nat) :
    (build_proof_inner P leaves index).length ≤ leaves.length := by
  fun_induction build_proof_inner P leaves index with
  | case1 leaves index h => exact Nat.zero_le _
  | case2 leaves index h k hlt ih =>
    have hk := largest_power_of_two_below.spec (n := leaves.length) (by omega)
    simp only [List.length_append, List.length_singleton, List.length_take] at ih ⊢
    omega
  | case3 leaves index h k hlt ih =>
    have hk := largest_power_of_two_below.spec (n := leaves.length) (by omega)
    simp only [List.length_append, List.length_singleton, List.length_drop] at ih ⊢
    omega

/-! ## The check of a proof -/

theorem toNat_double {leaf_count k : UInt64} (h : k ≤ (leaf_count - 1) / 2) :
    (k * 2).toNat = k.toNat * 2 ∧ k.toNat * 2 ≤ (leaf_count - 1).toNat := by
  have hle : k.toNat ≤ (leaf_count - 1).toNat / 2 := UInt64.le_iff_toNat_le.1 h
  have hlt := (leaf_count - 1).toNat_lt
  rw [UInt64.toNat_mul]
  simp only [UInt64.toNat_ofNat]
  omega

/-- The loop `while k <= (leaf_count - 1) / 2 { k *= 2 }`. -/
def double_u64 (leaf_count k : UInt64) (hk : 0 < k.toNat) : UInt64 :=
  if h : k ≤ (leaf_count - 1) / 2 then
    double_u64 leaf_count (k * 2) (by rw [(toNat_double h).1]; omega)
  else k
termination_by (leaf_count - 1).toNat - k.toNat
decreasing_by
  have := toNat_double h
  omega

theorem toNat_sub_one {n : UInt64} (h : 0 < n.toNat) : (n - 1).toNat = n.toNat - 1 :=
  UInt64.toNat_sub_of_le _ _ (UInt64.le_iff_toNat_le.2 h)

/-- The two loops find the same split. -/
theorem toNat_double_u64 {n : UInt64} (k : UInt64) (hk : 0 < k.toNat) (hn : 0 < n.toNat) :
    (double_u64 n k hk).toNat = double_below n.toNat k.toNat hk := by
  fun_induction double_u64 n k hk with
  | case1 k hk h ih =>
    have h2 := toNat_double h
    rw [toNat_sub_one hn] at h2
    have hstep :
        double_below n.toNat k.toNat hk = double_below n.toNat (k.toNat * 2) (by omega) := by
      rw [double_below, if_pos (by omega)]
    rw [ih, hstep]
    simp only [h2.1]
  | case2 k hk h =>
    rw [UInt64.le_iff_toNat_le, UInt64.toNat_div, toNat_sub_one hn] at h
    simp only [UInt64.toNat_ofNat, Nat.reducePow, Nat.reduceMod] at h
    rw [double_below, if_neg (by omega)]

/-- The `u64` split of `leaf_count`. -/
def split_u64 (leaf_count : UInt64) : UInt64 := double_u64 leaf_count 1 (by decide)

theorem split_u64.spec {n : UInt64} (h : ¬ n ≤ 1) :
    (split_u64 n).toNat = largest_power_of_two_below n.toNat ∧ 0 < (split_u64 n).toNat ∧
      (split_u64 n).toNat < n.toNat := by
  have h1 : 1 < n.toNat := by simpa [UInt64.le_iff_toNat_le] using h
  have heq : (split_u64 n).toNat = largest_power_of_two_below n.toNat :=
    toNat_double_u64 1 (by decide) (by omega)
  rw [heq]
  exact ⟨rfl, largest_power_of_two_below.spec h1⟩

def expected_directions_inner (leaf_count index : UInt64) : List Direction :=
  if h : leaf_count ≤ 1 then []
  else
    let k := split_u64 leaf_count
    if index < k then expected_directions_inner k index ++ [.Right]
    else expected_directions_inner (leaf_count - k) (index - k) ++ [.Left]
termination_by leaf_count.toNat
decreasing_by
  · exact (split_u64.spec h).2.2
  · obtain ⟨-, hpos, hlt⟩ := split_u64.spec h
    rw [UInt64.toNat_sub_of_le _ _ (UInt64.le_iff_toNat_le.2 (Nat.le_of_lt hlt))]
    omega

def expected_directions (leaf_count index : UInt64) : List Direction :=
  expected_directions_inner leaf_count index

/-- `u64::leading_zeros`. -/
def leading_zeros (v : UInt64) : Nat := if v = 0 then 64 else 63 - v.toNat.log2

def verify_proof (leaf : Arr 32) (index leaf_count : UInt64) (siblings : List ProofStep)
    (expected_root : Arr 32) : Except ProofError Unit :=
  if index ≥ leaf_count then .error .IndexOutOfRange
  else if leaf_count = 0 then .error .Malformed
  else
    let max_depth := 64 - leading_zeros (leaf_count - 1)
    if siblings.length > max_depth then .error .DepthExceeded
    else
      let expected_dirs := expected_directions leaf_count index
      if siblings.length ≠ expected_dirs.length then .error .TrailingSiblings
      else if (siblings.zip expected_dirs).any fun s => s.1.direction ≠ s.2 then .error .Malformed
      else
        let acc := siblings.foldl (fun acc step =>
          match step.direction with
          | .Left => node_hash P step.hash acc
          | .Right => node_hash P acc step.hash) leaf
        if ct_eq acc.bytes expected_root.bytes then .ok () else .error .RootMismatch

/-! ## What the check accepts -/

/-- `node_hash` on a pair. -/
def nodePair (p : Arr 32 × Arr 32) : Arr 32 := node_hash P p.1 p.2

theorem directions_match {siblings : List ProofStep} {dirs : List Direction}
    (h : siblings.length = dirs.length) :
    ¬ ((siblings.zip dirs).any fun s => s.1.direction ≠ s.2) = true ↔
      siblings.map Step.direction = dirs := by
  induction siblings generalizing dirs with
  | nil =>
    obtain rfl := List.length_eq_zero_iff.1 h.symm
    simp
  | cons s siblings ih =>
    rcases dirs with _ | ⟨d, dirs⟩
    · simp at h
    · have := ih (Nat.succ.inj h)
      by_cases hd : s.direction = d
      · simpa [hd] using this
      · simp [hd]

theorem fold_eq_climb (leaf : Arr 32) (siblings : List ProofStep) :
    siblings.foldl (fun acc step =>
      match step.direction with
      | .Left => node_hash P step.hash acc
      | .Right => node_hash P acc step.hash) leaf = climb (nodePair P) leaf siblings := by
  unfold climb
  congr 1
  funext acc step
  unfold Step.meet nodePair
  rcases step.direction with _ | _ <;> rfl

theorem verify_proof.spec (leaf : Arr 32) (index leaf_count : UInt64) (siblings : List ProofStep)
    (root : Arr 32) :
    verify_proof P leaf index leaf_count siblings root = .ok () ↔
      index < leaf_count ∧ siblings.length ≤ 64 - leading_zeros (leaf_count - 1) ∧
        siblings.map Step.direction = expected_directions leaf_count index ∧
        climb (nodePair P) leaf siblings = root := by
  unfold verify_proof
  simp only [fold_eq_climb]
  by_cases h1 : index < leaf_count
  · have h0 : leaf_count ≠ 0 := by
      intro h
      simp [h] at h1
    rw [if_neg (UInt64.not_le.2 h1), if_neg h0]
    by_cases h2 : siblings.length ≤ 64 - leading_zeros (leaf_count - 1)
    · rw [if_neg (Nat.not_lt.2 h2)]
      by_cases h3 : siblings.length = (expected_directions leaf_count index).length
      · rw [if_neg (not_not.2 h3)]
        by_cases h4 : siblings.map Step.direction = expected_directions leaf_count index
        · rw [if_neg ((directions_match h3).2 h4)]
          simp [ct_eq_iff, Arr.bytes_inj, h1, h2, h4]
        · rw [if_pos (not_not.1 (mt (directions_match h3).1 h4))]
          simp [h4]
      · rw [if_pos h3]
        have hne : siblings.map Step.direction ≠ expected_directions leaf_count index := by
          intro h
          exact h3 (by rw [← h, List.length_map])
        simp [hne]
    · rw [if_pos (Nat.not_le.1 h2)]
      simp [h2]
  · rw [if_pos (UInt64.not_lt.1 h1)]
    simp [h1]

/-- The tree that `merkle_root` hashes. -/
def tree (leaves : List (Arr 32)) : hash_tree.Tree (Arr 32) :=
  if leaves.length ≤ 1 then .leaf (merkle_root P leaves)
  else
    let k := largest_power_of_two_below leaves.length
    .node (tree (leaves.take k)) (tree (leaves.drop k))
termination_by leaves.length
decreasing_by
  all_goals
    have := largest_power_of_two_below.spec (n := leaves.length) (by omega)
    simp only [List.length_take, List.length_drop]
    omega

theorem root_tree (leaves : List (Arr 32)) :
    (tree P leaves).root (nodePair P) = merkle_root P leaves := by
  fun_induction tree P leaves with
  | case1 leaves h => rfl
  | case2 leaves h k ih1 ih2 =>
    rw [merkle_root, if_neg (by omega), dif_neg (by omega), Tree.root, ih1, ih2]
    rfl

/-- A proof that `build_proof` returns opens its leaf. -/
theorem build_proof_inner_opens (leaves : List (Arr 32)) (index : Nat)
    (hi : index < leaves.length) :
    Opens (nodePair P) (tree P leaves) (build_proof_inner P leaves index) leaves[index] := by
  fun_induction build_proof_inner P leaves index with
  | case1 leaves index h =>
    rw [tree, if_pos h, merkle_root, if_neg (by omega), dif_pos (by omega)]
    have h0 : index = 0 := by omega
    subst h0
    exact .leaf _
  | case2 leaves index h k hk ih =>
    have := ih (by rw [List.length_take]; omega)
    rw [tree, if_neg h, ← root_tree]
    rw [List.getElem_take] at this
    exact .left this
  | case3 leaves index h k hk ih =>
    have := ih (by rw [List.length_drop]; omega)
    rw [tree, if_neg h, ← root_tree]
    rw [List.getElem_drop] at this
    simp only [Nat.add_sub_cancel' (Nat.not_lt.1 hk)] at this
    exact .right this

/-- The split that builds a proof and the split that checks it take the same
turns. -/
theorem build_proof_inner_directions (leaves : List (Arr 32)) (n i : UInt64)
    (hn : n.toNat = leaves.length) (hi : i.toNat < leaves.length) :
    (build_proof_inner P leaves i.toNat).map Step.direction = expected_directions_inner n i := by
  fun_induction expected_directions_inner n i generalizing leaves with
  | case1 n i h =>
    have h1 : n.toNat ≤ 1 := UInt64.le_iff_toNat_le.1 h
    rw [build_proof_inner, if_pos (by omega)]
    rfl
  | case2 n i h k hk ih =>
    obtain ⟨heq, hpos, hlt⟩ : k.toNat = largest_power_of_two_below n.toNat ∧ 0 < k.toNat ∧
      k.toNat < n.toNat := split_u64.spec h
    have hki : i.toNat < k.toNat := UInt64.lt_iff_toNat_lt.1 hk
    have hik : i.toNat < largest_power_of_two_below leaves.length := by
      rw [← hn, ← heq]
      exact hki
    rw [build_proof_inner, if_neg (by omega)]
    simp only [if_pos hik, List.map_append, List.map_singleton]
    rw [← hn, ← heq, ih _ (by rw [List.length_take]; omega) (by rw [List.length_take]; omega)]
  | case3 n i h k hk ih =>
    obtain ⟨heq, hpos, hlt⟩ : k.toNat = largest_power_of_two_below n.toNat ∧ 0 < k.toNat ∧
      k.toNat < n.toNat := split_u64.spec h
    have hki : k.toNat ≤ i.toNat := UInt64.le_iff_toNat_le.1 (UInt64.not_lt.1 hk)
    have hik : ¬ i.toNat < largest_power_of_two_below leaves.length := by
      rw [← hn, ← heq]
      omega
    have hsub : (i - k).toNat = i.toNat - (k).toNat :=
      UInt64.toNat_sub_of_le _ _ (UInt64.le_iff_toNat_le.2 hki)
    have hcount : (n - k).toNat = n.toNat - (k).toNat :=
      UInt64.toNat_sub_of_le _ _ (UInt64.le_iff_toNat_le.2 (Nat.le_of_lt hlt))
    rw [build_proof_inner, if_neg (by omega)]
    simp only [if_neg hik, List.map_append, List.map_singleton]
    rw [← hn, ← heq, ← hsub, ih _ (by rw [List.length_drop]; omega)
      (by rw [List.length_drop]; omega)]

/-- The loop stops at a power of two, at half of `n` or above. -/
theorem double_below_pow (n k : Nat) (hk : 0 < k) :
    (∃ j, double_below n k hk = k * 2 ^ j) ∧ n ≤ 2 * double_below n k hk := by
  fun_induction double_below n k hk with
  | case1 k hk h ih =>
    obtain ⟨⟨j, hj⟩, hn⟩ := ih
    exact ⟨⟨j + 1, by rw [hj, Nat.pow_succ', Nat.mul_assoc]⟩, hn⟩
  | case2 k hk h => exact ⟨⟨0, by simp⟩, by omega⟩

/-- Both sides of the split fit into half of the power of two above. -/
theorem largest_power_of_two_below.le_half {n d : Nat} (h : 1 < n) (hd : n ≤ 2 ^ (d + 1)) :
    largest_power_of_two_below n ≤ 2 ^ d ∧ n - largest_power_of_two_below n ≤ 2 ^ d := by
  obtain ⟨⟨j, hj⟩, hhalf⟩ := double_below_pow n 1 (by decide)
  have hlt := (largest_power_of_two_below.spec h).2
  change largest_power_of_two_below n = 1 * 2 ^ j at hj
  change n ≤ 2 * largest_power_of_two_below n at hhalf
  have hjd : j < d + 1 := by
    rw [← Nat.pow_lt_pow_iff_right (a := 2) (by decide)]
    omega
  have hle : 2 ^ j ≤ 2 ^ d := Nat.pow_le_pow_right (by decide) (by omega)
  omega

theorem length_build_proof_inner_le {leaves : List (Arr 32)} {index d : Nat}
    (h : leaves.length ≤ 2 ^ d) : (build_proof_inner P leaves index).length ≤ d := by
  induction d generalizing leaves index with
  | zero =>
    have hone : leaves.length ≤ 1 := h
    rw [build_proof_inner, if_pos hone]
    exact Nat.zero_le _
  | succ d ih =>
    rw [build_proof_inner]
    by_cases hle : leaves.length ≤ 1
    · rw [if_pos hle]
      exact Nat.zero_le _
    · obtain ⟨hleft, hright⟩ := largest_power_of_two_below.le_half (by omega) h
      rw [if_neg hle]
      dsimp only
      split_ifs
      · rw [List.length_append, List.length_singleton]
        exact Nat.succ_le_succ (ih (by rw [List.length_take]; omega))
      · rw [List.length_append, List.length_singleton]
        exact Nat.succ_le_succ (ih (by rw [List.length_drop]; omega))

/-- The depth that the check allows is that of the tree. -/
theorem le_pow_max_depth {n : UInt64} (h : 0 < n.toNat) :
    n.toNat ≤ 2 ^ (64 - leading_zeros (n - 1)) := by
  unfold leading_zeros
  have hsub := toNat_sub_one h
  split_ifs with hzero
  · rw [hzero] at hsub
    simp only [UInt64.toNat_zero] at hsub
    simp only [Nat.sub_self, Nat.pow_zero]
    omega
  · have hlog : (n - 1).toNat.log2 < 64 := by
      rw [Nat.log2_lt (by simpa [← UInt64.toNat_inj] using hzero)]
      exact (n - 1).toNat_lt
    have hlt := Nat.lt_log2_self (n := (n - 1).toNat)
    rw [show 64 - (63 - (n - 1).toNat.log2) = (n - 1).toNat.log2 + 1 by omega]
    omega

/-- The proof that `build_proof` makes for a leaf is accepted for it. -/
theorem verify_proof_of_built {leaves : List (Arr 32)} {index leaf_count : UInt64}
    (hcount : leaf_count.toNat = leaves.length) (hi : index < leaf_count) {leaf : Arr 32}
    (hleaf : leaves[index.toNat]? = some leaf) :
    verify_proof P leaf index leaf_count (build_proof_inner P leaves index.toNat)
      (merkle_root P leaves) = .ok () := by
  have hlt : index.toNat < leaves.length := by
    rw [← hcount]
    exact UInt64.lt_iff_toNat_lt.1 hi
  rw [List.getElem?_eq_getElem hlt, Option.some.injEq] at hleaf
  have hopens := build_proof_inner_opens P leaves index.toNat hlt
  rw [hleaf] at hopens
  refine (verify_proof.spec P _ _ _ _ _).2 ⟨hi, ?_, ?_, ?_⟩
  · apply length_build_proof_inner_le
    rw [← hcount]
    exact le_pow_max_depth (by omega)
  · exact build_proof_inner_directions P leaves _ _ hcount hlt
  · rw [← root_tree]
    exact climb_of_opens hopens

/-- Every leaf of a list, whose length is a `u64`, has a proof that is accepted
for it. Builder and check split alike, so they take the same turns, and the
proof is never deeper than the check allows. -/
theorem every_built_proof_is_accepted (leaves : List (Arr 32)) (index : Nat)
    (hi : index < leaves.length) (hlen : leaves.length < 2 ^ 64) :
    (∀ n : UInt64, 1 < n → (split_u64 n).toNat = largest_power_of_two_below n.toNat) ∧
      ∃ proof, build_proof P leaves index = .ok proof ∧
        proof.map Step.direction =
          expected_directions (.ofNat leaves.length) (.ofNat index) ∧
        proof.length ≤ 64 - leading_zeros (.ofNat leaves.length - 1) ∧
        verify_proof P leaves[index] (.ofNat index) (.ofNat leaves.length) proof
          (merkle_root P leaves) = .ok () := by
  have hidx : (UInt64.ofNat index).toNat = index := UInt64.toNat_ofNat_of_lt' (Nat.lt_trans hi hlen)
  have hcount : (UInt64.ofNat leaves.length).toNat = leaves.length :=
    UInt64.toNat_ofNat_of_lt' hlen
  have hlt : UInt64.ofNat index < .ofNat leaves.length := by
    rw [UInt64.lt_iff_toNat_lt, hidx, hcount]
    exact hi
  have hleaf : leaves[(UInt64.ofNat index).toNat]? = some leaves[index] := by
    rw [hidx, List.getElem?_eq_getElem hi]
  have hverify := verify_proof_of_built P hcount hlt hleaf
  rw [hidx] at hverify
  obtain ⟨-, hdepth, hdirs, -⟩ := (verify_proof.spec P _ _ _ _ _).1 hverify
  refine ⟨fun n hn => (split_u64.spec (UInt64.not_le.2 hn)).1, build_proof_inner P leaves index,
    if_neg (Nat.not_le.2 hi), hdirs, hdepth, hverify⟩

theorem the_last_of_five_leaves_is_accepted : ∃ proof,
    build_proof sample ((List.range 5).map fun i => Arr.replicate 32 (.ofNat i)) 4 = .ok proof ∧
      proof.length ≤ 3 ∧
      verify_proof sample (.replicate 32 4) 4 5 proof
        (merkle_root sample ((List.range 5).map fun i => Arr.replicate 32 (.ofNat i))) =
          .ok () := by
  obtain ⟨-, proof, hproof, -, hdepth, hverify⟩ := every_built_proof_is_accepted sample
    ((List.range 5).map fun i => Arr.replicate 32 (.ofNat i)) 4 (by decide) (by decide)
  exact ⟨proof, hproof, hdepth, hverify⟩

/-- An accepted proof opens the leaf at its index. -/
theorem accepted_proof_opens {leaves : List (Arr 32)} {index leaf_count : UInt64} {leaf : Arr 32}
    {siblings : List ProofStep} (hcount : leaf_count.toNat = leaves.length)
    (hi : index.toNat < leaves.length)
    (hcol : NoCollision (nodePair P) ((tree P leaves).pairs (nodePair P))
      (climbPairs (nodePair P) leaf siblings))
    (hv : verify_proof P leaf index leaf_count siblings (merkle_root P leaves) = .ok ()) :
    leaf = leaves[index.toNat] ∧ siblings = build_proof_inner P leaves index.toNat := by
  obtain ⟨-, -, hdirs, hroot⟩ := (verify_proof.spec P _ _ _ _ _).1 hv
  have hbuilt := build_proof_inner_directions P leaves _ _ hcount hi
  rw [← root_tree] at hroot
  exact opens_unique (build_proof_inner_opens P leaves index.toNat hi) (hdirs.trans hbuilt.symm)
    hroot hcol

/-! ## Committed ciphertexts -/

/-- What `leaf_hash` hashes. -/
def leaf_input (index : UInt64) (ciphertext : Bytes) : Bytes :=
  LEAF_DOMAIN ++ be_bytes 8 index.toNat ++ be_bytes 4 ciphertext.length ++ ciphertext

/-- What `node_hash` hashes. -/
def node_input (p : Arr 32 × Arr 32) : Bytes := NODE_DOMAIN ++ p.1.bytes ++ p.2.bytes

/-- The leaves over a list of ciphertexts. -/
def leaves_of (ciphertexts : List Bytes) : List (Arr 32) :=
  ciphertexts.mapIdx fun i c => leaf_hash P (.ofNat i) c

/-- All that is hashed for the root over a list of ciphertexts. -/
def committed_inputs (ciphertexts : List Bytes) : List Bytes :=
  ciphertexts.mapIdx (fun i c => leaf_input (.ofNat i) c) ++
    ((tree P (leaves_of P ciphertexts)).pairs (nodePair P)).map node_input

/-- All that is hashed when a chunk is checked. -/
def checked_inputs (index : UInt64) (siblings : List ProofStep) (ciphertext : Bytes) : List Bytes :=
  leaf_input index ciphertext ::
    (climbPairs (nodePair P) (leaf_hash P index ciphertext) siblings).map node_input

theorem node_input_inj {p q : Arr 32 × Arr 32} (h : node_input p = node_input q) : p = q := by
  unfold node_input at h
  rw [List.append_assoc, List.append_assoc, List.append_cancel_left_eq] at h
  obtain ⟨h1, h2⟩ := arr_append_inj h
  exact Prod.ext h1 (Arr.ext h2)

theorem leaf_input_inj {index : UInt64} {c c' : Bytes}
    (h : leaf_input index c = leaf_input index c') : c = c' := by
  unfold leaf_input at h
  exact (append_inj_of_length (by simp) h).2

theorem mem_committed_inputs_of_leaf {ciphertexts : List Bytes} {i : Nat}
    (hi : i < ciphertexts.length) :
    leaf_input (.ofNat i) ciphertexts[i] ∈ committed_inputs P ciphertexts := by
  apply List.mem_append_left
  rw [List.mem_mapIdx]
  exact ⟨i, hi, rfl⟩

theorem mem_committed_inputs_of_pair {ciphertexts : List Bytes} {p : Arr 32 × Arr 32}
    (hp : p ∈ (tree P (leaves_of P ciphertexts)).pairs (nodePair P)) :
    node_input p ∈ committed_inputs P ciphertexts :=
  List.mem_append_right _ (List.mem_map_of_mem hp)

/-- A chunk that is accepted under the root is the one at its index. -/
theorem accepted_chunk_is_committed {ciphertexts : List Bytes} {index leaf_count : UInt64}
    {siblings : List ProofStep} {c : Bytes} (hcount : leaf_count.toNat = ciphertexts.length)
    (hi : index < leaf_count)
    (hcol : NoCollision P.blake3 (committed_inputs P ciphertexts)
      (checked_inputs P index siblings c))
    (hv : verify_proof P (leaf_hash P index c) index leaf_count siblings
      (merkle_root P (leaves_of P ciphertexts)) = .ok ()) : ciphertexts[index.toNat]? = some c := by
  have hlen : (leaves_of P ciphertexts).length = ciphertexts.length := List.length_mapIdx
  have hlt : index.toNat < ciphertexts.length := by
    rw [← hcount]
    exact UInt64.lt_iff_toNat_lt.1 hi
  have hnodes : NoCollision (nodePair P)
      ((tree P (leaves_of P ciphertexts)).pairs (nodePair P))
      (climbPairs (nodePair P) (leaf_hash P index c) siblings) := by
    intro p hp q hq he
    exact node_input_inj (hcol _ (mem_committed_inputs_of_pair P hp) _
      (List.mem_cons_of_mem _ (List.mem_map_of_mem hq)) he)
  have hleaf :=
    (accepted_proof_opens P (hcount.trans hlen.symm) (by rw [hlen]; exact hlt) hnodes hv).1
  have hindex : UInt64.ofNat index.toNat = index := UInt64.ofNat_toNat
  simp only [leaves_of, List.getElem_mapIdx, hindex] at hleaf
  have hmem := mem_committed_inputs_of_leaf P hlt
  rw [hindex] at hmem
  have he := leaf_input_inj (hcol _ hmem _ List.mem_cons_self hleaf.symm)
  rw [List.getElem?_eq_getElem hlt, he]

/-- Without a collision between the nodes of the tree and the nodes that the
check hashes, the only proof it accepts at an index is the one that
`build_proof` makes, and only for the leaf at that index. -/
theorem only_the_built_proof_of_the_leaf_is_accepted (leaves : List (Arr 32)) (index : Nat)
    (hi : index < leaves.length) (hlen : leaves.length < 2 ^ 64) (leaf : Arr 32)
    (siblings : List ProofStep)
    (hcol : NoCollision (nodePair P) ((tree P leaves).pairs (nodePair P))
      (climbPairs (nodePair P) leaf siblings))
    (hv : verify_proof P leaf (.ofNat index) (.ofNat leaves.length) siblings
      (merkle_root P leaves) = .ok ()) :
    leaf = leaves[index] ∧ build_proof P leaves index = .ok siblings := by
  have hidx : (UInt64.ofNat index).toNat = index := UInt64.toNat_ofNat_of_lt' (Nat.lt_trans hi hlen)
  have hcount : (UInt64.ofNat leaves.length).toNat = leaves.length :=
    UInt64.toNat_ofNat_of_lt' hlen
  obtain ⟨hleaf, hproof⟩ := accepted_proof_opens P hcount (by rw [hidx]; exact hi) hcol hv
  simp only [hidx] at hleaf hproof
  rw [build_proof, if_neg (Nat.not_le.2 hi), hproof]
  exact ⟨hleaf, rfl⟩

theorem the_last_of_three_leaves_has_one_proof :
    Arr.replicate 32 3 = [Arr.replicate 32 1, .replicate 32 2, .replicate 32 3][2] ∧
      build_proof sample [.replicate 32 1, .replicate 32 2, .replicate 32 3] 2 =
        .ok [⟨.Left, node_hash sample (.replicate 32 1) (.replicate 32 2)⟩] :=
  only_the_built_proof_of_the_leaf_is_accepted sample _ 2 (by decide) (by decide) _ _
    (by decide +kernel) (by decide +kernel)

/-! ## What the root commits to -/

theorem leaves_tree {leaves : List (Arr 32)} (h : leaves ≠ []) :
    (tree P leaves).leaves = leaves := by
  fun_induction tree P leaves with
  | case1 leaves hle =>
    obtain ⟨d, rfl⟩ : ∃ d, leaves = [d] := by
      have hpos := List.length_pos_of_ne_nil h
      exact List.length_eq_one_iff.1 (by omega)
    simp [Tree.leaves, merkle_root]
  | case2 leaves hle k ih1 ih2 =>
    have hk := largest_power_of_two_below.spec (n := leaves.length) (by omega)
    have hleft : leaves.take k ≠ [] :=
      List.ne_nil_of_length_pos (by rw [List.length_take]; omega)
    have hright : leaves.drop k ≠ [] :=
      List.ne_nil_of_length_pos (by rw [List.length_drop]; omega)
    rw [Tree.leaves, ih1 hleft, ih2 hright, List.take_append_drop]

/-- All that `merkle_root` and its leaves hash for a list of ciphertexts. The
root of the empty list is a hash of its own. -/
def root_inputs (ciphertexts : List Bytes) : List Bytes :=
  if ciphertexts = [] then [EMPTY_DOMAIN] else committed_inputs P ciphertexts

-- The three domains differ in their first twenty bytes.
theorem take_leaf_input (index : UInt64) (c : Bytes) :
    (leaf_input index c).take 20 = LEAF_DOMAIN := by
  unfold leaf_input
  rw [List.append_assoc, List.append_assoc]
  exact List.take_left' (by decide)

theorem take_node_input (p : Arr 32 × Arr 32) : (node_input p).take 20 = NODE_DOMAIN := by
  unfold node_input
  rw [List.append_assoc]
  exact List.take_left' (by decide)

theorem leaf_input_ne_node_input (index : UInt64) (c : Bytes) (p : Arr 32 × Arr 32) :
    leaf_input index c ≠ node_input p := by
  intro h
  have hdomain := congrArg (List.take 20) h
  rw [take_leaf_input, take_node_input] at hdomain
  exact absurd hdomain (by decide)

theorem ne_empty_of_committed {ciphertexts : List Bytes} {x : Bytes}
    (h : x ∈ committed_inputs P ciphertexts) : x ≠ EMPTY_DOMAIN := by
  intro he
  unfold committed_inputs at h
  rw [List.mem_append, List.mem_mapIdx, List.mem_map] at h
  rcases h with ⟨i, hi, hx⟩ | ⟨p, hp, hx⟩
  · have hdomain := take_leaf_input (.ofNat i) ciphertexts[i]
    rw [hx, he] at hdomain
    exact absurd hdomain (by decide)
  · have hdomain := take_node_input p
    rw [hx, he] at hdomain
    exact absurd hdomain (by decide)

theorem leaves_of_ne_nil {ciphertexts : List Bytes} (h : ciphertexts ≠ []) :
    leaves_of P ciphertexts ≠ [] := by
  unfold leaves_of
  rwa [ne_eq, List.mapIdx_eq_nil_iff]

/-- The root over some ciphertexts is the hash of one of their inputs. -/
theorem root_is_hashed {ciphertexts : List Bytes} (h : ciphertexts ≠ []) :
    ∃ x ∈ committed_inputs P ciphertexts,
      merkle_root P (leaves_of P ciphertexts) = P.blake3 x := by
  have hleaves := leaves_tree P (leaves_of_ne_nil P h)
  rw [← root_tree]
  cases htree : tree P (leaves_of P ciphertexts) with
  | leaf d =>
    rw [htree, Tree.leaves] at hleaves
    have hmem : d ∈ leaves_of P ciphertexts := by
      rw [← hleaves]
      exact List.mem_singleton_self d
    obtain ⟨i, hi, hd⟩ := List.mem_mapIdx.1 hmem
    exact ⟨_, mem_committed_inputs_of_leaf P hi, hd.symm⟩
  | node l r =>
    refine ⟨_, mem_committed_inputs_of_pair P ?_, rfl⟩
    rw [htree]
    exact List.mem_cons_self

/-- The leaves over `C` are not hashes of nodes over `D`. -/
theorem leaves_apart {C D : List Bytes} (hC : C ≠ [])
    (hcol : NoCollision P.blake3 (committed_inputs P C) (committed_inputs P D)) :
    (tree P (leaves_of P C)).LeavesApart (nodePair P) (tree P (leaves_of P D)) := by
  intro d hd p hp he
  rw [leaves_tree P (leaves_of_ne_nil P hC)] at hd
  obtain ⟨i, hi, rfl⟩ := List.mem_mapIdx.1 hd
  have hinput := hcol _ (mem_committed_inputs_of_leaf P hi) _ (mem_committed_inputs_of_pair P hp) he
  exact leaf_input_ne_node_input _ _ _ hinput

/-- Equal leaves are leaves over equal ciphertexts. -/
theorem leaves_of_inj {C D : List Bytes}
    (hcol : NoCollision P.blake3 (committed_inputs P C) (committed_inputs P D))
    (h : leaves_of P C = leaves_of P D) : C = D := by
  have hlen : C.length = D.length := by
    simpa [leaves_of] using congrArg List.length h
  refine List.ext_getElem hlen fun i hC hD => ?_
  have hleaf : leaf_hash P (.ofNat i) C[i] = leaf_hash P (.ofNat i) D[i] := by
    simpa [leaves_of, hC, hD] using congrArg (·[i]?) h
  exact leaf_input_inj
    (hcol _ (mem_committed_inputs_of_leaf P hC) _ (mem_committed_inputs_of_leaf P hD) hleaf)

/-- Only the empty list has the root of the empty list. -/
theorem nil_of_root_eq {C : List Bytes}
    (hcol : NoCollision P.blake3 (root_inputs P C) (root_inputs P []))
    (hroot : merkle_root P (leaves_of P C) = merkle_root P (leaves_of P [])) : C = [] := by
  by_contra hC
  obtain ⟨x, hx, he⟩ := root_is_hashed P hC
  have hempty : merkle_root P (leaves_of P []) = P.blake3 EMPTY_DOMAIN := by
    simp [leaves_of, merkle_root, empty_root]
  rw [root_inputs, if_neg hC, root_inputs, if_pos rfl] at hcol
  have hinput := hcol x hx _ (List.mem_singleton_self _) (by rw [← he, hroot, hempty])
  exact ne_empty_of_committed P hx hinput

/-- Where BLAKE3 does not collide on the inputs of the two roots, the root
commits to the number of the ciphertexts, their order and every byte. -/
theorem the_root_commits_to_the_ciphertexts (C D : List Bytes)
    (hcol : NoCollision P.blake3 (root_inputs P C) (root_inputs P D))
    (hroot : merkle_root P (leaves_of P C) = merkle_root P (leaves_of P D)) : C = D := by
  by_cases hC : C = []
  · subst hC
    exact (nil_of_root_eq P hcol.symm hroot.symm).symm
  · by_cases hD : D = []
    · subst hD
      exact nil_of_root_eq P hcol hroot
    · rw [root_inputs, if_neg hC, root_inputs, if_neg hD] at hcol
      have hnodes : NoCollision (nodePair P) ((tree P (leaves_of P C)).pairs (nodePair P))
          ((tree P (leaves_of P D)).pairs (nodePair P)) := by
        intro p hp q hq he
        exact node_input_inj (hcol _ (mem_committed_inputs_of_pair P hp) _
          (mem_committed_inputs_of_pair P hq) he)
      rw [← root_tree, ← root_tree] at hroot
      have htree := Tree.root_inj hnodes (leaves_apart P hC hcol) (leaves_apart P hD hcol.symm)
        hroot
      have hleaves := congrArg Tree.leaves htree
      rw [leaves_tree P (leaves_of_ne_nil P hC), leaves_tree P (leaves_of_ne_nil P hD)] at hleaves
      exact leaves_of_inj P hcol hleaves

theorem swapped_chunks_have_another_root :
    ([[1], [2]] : List Bytes) = [[1], [2]] ∧
      merkle_root sample (leaves_of sample [[1], [2]]) ≠
        merkle_root sample (leaves_of sample [[2], [1]]) := by
  constructor
  · exact the_root_commits_to_the_ciphertexts sample _ _ (by decide +kernel) rfl
  · intro hroot
    have hswap := the_root_commits_to_the_ciphertexts sample _ _ (by decide +kernel) hroot
    exact absurd hswap (by decide)

end rtp2_core.merkle
