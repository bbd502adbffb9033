-- Chunk bitmaps. Bit `i` is chunk `i`, most significant bit first. The type
-- carries what every operation keeps: the length of the bytes, zero bits past
-- the last chunk, and the number of bits that are set.
import Mathlib.Data.List.Basic
import Mathlib.Tactic.Common
import Reyta.BitRuns

open bit_run

namespace rtp2_core.bitmap

inductive BitmapError where
  | IndexOutOfRange
  | TrailingBitsSet
  | WrongLength
  | RunOverflow
  | Truncated
  | TooLarge
  deriving DecidableEq, Repr

def MAX_RANGES_PER_REQUEST : Nat := 1024

def MAX_CHUNK_COUNT : UInt64 := 0x100000000

def byte_len (chunk_count : UInt64) : Nat := (chunk_count.toNat + 7) / 8

/-! ## Bits of a byte string -/

/-- `0x80 >> (index % 8)` -/
def mask (i : Nat) : UInt8 := (0x80 : UInt8) >>> UInt8.ofNat (i % 8)

def bit (bits : List UInt8) (i : Nat) : Bool := bits.getD (i / 8) 0 &&& mask i != 0

/-- The bytes with one more bit. -/
def set_bit (bits : List UInt8) (i : Nat) : List UInt8 :=
  bits.set (i / 8) (bits.getD (i / 8) 0 ||| mask i)

/-- The number of bits below `n` that are set. -/
def count_bits (bits : List UInt8) (n : Nat) : Nat := (List.range n).countP (bit bits)

theorem or_and (a b c : UInt8) : (a ||| b) &&& c = (a &&& c) ||| (b &&& c) := by
  apply UInt8.eq_of_toBitVec_eq
  simp only [UInt8.toBitVec_and, UInt8.toBitVec_or]
  ext i hi
  simp [Bool.and_or_distrib_right]

theorem mask_ne_zero (i : Nat) : mask i ≠ 0 := by
  have h : ∀ k : Fin 8, (0x80 : UInt8) >>> UInt8.ofNat k.val ≠ 0 := by decide
  exact h ⟨i % 8, Nat.mod_lt _ (by decide)⟩

theorem mask_and_mask (i j : Nat) : mask i &&& mask j = if i % 8 = j % 8 then mask j else 0 := by
  have h : ∀ k l : Fin 8, ((0x80 : UInt8) >>> UInt8.ofNat k.val) &&& (0x80 >>> UInt8.ofNat l.val) =
      if k.val = l.val then (0x80 : UInt8) >>> UInt8.ofNat l.val else 0 := by decide
  exact h ⟨i % 8, Nat.mod_lt _ (by decide)⟩ ⟨j % 8, Nat.mod_lt _ (by decide)⟩

theorem mask_add (k i : Nat) : mask (8 * k + i) = mask i := by
  unfold mask
  rw [Nat.mul_add_mod]

theorem or_mask_and_mask (b : UInt8) (i j : Nat) :
    ((b ||| mask i) &&& mask j != 0) = (decide (i % 8 = j % 8) || (b &&& mask j != 0)) := by
  rw [or_and, mask_and_mask]
  by_cases h : i % 8 = j % 8
  · simp [h, UInt8.or_eq_zero_iff, mask_ne_zero]
  · simp [h]

theorem bit_set_bit {bits : List UInt8} {i : Nat} (h : i / 8 < bits.length) (j : Nat) :
    bit (set_bit bits i) j = (decide (i = j) || bit bits j) := by
  unfold bit set_bit
  by_cases hbyte : i / 8 = j / 8
  · have hsame : i % 8 = j % 8 ↔ i = j := by omega
    rw [← hbyte, List.getD_eq_getElem?_getD, List.getElem?_set_self h, Option.getD_some,
      or_mask_and_mask]
    simp [hsame]
  · have hne : i ≠ j := fun he => hbyte (by rw [he])
    simp [List.getD_eq_getElem?_getD, List.getElem?_set_ne hbyte, hne]

theorem bit_of_length_le {bits : List UInt8} {i : Nat} (h : bits.length ≤ i / 8) :
    bit bits i = false := by
  simp [bit, List.getD_eq_getElem?_getD, List.getElem?_eq_none h]

theorem bit_replicate_zero (n i : Nat) : bit (List.replicate n 0) i = false := by
  have hzero : (List.replicate n (0 : UInt8)).getD (i / 8) 0 = 0 := by
    rw [List.getD_eq_getElem?_getD, List.getElem?_replicate]
    split_ifs <;> rfl
  unfold bit
  rw [hzero]
  simp

theorem count_set_bit {bits : List UInt8} {i n : Nat} (h : i / 8 < bits.length)
    (hclear : bit bits i = false) :
    count_bits (set_bit bits i) n = count_bits bits n + if i < n then 1 else 0 := by
  unfold count_bits
  induction n with
  | zero => rfl
  | succ n ih =>
    rw [List.range_succ, List.countP_append, List.countP_append, ih]
    simp only [List.countP_singleton, bit_set_bit h]
    by_cases he : i = n
    · rw [← he, hclear]
      simp
    · have hlt : i < n + 1 ↔ i < n := by omega
      simp only [he, decide_false, Bool.false_or, hlt]
      omega

theorem byte_eq_of_bits {a b : UInt8}
    (h : ∀ i < 8, (a &&& mask i != 0) = (b &&& mask i != 0)) : a = b := by
  have all : ∀ (x : Fin 256) (k : Fin 8),
      (UInt8.ofFin x &&& mask k.val != 0) = x.val.testBit (7 - k.val) := by decide +kernel
  have hbit : ∀ (c : UInt8) (k : Nat) (hk : k < 8), (c &&& mask k != 0) = c.toNat.testBit (7 - k) :=
    fun c k hk => all c.toFin ⟨k, hk⟩
  apply UInt8.toNat_inj.1
  apply Nat.eq_of_testBit_eq
  intro j
  by_cases hj : j < 8
  · have hsame := h (7 - j) (by omega)
    rw [hbit a _ (by omega), hbit b _ (by omega)] at hsame
    rwa [show 7 - (7 - j) = j by omega] at hsame
  · have hpow : 2 ^ 8 ≤ 2 ^ j := Nat.pow_le_pow_right (by decide) (by omega)
    rw [Nat.testBit_lt_two_pow (Nat.lt_of_lt_of_le a.toNat_lt hpow),
      Nat.testBit_lt_two_pow (Nat.lt_of_lt_of_le b.toNat_lt hpow)]

/-- Byte strings of one length are told apart by their bits. -/
theorem eq_of_bits {bits bits' : List UInt8} (hlen : bits.length = bits'.length)
    (h : ∀ i, bit bits i = bit bits' i) : bits = bits' := by
  apply List.ext_getElem hlen
  intro k hk hk'
  apply byte_eq_of_bits
  intro i hi
  have hsame := h (8 * k + i)
  have hbyte : (8 * k + i) / 8 = k := by omega
  simpa [bit, hbyte, mask_add, hk, hk'] using hsame

/-! ## Ranges of chunks -/

/-- The chunk is in one of the ranges. -/
def InRanges (ranges : List (UInt64 × UInt64)) (index : UInt64) : Prop :=
  ∃ r ∈ ranges, r.1 ≤ index ∧ index < r.2

/-- Ranges that lie apart in their order, none of them empty, below a bound. -/
structure Sorted (ranges : List (UInt64 × UInt64)) (chunk_count : UInt64) : Prop where
  apart : ranges.Pairwise fun r r' => r.2 < r'.1
  nonempty : ∀ r ∈ ranges, r.1 < r.2
  bounded : ∀ r ∈ ranges, r.2 ≤ chunk_count

/-! ## Bitmaps -/

structure ChunkBitmap where
  chunk_count : UInt64
  bits : List UInt8
  set_count : UInt64
  bounded : chunk_count ≤ MAX_CHUNK_COUNT
  length_bits : bits.length = byte_len chunk_count
  trailing : ∀ i, chunk_count.toNat ≤ i → bit bits i = false
  counted : set_count.toNat = count_bits bits chunk_count.toNat

namespace ChunkBitmap

def new (chunk_count : UInt64) : Except BitmapError ChunkBitmap :=
  if h : chunk_count > MAX_CHUNK_COUNT then .error .TooLarge
  else .ok
    { chunk_count
      bits := List.replicate (byte_len chunk_count) 0
      set_count := 0
      bounded := UInt64.not_lt.1 h
      length_bits := List.length_replicate
      trailing := fun i _ => bit_replicate_zero _ i
      counted := (List.countP_eq_zero.2 fun i _ => by simp [bit_replicate_zero]).symm }

def is_complete (b : ChunkBitmap) : Bool := b.set_count == b.chunk_count

def get (b : ChunkBitmap) (index : UInt64) : Except BitmapError Bool :=
  if index ≥ b.chunk_count then .error .IndexOutOfRange else .ok (bit b.bits index.toNat)

theorem byte_in_range (b : ChunkBitmap) {index : UInt64} (h : ¬ index ≥ b.chunk_count) :
    index.toNat / 8 < b.bits.length := by
  have hlt := UInt64.lt_iff_toNat_lt.1 (UInt64.not_le.1 h)
  rw [b.length_bits, byte_len]
  omega

theorem count_lt (b : ChunkBitmap) : b.set_count.toNat < 2 ^ 64 - 1 := by
  have hle : b.set_count.toNat ≤ b.chunk_count.toNat := by
    rw [b.counted]
    exact Nat.le_trans List.countP_le_length (Nat.le_of_eq List.length_range)
  have hmax := UInt64.le_iff_toNat_le.1 b.bounded
  simp only [MAX_CHUNK_COUNT, UInt64.reduceToNat] at hmax
  omega

/-- Sets a bit. The result is true if this call changed it. -/
def set (b : ChunkBitmap) (index : UInt64) : Except BitmapError (ChunkBitmap × Bool) :=
  if h : index ≥ b.chunk_count then .error .IndexOutOfRange
  else if hset : bit b.bits index.toNat then .ok (b, false)
  else .ok (
    { chunk_count := b.chunk_count
      bits := set_bit b.bits index.toNat
      set_count := b.set_count + 1
      bounded := b.bounded
      length_bits := by rw [set_bit, List.length_set, b.length_bits]
      trailing := by
        intro i hi
        have hlt := UInt64.lt_iff_toNat_lt.1 (UInt64.not_le.1 h)
        rw [bit_set_bit (b.byte_in_range h), b.trailing i hi]
        simp
        omega
      counted := by
        have hlt := UInt64.lt_iff_toNat_lt.1 (UInt64.not_le.1 h)
        have hcount := b.count_lt
        rw [count_set_bit (b.byte_in_range h) (by simpa using hset), if_pos hlt, ← b.counted,
          UInt64.toNat_add, UInt64.toNat_one, Nat.mod_eq_of_lt (by omega)] }, true)

/-! ## What the operations do -/

/-- The chunk is in range and its bit is set. -/
def Has (b : ChunkBitmap) (index : UInt64) : Prop := bit b.bits index.toNat = true

instance (b : ChunkBitmap) (index : UInt64) : Decidable (b.Has index) :=
  inferInstanceAs (Decidable (_ = true))

theorem new_eq_ok {n : UInt64} {b : ChunkBitmap} (h : new n = .ok b) :
    b.chunk_count = n ∧ ∀ i, ¬ b.Has i := by
  unfold new at h
  split_ifs at h
  obtain rfl := Except.ok.inj h
  exact ⟨rfl, fun i => by simp [Has, bit_replicate_zero]⟩

theorem Has.lt {b : ChunkBitmap} {index : UInt64} (h : b.Has index) : index < b.chunk_count := by
  by_contra hle
  have := b.trailing index.toNat (UInt64.le_iff_toNat_le.1 (UInt64.not_lt.1 hle))
  rw [Has, this] at h
  cases h

theorem get_of_lt {b : ChunkBitmap} {index : UInt64} (h : index < b.chunk_count) :
    b.get index = .ok (bit b.bits index.toNat) :=
  if_neg (UInt64.not_le.2 h)

theorem get_eq_ok {b : ChunkBitmap} {index : UInt64} {value : Bool} :
    b.get index = .ok value ↔ index < b.chunk_count ∧ bit b.bits index.toNat = value := by
  by_cases hi : index < b.chunk_count
  · rw [get_of_lt hi]
    simp [hi]
  · simp [get, UInt64.not_lt.1 hi, hi]

/-- `get(index).unwrap_or(false)` -/
theorem get_getD (b : ChunkBitmap) (index : UInt64) :
    (b.get index).toOption.getD false = true ↔ b.Has index := by
  unfold get
  split_ifs with h
  · simp only [Except.toOption, Option.getD_none, Bool.false_eq_true, false_iff]
    exact fun hhas => absurd (Has.lt hhas) (UInt64.not_lt.2 h)
  · rfl

theorem set_of_lt (b : ChunkBitmap) {index : UInt64} (h : index < b.chunk_count) :
    ∃ r, b.set index = .ok r := by
  unfold set
  rw [dif_neg (UInt64.not_le.2 h)]
  split_ifs
  · exact ⟨_, rfl⟩
  · exact ⟨_, rfl⟩

/-- What a call of `set` does. -/
structure SetTo (b : ChunkBitmap) (index : UInt64) (b' : ChunkBitmap) (changed : Bool) : Prop where
  chunk_count : b'.chunk_count = b.chunk_count
  has : ∀ i, b'.Has i ↔ i = index ∨ b.Has i
  changed_iff : changed = true ↔ ¬ b.Has index
  set_count : b'.set_count.toNat = b.set_count.toNat + if changed then 1 else 0

theorem set_eq_ok {b b' : ChunkBitmap} {index : UInt64} {changed : Bool}
    (h : b.set index = .ok (b', changed)) : b.SetTo index b' changed := by
  unfold set at h
  split_ifs at h with hn hset
  · cases h
    refine ⟨rfl, ?_, by simp [Has, hset], rfl⟩
    intro i
    exact ⟨.inr, fun hi => hi.elim (fun he => he ▸ hset) id⟩
  · cases h
    refine ⟨rfl, ?_, by simp [Has, hset], ?_⟩
    · intro i
      simp only [Has, bit_set_bit (b.byte_in_range hn), Bool.or_eq_true, decide_eq_true_eq,
        UInt64.toNat_inj]
      rw [eq_comm]
    · have hcount := b.count_lt
      rw [UInt64.toNat_add, UInt64.toNat_one, Nat.mod_eq_of_lt (by omega)]
      rfl

/-- A bitmap is given by its chunks. -/
theorem ext_has {b b' : ChunkBitmap} (hcount : b.chunk_count = b'.chunk_count)
    (h : ∀ i < b.chunk_count.toNat, bit b.bits i = bit b'.bits i) : b = b' := by
  have hlen : b.bits.length = b'.bits.length := by
    rw [b.length_bits, b'.length_bits, hcount]
  have hbits : b.bits = b'.bits := by
    refine eq_of_bits hlen fun i => ?_
    by_cases hi : i < b.chunk_count.toNat
    · exact h i hi
    · rw [b.trailing i (by omega), b'.trailing i (by rw [← hcount]; omega)]
  have hset : b.set_count = b'.set_count := by
    apply UInt64.toNat_inj.1
    rw [b.counted, b'.counted, hbits, hcount]
  cases b
  cases b'
  simp only at hcount hbits hset
  simp [hcount, hbits, hset]

theorem toNat_count_le (b : ChunkBitmap) : b.chunk_count.toNat ≤ 2 ^ 32 :=
  UInt64.le_iff_toNat_le.1 b.bounded

theorem has_ofNat (b : ChunkBitmap) {j : Nat} (hj : j < b.chunk_count.toNat) :
    b.Has (.ofNat j) ↔ bit b.bits j = true := by
  have hbound := b.toNat_count_le
  have hj64 : (UInt64.ofNat j).toNat = j := by
    rw [UInt64.toNat_ofNat']
    omega
  rw [Has, hj64]

/-- What `set` does to the bits. -/
theorem SetTo.bit {b b' : ChunkBitmap} {index : UInt64} {changed : Bool}
    (h : b.SetTo index b' changed) (j : Nat) (hj : j < b.chunk_count.toNat) :
    bit b'.bits j = (decide (index.toNat = j) || bit b.bits j) := by
  have hbound := b.toNat_count_le
  have hhas := h.has (.ofNat j)
  rw [b'.has_ofNat (by rw [h.chunk_count]; exact hj), b.has_ofNat hj] at hhas
  have hsame : UInt64.ofNat j = index ↔ index.toNat = j := by
    rw [← UInt64.toNat_inj, UInt64.toNat_ofNat', eq_comm, Nat.mod_eq_of_lt (by omega)]
  rw [Bool.eq_iff_iff, hhas, hsame]
  simp

theorem is_complete_iff (b : ChunkBitmap) :
    b.is_complete = true ↔ ∀ i < b.chunk_count, b.Has i := by
  have hcount : b.is_complete = true ↔ count_bits b.bits b.chunk_count.toNat =
      (List.range b.chunk_count.toNat).length := by
    rw [is_complete, beq_iff_eq, ← UInt64.toNat_inj, b.counted, List.length_range]
  rw [hcount, count_bits, List.countP_eq_length]
  constructor
  · intro h i hi
    exact h i.toNat (List.mem_range.2 (UInt64.lt_iff_toNat_lt.1 hi))
  · intro h i hi
    have hlt := List.mem_range.1 hi
    have hbound := b.toNat_count_le
    have hi64 : (UInt64.ofNat i).toNat = i := by
      rw [UInt64.toNat_ofNat']
      omega
    have hhas := h (.ofNat i) (by rw [UInt64.lt_iff_toNat_lt, hi64]; exact hlt)
    rwa [Has, hi64] at hhas

/-! ## The chunks that are missing -/

/-- The outer loop of `missing_ranges`, with at most `fuel` turns. -/
def missing_loop (has : Nat → Bool) (chunk_count max_ranges : Nat) :
    Nat → Nat → List (Nat × Nat) → List (Nat × Nat)
  | 0, _, ranges => ranges
  | fuel + 1, index, ranges =>
    if index < chunk_count ∧ ranges.length < max_ranges then
      let start := run_end has chunk_count true index
      if start ≥ chunk_count then ranges
      else
        let stop := run_end has chunk_count false start
        missing_loop has chunk_count max_ranges fuel stop (ranges ++ [(start, stop)])
    else ranges

def missing_ranges (b : ChunkBitmap) (max_ranges : Nat) : List (UInt64 × UInt64) :=
  (missing_loop (bit b.bits) b.chunk_count.toNat max_ranges b.chunk_count.toNat 0 []).map
    fun r => (.ofNat r.1, .ofNat r.2)

/-- The number of gaps: runs of chunks that are missing. -/
def gaps (b : ChunkBitmap) : Nat := zero_run_count (bit b.bits) b.chunk_count.toNat

/-- The loop stops at the limit, and otherwise takes all runs of missing chunks. -/
theorem missing_loop_eq_take {has : Nat → Bool} {n max_ranges fuel i : Nat}
    (hi : i ≤ n) {ranges : List (Nat × Nat)} (hr : ranges.length ≤ max_ranges) :
    missing_loop has n max_ranges fuel i ranges =
      ranges ++ (zero_runs has n fuel i).take (max_ranges - ranges.length) := by
  induction fuel generalizing i ranges with
  | zero => simp [missing_loop, zero_runs]
  | succ fuel ih =>
    have hs : EndsAt has n true i (run_end has n true i) := run_end_spec hi
    rw [missing_loop, zero_runs]
    by_cases hlen : ranges.length < max_ranges
    · by_cases hstart : run_end has n true i < n
      · have hle := hs.le
        have he : EndsAt has n false (run_end has n true i) _ := run_end_spec hs.le_bound
        have hroom : max_ranges - ranges.length = max_ranges - (ranges.length + 1) + 1 := by omega
        simp only [if_pos (show i < n ∧ ranges.length < max_ranges by omega),
          if_neg (show ¬ run_end has n true i ≥ n by omega), if_pos hstart]
        rw [ih he.le_bound (by simp; omega), hroom, List.take_succ_cons]
        simp
      · simp [hstart]
    · have hnone : max_ranges - ranges.length = 0 := by omega
      simp [hlen, hnone]

section Missing

variable (b : ChunkBitmap)

/-- All runs of missing chunks. -/
def runs : List (Nat × Nat) := zero_runs (bit b.bits) b.chunk_count.toNat b.chunk_count.toNat 0

theorem runs_spec : ZeroRuns (bit b.bits) b.chunk_count.toNat 0 b.runs :=
  zero_runs_spec (Nat.zero_le _) (Nat.le_refl _)

theorem length_runs : b.runs.length = b.gaps := by
  have h := b.runs_spec.length_add_count (Nat.zero_le _) (.inl rfl)
  rwa [Nat.count_zero, Nat.add_zero] at h

theorem toNat_run {r : Nat × Nat} (hr : r ∈ b.runs) :
    (UInt64.ofNat r.1).toNat = r.1 ∧ (UInt64.ofNat r.2).toNat = r.2 := by
  obtain ⟨hlt, hle, -⟩ := b.runs_spec.pairwise.2 r hr
  have hbound := b.toNat_count_le
  rw [UInt64.toNat_ofNat', UInt64.toNat_ofNat']
  omega

theorem missing_ranges_eq (max_ranges : Nat) :
    b.missing_ranges max_ranges =
      (b.runs.take max_ranges).map fun r => (UInt64.ofNat r.1, UInt64.ofNat r.2) := by
  have hloop : missing_loop (bit b.bits) b.chunk_count.toNat max_ranges b.chunk_count.toNat 0 [] =
      [] ++ b.runs.take (max_ranges - 0) :=
    missing_loop_eq_take (Nat.zero_le _) (Nat.zero_le _)
  rw [missing_ranges, hloop]
  rfl

theorem inRanges_missing_iff (max_ranges : Nat) (index : UInt64) :
    InRanges (b.missing_ranges max_ranges) index ↔
      ∃ r ∈ b.runs.take max_ranges, r.1 ≤ index.toNat ∧ index.toNat < r.2 := by
  rw [missing_ranges_eq, InRanges]
  simp only [List.mem_map, exists_exists_and_eq_and, UInt64.le_iff_toNat_le,
    UInt64.lt_iff_toNat_lt]
  refine exists_congr fun r => and_congr_right fun hr => ?_
  obtain ⟨h1, h2⟩ := b.toNat_run (List.mem_of_mem_take hr)
  rw [h1, h2]

/-- A range has only missing chunks of the object. -/
theorem not_has_of_inRanges {max_ranges : Nat} {index : UInt64}
    (h : InRanges (b.missing_ranges max_ranges) index) :
    index < b.chunk_count ∧ ¬ b.Has index := by
  obtain ⟨r, hr, hin⟩ := (b.inRanges_missing_iff max_ranges index).1 h
  have hmem := List.mem_of_mem_take hr
  obtain ⟨-, hle, -⟩ := b.runs_spec.pairwise.2 r hmem
  have hlt : index.toNat < b.chunk_count.toNat := by omega
  have hzero := (b.runs_spec.mem_iff (Nat.zero_le _) hlt).2 ⟨r, hmem, hin⟩
  refine ⟨UInt64.lt_iff_toNat_lt.2 hlt, ?_⟩
  rw [Has, hzero]
  exact Bool.false_ne_true

/-- The ranges have every missing chunk exactly if there are few enough gaps. -/
theorem missing_ranges_cover_iff (max_ranges : Nat) :
    (∀ i < b.chunk_count, ¬ b.Has i → InRanges (b.missing_ranges max_ranges) i) ↔
      b.gaps ≤ max_ranges := by
  rw [← length_runs]
  constructor
  · intro hall
    by_contra hlt
    obtain ⟨j, -, hj, hzero, hnot⟩ := b.runs_spec.exists_zero_not_taken (Nat.not_le.1 hlt)
    have hbound := b.toNat_count_le
    have hj64 : (UInt64.ofNat j).toNat = j := by
      rw [UInt64.toNat_ofNat']
      omega
    have hin := hall (.ofNat j) (by rw [UInt64.lt_iff_toNat_lt, hj64]; exact hj)
      (by rw [Has, hj64, hzero]; exact Bool.false_ne_true)
    obtain ⟨r, hr, hr'⟩ := (b.inRanges_missing_iff _ _).1 hin
    rw [hj64] at hr'
    exact hnot r hr hr'
  · intro hle i hi hmissing
    rw [inRanges_missing_iff, List.take_of_length_le hle]
    exact (b.runs_spec.mem_iff (Nat.zero_le _) (UInt64.lt_iff_toNat_lt.1 hi)).1
      (Bool.eq_false_iff.2 hmissing)

theorem missing_ranges_sorted (max_ranges : Nat) :
    Sorted (b.missing_ranges max_ranges) b.chunk_count := by
  obtain ⟨hsorted, hruns⟩ := b.runs_spec.pairwise
  have hmem : ∀ r ∈ b.runs.take max_ranges, r ∈ b.runs := fun r => List.mem_of_mem_take
  rw [missing_ranges_eq]
  constructor
  case apart =>
    refine List.pairwise_map.2 ((hsorted.sublist (List.take_sublist _ _)).imp_of_mem ?_)
    intro r r' hr hr' hlt
    rw [UInt64.lt_iff_toNat_lt, (b.toNat_run (hmem r hr)).2, (b.toNat_run (hmem r' hr')).1]
    exact hlt
  case nonempty =>
    intro range hrange
    obtain ⟨r, hr, rfl⟩ := List.mem_map.1 hrange
    obtain ⟨h1, h2⟩ := b.toNat_run (hmem r hr)
    rw [UInt64.lt_iff_toNat_lt, h1, h2]
    exact (hruns r (hmem r hr)).1
  case bounded =>
    intro range hrange
    obtain ⟨r, hr, rfl⟩ := List.mem_map.1 hrange
    rw [UInt64.le_iff_toNat_le, (b.toNat_run (hmem r hr)).2]
    exact (hruns r (hmem r hr)).2.1

end Missing

end ChunkBitmap

end rtp2_core.bitmap
