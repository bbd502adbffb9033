-- The ranges of missing chunks, as the code finds them: three loops that share one
-- cursor. They end after at most one turn for each chunk and one more, and what
-- they find are the first gaps of the bitmap, each of them as long as it can be.
import Reyta.Bitmap
import Reyta.CheckedLoop

open bit_run checked_loop

namespace rtp2_core.bitmap

namespace ChunkBitmap

/-! ## The loops -/

/-- A turn of `while index < self.chunk_count && self.get(index) == value`, where an
error of `get` counts as false. -/
def seek_turn (b : ChunkBitmap) (value : Bool) (index : UInt64) : Option (Turn UInt64 UInt64) :=
  if index < b.chunk_count ∧ (b.get index).toOption.getD false = value then
    (checked_add index 1).map .next
  else some (.done index)

/-- A turn of the outer loop, on the cursor and the ranges. The inner loops have at
most `turns` turns. -/
def missing_turn (b : ChunkBitmap) (max_ranges turns : Nat)
    (s : UInt64 × List (UInt64 × UInt64)) :
    Option (Turn (UInt64 × List (UInt64 × UInt64)) (List (UInt64 × UInt64))) :=
  if s.1 < b.chunk_count ∧ s.2.length < max_ranges then do
    let start ← run (b.seek_turn true) turns s.1
    if start ≥ b.chunk_count then some (.done s.2)
    else
      let stop ← run (b.seek_turn false) turns start
      some (.next (stop, s.2 ++ [(start, stop)]))
  else some (.done s.2)

/-- The loops of `missing_ranges`, each with at most `turns` turns. -/
def missing_ranges_within (b : ChunkBitmap) (max_ranges turns : Nat) :
    Option (List (UInt64 × UInt64)) :=
  run (b.missing_turn max_ranges turns) turns (0, [])

/-! ## They end -/

section Loops

variable {b : ChunkBitmap} {turns : Nat}

/-- The cursor stops where the run ends. -/
theorem seek_ends {value : Bool} {index : UInt64} (hi : index ≤ b.chunk_count)
    (hturns : b.chunk_count.toNat < turns) :
    ∃ stop, run (b.seek_turn value) turns index = some stop ∧
      EndsAt (bit b.bits) b.chunk_count.toNat value index.toNat stop.toNat := by
  have hbound := b.toNat_count_le
  rw [UInt64.le_iff_toNat_le] at hi
  -- all bits from the start up to the cursor have the value
  refine run_of_variant (fun j => index.toNat ≤ j.toNat ∧ j.toNat ≤ b.chunk_count.toNat ∧
    ∀ k, index.toNat ≤ k → k < j.toNat → bit b.bits k = value)
    (fun j => b.chunk_count.toNat - j.toNat) ?_ ⟨Nat.le_refl _, hi, fun k _ _ => by omega⟩
    (by omega)
  rintro j ⟨hij, hjn, hrun⟩
  unfold seek_turn
  by_cases hgo : j < b.chunk_count ∧ (b.get j).toOption.getD false = value
  · obtain ⟨hlt, hvalue⟩ := hgo
    have hbit : bit b.bits j.toNat = value := by
      rw [get_of_lt hlt] at hvalue
      exact hvalue
    have hnat := UInt64.lt_iff_toNat_lt.1 hlt
    have hone : (1 : UInt64).toNat = 1 := rfl
    obtain ⟨hadd, hnext⟩ := checked_add_of_lt (show j.toNat + (1 : UInt64).toNat < 2 ^ 64 by omega)
    refine .inl ⟨j + 1, ?_, ⟨by omega, by omega, ?_⟩, by omega⟩
    · rw [if_pos ⟨hlt, hvalue⟩, hadd, Option.map_some]
    · intro k hk hkj
      by_cases he : k = j.toNat
      · rw [he]
        exact hbit
      · exact hrun k hk (by omega)
  · refine .inr ⟨j, if_neg hgo, hij, hjn, hrun, ?_⟩
    intro hlt hbit
    have hlt64 := UInt64.lt_iff_toNat_lt.2 hlt
    refine hgo ⟨hlt64, ?_⟩
    rw [get_of_lt hlt64]
    exact hbit

/-- What is found is in the ranges, and the runs that are to come are in `left`. -/
structure Seeks (b : ChunkBitmap) (max_ranges : Nat) (s : UInt64 × List (UInt64 × UInt64))
    (found left : List (Nat × Nat)) : Prop where
  cursor : s.1 ≤ b.chunk_count
  ranges : s.2 = found.map fun r => (UInt64.ofNat r.1, UInt64.ofNat r.2)
  room : found.length ≤ max_ranges
  runs : ZeroRuns (bit b.bits) b.chunk_count.toNat s.1.toNat left
  all : found ++ left.take (max_ranges - found.length) = b.runs.take max_ranges

variable {max_ranges : Nat} {s : UInt64 × List (UInt64 × UInt64)} {found left : List (Nat × Nat)}

/-- At the end all ranges are found. -/
theorem Seeks.ends (h : b.Seeks max_ranges s found left)
    (hleft : left.take (max_ranges - found.length) = []) : s.2 = b.missing_ranges max_ranges := by
  have hall := h.all
  rw [hleft, List.append_nil] at hall
  rw [missing_ranges_eq, ← hall, h.ranges]

/-- Where the cursor skips all chunks, there are no more runs. -/
theorem Seeks.left_eq_nil (h : b.Seeks max_ranges s found left) {start : Nat}
    (hstart : EndsAt (bit b.bits) b.chunk_count.toNat true s.1.toNat start)
    (hend : b.chunk_count.toNat ≤ start) : left = [] := by
  cases h.runs with
  | nil => rfl
  | cons hs hlt =>
    rw [hs.unique hstart] at hlt
    omega

theorem Seeks.cons (h : b.Seeks max_ranges s found left) {start stop : UInt64}
    (hroom : found.length < max_ranges) (hlt : start < b.chunk_count)
    (hstart : EndsAt (bit b.bits) b.chunk_count.toNat true s.1.toNat start.toNat)
    (hstop : EndsAt (bit b.bits) b.chunk_count.toNat false start.toNat stop.toNat) :
    ∃ rest, b.Seeks max_ranges (stop, s.2 ++ [(start, stop)])
      (found ++ [(start.toNat, stop.toNat)]) rest := by
  have hruns := h.runs
  have hall := h.all
  have hnat := UInt64.lt_iff_toNat_lt.1 hlt
  cases hruns with
  | nil hones =>
    have hzero := hstart.bit_false hnat
    rw [hones start.toNat hstart.le hnat] at hzero
    cases hzero
  | @cons _ s' e' rest hs hlt' he hrest =>
    obtain rfl := hs.unique hstart
    obtain rfl := he.unique hstop
    refine ⟨rest, UInt64.le_iff_toNat_le.2 hstop.le_bound, ?_, ?_, hrest, ?_⟩
    · rw [h.ranges, List.map_append]
      simp
    · rw [List.length_append, List.length_singleton]
      omega
    · rw [← hall, List.length_append, List.length_singleton]
      have hmore : max_ranges - found.length = max_ranges - (found.length + 1) + 1 := by omega
      rw [hmore, List.take_succ_cons, List.append_assoc, List.singleton_append]

/-- A turn of the outer loop finds the next run, or all ranges are there. -/
theorem Seeks.turn (h : b.Seeks max_ranges s found left) (hturns : b.chunk_count.toNat < turns) :
    (∃ s', b.missing_turn max_ranges turns s = some (.next s') ∧
      (∃ found' left', b.Seeks max_ranges s' found' left') ∧
      b.chunk_count.toNat - s'.1.toNat < b.chunk_count.toNat - s.1.toNat) ∨
    ∃ r, b.missing_turn max_ranges turns s = some (.done r) ∧ r = b.missing_ranges max_ranges := by
  have hlen : s.2.length = found.length := by rw [h.ranges, List.length_map]
  unfold missing_turn
  by_cases hgo : s.1 < b.chunk_count ∧ s.2.length < max_ranges
  · obtain ⟨start, hseek, hstart⟩ := @seek_ends b turns true s.1 h.cursor hturns
    rw [if_pos hgo, hseek]
    by_cases hend : start ≥ b.chunk_count
    · refine .inr ⟨s.2, if_pos hend, h.ends ?_⟩
      rw [h.left_eq_nil hstart (UInt64.le_iff_toNat_le.1 hend), List.take_nil]
    · have hlt := UInt64.not_le.1 hend
      obtain ⟨stop, hseek', hstop⟩ := @seek_ends b turns false start (UInt64.le_of_lt hlt) hturns
      obtain ⟨rest, hnext⟩ := h.cons (by omega) hlt hstart hstop
      refine .inl ⟨(stop, s.2 ++ [(start, stop)]), ?_, ⟨_, rest, hnext⟩, ?_⟩
      · change (if start ≥ b.chunk_count then _ else _) = _
        rw [if_neg hend, hseek']
        rfl
      · have hle := hstart.le
        have hnat := UInt64.lt_iff_toNat_lt.1 hlt
        have hpos := hstop.lt hnat (hstart.bit_false hnat)
        change b.chunk_count.toNat - stop.toNat < _
        omega
  · refine .inr ⟨s.2, if_neg hgo, h.ends ?_⟩
    by_cases hfull : s.2.length < max_ranges
    · have hend := UInt64.le_iff_toNat_le.1 (UInt64.not_lt.1 fun hlt => hgo ⟨hlt, hfull⟩)
      have hcursor := UInt64.le_iff_toNat_le.1 h.cursor
      rw [h.left_eq_nil (run_end_spec hcursor) (Nat.le_trans hend (run_end_spec hcursor).le),
        List.take_nil]
    · rw [show max_ranges - found.length = 0 by omega, List.take_zero]

/-- The loops end within one turn more than there are chunks. -/
theorem missing_ranges_within_eq (b : ChunkBitmap) (max_ranges : Nat)
    (hturns : b.chunk_count.toNat < turns) :
    b.missing_ranges_within max_ranges turns = some (b.missing_ranges max_ranges) := by
  have hstart : b.Seeks max_ranges (0, []) [] b.runs :=
    ⟨UInt64.zero_le, rfl, Nat.zero_le _, b.runs_spec, rfl⟩
  obtain ⟨ranges, hrun, rfl⟩ := run_of_variant
    (fun s => ∃ found left, b.Seeks max_ranges s found left)
    (fun s => b.chunk_count.toNat - s.1.toNat) (fun s ⟨_, _, h⟩ => h.turn hturns)
    ⟨[], b.runs, hstart⟩ (Nat.lt_of_le_of_lt (Nat.sub_le _ _) hturns)
  exact hrun

end Loops

/-! ## They find the first gaps -/

/-- A range of missing chunks that cannot be made longer on either side. -/
structure Gap (b : ChunkBitmap) (r : UInt64 × UInt64) : Prop where
  nonempty : r.1 < r.2
  bounded : r.2 ≤ b.chunk_count
  missing : ∀ i, r.1 ≤ i → i < r.2 → b.get i = .ok false
  before : 0 < r.1 → b.get (r.1 - 1) = .ok true
  after : r.2 < b.chunk_count → b.get r.2 = .ok true

variable {b : ChunkBitmap}

theorem gap_iff {r : UInt64 × UInt64} :
    b.Gap r ↔ IsZeroRun (bit b.bits) b.chunk_count.toNat (r.1.toNat, r.2.toNat) := by
  have hpred : 0 < r.1.toNat → (r.1 - 1).toNat = r.1.toNat - 1 := fun hpos =>
    UInt64.toNat_sub_of_le _ _ (UInt64.le_iff_toNat_le.2 hpos)
  constructor
  · rintro ⟨hlt, hle, hmissing, hbefore, hafter⟩
    refine ⟨UInt64.lt_iff_toNat_lt.1 hlt, UInt64.le_iff_toNat_le.1 hle, ?_, ?_, ?_⟩
    · intro j hj hjr
      have hj64 : (UInt64.ofNat j).toNat = j :=
        UInt64.toNat_ofNat_of_lt' (Nat.lt_trans hjr r.2.toNat_lt)
      have hget := hmissing (.ofNat j) (by rwa [UInt64.le_iff_toNat_le, hj64])
        (by rwa [UInt64.lt_iff_toNat_lt, hj64])
      rw [get_eq_ok, hj64] at hget
      exact hget.2
    · intro hpos
      rw [← hpred hpos]
      exact (get_eq_ok.1 (hbefore (UInt64.lt_iff_toNat_lt.2 hpos))).2
    · intro hend
      exact (get_eq_ok.1 (hafter (UInt64.lt_iff_toNat_lt.2 hend))).2
  · rintro ⟨hlt, hle, hzeros, hbefore, hafter⟩
    refine ⟨UInt64.lt_iff_toNat_lt.2 hlt, UInt64.le_iff_toNat_le.2 hle, ?_, ?_, ?_⟩
    · intro i hi hir
      rw [UInt64.le_iff_toNat_le] at hi
      rw [UInt64.lt_iff_toNat_lt] at hir
      exact get_eq_ok.2 ⟨UInt64.lt_iff_toNat_lt.2 (Nat.lt_of_lt_of_le hir hle),
        hzeros i.toNat hi hir⟩
    · intro hpos
      have hnat : 0 < r.1.toNat := UInt64.lt_iff_toNat_lt.1 hpos
      rw [get_eq_ok, UInt64.lt_iff_toNat_lt, hpred hnat]
      refine ⟨?_, hbefore hnat⟩
      change r.1.toNat < r.2.toNat at hlt
      change r.2.toNat ≤ _ at hle
      omega
    · intro hend
      exact get_eq_ok.2 ⟨hend, hafter (UInt64.lt_iff_toNat_lt.1 hend)⟩

/-- The gaps of the bitmap, in their order. -/
def all_gaps (b : ChunkBitmap) : List (UInt64 × UInt64) := b.missing_ranges b.gaps

theorem missing_ranges_eq_take (b : ChunkBitmap) (max_ranges : Nat) :
    b.missing_ranges max_ranges = b.all_gaps.take max_ranges := by
  rw [all_gaps, missing_ranges_eq, missing_ranges_eq, ← length_runs, List.take_length,
    List.map_take]

theorem mem_all_gaps {r : UInt64 × UInt64} : r ∈ b.all_gaps ↔ b.Gap r := by
  rw [all_gaps, missing_ranges_eq, ← length_runs, List.take_length, gap_iff,
    ← b.runs_spec.mem_iff_isZeroRun, List.mem_map]
  constructor
  · rintro ⟨run, hrun, rfl⟩
    obtain ⟨hstart, hstop⟩ := b.toNat_run hrun
    rw [hstart, hstop]
    exact hrun
  · intro hr
    exact ⟨_, hr, by rw [UInt64.ofNat_toNat, UInt64.ofNat_toNat]⟩

theorem length_all_gaps (b : ChunkBitmap) : b.all_gaps.length = b.gaps := by
  rw [all_gaps, missing_ranges_eq, ← length_runs, List.take_length, List.length_map]

/-- The bit after a gap is set if another gap comes. -/
theorem Gap.set_between {r r' : UInt64 × UInt64} (h : b.Gap r) (h' : b.Gap r') (hlt : r.2 < r'.1) :
    b.get r.2 = .ok true :=
  h.after (UInt64.lt_of_lt_of_le (UInt64.lt_trans hlt h'.nonempty) h'.bounded)

/-- The loops of `missing_ranges` end, and they return the first gaps of the bitmap
in their order. Between two of them a bit is set, and with room left for another one
they have all chunks that are missing. -/
theorem missing_ranges_are_the_first_gaps (b : ChunkBitmap) (max_ranges : Nat) :
    (∀ turns, b.chunk_count.toNat < turns →
      b.missing_ranges_within max_ranges turns = some (b.missing_ranges max_ranges)) ∧
    (∃ gaps : List (UInt64 × UInt64), (∀ r, r ∈ gaps ↔ b.Gap r) ∧
      gaps.Pairwise (fun r r' => r.2 < r'.1 ∧ b.get r.2 = .ok true) ∧
      b.missing_ranges max_ranges = gaps.take max_ranges) ∧
    ((b.missing_ranges max_ranges).length < max_ranges →
      ∀ i, InRanges (b.missing_ranges max_ranges) i ↔ b.get i = .ok false) := by
  refine ⟨fun turns hturns => b.missing_ranges_within_eq max_ranges hturns,
    ⟨b.all_gaps, fun r => mem_all_gaps, ?_, b.missing_ranges_eq_take max_ranges⟩, ?_⟩
  · refine (b.missing_ranges_sorted b.gaps).apart.imp_of_mem fun hr hr' hlt => ?_
    exact ⟨hlt, (mem_all_gaps.1 hr).set_between (mem_all_gaps.1 hr') hlt⟩
  · intro hlen i
    rw [missing_ranges_eq_take, List.length_take, length_all_gaps] at hlen
    rw [get_eq_ok]
    constructor
    · intro hi
      obtain ⟨hlt, hmissing⟩ := b.not_has_of_inRanges hi
      exact ⟨hlt, Bool.eq_false_iff.2 hmissing⟩
    · rintro ⟨hlt, hclear⟩
      exact (b.missing_ranges_cover_iff max_ranges).2 (by omega) i hlt
        (Bool.eq_false_iff.1 hclear)

end ChunkBitmap

end rtp2_core.bitmap
