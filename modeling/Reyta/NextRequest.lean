-- The request after this one. What is missing is cut to the first region of
-- interest that meets it, and then to a budget of chunks, in one of two orders.
import Reyta.MissingChunks

open exact_parse

namespace rtp2_core.scheduler

open bitmap

/-! ## The state of the network -/

structure NetworkQuality where
  rtt_ms : UInt32
  rtt_variance_ms : UInt32
  loss_permille : UInt32
  storage_is_bottleneck : Bool
  thermal_pressure : Bool

def NetworkQuality.default : NetworkQuality := ⟨80, 10, 0, false, false⟩

/-- `u32::div_ceil` -/
def div_ceil (a b : UInt32) : UInt32 := if a % b > 0 then a / b + 1 else a / b

/-- How many streams to use. The product wraps, as in a release build. -/
def recommended_streams (quality : NetworkQuality) : UInt32 :=
  let streams : UInt32 :=
    if quality.loss_permille ≥ 20 ∨ quality.rtt_ms ≥ 400 then 1
    else if quality.rtt_ms ≥ 150 then 2
    else if quality.rtt_ms ≥ 40 then 4
    else 8
  let streams :=
    if quality.rtt_variance_ms * 2 ≥ max quality.rtt_ms 1 then div_ceil streams 2 else streams
  let streams := if quality.thermal_pressure then div_ceil streams 2 else streams
  let streams := if quality.storage_is_bottleneck then div_ceil streams 2 else streams
  max streams 1

/-! ## Fewer ranges -/

def intersect (ranges : List (UInt64 × UInt64)) (window : UInt64 × UInt64) :
    List (UInt64 × UInt64) :=
  ranges.filterMap fun r =>
    let s := max r.1 window.1
    let e := min r.2 window.2
    if s < e then some (s, e) else none

/-- Takes chunks from the front, with `budget` of them left to take. -/
def take_chunks : List (UInt64 × UInt64) → UInt64 → List (UInt64 × UInt64)
  | [], _ => []
  | (start, stop) :: ranges, budget =>
    if budget = 0 then []
    else
      let span := stop - start
      if span ≤ budget then (start, stop) :: take_chunks ranges (budget - span)
      else (start, start + budget) :: take_chunks ranges 0

/-- The loop of `take_scattered`. -/
def scatter (per_range : UInt64) : List (UInt64 × UInt64) → UInt64 → List (UInt64 × UInt64)
  | [], _ => []
  | (start, stop) :: ranges, budget =>
    if budget = 0 then []
    else
      let span := min (min (stop - start) per_range) budget
      (start, start + span) :: scatter per_range ranges (budget - span)

/-- Takes some chunks from the front of each range. -/
def take_scattered (ranges : List (UInt64 × UInt64)) (max_chunks : UInt64) :
    List (UInt64 × UInt64) :=
  if ranges.isEmpty ∨ max_chunks = 0 then []
  else scatter (max (max_chunks / .ofNat ranges.length) 1) ranges max_chunks

/-! ## The next request -/

/-- The order of `(i.priority, i.range.0)`. -/
def InterestRegion.Before (a b : InterestRegion) : Prop :=
  a.priority.to_u64 < b.priority.to_u64 ∨
    a.priority.to_u64 = b.priority.to_u64 ∧ a.range.1 ≤ b.range.1

instance : DecidableRel InterestRegion.Before :=
  fun _ _ => inferInstanceAs (Decidable (_ ∨ _))

namespace Scheduler

def add_interest (self : Scheduler) (priority : Priority) (range : UInt64 × UInt64) : Scheduler :=
  if range.2 > range.1 then
    let interests := self.interests ++ [InterestRegion.mk priority range]
    { self with interests := interests.insertionSort InterestRegion.Before }
  else self

def set_order (self : Scheduler) (order : ChunkOrder) : Scheduler := { self with order }

def set_generation (self : Scheduler) (generation : UInt64) : Scheduler :=
  { self with generation }

/-- What the first region that meets the ranges has of them, or else all of them. -/
def candidate (self : Scheduler) (ranges : List (UInt64 × UInt64)) :
    Priority × List (UInt64 × UInt64) :=
  (self.interests.findSome? fun interest =>
    let clipped := intersect ranges interest.range
    if clipped.isEmpty then none else some (interest.priority, clipped)).getD (.Sequential, ranges)

def max_bytes (self : Scheduler) (quality : NetworkQuality) : UInt64 :=
  max (self.chunk_ciphertext_size * 8 * (recommended_streams quality).toUInt64)
    self.chunk_ciphertext_size

def max_chunks (self : Scheduler) (quality : NetworkQuality) : UInt64 :=
  max (self.max_bytes quality / max self.chunk_ciphertext_size 1) 1

def take (self : Scheduler) (ranges : List (UInt64 × UInt64)) (max_chunks : UInt64) :
    List (UInt64 × UInt64) :=
  match self.order with
  | .Sequential => take_chunks ranges max_chunks
  | .Scattered => take_scattered ranges max_chunks

def next_request (self : Scheduler) (held : ChunkBitmap) (quality : NetworkQuality) :
    Option RangeRequest :=
  let ranges := held.missing_ranges MAX_RANGES_PER_REQUEST
  if ranges.isEmpty then none
  else
    let (priority, candidate) := self.candidate ranges
    let ranges := self.take candidate (self.max_chunks quality)
    if ranges.isEmpty then none
    else some
      { transfer_id := self.transfer_id
        object_id := self.object_id
        priority_class := priority.to_u64
        ranges
        max_bytes := self.max_bytes quality
        preferred_chunk_order := self.order.to_u64
        durable_ack_generation := self.generation }

end Scheduler

/-! ## Parts of ranges -/

/-- The ranges of the first list are parts of ranges of the second one, at most
one of each and in their order. -/
inductive Narrows : List (UInt64 × UInt64) → List (UInt64 × UInt64) → Prop
  | nil (ranges) : Narrows [] ranges
  | skip {out ranges} (r) (h : Narrows out ranges) : Narrows out (r :: ranges)
  | keep {out ranges r r'} (hstart : r.1 ≤ r'.1) (hlt : r'.1 < r'.2) (hend : r'.2 ≤ r.2)
      (h : Narrows out ranges) : Narrows (r' :: out) (r :: ranges)

namespace Narrows

variable {out ranges : List (UInt64 × UInt64)} {n : UInt64}

theorem length_le (h : Narrows out ranges) : out.length ≤ ranges.length := by
  induction h with
  | nil => exact Nat.zero_le _
  | skip r h ih => exact Nat.le_succ_of_le ih
  | keep hstart hlt hend h ih => exact Nat.succ_le_succ ih

theorem mem (h : Narrows out ranges) {r' : UInt64 × UInt64} (hr' : r' ∈ out) :
    ∃ r ∈ ranges, r.1 ≤ r'.1 ∧ r'.1 < r'.2 ∧ r'.2 ≤ r.2 := by
  induction h with
  | nil => cases hr'
  | skip r h ih =>
    obtain ⟨r, hr, hpart⟩ := ih hr'
    exact ⟨r, List.mem_cons_of_mem _ hr, hpart⟩
  | keep hstart hlt hend h ih =>
    rcases List.mem_cons.1 hr' with rfl | hr'
    · exact ⟨_, List.mem_cons_self, hstart, hlt, hend⟩
    · obtain ⟨r, hr, hpart⟩ := ih hr'
      exact ⟨r, List.mem_cons_of_mem _ hr, hpart⟩

theorem inRanges (h : Narrows out ranges) {i : UInt64} (hi : InRanges out i) :
    InRanges ranges i := by
  obtain ⟨r', hr', hle, hlt⟩ := hi
  obtain ⟨r, hr, hstart, -, hend⟩ := h.mem hr'
  exact ⟨r, hr, UInt64.le_trans hstart hle, UInt64.lt_of_lt_of_le hlt hend⟩

theorem sorted (h : Narrows out ranges) (hsorted : Sorted ranges n) : Sorted out n := by
  constructor
  case nonempty =>
    intro r' hr'
    obtain ⟨r, -, -, hlt, -⟩ := h.mem hr'
    exact hlt
  case bounded =>
    intro r' hr'
    obtain ⟨r, hr, -, -, hend⟩ := h.mem hr'
    exact UInt64.le_trans hend (hsorted.bounded r hr)
  case apart =>
    have hapart := hsorted.apart
    clear hsorted
    induction h with
    | nil => exact .nil
    | skip r h ih => exact ih (List.pairwise_cons.1 hapart).2
    | keep hstart hlt hend h ih =>
      obtain ⟨hafter, hapart⟩ := List.pairwise_cons.1 hapart
      refine List.pairwise_cons.2 ⟨?_, ih hapart⟩
      intro r₁ hr₁
      obtain ⟨r, hr, hstart₁, -, -⟩ := h.mem hr₁
      exact UInt64.lt_of_le_of_lt hend (UInt64.lt_of_lt_of_le (hafter r hr) hstart₁)

theorem refl (h : ∀ r ∈ ranges, r.1 < r.2) : Narrows ranges ranges := by
  induction ranges with
  | nil => exact .nil _
  | cons r ranges ih =>
    obtain ⟨hlt, h⟩ := List.forall_mem_cons.1 h
    exact .keep (UInt64.le_refl _) hlt (UInt64.le_refl _) (ih h)

end Narrows

/-- The parts of the ranges that are in the window. -/
theorem intersect_narrows (ranges : List (UInt64 × UInt64)) (window : UInt64 × UInt64) :
    Narrows (intersect ranges window) ranges := by
  induction ranges with
  | nil => exact .nil _
  | cons r ranges ih =>
    unfold intersect at ih ⊢
    rw [List.filterMap_cons]
    by_cases hlt : max r.1 window.1 < min r.2 window.2
    · simp only [if_pos hlt]
      refine .keep ?_ hlt ?_ ih
      · rw [UInt64.le_iff_toNat_le, UInt64.toNat_max]
        exact Nat.le_max_left _ _
      · rw [UInt64.le_iff_toNat_le, UInt64.toNat_min]
        exact Nat.min_le_left _ _
    · simp only [if_neg hlt]
      exact .skip r ih

theorem inRanges_intersect {ranges : List (UInt64 × UInt64)} {window : UInt64 × UInt64}
    {i : UInt64} :
    InRanges (intersect ranges window) i ↔ InRanges ranges i ∧ window.1 ≤ i ∧ i < window.2 := by
  induction ranges with
  | nil => simp [intersect, InRanges]
  | cons r ranges ih =>
    have hcons : InRanges (intersect (r :: ranges) window) i ↔
        max r.1 window.1 ≤ i ∧ i < min r.2 window.2 ∨ InRanges (intersect ranges window) i := by
      unfold intersect
      rw [List.filterMap_cons]
      by_cases hlt : max r.1 window.1 < min r.2 window.2
      · simp only [if_pos hlt, inRanges_cons]
      · simp only [if_neg hlt]
        refine ⟨.inr, fun hi => hi.resolve_left fun hin => ?_⟩
        exact hlt (UInt64.lt_of_le_of_lt hin.1 hin.2)
    rw [hcons, ih, inRanges_cons]
    simp only [UInt64.le_iff_toNat_le, UInt64.lt_iff_toNat_lt, UInt64.toNat_max, UInt64.toNat_min,
      Nat.max_le, Nat.lt_min]
    tauto

/-- The number of chunks in ranges. -/
def total (ranges : List (UInt64 × UInt64)) : Nat :=
  (ranges.map fun r => r.2.toNat - r.1.toNat).sum

theorem total_cons (r : UInt64 × UInt64) (ranges : List (UInt64 × UInt64)) :
    total (r :: ranges) = r.2.toNat - r.1.toNat + total ranges := by
  simp only [total, List.map_cons, List.sum_cons]

/-- What a selection within a budget gives. -/
structure Selects (out ranges : List (UInt64 × UInt64)) (budget : UInt64) : Prop where
  narrows : Narrows out ranges
  total_le : total out ≤ budget.toNat
  nonempty : budget ≠ 0 → ranges ≠ [] → out ≠ []

namespace Selects

variable {out ranges : List (UInt64 × UInt64)} {budget start stop span : UInt64}

theorem nothing (ranges : List (UInt64 × UInt64)) (hbudget : budget = 0) :
    Selects [] ranges budget :=
  ⟨.nil _, Nat.zero_le _, fun h => absurd hbudget h⟩

/-- The front of the first range is taken, and the rest of the budget is spent on
the other ranges. -/
theorem front (hspan : span ≤ stop - start) (hlt : start < stop) (hpos : span ≠ 0)
    (hle : span ≤ budget) (h : Selects out ranges (budget - span)) :
    Selects ((start, start + span) :: out) ((start, stop) :: ranges) budget := by
  rw [UInt64.le_iff_toNat_le, UInt64.toNat_sub_of_le _ _ (UInt64.le_of_lt hlt)] at hspan
  have hstop := stop.toNat_lt
  have hpos' : span.toNat ≠ 0 := fun h => hpos (UInt64.toNat_inj.1 h)
  have hlt' := UInt64.lt_iff_toNat_lt.1 hlt
  have hsum : (start + span).toNat = start.toNat + span.toNat := by
    rw [UInt64.toNat_add, Nat.mod_eq_of_lt (by omega)]
  refine ⟨.keep (UInt64.le_refl _) ?_ ?_ h.narrows, ?_, fun _ _ => List.cons_ne_nil _ _⟩
  · change start < start + span
    rw [UInt64.lt_iff_toNat_lt, hsum]
    omega
  · change start + span ≤ stop
    rw [UInt64.le_iff_toNat_le, hsum]
    omega
  · have htotal := h.total_le
    have hle' := UInt64.le_iff_toNat_le.1 hle
    rw [UInt64.toNat_sub_of_le _ _ hle] at htotal
    rw [total_cons]
    simp only [hsum]
    omega

end Selects

theorem sub_ne_zero_of_lt {start stop : UInt64} (hlt : start < stop) : stop - start ≠ 0 := by
  intro he
  have hsub := UInt64.toNat_sub_of_le _ _ (UInt64.le_of_lt hlt)
  have hlt' := UInt64.lt_iff_toNat_lt.1 hlt
  rw [he, UInt64.toNat_zero] at hsub
  omega

theorem take_chunks_selects {ranges : List (UInt64 × UInt64)} (h : ∀ r ∈ ranges, r.1 < r.2)
    (budget : UInt64) : Selects (take_chunks ranges budget) ranges budget := by
  induction ranges generalizing budget with
  | nil => exact ⟨.nil _, Nat.zero_le _, fun _ h => absurd rfl h⟩
  | cons r ranges ih =>
    obtain ⟨start, stop⟩ := r
    obtain ⟨hlt, h⟩ := List.forall_mem_cons.1 h
    rw [take_chunks]
    by_cases hzero : budget = 0
    · rw [if_pos hzero]
      exact .nothing _ hzero
    · have hspan := sub_ne_zero_of_lt hlt
      rw [if_neg hzero]
      by_cases hfits : stop - start ≤ budget
      · simp only [if_pos hfits]
        have hfront := Selects.front (UInt64.le_refl _) hlt hspan hfits (ih h _)
        rwa [UInt64.add_comm, UInt64.sub_add_cancel] at hfront
      · simp only [if_neg hfits]
        have hrest := ih h (budget - budget)
        rw [UInt64.sub_self] at hrest
        exact Selects.front (UInt64.le_of_lt (UInt64.not_le.1 hfits)) hlt hzero (UInt64.le_refl _)
          (by rwa [UInt64.sub_self])

theorem min_ne_zero {a b : UInt64} (ha : a ≠ 0) (hb : b ≠ 0) : min a b ≠ 0 := by
  rw [Ne, ← UInt64.toNat_inj] at ha hb ⊢
  rw [UInt64.toNat_zero] at ha hb ⊢
  rw [UInt64.toNat_min]
  omega

theorem scatter_selects {ranges : List (UInt64 × UInt64)} (h : ∀ r ∈ ranges, r.1 < r.2)
    {per_range : UInt64} (hper : per_range ≠ 0) (budget : UInt64) :
    Selects (scatter per_range ranges budget) ranges budget := by
  induction ranges generalizing budget with
  | nil => exact ⟨.nil _, Nat.zero_le _, fun _ h => absurd rfl h⟩
  | cons r ranges ih =>
    obtain ⟨start, stop⟩ := r
    obtain ⟨hlt, h⟩ := List.forall_mem_cons.1 h
    rw [scatter]
    by_cases hzero : budget = 0
    · rw [if_pos hzero]
      exact .nothing _ hzero
    · have hspan := sub_ne_zero_of_lt hlt
      simp only [if_neg hzero]
      refine Selects.front ?_ hlt (min_ne_zero (min_ne_zero hspan hper) hzero) ?_ (ih h _)
      · rw [UInt64.le_iff_toNat_le, UInt64.toNat_min, UInt64.toNat_min]
        omega
      · rw [UInt64.le_iff_toNat_le, UInt64.toNat_min]
        exact Nat.min_le_right _ _

theorem max_one_ne_zero (a : UInt64) : max a 1 ≠ 0 := by
  rw [Ne, ← UInt64.toNat_inj, UInt64.toNat_max, UInt64.toNat_zero, UInt64.toNat_one]
  omega

theorem take_scattered_selects {ranges : List (UInt64 × UInt64)} (h : ∀ r ∈ ranges, r.1 < r.2)
    (max_chunks : UInt64) : Selects (take_scattered ranges max_chunks) ranges max_chunks := by
  unfold take_scattered
  by_cases hnone : ranges.isEmpty ∨ max_chunks = 0
  · rw [if_pos hnone]
    refine ⟨.nil _, Nat.zero_le _, fun hmax hranges => ?_⟩
    exact absurd (List.isEmpty_iff.1 (hnone.resolve_right hmax)) hranges
  · rw [if_neg hnone]
    exact scatter_selects h (max_one_ne_zero _) _

theorem Scheduler.take_selects (self : Scheduler) {ranges : List (UInt64 × UInt64)}
    (h : ∀ r ∈ ranges, r.1 < r.2) (max_chunks : UInt64) :
    Selects (self.take ranges max_chunks) ranges max_chunks := by
  unfold take
  cases self.order with
  | Sequential => exact take_chunks_selects h _
  | Scattered => exact take_scattered_selects h _

/-! ## What the next request asks for -/

section Request

variable {self : Scheduler} {held : ChunkBitmap} {quality : NetworkQuality}
  {ranges : List (UInt64 × UInt64)} {region : InterestRegion} {r : RangeRequest}

theorem intersect_ne_nil {window : UInt64 × UInt64} :
    intersect ranges window ≠ [] ↔ ∃ i, InRanges ranges i ∧ window.1 ≤ i ∧ i < window.2 := by
  have hnonempty : ∀ r ∈ intersect ranges window, r.1 < r.2 := by
    intro r hr
    obtain ⟨-, -, -, hlt, -⟩ := (intersect_narrows ranges window).mem hr
    exact hlt
  rw [Ne, ranges_eq_nil hnonempty, not_forall]
  simp only [not_not, inRanges_intersect]

/-- The first region that meets the ranges, or no region. -/
theorem Scheduler.candidate_cases (self : Scheduler) (ranges : List (UInt64 × UInt64)) :
    (∃ before region after, self.interests = before ++ region :: after ∧
      (∀ other ∈ before, intersect ranges other.range = []) ∧
      intersect ranges region.range ≠ [] ∧
      self.candidate ranges = (region.priority, intersect ranges region.range)) ∨
    (∀ region ∈ self.interests, intersect ranges region.range = []) ∧
      self.candidate ranges = (.Sequential, ranges) := by
  have hnone : ∀ region : InterestRegion, (if (intersect ranges region.range).isEmpty then none
      else some (region.priority, intersect ranges region.range)) = none ↔
        intersect ranges region.range = [] := by
    intro region
    by_cases h : intersect ranges region.range = []
    · simp [h]
    · simp [h]
  rcases hfind : self.interests.findSome? fun interest =>
    if (intersect ranges interest.range).isEmpty then none
    else some (interest.priority, intersect ranges interest.range) with _ | found
  · right
    refine ⟨fun region hregion => ?_, by simp only [candidate, hfind, Option.getD_none]⟩
    exact (hnone region).1 (List.findSome?_eq_none_iff.1 hfind region hregion)
  · left
    obtain ⟨before, region, after, hlist, hfound, hbefore⟩ := List.findSome?_eq_some_iff.1 hfind
    have hmeets : intersect ranges region.range ≠ [] := by
      intro he
      rw [(hnone region).2 he] at hfound
      cases hfound
    refine ⟨before, region, after, hlist,
      fun other hother => (hnone other).1 (hbefore other hother), hmeets, ?_⟩
    rw [if_neg (by simpa using hmeets)] at hfound
    simp only [candidate, hfind, Option.getD_some, Option.some.inj hfound]

theorem Scheduler.candidate_narrows (self : Scheduler) (h : ∀ r ∈ ranges, r.1 < r.2)
    (hranges : ranges ≠ []) :
    Narrows (self.candidate ranges).2 ranges ∧ (self.candidate ranges).2 ≠ [] := by
  rcases self.candidate_cases ranges with ⟨_, region, _, -, -, hmeets, he⟩ | ⟨-, he⟩
  · rw [he]
    exact ⟨intersect_narrows _ _, hmeets⟩
  · rw [he]
    exact ⟨.refl h, hranges⟩

/-- The budget of chunks is never zero. -/
theorem Scheduler.max_chunks_ne_zero (self : Scheduler) (quality : NetworkQuality) :
    self.max_chunks quality ≠ 0 :=
  max_one_ne_zero _

theorem Scheduler.max_chunks_eq (h : 0 < self.chunk_ciphertext_size) :
    self.max_chunks quality = self.max_bytes quality / self.chunk_ciphertext_size := by
  have hpos := UInt64.lt_iff_toNat_lt.1 h
  rw [UInt64.toNat_zero] at hpos
  have hsize : max self.chunk_ciphertext_size 1 = self.chunk_ciphertext_size := by
    rw [← UInt64.toNat_inj, UInt64.toNat_max, UInt64.toNat_one]
    omega
  have hle : self.chunk_ciphertext_size.toNat ≤ (self.max_bytes quality).toNat := by
    rw [max_bytes, UInt64.toNat_max]
    exact Nat.le_max_right _ _
  have hone := Nat.div_pos hle hpos
  rw [max_chunks, hsize, ← UInt64.toNat_inj, UInt64.toNat_max, UInt64.toNat_div, UInt64.toNat_one]
  omega

/-- What a request is made of. -/
structure Scheduler.Asks (s : Scheduler) (held : ChunkBitmap) (quality : NetworkQuality)
    (r : RangeRequest) : Prop where
  priority_class : r.priority_class =
    (s.candidate (held.missing_ranges MAX_RANGES_PER_REQUEST)).1.to_u64
  selects : Selects r.ranges (s.candidate (held.missing_ranges MAX_RANGES_PER_REQUEST)).2
    (s.max_chunks quality)
  candidates : Narrows (s.candidate (held.missing_ranges MAX_RANGES_PER_REQUEST)).2
    (held.missing_ranges MAX_RANGES_PER_REQUEST)
  nonempty : r.ranges ≠ []
  max_bytes : r.max_bytes = s.max_bytes quality

/-- There is a next request unless nothing is missing. -/
theorem Scheduler.next_request_cases (self : Scheduler) (held : ChunkBitmap)
    (quality : NetworkQuality) :
    held.is_complete = true ∧ self.next_request held quality = none ∨
      held.is_complete = false ∧
        ∃ r, self.next_request held quality = some r ∧ self.Asks held quality r := by
  have hsorted := held.missing_ranges_sorted MAX_RANGES_PER_REQUEST
  have hnil := held.missing_ranges_eq_nil (show 0 < MAX_RANGES_PER_REQUEST by decide)
  unfold next_request
  by_cases hmissing : held.missing_ranges MAX_RANGES_PER_REQUEST = []
  · left
    simp only [hmissing, List.isEmpty_nil, if_true]
    exact ⟨hnil.1 hmissing, trivial⟩
  · right
    obtain ⟨hnarrows, hcandidate⟩ := self.candidate_narrows hsorted.nonempty hmissing
    have hselects := self.take_selects (hnarrows.sorted hsorted).nonempty (self.max_chunks quality)
    have htake := hselects.nonempty (self.max_chunks_ne_zero quality) hcandidate
    refine ⟨Bool.eq_false_iff.2 (mt hnil.2 hmissing), ?_⟩
    simp only [List.isEmpty_iff, if_neg hmissing, if_neg htake]
    exact ⟨_, rfl, rfl, hselects, hnarrows, htake, rfl⟩

theorem Scheduler.Asks.narrows (h : self.Asks held quality r) {i : UInt64} (hi : i ∈ r.indices) :
    InRanges (self.candidate (held.missing_ranges MAX_RANGES_PER_REQUEST)).2 i ∧
      InRanges (held.missing_ranges MAX_RANGES_PER_REQUEST) i := by
  have hin := h.selects.narrows.inRanges ((RangeRequest.mem_indices i).1 hi)
  exact ⟨hin, h.candidates.inRanges hin⟩

theorem Scheduler.Asks.mem_missing (h : self.Asks held quality r) {i : UInt64}
    (hi : i ∈ r.indices) : i ∈ held.missing :=
  ChunkBitmap.mem_missing.2 (held.not_has_of_inRanges (h.narrows hi).2)

theorem Scheduler.Asks.sorted (h : self.Asks held quality r) : Sorted r.ranges held.chunk_count :=
  h.selects.narrows.sorted (h.candidates.sorted (held.missing_ranges_sorted _))

theorem Scheduler.Asks.validate (h : self.Asks held quality r) :
    r.validate held.chunk_count = .ok () := by
  refine RangeRequest.validate_iff.2 ⟨?_, h.sorted⟩
  calc r.ranges.length ≤ _ := h.selects.narrows.length_le
    _ ≤ (held.missing_ranges MAX_RANGES_PER_REQUEST).length := h.candidates.length_le
    _ ≤ MAX_RANGES_PER_REQUEST := self.length_ranges_le held

theorem Scheduler.Asks.indices_ne_nil (h : self.Asks held quality r) : r.indices ≠ [] := by
  intro hnil
  refine h.nonempty ((ranges_eq_nil h.sorted.nonempty).2 fun i hi => ?_)
  rw [← RangeRequest.mem_indices, hnil] at hi
  cases hi

theorem Scheduler.Asks.length_indices_le (h : self.Asks held quality r) :
    r.indices.length ≤ (self.max_chunks quality).toNat := by
  rw [RangeRequest.length_indices]
  exact h.selects.total_le

/-! ## Request after request -/

/-- Asks for the next chunks and sets them, until nothing is missing or the
qualities that are observed run out. -/
def Scheduler.fill (self : Scheduler) : List NetworkQuality → ChunkBitmap →
    Except BitmapError (List RangeRequest × ChunkBitmap)
  | [], held => pure ([], held)
  | quality :: qualities, held =>
    match self.next_request held quality with
    | none => pure ([], held)
    | some r => do
      let held ← held.set_all r.indices
      let (rs, full) ← self.fill qualities held
      pure (r :: rs, full)

/-- A round takes the chunks that it asks for from those that are missing. -/
theorem Scheduler.Asks.round (h : self.Asks held quality r) :
    ∃ held', held.set_all r.indices = .ok held' ∧ held'.chunk_count = held.chunk_count ∧
      (r.indices ++ held'.missing).Perm held.missing := by
  have hlt : ∀ i ∈ r.indices, i < held.chunk_count := fun i => RangeRequest.indices_lt h.sorted
  obtain ⟨held', hset, -⟩ := ChunkBitmap.set_all_of_lt hlt
  obtain ⟨hcount, hmissing⟩ := ChunkBitmap.missing_set_all hlt hset
  have hasked : r.indices = held.missing.filter (· ∈ r.indices) := by
    refine ChunkBitmap.eq_of_increasing (RangeRequest.indices_increasing h.sorted)
      (held.missing_increasing.sublist List.filter_sublist) fun i => ?_
    simp only [List.mem_filter, decide_eq_true_eq]
    exact ⟨fun hi => ⟨h.mem_missing hi, hi⟩, fun hi => hi.2⟩
  refine ⟨held', hset, hcount, ?_⟩
  rw [hmissing]
  nth_rewrite 1 [hasked]
  have hsplit := List.filter_append_perm (fun i => decide (i ∈ r.indices)) held.missing
  simpa only [decide_not] using hsplit

theorem Scheduler.fill_completes {qualities : List NetworkQuality}
    (hlen : held.missing.length ≤ qualities.length) :
    ∃ rs full, self.fill qualities held = .ok (rs, full) ∧ full.is_complete = true ∧
      (rs.flatMap RangeRequest.indices).Perm held.missing := by
  induction qualities generalizing held with
  | nil =>
    have hnil : held.missing = [] := List.length_eq_zero_iff.1 (Nat.le_zero.1 hlen)
    exact ⟨[], held, rfl, ChunkBitmap.missing_eq_nil.1 hnil, by rw [hnil]; exact .nil⟩
  | cons quality qualities ih =>
    rcases self.next_request_cases held quality with ⟨hcomplete, hr⟩ | ⟨-, r, hr, hasks⟩
    · refine ⟨[], held, by rw [fill, hr]; rfl, hcomplete, ?_⟩
      rw [ChunkBitmap.missing_eq_nil.2 hcomplete]
      exact .nil
    · obtain ⟨held', hset, -, hperm⟩ := hasks.round
      -- at least one chunk fewer is missing
      have hpos := List.length_pos_iff.2 hasks.indices_ne_nil
      have hsum := hperm.length_eq
      rw [List.length_append] at hsum
      rw [List.length_cons] at hlen
      have hfewer : held'.missing.length ≤ qualities.length := by omega
      obtain ⟨rs, full, hfill, hcomplete, hrest⟩ := ih hfewer
      refine ⟨r :: rs, full, ?_, hcomplete, ?_⟩
      · rw [fill, hr]
        exact bind_eq_ok.2 ⟨held', hset, bind_eq_ok.2 ⟨(rs, full), hfill, rfl⟩⟩
      · rw [List.flatMap_cons]
        exact (hrest.append_left _).trans hperm

/-- The next request is valid, names at least one chunk, only missing ones, and no
more than its bytes allow; there is none only if nothing is missing. Request after
request, the bitmap becomes complete and each missing chunk is asked for once. -/
theorem next_requests_ask_for_each_missing_chunk_once (self : Scheduler)
    (hsize : 1 ≤ self.chunk_ciphertext_size) (held : ChunkBitmap)
    (hcount : held.chunk_count = self.chunk_count) :
    (∀ quality : NetworkQuality,
      (self.next_request held quality = none ↔ held.is_complete = true) ∧
      ∀ r, self.next_request held quality = some r →
        r.validate self.chunk_count = .ok () ∧ r.indices ≠ [] ∧
        (∀ i ∈ r.indices, ¬ held.Has i) ∧
        r.indices.length ≤ (r.max_bytes / self.chunk_ciphertext_size).toNat) ∧
    ∀ qualities : List NetworkQuality, held.missing.length ≤ qualities.length →
      ∃ rs full, self.fill qualities held = .ok (rs, full) ∧ full.is_complete = true ∧
        (rs.flatMap RangeRequest.indices).Perm held.missing := by
  refine ⟨fun quality => ?_, fun qualities hlen => Scheduler.fill_completes hlen⟩
  rcases self.next_request_cases held quality with ⟨hcomplete, hr⟩ | ⟨hcomplete, r, hr, hasks⟩
  · rw [hr, hcomplete]
    simp
  · refine ⟨by rw [hr, hcomplete]; simp, ?_⟩
    intro r' hr'
    obtain rfl := Option.some.inj (hr.symm.trans hr')
    have hpos : 0 < self.chunk_ciphertext_size := UInt64.lt_of_lt_of_le (by decide) hsize
    refine ⟨by rw [← hcount]; exact hasks.validate, hasks.indices_ne_nil, ?_, ?_⟩
    · exact fun i hi => (ChunkBitmap.mem_missing.1 (hasks.mem_missing hi)).2
    · rw [hasks.max_bytes, ← Scheduler.max_chunks_eq hpos]
      exact hasks.length_indices_le

/-- None of six chunks. -/
def noneOfSix : ChunkBitmap where
  chunk_count := 6
  bits := [0]
  set_count := 0
  bounded := by decide
  length_bits := by decide
  trailing := fun i _ => bit_replicate_zero 1 i
  counted := rfl

/-- Six chunks, of which the last two are wanted first. -/
def sampleScheduler : Scheduler :=
  ((Scheduler.new (.replicate 32 1) (.replicate 32 2) 6 65552).add_interest .FirstRender
    (4, 6)).set_order .Scattered

theorem six_chunks_are_asked_for_once :
    ∃ rs full, sampleScheduler.fill (List.replicate 6 .default) noneOfSix = .ok (rs, full) ∧
      full.is_complete = true ∧
      (rs.flatMap RangeRequest.indices).Perm [0, 1, 2, 3, 4, 5] := by
  have h := next_requests_ask_for_each_missing_chunk_once sampleScheduler (by decide) noneOfSix rfl
  exact h.2 (List.replicate 6 .default) (by decide)

end Request

end rtp2_core.scheduler
