-- Which region of interest the next request serves. The gaps are counted from
-- the front and cut off at 1024 before the regions are looked at, so a region
-- behind more gaps than that is not seen.
import Mathlib.Data.List.Sort
import Reyta.Delivery
import Reyta.NextRequest

namespace rtp2_core.scheduler

open bitmap

/-! ## Regions in their order -/

instance : Std.Total InterestRegion.Before where
  total a b := by
    simp only [InterestRegion.Before, UInt64.lt_iff_toNat_lt, UInt64.le_iff_toNat_le,
      ← UInt64.toNat_inj]
    omega

instance : IsTrans InterestRegion InterestRegion.Before where
  trans a b c hab hbc := by
    simp only [InterestRegion.Before, UInt64.lt_iff_toNat_lt, UInt64.le_iff_toNat_le,
      ← UInt64.toNat_inj] at hab hbc ⊢
    omega

/-- Schedulers that are made by the operations. -/
inductive Scheduler.Built : Scheduler → Prop
  | new (transfer_id object_id chunk_count chunk_ciphertext_size) :
      Built (.new transfer_id object_id chunk_count chunk_ciphertext_size)
  | add_interest {s} (h : Built s) (priority range) : Built (s.add_interest priority range)
  | set_order {s} (h : Built s) (order) : Built (s.set_order order)
  | set_generation {s} (h : Built s) (generation) : Built (s.set_generation generation)

theorem Scheduler.Built.interests_sorted {s : Scheduler} (h : s.Built) :
    s.interests.Pairwise InterestRegion.Before := by
  induction h with
  | new => exact .nil
  | add_interest h priority range ih =>
    unfold Scheduler.add_interest
    by_cases hrange : range.2 > range.1
    · simp only [if_pos hrange]
      exact List.pairwise_insertionSort _ _
    · rwa [if_neg hrange]
  | set_order h order ih => exact ih
  | set_generation h generation ih => exact ih

/-! ## The region that is served -/

def InterestRegion.Has (region : InterestRegion) (i : UInt64) : Prop :=
  region.range.1 ≤ i ∧ i < region.range.2

instance (region : InterestRegion) (i : UInt64) : Decidable (region.Has i) :=
  inferInstanceAs (Decidable (_ ∧ _))

/-- Some chunk of the region is missing. -/
def InterestRegion.Unsatisfied (region : InterestRegion) (held : ChunkBitmap) : Prop :=
  ∃ i, region.Has i ∧ i ∈ held.missing

/-- No region before this one lacks a chunk. -/
def Scheduler.FirstUnsatisfied (s : Scheduler) (held : ChunkBitmap) (region : InterestRegion) :
    Prop :=
  ∃ before after, s.interests = before ++ region :: after ∧ region.Unsatisfied held ∧
    ∀ other ∈ before, ¬ other.Unsatisfied held

/-- One of the first 1024 gaps has a chunk of the region. -/
def InterestRegion.Meets (region : InterestRegion) (held : ChunkBitmap) : Prop :=
  ∃ i, InRanges (held.missing_ranges MAX_RANGES_PER_REQUEST) i ∧ region.Has i

structure RangeRequest.Serves (r : RangeRequest) (region : InterestRegion) : Prop where
  priority_class : r.priority_class = region.priority.to_u64
  within : ∀ i ∈ r.indices, region.Has i

section Serves

variable {s : Scheduler} {held : ChunkBitmap} {quality : NetworkQuality} {r : RangeRequest}
  {region : InterestRegion}

theorem InterestRegion.Meets.unsatisfied (h : region.Meets held) : region.Unsatisfied held := by
  obtain ⟨i, hi, hhas⟩ := h
  exact ⟨i, hhas, ChunkBitmap.mem_missing.2 (held.not_has_of_inRanges hi)⟩

theorem InterestRegion.Unsatisfied.meets (h : region.Unsatisfied held)
    (hgaps : held.gaps ≤ MAX_RANGES_PER_REQUEST) : region.Meets held := by
  obtain ⟨i, hhas, hi⟩ := h
  obtain ⟨hlt, hmissing⟩ := ChunkBitmap.mem_missing.1 hi
  exact ⟨i, (held.missing_ranges_cover_iff _).2 hgaps i hlt hmissing, hhas⟩

theorem InterestRegion.meets_iff : region.Meets held ↔
    intersect (held.missing_ranges MAX_RANGES_PER_REQUEST) region.range ≠ [] :=
  intersect_ne_nil.symm

/-- A request is made, as something is missing. -/
theorem Scheduler.FirstUnsatisfied.asks (h : s.FirstUnsatisfied held region)
    (quality : NetworkQuality) :
    ∃ r, s.next_request held quality = some r ∧ s.Asks held quality r := by
  obtain ⟨-, -, -, ⟨i, -, hi⟩, -⟩ := h
  rcases s.next_request_cases held quality with ⟨hcomplete, -⟩ | ⟨-, hr⟩
  · rw [ChunkBitmap.missing_eq_nil.2 hcomplete] at hi
    cases hi
  · exact hr

/-- The first region that lacks a chunk is the one that is chosen if it meets the
gaps that are looked at. -/
theorem Scheduler.FirstUnsatisfied.candidate (h : s.FirstUnsatisfied held region)
    (hmeets : region.Meets held) :
    s.candidate (held.missing_ranges MAX_RANGES_PER_REQUEST) = (region.priority,
      intersect (held.missing_ranges MAX_RANGES_PER_REQUEST) region.range) := by
  obtain ⟨before, after, hlist, -, hbefore⟩ := h
  rcases s.candidate_cases (held.missing_ranges MAX_RANGES_PER_REQUEST) with
    ⟨before', region', after', hlist', hbefore', hmeets', he⟩ | ⟨hnone, -⟩
  · have hregion' := InterestRegion.meets_iff.2 hmeets'
    -- neither region is among those before the other one
    have hsame : region' = region := by
      rcases List.append_eq_append_iff.1 (hlist.symm.trans hlist') with
        ⟨mid, hmid, hrest⟩ | ⟨mid, hmid, hrest⟩
      · cases mid with
        | nil => exact (List.cons.inj hrest).1.symm
        | cons x mid =>
          obtain rfl := (List.cons.inj hrest).1
          exact absurd (hbefore' region (by rw [hmid]; simp)) (InterestRegion.meets_iff.1 hmeets)
      · cases mid with
        | nil => exact (List.cons.inj hrest).1
        | cons x mid =>
          obtain rfl := (List.cons.inj hrest).1
          exact absurd hregion'.unsatisfied (hbefore region' (by rw [hmid]; simp))
    rw [he, hsame]
  · exact absurd (hnone region (by rw [hlist]; simp)) (InterestRegion.meets_iff.1 hmeets)

theorem Scheduler.Asks.serves_iff (hr : s.Asks held quality r)
    (h : s.FirstUnsatisfied held region) : r.Serves region ↔ region.Meets held := by
  constructor
  · intro hserves
    obtain ⟨i, hi⟩ := List.exists_mem_of_ne_nil _ hr.indices_ne_nil
    exact ⟨i, (hr.narrows hi).2, hserves.within i hi⟩
  · intro hmeets
    have he := h.candidate hmeets
    refine ⟨by rw [hr.priority_class, he], fun i hi => ?_⟩
    have hin := (hr.narrows hi).1
    rw [he] at hin
    exact (inRanges_intersect.1 hin).2

theorem Priority.to_u64_inj {p p' : Priority} (h : p.to_u64 = p'.to_u64) : p = p' := by
  cases p <;> cases p' <;> first | rfl | exact absurd h (by decide)

/-- The first region that lacks a chunk, by priority and then by start, is served
if and only if it meets one of the first 1024 gaps of the object. With at most 1024
gaps it always does. The rest of the object is asked for when no region lacks a
chunk. -/
theorem next_request_serves_the_first_region_iff_it_meets_the_first_gaps (s : Scheduler)
    (hbuilt : s.Built) (held : ChunkBitmap) (quality : NetworkQuality) :
    s.interests.Pairwise InterestRegion.Before ∧
    (∀ region, s.FirstUnsatisfied held region → ∃ r, s.next_request held quality = some r ∧
      (r.Serves region ↔ region.Meets held) ∧
      (held.gaps ≤ MAX_RANGES_PER_REQUEST → r.Serves region ∧
        (r.priority_class = Priority.Sequential.to_u64 → region.priority = .Sequential))) ∧
    ((∀ region ∈ s.interests, ¬ region.Unsatisfied held) →
      ∀ r, s.next_request held quality = some r →
        r.priority_class = Priority.Sequential.to_u64) := by
  refine ⟨hbuilt.interests_sorted, ?_, ?_⟩
  · intro region h
    obtain ⟨r, hr, hasks⟩ := h.asks quality
    have hiff := hasks.serves_iff h
    refine ⟨r, hr, hiff, fun hgaps => ?_⟩
    obtain ⟨-, -, -, hunsatisfied, -⟩ := h
    have hserves := hiff.2 (hunsatisfied.meets hgaps)
    refine ⟨hserves, fun hclass => ?_⟩
    rw [hserves.priority_class] at hclass
    exact Priority.to_u64_inj hclass
  · intro hnone r hr
    rcases s.next_request_cases held quality with ⟨-, hr'⟩ | ⟨-, r', hr', hasks⟩
    · rw [hr] at hr'
      cases hr'
    · obtain rfl := Option.some.inj (hr.symm.trans hr')
      rcases s.candidate_cases (held.missing_ranges MAX_RANGES_PER_REQUEST) with
        ⟨before, region, after, hlist, -, hmeets, -⟩ | ⟨-, he⟩
      · refine absurd (InterestRegion.meets_iff.2 hmeets).unsatisfied (hnone region ?_)
        rw [hlist]
        simp
      · rw [hasks.priority_class, he]

theorem last_two_of_six_are_served_first :
    ∃ r, sampleScheduler.next_request noneOfSix .default = some r ∧
      r.Serves ⟨.FirstRender, (4, 6)⟩ := by
  have hbuilt : sampleScheduler.Built := .set_order (.add_interest (.new _ _ _ _) _ _) _
  have hfirst : sampleScheduler.FirstUnsatisfied noneOfSix ⟨.FirstRender, (4, 6)⟩ :=
    ⟨[], [], by decide, ⟨4, by decide, by decide⟩, by simp⟩
  obtain ⟨-, hserved, -⟩ := next_request_serves_the_first_region_iff_it_meets_the_first_gaps
    sampleScheduler hbuilt noneOfSix .default
  obtain ⟨r, hr, -, hserves⟩ := hserved _ hfirst
  exact ⟨r, hr, (hserves (by decide)).1⟩

end Serves

/-! ## A region behind 1024 gaps -/

/-- With more gaps than are looked at, the last chunk is in none of them. -/
theorem last_chunk_not_in_first_gaps {b : ChunkBitmap} {max_ranges : Nat} {last : UInt64}
    (hgaps : max_ranges < b.gaps) (hlast : b.chunk_count.toNat = last.toNat + 1) :
    ¬ InRanges (b.missing_ranges max_ranges) last := by
  rw [b.inRanges_missing_iff]
  rintro ⟨r, hr, -, hlt⟩
  rw [← b.length_runs] at hgaps
  obtain ⟨hsorted, hruns⟩ := b.runs_spec.pairwise
  obtain ⟨hpos, hle, -⟩ := hruns _ (List.getElem_mem hgaps)
  obtain ⟨k, hk, rfl⟩ := List.getElem_of_mem hr
  rw [List.length_take] at hk
  rw [List.getElem_take] at hlt
  have hbefore := List.pairwise_iff_getElem.1 hsorted k max_ranges (by omega) hgaps (by omega)
  omega

/-- The last of 2049 chunks is wanted before all others. -/
def lastOfMany : Scheduler :=
  (Scheduler.new (.replicate 32 1) (.replicate 32 2) 2049 65552).add_interest .CriticalMetadata
    (2048, 2049)

/-- Every other chunk is missing, in 1025 gaps. The only region lacks its chunk,
and yet the request has the class of the rest of the object and does not name it. -/
theorem region_behind_1024_gaps_is_not_served :
    lastOfMany.FirstUnsatisfied transfer.everyOther ⟨.CriticalMetadata, (2048, 2049)⟩ ∧
    ∀ quality, ∃ r, lastOfMany.next_request transfer.everyOther quality = some r ∧
      r.priority_class = Priority.Sequential.to_u64 ∧ 2048 ∉ r.indices := by
  have hlist : lastOfMany.interests = [⟨.CriticalMetadata, (2048, 2049)⟩] := by decide
  have hmissing : (2048 : UInt64) ∈ transfer.everyOther.missing := by
    refine ChunkBitmap.mem_missing.2 ⟨by decide, ?_⟩
    rw [ChunkBitmap.Has]
    exact (by rw [transfer.bit_everyOtherBits (by decide)]; decide :
      ¬ bit transfer.everyOtherBits 2048 = true)
  have hfirst : lastOfMany.FirstUnsatisfied transfer.everyOther
      ⟨.CriticalMetadata, (2048, 2049)⟩ :=
    ⟨[], [], hlist, ⟨2048, by decide, hmissing⟩, by simp⟩
  have hnot : ¬ InRanges (transfer.everyOther.missing_ranges MAX_RANGES_PER_REQUEST) 2048 :=
    last_chunk_not_in_first_gaps (by rw [transfer.everyOther_gaps]; decide) rfl
  refine ⟨hfirst, fun quality => ?_⟩
  obtain ⟨r, hr, hasks⟩ := hfirst.asks quality
  refine ⟨r, hr, ?_, fun hi => hnot (hasks.narrows hi).2⟩
  rcases lastOfMany.candidate_cases
    (transfer.everyOther.missing_ranges MAX_RANGES_PER_REQUEST) with
    ⟨before, region, after, hlist', -, hmeets, -⟩ | ⟨-, he⟩
  · have hregion : region ∈ lastOfMany.interests := by
      rw [hlist']
      simp
    rw [hlist, List.mem_singleton] at hregion
    obtain ⟨i, hi, hle, hlt⟩ := intersect_ne_nil.1 hmeets
    rw [hregion] at hle hlt
    have hi2048 : i = 2048 := by
      rw [UInt64.le_iff_toNat_le] at hle
      rw [UInt64.lt_iff_toNat_lt] at hlt
      rw [← UInt64.toNat_inj]
      simp only [UInt64.reduceToNat] at hle hlt ⊢
      omega
    rw [hi2048] at hi
    exact absurd hi hnot
  · rw [hasks.priority_class, he]

end rtp2_core.scheduler
