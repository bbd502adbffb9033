-- The chunks that a bitmap lacks, in their order, and the bitmaps that are made
-- by setting one chunk after the other. A valid request is the list of the chunks
-- that one bitmap lacks.
import Reyta.Scheduler

namespace rtp2_core.bitmap

/-! ## The chunks that are missing, one by one -/

namespace ChunkBitmap

/-- The chunks of an object of `n` chunks, in their order. -/
def chunks (n : UInt64) : List UInt64 := (List.range n.toNat).map UInt64.ofNat

/-- The chunks that are missing, in their order. -/
def missing (b : ChunkBitmap) : List UInt64 := (chunks b.chunk_count).filter fun i => ¬ b.Has i

theorem toNat_of_mem_range {n : UInt64} {j : Nat} (hj : j ∈ List.range n.toNat) :
    (UInt64.ofNat j).toNat = j := by
  have hlt := List.mem_range.1 hj
  have hn := n.toNat_lt
  rw [UInt64.toNat_ofNat']
  omega

theorem mem_chunks {n i : UInt64} : i ∈ chunks n ↔ i < n := by
  unfold chunks
  rw [List.mem_map]
  constructor
  · rintro ⟨j, hj, rfl⟩
    rw [UInt64.lt_iff_toNat_lt, toNat_of_mem_range hj]
    exact List.mem_range.1 hj
  · intro hi
    exact ⟨i.toNat, List.mem_range.2 (UInt64.lt_iff_toNat_lt.1 hi), UInt64.ofNat_toNat⟩

theorem chunks_increasing (n : UInt64) : (chunks n).Pairwise (· < ·) := by
  unfold chunks
  refine List.pairwise_map.2 (List.pairwise_lt_range.imp_of_mem ?_)
  intro j k hj hk hlt
  rw [UInt64.lt_iff_toNat_lt, toNat_of_mem_range hj, toNat_of_mem_range hk]
  exact hlt

theorem length_chunks (n : UInt64) : (chunks n).length = n.toNat := by
  rw [chunks, List.length_map, List.length_range]

/-- Increasing lists with the same chunks are the same list. -/
theorem eq_of_increasing {l l' : List UInt64} (hl : l.Pairwise (· < ·))
    (hl' : l'.Pairwise (· < ·)) (h : ∀ i, i ∈ l ↔ i ∈ l') : l = l' := by
  have hperm : l.Perm l' := (List.perm_ext_iff_of_nodup
    (hl.imp UInt64.ne_of_lt) (hl'.imp UInt64.ne_of_lt)).2 h
  refine hperm.eq_of_pairwise ?_ hl hl'
  intro i j _ _ hij hji
  exact absurd hji (UInt64.lt_asymm hij)

variable {b b' : ChunkBitmap} {i n : UInt64} {l : List UInt64}

theorem mem_missing : i ∈ b.missing ↔ i < b.chunk_count ∧ ¬ b.Has i := by
  simp only [missing, List.mem_filter, mem_chunks, decide_eq_true_eq]

theorem missing_increasing (b : ChunkBitmap) : b.missing.Pairwise (· < ·) :=
  (chunks_increasing _).sublist List.filter_sublist

theorem missing_eq_nil : b.missing = [] ↔ b.is_complete = true := by
  rw [is_complete_iff, List.eq_nil_iff_forall_not_mem]
  simp only [mem_missing, not_and, not_not]

/-- A bitmap is given by the chunks that it lacks. -/
theorem eq_of_missing (hcount : b.chunk_count = b'.chunk_count) (h : b.missing = b'.missing) :
    b = b' := by
  refine ext_has hcount ?_
  intro j hj
  have hj' : j < b'.chunk_count.toNat := by rwa [← hcount]
  have hlt : UInt64.ofNat j < b.chunk_count := by
    rw [UInt64.lt_iff_toNat_lt, toNat_of_mem_range (List.mem_range.2 hj)]
    exact hj
  have hmissing := mem_missing (b := b) (i := .ofNat j)
  rw [h, mem_missing, ← hcount] at hmissing
  have hhas : b.Has (.ofNat j) ↔ b'.Has (.ofNat j) := by tauto
  rw [b.has_ofNat hj, b'.has_ofNat hj'] at hhas
  exact Bool.eq_iff_iff.2 hhas

/-! ## One chunk after the other -/

/-- `set` for every chunk of the list. -/
def set_all (b : ChunkBitmap) : List UInt64 → Except BitmapError ChunkBitmap
  | [] => pure b
  | i :: l => do
    let (b, _) ← b.set i
    b.set_all l

theorem set_all_of_lt (h : ∀ i ∈ l, i < b.chunk_count) :
    ∃ b', b.set_all l = .ok b' ∧ b'.chunk_count = b.chunk_count ∧
      ∀ i, b'.Has i ↔ b.Has i ∨ i ∈ l := by
  induction l generalizing b with
  | nil => exact ⟨b, rfl, rfl, fun i => by simp⟩
  | cons j l ih =>
    obtain ⟨hj, hl⟩ := List.forall_mem_cons.1 h
    obtain ⟨⟨b₁, changed⟩, hset⟩ := b.set_of_lt hj
    have hto := set_eq_ok hset
    obtain ⟨b₂, hall, hcount, hhas⟩ := ih (b := b₁) (by rw [hto.chunk_count]; exact hl)
    refine ⟨b₂, ?_, hcount.trans hto.chunk_count, ?_⟩
    · rw [set_all, hset]
      exact hall
    · intro i
      rw [hhas, hto.has, List.mem_cons]
      tauto

theorem missing_set_all {full : ChunkBitmap} (h : ∀ i ∈ l, i < b.chunk_count)
    (hset : b.set_all l = .ok full) :
    full.chunk_count = b.chunk_count ∧ full.missing = b.missing.filter (· ∉ l) := by
  obtain ⟨b', hb', hcount, hhas⟩ := set_all_of_lt h
  obtain rfl := Except.ok.inj (hset.symm.trans hb')
  refine ⟨hcount, eq_of_increasing full.missing_increasing
    (b.missing_increasing.sublist List.filter_sublist) fun i => ?_⟩
  simp only [mem_missing, List.mem_filter, decide_eq_true_eq, hcount, hhas]
  tauto

/-- Any set of chunks is lacking in some bitmap. -/
theorem exists_missing (hn : n ≤ MAX_CHUNK_COUNT) (hl : l.Pairwise (· < ·))
    (hlt : ∀ i ∈ l, i < n) : ∃ b : ChunkBitmap, b.chunk_count = n ∧ b.missing = l := by
  obtain ⟨empty, hempty⟩ : ∃ b, new n = .ok b := by
    rw [new, dif_neg (UInt64.not_lt.2 hn)]
    exact ⟨_, rfl⟩
  obtain ⟨hcount, hnone⟩ := new_eq_ok hempty
  obtain ⟨b, -, hb, hhas⟩ := set_all_of_lt (b := empty) (l := (chunks n).filter (· ∉ l)) (by
    intro i hi
    rw [hcount]
    exact mem_chunks.1 (List.mem_filter.1 hi).1)
  refine ⟨b, hb.trans hcount, eq_of_increasing b.missing_increasing hl fun i => ?_⟩
  have hi := hlt i
  simp only [mem_missing, hb, hcount, hhas, hnone, List.mem_filter, mem_chunks,
    decide_eq_true_eq, false_or]
  tauto

end ChunkBitmap

/-! ## Ranges and the chunks in them -/

variable {ranges ranges' : List (UInt64 × UInt64)} {r r' : UInt64 × UInt64} {n : UInt64}

theorem Sorted.tail (h : Sorted (r :: ranges) n) : Sorted ranges n :=
  ⟨(List.pairwise_cons.1 h.apart).2, (List.forall_mem_cons.1 h.nonempty).2,
    (List.forall_mem_cons.1 h.bounded).2⟩

theorem inRanges_cons {i : UInt64} :
    InRanges (r :: ranges) i ↔ r.1 ≤ i ∧ i < r.2 ∨ InRanges ranges i := by
  simp only [InRanges, List.mem_cons, exists_eq_or_imp]

/-- The other ranges start after the end of the first one. -/
theorem Sorted.lt_of_inRanges (h : Sorted (r :: ranges) n) {i : UInt64} (hi : InRanges ranges i) :
    r.2 < i := by
  obtain ⟨r', hr', hle, -⟩ := hi
  exact UInt64.lt_of_lt_of_le ((List.pairwise_cons.1 h.apart).1 r' hr') hle

theorem Sorted.first (h : Sorted (r :: ranges) n) :
    InRanges (r :: ranges) r.1 ∧ ∀ i, InRanges (r :: ranges) i → r.1 ≤ i := by
  have hlt := (List.forall_mem_cons.1 h.nonempty).1
  refine ⟨inRanges_cons.2 (.inl ⟨UInt64.le_refl _, hlt⟩), ?_⟩
  intro i hi
  rcases inRanges_cons.1 hi with hi | hi
  · exact hi.1
  · exact UInt64.le_of_lt (UInt64.lt_trans hlt (h.lt_of_inRanges hi))

/-- The first range ends where a chunk is missing from all of them. -/
theorem Sorted.le_end (h : Sorted (r' :: ranges') n)
    (hsame : ∀ i, InRanges (r :: ranges) i ↔ InRanges (r' :: ranges') i) (hstart : r.1 = r'.1) :
    r.2 ≤ r'.2 := by
  by_contra hlt
  have hlt := UInt64.not_le.1 hlt
  have hpos := (List.forall_mem_cons.1 h.nonempty).1
  have hin : InRanges (r :: ranges) r'.2 := by
    refine inRanges_cons.2 (.inl ⟨?_, hlt⟩)
    rw [hstart]
    exact UInt64.le_of_lt hpos
  rcases inRanges_cons.1 ((hsame _).1 hin) with hi | hi
  · exact UInt64.lt_irrefl _ hi.2
  · exact UInt64.lt_irrefl _ (h.lt_of_inRanges hi)

/-- Sorted ranges are given by the chunks in them. -/
theorem Sorted.eq_of_inRanges (h : Sorted ranges n) (h' : Sorted ranges' n)
    (hsame : ∀ i, InRanges ranges i ↔ InRanges ranges' i) : ranges = ranges' := by
  induction ranges generalizing ranges' with
  | nil =>
    cases ranges' with
    | nil => rfl
    | cons r' ranges' =>
      obtain ⟨r, hr, -⟩ := (hsame _).2 h'.first.1
      cases hr
  | cons r ranges ih =>
    cases ranges' with
    | nil =>
      obtain ⟨r', hr', -⟩ := (hsame _).1 h.first.1
      cases hr'
    | cons r' ranges' =>
      have hstart : r.1 = r'.1 := UInt64.le_antisymm
        (h.first.2 _ ((hsame _).2 h'.first.1)) (h'.first.2 _ ((hsame _).1 h.first.1))
      have hend : r.2 = r'.2 := UInt64.le_antisymm (h'.le_end hsame hstart)
        (h.le_end (fun i => (hsame i).symm) hstart.symm)
      have hr : r = r' := Prod.ext hstart hend
      subst hr
      have htail : ∀ i, InRanges ranges i ↔ InRanges ranges' i := by
        intro i
        have hi := hsame i
        rw [inRanges_cons, inRanges_cons] at hi
        -- a chunk of the first range is in none of the others
        have hout : ∀ {l}, Sorted (r :: l) n → InRanges l i → ¬ i < r.2 := by
          intro l hl hil hlt
          exact UInt64.lt_asymm hlt (hl.lt_of_inRanges hil)
        constructor
        · intro hir
          exact (hi.1 (.inr hir)).resolve_left fun hin => hout h hir hin.2
        · intro hir
          exact (hi.2 (.inr hir)).resolve_left fun hin => hout h' hir hin.2
      rw [ih h.tail h'.tail htail]

/-- Ranges with exactly the missing chunks are the gaps. -/
theorem ChunkBitmap.missing_ranges_of_inRanges {b : ChunkBitmap} {max_ranges : Nat}
    (h : Sorted ranges b.chunk_count) (hlen : ranges.length ≤ max_ranges)
    (hsame : ∀ i, InRanges ranges i ↔ i ∈ b.missing) : b.missing_ranges max_ranges = ranges := by
  have hcover := (b.missing_ranges_cover_iff b.gaps).2 (Nat.le_refl _)
  have hall : b.missing_ranges b.gaps = ranges := by
    refine (b.missing_ranges_sorted _).eq_of_inRanges h fun i => ?_
    rw [hsame, mem_missing]
    exact ⟨b.not_has_of_inRanges, fun hi => hcover i hi.1 hi.2⟩
  have hgaps : b.runs.length ≤ max_ranges := by
    have hlen' := congrArg List.length hall
    rw [missing_ranges_eq, List.length_map, List.length_take, length_runs, Nat.min_self] at hlen'
    rw [length_runs]
    omega
  rw [← hall, missing_ranges_eq, missing_ranges_eq, List.take_of_length_le hgaps,
    List.take_of_length_le (Nat.le_of_eq b.length_runs)]

/-- Without chunks there are no ranges, as no range is empty. -/
theorem ranges_eq_nil (h : ∀ r ∈ ranges, r.1 < r.2) :
    ranges = [] ↔ ∀ i, ¬ InRanges ranges i := by
  constructor
  · rintro rfl i ⟨r, hr, -⟩
    cases hr
  · intro hnone
    cases ranges with
    | nil => rfl
    | cons r ranges =>
      have hlt := h r List.mem_cons_self
      exact absurd (inRanges_cons.2 (.inl ⟨UInt64.le_refl _, hlt⟩)) (hnone r.1)

theorem ChunkBitmap.missing_ranges_eq_nil (b : ChunkBitmap) {max_ranges : Nat}
    (hmax : 0 < max_ranges) : b.missing_ranges max_ranges = [] ↔ b.is_complete = true := by
  constructor
  · intro hnil
    have hruns : b.runs.length = 0 := by
      have hlen := congrArg List.length hnil
      rw [missing_ranges_eq, List.length_map, List.length_take, List.length_nil] at hlen
      omega
    have hcover := (b.missing_ranges_cover_iff max_ranges).2 (by rw [← length_runs]; omega)
    rw [is_complete_iff]
    intro i hi
    by_contra hmissing
    exact (ranges_eq_nil (b.missing_ranges_sorted _).nonempty).1 hnil i (hcover i hi hmissing)
  · intro hcomplete
    refine (ranges_eq_nil (b.missing_ranges_sorted _).nonempty).2 fun i hi => ?_
    obtain ⟨hlt, hmissing⟩ := b.not_has_of_inRanges hi
    exact hmissing (b.is_complete_iff.1 hcomplete i hlt)

end rtp2_core.bitmap

namespace rtp2_core.scheduler

open bitmap

namespace RangeRequest

variable {self : RangeRequest} {n : UInt64}

theorem length_indices (self : RangeRequest) :
    self.indices.length = (self.ranges.map fun r => r.2.toNat - r.1.toNat).sum := by
  simp only [indices, List.length_flatMap, List.length_map, List.length_range']

theorem length_indices_le (h : Sorted self.ranges n) : self.indices.length ≤ n.toNat := by
  have hsub : self.indices ⊆ ChunkBitmap.chunks n := fun i hi =>
    ChunkBitmap.mem_chunks.2 (indices_lt h hi)
  rw [← ChunkBitmap.length_chunks]
  exact (List.subperm_of_subset (indices_nodup h) hsub).length_le

theorem toNat_sum (l : List UInt64) : l.sum.toNat = (l.map UInt64.toNat).sum % 2 ^ 64 := by
  induction l with
  | nil => rfl
  | cons a l ih =>
    rw [List.sum_cons, List.map_cons, List.sum_cons, UInt64.toNat_add, ih, Nat.add_mod_mod]

theorem toNat_chunk_total (h : Sorted self.ranges n) :
    self.chunk_total.toNat = self.indices.length := by
  have hspan : (self.ranges.map fun r => r.2 - r.1).map UInt64.toNat =
      self.ranges.map fun r => r.2.toNat - r.1.toNat := by
    rw [List.map_map]
    refine List.map_congr_left fun r hr => ?_
    exact UInt64.toNat_sub_of_le _ _ (UInt64.le_of_lt (h.nonempty r hr))
  have hle := length_indices_le h
  have hn := n.toNat_lt
  rw [chunk_total, toNat_sum, hspan, ← length_indices, Nat.mod_eq_of_lt (by omega)]

/-- A request is read back exactly if it is valid. What is read names its chunks
once each and in their order, and they are what exactly one bitmap lacks. -/
theorem decoded_request_is_what_one_bitmap_lacks (n : UInt64) :
    (∀ r : RangeRequest, decode r.encode n = .ok r ↔ r.validate n = .ok ()) ∧
    ∀ (bytes : byte_string.Bytes) (r : RangeRequest), decode bytes n = .ok r →
      r.encode = bytes ∧ r.indices.Pairwise (· < ·) ∧ (∀ i ∈ r.indices, i < n) ∧
      r.indices.length = r.chunk_total.toNat ∧
      (n ≤ MAX_CHUNK_COUNT → ∃! b : ChunkBitmap, b.chunk_count = n ∧ b.missing = r.indices) ∧
      ∀ b : ChunkBitmap, b.chunk_count = n → b.missing = r.indices →
        b.missing_ranges MAX_RANGES_PER_REQUEST = r.ranges := by
  constructor
  · intro r
    rw [decode_eq_ok]
    refine ⟨fun h => h.2.2, fun h => ⟨length_encode_le (validate_iff.1 h).1, rfl, h⟩⟩
  · intro bytes r h
    obtain ⟨-, hbytes, hvalid⟩ := decode_eq_ok.1 h
    obtain ⟨hfew, hsorted⟩ := validate_iff.1 hvalid
    have hincreasing := indices_increasing hsorted
    have hlt : ∀ i ∈ r.indices, i < n := fun i => indices_lt hsorted
    refine ⟨hbytes.symm, hincreasing, hlt, (toNat_chunk_total hsorted).symm, ?_, ?_⟩
    · intro hn
      obtain ⟨b, hb, hmissing⟩ := ChunkBitmap.exists_missing hn hincreasing hlt
      refine ⟨b, ⟨hb, hmissing⟩, ?_⟩
      rintro b' ⟨hb', hmissing'⟩
      exact ChunkBitmap.eq_of_missing (hb'.trans hb.symm) (hmissing'.trans hmissing.symm)
    · intro b hb hmissing
      refine ChunkBitmap.missing_ranges_of_inRanges (by rwa [hb]) hfew fun i => ?_
      rw [hmissing, mem_indices]

/-- Two gaps of an object of six chunks. -/
def sampleRequest : RangeRequest :=
  ⟨.replicate 32 1, .replicate 32 2, 3, [(0, 2), (4, 5)], 196656, 0, 0⟩

theorem two_gaps_are_what_one_bitmap_lacks :
    decode sampleRequest.encode 6 = .ok sampleRequest ∧
    ∃! b : ChunkBitmap, b.chunk_count = 6 ∧ b.missing = [0, 1, 4] := by
  have hdecode := ((decoded_request_is_what_one_bitmap_lacks 6).1 sampleRequest).2 (by decide)
  obtain ⟨-, -, -, -, hone, -⟩ :=
    (decoded_request_is_what_one_bitmap_lacks 6).2 sampleRequest.encode sampleRequest hdecode
  exact ⟨hdecode, hone (by decide)⟩

end RangeRequest

end rtp2_core.scheduler
