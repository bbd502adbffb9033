-- The chunks of a file: how long each of them is, that they lie side by side, and
-- that nothing which is computed about them leaves the range of its type.
import Mathlib.Algebra.BigOperators.Group.List.Basic
import Reyta.MissingChunks
import Reyta.Object

open byte_string

namespace rtp2_core.object

open bitmap

namespace ObjectContext

/-- The sums, differences and products of the functions of a context stay in the
range of their types. Here they are computed without a bound. -/
structure InRange (ctx : ObjectContext) : Prop where
  /-- `div_ceil` adds one at most. -/
  chunk_count : ctx.logical_plaintext_size.toNat / ctx.chunk_plaintext_size.toNat + 1 < 2 ^ 64
  chunk_ciphertext_size : ctx.chunk_plaintext_size.toNat + AEAD_TAG_LEN < 2 ^ 64
  tags : ctx.chunk_count.toNat * AEAD_TAG_LEN < 2 ^ 64
  ciphertext_size :
    ctx.encoded_plaintext_size.toNat + ctx.chunk_count.toNat * AEAD_TAG_LEN < 2 ^ 64
  start : ∀ i < ctx.chunk_count, i.toNat * ctx.chunk_plaintext_size.toNat < 2 ^ 64
  /-- The difference does not go below zero. -/
  remaining : ∀ i < ctx.chunk_count,
    i.toNat * ctx.chunk_plaintext_size.toNat ≤ ctx.encoded_plaintext_size.toNat
  /-- The smaller one of the two is cut to 32 bits. -/
  len : ∀ i < ctx.chunk_count, min (ctx.encoded_plaintext_size.toNat -
    i.toNat * ctx.chunk_plaintext_size.toNat) ctx.chunk_plaintext_size.toNat < 2 ^ 32
  chunk_ciphertext_len : ∀ i len, ctx.chunk_len i = some len → len.toNat + AEAD_TAG_LEN < 2 ^ 32
  stop : ∀ i len, ctx.chunk_len i = some len →
    i.toNat * ctx.chunk_plaintext_size.toNat + len.toNat < 2 ^ 64

section Layout

variable {ctx : ObjectContext} {i k : Nat}

theorem extent_pos (hg : ctx.Geometry) (hi : i < ctx.chunk_count.toNat) : 0 < ctx.extent i := by
  have hstart := hg.starts i hi
  have hsize := hg.size_pos
  unfold extent
  omega

theorem extent_le (ctx : ObjectContext) (i : Nat) : ctx.extent i ≤ ctx.chunk_plaintext_size.toNat :=
  Nat.min_le_left _ _

/-- Only the last chunk can be short. -/
theorem extent_of_next (hg : ctx.Geometry) (hi : i + 1 < ctx.chunk_count.toNat) :
    ctx.extent i = ctx.chunk_plaintext_size.toNat := by
  have hstart := hg.starts (i + 1) hi
  have hnext : ctx.start (i + 1) = ctx.start i + ctx.chunk_plaintext_size.toNat := Nat.succ_mul _ _
  unfold extent
  omega

theorem encoded_le (hg : ctx.Geometry) : ctx.encoded_plaintext_size.toNat ≤ 2 ^ 54 :=
  calc ctx.encoded_plaintext_size.toNat ≤ ctx.start ctx.chunk_count.toNat := hg.covers
    _ ≤ 2 ^ 32 * (4 * 1024 * 1024) := Nat.mul_le_mul hg.count_le hg.size_le
    _ = 2 ^ 54 := by decide

/-- A position of the file is in the chunk of its quotient. -/
theorem mem_chunk_iff (hg : ctx.Geometry) (hi : i < ctx.chunk_count.toNat) {pos : Nat} :
    ctx.start i ≤ pos ∧ pos < ctx.start i + ctx.extent i ↔
      pos < ctx.encoded_plaintext_size.toNat ∧ pos / ctx.chunk_plaintext_size.toNat = i := by
  have hstart := hg.starts i hi
  have hnext : ctx.start (i + 1) = ctx.start i + ctx.chunk_plaintext_size.toNat := Nat.succ_mul _ _
  have hdiv : pos / ctx.chunk_plaintext_size.toNat = i ↔
      ctx.start i ≤ pos ∧ pos ≤ ctx.start i + ctx.chunk_plaintext_size.toNat - 1 :=
    Nat.div_eq_iff hg.size_pos
  have hsize := hg.size_pos
  rw [hdiv, end_eq (Nat.le_of_lt hstart)]
  omega

theorem chunk_len_bounds (hg : ctx.Geometry) {index : UInt64} {len : UInt32}
    (h : ctx.chunk_len index = some len) : 1 ≤ len ∧ len ≤ ctx.chunk_plaintext_size ∧
      (index.toNat + 1 < ctx.chunk_count.toNat → len = ctx.chunk_plaintext_size) := by
  obtain ⟨hi, he⟩ := (chunk_len_eq_some hg).1 h
  rw [UInt32.le_iff_toNat_le, UInt32.le_iff_toNat_le, ← UInt32.toNat_inj, he]
  exact ⟨extent_pos hg (UInt64.lt_iff_toNat_lt.1 hi), extent_le ctx _, extent_of_next hg⟩

theorem lies_in_chunk_iff (hg : ctx.Geometry) {index : UInt64} {pos : Nat} :
    (∃ len, ctx.chunk_len index = some len ∧
      index.toNat * ctx.chunk_plaintext_size.toNat ≤ pos ∧
      pos < index.toNat * ctx.chunk_plaintext_size.toNat + len.toNat) ↔
    index < ctx.chunk_count ∧ pos < ctx.encoded_plaintext_size.toNat ∧
      pos / ctx.chunk_plaintext_size.toNat = index.toNat := by
  constructor
  · rintro ⟨len, hlen, hpos⟩
    obtain ⟨hi, he⟩ := (chunk_len_eq_some hg).1 hlen
    rw [he] at hpos
    exact ⟨hi, (mem_chunk_iff hg (UInt64.lt_iff_toNat_lt.1 hi)).1 hpos⟩
  · rintro ⟨hi, hpos⟩
    obtain ⟨len, hlen, he⟩ := chunk_len_spec hg hi
    refine ⟨len, hlen, ?_⟩
    rw [he]
    exact (mem_chunk_iff hg (UInt64.lt_iff_toNat_lt.1 hi)).2 hpos

/-- The chunks are a partition of the file. -/
theorem lt_size_iff (hg : ctx.Geometry) (pos : Nat) : pos < ctx.encoded_plaintext_size.toNat ↔
    ∃! index : UInt64, ∃ len, ctx.chunk_len index = some len ∧
      index.toNat * ctx.chunk_plaintext_size.toNat ≤ pos ∧
      pos < index.toNat * ctx.chunk_plaintext_size.toNat + len.toNat := by
  simp only [lies_in_chunk_iff hg]
  constructor
  · intro hpos
    have hlt : pos / ctx.chunk_plaintext_size.toNat < ctx.chunk_count.toNat :=
      (Nat.div_lt_iff_lt_mul hg.size_pos).2 (Nat.lt_of_lt_of_le hpos hg.covers)
    have h64 := toNat_index hlt
    refine ⟨.ofNat (pos / ctx.chunk_plaintext_size.toNat), ⟨?_, hpos, h64.symm⟩, ?_⟩
    · rwa [UInt64.lt_iff_toNat_lt, h64]
    · rintro index ⟨-, -, hindex⟩
      rw [hindex, UInt64.ofNat_toNat]
  · rintro ⟨index, ⟨-, hpos, -⟩, -⟩
    exact hpos

theorem sum_extent_range (hg : ctx.Geometry) (hk : k ≤ ctx.chunk_count.toNat) :
    ((List.range k).map ctx.extent).sum = min (ctx.start k) ctx.encoded_plaintext_size.toNat := by
  induction k with
  | zero => simp [start]
  | succ k ih =>
    have hstart := hg.starts k hk
    rw [List.range_succ, List.map_append, List.sum_append, ih (by omega), List.map_singleton,
      List.sum_singleton, Nat.min_eq_left (Nat.le_of_lt hstart), end_eq (Nat.le_of_lt hstart)]

/-- The length of a chunk, and zero past the last one. -/
def len (ctx : ObjectContext) (index : UInt64) : Nat := ((ctx.chunk_len index).getD 0).toNat

theorem len_eq (hg : ctx.Geometry) {index : UInt64} (hi : index < ctx.chunk_count) :
    ctx.len index = ctx.extent index.toNat := by
  obtain ⟨len, hlen, he⟩ := chunk_len_spec hg hi
  rw [ObjectContext.len, hlen, Option.getD_some, he]

/-- The chunks have the length of the file together. -/
theorem sum_len (hg : ctx.Geometry) :
    ((ChunkBitmap.chunks ctx.chunk_count).map ctx.len).sum = ctx.encoded_plaintext_size.toNat := by
  have hlen : (ChunkBitmap.chunks ctx.chunk_count).map ctx.len =
      (List.range ctx.chunk_count.toNat).map ctx.extent := by
    rw [ChunkBitmap.chunks, List.map_map]
    refine List.map_congr_left fun j hj => ?_
    have hj64 := ChunkBitmap.toNat_of_mem_range hj
    have hlt : UInt64.ofNat j < ctx.chunk_count := by
      rw [UInt64.lt_iff_toNat_lt, hj64]
      exact List.mem_range.1 hj
    rw [Function.comp_apply, len_eq hg hlt, hj64]
  rw [hlen, sum_extent_range hg (Nat.le_refl _), Nat.min_eq_right hg.covers]

theorem sum_chunk_ciphertext_len (hg : ctx.Geometry) :
    ((ChunkBitmap.chunks ctx.chunk_count).map fun i => (ctx.chunk_ciphertext_len i).getD 0).sum =
      ctx.encoded_plaintext_size.toNat + ctx.chunk_count.toNat * AEAD_TAG_LEN := by
  have hadd : ∀ i ∈ ChunkBitmap.chunks ctx.chunk_count,
      (ctx.chunk_ciphertext_len i).getD 0 = ctx.len i + AEAD_TAG_LEN := by
    intro i hi
    obtain ⟨len, hlen, -⟩ := chunk_len_spec hg (ChunkBitmap.mem_chunks.1 hi)
    simp only [chunk_ciphertext_len, ObjectContext.len, hlen, Option.map_some, Option.getD_some]
  rw [List.map_congr_left hadd, List.sum_map_add, sum_len hg, List.map_const',
    List.sum_replicate_nat, ChunkBitmap.length_chunks]

theorem in_range (hg : ctx.Geometry) : ctx.InRange := by
  have hsize := hg.size_le
  have hcount := hg.count_le
  have hencoded := encoded_le hg
  have hstart : ∀ i < ctx.chunk_count,
      i.toNat * ctx.chunk_plaintext_size.toNat < ctx.encoded_plaintext_size.toNat :=
    fun i hi => hg.starts i.toNat (UInt64.lt_iff_toNat_lt.1 hi)
  have hlen : ∀ i len, ctx.chunk_len i = some len → len.toNat ≤ ctx.chunk_plaintext_size.toNat := by
    intro i len h
    exact UInt32.le_iff_toNat_le.1 (chunk_len_bounds hg h).2.1
  have htag : AEAD_TAG_LEN = 16 := rfl
  constructor
  case chunk_count =>
    have hle := Nat.div_le_self ctx.logical_plaintext_size.toNat ctx.chunk_plaintext_size.toNat
    rw [hg.encoded_eq] at hencoded
    omega
  case chunk_ciphertext_size => omega
  case tags =>
    rw [htag]
    omega
  case ciphertext_size =>
    rw [htag]
    omega
  case start =>
    intro i hi
    have := hstart i hi
    omega
  case remaining => exact fun i hi => Nat.le_of_lt (hstart i hi)
  case len =>
    intro i _
    omega
  case chunk_ciphertext_len =>
    intro i len h
    have := hlen i len h
    omega
  case stop =>
    intro i len h
    have := hlen i len h
    have := hstart i ((chunk_len_eq_some hg).1 h).1
    omega

theorem toNat_ciphertext_size (hg : ctx.Geometry) : ctx.ciphertext_size.toNat =
    ctx.encoded_plaintext_size.toNat + ctx.chunk_count.toNat * AEAD_TAG_LEN := by
  have htags := (in_range hg).tags
  have hall := (in_range hg).ciphertext_size
  have htag : (UInt64.ofNat AEAD_TAG_LEN).toNat = AEAD_TAG_LEN := rfl
  unfold ciphertext_size
  by_cases hzero : ctx.chunk_count = 0
  · have hempty := hg.covers
    rw [hzero, UInt64.toNat_zero] at hempty ⊢
    rw [if_pos rfl, UInt64.toNat_zero]
    simp only [start] at hempty
    omega
  · rw [if_neg hzero, UInt64.toNat_add, UInt64.toNat_mul, htag, Nat.mod_eq_of_lt htags,
      Nat.mod_eq_of_lt hall]

end Layout

/-- For every file and chunk size that are accepted: a chunk has at least one byte
and at most the chunk size, and only the last one can have fewer than that; each
position of the file is in exactly one chunk and no other position is; the chunks
on the wire have the size that is announced; and no computation overflows. -/
theorem chunks_of_a_file_lie_side_by_side {transfer_id object_id : Arr 32} {file_size : UInt64}
    {chunk_size : UInt32} {ctx : ObjectContext}
    (h : for_file transfer_id object_id file_size chunk_size = some ctx) :
    (∀ index < ctx.chunk_count, ∃ len, ctx.chunk_len index = some len ∧ 1 ≤ len ∧
      len ≤ chunk_size ∧ (index.toNat + 1 < ctx.chunk_count.toNat → len = chunk_size)) ∧
    (∀ pos, pos < file_size.toNat ↔ ∃! index : UInt64, ∃ len, ctx.chunk_len index = some len ∧
      index.toNat * chunk_size.toNat ≤ pos ∧
      pos < index.toNat * chunk_size.toNat + len.toNat) ∧
    ((ChunkBitmap.chunks ctx.chunk_count).map fun i => (ctx.chunk_ciphertext_len i).getD 0).sum =
      ctx.ciphertext_size.toNat ∧
    ctx.InRange := by
  have hg := for_file_geometry h
  obtain ⟨-, -, hctx⟩ := for_file_eq_some.1 h
  have hfile : ctx.encoded_plaintext_size = file_size := by rw [← hctx]
  have hsize : ctx.chunk_plaintext_size = chunk_size := by rw [← hctx]
  rw [← hfile, ← hsize]
  refine ⟨?_, ?_, ?_, in_range hg⟩
  · intro index hi
    obtain ⟨len, hlen, -⟩ := chunk_len_spec hg hi
    exact ⟨len, hlen, chunk_len_bounds hg hlen⟩
  · exact fun pos => lt_size_iff hg pos
  · rw [sum_chunk_ciphertext_len hg, toNat_ciphertext_size hg]

/-- Two chunks, and the second one has a single byte. -/
theorem a_file_of_65537_bytes_is_two_chunks :
    ∃ ctx, for_file (.replicate 32 1) (.replicate 32 2) 65537 65536 = some ctx ∧
      ctx.chunk_count = 2 ∧ ctx.chunk_len 1 = some 1 ∧
      ((ChunkBitmap.chunks ctx.chunk_count).map fun i => (ctx.chunk_ciphertext_len i).getD 0).sum =
        65569 := by
  have hctx : for_file (.replicate 32 1) (.replicate 32 2) 65537 65536 =
      some ⟨.replicate 32 1, .replicate 32 2, 65537, 65537, 65536, 2, 0, 0⟩ := by
    decide
  obtain ⟨-, -, hsum, -⟩ := chunks_of_a_file_lie_side_by_side hctx
  exact ⟨_, hctx, rfl, by decide, hsum⟩

end ObjectContext

end rtp2_core.object
