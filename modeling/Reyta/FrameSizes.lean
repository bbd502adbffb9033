-- The frames of a transfer against the limits on frames. The longest record is
-- a chunk of 4 MiB with a proof of 32 steps, and the longest request has 1024
-- ranges. Both fit with the tag of the control channel.
import Reyta.Framing
import Reyta.Scheduler

open byte_string

namespace rtp2_core.transfer

open bitmap cbor crypto merkle object scheduler

def FRAME_RANGE_REQUEST : UInt8 := 0x05

/-! ## Lengths -/

theorem length_encode_chunk_record_le (index : UInt64) (proof : List ProofStep)
    (ciphertext : Bytes) :
    (encode_chunk_record index proof ciphertext).length ≤
      100 + 36 * proof.length + ciphertext.length := by
  have hproof : (Writer.array (.ofNat proof.length) ++
      proof.flatMap encode_proof_step).length ≤ 9 + 36 * proof.length := by
    rw [List.length_append]
    exact Nat.add_le_add (length_header_le _ _)
      (length_flatMap_le fun step _ => Nat.le_of_eq (length_encode_proof_step step))
  have hmap : (encode_chunk_record index proof ciphertext).length ≤ _ :=
    length_mapWriter_le_of (.cons (length_uint_le _) (.cons hproof
      (.cons (length_bytes_le _) .nil)))
  simp only [List.map_cons, List.map_nil, List.sum_cons, List.sum_nil] at hmap
  omega

theorem chunk_ciphertext_len_le {ctx : ObjectContext} (hg : ctx.Geometry) {index : UInt64}
    {len : Nat} (h : ctx.chunk_ciphertext_len index = some len) : len ≤ 4 * 1024 * 1024 + 16 := by
  obtain ⟨n, hn, rfl⟩ := Option.map_eq_some_iff.1 h
  have hext := ((ObjectContext.chunk_len_eq_some hg).1 hn).2
  have hle : ctx.extent index.toNat ≤ ctx.chunk_plaintext_size.toNat := Nat.min_le_left _ _
  have hsize := hg.size_le
  unfold AEAD_TAG_LEN
  omega

theorem length_build_proof_le (P : Primitives) {ctx : ObjectContext} (hg : ctx.Geometry)
    {leaves : List (Arr 32)} (hleaves : leaves.length = ctx.chunk_count.toNat) {index : Nat}
    {proof : List ProofStep} (h : build_proof P leaves index = .ok proof) : proof.length ≤ 32 := by
  unfold build_proof at h
  split_ifs at h
  obtain rfl := Except.ok.inj h
  apply length_build_proof_inner_le
  rw [hleaves]
  exact hg.count_le

theorem length_full_request_le (scheduler : Scheduler) (held : ChunkBitmap) :
    (scheduler.full_request held).encode.length + 16 ≤ MAX_CONTROL_BODY := by
  have hfew := scheduler.length_ranges_le held
  have hlen := RangeRequest.length_encode_le_of_ranges (scheduler.full_request held)
  unfold MAX_RANGES_PER_REQUEST at hfew
  unfold MAX_CONTROL_BODY
  omega

/-! ## Limits -/

theorem header_bytes_accepts {body_len : Nat} (frame_type frame_flags : UInt8)
    (request_id : UInt64) (h : body_len ≤ body_limit frame_type) :
    ∃ head, header_bytes frame_type frame_flags request_id body_len 16 = .ok head := by
  refine ⟨_, header_bytes_eq_ok.2 ⟨?_, rfl⟩⟩
  have hlimit : body_limit frame_type ≤ MAX_DATA_BODY := by
    unfold body_limit
    split_ifs <;> decide
  unfold MAX_DATA_BODY at hlimit
  unfold MAX_FRAME
  omega

/-- The record of every chunk of an accepted object, with the proof that is
built for it and with the tag, keeps the limit on data and gets a header. The
request for what a bitmap of the object misses keeps the limit on control. -/
theorem the_frames_of_a_transfer_keep_the_limits (P : Primitives) {transfer_id object_id : Arr 32}
    {file_size : UInt64} {size : UInt32} (ctx : ObjectContext)
    (hctx : ObjectContext.for_file transfer_id object_id file_size size = some ctx) :
    (∀ (index : UInt64) (leaves : List (Arr 32)) (proof : List ProofStep) (ciphertext : Bytes),
      index < ctx.chunk_count → leaves.length = ctx.chunk_count.toNat →
      build_proof P leaves index.toNat = .ok proof →
      ctx.chunk_ciphertext_len index = some ciphertext.length →
      (encode_chunk_record index proof ciphertext).length + 16 ≤ MAX_DATA_BODY ∧
        ∀ frame_flags request_id, ∃ head, header_bytes FRAME_CHUNK frame_flags request_id
          ((encode_chunk_record index proof ciphertext).length + 16) 16 = .ok head) ∧
    ∀ (scheduler : Scheduler) (held : ChunkBitmap), held.chunk_count = ctx.chunk_count →
      (scheduler.full_request held).encode.length + 16 ≤ MAX_CONTROL_BODY ∧
        ∀ frame_flags request_id, ∃ head, header_bytes FRAME_RANGE_REQUEST frame_flags request_id
          ((scheduler.full_request held).encode.length + 16) 16 = .ok head := by
  have hg := ObjectContext.for_file_geometry hctx
  constructor
  · intro index leaves proof ciphertext _ hleaves hproof hcipher
    have hle : (encode_chunk_record index proof ciphertext).length + 16 ≤ MAX_DATA_BODY := by
      have hrecord := length_encode_chunk_record_le index proof ciphertext
      have hdepth := length_build_proof_le P hg hleaves hproof
      have hlen := chunk_ciphertext_len_le hg hcipher
      unfold MAX_DATA_BODY
      omega
    exact ⟨hle, fun flags id => header_bytes_accepts FRAME_CHUNK flags id hle⟩
  · intro scheduler held _
    have hle := length_full_request_le scheduler held
    exact ⟨hle, fun flags id => header_bytes_accepts FRAME_RANGE_REQUEST flags id hle⟩

/-- The first of three chunks, and the request for what is missing beside the second. -/
theorem the_frames_of_three_chunks_keep_the_limits :
    let request :=
      (Scheduler.new (.replicate 32 1) (.replicate 32 2) 3 65552).full_request secondHeld
    ∃ proof : List ProofStep,
      build_proof sample [.replicate 32 1, .replicate 32 2, .replicate 32 3] 0 = .ok proof ∧
      proof.length = 2 ∧ request.ranges.length = 2 ∧
      (encode_chunk_record 0 proof (List.replicate 65552 0)).length + 16 ≤ MAX_DATA_BODY ∧
      request.encode.length + 16 ≤ MAX_CONTROL_BODY := by
  intro request
  obtain ⟨hrecord, hrequest⟩ :=
    the_frames_of_a_transfer_keep_the_limits sample threeChunks threeChunks_for_file
  have hproof : ∃ proof : List ProofStep,
      build_proof sample [.replicate 32 1, .replicate 32 2, .replicate 32 3] 0 = .ok proof ∧
      proof.length = 2 := ⟨_, rfl, by decide +kernel⟩
  obtain ⟨proof, hbuild, hlen⟩ := hproof
  have hcipher : threeChunks.chunk_ciphertext_len 0 =
      some (List.replicate 65552 (0 : UInt8)).length := by
    rw [List.length_replicate]
    decide +kernel
  exact ⟨proof, hbuild, hlen, by decide +kernel,
    (hrecord 0 _ proof _ (by decide) (by decide) hbuild hcipher).1,
    (hrequest _ secondHeld rfl).1⟩

end rtp2_core.transfer
