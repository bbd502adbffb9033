-- The resume record as it is stored: a checksum, then a map with the identity
-- of the object and both bitmaps. The reader refuses a record above a limit
-- that the writer does not know, and every other record is read back.
import Reyta.CborExact
import Reyta.Crypto
import Reyta.Resume
import Reyta.RunLength

open byte_string crash_disk exact_parse

namespace rtp2_core.resume

open bitmap cbor crypto

def RECORD_VERSION : UInt64 := 1
def RECORD_DOMAIN : Bytes := ascii "RTP2-RESUME-RECORD-v1"
def MAX_RECORD_BYTES : Nat := 8 * 1024 * 1024

def from_cbor (_ : CborError) : ResumeError := .Corrupt

/-! ## The map -/

/-- The entries of the map. The provider of the last chunk is not stored. -/
structure Stored where
  identity : ObjectIdentity
  verified_rle : Bytes
  durable_rle : Bytes
  temporary_path : String
  last_activity : UInt64

namespace Stored

def encode (s : Stored) : Bytes :=
  MapWriter [(0, Writer.uint RECORD_VERSION), (1, Writer.bytes s.identity.transfer_id.bytes),
    (2, Writer.bytes s.identity.object_id.bytes),
    (3, Writer.bytes s.identity.manifest_commitment.bytes),
    (4, Writer.bytes s.identity.ciphertext_root.bytes), (5, Writer.uint s.identity.chunk_count),
    (6, Writer.uint s.identity.chunk_ciphertext_size),
    (7, Writer.uint s.identity.logical_plaintext_size), (8, Writer.bytes s.verified_rle),
    (9, Writer.bytes s.durable_rle), (10, Writer.text s.temporary_path),
    (11, Writer.uint s.last_activity)]

def read : Parse ResumeError Stored := do
  let m ← map_err from_cbor Reader.map
  let m ← map_err from_cbor (m.expect_key 0)
  let version ← map_err from_cbor Reader.uint
  fail_if (version ≠ RECORD_VERSION) .VersionMismatch
  let m ← map_err from_cbor (m.expect_key 1)
  let transfer_id ← map_err from_cbor (Reader.bytes_exact 32)
  let m ← map_err from_cbor (m.expect_key 2)
  let object_id ← map_err from_cbor (Reader.bytes_exact 32)
  let m ← map_err from_cbor (m.expect_key 3)
  let manifest_commitment ← map_err from_cbor (Reader.bytes_exact 32)
  let m ← map_err from_cbor (m.expect_key 4)
  let ciphertext_root ← map_err from_cbor (Reader.bytes_exact 32)
  let m ← map_err from_cbor (m.expect_key 5)
  let chunk_count ← map_err from_cbor Reader.uint
  let m ← map_err from_cbor (m.expect_key 6)
  let chunk_ciphertext_size ← map_err from_cbor Reader.uint
  let m ← map_err from_cbor (m.expect_key 7)
  let logical_plaintext_size ← map_err from_cbor Reader.uint
  let m ← map_err from_cbor (m.expect_key 8)
  let verified_rle ← map_err from_cbor Reader.bytes
  let m ← map_err from_cbor (m.expect_key 9)
  let durable_rle ← map_err from_cbor Reader.bytes
  let m ← map_err from_cbor (m.expect_key 10)
  let temporary_path ← map_err from_cbor Reader.text
  let m ← map_err from_cbor (m.expect_key 11)
  let last_activity ← map_err from_cbor Reader.uint
  m.expect_end from_cbor .Corrupt
  pure ⟨⟨transfer_id, object_id, manifest_commitment, ciphertext_root, chunk_count,
    chunk_ciphertext_size, logical_plaintext_size⟩, verified_rle, durable_rle, temporary_path,
    last_activity⟩

/-- Every length can be written. -/
structure Fits (s : Stored) : Prop where
  verified : s.verified_rle.length < 2 ^ 64
  durable : s.durable_rle.length < 2 ^ 64
  path : (Writer.as_bytes s.temporary_path).length < 2 ^ 64

theorem read.reads : Reads read (fun d s => d < MAX_DEPTH ∧ s.Fits) encode (fun d _ => d) := by
  unfold read
  refine Reads.congr (MapBody.start (fun _ : Stored => 12) (fun _ => by decide)
    fun m hm => MapBody.key (by simp [hm])
    fun m hm => MapBody.value (fun _ : Stored => RECORD_VERSION)
      (Reader.uint.reads.map_err _) (fun _ => MapBody.value (fun _ => ())
      (Reads.check _ _) (fun _ => MapBody.key (by simp [hm])
    fun m hm => MapBody.value (fun s : Stored => s.identity.transfer_id)
      ((Reader.bytes_exact.reads (by decide)).map_err _) (fun _ => MapBody.key (by simp [hm])
    fun m hm => MapBody.value (fun s : Stored => s.identity.object_id)
      ((Reader.bytes_exact.reads (by decide)).map_err _) (fun _ => MapBody.key (by simp [hm])
    fun m hm => MapBody.value (fun s : Stored => s.identity.manifest_commitment)
      ((Reader.bytes_exact.reads (by decide)).map_err _) (fun _ => MapBody.key (by simp [hm])
    fun m hm => MapBody.value (fun s : Stored => s.identity.ciphertext_root)
      ((Reader.bytes_exact.reads (by decide)).map_err _) (fun _ => MapBody.key (by simp [hm])
    fun m hm => MapBody.value (fun s : Stored => s.identity.chunk_count)
      (Reader.uint.reads.map_err _) (fun _ => MapBody.key (by simp [hm])
    fun m hm => MapBody.value (fun s : Stored => s.identity.chunk_ciphertext_size)
      (Reader.uint.reads.map_err _) (fun _ => MapBody.key (by simp [hm])
    fun m hm => MapBody.value (fun s : Stored => s.identity.logical_plaintext_size)
      (Reader.uint.reads.map_err _) (fun _ => MapBody.key (by simp [hm])
    fun m hm => MapBody.value Stored.verified_rle
      (Reader.bytes.reads.map_err _) (fun _ => MapBody.key (by simp [hm])
    fun m hm => MapBody.value Stored.durable_rle
      (Reader.bytes.reads.map_err _) (fun _ => MapBody.key (by simp [hm])
    fun m hm => MapBody.value Stored.temporary_path
      (Reader.text.reads.map_err _) (fun _ => MapBody.key (by simp [hm])
    fun m hm => MapBody.value Stored.last_activity
      (Reader.uint.reads.map_err _) (fun _ => MapBody.stop _ (Reads.pure _))
      ?_) ?_) ?_) ?_) ?_) ?_) ?_) ?_) ?_) ?_) ?_) ?_) ?version) ?admits ?writes ?depth
  case admits =>
    rintro d ⟨⟨tid, oid, commitment, root, count, size, plain⟩, verified, durable, path, activity⟩
    constructor
    · intro h
      obtain ⟨hd, -, -, -, -, -, -, -, -, -, hv, hdur, hp, -⟩ := h
      exact ⟨hd, hv, hdur, hp⟩
    · rintro ⟨hd, hv, hdur, hp⟩
      exact ⟨hd, trivial, not_not.2 rfl, trivial, trivial, trivial, trivial, trivial, trivial,
        trivial, hv, hdur, hp, trivial, rfl⟩
  case writes =>
    intro d s _
    simp [encode, MapWriter]
  case depth =>
    intro d s _
    rfl
  case version =>
    rintro d v s - ⟨hv, -⟩
    exact (not_not.1 hv).symm
  all_goals grind

theorem le_length_encode (s : Stored) :
    s.verified_rle.length + s.durable_rle.length + (Writer.as_bytes s.temporary_path).length ≤
      s.encode.length := by
  have hsum : _ ≤ s.encode.length := sum_le_length_mapWriter _
  have hverified := length_le_bytes s.verified_rle
  have hdurable := length_le_bytes s.durable_rle
  have hpath := length_le_text s.temporary_path
  simp only [List.map_cons, List.map_nil, List.sum_cons, List.sum_nil] at hsum
  omega

def restore (s : Stored) : Except ResumeError ResumeRecord :=
  match hv : ChunkBitmap.decode_rle s.identity.chunk_count s.verified_rle with
  | .error _ => .error .Corrupt
  | .ok verified =>
    match hd : ChunkBitmap.decode_rle s.identity.chunk_count s.durable_rle with
    | .error _ => .error .Corrupt
    | .ok durable =>
      .ok { identity := s.identity, verified, durable, temporary_path := s.temporary_path
            last_provider := [], last_activity := s.last_activity
            verified_count := ChunkBitmap.decode_rle_count hv
            durable_count := ChunkBitmap.decode_rle_count hd }

end Stored

/-! ## The record -/

namespace ResumeRecord

def stored (r : ResumeRecord) : Stored :=
  ⟨r.identity, r.verified.encode_rle, r.durable.encode_rle, r.temporary_path, r.last_activity⟩

variable (P : Primitives)

/-- The domain goes into the checksum. -/
def checksum (body : Bytes) : Arr 32 := P.blake3 (RECORD_DOMAIN ++ body)

def encode (r : ResumeRecord) : Bytes := (checksum P r.stored.encode).bytes ++ r.stored.encode

def decode (bytes : Bytes) : Except ResumeError ResumeRecord :=
  if bytes.length < 32 ∨ bytes.length > MAX_RECORD_BYTES then .error .Corrupt
  else if !ct_eq (bytes.take 32) (checksum P (bytes.drop 32)).bytes then .error .Corrupt
  else do
    let s ← Reader.read_all from_cbor Stored.read (Reader.new_unbounded (bytes.drop 32))
    s.restore

theorem restore_stored (r : ResumeRecord) :
    r.stored.restore = .ok { r with last_provider := [] } := by
  have hverified : ChunkBitmap.decode_rle r.stored.identity.chunk_count r.stored.verified_rle =
      .ok r.verified := by
    change ChunkBitmap.decode_rle r.identity.chunk_count _ = _
    rw [← r.verified_count]
    exact r.verified.decode_rle_encode_rle
  have hdurable : ChunkBitmap.decode_rle r.stored.identity.chunk_count r.stored.durable_rle =
      .ok r.durable := by
    change ChunkBitmap.decode_rle r.identity.chunk_count _ = _
    rw [← r.durable_count]
    exact r.durable.decode_rle_encode_rle
  unfold Stored.restore
  split
  · next h => cases hverified.symm.trans h
  · next verified h =>
    cases hverified.symm.trans h
    split
    · next h' => cases hdurable.symm.trans h'
    · next durable h' =>
      cases hdurable.symm.trans h'
      rfl

theorem length_encode (r : ResumeRecord) :
    (r.encode P).length = 32 + r.stored.encode.length := by
  simp [encode]

theorem stored_fits {r : ResumeRecord} (h : (r.encode P).length ≤ MAX_RECORD_BYTES) :
    r.stored.Fits := by
  have hparts := r.stored.le_length_encode
  have hmax : MAX_RECORD_BYTES < 2 ^ 64 := by decide
  rw [length_encode] at h
  exact ⟨by omega, by omega, by omega⟩

/-- A bound on the record of an object of few chunks. -/
theorem length_encode_le (r : ResumeRecord) : (r.encode P).length ≤
    2 * r.identity.chunk_count.toNat + (Writer.as_bytes r.temporary_path).length + 387 := by
  have hverified := r.verified.length_encode_rle_le
  have hdurable := r.durable.length_encode_rle_le
  rw [r.verified_count] at hverified
  rw [r.durable_count] at hdurable
  have hmap : r.stored.encode.length ≤ _ := length_mapWriter_le_of (.cons (length_uint_le _)
    (.cons (length_bytes_le _) (.cons (length_bytes_le _) (.cons (length_bytes_le _)
    (.cons (length_bytes_le _) (.cons (length_uint_le _) (.cons (length_uint_le _)
    (.cons (length_uint_le _) (.cons (length_bytes_le _) (.cons (length_bytes_le _)
    (.cons (length_text_le _) (.cons (length_uint_le _) .nil))))))))))))
  simp only [Arr.length_bytes, List.map_cons, List.map_nil, List.sum_cons, List.sum_nil] at hmap
  rw [length_encode]
  simp only [stored] at hmap ⊢
  omega

/-- A record is read back, without the provider, or it is above the limit and
counts as corrupt. -/
theorem decode_encode (r : ResumeRecord) : decode P (r.encode P) =
    if (r.encode P).length ≤ MAX_RECORD_BYTES then .ok { r with last_provider := [] }
    else .error .Corrupt := by
  unfold decode
  by_cases hfits : (r.encode P).length ≤ MAX_RECORD_BYTES
  · have hlen := r.length_encode P
    have htake : (r.encode P).take 32 = (checksum P r.stored.encode).bytes := by
      rw [encode, List.take_left' (Arr.length_bytes _)]
    have hdrop : (r.encode P).drop 32 = r.stored.encode := by
      rw [encode, List.drop_left' (Arr.length_bytes _)]
    have hread : Reader.read_all from_cbor Stored.read (Reader.new_unbounded r.stored.encode) =
        .ok r.stored :=
      (Reader.read_all_eq_ok Stored.read.reads).2 ⟨⟨by decide, stored_fits P hfits⟩, rfl⟩
    rw [if_neg (by omega), htake, hdrop, ct_eq_iff.2 rfl, hread, if_pos hfits]
    exact r.restore_stored
  · rw [if_pos (.inr (Nat.not_le.1 hfits)), if_neg hfits]

end ResumeRecord

end rtp2_core.resume
