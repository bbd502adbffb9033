-- The file key schedule, the geometry of an object and the encryption of its
-- chunks. A chunk is sealed under a key and a nonce that its index fixes.
import Reyta.Cbor
import Reyta.Crypto

open byte_string

namespace rtp2_core.keys

open crypto

def CHUNK_NONCE_CONTEXT : String := "Reyta RTP2 2026-08-01 chunk nonce v1"

structure FileSecrets where
  transfer_id : Arr 32
  object_id : Arr 32
  file_master_key : Arr 32
  file_nonce_seed : Arr 32

structure FileKeySchedule where
  transfer_id : Arr 32
  object_id : Arr 32
  file_nonce_seed : Arr 32
  manifest_key : Arr 32
  chunk_key_base : Arr 48

variable (P : Primitives)

def FileSecrets.key_schedule (s : FileSecrets) : FileKeySchedule :=
  let salt := P.sha384 (ascii "RTP2-FILE-SALT-v1" ++ s.transfer_id.bytes ++ s.object_id.bytes)
  let file_prk := P.hkdf_extract salt.bytes s.file_master_key.bytes
  { transfer_id := s.transfer_id
    object_id := s.object_id
    file_nonce_seed := s.file_nonce_seed
    manifest_key := P.hkdf_expand 32 file_prk (ascii "RTP2 private manifest key v1")
    chunk_key_base := P.hkdf_expand 48 file_prk (ascii "RTP2 chunk key base v1") }

namespace FileKeySchedule

def chunk_key (s : FileKeySchedule) (index : UInt64) : Arr 32 :=
  P.hkdf_expand 32 s.chunk_key_base
    (ascii "RTP2-CHUNK-KEY-v1" ++ s.object_id.bytes ++ be_bytes 8 index.toNat)

def chunk_nonce (s : FileKeySchedule) (index : UInt64) : Arr 24 :=
  let derived := P.blake3_derive_key CHUNK_NONCE_CONTEXT
    (s.file_nonce_seed.bytes ++ s.transfer_id.bytes ++ s.object_id.bytes ++ be_bytes 8 index.toNat)
  ⟨derived.bytes.take 24, by simp⟩

end FileKeySchedule

end rtp2_core.keys

namespace rtp2_core.object

open cbor crypto keys

def ALLOWED_CHUNK_SIZES : List UInt32 :=
  [64 * 1024, 128 * 1024, 256 * 1024, 512 * 1024, 1024 * 1024, 2 * 1024 * 1024, 4 * 1024 * 1024]

def AEAD_TAG_LEN : Nat := 16
def MAX_CHUNK_COUNT : UInt64 := 0x100000000
def PADDING_NONE : UInt8 := 0
def ROLE_PRIMARY : UInt8 := 0

structure ObjectContext where
  transfer_id : Arr 32
  object_id : Arr 32
  logical_plaintext_size : UInt64
  encoded_plaintext_size : UInt64
  chunk_plaintext_size : UInt32
  chunk_count : UInt64
  padding_policy : UInt8
  object_role : UInt8
  deriving DecidableEq

/-- `u64::div_ceil`. -/
def div_ceil (a b : UInt64) : UInt64 := if a % b > 0 then a / b + 1 else a / b

variable (P : Primitives)

namespace ObjectContext

def for_file (transfer_id object_id : Arr 32) (file_size : UInt64) (chunk_size : UInt32) :
    Option ObjectContext :=
  if chunk_size ∉ ALLOWED_CHUNK_SIZES then none
  else
    let chunk_count := if file_size = 0 then 0 else div_ceil file_size chunk_size.toUInt64
    if chunk_count > MAX_CHUNK_COUNT then none
    else some ⟨transfer_id, object_id, file_size, file_size, chunk_size, chunk_count,
      PADDING_NONE, ROLE_PRIMARY⟩

def encode (ctx : ObjectContext) : Bytes :=
  MapWriter [(0, Writer.uint PROTOCOL_MAJOR.toUInt64), (1, Writer.uint SUITE_ID.toUInt64),
    (2, Writer.bytes ctx.transfer_id.bytes), (3, Writer.bytes ctx.object_id.bytes),
    (4, Writer.uint ctx.logical_plaintext_size), (5, Writer.uint ctx.encoded_plaintext_size),
    (6, Writer.uint ctx.chunk_plaintext_size.toUInt64), (7, Writer.uint ctx.chunk_count),
    (8, Writer.uint ctx.padding_policy.toUInt64), (9, Writer.uint ctx.object_role.toUInt64)]

def context_hash (ctx : ObjectContext) : Arr 32 :=
  P.blake3 (ascii "RTP2-OBJECT-CONTEXT-v1" ++ ctx.encode)

/-- Bytes on the wire for a whole chunk. -/
def chunk_ciphertext_size (ctx : ObjectContext) : UInt64 :=
  ctx.chunk_plaintext_size.toUInt64 + .ofNat AEAD_TAG_LEN

/-- Bytes on the wire for the whole object. -/
def ciphertext_size (ctx : ObjectContext) : UInt64 :=
  if ctx.chunk_count = 0 then 0
  else ctx.encoded_plaintext_size + ctx.chunk_count * .ofNat AEAD_TAG_LEN

/-- The inverse of `chunk_ciphertext_size`. -/
def chunk_plaintext_size_from_ciphertext (ciphertext : UInt64) : Option UInt32 :=
  if ciphertext < .ofNat AEAD_TAG_LEN then none
  else if ciphertext - .ofNat AEAD_TAG_LEN > 0xffffffff then none
  else some (ciphertext - .ofNat AEAD_TAG_LEN).toUInt32

/-- The plaintext length of a chunk. The arithmetic wraps, as in release. -/
def chunk_len (ctx : ObjectContext) (index : UInt64) : Option UInt32 :=
  if index ≥ ctx.chunk_count then none
  else
    let start := index * ctx.chunk_plaintext_size.toUInt64
    let remaining := ctx.encoded_plaintext_size - start
    some (min remaining ctx.chunk_plaintext_size.toUInt64).toUInt32

def chunk_ciphertext_len (ctx : ObjectContext) (index : UInt64) : Option Nat :=
  (ctx.chunk_len index).map fun len => len.toNat + AEAD_TAG_LEN

/-! ## Geometry -/

/-- Where a chunk starts in the object. -/
def start (ctx : ObjectContext) (i : Nat) : Nat := i * ctx.chunk_plaintext_size.toNat

/-- How much of the object is in a chunk. -/
def extent (ctx : ObjectContext) (i : Nat) : Nat :=
  min ctx.chunk_plaintext_size.toNat (ctx.encoded_plaintext_size.toNat - ctx.start i)

/-- The geometry of an accepted context, over the natural numbers: every chunk
starts inside the object and the chunks cover it. -/
structure Geometry (ctx : ObjectContext) : Prop where
  size_pos : 0 < ctx.chunk_plaintext_size.toNat
  size_le : ctx.chunk_plaintext_size.toNat ≤ 4 * 1024 * 1024
  count_le : ctx.chunk_count.toNat ≤ 2 ^ 32
  encoded_eq : ctx.encoded_plaintext_size = ctx.logical_plaintext_size
  starts : ∀ i < ctx.chunk_count.toNat, ctx.start i < ctx.encoded_plaintext_size.toNat
  covers : ctx.encoded_plaintext_size.toNat ≤ ctx.start ctx.chunk_count.toNat

theorem allowed_chunk_size {size : UInt32} (h : size ∈ ALLOWED_CHUNK_SIZES) :
    1 < size.toNat ∧ size.toNat ≤ 4 * 1024 * 1024 := by
  have hall : (ALLOWED_CHUNK_SIZES.all fun s =>
      decide (1 < s.toNat ∧ s.toNat ≤ 4 * 1024 * 1024)) = true := by decide
  exact of_decide_eq_true (List.all_eq_true.1 hall size h)

theorem div_ceil_spec {a b : UInt64} (hb : 1 < b.toNat) :
    (∀ i < (div_ceil a b).toNat, i * b.toNat < a.toNat) ∧
      a.toNat ≤ (div_ceil a b).toNat * b.toNat := by
  have hdiv := Nat.div_add_mod a.toNat b.toNat
  have hmod := Nat.mod_lt a.toNat (by omega : 0 < b.toNat)
  have hlt : a.toNat / b.toNat < 2 ^ 63 := by
    rw [Nat.div_lt_iff_lt_mul (by omega)]
    have := a.toNat_lt
    omega
  rw [Nat.mul_comm] at hdiv
  have below : ∀ i < a.toNat / b.toNat, i * b.toNat < a.toNat := by
    intro i hi
    have := Nat.mul_le_mul_right b.toNat (Nat.succ_le_of_lt hi)
    rw [Nat.succ_mul] at this
    omega
  unfold div_ceil
  split_ifs with h
  · have hpos : 0 < a.toNat % b.toNat := by simpa [UInt64.lt_iff_toNat_lt] using h
    rw [UInt64.toNat_add, UInt64.toNat_div]
    simp only [UInt64.reduceToNat]
    rw [Nat.mod_eq_of_lt (by omega), Nat.add_mul]
    refine ⟨fun i hi => ?_, by omega⟩
    by_cases hlast : i = a.toNat / b.toNat
    · rw [hlast]
      omega
    · exact below i (by omega)
  · have hzero : a.toNat % b.toNat = 0 := by simpa [UInt64.lt_iff_toNat_lt] using h
    rw [UInt64.toNat_div]
    exact ⟨below, by omega⟩

theorem for_file_eq_some {transfer_id object_id : Arr 32} {file_size : UInt64} {size : UInt32}
    {ctx : ObjectContext} : for_file transfer_id object_id file_size size = some ctx ↔
      size ∈ ALLOWED_CHUNK_SIZES ∧ div_ceil file_size size.toUInt64 ≤ MAX_CHUNK_COUNT ∧
      ⟨transfer_id, object_id, file_size, file_size, size, div_ceil file_size size.toUInt64,
        PADDING_NONE, ROLE_PRIMARY⟩ = ctx := by
  have hcount : (if file_size = 0 then 0 else div_ceil file_size size.toUInt64) =
      div_ceil file_size size.toUInt64 := by
    split_ifs with h
    · simp [h, div_ceil]
    · rfl
  unfold for_file
  simp only [hcount, gt_iff_lt, ← UInt64.not_le]
  by_cases hsize : size ∈ ALLOWED_CHUNK_SIZES <;>
    by_cases hle : div_ceil file_size size.toUInt64 ≤ MAX_CHUNK_COUNT <;> simp [hsize, hle]

theorem for_file_geometry {transfer_id object_id : Arr 32} {file_size : UInt64} {size : UInt32}
    {ctx : ObjectContext} (h : for_file transfer_id object_id file_size size = some ctx) :
    ctx.Geometry := by
  obtain ⟨hsize, hcount, rfl⟩ := for_file_eq_some.1 h
  obtain ⟨hlow, hhigh⟩ := allowed_chunk_size hsize
  obtain ⟨hstarts, hcovers⟩ := div_ceil_spec (a := file_size) (b := size.toUInt64)
    (by rw [UInt32.toNat_toUInt64]; exact hlow)
  rw [UInt32.toNat_toUInt64] at hstarts hcovers
  exact ⟨Nat.zero_lt_of_lt hlow, hhigh, UInt64.le_iff_toNat_le.1 hcount, rfl, hstarts, hcovers⟩

/-- A chunk number is an index. -/
theorem toNat_index {ctx : ObjectContext} {n : Nat} (h : n < ctx.chunk_count.toNat) :
    (UInt64.ofNat n).toNat = n :=
  UInt64.toNat_ofNat_of_lt' (Nat.lt_trans h ctx.chunk_count.toNat_lt)

theorem start_toNat {ctx : ObjectContext} (h : ctx.Geometry) {index : UInt64}
    (hi : index < ctx.chunk_count) :
    (index * ctx.chunk_plaintext_size.toUInt64).toNat = ctx.start index.toNat := by
  have hstart := h.starts index.toNat (UInt64.lt_iff_toNat_lt.1 hi)
  have hlt := ctx.encoded_plaintext_size.toNat_lt
  unfold start at hstart ⊢
  rw [UInt64.toNat_mul, UInt32.toNat_toUInt64, Nat.mod_eq_of_lt (by omega)]

theorem chunk_len_spec {ctx : ObjectContext} (h : ctx.Geometry) {index : UInt64}
    (hi : index < ctx.chunk_count) :
    ∃ len, ctx.chunk_len index = some len ∧ len.toNat = ctx.extent index.toNat := by
  have hstart := h.starts index.toNat (UInt64.lt_iff_toNat_lt.1 hi)
  have hsub : (ctx.encoded_plaintext_size - index * ctx.chunk_plaintext_size.toUInt64).toNat =
      ctx.encoded_plaintext_size.toNat - ctx.start index.toNat := by
    rw [UInt64.toNat_sub_of_le, start_toNat h hi]
    rw [UInt64.le_iff_toNat_le, start_toNat h hi]
    omega
  have hmin : (min (ctx.encoded_plaintext_size - index * ctx.chunk_plaintext_size.toUInt64)
      ctx.chunk_plaintext_size.toUInt64).toNat = ctx.extent index.toNat := by
    rw [UInt64.toNat_min, hsub, UInt32.toNat_toUInt64, Nat.min_comm, extent]
  have hsize := ctx.chunk_plaintext_size.toNat_lt
  have hle : ctx.extent index.toNat ≤ ctx.chunk_plaintext_size.toNat := Nat.min_le_left _ _
  have hlen : ctx.chunk_len index = some (min (ctx.encoded_plaintext_size -
      index * ctx.chunk_plaintext_size.toUInt64) ctx.chunk_plaintext_size.toUInt64).toUInt32 := by
    simp [chunk_len, UInt64.not_le.2 hi]
  refine ⟨_, hlen, ?_⟩
  rw [UInt64.toNat_toUInt32, hmin, Nat.mod_eq_of_lt (by omega)]

theorem chunk_len_eq_some {ctx : ObjectContext} (h : ctx.Geometry) {index : UInt64} {len : UInt32} :
    ctx.chunk_len index = some len ↔
      index < ctx.chunk_count ∧ len.toNat = ctx.extent index.toNat := by
  by_cases hi : index < ctx.chunk_count
  · obtain ⟨l, hl, he⟩ := chunk_len_spec h hi
    rw [hl, ← he]
    simp [hi, eq_comm, UInt32.toNat_inj]
  · simp [chunk_len, hi, UInt64.not_lt.1 hi]

section Extent

variable {ctx : ObjectContext} {i j : Nat}

/-- A chunk ends before the next one starts. -/
theorem end_le_start (h : i < j) : ctx.start i + ctx.extent i ≤ ctx.start j := by
  have hle : ctx.extent i ≤ ctx.chunk_plaintext_size.toNat := Nat.min_le_left _ _
  have hmul := Nat.mul_le_mul_right ctx.chunk_plaintext_size.toNat (Nat.succ_le_of_lt h)
  rw [Nat.succ_mul] at hmul
  unfold start
  omega

theorem end_eq (h : ctx.start i ≤ ctx.encoded_plaintext_size.toNat) :
    ctx.start i + ctx.extent i = min (ctx.start (i + 1)) ctx.encoded_plaintext_size.toNat := by
  have hs : ctx.start (i + 1) = ctx.start i + ctx.chunk_plaintext_size.toNat := Nat.succ_mul _ _
  unfold extent
  omega

variable (hg : ctx.Geometry) (hi : i < ctx.chunk_count.toNat)
include hg hi

theorem end_le_encoded : ctx.start i + ctx.extent i ≤ ctx.encoded_plaintext_size.toNat := by
  have hstart := hg.starts i hi
  unfold extent
  omega

end Extent

end ObjectContext

def chunk_aad (ctx : ObjectContext) (object_context_hash : Arr 32)
    (chunk_index plaintext_offset : UInt64) (actual_plaintext_len chunk_flags : UInt32) : Bytes :=
  ascii "RTP2CHNK" ++ be_bytes 2 PROTOCOL_MAJOR.toNat ++ be_bytes 2 SUITE_ID.toNat ++
    ctx.transfer_id.bytes ++ ctx.object_id.bytes ++ object_context_hash.bytes ++
    be_bytes 8 chunk_index.toNat ++ be_bytes 8 plaintext_offset.toNat ++
    be_bytes 4 actual_plaintext_len.toNat ++ be_bytes 4 chunk_flags.toNat

def encrypt_chunk (schedule : FileKeySchedule) (ctx : ObjectContext)
    (object_context_hash : Arr 32) (index : UInt64) (plaintext : Bytes) : Option Bytes := do
  let expected ← ctx.chunk_len index
  guard (plaintext.length = expected.toNat)
  let key := schedule.chunk_key P index
  let nonce := schedule.chunk_nonce P index
  let aad := chunk_aad ctx object_context_hash index
    (index * ctx.chunk_plaintext_size.toUInt64) expected 0
  P.encrypt key nonce aad plaintext

def decrypt_chunk (schedule : FileKeySchedule) (ctx : ObjectContext)
    (object_context_hash : Arr 32) (index : UInt64) (ciphertext : Bytes) : Option Bytes := do
  let expected ← ctx.chunk_len index
  guard (ciphertext.length = expected.toNat + AEAD_TAG_LEN)
  let key := schedule.chunk_key P index
  let nonce := schedule.chunk_nonce P index
  let aad := chunk_aad ctx object_context_hash index
    (index * ctx.chunk_plaintext_size.toUInt64) expected 0
  let plaintext ← P.decrypt key nonce aad ciphertext
  guard (plaintext.length = expected.toNat)
  some plaintext

variable {schedule : FileKeySchedule} {ctx : ObjectContext} {ctx_hash : Arr 32} {index : UInt64}
  {plaintext ciphertext : Bytes}

theorem encrypt_chunk_eq_some :
    encrypt_chunk P schedule ctx ctx_hash index plaintext = some ciphertext ↔
      ∃ len, ctx.chunk_len index = some len ∧ plaintext.length = len.toNat ∧
        P.encrypt (schedule.chunk_key P index) (schedule.chunk_nonce P index)
          (chunk_aad ctx ctx_hash index (index * ctx.chunk_plaintext_size.toUInt64) len 0)
          plaintext = some ciphertext := by
  simp [encrypt_chunk, guard, Option.bind_eq_some_iff]

theorem decrypt_chunk_eq_some :
    decrypt_chunk P schedule ctx ctx_hash index ciphertext = some plaintext ↔
      ∃ len, ctx.chunk_len index = some len ∧ ciphertext.length = len.toNat + AEAD_TAG_LEN ∧
        P.decrypt (schedule.chunk_key P index) (schedule.chunk_nonce P index)
          (chunk_aad ctx ctx_hash index (index * ctx.chunk_plaintext_size.toUInt64) len 0)
          ciphertext = some plaintext ∧ plaintext.length = len.toNat := by
  simp [decrypt_chunk, guard, Option.bind_eq_some_iff]

/-- What decrypts is the ciphertext of the chunk. -/
theorem encrypt_of_decrypt_chunk (hP : P.Authentic)
    (h : decrypt_chunk P schedule ctx ctx_hash index ciphertext = some plaintext) :
    encrypt_chunk P schedule ctx ctx_hash index plaintext = some ciphertext := by
  obtain ⟨len, hlen, -, hdec, hpl⟩ := (decrypt_chunk_eq_some P).1 h
  exact (encrypt_chunk_eq_some P).2 ⟨len, hlen, hpl, hP _ _ _ _ _ hdec⟩

/-- One ciphertext of a chunk has one plaintext. -/
theorem encrypt_chunk_inj (hP : P.Decrypts) {plaintext' : Bytes}
    (h : encrypt_chunk P schedule ctx ctx_hash index plaintext = some ciphertext)
    (h' : encrypt_chunk P schedule ctx ctx_hash index plaintext' = some ciphertext) :
    plaintext = plaintext' := by
  obtain ⟨len, hlen, -, henc⟩ := (encrypt_chunk_eq_some P).1 h
  obtain ⟨len', hlen', -, henc'⟩ := (encrypt_chunk_eq_some P).1 h'
  obtain rfl : len = len' := Option.some.inj (hlen.symm.trans hlen')
  exact Option.some.inj ((hP _ _ _ _ _ henc).symm.trans (hP _ _ _ _ _ henc'))

theorem length_encrypt_chunk (hP : P.Encrypts)
    (h : encrypt_chunk P schedule ctx ctx_hash index plaintext = some ciphertext) :
    ciphertext.length = plaintext.length + AEAD_TAG_LEN := by
  obtain ⟨len, -, hp, henc⟩ := (encrypt_chunk_eq_some P).1 h
  have hlt : plaintext.length < 2 ^ 32 := by
    rw [hp]
    exact len.toNat_lt
  exact hP.length_eq hlt henc

/-- A plaintext of the right length is encrypted. -/
theorem encrypt_chunk_of_length (hP : P.Encrypts) {len : UInt32}
    (hlen : ctx.chunk_len index = some len) (hp : plaintext.length = len.toNat) :
    ∃ c, encrypt_chunk P schedule ctx ctx_hash index plaintext = some c := by
  have hlt : plaintext.length < 2 ^ 32 := by
    rw [hp]
    exact len.toNat_lt
  obtain ⟨c, hc, -⟩ := hP (schedule.chunk_key P index) (schedule.chunk_nonce P index)
    (chunk_aad ctx ctx_hash index (index * ctx.chunk_plaintext_size.toUInt64) len 0) plaintext hlt
  exact ⟨c, (encrypt_chunk_eq_some P).2 ⟨len, hlen, hp, hc⟩⟩

end rtp2_core.object
