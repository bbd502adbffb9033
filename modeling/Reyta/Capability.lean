-- Capabilities: what a provider is allowed to serve, to whom and until when, and
-- the tag that it recognises its own tokens by.
import Mathlib.Data.Nat.Bitwise
import Mathlib.Data.UInt
import Reyta.CborExact
import Reyta.Crypto

open byte_string exact_parse

namespace rtp2_core.capability

open cbor crypto

def TAG_DOMAIN : Bytes := ascii "RTP2-CAPABILITY-TAG-v1"

def OP_READ_MANIFEST : UInt64 := (1 : UInt64) <<< 0
def OP_READ_CHUNKS : UInt64 := (1 : UInt64) <<< 1
def OP_READ_PROOFS : UInt64 := (1 : UInt64) <<< 2
def OP_READ_PREVIEW : UInt64 := (1 : UInt64) <<< 3
def OP_UPLOAD_CHUNKS : UInt64 := (1 : UInt64) <<< 4
def OP_DELETE_OBJECT : UInt64 := (1 : UInt64) <<< 5

def OP_ALL : UInt64 :=
  OP_READ_MANIFEST ||| OP_READ_CHUNKS ||| OP_READ_PROOFS ||| OP_READ_PREVIEW |||
    OP_UPLOAD_CHUNKS ||| OP_DELETE_OBJECT

def CAPABILITY_VERSION : UInt64 := 1
def NONCE_LEN : Nat := 32
def MAX_OBJECTS : UInt64 := 1024

inductive CapabilityError where
  | Encoding
  | UnsupportedVersion
  | UnknownOperation
  | NoOperations
  | TooManyObjects
  | BadTag
  | NotYetValid
  | Expired
  | WrongProvider
  | WrongTransfer
  | WrongObject
  | OperationNotPermitted
  deriving DecidableEq, Repr

def CapabilityError.from_cbor (_ : CborError) : CapabilityError := .Encoding

open CapabilityError (from_cbor)

structure CapabilityBody where
  version : UInt64
  provider_id : Arr 32
  transfer_id : Arr 32
  object_ids : List (Arr 32)
  operations : UInt64
  not_before : UInt64
  expires_at : UInt64
  nonce : Arr NONCE_LEN
  deriving DecidableEq

/-! ## The body -/

namespace CapabilityBody

def validate (self : CapabilityBody) : Except CapabilityError Unit := do
  refuse_if (self.version ≠ CAPABILITY_VERSION) .UnsupportedVersion
  refuse_if (self.operations = 0) .NoOperations
  refuse_if (self.operations &&& ~~~OP_ALL ≠ 0) .UnknownOperation
  refuse_if (self.object_ids.isEmpty = true) .WrongObject
  refuse_if (self.object_ids.length > MAX_OBJECTS.toNat) .TooManyObjects
  -- one without an end is no capability
  refuse_if (self.expires_at ≤ self.not_before) .Expired

/-- The nonce is drawn from the operating system. -/
def new (provider_id transfer_id : Arr 32) (object_ids : List (Arr 32))
    (operations not_before expires_at : UInt64) (nonce : Arr NONCE_LEN) :
    Except CapabilityError CapabilityBody := do
  let body : CapabilityBody := ⟨CAPABILITY_VERSION, provider_id, transfer_id, object_ids,
    operations, not_before, expires_at, nonce⟩
  body.validate
  pure body

def encode (self : CapabilityBody) : Bytes :=
  MapWriter [(0, Writer.uint self.version), (1, Writer.bytes self.provider_id.bytes),
    (2, Writer.bytes self.transfer_id.bytes),
    (3, Writer.array (.ofNat self.object_ids.length) ++
      self.object_ids.flatMap fun id => Writer.bytes id.bytes),
    (4, Writer.uint self.operations), (5, Writer.uint self.not_before),
    (6, Writer.uint self.expires_at), (7, Writer.bytes self.nonce.bytes)]

def read : Parse CapabilityError CapabilityBody := do
  let m ← map_err from_cbor Reader.map
  let m ← map_err from_cbor (m.expect_key 0)
  let version ← map_err from_cbor Reader.uint
  let m ← map_err from_cbor (m.expect_key 1)
  let provider_id ← map_err from_cbor (Reader.bytes_exact 32)
  let m ← map_err from_cbor (m.expect_key 2)
  let transfer_id ← map_err from_cbor (Reader.bytes_exact 32)
  let m ← map_err from_cbor (m.expect_key 3)
  let object_ids ← Reader.array_of from_cbor MAX_OBJECTS .TooManyObjects
    (map_err from_cbor (Reader.bytes_exact 32))
  let m ← map_err from_cbor (m.expect_key 4)
  let operations ← map_err from_cbor Reader.uint
  let m ← map_err from_cbor (m.expect_key 5)
  let not_before ← map_err from_cbor Reader.uint
  let m ← map_err from_cbor (m.expect_key 6)
  let expires_at ← map_err from_cbor Reader.uint
  let m ← map_err from_cbor (m.expect_key 7)
  let nonce ← map_err from_cbor (Reader.bytes_exact NONCE_LEN)
  m.expect_end from_cbor .Encoding
  pure ⟨version, provider_id, transfer_id, object_ids, operations, not_before, expires_at, nonce⟩

def decode (bytes : Bytes) : Except CapabilityError CapabilityBody := do
  let r ← (Reader.new bytes).mapError from_cbor
  let body ← Reader.read_all from_cbor read r
  body.validate
  pure body

end CapabilityBody

/-! ## The token -/

structure CapabilityToken where
  body_bytes : Bytes
  tag : Arr HASH_LEN
  deriving DecidableEq

variable (P : Primitives)

def tag_for (body_bytes provider_capability_key : Bytes) : Arr HASH_LEN :=
  P.hmac_sha384 provider_capability_key (TAG_DOMAIN ++ body_bytes)

namespace CapabilityToken

def mint (body : CapabilityBody) (provider_capability_key : Bytes) : CapabilityToken :=
  ⟨body.encode, tag_for P body.encode provider_capability_key⟩

def encode (self : CapabilityToken) : Bytes :=
  MapWriter [(0, Writer.bytes self.body_bytes), (1, Writer.bytes self.tag.bytes)]

def read : Parse CapabilityError CapabilityToken := do
  let m ← map_err from_cbor Reader.map
  let m ← map_err from_cbor (m.expect_key 0)
  let body_bytes ← map_err from_cbor Reader.bytes
  let m ← map_err from_cbor (m.expect_key 1)
  let tag ← map_err from_cbor (Reader.bytes_exact HASH_LEN)
  m.expect_end from_cbor .Encoding
  pure ⟨body_bytes, tag⟩

def decode (bytes : Bytes) : Except CapabilityError CapabilityToken := do
  let r ← (Reader.new bytes).mapError from_cbor
  Reader.read_all from_cbor read r

def verify (self : CapabilityToken) (provider_capability_key : Bytes) :
    Except CapabilityError CapabilityBody := do
  let expected := tag_for P self.body_bytes provider_capability_key
  refuse_if (¬ ct_eq self.tag.bytes expected.bytes) .BadTag
  CapabilityBody.decode self.body_bytes

end CapabilityToken

/-- `u64::count_ones` -/
def count_ones (v : UInt64) : Nat := (List.range 64).countP fun i => v.toNat.testBit i

/-- What a provider checks before it serves. -/
def authorize (token : CapabilityToken) (provider_capability_key : Bytes)
    (provider_id transfer_id object_id : Arr 32) (operation now : UInt64) :
    Except CapabilityError CapabilityBody := do
  let body ← token.verify P provider_capability_key
  refuse_if (¬ ct_eq body.provider_id.bytes provider_id.bytes) .WrongProvider
  refuse_if (¬ ct_eq body.transfer_id.bytes transfer_id.bytes) .WrongTransfer
  refuse_if (¬ body.object_ids.any fun id => ct_eq id.bytes object_id.bytes) .WrongObject
  -- one request, one operation, and a bit that is known
  refuse_if (operation = 0 ∨ operation &&& ~~~OP_ALL ≠ 0 ∨ count_ones operation ≠ 1)
    .UnknownOperation
  refuse_if (body.operations &&& operation = 0) .OperationNotPermitted
  refuse_if (now < body.not_before) .NotYetValid
  refuse_if (now ≥ body.expires_at) .Expired
  pure body

/-! ## What is read back -/

namespace CapabilityBody

variable {self : CapabilityBody} {bytes : Bytes}

theorem read.reads :
    Reads read (fun d b => d + 1 < MAX_DEPTH ∧ b.object_ids.length ≤ MAX_OBJECTS.toNat) encode
      (fun d _ => d) := by
  unfold read
  refine Reads.congr (MapBody.start (fun _ : CapabilityBody => 8) (fun _ => by decide)
    fun m hm => MapBody.key (by simp [hm]) fun m hm => MapBody.value CapabilityBody.version
      (Reader.uint.reads.map_err _) (fun _ => MapBody.key (by simp [hm])
    fun m hm => MapBody.value CapabilityBody.provider_id
      ((Reader.bytes_exact.reads (by decide)).map_err _) (fun _ => MapBody.key (by simp [hm])
    fun m hm => MapBody.value CapabilityBody.transfer_id
      ((Reader.bytes_exact.reads (by decide)).map_err _) (fun _ => MapBody.key (by simp [hm])
    fun m hm => MapBody.value CapabilityBody.object_ids
      (Reader.array_of.reads ((Reader.bytes_exact.reads (by decide)).map_err _))
      (fun _ => MapBody.key (by simp [hm])
    fun m hm => MapBody.value CapabilityBody.operations
      (Reader.uint.reads.map_err _) (fun _ => MapBody.key (by simp [hm])
    fun m hm => MapBody.value CapabilityBody.not_before
      (Reader.uint.reads.map_err _) (fun _ => MapBody.key (by simp [hm])
    fun m hm => MapBody.value CapabilityBody.expires_at
      (Reader.uint.reads.map_err _) (fun _ => MapBody.key (by simp [hm])
    fun m hm => MapBody.value CapabilityBody.nonce
      ((Reader.bytes_exact.reads (by decide)).map_err _) (fun _ => MapBody.stop _ (Reads.pure _))
      ?_) ?_) ?_) ?_) ?_) ?_) ?_) ?_) ?admits ?writes ?depth
  case admits =>
    intro d b
    simp only [true_and, and_true, implies_true]
    omega
  case writes =>
    intro d b _
    simp [encode, MapWriter]
  case depth =>
    intro d b _
    rfl
  all_goals grind

theorem validate_iff : self.validate = .ok () ↔ self.version = CAPABILITY_VERSION ∧
    self.operations ≠ 0 ∧ self.operations &&& ~~~OP_ALL = 0 ∧ self.object_ids ≠ [] ∧
    self.object_ids.length ≤ MAX_OBJECTS.toNat ∧ self.not_before < self.expires_at := by
  simp only [validate, bind_eq_ok, refuse_if_eq_ok, exists_const, not_not, List.isEmpty_iff,
    gt_iff_lt, Nat.not_lt, UInt64.not_le, ne_eq]

theorem length_encode_le (h : self.object_ids.length ≤ MAX_OBJECTS.toNat) :
    self.encode.length ≤ 50000 := by
  have hids : (Writer.array (.ofNat self.object_ids.length) ++
      self.object_ids.flatMap fun id => Writer.bytes id.bytes).length ≤
        9 + 41 * self.object_ids.length := by
    rw [List.length_append]
    refine Nat.add_le_add (length_header_le _ _) (length_flatMap_le fun id _ => ?_)
    have hid := length_bytes_le id.bytes
    rw [id.length_bytes] at hid
    omega
  have hmap : self.encode.length ≤ _ := length_mapWriter_le_of (.cons (length_uint_le _)
    (.cons (length_bytes_le _) (.cons (length_bytes_le _) (.cons hids (.cons (length_uint_le _)
    (.cons (length_uint_le _) (.cons (length_uint_le _) (.cons (length_bytes_le _) .nil))))))))
  have hmax : MAX_OBJECTS.toNat = 1024 := rfl
  simp only [Arr.length_bytes, NONCE_LEN, List.map_cons, List.map_nil, List.sum_cons,
    List.sum_nil] at hmap
  omega

theorem decode_eq_ok : decode bytes = .ok self ↔
    bytes.length ≤ MAX_CONTROL_SIZE ∧ bytes = self.encode ∧ self.validate = .ok () := by
  have hread : ((Reader.new bytes).mapError from_cbor >>= Reader.read_all from_cbor read) =
      .ok self ↔ _ := Reader.new_read_all_eq_ok read.reads
  constructor
  · intro h
    obtain ⟨r, hr, h⟩ := bind_eq_ok.1 h
    obtain ⟨body, hbody, h⟩ := bind_eq_ok.1 h
    obtain ⟨_, hvalid, h⟩ := bind_eq_ok.1 h
    obtain rfl := pure_eq_ok.1 h
    obtain ⟨hlen, -, hbytes⟩ := hread.1 (bind_eq_ok.2 ⟨r, hr, hbody⟩)
    exact ⟨hlen, hbytes, hvalid⟩
  · rintro ⟨hlen, hbytes, hvalid⟩
    obtain ⟨-, -, -, -, hfew, -⟩ := validate_iff.1 hvalid
    obtain ⟨r, hr, hbody⟩ := bind_eq_ok.1 (hread.2 ⟨hlen, ⟨by decide, hfew⟩, hbytes⟩)
    exact bind_eq_ok.2 ⟨r, hr, bind_eq_ok.2 ⟨self, hbody, bind_eq_ok.2 ⟨(), hvalid, rfl⟩⟩⟩

/-- A valid body is read back, with any number of objects that is allowed. -/
theorem decode_encode (h : self.validate = .ok ()) : decode self.encode = .ok self := by
  obtain ⟨-, -, -, -, hfew, -⟩ := validate_iff.1 h
  refine decode_eq_ok.2 ⟨Nat.le_trans (length_encode_le hfew) (by decide), rfl, h⟩

end CapabilityBody

namespace CapabilityToken

variable {self : CapabilityToken} {bytes : Bytes}

theorem read.reads :
    Reads read (fun d t => d < MAX_DEPTH ∧ t.body_bytes.length < 2 ^ 64) encode (fun d _ => d) := by
  unfold read
  refine Reads.congr (MapBody.start (fun _ : CapabilityToken => 2) (fun _ => by decide)
    fun m hm => MapBody.key (by simp [hm]) fun m hm => MapBody.value CapabilityToken.body_bytes
      (Reader.bytes.reads.map_err _) (fun _ => MapBody.key (by simp [hm])
    fun m hm => MapBody.value CapabilityToken.tag
      ((Reader.bytes_exact.reads (by decide)).map_err _) (fun _ => MapBody.stop _ (Reads.pure _))
      ?_) ?_) ?admits ?writes ?depth
  case admits =>
    intro d t
    simp only [and_true]
  case writes =>
    intro d t _
    simp [encode, MapWriter]
  case depth =>
    intro d t _
    rfl
  all_goals grind

theorem decode_eq_ok : decode bytes = .ok self ↔ bytes.length ≤ MAX_CONTROL_SIZE ∧
    self.body_bytes.length < 2 ^ 64 ∧ bytes = self.encode := by
  have hread : decode bytes = .ok self ↔ _ := Reader.new_read_all_eq_ok read.reads
  rw [hread]
  have hdepth : 0 < MAX_DEPTH := by decide
  tauto

theorem length_encode_le (self : CapabilityToken) :
    self.encode.length ≤ 100 + self.body_bytes.length := by
  have hmap : self.encode.length ≤ _ := length_mapWriter_le_of
    (.cons (length_bytes_le _) (.cons (length_bytes_le _) .nil))
  simp only [Arr.length_bytes, HASH_LEN, List.map_cons, List.map_nil, List.sum_cons,
    List.sum_nil] at hmap
  omega

theorem verify_eq_ok {key : Bytes} {body : CapabilityBody} :
    self.verify P key = .ok body ↔ body.validate = .ok () ∧ self = mint P body key := by
  simp only [verify, bind_eq_ok, refuse_if_eq_ok, exists_const, not_not, ct_eq_iff,
    CapabilityBody.decode_eq_ok]
  constructor
  · rintro ⟨htag, -, hbytes, hvalid⟩
    refine ⟨hvalid, ?_⟩
    obtain ⟨body_bytes, tag⟩ := self
    simp only at htag hbytes
    rw [mint, ← hbytes, ← Arr.ext htag]
  · rintro ⟨hvalid, rfl⟩
    obtain ⟨hlen, -⟩ := CapabilityBody.decode_eq_ok.1 (CapabilityBody.decode_encode hvalid)
    exact ⟨rfl, hlen, rfl, hvalid⟩

end CapabilityToken

/-! ## Single operations -/

/-- The operations, one bit each. -/
def OPERATIONS : List UInt64 :=
  [OP_READ_MANIFEST, OP_READ_CHUNKS, OP_READ_PROOFS, OP_READ_PREVIEW, OP_UPLOAD_CHUNKS,
    OP_DELETE_OBJECT]

theorem forall_operations {p : UInt64 → Prop} :
    (∀ op ∈ OPERATIONS, p op) ↔ p OP_READ_MANIFEST ∧ p OP_READ_CHUNKS ∧ p OP_READ_PROOFS ∧
      p OP_READ_PREVIEW ∧ p OP_UPLOAD_CHUNKS ∧ p OP_DELETE_OBJECT := by
  simp [OPERATIONS]

/-- Without an unknown bit only six bits are left. -/
theorem toNat_lt_of_known {operation : UInt64} (h : operation &&& ~~~OP_ALL = 0) :
    operation.toNat < 2 ^ 6 := by
  have hmask : ∀ i : Fin 64, 6 ≤ i.val → (~~~OP_ALL).toNat.testBit i.val = true := by decide
  apply Nat.lt_pow_two_of_testBit
  intro i hi
  by_cases hlt : i < 64
  · have hbit := congrArg (fun v : UInt64 => v.toNat.testBit i) h
    simp only [UInt64.toNat_and, Nat.testBit_and, hmask ⟨i, hlt⟩ hi, Bool.and_true,
      UInt64.toNat_zero, Nat.zero_testBit] at hbit
    exact hbit
  · exact Nat.testBit_lt_two_pow (Nat.lt_of_lt_of_le operation.toNat_lt
      (Nat.pow_le_pow_right (by decide) (Nat.not_lt.1 hlt)))

theorem single_operation_iff {operation : UInt64} :
    ¬ (operation = 0 ∨ operation &&& ~~~OP_ALL ≠ 0 ∨ count_ones operation ≠ 1) ↔
      operation ∈ OPERATIONS := by
  have hsmall : ∀ v : Fin 64, count_ones (.ofNat v.val) = 1 → UInt64.ofNat v.val ∈ OPERATIONS := by
    decide +kernel
  have hknown : ∀ op ∈ OPERATIONS, op ≠ 0 ∧ op &&& ~~~OP_ALL = 0 ∧ count_ones op = 1 :=
    forall_operations.2 (by decide +kernel)
  simp only [not_or, not_not, ne_eq]
  constructor
  · rintro ⟨-, hbits, hone⟩
    have hop := hsmall ⟨operation.toNat, toNat_lt_of_known hbits⟩
    simp only [UInt64.ofNat_toNat] at hop
    exact hop hone
  · exact hknown operation

/-- A single bit is in a word or it is not. -/
theorem and_operation {operation : UInt64} (h : operation ∈ OPERATIONS) (operations : UInt64) :
    operations &&& operation ≠ 0 ↔ operations &&& operation = operation := by
  have hpow : ∀ op ∈ OPERATIONS, ∃ k, op.toNat = 2 ^ k :=
    forall_operations.2 ⟨⟨0, rfl⟩, ⟨1, rfl⟩, ⟨2, rfl⟩, ⟨3, rfl⟩, ⟨4, rfl⟩, ⟨5, rfl⟩⟩
  obtain ⟨k, hk⟩ := hpow operation h
  rw [Ne, ← UInt64.toNat_inj, ← UInt64.toNat_inj, UInt64.toNat_and, hk, Nat.and_two_pow,
    UInt64.toNat_zero]
  have hpos := Nat.two_pow_pos k
  cases operations.toNat.testBit k with
  | false =>
    simp only [Bool.toNat_false, Nat.zero_mul, not_true_eq_false, false_iff]
    omega
  | true =>
    simp only [Bool.toNat_true, Nat.one_mul, iff_true]
    omega

/-! ## What is authorised -/

/-- The body allows the operation on the object of the transfer at the provider,
at this time. -/
structure CapabilityBody.Allows (body : CapabilityBody)
    (provider_id transfer_id object_id : Arr 32) (operation now : UInt64) : Prop where
  provider : body.provider_id = provider_id
  transfer : body.transfer_id = transfer_id
  object : object_id ∈ body.object_ids
  single : operation ∈ OPERATIONS
  contained : body.operations &&& operation = operation
  not_before : body.not_before ≤ now
  expires : now < body.expires_at

theorem authorize_eq_ok {token : CapabilityToken} {key : Bytes}
    {provider_id transfer_id object_id : Arr 32} {operation now : UInt64} {body : CapabilityBody} :
    authorize P token key provider_id transfer_id object_id operation now = .ok body ↔
      token.verify P key = .ok body ∧
        body.Allows provider_id transfer_id object_id operation now := by
  have hids : ∀ b : CapabilityBody, (b.object_ids.any fun id => ct_eq id.bytes object_id.bytes) =
      true ↔ object_id ∈ b.object_ids := by
    intro b
    simp only [List.any_eq_true, ct_eq_iff]
    constructor
    · rintro ⟨id, hid, he⟩
      rwa [← Arr.ext he]
    · exact fun hid => ⟨object_id, hid, rfl⟩
  simp only [authorize, bind_eq_ok, refuse_if_eq_ok, exists_const, not_not, ct_eq_iff, hids,
    single_operation_iff, UInt64.not_lt, ge_iff_le, UInt64.not_le, pure_eq_ok]
  constructor
  · rintro ⟨b, hverify, hprovider, htransfer, hobject, hsingle, hallowed, hbefore, hafter, rfl⟩
    exact ⟨hverify, Arr.ext hprovider, Arr.ext htransfer, hobject, hsingle,
      (and_operation hsingle _).1 hallowed, hbefore, hafter⟩
  · rintro ⟨hverify, h⟩
    exact ⟨body, hverify, congrArg _ h.provider, congrArg _ h.transfer, h.object, h.single,
      (and_operation h.single _).2 h.contained, h.not_before, h.expires, rfl⟩

/-- What the key mints for a valid body is read back. -/
theorem CapabilityToken.decode_mint {body : CapabilityBody} (h : body.validate = .ok ())
    (key : Bytes) : decode (mint P body key).encode = .ok (mint P body key) := by
  obtain ⟨-, -, -, -, hfew, -⟩ := CapabilityBody.validate_iff.1 h
  have hbody : (mint P body key).body_bytes.length ≤ 50000 := CapabilityBody.length_encode_le hfew
  have htoken := (mint P body key).length_encode_le
  refine decode_eq_ok.2 ⟨?_, ?_, rfl⟩
  · unfold MAX_CONTROL_SIZE
    omega
  · omega

/-- A token is authorised exactly if it is the encoding of what the key mints for a
valid body that allows the request, and the body is the result. So every valid body
comes back from the wire. -/
theorem a_token_is_authorised_iff_it_was_minted_for_the_request (P : Primitives) (key : Bytes) :
    (∀ (t : Bytes) (provider_id transfer_id object_id : Arr 32) (operation now : UInt64)
      (body : CapabilityBody),
      (do
        let token ← CapabilityToken.decode t
        authorize P token key provider_id transfer_id object_id operation now) = .ok body ↔
      t = (CapabilityToken.mint P body key).encode ∧ body.validate = .ok () ∧
        body.Allows provider_id transfer_id object_id operation now) ∧
    ∀ body : CapabilityBody, body.validate = .ok () →
      (do
        let token ← CapabilityToken.decode (CapabilityToken.mint P body key).encode
        token.verify P key) = .ok body := by
  constructor
  · intro t provider_id transfer_id object_id operation now body
    simp only [bind_eq_ok, authorize_eq_ok, CapabilityToken.verify_eq_ok]
    constructor
    · rintro ⟨token, hdecode, ⟨hvalid, rfl⟩, hallows⟩
      exact ⟨(CapabilityToken.decode_eq_ok.1 hdecode).2.2, hvalid, hallows⟩
    · rintro ⟨rfl, hvalid, hallows⟩
      exact ⟨_, CapabilityToken.decode_mint P hvalid key, ⟨hvalid, rfl⟩, hallows⟩
  · intro body hvalid
    refine bind_eq_ok.2 ⟨_, CapabilityToken.decode_mint P hvalid key, ?_⟩
    exact (CapabilityToken.verify_eq_ok P).2 ⟨hvalid, rfl⟩

/-- Reading the manifest and the chunks of one object, for an hour. -/
def sampleBody : CapabilityBody :=
  ⟨1, .replicate 32 1, .replicate 32 2, [.replicate 32 3], OP_READ_MANIFEST ||| OP_READ_CHUNKS,
    1000, 4600, .replicate 32 4⟩

theorem chunks_of_one_object_are_authorised :
    (do
      let token ← CapabilityToken.decode (CapabilityToken.mint sample sampleBody [9]).encode
      authorize sample token [9] (.replicate 32 1) (.replicate 32 2) (.replicate 32 3)
        OP_READ_CHUNKS 4599) = .ok sampleBody :=
  ((a_token_is_authorised_iff_it_was_minted_for_the_request sample [9]).1 _ _ _ _ _ _ sampleBody).2
    ⟨rfl, by decide, by constructor <;> decide⟩

end rtp2_core.capability
