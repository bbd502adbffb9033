-- The key envelope: the secrets of one file, sealed for one session under a key
-- that is derived from its wrap key.
import Reyta.CborExact
import Reyta.Object

open byte_string exact_parse

namespace rtp2_core.keys

open cbor crypto

def ENVELOPE_AAD : Bytes := ascii "RTP2-ENVELOPE-AAD-v1"

/-- How far an envelope may be dated into the future, in seconds. -/
def ENVELOPE_SKEW : Nat := 300

structure KeyError where
  deriving DecidableEq, Repr

def KeyError.from_cbor (_ : CborError) : KeyError := ⟨⟩

open KeyError (from_cbor)

structure SealedEnvelope where
  nonce : Arr 24
  ciphertext : Bytes
  deriving DecidableEq

structure OpenedEnvelope where
  secrets : FileSecrets
  suite_id : UInt16
  created_at : UInt64
  expires_at : UInt64
  sender_device_id : Arr 32
  recipient_device_id : Arr 32

/-- What is sealed, with the suite as it stands on the wire. -/
structure EnvelopeBody where
  secrets : FileSecrets
  suite_id : UInt64
  created_at : UInt64
  expires_at : UInt64
  sender_device_id : Arr 32
  recipient_device_id : Arr 32

namespace EnvelopeBody

def encode (b : EnvelopeBody) : Bytes :=
  MapWriter [(0, Writer.bytes b.secrets.transfer_id.bytes),
    (1, Writer.bytes b.secrets.object_id.bytes), (2, Writer.bytes b.secrets.file_master_key.bytes),
    (3, Writer.bytes b.secrets.file_nonce_seed.bytes), (4, Writer.uint b.suite_id),
    (5, Writer.uint b.created_at), (6, Writer.uint b.expires_at),
    (7, Writer.bytes b.sender_device_id.bytes), (8, Writer.bytes b.recipient_device_id.bytes)]

def read : Parse KeyError EnvelopeBody := do
  let m ← map_err from_cbor Reader.map
  let m ← map_err from_cbor (m.expect_key 0)
  let transfer_id ← map_err from_cbor (Reader.bytes_exact 32)
  let m ← map_err from_cbor (m.expect_key 1)
  let object_id ← map_err from_cbor (Reader.bytes_exact 32)
  let m ← map_err from_cbor (m.expect_key 2)
  let file_master_key ← map_err from_cbor (Reader.bytes_exact 32)
  let m ← map_err from_cbor (m.expect_key 3)
  let file_nonce_seed ← map_err from_cbor (Reader.bytes_exact 32)
  let m ← map_err from_cbor (m.expect_key 4)
  let suite_id ← map_err from_cbor Reader.uint
  let m ← map_err from_cbor (m.expect_key 5)
  let created_at ← map_err from_cbor Reader.uint
  let m ← map_err from_cbor (m.expect_key 6)
  let expires_at ← map_err from_cbor Reader.uint
  let m ← map_err from_cbor (m.expect_key 7)
  let sender_device_id ← map_err from_cbor (Reader.bytes_exact 32)
  let m ← map_err from_cbor (m.expect_key 8)
  let recipient_device_id ← map_err from_cbor (Reader.bytes_exact 32)
  m.expect_end from_cbor ⟨⟩
  pure ⟨⟨transfer_id, object_id, file_master_key, file_nonce_seed⟩, suite_id, created_at,
    expires_at, sender_device_id, recipient_device_id⟩

theorem read.reads : Reads read (fun d _ => d < MAX_DEPTH) encode (fun d _ => d) := by
  unfold read
  refine Reads.congr (MapBody.start (fun _ : EnvelopeBody => 9) (fun _ => by decide)
    fun m hm => MapBody.key (by simp [hm])
    fun m hm => MapBody.value (fun b : EnvelopeBody => b.secrets.transfer_id)
      ((Reader.bytes_exact.reads (by decide)).map_err _) (fun _ => MapBody.key (by simp [hm])
    fun m hm => MapBody.value (fun b : EnvelopeBody => b.secrets.object_id)
      ((Reader.bytes_exact.reads (by decide)).map_err _) (fun _ => MapBody.key (by simp [hm])
    fun m hm => MapBody.value (fun b : EnvelopeBody => b.secrets.file_master_key)
      ((Reader.bytes_exact.reads (by decide)).map_err _) (fun _ => MapBody.key (by simp [hm])
    fun m hm => MapBody.value (fun b : EnvelopeBody => b.secrets.file_nonce_seed)
      ((Reader.bytes_exact.reads (by decide)).map_err _) (fun _ => MapBody.key (by simp [hm])
    fun m hm => MapBody.value EnvelopeBody.suite_id
      (Reader.uint.reads.map_err _) (fun _ => MapBody.key (by simp [hm])
    fun m hm => MapBody.value EnvelopeBody.created_at
      (Reader.uint.reads.map_err _) (fun _ => MapBody.key (by simp [hm])
    fun m hm => MapBody.value EnvelopeBody.expires_at
      (Reader.uint.reads.map_err _) (fun _ => MapBody.key (by simp [hm])
    fun m hm => MapBody.value EnvelopeBody.sender_device_id
      ((Reader.bytes_exact.reads (by decide)).map_err _) (fun _ => MapBody.key (by simp [hm])
    fun m hm => MapBody.value EnvelopeBody.recipient_device_id
      ((Reader.bytes_exact.reads (by decide)).map_err _) (fun _ => MapBody.stop _ (Reads.pure _))
      ?_) ?_) ?_) ?_) ?_) ?_) ?_) ?_) ?_) ?admits ?writes ?depth
  case admits =>
    intro d b
    simp
  case writes =>
    intro d b _
    simp [encode, MapWriter]
  case depth =>
    intro d b _
    rfl
  all_goals grind

theorem length_encode_le (b : EnvelopeBody) : b.encode.length ≤ 400 := by
  have hmap : b.encode.length ≤ _ := length_mapWriter_le_of (.cons (length_bytes_le _)
    (.cons (length_bytes_le _) (.cons (length_bytes_le _) (.cons (length_bytes_le _)
    (.cons (length_uint_le _) (.cons (length_uint_le _) (.cons (length_uint_le _)
    (.cons (length_bytes_le _) (.cons (length_bytes_le _) .nil)))))))))
  simp only [Arr.length_bytes, List.map_cons, List.map_nil, List.sum_cons, List.sum_nil] at hmap
  omega

end EnvelopeBody

variable (P : Primitives)

def envelope_key (transfer_wrap_key : Arr 32) : Arr 32 :=
  let prk := P.hkdf_extract (ascii "RTP2-ENVELOPE-SALT-v1") transfer_wrap_key.bytes
  P.hkdf_expand 32 prk (ascii "RTP2 envelope key v1")

/-- `nonce` is what is drawn. -/
def seal_envelope_with_suite (secrets : FileSecrets) (transfer_wrap_key : Arr 32)
    (created_at expires_at : UInt64) (sender_device_id recipient_device_id : Arr 32)
    (suite_id : UInt16) (nonce : Arr 24) : Except KeyError SealedEnvelope := do
  let plaintext := EnvelopeBody.encode ⟨secrets, suite_id.toUInt64, created_at, expires_at,
    sender_device_id, recipient_device_id⟩
  let key := envelope_key P transfer_wrap_key
  let ciphertext ← some_or ⟨⟩ (P.encrypt key nonce ENVELOPE_AAD plaintext)
  pure ⟨nonce, ciphertext⟩

def seal_envelope (secrets : FileSecrets) (transfer_wrap_key : Arr 32)
    (created_at expires_at : UInt64) (sender_device_id recipient_device_id : Arr 32)
    (nonce : Arr 24) : Except KeyError SealedEnvelope :=
  seal_envelope_with_suite P secrets transfer_wrap_key created_at expires_at sender_device_id
    recipient_device_id SUITE_ID nonce

/-- The expiry is not checked here. -/
def open_envelope (envelope : SealedEnvelope) (transfer_wrap_key : Arr 32) :
    Except KeyError OpenedEnvelope := do
  let key := envelope_key P transfer_wrap_key
  let plaintext ← some_or ⟨⟩ (P.decrypt key envelope.nonce ENVELOPE_AAD envelope.ciphertext)
  let r ← (Reader.new plaintext).mapError from_cbor
  let body ← Reader.read_all from_cbor EnvelopeBody.read r
  refuse_if (body.suite_id ≠ SUITE_ID.toUInt64) ⟨⟩
  pure ⟨body.secrets, body.suite_id.toUInt16, body.created_at, body.expires_at,
    body.sender_device_id, body.recipient_device_id⟩

def open_envelope_at (envelope : SealedEnvelope) (transfer_wrap_key : Arr 32) (now : UInt64) :
    Except KeyError OpenedEnvelope := do
  let opened ← open_envelope P envelope transfer_wrap_key
  refuse_if (now ≥ opened.expires_at) ⟨⟩
  -- The sum saturates.
  refuse_if (opened.created_at.toNat > min (now.toNat + ENVELOPE_SKEW) (2 ^ 64 - 1)) ⟨⟩
  pure opened

variable {P} {envelope : SealedEnvelope} {wrap_key : Arr 32} {opened : OpenedEnvelope}

theorem open_envelope_of_decrypt {body : EnvelopeBody}
    (hdec : P.decrypt (envelope_key P wrap_key) envelope.nonce ENVELOPE_AAD envelope.ciphertext =
      some body.encode) (hsuite : body.suite_id = SUITE_ID.toUInt64) :
    open_envelope P envelope wrap_key = .ok ⟨body.secrets, SUITE_ID, body.created_at,
      body.expires_at, body.sender_device_id, body.recipient_device_id⟩ := by
  have hlen := body.length_encode_le
  have hread : ((Reader.new body.encode).mapError from_cbor >>=
      Reader.read_all from_cbor EnvelopeBody.read) = .ok body ↔ _ :=
    Reader.new_read_all_eq_ok EnvelopeBody.read.reads
  obtain ⟨r, hr, hbody⟩ := bind_eq_ok.1
    (hread.2 ⟨Nat.le_trans hlen (by decide), by decide, rfl⟩)
  unfold open_envelope
  simp only [bind_eq_ok, some_or_eq_ok, refuse_if_eq_ok, pure_eq_ok, not_not]
  refine ⟨_, hdec, r, hr, body, hbody, (), hsuite, ?_⟩
  rw [hsuite]
  rfl

theorem exists_seal_envelope (hP : P.Encrypts) (secrets : FileSecrets) (wrap_key : Arr 32)
    (created_at expires_at : UInt64) (sender recipient : Arr 32) (nonce : Arr 24) :
    ∃ envelope, seal_envelope P secrets wrap_key created_at expires_at sender recipient nonce =
      .ok envelope := by
  have hbody := EnvelopeBody.length_encode_le ⟨secrets, SUITE_ID.toUInt64, created_at, expires_at,
    sender, recipient⟩
  obtain ⟨c, hc, -⟩ := hP (envelope_key P wrap_key) nonce ENVELOPE_AAD _
    (Nat.lt_of_le_of_lt hbody (by decide))
  unfold seal_envelope seal_envelope_with_suite
  simp only [bind_eq_ok, some_or_eq_ok, pure_eq_ok]
  exact ⟨⟨nonce, c⟩, c, hc, rfl⟩

/-- What was sealed is opened until it expires. -/
theorem open_seal_envelope (hP : P.Decrypts) {secrets : FileSecrets}
    {created_at expires_at now : UInt64} {sender recipient : Arr 32} {nonce : Arr 24}
    (h : seal_envelope P secrets wrap_key created_at expires_at sender recipient nonce =
      .ok envelope) (hcreated : created_at ≤ now) (hexpires : now < expires_at) :
    open_envelope_at P envelope wrap_key now =
      .ok ⟨secrets, SUITE_ID, created_at, expires_at, sender, recipient⟩ := by
  unfold seal_envelope seal_envelope_with_suite at h
  simp only [bind_eq_ok, some_or_eq_ok, pure_eq_ok] at h
  obtain ⟨c, hc, rfl⟩ := h
  have hopen : open_envelope P ⟨nonce, c⟩ wrap_key = .ok _ :=
    open_envelope_of_decrypt (hP _ _ _ _ _ hc) rfl
  unfold open_envelope_at
  simp only [bind_eq_ok, refuse_if_eq_ok, pure_eq_ok, ge_iff_le, UInt64.not_le, gt_iff_lt,
    Nat.not_lt]
  refine ⟨_, hopen, (), hexpires, (), ?_, rfl⟩
  have hle := UInt64.le_iff_toNat_le.1 hcreated
  have hlt := now.toNat_lt
  simp only
  omega

end rtp2_core.keys
