-- The transfer offer. The sender signs a hash of the manifest commitment, the
-- recipient scope and a binding hash over the envelopes, the providers, the
-- sender bundle and the auth mode. The commitment is taken over the manifest
-- as it was decoded, so the extension maps in the offered bytes are not signed.
import Reyta.Identity
import Reyta.Manifest

open byte_string exact_parse hash_tree

namespace rtp2_core.offer

open cbor crypto identity manifest

def OFFER_SIGN_DOMAIN : Bytes := ascii "RTP2-OFFER-SIGN-v1"
def OFFER_BINDING_DOMAIN : Bytes := ascii "RTP2-OFFER-BINDING-v1"

def MAX_ENVELOPES : UInt64 := 64
def MAX_PROVIDERS : UInt64 := 32
def MAX_PROVIDER_ADDR_LEN : Nat := 512

inductive OfferError where
  | Encoding
  | UnsupportedAuthMode
  | UnsupportedVersion
  | InvalidSignature
  | CommitmentMismatch
  | ScopeMismatch
  | Expired
  | TooManyEnvelopes
  | TooManyProviders
  | ValueTooLong
  | NoEnvelope
  deriving DecidableEq, Repr

def OfferError.from_cbor (_ : CborError) : OfferError := .Encoding

def OfferError.from_manifest : ManifestError → OfferError
  | .CommitmentMismatch => .CommitmentMismatch
  | _ => .Encoding

open OfferError (from_cbor from_manifest)

inductive AuthMode where
  | BoundSessionMac
  | StandaloneHybridSignature
  deriving DecidableEq, Repr

def AuthMode.to_u64 : AuthMode → UInt64
  | .BoundSessionMac => 0
  | .StandaloneHybridSignature => 1

def AuthMode.from_u64 (v : UInt64) : Parse OfferError AuthMode :=
  if v = 0 then pure .BoundSessionMac
  else if v = 1 then pure .StandaloneHybridSignature
  else fail .UnsupportedAuthMode

structure KeyEnvelopeEntry where
  recipient_device_id : Arr 32
  nonce : Arr 24
  ciphertext : Bytes
  deriving DecidableEq

structure ProviderAddress where
  kind : UInt64
  address : Bytes
  deriving DecidableEq

structure TransferOffer where
  public_manifest_bytes : Bytes
  sealed_manifest : SealedManifest
  key_envelopes : List KeyEnvelopeEntry
  providers : List ProviderAddress
  sender_device : DevicePublic
  recipient_scope : RecipientScope
  auth_mode : AuthMode
  signature : HybridSignature
  deriving DecidableEq

/-! ## What is hashed and signed -/

def KeyEnvelopeEntry.encode (env : KeyEnvelopeEntry) : Bytes :=
  MapWriter [(0, Writer.bytes env.recipient_device_id.bytes), (1, Writer.bytes env.nonce.bytes),
    (2, Writer.bytes env.ciphertext)]

def ProviderAddress.encode (p : ProviderAddress) : Bytes :=
  MapWriter [(0, Writer.uint p.kind), (1, Writer.bytes p.address)]

/-- An array of key envelopes. -/
def encode_envelopes (key_envelopes : List KeyEnvelopeEntry) : Bytes :=
  Writer.array (.ofNat key_envelopes.length) ++ key_envelopes.flatMap KeyEnvelopeEntry.encode

/-- An array of provider addresses. -/
def encode_providers (providers : List ProviderAddress) : Bytes :=
  Writer.array (.ofNat providers.length) ++ providers.flatMap ProviderAddress.encode

/-- The input of the binding hash. -/
def offer_binding (key_envelopes : List KeyEnvelopeEntry) (providers : List ProviderAddress)
    (sender_device : DevicePublic) (auth_mode : AuthMode) : Bytes :=
  OFFER_BINDING_DOMAIN ++ MapWriter [(0, encode_envelopes key_envelopes),
    (1, encode_providers providers), (2, sender_device.encode), (3, Writer.uint auth_mode.to_u64)]

variable (P : Primitives)

def offer_binding_hash (key_envelopes : List KeyEnvelopeEntry) (providers : List ProviderAddress)
    (sender_device : DevicePublic) (auth_mode : AuthMode) : Arr 32 :=
  P.blake3 (offer_binding key_envelopes providers sender_device auth_mode)

/-- The input of the hash that is signed. -/
def offer_preimage (manifest_commitment : Arr 32) (recipient_scope : RecipientScope)
    (offer_binding : Arr 32) : Bytes :=
  OFFER_SIGN_DOMAIN ++ manifest_commitment.bytes ++ (recipient_scope.hash P).bytes ++
    offer_binding.bytes

def offer_signing_hash (manifest_commitment : Arr 32) (recipient_scope : RecipientScope)
    (offer_binding : Arr 32) : Arr 48 :=
  P.sha384 (offer_preimage P manifest_commitment recipient_scope offer_binding)

/-! ## The wire form -/

def encode_scope (scope : RecipientScope) : Bytes :=
  MapWriter [(0, Writer.uint scope.scope_type), (1, Writer.bytes scope.id)]

def decode_scope : Parse OfferError RecipientScope := do
  let m ← map_err from_cbor Reader.map
  let m ← map_err from_cbor (m.expect_key 0)
  let scope_type ← map_err from_cbor Reader.uint
  let m ← map_err from_cbor (m.expect_key 1)
  let id ← map_err from_cbor Reader.bytes
  m.expect_end from_cbor .Encoding
  fail_if (id.length > MAX_PROVIDER_ADDR_LEN) .ValueTooLong
  pure ⟨scope_type, id⟩

def KeyEnvelopeEntry.decode : Parse OfferError KeyEnvelopeEntry := do
  let m ← map_err from_cbor Reader.map
  let m ← map_err from_cbor (m.expect_key 0)
  let recipient_device_id ← map_err from_cbor (Reader.bytes_exact 32)
  let m ← map_err from_cbor (m.expect_key 1)
  let nonce ← map_err from_cbor (Reader.bytes_exact 24)
  let m ← map_err from_cbor (m.expect_key 2)
  let ciphertext ← map_err from_cbor Reader.bytes
  m.expect_end from_cbor .Encoding
  pure ⟨recipient_device_id, nonce, ciphertext⟩

def ProviderAddress.decode : Parse OfferError ProviderAddress := do
  let m ← map_err from_cbor Reader.map
  let m ← map_err from_cbor (m.expect_key 0)
  let kind ← map_err from_cbor Reader.uint
  let m ← map_err from_cbor (m.expect_key 1)
  let address ← map_err from_cbor Reader.bytes
  m.expect_end from_cbor .Encoding
  fail_if (address.length > MAX_PROVIDER_ADDR_LEN) .ValueTooLong
  pure ⟨kind, address⟩

namespace TransferOffer

def encode (o : TransferOffer) : Bytes :=
  MapWriter [(0, Writer.bytes o.public_manifest_bytes),
    (1, Writer.bytes o.sealed_manifest.nonce.bytes), (2, Writer.bytes o.sealed_manifest.ciphertext),
    (3, encode_envelopes o.key_envelopes), (4, encode_providers o.providers),
    (5, o.sender_device.encode), (6, encode_scope o.recipient_scope),
    (7, Writer.uint o.auth_mode.to_u64), (8, o.signature.encode)]

def read : Parse OfferError TransferOffer := do
  let m ← map_err from_cbor Reader.map
  let m ← map_err from_cbor (m.expect_key 0)
  let public_manifest_bytes ← map_err from_cbor Reader.bytes
  let m ← map_err from_cbor (m.expect_key 1)
  let nonce ← map_err from_cbor (Reader.bytes_exact 24)
  let m ← map_err from_cbor (m.expect_key 2)
  let ciphertext ← map_err from_cbor Reader.bytes
  let m ← map_err from_cbor (m.expect_key 3)
  let key_envelopes ← Reader.array_of from_cbor MAX_ENVELOPES .TooManyEnvelopes
    KeyEnvelopeEntry.decode
  let m ← map_err from_cbor (m.expect_key 4)
  let providers ← Reader.array_of from_cbor MAX_PROVIDERS .TooManyProviders ProviderAddress.decode
  let m ← map_err from_cbor (m.expect_key 5)
  let sender_device ← DevicePublic.decode from_cbor
  let m ← map_err from_cbor (m.expect_key 6)
  let recipient_scope ← decode_scope
  let m ← map_err from_cbor (m.expect_key 7)
  let mode ← map_err from_cbor Reader.uint
  let auth_mode ← AuthMode.from_u64 mode
  let m ← map_err from_cbor (m.expect_key 8)
  let signature ← HybridSignature.decode from_cbor
  m.expect_end from_cbor .Encoding
  pure ⟨public_manifest_bytes, ⟨nonce, ciphertext⟩, key_envelopes, providers, sender_device,
    recipient_scope, auth_mode, signature⟩

def decode (bytes : Bytes) : Except OfferError TransferOffer := do
  let r ← (Reader.new bytes).mapError from_cbor
  let offer ← Reader.read_all from_cbor read r
  refuse_if (offer.key_envelopes = []) .NoEnvelope
  pure offer

/-- The full check of the recipient, which returns the public manifest. -/
def verify (o : TransferOffer) (expected_scope : RecipientScope) (now : UInt64) :
    Except OfferError PublicManifest := do
  refuse_if (o.auth_mode ≠ .StandaloneHybridSignature) .UnsupportedAuthMode
  refuse_if (o.recipient_scope ≠ expected_scope) .ScopeMismatch
  let manifest ← (PublicManifest.decode o.public_manifest_bytes).mapError from_manifest
  refuse_if (manifest.suite_id ≠ SUITE_ID) .UnsupportedVersion
  let commitment := manifest.commitment P
  (verify_commitment P manifest o.sealed_manifest commitment).mapError from_manifest
  let binding := offer_binding_hash P o.key_envelopes o.providers o.sender_device o.auth_mode
  let hash := offer_signing_hash P commitment o.recipient_scope binding
  refuse_if (!o.sender_device.hybrid_verify P hash.bytes o.signature) .InvalidSignature
  refuse_if (now ≥ manifest.expires_at) .Expired
  pure manifest

/-- The envelope addressed to a device. -/
def envelope_for (o : TransferOffer) (device_id : Arr 32) : Option KeyEnvelopeEntry :=
  o.key_envelopes.find? fun e => ct_eq e.recipient_device_id.bytes device_id.bytes

def manifest_commitment (o : TransferOffer) : Except OfferError (Arr 32) := do
  let manifest ← (PublicManifest.decode o.public_manifest_bytes).mapError from_manifest
  pure (manifest.commitment P)

end TransferOffer

/-! ## What is read from the wire -/

theorem AuthMode.from_u64.reads (v : UInt64) :
    Reads (AuthMode.from_u64 v) (fun _ mode => mode.to_u64 = v) (fun _ => []) (fun d _ => d) := by
  unfold AuthMode.from_u64
  split_ifs with h0 h1
  · refine (Reads.pure _).congr ?_ (fun _ _ _ => rfl) (fun _ _ _ => rfl)
    intro d mode
    cases mode <;> simp [AuthMode.to_u64, h0]
  · refine (Reads.pure _).congr ?_ (fun _ _ _ => rfl) (fun _ _ _ => rfl)
    intro d mode
    cases mode <;> simp [AuthMode.to_u64, h1]
  · apply Reads.fail
    intro d mode h
    cases mode
    · exact h0 h.symm
    · exact h1 h.symm

theorem decode_scope.reads :
    Reads decode_scope (fun d s => d < MAX_DEPTH ∧ s.id.length ≤ MAX_PROVIDER_ADDR_LEN)
      encode_scope (fun d _ => d) := by
  exact reads_tagged_bytes (by decide) (fun _ => rfl) (fun _ _ => ⟨rfl, rfl⟩)

theorem KeyEnvelopeEntry.decode.reads :
    Reads KeyEnvelopeEntry.decode (fun d e => d < MAX_DEPTH ∧ e.ciphertext.length < 2 ^ 64)
      KeyEnvelopeEntry.encode (fun d _ => d) := by
  unfold KeyEnvelopeEntry.decode
  refine Reads.congr (MapBody.start (fun _ : KeyEnvelopeEntry => 3) (fun _ => by decide)
    fun m hm => MapBody.key (by simp [hm])
    fun m hm => MapBody.value KeyEnvelopeEntry.recipient_device_id
      ((Reader.bytes_exact.reads (by decide)).map_err _) (fun _ => MapBody.key (by simp [hm])
    fun m hm => MapBody.value KeyEnvelopeEntry.nonce
      ((Reader.bytes_exact.reads (by decide)).map_err _) (fun _ => MapBody.key (by simp [hm])
    fun m hm => MapBody.value KeyEnvelopeEntry.ciphertext
      (Reader.bytes.reads.map_err _) (fun _ => MapBody.stop _ (Reads.pure _))
      ?_) ?_) ?_) ?admits ?writes ?depth
  case admits =>
    intro d r
    simp
  case writes =>
    intro d r _
    simp [KeyEnvelopeEntry.encode, MapWriter]
  case depth =>
    intro d r _
    rfl
  all_goals grind

theorem ProviderAddress.decode.reads :
    Reads ProviderAddress.decode
      (fun d p => d < MAX_DEPTH ∧ p.address.length ≤ MAX_PROVIDER_ADDR_LEN)
      ProviderAddress.encode (fun d _ => d) := by
  exact reads_tagged_bytes (by decide) (fun _ => rfl) (fun _ _ => ⟨rfl, rfl⟩)

/-- The sizes that the decoder of an offer admits at depth `d`. -/
structure TransferOffer.Fits (d : Nat) (o : TransferOffer) : Prop where
  depth : d + 1 < MAX_DEPTH
  manifest : o.public_manifest_bytes.length < 2 ^ 64
  ciphertext : o.sealed_manifest.ciphertext.length < 2 ^ 64
  envelopes_len : o.key_envelopes.length ≤ MAX_ENVELOPES.toNat
  envelopes : ∀ e ∈ o.key_envelopes, d + 2 < MAX_DEPTH ∧ e.ciphertext.length < 2 ^ 64
  providers_len : o.providers.length ≤ MAX_PROVIDERS.toNat
  providers : ∀ p ∈ o.providers, d + 2 < MAX_DEPTH ∧ p.address.length ≤ MAX_PROVIDER_ADDR_LEN
  scope : o.recipient_scope.id.length ≤ MAX_PROVIDER_ADDR_LEN

theorem TransferOffer.read.reads :
    Reads TransferOffer.read TransferOffer.Fits TransferOffer.encode (fun d _ => d) := by
  unfold TransferOffer.read
  refine Reads.congr (MapBody.start (fun _ : TransferOffer => 9) (fun _ => by decide)
    fun m hm => MapBody.key (by simp [hm])
    fun m hm => MapBody.value TransferOffer.public_manifest_bytes
      (Reader.bytes.reads.map_err _) (fun _ => MapBody.key (by simp [hm])
    fun m hm => MapBody.value (fun o : TransferOffer => o.sealed_manifest.nonce)
      ((Reader.bytes_exact.reads (by decide)).map_err _) (fun _ => MapBody.key (by simp [hm])
    fun m hm => MapBody.value (fun o : TransferOffer => o.sealed_manifest.ciphertext)
      (Reader.bytes.reads.map_err _) (fun _ => MapBody.key (by simp [hm])
    fun m hm => MapBody.value TransferOffer.key_envelopes
      (Reader.array_of.reads KeyEnvelopeEntry.decode.reads) (fun _ => MapBody.key (by simp [hm])
    fun m hm => MapBody.value TransferOffer.providers
      (Reader.array_of.reads ProviderAddress.decode.reads) (fun _ => MapBody.key (by simp [hm])
    fun m hm => MapBody.value TransferOffer.sender_device
      (DevicePublic.decode.reads _) (fun _ => MapBody.key (by simp [hm])
    fun m hm => MapBody.value TransferOffer.recipient_scope
      decode_scope.reads (fun _ => MapBody.key (by simp [hm])
    fun m hm => MapBody.value (fun o : TransferOffer => o.auth_mode.to_u64)
      (Reader.uint.reads.map_err _) (fun mode => MapBody.value TransferOffer.auth_mode
      (AuthMode.from_u64.reads mode) (fun _ => MapBody.key (by simp [hm])
    fun m hm => MapBody.value TransferOffer.signature
      (HybridSignature.decode.reads _) (fun _ => MapBody.stop _ (Reads.pure _))
      ?_) ?_) ?mode) ?_) ?_) ?_) ?_) ?_) ?_) ?_) ?admits ?writes ?depth
  case admits =>
    intro d o
    constructor
    · intro h
      obtain ⟨h0, h1, -, h2, ⟨h3, h4, h5⟩, ⟨-, h6, h7⟩, -, ⟨-, h8⟩, -⟩ := h
      exact ⟨h3, h1, h2, h4, h5, h6, h7, h8⟩
    · intro ⟨h3, h1, h2, h4, h5, h6, h7, h8⟩
      exact ⟨Nat.lt_of_succ_lt h3, h1, trivial, h2, ⟨h3, h4, h5⟩, ⟨h3, h6, h7⟩, h3, ⟨h3, h8⟩,
        trivial, rfl, h3, rfl⟩
  case writes =>
    intro d o _
    simp [TransferOffer.encode, MapWriter, encode_envelopes, encode_providers]
  case depth =>
    intro d o _
    rfl
  case mode =>
    rintro d v o - ⟨h, -⟩
    exact h
  all_goals grind

/-! ## What the signature covers -/

namespace TransferOffer

/-- The binding hash of the offer. -/
def binding_hash (o : TransferOffer) : Arr 32 :=
  offer_binding_hash P o.key_envelopes o.providers o.sender_device o.auth_mode

/-- The input of the hash that the sender signs for an offer of `manifest`. -/
def preimage (o : TransferOffer) (manifest : PublicManifest) : Bytes :=
  offer_preimage P (manifest.commitment P) o.recipient_scope (o.binding_hash P)

/-- The BLAKE3 inputs of the check of an offer of `manifest`. -/
def hashed (o : TransferOffer) (manifest : PublicManifest) : List Bytes :=
  [COMMITMENT_DOMAIN ++ manifest.encode ++ manifest.private_manifest_ciphertext_hash.bytes,
    o.sealed_manifest.nonce.bytes ++ o.sealed_manifest.ciphertext,
    offer_binding o.key_envelopes o.providers o.sender_device o.auth_mode]

theorem verify.spec (o : TransferOffer) (scope : RecipientScope) (now : UInt64)
    (manifest : PublicManifest) :
    o.verify P scope now = .ok manifest ↔
      o.auth_mode = .StandaloneHybridSignature ∧ o.recipient_scope = scope ∧
        PublicManifest.decode o.public_manifest_bytes = .ok manifest ∧
        manifest.suite_id = SUITE_ID ∧
        manifest.private_manifest_ciphertext_hash = o.sealed_manifest.ciphertext_hash P ∧
        o.sender_device.hybrid_verify P (P.sha384 (o.preimage P manifest)).bytes o.signature ∧
        now < manifest.expires_at := by
  unfold verify
  simp only [bind_eq_ok, mapError_eq_ok, refuse_if_eq_ok, pure_eq_ok, verify_commitment_eq_ok,
    not_not, ne_eq, Bool.not_eq_true', Bool.not_eq_false, UInt64.not_le, ge_iff_le]
  constructor
  · rintro ⟨-, h1, -, h2, m, h3, -, h4, -, ⟨h5, -⟩, -, h6, -, h7, rfl⟩
    exact ⟨h1, h2, h3, h4, h5, h6, h7⟩
  · rintro ⟨h1, h2, h3, h4, h5, h6, h7⟩
    exact ⟨(), h1, (), h2, manifest, h3, (), h4, (), ⟨h5, trivial⟩, (), h6, (), h7, rfl⟩

theorem decode_eq_ok {bytes : Bytes} {o : TransferOffer} : decode bytes = .ok o ↔
    bytes.length ≤ MAX_CONTROL_SIZE ∧ o.Fits 0 ∧ bytes = o.encode ∧ o.key_envelopes ≠ [] := by
  have hread : ((Reader.new bytes).mapError from_cbor >>= Reader.read_all from_cbor read) =
      .ok o ↔ _ := Reader.new_read_all_eq_ok read.reads
  have hdecode : decode bytes = .ok o ↔
      ((Reader.new bytes).mapError from_cbor >>= Reader.read_all from_cbor read) = .ok o ∧
        o.key_envelopes ≠ [] := by
    unfold decode
    simp only [bind_eq_ok, refuse_if_eq_ok, pure_eq_ok]
    constructor
    · rintro ⟨r, hr, a, ha, -, henv, rfl⟩
      exact ⟨⟨r, hr, ha⟩, henv⟩
    · rintro ⟨⟨r, hr, ha⟩, henv⟩
      exact ⟨r, hr, o, ha, (), henv, rfl⟩
  rw [hdecode, hread, and_assoc, and_assoc]

theorem decode_fits {bytes : Bytes} {o : TransferOffer} (h : decode bytes = .ok o) : o.Fits 0 :=
  (decode_eq_ok.1 h).2.1

theorem decode_encode {o : TransferOffer} (hf : o.Fits 0) (henv : o.key_envelopes ≠ [])
    (hlen : o.encode.length ≤ MAX_CONTROL_SIZE) : decode o.encode = .ok o :=
  decode_eq_ok.2 ⟨hlen, hf, rfl, henv⟩

/-- The size of an offer with one envelope and one provider. -/
theorem length_encode_le {offer : TransferOffer} {env : KeyEnvelopeEntry} {p : ProviderAddress}
    (henv : offer.key_envelopes = [env]) (hprov : offer.providers = [p]) :
    offer.encode.length ≤ 6200 + offer.public_manifest_bytes.length +
      offer.sealed_manifest.ciphertext.length + env.ciphertext.length + p.address.length +
      offer.recipient_scope.id.length := by
  have hone : env.encode.length ≤ _ := length_mapWriter_le_of
    (.cons (length_bytes_le _) (.cons (length_bytes_le _) (.cons (length_bytes_le _) .nil)))
  have henvs : (encode_envelopes offer.key_envelopes).length ≤ 9 + env.encode.length := by
    rw [henv, encode_envelopes, List.length_append, List.flatMap_singleton]
    exact Nat.add_le_add_right (length_header_le _ _) _
  have haddr : p.encode.length ≤ _ :=
    length_mapWriter_le_of (.cons (length_uint_le _) (.cons (length_bytes_le _) .nil))
  have hprovs : (encode_providers offer.providers).length ≤ 9 + p.encode.length := by
    rw [hprov, encode_providers, List.length_append, List.flatMap_singleton]
    exact Nat.add_le_add_right (length_header_le _ _) _
  have hscope : (encode_scope offer.recipient_scope).length ≤ _ :=
    length_mapWriter_le_of (.cons (length_uint_le _) (.cons (length_bytes_le _) .nil))
  have hmap : offer.encode.length ≤ _ := length_mapWriter_le_of (.cons (length_bytes_le _)
    (.cons (length_bytes_le _) (.cons (length_bytes_le _) (.cons henvs (.cons hprovs
    (.cons (DevicePublic.length_encode_le _) (.cons hscope (.cons (length_uint_le _)
    (.cons (HybridSignature.length_encode_le _) .nil)))))))))
  simp only [Arr.length_bytes, List.map_cons, List.map_nil, List.sum_cons,
    List.sum_nil] at hmap hone haddr
  omega

/-- The binding hash covers the envelopes and the providers. -/
theorem offer_binding_inj {o o' : TransferOffer} (hf : o.Fits 0) (hf' : o'.Fits 0)
    (h : offer_binding o.key_envelopes o.providers o.sender_device o.auth_mode =
      offer_binding o'.key_envelopes o'.providers o'.sender_device o'.auth_mode) :
    o.key_envelopes = o'.key_envelopes ∧ o.providers = o'.providers := by
  simp only [offer_binding, MapWriter, List.append_assoc, List.append_cancel_left_eq,
    List.flatMap_cons, List.length_cons, List.length_nil] at h
  have hfits : ∀ {o : TransferOffer}, o.Fits 0 → 1 < MAX_DEPTH ∧
      o.key_envelopes.length ≤ MAX_ENVELOPES.toNat ∧
      ∀ e ∈ o.key_envelopes, 2 < MAX_DEPTH ∧ e.ciphertext.length < 2 ^ 64 :=
    fun hf => ⟨hf.depth, hf.envelopes_len, hf.envelopes⟩
  have hfits' : ∀ {o : TransferOffer}, o.Fits 0 → 1 < MAX_DEPTH ∧
      o.providers.length ≤ MAX_PROVIDERS.toNat ∧
      ∀ p ∈ o.providers, 2 < MAX_DEPTH ∧ p.address.length ≤ MAX_PROVIDER_ADDR_LEN :=
    fun hf => ⟨hf.depth, hf.providers_len, hf.providers⟩
  have henv : Reads (Reader.array_of from_cbor MAX_ENVELOPES .TooManyEnvelopes
    KeyEnvelopeEntry.decode) _ _ _ := Reader.array_of.reads KeyEnvelopeEntry.decode.reads
  have hprov : Reads (Reader.array_of from_cbor MAX_PROVIDERS .TooManyProviders
    ProviderAddress.decode) _ _ _ := Reader.array_of.reads ProviderAddress.decode.reads
  obtain ⟨h1, h⟩ := henv.writes_apart (hfits hf) (hfits hf') h
  rw [List.append_cancel_left_eq] at h
  exact ⟨h1, (hprov.writes_apart (hfits' hf) (hfits' hf') h).1⟩

/-- The signature is valid for one hash only. -/
def SignsOnce (o : TransferOffer) : Prop :=
  ∀ h h' : Arr 48, o.sender_device.hybrid_verify P h.bytes o.signature = true →
    o.sender_device.hybrid_verify P h'.bytes o.signature = true → h = h'

/-- What the two hashes cover is the same in two offers with the same
preimage. -/
theorem covered_eq {o o' : TransferOffer} {m m' : PublicManifest}
    (hblake : NoCollision P.blake3 (o.hashed m) (o'.hashed m')) (hm : m.InRange) (hm' : m'.InRange)
    (hf : o.Fits 0) (hf' : o'.Fits 0) (h : o.preimage P m = o'.preimage P m') :
    m = m' ∧ o.key_envelopes = o'.key_envelopes ∧ o.providers = o'.providers := by
  unfold preimage offer_preimage at h
  simp only [List.append_assoc, List.append_cancel_left_eq] at h
  obtain ⟨hcommit, h⟩ := arr_append_inj h
  obtain ⟨-, h⟩ := arr_append_inj h
  have hbinding := hblake _ (by simp [hashed]) _ (by simp [hashed]) (Arr.ext h)
  have hencode := hblake _ (by simp [hashed]) _ (by simp [hashed]) hcommit
  simp only [List.append_assoc, List.append_cancel_left_eq] at hencode
  exact ⟨(PublicManifest.encode_apart hm hm' hencode).1, offer_binding_inj hf hf' hbinding⟩

/-- Two texts of one manifest are equal if and only if the decoder drops the
same extension maps from them. -/
theorem manifest_bytes_eq_iff {b b' : Bytes} {m : PublicManifest}
    (h : PublicManifest.decode b = .ok m) (h' : PublicManifest.decode b' = .ok m) :
    b = b' ↔ PublicManifest.dropped b = PublicManifest.dropped b' := by
  obtain ⟨raw, hraw, hk, -⟩ := PublicManifest.decode_eq_ok.1 h
  obtain ⟨raw', hraw', hk', -⟩ := PublicManifest.decode_eq_ok.1 h'
  obtain ⟨-, -, hb⟩ := PublicManifest.read_raw_eq_ok.1 hraw
  obtain ⟨-, -, hb'⟩ := PublicManifest.read_raw_eq_ok.1 hraw'
  constructor
  · intro he
    rw [he]
  · intro hd
    unfold PublicManifest.dropped at hd
    rw [hraw, hraw'] at hd
    have heq : raw = raw' := RawManifest.eq_of_parts (hk.trans hk'.symm) (Option.some.inj hd)
    rw [hb, hb', heq]

/-- Two accepted offers under one signature agree in every field if and only
if their manifest bytes carry the same extension maps. -/
theorem offers_under_one_signature_agree_iff_they_carry_the_same_extensions
    {bytes bytes' : Bytes} {o o' : TransferOffer} {scope : RecipientScope} {now now' : UInt64}
    {m m' : PublicManifest} (hdec : decode bytes = .ok o) (hdec' : decode bytes' = .ok o')
    (hv : o.verify P scope now = .ok m) (hv' : o'.verify P scope now' = .ok m')
    (hdevice : o.sender_device = o'.sender_device) (hsig : o.signature = o'.signature)
    (honce : o.SignsOnce P) (hsha : NoCollision P.sha384 [o.preimage P m] [o'.preimage P m'])
    (hblake : NoCollision P.blake3 (o.hashed m) (o'.hashed m')) :
    (o.public_manifest_bytes = o'.public_manifest_bytes ∧
      o.sealed_manifest = o'.sealed_manifest ∧ o.key_envelopes = o'.key_envelopes ∧
      o.providers = o'.providers ∧ o.recipient_scope = o'.recipient_scope ∧
      o.auth_mode = o'.auth_mode) ↔
    PublicManifest.dropped o.public_manifest_bytes =
      PublicManifest.dropped o'.public_manifest_bytes := by
  obtain ⟨hauth, hscope, hman, -, hseal, hver, -⟩ := (verify.spec P o scope now m).1 hv
  obtain ⟨hauth', hscope', hman', -, hseal', hver', -⟩ := (verify.spec P o' scope now' m').1 hv'
  rw [← hdevice, ← hsig] at hver'
  have hpre := hsha _ List.mem_cons_self _ List.mem_cons_self (honce _ _ hver hver')
  obtain ⟨rfl, henv, hprov⟩ := covered_eq P hblake (PublicManifest.decoded_inRange hman)
    (PublicManifest.decoded_inRange hman') (decode_fits hdec) (decode_fits hdec') hpre
  have hsealed : o.sealed_manifest = o'.sealed_manifest := by
    have h := hblake _ (by simp [hashed]) _ (by simp [hashed]) (hseal.symm.trans hseal')
    obtain ⟨h1, h2⟩ := arr_append_inj h
    rcases hs : o.sealed_manifest with ⟨nonce, ciphertext⟩
    rcases hs' : o'.sealed_manifest with ⟨nonce', ciphertext'⟩
    rw [hs, hs'] at h1 h2
    simp only at h1 h2
    rw [h1, h2]
  rw [← manifest_bytes_eq_iff hman hman']
  exact ⟨fun h => h.1, fun h => ⟨h, hsealed, henv, hprov, hscope.trans hscope'.symm,
    hauth.trans hauth'.symm⟩⟩

/-! ## Two offers with one signature -/

/-- A manifest of one object with one chunk. -/
def sampleManifest : PublicManifest where
  protocol_minor := 0
  suite_id := 1
  transfer_id := .replicate 32 1
  created_at := 0
  expires_at := 10
  route_profile := 0
  objects := [⟨.replicate 32 2, 0, .replicate 32 3, 17, 65552, 1, 0⟩]
  private_manifest_ciphertext_hash := SealedManifest.ciphertext_hash sample ⟨.replicate 24 4, [5]⟩
  capability_scheme := 1

def sampleIdentity : DeviceIdentity := ⟨.replicate 32 6, .replicate 32 7, .replicate 32 8⟩

def sampleOffer (bytes : Bytes) (signature : HybridSignature) : TransferOffer where
  public_manifest_bytes := bytes
  sealed_manifest := ⟨.replicate 24 4, [5]⟩
  key_envelopes := [⟨.replicate 32 9, .replicate 24 10, [11]⟩]
  providers := [⟨0, [12]⟩]
  sender_device := sampleIdentity.public sample
  recipient_scope := ⟨0, [13]⟩
  auth_mode := .StandaloneHybridSignature
  signature := signature

/-- The signature over an offer of `sampleManifest`. -/
def sampleSignature : HybridSignature :=
  let unsigned := sampleOffer [] ⟨.replicate 64 0, .replicate _ 0⟩
  let hash := sample.sha384 (unsigned.preimage sample sampleManifest)
  (sampleIdentity.hybrid_sign sample hash.bytes (.replicate 32 0)).getD unsigned.signature

/-- The offer as it was signed. -/
def signedOffer : TransferOffer := sampleOffer sampleManifest.encode sampleSignature

/-- The same offer with an empty extension map put into its manifest. -/
def alteredOffer : TransferOffer :=
  sampleOffer { sampleManifest.bare with extension := some [] }.encode sampleSignature

theorem sampleOffer_fits {bytes : Bytes} (h : bytes.length < 2 ^ 64) (signature : HybridSignature) :
    (sampleOffer bytes signature).Fits 0 where
  depth := by decide
  manifest := h
  ciphertext := by simp [sampleOffer]
  envelopes_len := by simp [sampleOffer, MAX_ENVELOPES]
  envelopes := by simp [sampleOffer, MAX_DEPTH]
  providers_len := by simp [sampleOffer, MAX_PROVIDERS]
  providers := by simp [sampleOffer, MAX_DEPTH, MAX_PROVIDER_ADDR_LEN]
  scope := by simp [sampleOffer, MAX_PROVIDER_ADDR_LEN]

theorem sampleOffer_decodes {bytes : Bytes} (h : bytes.length ≤ 1000)
    (signature : HybridSignature) :
    decode (sampleOffer bytes signature).encode = .ok (sampleOffer bytes signature) := by
  have hsize : (sampleOffer bytes signature).encode.length ≤ _ := length_encode_le rfl rfl
  refine decode_encode (sampleOffer_fits (by omega) signature) (by simp [sampleOffer]) ?_
  simp only [sampleOffer, List.length_cons, List.length_nil] at hsize
  refine Nat.le_trans hsize ?_
  unfold MAX_CONTROL_SIZE
  omega

theorem sampleOffer_verify {bytes : Bytes} (h : PublicManifest.decode bytes = .ok sampleManifest) :
    (sampleOffer bytes sampleSignature).verify sample ⟨0, [13]⟩ 5 = .ok sampleManifest := by
  rw [verify.spec]
  refine ⟨rfl, rfl, h, rfl, rfl, ?_, by decide⟩
  exact DevicePublic.hybrid_verify_sample sampleIdentity _ (.replicate 32 0)
    ⟨.replicate 64 0, .replicate _ 0⟩

theorem sampleOffer_signsOnce (bytes : Bytes) (signature : HybridSignature) :
    (sampleOffer bytes signature).SignsOnce sample := by
  intro hash hash' h h'
  unfold DevicePublic.hybrid_verify at h h'
  simp only [Bool.and_eq_true, sample, decide_eq_true_eq] at h h'
  exact sample.sign_inj (h.1.symm.trans h'.1)

theorem signedOffer_accepted : decode signedOffer.encode = .ok signedOffer ∧
    signedOffer.verify sample ⟨0, [13]⟩ 5 = .ok sampleManifest := by
  refine ⟨sampleOffer_decodes ?_ _, sampleOffer_verify ?_⟩
  · decide +kernel
  · decide +kernel

theorem alteredOffer_accepted : decode alteredOffer.encode = .ok alteredOffer ∧
    alteredOffer.verify sample ⟨0, [13]⟩ 5 = .ok sampleManifest := by
  refine ⟨sampleOffer_decodes ?_ _, sampleOffer_verify ?_⟩
  · decide +kernel
  · decide +kernel

theorem alteredOffer_bytes :
    alteredOffer.public_manifest_bytes ≠ signedOffer.public_manifest_bytes := by
  decide +kernel

theorem the_altered_offer_carries_another_extension :
    PublicManifest.dropped signedOffer.public_manifest_bytes ≠
      PublicManifest.dropped alteredOffer.public_manifest_bytes := by
  intro hdropped
  have hagree := (offers_under_one_signature_agree_iff_they_carry_the_same_extensions sample
    signedOffer_accepted.1 alteredOffer_accepted.1 signedOffer_accepted.2 alteredOffer_accepted.2
    rfl rfl (sampleOffer_signsOnce _ _) ?_ ?_).2 hdropped
  · exact alteredOffer_bytes hagree.1.symm
  · intro x hx y hy _
    rw [List.mem_singleton.1 hx, List.mem_singleton.1 hy]
    rfl
  · decide +kernel

/-- A relay can put an extension map into the manifest of a signed offer. The
altered offer is decoded and accepted with the signature it had. -/
theorem an_extension_map_can_be_added_under_the_signature :
    decode signedOffer.encode = .ok signedOffer ∧ decode alteredOffer.encode = .ok alteredOffer ∧
      signedOffer.verify sample ⟨0, [13]⟩ 5 = .ok sampleManifest ∧
      alteredOffer.verify sample ⟨0, [13]⟩ 5 = .ok sampleManifest ∧
      alteredOffer.sender_device = signedOffer.sender_device ∧
      alteredOffer.signature = signedOffer.signature ∧
      alteredOffer.public_manifest_bytes ≠ signedOffer.public_manifest_bytes := by
  exact ⟨signedOffer_accepted.1, alteredOffer_accepted.1, signedOffer_accepted.2,
    alteredOffer_accepted.2, rfl, rfl, alteredOffer_bytes⟩

end TransferOffer

end rtp2_core.offer
