-- How an offer is made. `create` checks the counts, the manifest and the
-- commitment; the reader also bounds the addresses, the scope, the total size
-- and the values of the manifest. An offer that is signed within all of these
-- is read back and accepted until it expires.
import Reyta.Offer

open byte_string exact_parse

namespace rtp2_core.identity

open crypto

/-- A signature that was made is valid under the bundle of its maker. -/
def DeviceIdentity.Verifies (P : Primitives) : Prop :=
  ∀ (identity : DeviceIdentity) (hash : Arr 48) (random : Arr 32) (sig : HybridSignature),
    identity.hybrid_sign P hash.bytes random = some sig →
      (identity.public P).hybrid_verify P hash.bytes sig = true

theorem DeviceIdentity.sample_verifies : DeviceIdentity.Verifies sample := by
  intro identity hash random sig h
  have hverify := DevicePublic.hybrid_verify_sample identity hash.bytes random sig
  rw [h] at hverify
  exact hverify

end rtp2_core.identity

namespace rtp2_core.offer.TransferOffer

open cbor crypto identity manifest
open OfferError (from_manifest)

variable (P : Primitives)

/-- Builds and signs an offer. `random` is what the signature draws. -/
def create (identity : DeviceIdentity) (manifest : PublicManifest)
    (sealed_manifest : SealedManifest) (key_envelopes : List KeyEnvelopeEntry)
    (providers : List ProviderAddress) (recipient_scope : RecipientScope) (random : Arr 32) :
    Except OfferError TransferOffer := do
  manifest.validate.mapError from_manifest
  refuse_if (key_envelopes = []) .NoEnvelope
  refuse_if (key_envelopes.length > MAX_ENVELOPES.toNat) .TooManyEnvelopes
  refuse_if (providers.length > MAX_PROVIDERS.toNat) .TooManyProviders
  (verify_commitment P manifest sealed_manifest (manifest.commitment P)).mapError from_manifest
  let sender_device := identity.public P
  let auth_mode := AuthMode.StandaloneHybridSignature
  let binding := offer_binding_hash P key_envelopes providers sender_device auth_mode
  let hash := offer_signing_hash P (manifest.commitment P) recipient_scope binding
  match identity.hybrid_sign P hash.bytes random with
  | none => .error .InvalidSignature
  | some signature =>
    pure ⟨manifest.encode, sealed_manifest, key_envelopes, providers, sender_device,
      recipient_scope, auth_mode, signature⟩

variable {P} {identity : DeviceIdentity} {manifest : PublicManifest}
  {sealed_manifest : SealedManifest} {key_envelopes : List KeyEnvelopeEntry}
  {providers : List ProviderAddress} {recipient_scope : RecipientScope} {random : Arr 32}
  {offer : TransferOffer}

/-- What an offer that was created is like. -/
structure Created (P : Primitives) (identity : DeviceIdentity) (manifest : PublicManifest)
    (sealed_manifest : SealedManifest) (key_envelopes : List KeyEnvelopeEntry)
    (providers : List ProviderAddress) (recipient_scope : RecipientScope) (random : Arr 32)
    (offer : TransferOffer) : Prop where
  valid : manifest.validate = .ok ()
  envelopes_ne : key_envelopes ≠ []
  envelopes_len : key_envelopes.length ≤ MAX_ENVELOPES.toNat
  providers_len : providers.length ≤ MAX_PROVIDERS.toNat
  committed : manifest.private_manifest_ciphertext_hash = sealed_manifest.ciphertext_hash P
  signs : identity.hybrid_sign P (P.sha384 (offer.preimage P manifest)).bytes random =
    some offer.signature
  offer_eq : offer = ⟨manifest.encode, sealed_manifest, key_envelopes, providers,
    identity.public P, recipient_scope, .StandaloneHybridSignature, offer.signature⟩

theorem create.spec : create P identity manifest sealed_manifest key_envelopes providers
      recipient_scope random = .ok offer ↔
    Created P identity manifest sealed_manifest key_envelopes providers recipient_scope random
      offer := by
  unfold create
  simp only [bind_eq_ok, mapError_eq_ok, refuse_if_eq_ok, verify_commitment_eq_ok, gt_iff_lt,
    Nat.not_lt, and_true]
  constructor
  · rintro ⟨u, hvalid, -, hne, -, henv, -, hprov, -, hcommit, h⟩
    split at h
    · cases h
    · next signature hsign =>
      cases h
      exact ⟨hvalid, hne, henv, hprov, hcommit, hsign, rfl⟩
  · rintro ⟨hvalid, hne, henv, hprov, hcommit, hsign, hoffer⟩
    refine ⟨(), hvalid, (), hne, (), henv, (), hprov, (), hcommit, ?_⟩
    generalize offer.signature = signature at hsign hoffer
    subst hoffer
    unfold preimage binding_hash at hsign
    unfold offer_signing_hash
    rw [hsign]
    rfl

/-- The bounds that the reader has and `create` does not check. -/
structure Readable (manifest : PublicManifest) (offer : TransferOffer) : Prop where
  size : offer.encode.length ≤ MAX_CONTROL_SIZE
  addresses : ∀ p ∈ offer.providers, p.address.length ≤ MAX_PROVIDER_ADDR_LEN
  scope : offer.recipient_scope.id.length ≤ MAX_PROVIDER_ADDR_LEN
  in_range : manifest.InRange

section Sizes

variable (hsize : offer.encode.length ≤ MAX_CONTROL_SIZE)
include hsize

/-- The parts of an offer are no longer than the offer. -/
theorem length_manifest_le : offer.public_manifest_bytes.length ≤ MAX_CONTROL_SIZE := by
  have hpart := length_le_bytes offer.public_manifest_bytes
  have hmap : (Writer.bytes offer.public_manifest_bytes).length ≤ offer.encode.length :=
    length_le_mapWriter (e := (0, Writer.bytes offer.public_manifest_bytes)) (by simp)
  omega

theorem length_ciphertext_le : offer.sealed_manifest.ciphertext.length ≤ MAX_CONTROL_SIZE := by
  have hpart := length_le_bytes offer.sealed_manifest.ciphertext
  have hmap : (Writer.bytes offer.sealed_manifest.ciphertext).length ≤ offer.encode.length :=
    length_le_mapWriter (e := (2, Writer.bytes offer.sealed_manifest.ciphertext)) (by simp)
  omega

theorem length_envelope_le {env : KeyEnvelopeEntry} (h : env ∈ offer.key_envelopes) :
    env.ciphertext.length ≤ MAX_CONTROL_SIZE := by
  have hpart := length_le_bytes env.ciphertext
  have henv : (Writer.bytes env.ciphertext).length ≤ env.encode.length :=
    length_le_mapWriter (e := (2, Writer.bytes env.ciphertext)) (by simp)
  have harray : env.encode.length ≤ (encode_envelopes offer.key_envelopes).length := by
    have hsub := (List.sublist_flatten_of_mem
      (List.mem_map_of_mem (f := KeyEnvelopeEntry.encode) h)).length_le
    rw [encode_envelopes, List.length_append, List.flatMap]
    omega
  have hmap : (encode_envelopes offer.key_envelopes).length ≤ offer.encode.length :=
    length_le_mapWriter (e := (3, encode_envelopes offer.key_envelopes)) (by simp)
  omega

end Sizes

theorem Created.fits (h : Created P identity manifest sealed_manifest key_envelopes providers
      recipient_scope random offer) (hr : Readable manifest offer) : offer.Fits 0 := by
  have hbound : MAX_CONTROL_SIZE < 2 ^ 64 := by decide
  have henv : offer.key_envelopes = key_envelopes := by rw [h.offer_eq]
  have hprov : offer.providers = providers := by rw [h.offer_eq]
  exact {
    depth := by decide
    manifest := Nat.lt_of_le_of_lt (length_manifest_le hr.size) hbound
    ciphertext := Nat.lt_of_le_of_lt (length_ciphertext_le hr.size) hbound
    envelopes_len := henv ▸ h.envelopes_len
    envelopes := fun e he =>
      ⟨by decide, Nat.lt_of_le_of_lt (length_envelope_le hr.size he) hbound⟩
    providers_len := hprov ▸ h.providers_len
    providers := fun p hp => ⟨by decide, hr.addresses p hp⟩
    scope := hr.scope }

theorem Created.decode (h : Created P identity manifest sealed_manifest key_envelopes providers
      recipient_scope random offer) (hr : Readable manifest offer) :
    decode offer.encode = .ok offer := by
  have hne : offer.key_envelopes ≠ [] := by
    rw [h.offer_eq]
    exact h.envelopes_ne
  exact decode_encode (h.fits hr) hne hr.size

theorem Created.verify (hP : DeviceIdentity.Verifies P)
    (h : Created P identity manifest sealed_manifest key_envelopes providers recipient_scope random
      offer) (hr : Readable manifest offer) {now : UInt64} (hnow : now < manifest.expires_at) :
    offer.verify P recipient_scope now = .ok manifest := by
  have hmanifest : offer.public_manifest_bytes = manifest.encode := by rw [h.offer_eq]
  have hlen : manifest.encode.length ≤ MAX_CONTROL_SIZE :=
    hmanifest ▸ length_manifest_le hr.size
  have hverify := hP _ _ _ _ h.signs
  rw [verify.spec, hmanifest]
  refine ⟨?_, ?_, PublicManifest.decode_encode hr.in_range h.valid hlen, hr.in_range.1, ?_, ?_,
    hnow⟩
  · rw [h.offer_eq]
  · rw [h.offer_eq]
  · rw [h.offer_eq]
    exact h.committed
  · have hdevice : offer.sender_device = identity.public P := by rw [h.offer_eq]
    rw [hdevice]
    exact hverify

/-- An offer that `create` signs is read back and accepted until it expires if
and only if it keeps the bounds of the reader. -/
theorem a_created_offer_is_accepted_iff_it_is_readable (hP : DeviceIdentity.Verifies P)
    (h : create P identity manifest sealed_manifest key_envelopes providers recipient_scope random =
      .ok offer) :
    (TransferOffer.decode offer.encode = .ok offer ∧
      ∀ now < manifest.expires_at, offer.verify P recipient_scope now = .ok manifest) ↔
    Readable manifest offer := by
  have hcreated := create.spec.1 h
  constructor
  · rintro ⟨hdecode, hverify⟩
    obtain ⟨hlen, hfits, -⟩ := decode_eq_ok.1 hdecode
    obtain ⟨-, hexpires, -⟩ := PublicManifest.validate_eq_ok.1 hcreated.valid
    have hnow : 0 < manifest.expires_at := Std.lt_of_le_of_lt UInt64.zero_le hexpires
    obtain ⟨-, -, hmanifest, -⟩ := (verify.spec P _ _ _ _).1 (hverify 0 hnow)
    exact ⟨hlen, fun p hp => (hfits.providers p hp).2, hfits.scope,
      PublicManifest.decoded_inRange hmanifest⟩
  · intro hr
    exact ⟨hcreated.decode hr, fun now hnow => hcreated.verify hP hr hnow⟩

/-- What passes the checks is signed. -/
theorem exists_created (hsign : ∀ hash, ∃ sig, identity.hybrid_sign P hash random = some sig)
    (hvalid : manifest.validate = .ok ()) (hne : key_envelopes ≠ [])
    (henv : key_envelopes.length ≤ MAX_ENVELOPES.toNat)
    (hprov : providers.length ≤ MAX_PROVIDERS.toNat)
    (hcommit : manifest.private_manifest_ciphertext_hash = sealed_manifest.ciphertext_hash P) :
    ∃ offer, create P identity manifest sealed_manifest key_envelopes providers recipient_scope
      random = .ok offer := by
  obtain ⟨sig, hsig⟩ := hsign (offer_signing_hash P (manifest.commitment P) recipient_scope
    (offer_binding_hash P key_envelopes providers (identity.public P)
      .StandaloneHybridSignature)).bytes
  refine ⟨⟨manifest.encode, sealed_manifest, key_envelopes, providers, identity.public P,
    recipient_scope, .StandaloneHybridSignature, sig⟩, create.spec.2 ?_⟩
  exact ⟨hvalid, hne, henv, hprov, hcommit, hsig, rfl⟩

theorem sample_signs (identity : DeviceIdentity) (random : Arr 32) (hash : Bytes) :
    ∃ sig, identity.hybrid_sign sample hash random = some sig :=
  ⟨_, DeviceIdentity.hybrid_sign_sample identity hash random ⟨.replicate 64 0, .replicate _ 0⟩⟩

/-- An offer of one object under the suite `suite_id`. -/
def createUnder (suite_id : UInt16) : Except OfferError TransferOffer :=
  create sample sampleIdentity { sampleManifest with suite_id := suite_id }
    ⟨.replicate 24 4, [5]⟩ [⟨.replicate 32 9, .replicate 24 10, [11]⟩] [⟨0, [12]⟩] ⟨0, [13]⟩
    (.replicate 32 0)

theorem createUnder_created (suite_id : UInt16) : ∃ offer, createUnder suite_id = .ok offer := by
  have hvalid : sampleManifest.validate = .ok () := by decide +kernel
  refine exists_created (sample_signs _ _) ?_ (by simp) (by simp [MAX_ENVELOPES])
    (by simp [MAX_PROVIDERS]) rfl
  rw [PublicManifest.validate_eq_ok] at hvalid ⊢
  exact hvalid

/-- Under the suite of the reader it is within the bounds. -/
theorem createUnder_readable {offer : TransferOffer} (h : createUnder SUITE_ID = .ok offer) :
    Readable sampleManifest offer := by
  have hoffer := (create.spec.1 h).offer_eq
  have henv : offer.key_envelopes = [⟨.replicate 32 9, .replicate 24 10, [11]⟩] := by rw [hoffer]
  have hprov : offer.providers = [⟨0, [12]⟩] := by rw [hoffer]
  have hscope : offer.recipient_scope = ⟨0, [13]⟩ := by rw [hoffer]
  have hbytes : offer.public_manifest_bytes = sampleManifest.encode := by
    rw [hoffer]
    rfl
  have hmanifest : sampleManifest.encode.length ≤ 1000 := by decide +kernel
  have hsealed : offer.sealed_manifest.ciphertext.length = 1 := by
    rw [hoffer]
    rfl
  refine ⟨?_, ?_, ?_, ?_⟩
  · have hsize := length_encode_le henv hprov
    rw [hscope, hbytes] at hsize
    simp only [List.length_singleton] at hsize
    unfold MAX_CONTROL_SIZE
    omega
  · rw [hprov]
    decide
  · rw [hscope]
    decide
  · have hdecode : PublicManifest.decode sampleManifest.encode = .ok sampleManifest := by
      decide +kernel
    exact PublicManifest.decoded_inRange hdecode

theorem an_offer_under_the_suite_is_accepted : ∃ offer, createUnder SUITE_ID = .ok offer ∧
    TransferOffer.decode offer.encode = .ok offer ∧
    ∀ now < sampleManifest.expires_at, offer.verify sample ⟨0, [13]⟩ now = .ok sampleManifest := by
  obtain ⟨offer, h⟩ := createUnder_created SUITE_ID
  exact ⟨offer, h, (a_created_offer_is_accepted_iff_it_is_readable DeviceIdentity.sample_verifies
    h).2 (createUnder_readable h)⟩

/-- An offer under another suite is signed, and every recipient refuses it. -/
theorem an_offer_under_another_suite_is_signed_and_refused :
    ∃ offer, createUnder 2 = .ok offer ∧
      ∀ scope now m, offer.verify sample scope now ≠ .ok m := by
  obtain ⟨offer, h⟩ := createUnder_created 2
  refine ⟨offer, h, ?_⟩
  intro scope now m hverify
  have hbytes : offer.public_manifest_bytes = { sampleManifest with suite_id := 2 }.encode := by
    rw [(create.spec.1 h).offer_eq]
  obtain ⟨-, -, hdecode, -⟩ := (verify.spec _ _ _ _ _).1 hverify
  have hrefused : PublicManifest.decode { sampleManifest with suite_id := 2 }.encode =
      .error .UnsupportedSuite := by decide +kernel
  rw [hbytes, hrefused] at hdecode
  cases hdecode

end rtp2_core.offer.TransferOffer
