-- The offer between the two ends of a session: how the sender makes it, and
-- what the receiver checks before it asks for a chunk. The receiver ties the
-- offer to the peer of the session by the device id alone.
import Reyta.Announcement
import Reyta.Envelope
import Reyta.Handshake
import Reyta.OfferCreation
import Reyta.PrivateManifest
import Reyta.Sender

open byte_string exact_parse

namespace rtp2_core.transfer

open cbor crypto handshake identity keys manifest object offer

variable (P : Primitives)

/-! ## The sender -/

/-- What the sender draws for an offer. -/
structure OfferDraws where
  envelope_nonce : Arr 24
  manifest_nonce : Arr 24
  signature : Arr 32

/-- The private manifest of `send_pending`. -/
def private_manifest (identity : DeviceIdentity) (recipient_scope : RecipientScope)
    (pending : PendingTransfer) (file_name : String) (now : UInt64) : PrivateManifest where
  -- The device id stands in for the account.
  sender_account_id := identity.device_id
  sender_device_id := identity.device_id
  recipient_scope := recipient_scope
  display_name := file_name
  original_filename := file_name
  mime_type := "application/octet-stream"
  logical_plaintext_size := pending.ctx.logical_plaintext_size
  plaintext_digest := pending.plaintext_digest
  created_at := now
  user_caption := none
  objects := [⟨pending.secrets.object_id, ROLE_PRIMARY, 0⟩]
  key_policy := ⟨0, 1, true⟩
  retention_policy := ⟨now + ENVELOPE_TTL_SECS, false, true⟩

def KIND_SENDER_DEVICE : UInt64 := 0

/-- The offer of `send_pending`, from the envelope on. -/
def make_offer (identity : DeviceIdentity) (session : SessionKeys) (pending : PendingTransfer)
    (file_name : String) (local_endpoint_id : Arr 32) (now : UInt64) (draws : OfferDraws) :
    Except TransferError TransferOffer := do
  let envelope ← (seal_envelope P pending.secrets session.transfer_wrap_key now
    (now + ENVELOPE_TTL_SECS) identity.device_id session.peer.device_id
    draws.envelope_nonce).mapError fun _ => .Crypto "envelope"
  let recipient_scope := RecipientScope.device session.peer.device_id
  let sealed_manifest ← (seal_private_manifest P
    (private_manifest identity recipient_scope pending file_name now)
    pending.schedule.manifest_key pending.secrets.transfer_id pending.secrets.object_id
    draws.manifest_nonce).mapError fun _ => .Crypto "private manifest"
  let announced := public_manifest pending.secrets pending.ctx pending.ciphertext_root
    (sealed_manifest.ciphertext_hash P) now
  announced.validate.mapError fun _ => .Crypto "public manifest"
  (TransferOffer.create P identity announced sealed_manifest
    [⟨session.peer.device_id, envelope.nonce, envelope.ciphertext⟩]
    [⟨KIND_SENDER_DEVICE, local_endpoint_id.bytes⟩] recipient_scope draws.signature).mapError
    fun _ => .Crypto "transfer offer"

/-! ## The receiver -/

/-- What `receive_file` has when it asks for chunks. -/
structure Admitted where
  offer : TransferOffer
  /-- `public` in the source. -/
  announced : PublicManifest
  opened : OpenedEnvelope
  object_public : ObjectPublic
  /-- `private` in the source. -/
  disclosed : PrivateManifest
  ctx : ObjectContext
  identity_commitment : Arr 32

/-- The checks of `receive_file` on an offer, in their order. -/
def admit_offer (device_id : Arr 32) (session : SessionKeys) (now : UInt64) (offer_bytes : Bytes) :
    Except TransferError Admitted := do
  let offer ← (TransferOffer.decode offer_bytes).mapError fun _ => .Protocol "bad transfer offer"
  refuse_if (offer.sender_device.device_id ≠ session.peer.device_id)
    (.Crypto "offer signer is not the session peer")
  let recipient_scope := RecipientScope.device device_id
  let announced ← (offer.verify P recipient_scope now).mapError fun _ => .Crypto "transfer offer"
  let entry ← some_or (.Crypto "no key envelope for this device") (offer.envelope_for device_id)
  let opened ← (open_envelope_at P ⟨entry.nonce, entry.ciphertext⟩ session.transfer_wrap_key
    now).mapError fun _ => .Crypto "envelope"
  refuse_if (opened.sender_device_id ≠ session.peer.device_id ∨
    opened.recipient_device_id ≠ device_id) (.Crypto "envelope binding")
  refuse_if (announced.transfer_id ≠ opened.secrets.transfer_id)
    (.Crypto "manifest/envelope transfer id mismatch")
  let object_public ← some_or (.Protocol "no primary object") announced.primary
  refuse_if (object_public.object_id ≠ opened.secrets.object_id)
    (.Crypto "manifest/envelope object id mismatch")
  let schedule := opened.secrets.key_schedule P
  let disclosed ← (open_private_manifest P offer.sealed_manifest schedule.manifest_key
    opened.secrets.transfer_id opened.secrets.object_id session.peer.device_id
    recipient_scope).mapError fun _ => .Crypto "private manifest"
  -- A decoded private manifest has objects, so the first one is there.
  refuse_if (disclosed.objects.length ≠ announced.objects.length ∨
    disclosed.objects.head?.map ObjectPrivate.object_id ≠ some object_public.object_id ∨
    disclosed.objects.head?.map ObjectPrivate.object_role ≠ some object_public.object_role)
    (.Protocol "manifest object mismatch")
  let ctx ← rebuild_context opened.secrets object_public disclosed.logical_plaintext_size
  let identity_commitment ← (offer.manifest_commitment P).mapError fun _ => .Crypto "commitment"
  pure ⟨offer, announced, opened, object_public, disclosed, ctx, identity_commitment⟩

/-- What the checks establish. -/
structure Admits (device_id : Arr 32) (session : SessionKeys) (now : UInt64) (offer_bytes : Bytes)
    (a : Admitted) : Prop where
  decoded : TransferOffer.decode offer_bytes = .ok a.offer
  signer : a.offer.sender_device.device_id = session.peer.device_id
  verified : a.offer.verify P (.device device_id) now = .ok a.announced
  opened : ∃ entry, a.offer.envelope_for device_id = some entry ∧
    open_envelope_at P ⟨entry.nonce, entry.ciphertext⟩ session.transfer_wrap_key now = .ok a.opened
  envelope_sender : a.opened.sender_device_id = session.peer.device_id
  envelope_recipient : a.opened.recipient_device_id = device_id
  transfer_id : a.announced.transfer_id = a.opened.secrets.transfer_id
  primary : a.announced.primary = some a.object_public
  object_id : a.object_public.object_id = a.opened.secrets.object_id
  disclosed : open_private_manifest P a.offer.sealed_manifest
    (a.opened.secrets.key_schedule P).manifest_key a.opened.secrets.transfer_id
    a.opened.secrets.object_id session.peer.device_id (.device device_id) = .ok a.disclosed
  objects : a.disclosed.objects.length = a.announced.objects.length ∧
    a.disclosed.objects.head?.map ObjectPrivate.object_id = some a.object_public.object_id ∧
    a.disclosed.objects.head?.map ObjectPrivate.object_role = some a.object_public.object_role
  ctx : rebuild_context a.opened.secrets a.object_public a.disclosed.logical_plaintext_size =
    .ok a.ctx
  commitment : a.offer.manifest_commitment P = .ok a.identity_commitment

variable {P} {device_id : Arr 32} {session : SessionKeys} {now : UInt64} {offer_bytes : Bytes}
  {a : Admitted}

theorem admit_offer.spec :
    admit_offer P device_id session now offer_bytes = .ok a ↔
      Admits P device_id session now offer_bytes a := by
  unfold admit_offer
  simp only [bind_eq_ok, mapError_eq_ok, some_or_eq_ok, refuse_if_eq_ok, pure_eq_ok, not_or,
    not_not, ne_eq]
  constructor
  · rintro ⟨offer, hdec, -, hsigner, announced, hver, entry, hentry, opened, hopen, -,
      ⟨hsender, hrecipient⟩, -, htransfer, object, hprimary, -, hobject, disclosed, hdisc, -,
      hobjects, ctx, hctx, commitment, hcommit, rfl⟩
    exact ⟨hdec, hsigner, hver, ⟨entry, hentry, hopen⟩, hsender, hrecipient, htransfer, hprimary,
      hobject, hdisc, hobjects, hctx, hcommit⟩
  · rintro ⟨hdec, hsigner, hver, ⟨entry, hentry, hopen⟩, hsender, hrecipient, htransfer, hprimary,
      hobject, hdisc, hobjects, hctx, hcommit⟩
    exact ⟨a.offer, hdec, (), hsigner, a.announced, hver, entry, hentry, a.opened, hopen, (),
      ⟨hsender, hrecipient⟩, (), htransfer, a.object_public, hprimary, (), hobject, a.disclosed,
      hdisc, (), hobjects, a.ctx, hctx, a.identity_commitment, hcommit, rfl⟩

/-- What an admitted offer is bound to, apart from the keys of its signer. -/
structure Bound (P : Primitives) (device_id : Arr 32) (peer : DevicePublic) (a : Admitted) :
    Prop where
  /-- The bundle in the offer verified its signature. -/
  signed : a.offer.sender_device.hybrid_verify P
    (P.sha384 (a.offer.preimage P a.announced)).bytes a.offer.signature = true
  signer : a.offer.sender_device.device_id = peer.device_id
  envelope_sender : a.opened.sender_device_id = peer.device_id
  envelope_recipient : a.opened.recipient_device_id = device_id
  private_sender : a.disclosed.sender_device_id = peer.device_id
  private_recipient : a.disclosed.recipient_scope = .device device_id
  primary : a.announced.primary = some a.object_public
  transfer_id : a.announced.transfer_id = a.opened.secrets.transfer_id
  object_id : a.object_public.object_id = a.opened.secrets.object_id
  /-- The private manifest was sealed for the ids of the public one. -/
  sealed_for : ∃ plaintext, PrivateManifest.decode plaintext = .ok a.disclosed ∧
    P.encrypt (a.opened.secrets.key_schedule P).manifest_key a.offer.sealed_manifest.nonce
      (manifest_aad P a.announced.transfer_id a.object_public.object_id peer.device_id
        (.device device_id)) plaintext = some a.offer.sealed_manifest.ciphertext
  chunk_size : a.ctx.chunk_ciphertext_size = a.object_public.chunk_ciphertext_size
  chunk_count : a.ctx.chunk_count = a.object_public.chunk_count
  object_role : a.ctx.object_role = a.object_public.object_role
  padding_policy : a.ctx.padding_policy = a.object_public.padding_policy

theorem chunk_ciphertext_size_of_back {ctx : ObjectContext} {size : UInt64}
    (h : ObjectContext.chunk_plaintext_size_from_ciphertext size =
      some ctx.chunk_plaintext_size) : ctx.chunk_ciphertext_size = size := by
  unfold ObjectContext.chunk_plaintext_size_from_ciphertext at h
  split_ifs at h with htag hmax
  have hback : (size - .ofNat AEAD_TAG_LEN).toUInt32.toUInt64 = size - .ofNat AEAD_TAG_LEN := by
    rw [gt_iff_lt, UInt64.lt_iff_toNat_lt, Nat.not_lt] at hmax
    rw [← UInt64.toNat_inj, UInt32.toNat_toUInt64, UInt64.toNat_toUInt32]
    exact Nat.mod_eq_of_lt (Nat.lt_succ_of_le hmax)
  rw [ObjectContext.chunk_ciphertext_size, ← Option.some.inj h, hback, UInt64.sub_add_cancel]

theorem Admits.bound (hP : P.Authentic) (h : Admits P device_id session now offer_bytes a) :
    Bound P device_id session.peer a := by
  obtain ⟨plaintext, hdec, hdecode, hsender, hscope⟩ := open_private_manifest_eq_ok.1 h.disclosed
  obtain ⟨chunk_size, hback, hfile, hcount, hpad, hrole⟩ := rebuild_context_eq_ok.1 h.ctx
  obtain ⟨-, -, hctx⟩ := ObjectContext.for_file_eq_some.1 hfile
  obtain ⟨-, -, -, -, -, hsigned, -⟩ := (TransferOffer.verify.spec P _ _ _ _).1 h.verified
  have hsize : chunk_size = a.ctx.chunk_plaintext_size := by rw [← hctx]
  refine ⟨hsigned, h.signer, h.envelope_sender, h.envelope_recipient, hsender, hscope, h.primary,
    h.transfer_id, h.object_id, ⟨plaintext, hdecode, ?_⟩,
    chunk_ciphertext_size_of_back (hsize ▸ hback), hcount, hrole, hpad⟩
  rw [h.transfer_id, h.object_id]
  exact hP _ _ _ _ _ hdec

/-! ## An offer that the sender made is admitted -/

section Made

variable {identity : DeviceIdentity} {sender : SessionKeys} {pending : PendingTransfer}
  {file_name : String} {endpoint : Arr 32} {draws : OfferDraws} {offer : TransferOffer}

/-- The steps of `make_offer`. -/
structure Made (P : Primitives) (identity : DeviceIdentity) (sender : SessionKeys)
    (pending : PendingTransfer) (file_name : String) (endpoint : Arr 32) (now : UInt64)
    (draws : OfferDraws) (offer : TransferOffer) (envelope : SealedEnvelope)
    (sealed : SealedManifest) : Prop where
  envelope_sealed : seal_envelope P pending.secrets sender.transfer_wrap_key now
    (now + ENVELOPE_TTL_SECS) identity.device_id sender.peer.device_id draws.envelope_nonce =
      .ok envelope
  manifest_sealed : seal_private_manifest P
    (private_manifest identity (.device sender.peer.device_id) pending file_name now)
    pending.schedule.manifest_key pending.secrets.transfer_id pending.secrets.object_id
    draws.manifest_nonce = .ok sealed
  created : TransferOffer.Created P identity (public_manifest pending.secrets pending.ctx
      pending.ciphertext_root (sealed.ciphertext_hash P) now) sealed
    [⟨sender.peer.device_id, envelope.nonce, envelope.ciphertext⟩]
    [⟨KIND_SENDER_DEVICE, endpoint.bytes⟩] (.device sender.peer.device_id) draws.signature offer

/-- What the receiver has after the checks of an offer that was made. -/
def expected (P : Primitives) (identity : DeviceIdentity) (sender : SessionKeys)
    (pending : PendingTransfer) (file_name : String) (now : UInt64) (sealed : SealedManifest)
    (offer : TransferOffer) : Admitted where
  offer := offer
  announced := public_manifest pending.secrets pending.ctx pending.ciphertext_root
    (sealed.ciphertext_hash P) now
  opened := ⟨pending.secrets, SUITE_ID, now, now + ENVELOPE_TTL_SECS, identity.device_id,
    sender.peer.device_id⟩
  object_public := public_object pending.secrets pending.ctx pending.ciphertext_root
  disclosed := private_manifest identity (.device sender.peer.device_id) pending file_name now
  ctx := pending.ctx
  identity_commitment := (public_manifest pending.secrets pending.ctx pending.ciphertext_root
    (sealed.ciphertext_hash P) now).commitment P

theorem make_offer.spec (h : make_offer P identity sender pending file_name endpoint now draws =
    .ok offer) : ∃ envelope sealed,
      Made P identity sender pending file_name endpoint now draws offer envelope sealed := by
  unfold make_offer at h
  simp only [bind_eq_ok, mapError_eq_ok, TransferOffer.create.spec] at h
  obtain ⟨envelope, henv, sealed, hseal, -, -, hcreated⟩ := h
  exact ⟨envelope, sealed, henv, hseal, hcreated⟩

theorem length_private_body_le (hname : PrivateManifest.text_len file_name ≤ MAX_TEXT_LEN) :
    (private_manifest identity (.device sender.peer.device_id) pending file_name now).body.length ≤
      9000 := by
  have hbody := (private_manifest identity (.device sender.peer.device_id) pending file_name
    now).length_body_le
  have hmime : PrivateManifest.text_len "application/octet-stream" = 24 := by decide
  have hcaption : PrivateManifest.caption_len none = 0 := rfl
  simp only [private_manifest, hmime, hcaption, RecipientScope.device, Arr.length_bytes,
    List.length_singleton, MAX_TEXT_LEN] at hbody hname
  simp only [private_manifest, RecipientScope.device]
  omega

/-- The reader admits the private manifest of the sender. -/
theorem private_manifest_readable (hname : PrivateManifest.text_len file_name ≤ MAX_TEXT_LEN) :
    (private_manifest identity (.device sender.peer.device_id) pending file_name now).Readable := by
  have hrole : ROLE_PRIMARY ≤ ROLE_SIDECAR := by decide
  refine ⟨Nat.le_trans (length_private_body_le hname) (by decide), ?_, ?_⟩
  · simp [private_manifest, RecipientScope.device, MAX_TEXT_LEN]
  · simpa [private_manifest] using hrole

variable {envelope : SealedEnvelope} {sealed : SealedManifest}
  (h : Made P identity sender pending file_name endpoint now draws offer envelope sealed)
include h

theorem Made.name_le : PrivateManifest.text_len file_name ≤ MAX_TEXT_LEN := by
  obtain ⟨-, plaintext, c, hencode, -⟩ := seal_private_manifest_eq_ok.1 h.manifest_sealed
  exact (PrivateManifest.encode_eq_ok.1 hencode).1.1 file_name (by simp [private_manifest])

theorem Made.length_envelope (hE : P.Encrypts) : envelope.ciphertext.length ≤ 416 := by
  have hseal := h.envelope_sealed
  unfold seal_envelope seal_envelope_with_suite at hseal
  simp only [bind_eq_ok, some_or_eq_ok, pure_eq_ok] at hseal
  obtain ⟨c, hc, rfl⟩ := hseal
  have hbody := EnvelopeBody.length_encode_le ⟨pending.secrets, SUITE_ID.toUInt64, now,
    now + ENVELOPE_TTL_SECS, identity.device_id, sender.peer.device_id⟩
  have hlen := hE.length_eq (by omega) hc
  simp only
  omega

theorem Made.length_sealed (hE : P.Encrypts) : sealed.ciphertext.length ≤ 9016 := by
  have hname := h.name_le
  obtain ⟨-, plaintext, c, hencode, hc, rfl⟩ := seal_private_manifest_eq_ok.1 h.manifest_sealed
  obtain ⟨-, -, rfl⟩ := PrivateManifest.encode_eq_ok.1 hencode
  have hlen := hE.length_eq (Nat.lt_of_le_of_lt (length_private_body_le hname) (by decide)) hc
  exact hlen ▸ Nat.add_le_add_right (length_private_body_le hname) 16

theorem Made.length_encode (hE : P.Encrypts) : offer.encode.length ≤ 17000 := by
  have hoffer := h.created.offer_eq
  have henvelopes : offer.key_envelopes =
      [⟨sender.peer.device_id, envelope.nonce, envelope.ciphertext⟩] := by rw [hoffer]
  have hproviders : offer.providers = [⟨KIND_SENDER_DEVICE, endpoint.bytes⟩] := by rw [hoffer]
  have hscope : offer.recipient_scope = .device sender.peer.device_id := by rw [hoffer]
  have hsealed : offer.sealed_manifest = sealed := by rw [hoffer]
  have hmanifest : offer.public_manifest_bytes.length ≤ 500 := by
    rw [hoffer]
    exact PublicManifest.length_encode_le _
  have hlen := TransferOffer.length_encode_le henvelopes hproviders
  have henv := h.length_envelope hE
  have hseal := h.length_sealed hE
  simp only [hscope, hsealed, RecipientScope.device, Arr.length_bytes] at hlen
  omega

theorem Made.readable (hE : P.Encrypts) (hpad : pending.ctx.padding_policy ≤ PADDING_FIXED_BUCKET) :
    TransferOffer.Readable (public_manifest pending.secrets pending.ctx pending.ciphertext_root
      (sealed.ciphertext_hash P) now) offer := by
  have hoffer := h.created.offer_eq
  have hproviders : offer.providers = [⟨KIND_SENDER_DEVICE, endpoint.bytes⟩] := by rw [hoffer]
  have hscope : offer.recipient_scope = .device sender.peer.device_id := by rw [hoffer]
  have hlen := h.length_encode hE
  refine ⟨?_, ?_, ?_, public_manifest_inRange hpad⟩
  · unfold MAX_CONTROL_SIZE
    omega
  · simp [hproviders, MAX_PROVIDER_ADDR_LEN]
  · simp [hscope, RecipientScope.device, MAX_PROVIDER_ADDR_LEN]

/-- An offer is admitted at the other end of the session, whose peer need only
have the device id of the sender. -/
theorem Made.admitted (hD : P.Decrypts) (hE : P.Encrypts) (hV : DeviceIdentity.Verifies P)
    {file_size : UInt64} {chunk_size : UInt32}
    (hfile : ObjectContext.for_file pending.secrets.transfer_id pending.secrets.object_id file_size
      chunk_size = some pending.ctx)
    (hschedule : pending.schedule = pending.secrets.key_schedule P) {receiver : SessionKeys}
    (hkey : receiver.transfer_wrap_key = sender.transfer_wrap_key)
    (hpeer : receiver.peer.device_id = identity.device_id) {later : UInt64} (hlater : now ≤ later)
    (hexpires : later < now + ENVELOPE_TTL_SECS) :
    admit_offer P sender.peer.device_id receiver later offer.encode =
      .ok (expected P identity sender pending file_name now sealed offer) := by
  obtain ⟨-, -, hctx⟩ := ObjectContext.for_file_eq_some.1 hfile
  have hpad : pending.ctx.padding_policy ≤ PADDING_FIXED_BUCKET := by
    have hnone : PADDING_NONE ≤ PADDING_FIXED_BUCKET := by decide
    rw [← hctx]
    exact hnone
  have hreadable := h.readable hE hpad
  have hoffer := h.created.offer_eq
  have hrebuilt : rebuild_context pending.secrets (public_object pending.secrets pending.ctx
      pending.ciphertext_root) pending.ctx.logical_plaintext_size = .ok pending.ctx :=
    rebuild_public_object hfile
  have hopened := open_seal_envelope hD h.envelope_sealed hlater hexpires
  have hdisclosed := open_seal_private_manifest hD (private_manifest_readable h.name_le)
    h.manifest_sealed
  have hmanifest : PublicManifest.decode offer.public_manifest_bytes = .ok (public_manifest
      pending.secrets pending.ctx pending.ciphertext_root (sealed.ciphertext_hash P) now) :=
    ((TransferOffer.verify.spec P _ _ _ _).1 (h.created.verify hV hreadable hexpires)).2.2.1
  have hsealed : offer.sealed_manifest = sealed := by rw [hoffer]
  have hentry : offer.envelope_for sender.peer.device_id =
      some ⟨sender.peer.device_id, envelope.nonce, envelope.ciphertext⟩ := by
    rw [hoffer]
    simp [TransferOffer.envelope_for, ct_eq]
  have hcommit : offer.manifest_commitment P = .ok ((public_manifest pending.secrets pending.ctx
      pending.ciphertext_root (sealed.ciphertext_hash P) now).commitment P) := by
    rw [TransferOffer.manifest_commitment, hmanifest]
    rfl
  have hadmits : Admits P sender.peer.device_id receiver later offer.encode
      (expected P identity sender pending file_name now sealed offer) := {
    decoded := h.created.decode hreadable
    signer := by
      rw [hpeer, hoffer]
      rfl
    verified := h.created.verify hV hreadable hexpires
    opened := ⟨_, hentry, hkey ▸ hopened⟩
    envelope_sender := hpeer.symm
    envelope_recipient := rfl
    transfer_id := rfl
    primary := rfl
    object_id := rfl
    disclosed := by
      simp only [expected, hpeer, hsealed, ← hschedule]
      exact hdisclosed
    objects := ⟨rfl, rfl, rfl⟩
    ctx := hrebuilt
    commitment := hcommit }
  exact admit_offer.spec.2 hadmits

end Made

/-- The sender makes an offer for every prepared file with a short name. -/
theorem exists_made {identity : DeviceIdentity} {sender : SessionKeys} {pending : PendingTransfer}
    {file_name : String} {endpoint : Arr 32} {draws : OfferDraws} {file_size : UInt64}
    {chunk_size : UInt32} (hE : P.Encrypts)
    (hsign : ∀ hash, ∃ sig, identity.hybrid_sign P hash draws.signature = some sig)
    (hname : PrivateManifest.text_len file_name ≤ MAX_TEXT_LEN)
    (hfile : ObjectContext.for_file pending.secrets.transfer_id pending.secrets.object_id file_size
      chunk_size = some pending.ctx) (hnow : now.toNat + ENVELOPE_TTL_SECS.toNat < 2 ^ 64) :
    ∃ offer, make_offer P identity sender pending file_name endpoint now draws = .ok offer := by
  obtain ⟨hsize, -, hctx⟩ := ObjectContext.for_file_eq_some.1 hfile
  obtain ⟨envelope, henvelope⟩ := exists_seal_envelope hE pending.secrets sender.transfer_wrap_key
    now (now + ENVELOPE_TTL_SECS) identity.device_id sender.peer.device_id draws.envelope_nonce
  obtain ⟨sealed, hsealed⟩ : ∃ sealed, seal_private_manifest P
      (private_manifest identity (.device sender.peer.device_id) pending file_name now)
      pending.schedule.manifest_key pending.secrets.transfer_id pending.secrets.object_id
      draws.manifest_nonce = .ok sealed := by
    have hlt : (private_manifest identity (.device sender.peer.device_id) pending file_name
        now).body.length < 2 ^ 32 :=
      Nat.lt_of_le_of_lt (length_private_body_le hname) (by decide)
    obtain ⟨c, hc, -⟩ := hE pending.schedule.manifest_key draws.manifest_nonce
      (manifest_aad P pending.secrets.transfer_id pending.secrets.object_id identity.device_id
        (.device sender.peer.device_id)) _ hlt
    refine ⟨⟨draws.manifest_nonce, c⟩, seal_private_manifest_eq_ok.2 ⟨rfl, _, c,
      PrivateManifest.encode_eq_ok.2 ⟨⟨?_, ?_⟩, ?_, rfl⟩, hc, rfl⟩⟩
    · simp only [private_manifest, List.forall_mem_cons, List.not_mem_nil]
      exact ⟨hname, hname, by decide, by simp⟩
    · simp [private_manifest]
    · simp [private_manifest, MAX_OBJECTS]
  have hvalid : (public_manifest pending.secrets pending.ctx pending.ciphertext_root
      (sealed.ciphertext_hash P) now).validate = .ok () :=
    validate_public_manifest (ObjectContext.for_file_geometry hfile) (hctx ▸ hsize) hnow
  obtain ⟨offer, hoffer⟩ : ∃ offer, TransferOffer.create P identity _ sealed
      [⟨sender.peer.device_id, envelope.nonce, envelope.ciphertext⟩]
      [⟨KIND_SENDER_DEVICE, endpoint.bytes⟩] (.device sender.peer.device_id) draws.signature =
        .ok offer :=
    TransferOffer.exists_created hsign hvalid (List.cons_ne_nil _ _) (by simp [MAX_ENVELOPES])
      (by simp [MAX_PROVIDERS]) rfl
  unfold make_offer
  simp only [bind_eq_ok, mapError_eq_ok]
  exact ⟨offer, envelope, henvelope, sealed, hsealed, (), hvalid, hoffer⟩

/-! ## One device id, two pairs of keys -/

/-- A device with the keys of `seed`. -/
def deviceOf (seed : UInt8) : DeviceIdentity :=
  ⟨.replicate 32 6, .replicate 32 seed, .replicate 32 seed⟩

/-- A session with `peer`. -/
def sessionWith (peer : DevicePublic) : SessionKeys where
  role := .Responder
  handshake_prk := .replicate 48 0
  th2 := .replicate 48 1
  control_key_c2s := .replicate 32 2
  control_key_s2c := .replicate 32 3
  transfer_wrap_key := .replicate 32 4
  session_resumption_secret := .replicate 48 5
  peer := peer
  peer_endpoint_id := .replicate 32 7

/-- The recipient. -/
def recipientDevice : DeviceIdentity := ⟨.replicate 32 9, .replicate 32 10, .replicate 32 11⟩

def emptySecrets : FileSecrets :=
  ⟨.replicate 32 12, .replicate 32 13, .replicate 32 14, .replicate 32 15⟩

/-- An empty file, prepared. -/
def emptyPending : PendingTransfer where
  secrets := emptySecrets
  ctx := ⟨.replicate 32 12, .replicate 32 13, 0, 0, 65536, 0, PADDING_NONE, ROLE_PRIMARY⟩
  ctx_hash := .replicate 32 0
  schedule := emptySecrets.key_schedule sample
  leaves := []
  ciphertext_root := .replicate 32 0
  plaintext_digest := .replicate 32 0
  cache := .new 0 0

/-- The offer of a file by `deviceOf seed`. -/
def offerOf (seed : UInt8) : Except TransferError TransferOffer :=
  make_offer sample (deviceOf seed) (sessionWith (recipientDevice.public sample)) emptyPending
    "a.txt" (.replicate 32 7) 100 ⟨.replicate 24 16, .replicate 24 17, .replicate 32 18⟩

/-- It is admitted in the session of any device with the same id. -/
theorem offerOf_admitted (seed peer : UInt8) : ∃ offer a, offerOf seed = .ok offer ∧
    admit_offer sample recipientDevice.device_id (sessionWith ((deviceOf peer).public sample)) 101
      offer.encode = .ok a ∧ a.offer.sender_device = (deviceOf seed).public sample := by
  have hfile : ObjectContext.for_file emptyPending.secrets.transfer_id
      emptyPending.secrets.object_id 0 65536 = some emptyPending.ctx := by decide
  obtain ⟨offer, hoffer⟩ : ∃ offer, offerOf seed = .ok offer :=
    exists_made sample_encrypts (TransferOffer.sample_signs (deviceOf seed) (.replicate 32 18))
      (by decide) hfile (by decide)
  obtain ⟨envelope, sealed, hmade⟩ := make_offer.spec hoffer
  have hok : admit_offer sample recipientDevice.device_id
      (sessionWith ((deviceOf peer).public sample)) 101 offer.encode = .ok _ :=
    hmade.admitted sample_decrypts sample_encrypts DeviceIdentity.sample_verifies hfile rfl
      (by rfl) (by rfl) (by decide) (by decide)
  refine ⟨offer, _, hoffer, hok, ?_⟩
  have hdevice : offer.sender_device = (deviceOf seed).public sample := by
    rw [hmade.created.offer_eq]
  exact hdevice

/-- An admitted offer is bound to the session in every respect but one: its
signer has the device id of the peer. It is the peer if and only if it has both
of its keys. -/
theorem the_signer_of_an_admitted_offer_is_the_peer_iff_it_has_its_keys (hP : P.Authentic)
    (h : admit_offer P device_id session now offer_bytes = .ok a) :
    Bound P device_id session.peer a ∧
      (a.offer.sender_device = session.peer ↔
        a.offer.sender_device.ed25519 = session.peer.ed25519 ∧
          a.offer.sender_device.mldsa = session.peer.mldsa) := by
  have hadmits := admit_offer.spec.1 h
  refine ⟨hadmits.bound hP, ?_⟩
  constructor
  · intro heq
    rw [heq]
    exact ⟨rfl, rfl⟩
  · rintro ⟨hed, hml⟩
    rcases hd : a.offer.sender_device with ⟨id, ed, ml⟩
    rcases hp : session.peer with ⟨id', ed', ml'⟩
    have hid := hadmits.signer
    rw [hd, hp] at hid hed hml
    simp only at hid hed hml
    rw [hid, hed, hml]

theorem an_offer_of_the_peer_is_admitted : ∃ offer a, offerOf 1 = .ok offer ∧
    admit_offer sample recipientDevice.device_id (sessionWith ((deviceOf 1).public sample)) 101
      offer.encode = .ok a ∧
    Bound sample recipientDevice.device_id ((deviceOf 1).public sample) a ∧
    a.offer.sender_device = (deviceOf 1).public sample := by
  obtain ⟨offer, a, hoffer, hok, hdevice⟩ := offerOf_admitted 1 1
  obtain ⟨hbound, hpeer⟩ :=
    the_signer_of_an_admitted_offer_is_the_peer_iff_it_has_its_keys sample_authentic hok
  refine ⟨offer, a, hoffer, hok, hbound, hpeer.2 ⟨?_, ?_⟩⟩
  · exact congrArg DevicePublic.ed25519 hdevice
  · exact congrArg DevicePublic.mldsa hdevice

/-- The peer of a session can send an offer that is signed with other keys than
those it authenticated with. -/
theorem an_offer_under_other_keys_is_admitted : ∃ offer a, offerOf 2 = .ok offer ∧
    admit_offer sample recipientDevice.device_id (sessionWith ((deviceOf 1).public sample)) 101
      offer.encode = .ok a ∧
    a.offer.sender_device ≠ (deviceOf 1).public sample := by
  obtain ⟨offer, a, hoffer, hok, hdevice⟩ := offerOf_admitted 2 1
  refine ⟨offer, a, hoffer, hok, ?_⟩
  intro hpeer
  have hkeys := congrArg DevicePublic.ed25519 (hdevice.symm.trans hpeer)
  revert hkeys
  decide

end rtp2_core.transfer
