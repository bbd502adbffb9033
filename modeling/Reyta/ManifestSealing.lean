-- Private manifests there and back. The writer and the reader check different
-- limits: a manifest can be sealed that is not opened again, for its scope or
-- for the role of an object, and one can be decoded that is not encoded again,
-- for its texts. Within the limits of both sides nothing is lost, and what is
-- sealed is opened under its own names only.
import Reyta.IdealCipher
import Reyta.PrivateManifest

open byte_string exact_parse

namespace rtp2_core.manifest

open cbor crypto object

namespace PrivateManifest

/-! ## Limits -/

/-- The scope and the roles are within the limits of the reader. -/
def ScopeAndRolesFit (m : PrivateManifest) : Prop :=
  m.recipient_scope.id.length ≤ MAX_TEXT_LEN ∧ ∀ o ∈ m.objects, o.object_role ≤ ROLE_SIDECAR

theorem decoded_limits {bytes : Bytes} {m : PrivateManifest} (h : decode bytes = .ok m) :
    m.ScopeAndRolesFit ∧ m.objects.length ≤ MAX_OBJECTS.toNat ∧ m.validate = .ok () := by
  obtain ⟨raw, -, hfits, -, rfl, hvalid⟩ := decode_eq_ok.1 h
  refine ⟨⟨hfits.scope, ?_⟩, ?_, hvalid⟩
  · intro o ho
    obtain ⟨r, hr, rfl⟩ := List.mem_map.1 ho
    exact (hfits.tail.objects r hr).2.1
  · rw [RawPrivate.kept, List.length_map]
    exact hfits.tail.objects_len

/-- Within all limits the encoding is not too long for the reader. -/
theorem readable_of_fit {m : PrivateManifest} {bytes : Bytes} (hencode : m.encode = .ok bytes)
    (hfit : m.ScopeAndRolesFit) : m.Readable := by
  obtain ⟨⟨htexts, hcaption⟩, hobjects, -⟩ := encode_eq_ok.1 hencode
  have hlen := length_body_le m
  have hname := htexts m.display_name (by simp)
  have hfile := htexts m.original_filename (by simp)
  have hmime := htexts m.mime_type (by simp)
  have hscope := hfit.1
  have hcap : caption_len m.user_caption ≤ MAX_TEXT_LEN := by
    rcases hc : m.user_caption with _ | caption
    · exact Nat.zero_le _
    · exact hcaption caption hc
  change m.objects.length ≤ 1024 at hobjects
  refine ⟨?_, hfit.1, hfit.2⟩
  unfold MAX_TEXT_LEN at *
  unfold MAX_CONTROL_SIZE
  omega

/-- A manifest that was decoded has few objects. It is encoded and read back
exactly if its texts are no longer than the writer allows, which the reader
does not check. -/
theorem a_decoded_manifest_is_read_back_iff_its_texts_fit (b : Bytes) (m : PrivateManifest)
    (h : decode b = .ok m) :
    m.objects.length ≤ MAX_OBJECTS.toNat ∧
      ((∃ bytes, m.encode = .ok bytes ∧ decode bytes = .ok m) ↔ m.TextsFit) := by
  obtain ⟨hfit, hobjects, hvalid⟩ := decoded_limits h
  refine ⟨hobjects, ?_, ?_⟩
  · rintro ⟨bytes, hencode, -⟩
    exact (encode_eq_ok.1 hencode).1
  · intro htexts
    have hencode : m.encode = .ok m.body := encode_eq_ok.2 ⟨htexts, hobjects, rfl⟩
    exact ⟨m.body, hencode, decode_encode hvalid hencode (readable_of_fit hencode hfit)⟩

/-- A manifest of two objects, with a name and the role of the second. -/
def named (display_name : String) (object_role : UInt8) : PrivateManifest where
  sender_account_id := .replicate 32 1
  sender_device_id := .replicate 32 2
  recipient_scope := .device (.replicate 32 3)
  display_name := display_name
  original_filename := "a"
  mime_type := "b"
  logical_plaintext_size := 0
  plaintext_digest := .replicate 32 4
  created_at := 5
  user_caption := some "c"
  objects := [⟨.replicate 32 6, 0, 0⟩, ⟨.replicate 32 7, object_role, 1⟩]
  key_policy := ⟨0, 1, true⟩
  retention_policy := ⟨0, false, true⟩

theorem a_manifest_with_a_short_name_is_read_back :
    ∃ bytes, (named "d" 5).encode = .ok bytes ∧ decode bytes = .ok (named "d" 5) :=
  (a_decoded_manifest_is_read_back_iff_its_texts_fit (named "d" 5).body (named "d" 5)
    (by decide +kernel)).2.2 ⟨by decide, by decide⟩

theorem text_len_replicate (n : Nat) : text_len (String.ofList (List.replicate n 'a')) = n := by
  have hchar : String.utf8EncodeChar 'a' = [97] := rfl
  unfold text_len Writer.as_bytes
  rw [String.toByteArray_ofList, List.utf8Encode, List.data_toByteArray, List.toList_toArray,
    List.length_flatMap, List.map_replicate, hchar, List.sum_replicate_nat]
  exact Nat.mul_one n

/-- The reader takes a long name. -/
theorem decode_named {name : String} (hname : text_len name ≤ 2 ^ 16) :
    decode (named name 5).body = .ok (named name 5) := by
  have hlen := length_body_le (named name 5)
  have hscope : (named name 5).recipient_scope.id.length = 32 := Arr.length_bytes _
  have hfile : text_len (named name 5).original_filename = 1 := rfl
  have hmime : text_len (named name 5).mime_type = 1 := rfl
  have hcaption : caption_len (named name 5).user_caption = 1 := rfl
  have hobjects : (named name 5).objects.length = 2 := rfl
  have hsize : (named name 5).body.length ≤ MAX_CONTROL_SIZE := by
    change (named name 5).body.length ≤ _ + text_len name + _ + _ + _ + _ at hlen
    unfold MAX_CONTROL_SIZE
    omega
  refine decode_body rfl hsize (bare_fits (hscope ▸ by decide) ?_ ?_ (hobjects ▸ by decide) ?_)
  · intro text ht
    rcases List.mem_cons.1 ht with rfl | ht
    · exact Nat.lt_of_le_of_lt hname (by decide)
    · exact (by decide : ∀ text ∈ ["a", "b"], text_len text < 2 ^ 64) text ht
  · exact (by decide : ∀ caption ∈ some "c", text_len caption < 2 ^ 64)
  · exact (by decide : ∀ o ∈ (named "d" 5).objects, o.object_role ≤ ROLE_SIDECAR)

/-- A name of 4097 bytes is decoded and cannot be encoded. -/
theorem a_manifest_with_a_long_name_is_decoded_and_not_encoded :
    ∃ m : PrivateManifest, text_len m.display_name = 4097 ∧ decode m.body = .ok m ∧
      m.encode = .error .TextTooLong := by
  have hname := text_len_replicate 4097
  generalize String.ofList (List.replicate 4097 'a') = name at hname
  refine ⟨named name 5, hname, decode_named (hname ▸ by decide), ?_⟩
  unfold encode refuse_if
  rw [if_pos ⟨name, List.mem_cons_self, by rw [hname]; decide⟩]
  rfl

/-! ## What the encoding says of the scope -/

theorem scope_of_encode_eq {raw raw' : RawPrivate}
    (hid : raw.recipient_scope.id.length < 2 ^ 64) (hid' : raw'.recipient_scope.id.length < 2 ^ 64)
    (h : raw.encode = raw'.encode) : raw.recipient_scope = raw'.recipient_scope := by
  have hmap : ∀ {s t : Bytes}, Writer.map (.ofNat raw.entries) ++ s =
      Writer.map (.ofNat raw'.entries) ++ t → s = t :=
    fun h => (Reader.map.reads.writes_apart (d := 0) (a := ⟨raw.entries, none⟩)
      (b := ⟨raw'.entries, none⟩) ⟨by decide, raw.entries_lt, rfl⟩
      ⟨by decide, raw'.entries_lt, rfl⟩ h).2
  have harr : ∀ {a a' : Arr 32} {s t : Bytes},
      Writer.bytes a.bytes ++ s = Writer.bytes a'.bytes ++ t → a = a' ∧ s = t :=
    bytes_append_inj (by decide)
  simp only [RawPrivate.encode, RawPrivate.head, RecipientScope.encode, MapWriter,
    List.flatMap_cons, List.append_assoc] at h
  obtain ⟨-, h⟩ := harr (List.append_cancel_left (hmap h))
  obtain ⟨-, h⟩ := harr (List.append_cancel_left h)
  have h := List.append_cancel_left (List.append_cancel_left h)
  obtain ⟨htype, h⟩ := uint_append_inj (List.append_cancel_left h)
  obtain ⟨hbytes, -⟩ := Reader.bytes.reads.writes_apart (d := 0) hid hid'
    (List.append_cancel_left h)
  rcases hs : raw.recipient_scope with ⟨_, _⟩
  rcases hs' : raw'.recipient_scope with ⟨_, _⟩
  simp only [hs, hs'] at htype hbytes
  rw [htype, hbytes]

theorem length_scope_id_le (m : PrivateManifest) :
    m.recipient_scope.id.length ≤ m.body.length := by
  have hbytes := length_le_bytes m.recipient_scope.id
  have hscope : (Writer.bytes m.recipient_scope.id).length ≤ m.recipient_scope.encode.length :=
    length_le_mapWriter (e := (1, Writer.bytes m.recipient_scope.id)) (by simp)
  have hbody : m.recipient_scope.encode.length ≤ m.body.length :=
    length_le_mapWriter (e := (2, m.recipient_scope.encode)) (by simp)
  omega

/-- Whatever a written manifest is decoded as has the scope that was written. -/
theorem decode_body_scope {m m' : PrivateManifest} (h : decode m.body = .ok m') :
    m'.recipient_scope = m.recipient_scope := by
  obtain ⟨raw, hsize, hfits, hbody, rfl, -⟩ := decode_eq_ok.1 h
  have hid : m.recipient_scope.id.length ≤ MAX_CONTROL_SIZE :=
    Nat.le_trans (length_scope_id_le m) hsize
  rw [← encode_bare] at hbody
  exact (scope_of_encode_eq (Nat.lt_of_le_of_lt hid (by decide))
    (Nat.lt_of_le_of_lt hfits.scope (by decide)) hbody).symm

end PrivateManifest

/-! ## Sealing -/

section Sealing

variable (P : Primitives)

/-- The use of the cipher that seals a manifest. -/
def manifest_encryption (manifest : PrivateManifest) (manifest_key transfer_id object_id : Arr 32)
    (nonce : Arr 24) : Encryption where
  key := manifest_key
  nonce := nonce
  aad := manifest_aad P transfer_id object_id manifest.sender_device_id manifest.recipient_scope
  msg := manifest.body

variable {P}

/-- The layout is fixed up to the hash of the scope. -/
theorem manifest_aad_inj {transfer_id object_id sender transfer_id' object_id' sender' : Arr 32}
    {scope scope' : RecipientScope} (h : manifest_aad P transfer_id object_id sender scope =
      manifest_aad P transfer_id' object_id' sender' scope') :
    transfer_id = transfer_id' ∧ object_id = object_id' ∧ sender = sender' := by
  simp only [manifest_aad, List.append_assoc, List.append_cancel_left_eq] at h
  obtain ⟨htransfer, h⟩ := arr_append_inj h
  obtain ⟨hobject, h⟩ := arr_append_inj h
  obtain ⟨hsender, -⟩ := arr_append_inj (List.append_cancel_left h)
  exact ⟨htransfer, hobject, hsender⟩

/-- What was sealed is opened under its own names only, whatever the key. -/
theorem names_of_open {made : Set Encryption} (hP : P.Ideal made) {m m' : PrivateManifest}
    {key transfer_id object_id key' transfer_id' object_id' sender' : Arr 32} {nonce : Arr 24}
    {scope' : RecipientScope} {sealed : SealedManifest}
    (hseal : seal_private_manifest P m key transfer_id object_id nonce = .ok sealed)
    (hmade : manifest_encryption P m key transfer_id object_id nonce ∈ made)
    (hopen : open_private_manifest P sealed key' transfer_id' object_id' sender' scope' = .ok m') :
    (transfer_id', object_id', sender', scope') =
      (transfer_id, object_id, m.sender_device_id, m.recipient_scope) := by
  obtain ⟨-, plaintext, c, hencode, hc, rfl⟩ := seal_private_manifest_eq_ok.1 hseal
  obtain ⟨-, -, rfl⟩ := PrivateManifest.encode_eq_ok.1 hencode
  obtain ⟨msg, hdec, hdecode, -, rfl⟩ := open_private_manifest_eq_ok.1 hopen
  obtain ⟨-, -, haad, rfl⟩ := Encryption.mk.inj (hP.eq_of_decrypt hmade hc hdec)
  obtain ⟨rfl, rfl, rfl⟩ := manifest_aad_inj haad
  -- The scope is hashed in the data, and checked again against the manifest.
  rw [PrivateManifest.decode_body_scope hdecode]

/-- Under an ideal cipher, a sealed manifest is opened again with the same
arguments exactly if its scope and its roles are within the limits of the
reader, which sealing does not check. With another transfer, object, sender or
scope it is not opened. -/
theorem a_sealed_manifest_is_opened_iff_its_scope_and_roles_fit (P : Primitives)
    {made : Set Encryption} (hP : P.Ideal made) (m : PrivateManifest)
    (key transfer_id object_id : Arr 32) (nonce : Arr 24) (sealed : SealedManifest)
    (hseal : seal_private_manifest P m key transfer_id object_id nonce = .ok sealed)
    (hmade : manifest_encryption P m key transfer_id object_id nonce ∈ made) :
    (open_private_manifest P sealed key transfer_id object_id m.sender_device_id
        m.recipient_scope = .ok m ↔ m.ScopeAndRolesFit) ∧
      ∀ key' transfer_id' object_id' sender' scope',
        (transfer_id', object_id', sender', scope') ≠
            (transfer_id, object_id, m.sender_device_id, m.recipient_scope) →
          ∃ e, open_private_manifest P sealed key' transfer_id' object_id' sender' scope' =
            .error e := by
  obtain ⟨hvalid, plaintext, c, hencode, hc, hsealed⟩ := seal_private_manifest_eq_ok.1 hseal
  refine ⟨⟨?_, ?_⟩, ?_⟩
  · intro hopen
    obtain ⟨msg, -, hdecode, -⟩ := open_private_manifest_eq_ok.1 hopen
    exact (PrivateManifest.decoded_limits hdecode).1
  · intro hfit
    obtain ⟨-, -, hbody⟩ := PrivateManifest.encode_eq_ok.1 hencode
    refine open_private_manifest_eq_ok.2 ⟨plaintext, ?_, PrivateManifest.decode_encode hvalid
      hencode (PrivateManifest.readable_of_fit hencode hfit), rfl, rfl⟩
    subst hsealed hbody
    exact hP.decrypt hmade hc
  · intro key' transfer_id' object_id' sender' scope' hne
    rcases hopen : open_private_manifest P sealed key' transfer_id' object_id' sender' scope' with
      e | m'
    · exact ⟨e, rfl⟩
    · exact absurd (names_of_open hP hseal hmade hopen) hne

/-- The cipher under which one manifest was sealed, and nothing else. -/
def sealingCipher (m : PrivateManifest) : Primitives :=
  sampleFor (manifest_encryption sample m (.replicate 32 1) (.replicate 32 2) (.replicate 32 3)
    (.replicate 24 4))

theorem a_manifest_with_a_sidecar_is_opened_again :
    ∃ sealed, seal_private_manifest (sealingCipher (.named "d" 5)) (.named "d" 5)
        (.replicate 32 1) (.replicate 32 2) (.replicate 32 3) (.replicate 24 4) = .ok sealed ∧
      open_private_manifest (sealingCipher (.named "d" 5)) sealed (.replicate 32 1)
        (.replicate 32 2) (.replicate 32 3) (.replicate 32 2) (.device (.replicate 32 3)) =
          .ok (.named "d" 5) ∧
      ∃ e, open_private_manifest (sealingCipher (.named "d" 5)) sealed (.replicate 32 1)
        (.replicate 32 2) (.replicate 32 3) (.replicate 32 2) (.device (.replicate 32 4)) =
          .error e := by
  obtain ⟨sealed, hseal⟩ : ∃ sealed, seal_private_manifest (sealingCipher (.named "d" 5))
      (.named "d" 5) (.replicate 32 1) (.replicate 32 2) (.replicate 32 3) (.replicate 24 4) =
        .ok sealed := ⟨_, rfl⟩
  obtain ⟨hopen, honly⟩ := a_sealed_manifest_is_opened_iff_its_scope_and_roles_fit
    (sealingCipher (.named "d" 5)) (sampleFor_ideal _) (.named "d" 5) _ _ _ _ sealed hseal rfl
  exact ⟨sealed, hseal, hopen.2 ⟨by decide, by decide⟩, honly _ _ _ _ _ (by decide)⟩

/-- A second object of role 6 is sealed, and refused when the manifest is opened
with the same arguments. -/
theorem a_manifest_with_an_unknown_role_is_sealed_and_not_opened :
    ∃ sealed, seal_private_manifest (sealingCipher (.named "d" 6)) (.named "d" 6)
        (.replicate 32 1) (.replicate 32 2) (.replicate 32 3) (.replicate 24 4) = .ok sealed ∧
      open_private_manifest (sealingCipher (.named "d" 6)) sealed (.replicate 32 1)
        (.replicate 32 2) (.replicate 32 3) (.replicate 32 2) (.device (.replicate 32 3)) =
          .error .InvalidValue := by
  refine ⟨_, rfl, ?_⟩
  decide +kernel

end Sealing

end rtp2_core.manifest
