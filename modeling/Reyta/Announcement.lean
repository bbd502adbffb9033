-- The object as the sender announces it and as the receiver rebuilds it. The
-- sizes of the sender, the window of the manifest check and the inverse of the
-- receiver agree for every object that `for_file` accepts, and none of their
-- arithmetic leaves 64 bits.
import Reyta.Manifest
import Reyta.Route

open byte_string exact_parse

namespace rtp2_core.transfer

open cbor crypto keys manifest object

def ENVELOPE_TTL_SECS : UInt64 := 3600
def ROUTE_BALANCED : UInt8 := 1

/-- The object in the public manifest of `send_pending`. -/
def public_object (secrets : FileSecrets) (ctx : ObjectContext) (ciphertext_root : Arr 32) :
    ObjectPublic where
  object_id := secrets.object_id
  object_role := ROLE_PRIMARY
  ciphertext_root := ciphertext_root
  ciphertext_size := ctx.ciphertext_size
  chunk_ciphertext_size := ctx.chunk_ciphertext_size
  chunk_count := ctx.chunk_count
  padding_policy := ctx.padding_policy

/-- The public manifest of `send_pending`. -/
def public_manifest (secrets : FileSecrets) (ctx : ObjectContext)
    (ciphertext_root private_hash : Arr 32) (now : UInt64) : PublicManifest where
  protocol_minor := 0
  suite_id := SUITE_ID
  transfer_id := secrets.transfer_id
  created_at := now
  expires_at := now + ENVELOPE_TTL_SECS
  route_profile := ROUTE_BALANCED
  objects := [public_object secrets ctx ciphertext_root]
  private_manifest_ciphertext_hash := private_hash
  capability_scheme := CAPABILITY_SCHEME

/-- The context that `receive_file` rebuilds, with its checks against the
announced object. -/
def rebuild_context (secrets : FileSecrets) (object_public : ObjectPublic)
    (logical_plaintext_size : UInt64) : Except TransferError ObjectContext := do
  let chunk_plaintext_size ← some_or (.Protocol "bad chunk size")
    (ObjectContext.chunk_plaintext_size_from_ciphertext object_public.chunk_ciphertext_size)
  let ctx ← some_or (.Protocol "bad object parameters")
    (ObjectContext.for_file secrets.transfer_id secrets.object_id logical_plaintext_size
      chunk_plaintext_size)
  refuse_if (ctx.chunk_count ≠ object_public.chunk_count ∨
    ctx.padding_policy ≠ object_public.padding_policy ∨
    ctx.object_role ≠ object_public.object_role) (.Protocol "manifest inconsistent with object")
  pure ctx

theorem rebuild_context_eq_ok {secrets : FileSecrets} {object : ObjectPublic} {size : UInt64}
    {ctx : ObjectContext} : rebuild_context secrets object size = .ok ctx ↔
      ∃ chunk_size,
        ObjectContext.chunk_plaintext_size_from_ciphertext object.chunk_ciphertext_size =
          some chunk_size ∧
        ObjectContext.for_file secrets.transfer_id secrets.object_id size chunk_size = some ctx ∧
        ctx.chunk_count = object.chunk_count ∧ ctx.padding_policy = object.padding_policy ∧
        ctx.object_role = object.object_role := by
  unfold rebuild_context
  simp only [bind_eq_ok, some_or_eq_ok, refuse_if_eq_ok, pure_eq_ok, not_or, not_not]
  constructor
  · rintro ⟨chunk_size, hsize, c, hfile, -, hchecks, rfl⟩
    exact ⟨chunk_size, hsize, hfile, hchecks⟩
  · rintro ⟨chunk_size, hsize, hfile, hchecks⟩
    exact ⟨chunk_size, hsize, ctx, hfile, (), hchecks, rfl⟩

/-! ## The sizes -/

/-- No step of the size arithmetic of `ctx` leaves 64 bits, over the natural
numbers: the tags, the sizes that the sender announces, and the window that the
manifest check computes from them. -/
structure FitsU64 (ctx : ObjectContext) : Prop where
  /-- `div_ceil` -/
  count : ctx.encoded_plaintext_size.toNat / ctx.chunk_plaintext_size.toNat + 1 < 2 ^ 64
  /-- `chunk_ciphertext_size` -/
  chunk : ctx.chunk_plaintext_size.toNat + AEAD_TAG_LEN < 2 ^ 64
  /-- `ciphertext_size` -/
  tags : ctx.chunk_count.toNat * AEAD_TAG_LEN < 2 ^ 64
  total : ctx.encoded_plaintext_size.toNat + ctx.chunk_count.toNat * AEAD_TAG_LEN < 2 ^ 64
  /-- `max` and `min` of `validate` -/
  max : ctx.chunk_count.toNat * (ctx.chunk_plaintext_size.toNat + AEAD_TAG_LEN) < 2 ^ 64
  sub : ctx.chunk_count ≠ 0 → ctx.chunk_plaintext_size.toNat + AEAD_TAG_LEN ≤
    ctx.chunk_count.toNat * (ctx.chunk_plaintext_size.toNat + AEAD_TAG_LEN)
  min : ctx.chunk_count.toNat * (ctx.chunk_plaintext_size.toNat + AEAD_TAG_LEN) -
    (ctx.chunk_plaintext_size.toNat + AEAD_TAG_LEN) + 1 + AEAD_TAG_LEN < 2 ^ 64

theorem toNat_tag : (UInt64.ofNat AEAD_TAG_LEN).toNat = AEAD_TAG_LEN := rfl

section Sizes

variable {ctx : ObjectContext} (hg : ctx.Geometry)
include hg

theorem encoded_le : ctx.encoded_plaintext_size.toNat ≤ 2 ^ 54 := by
  have hle : ctx.start ctx.chunk_count.toNat ≤ 2 ^ 32 * (4 * 1024 * 1024) :=
    Nat.mul_le_mul hg.count_le hg.size_le
  have hcovers := hg.covers
  omega

theorem fits_u64 : FitsU64 ctx := by
  have hcount := hg.count_le
  have hsize := hg.size_le
  have hencoded := encoded_le hg
  have hdiv : ctx.encoded_plaintext_size.toNat / ctx.chunk_plaintext_size.toNat ≤
      ctx.encoded_plaintext_size.toNat := Nat.div_le_self _ _
  have hmax : ctx.chunk_count.toNat * (ctx.chunk_plaintext_size.toNat + AEAD_TAG_LEN) ≤
      2 ^ 32 * (4 * 1024 * 1024 + 16) :=
    Nat.mul_le_mul hcount (Nat.add_le_add_right hsize 16)
  refine ⟨by omega, ?_, ?_, ?_, by omega, ?_, ?_⟩
  · rw [AEAD_TAG_LEN]
    omega
  · rw [AEAD_TAG_LEN]
    omega
  · rw [AEAD_TAG_LEN]
    omega
  · intro hne
    exact Nat.le_mul_of_pos_left _ (Nat.pos_of_ne_zero fun h => hne (UInt64.toNat_inj.1 h))
  · rw [AEAD_TAG_LEN] at hmax ⊢
    omega

omit hg in
theorem toNat_chunk_ciphertext_size :
    ctx.chunk_ciphertext_size.toNat = ctx.chunk_plaintext_size.toNat + AEAD_TAG_LEN := by
  have hlt := ctx.chunk_plaintext_size.toNat_lt
  rw [ObjectContext.chunk_ciphertext_size, UInt64.toNat_add, UInt32.toNat_toUInt64, toNat_tag]
  rw [AEAD_TAG_LEN]
  omega

omit hg in
/-- The receiver gets the chunk size of the sender back. -/
theorem chunk_plaintext_size_back : ObjectContext.chunk_plaintext_size_from_ciphertext
    ctx.chunk_ciphertext_size = some ctx.chunk_plaintext_size := by
  have hlt := ctx.chunk_plaintext_size.toNat_lt
  have hback : ctx.chunk_ciphertext_size - .ofNat AEAD_TAG_LEN =
      ctx.chunk_plaintext_size.toUInt64 := UInt64.add_sub_cancel _ _
  unfold ObjectContext.chunk_plaintext_size_from_ciphertext
  rw [hback, if_neg, if_neg, UInt32.toUInt32_toUInt64]
  · rw [gt_iff_lt, UInt64.lt_iff_toNat_lt, UInt32.toNat_toUInt64]
    exact Nat.not_lt.2 (Nat.le_of_lt_succ hlt)
  · rw [UInt64.lt_iff_toNat_lt, toNat_chunk_ciphertext_size, toNat_tag]
    exact Nat.not_lt.2 (Nat.le_add_left _ _)

theorem toNat_ciphertext_size : ctx.ciphertext_size.toNat =
    ctx.encoded_plaintext_size.toNat + ctx.chunk_count.toNat * AEAD_TAG_LEN := by
  have hfits := fits_u64 hg
  unfold ObjectContext.ciphertext_size
  split_ifs with hzero
  · have hcovers := hg.covers
    rw [hzero, ObjectContext.start] at hcovers
    simp only [UInt64.toNat_zero, Nat.zero_mul, Nat.le_zero] at hcovers
    simp [hzero, hcovers]
  · have htags : (ctx.chunk_count * .ofNat AEAD_TAG_LEN).toNat =
        ctx.chunk_count.toNat * AEAD_TAG_LEN := by
      rw [UInt64.toNat_mul]
      exact Nat.mod_eq_of_lt hfits.tags
    rw [UInt64.toNat_add, htags]
    exact Nat.mod_eq_of_lt hfits.total

/-- The size that is announced is in the window of the manifest check. -/
theorem ciphertext_size_in_window (hne : ctx.chunk_count ≠ 0) :
    let max := ctx.chunk_count * ctx.chunk_ciphertext_size
    let min := max - ctx.chunk_ciphertext_size + 1 + .ofNat AEAD_TAG_LEN
    min ≤ ctx.ciphertext_size ∧ ctx.ciphertext_size ≤ max := by
  intro max min
  have hfits := fits_u64 hg
  have hmax : max.toNat =
      ctx.chunk_count.toNat * (ctx.chunk_plaintext_size.toNat + AEAD_TAG_LEN) := by
    rw [UInt64.toNat_mul, toNat_chunk_ciphertext_size]
    exact Nat.mod_eq_of_lt hfits.max
  have hsub : (max - ctx.chunk_ciphertext_size).toNat =
      max.toNat - (ctx.chunk_plaintext_size.toNat + AEAD_TAG_LEN) := by
    rw [UInt64.toNat_sub_of_le, toNat_chunk_ciphertext_size]
    rw [UInt64.le_iff_toNat_le, hmax, toNat_chunk_ciphertext_size]
    exact hfits.sub hne
  have hmin : min.toNat =
      max.toNat - (ctx.chunk_plaintext_size.toNat + AEAD_TAG_LEN) + 1 + AEAD_TAG_LEN := by
    have h := hfits.min
    rw [← hmax] at h
    rw [UInt64.toNat_add, UInt64.toNat_add, hsub, toNat_tag]
    simp only [UInt64.reduceToNat]
    omega
  -- The last chunk starts inside the object, and the chunks cover it.
  have hpos : 0 < ctx.chunk_count.toNat :=
    Nat.pos_of_ne_zero fun h => hne (UInt64.toNat_inj.1 h)
  obtain ⟨n, hn⟩ : ∃ n, ctx.chunk_count.toNat = n + 1 := ⟨_, (Nat.succ_pred_eq_of_pos hpos).symm⟩
  have hlast := hg.starts n (by omega)
  have hcovers := hg.covers
  rw [UInt64.le_iff_toNat_le, UInt64.le_iff_toNat_le, hmin, hmax, toNat_ciphertext_size hg, hn]
  rw [hn] at hcovers
  unfold ObjectContext.start at hlast hcovers
  simp only [AEAD_TAG_LEN, Nat.mul_add, Nat.add_mul] at hlast hcovers ⊢
  omega

end Sizes

/-! ## What the receiver makes of it -/

section Announced

variable {secrets : FileSecrets} {ctx : ObjectContext} {root private_hash : Arr 32}

theorem validate_public_object (hg : ctx.Geometry)
    (hsize : ctx.chunk_plaintext_size ∈ ALLOWED_CHUNK_SIZES) :
    PublicManifest.validate_object (public_object secrets ctx root) = .ok () := by
  have htag : .ofNat AEAD_TAG_LEN ≤ ctx.chunk_ciphertext_size := by
    rw [UInt64.le_iff_toNat_le, toNat_chunk_ciphertext_size, toNat_tag]
    exact Nat.le_add_left _ _
  have hback : (ctx.chunk_ciphertext_size - .ofNat AEAD_TAG_LEN).toUInt32 =
      ctx.chunk_plaintext_size := by
    rw [ObjectContext.chunk_ciphertext_size, UInt64.add_sub_cancel, UInt32.toUInt32_toUInt64]
  refine PublicManifest.validate_object_eq_ok.2 ⟨htag, hback ▸ hsize, ?_⟩
  split_ifs with hzero
  · exact if_pos hzero
  · obtain ⟨hmin, hmax⟩ := ciphertext_size_in_window hg hzero
    exact ⟨hmax, hmin⟩

theorem validate_public_manifest (hg : ctx.Geometry)
    (hsize : ctx.chunk_plaintext_size ∈ ALLOWED_CHUNK_SIZES) {now : UInt64}
    (hnow : now.toNat + ENVELOPE_TTL_SECS.toNat < 2 ^ 64) :
    (public_manifest secrets ctx root private_hash now).validate = .ok () := by
  have hexpires : now < now + ENVELOPE_TTL_SECS := by
    rw [UInt64.lt_iff_toNat_lt, UInt64.toNat_add, Nat.mod_eq_of_lt hnow]
    exact Nat.lt_add_of_pos_right (by decide)
  have hobject : PublicManifest.validate_objects [] [public_object secrets ctx root] = .ok () := by
    simp only [PublicManifest.validate_objects, List.not_mem_nil, if_false]
    rw [validate_public_object hg hsize]
    rfl
  rw [PublicManifest.validate_eq_ok]
  exact ⟨by simp [public_manifest], hexpires, rfl, rfl, hobject⟩

theorem public_manifest_inRange (hpad : ctx.padding_policy ≤ PADDING_FIXED_BUCKET)
    {now : UInt64} : (public_manifest secrets ctx root private_hash now).InRange := by
  have hroute : ROUTE_BALANCED ≤ ROUTE_STEALTH_TRANSFER := by decide
  have hrole : ROLE_PRIMARY ≤ ROLE_SIDECAR := by decide
  refine ⟨rfl, hroute, by simp [public_manifest, MAX_OBJECTS], ?_⟩
  intro o ho
  rw [public_manifest, List.mem_singleton] at ho
  rw [ho]
  exact ⟨hrole, hpad⟩

/-- The receiver rebuilds the context of the sender. -/
theorem rebuild_public_object {file_size : UInt64} {chunk_size : UInt32}
    (h : ObjectContext.for_file secrets.transfer_id secrets.object_id file_size chunk_size =
      some ctx) :
    rebuild_context secrets (public_object secrets ctx root) ctx.logical_plaintext_size =
      .ok ctx := by
  obtain ⟨-, -, hctx⟩ := ObjectContext.for_file_eq_some.1 h
  refine rebuild_context_eq_ok.2 ⟨_, chunk_plaintext_size_back, ?_, rfl, rfl, ?_⟩
  · rw [← hctx] at h ⊢
    exact h
  · rw [← hctx]
    rfl

end Announced

/-- For every object that `for_file` accepts, what the sender announces passes
the manifest check and its encoding, and the receiver rebuilds the context of
the sender from it. No step of the arithmetic leaves 64 bits. -/
theorem the_announced_object_is_valid_and_rebuilt {secrets : FileSecrets} {file_size : UInt64}
    {chunk_size : UInt32} {ctx : ObjectContext} {now : UInt64}
    (h : ObjectContext.for_file secrets.transfer_id secrets.object_id file_size chunk_size =
      some ctx)
    (hnow : now.toNat + ENVELOPE_TTL_SECS.toNat < 2 ^ 64) (root private_hash : Arr 32) :
    let manifest := public_manifest secrets ctx root private_hash now
    manifest.validate = .ok () ∧ PublicManifest.decode manifest.encode = .ok manifest ∧
      manifest.primary = some (public_object secrets ctx root) ∧
      rebuild_context secrets (public_object secrets ctx root) ctx.logical_plaintext_size =
        .ok ctx ∧
      FitsU64 ctx := by
  intro manifest
  have hg := ObjectContext.for_file_geometry h
  obtain ⟨hsize, -, hctx⟩ := ObjectContext.for_file_eq_some.1 h
  have hpad : ctx.padding_policy ≤ PADDING_FIXED_BUCKET := by
    have hnone : PADDING_NONE ≤ PADDING_FIXED_BUCKET := by decide
    rw [← hctx]
    exact hnone
  have hvalid : manifest.validate = .ok () := validate_public_manifest hg (hctx ▸ hsize) hnow
  have hlen : manifest.encode.length ≤ MAX_CONTROL_SIZE :=
    Nat.le_trans manifest.length_encode_le (by simp [manifest, public_manifest, MAX_CONTROL_SIZE])
  exact ⟨hvalid, PublicManifest.decode_encode (public_manifest_inRange hpad) hvalid hlen, rfl,
    rebuild_public_object h, fits_u64 hg⟩

/-- A file of one byte more than a chunk. -/
theorem a_file_of_two_chunks_is_valid_and_rebuilt :
    let secrets : FileSecrets :=
      ⟨.replicate 32 1, .replicate 32 2, .replicate 32 3, .replicate 32 4⟩
    let ctx : ObjectContext := ⟨.replicate 32 1, .replicate 32 2, 65537, 65537, 65536, 2, 0, 0⟩
    let manifest := public_manifest secrets ctx (.replicate 32 5) (.replicate 32 6) 7
    manifest.validate = .ok () ∧ PublicManifest.decode manifest.encode = .ok manifest ∧
      manifest.primary = some (public_object secrets ctx (.replicate 32 5)) ∧
      rebuild_context secrets (public_object secrets ctx (.replicate 32 5))
        ctx.logical_plaintext_size = .ok ctx ∧
      FitsU64 ctx := by
  intro secrets ctx
  have h : ObjectContext.for_file secrets.transfer_id secrets.object_id 65537 65536 = some ctx := by
    decide
  exact the_announced_object_is_valid_and_rebuilt h (by decide) (.replicate 32 5) (.replicate 32 6)

end rtp2_core.transfer
