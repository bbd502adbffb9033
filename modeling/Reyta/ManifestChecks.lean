-- What the checks of the public manifest establish. A manifest that passes them
-- is read back, with or without extension maps. Its sizes agree as long as the
-- arithmetic of the check does not wrap and its cast does not cut.
import Reyta.Manifest

open byte_string exact_parse

namespace rtp2_core.manifest

open cbor crypto object

/-! ## Round trips -/

namespace PublicManifest

theorem length_encode_le_control_size {m : PublicManifest} (hr : m.InRange) :
    m.encode.length ≤ MAX_CONTROL_SIZE := by
  have hlen := length_encode_le m
  have hfew : m.objects.length ≤ 1024 := hr.2.2.1
  unfold MAX_CONTROL_SIZE
  omega

/-- A valid manifest with values in range is read back. What is decoded is
valid and in range, whatever extension maps came with it, and so it is read
back as well. -/
theorem a_public_manifest_is_read_back (m : PublicManifest) :
    (m.validate = .ok () → m.InRange → decode m.encode = .ok m) ∧
      ∀ b, decode b = .ok m →
        m.validate = .ok () ∧ m.InRange ∧ decode m.encode = .ok m := by
  have hback : m.validate = .ok () → m.InRange → decode m.encode = .ok m :=
    fun hv hr => decode_encode hr hv (length_encode_le_control_size hr)
  refine ⟨hback, ?_⟩
  intro b h
  obtain ⟨-, -, -, hv⟩ := decode_eq_ok.1 h
  have hr := decoded_inRange h
  exact ⟨hv, hr, hback hv hr⟩

end PublicManifest

/-- A manifest of one object with one chunk. The object and the manifest came
with an extension map each. -/
def extendedManifest : RawManifest where
  protocol_minor := 0
  suite_id := 1
  transfer_id := .replicate 32 1
  created_at := 0
  expires_at := 10
  route_profile := 3
  objects := [(⟨.replicate 32 2, 0, .replicate 32 3, 17, 65552, 1, 3⟩,
    some [(4, .array [.uint 5, .map []])])]
  private_manifest_ciphertext_hash := .replicate 32 6
  capability_scheme := 1
  extension := some [(7, .text "x"), (8, .bytes [9])]

theorem a_manifest_with_extension_maps_is_read_back :
    extendedManifest.kept.validate = .ok () ∧ extendedManifest.kept.InRange ∧
      PublicManifest.decode extendedManifest.kept.encode = .ok extendedManifest.kept :=
  (PublicManifest.a_public_manifest_is_read_back extendedManifest.kept).2 extendedManifest.encode
    (by decide +kernel)

/-! ## Sizes -/

namespace ObjectPublic

/-- The law of the sizes of an object, over the integers. -/
structure SizesAgree (o : ObjectPublic) : Prop where
  chunk : ∃ size ∈ ALLOWED_CHUNK_SIZES, o.chunk_ciphertext_size.toNat = size.toNat + 16
  empty : o.chunk_count = 0 → o.ciphertext_size = 0
  low : o.chunk_count ≠ 0 →
    (o.chunk_count.toNat - 1) * o.chunk_ciphertext_size.toNat + 17 ≤ o.ciphertext_size.toNat
  high : o.chunk_count ≠ 0 →
    o.ciphertext_size.toNat ≤ o.chunk_count.toNat * o.chunk_ciphertext_size.toNat

/-- The cast of the check does not cut and its product does not wrap. -/
structure Exact (o : ObjectPublic) : Prop where
  cast : o.chunk_ciphertext_size.toNat - 16 < 2 ^ 32
  product : o.chunk_count.toNat * o.chunk_ciphertext_size.toNat < 2 ^ 64

end ObjectPublic

namespace PublicManifest

theorem validate_object_of_mem {seen : List (Arr 32)} {objects : List ObjectPublic}
    (h : validate_objects seen objects = .ok ()) :
    ∀ o ∈ objects, validate_object o = .ok () := by
  induction objects generalizing seen with
  | nil => simp
  | cons object objects ih =>
    unfold validate_objects at h
    split_ifs at h
    obtain ⟨_, hobject, hrest⟩ := bind_eq_ok.1 h
    exact List.forall_mem_cons.2 ⟨hobject, ih hrest⟩

variable {o : ObjectPublic}

/-- What the check finds out about the size of a chunk. -/
theorem toNat_plaintext_chunk (htag : .ofNat AEAD_TAG_LEN ≤ o.chunk_ciphertext_size) :
    (o.chunk_ciphertext_size - .ofNat AEAD_TAG_LEN).toUInt32.toNat =
      (o.chunk_ciphertext_size.toNat - 16) % 2 ^ 32 ∧ 16 ≤ o.chunk_ciphertext_size.toNat := by
  have h16 : 16 ≤ o.chunk_ciphertext_size.toNat := UInt64.le_iff_toNat_le.1 htag
  rw [UInt64.toNat_toUInt32, UInt64.toNat_sub_of_le _ _ htag]
  exact ⟨rfl, h16⟩

theorem last_chunk_apart (hn : o.chunk_count ≠ 0) :
    o.chunk_count.toNat * o.chunk_ciphertext_size.toNat =
      (o.chunk_count.toNat - 1) * o.chunk_ciphertext_size.toNat +
        o.chunk_ciphertext_size.toNat := by
  have hpos : 0 < o.chunk_count.toNat :=
    Nat.pos_of_ne_zero fun h => hn (UInt64.toNat_inj.1 h)
  rw [← Nat.succ_mul, Nat.succ_eq_add_one, Nat.sub_add_cancel hpos]

/-- Without a wrap, `max` and `min` are what they are meant to be. -/
theorem toNat_max_min (hn : o.chunk_count ≠ 0) (hc : 17 ≤ o.chunk_ciphertext_size.toNat)
    (hprod : o.chunk_count.toNat * o.chunk_ciphertext_size.toNat < 2 ^ 64) :
    (o.chunk_count * o.chunk_ciphertext_size).toNat =
        o.chunk_count.toNat * o.chunk_ciphertext_size.toNat ∧
      (o.chunk_count * o.chunk_ciphertext_size - o.chunk_ciphertext_size + 1 +
          .ofNat AEAD_TAG_LEN).toNat =
        (o.chunk_count.toNat - 1) * o.chunk_ciphertext_size.toNat + 17 := by
  have hsplit := last_chunk_apart hn
  have hmax : (o.chunk_count * o.chunk_ciphertext_size).toNat =
      o.chunk_count.toNat * o.chunk_ciphertext_size.toNat := by
    rw [UInt64.toNat_mul, Nat.mod_eq_of_lt hprod]
  have hle : o.chunk_ciphertext_size ≤ o.chunk_count * o.chunk_ciphertext_size := by
    rw [UInt64.le_iff_toNat_le, hmax]
    omega
  refine ⟨hmax, ?_⟩
  rw [UInt64.toNat_add, UInt64.toNat_add, UInt64.toNat_sub_of_le _ _ hle, hmax]
  simp only [AEAD_TAG_LEN, UInt64.reduceOfNat, UInt64.reduceToNat]
  omega

/-- Sizes that agree leave no room for a wrap. -/
theorem product_lt_of_sizesAgree (h : o.SizesAgree)
    (hle : o.ciphertext_size ≤ o.chunk_count * o.chunk_ciphertext_size)
    (hn : o.chunk_count ≠ 0) :
    o.chunk_count.toNat * o.chunk_ciphertext_size.toNat < 2 ^ 64 := by
  obtain ⟨size, hsize, hc⟩ := h.chunk
  have hbound := (ObjectContext.allowed_chunk_size hsize).2
  have hlow := h.low hn
  have hlt := o.ciphertext_size.toNat_lt
  have hsplit := last_chunk_apart hn
  rw [UInt64.le_iff_toNat_le, UInt64.toNat_mul] at hle
  -- A product past the end wraps to less than one chunk.
  omega

/-- For an object of a valid manifest the sizes agree exactly if the cast of
the check does not cut and its product does not wrap. -/
theorem sizes_of_a_valid_manifest_agree_iff_the_check_is_exact (m : PublicManifest)
    (hv : m.validate = .ok ()) (o : ObjectPublic) (ho : o ∈ m.objects) :
    o.SizesAgree ↔ o.Exact := by
  obtain ⟨htag, hallowed, hrest⟩ := validate_object_eq_ok.1
    (validate_object_of_mem (validate_eq_ok.1 hv).2.2.2.2 o ho)
  obtain ⟨hcast, h16⟩ := toNat_plaintext_chunk htag
  have hrange := ObjectContext.allowed_chunk_size hallowed
  constructor
  · intro h
    obtain ⟨size, hsize, hc⟩ := h.chunk
    have hlt := size.toNat_lt
    refine ⟨by omega, ?_⟩
    by_cases hn : o.chunk_count = 0
    · simp [hn]
    · rw [if_neg hn] at hrest
      exact product_lt_of_sizesAgree h hrest.1 hn
  · intro h
    have hcut := h.cast
    rw [Nat.mod_eq_of_lt hcut] at hcast
    refine ⟨⟨_, hallowed, by omega⟩, ?_, ?_, ?_⟩
    · intro hn
      rwa [if_pos hn] at hrest
    · intro hn
      obtain ⟨-, hmin⟩ := toNat_max_min hn (by omega) h.product
      rw [if_neg hn, UInt64.le_iff_toNat_le, UInt64.le_iff_toNat_le, hmin] at hrest
      exact hrest.2
    · intro hn
      obtain ⟨hmax, -⟩ := toNat_max_min hn (by omega) h.product
      rw [if_neg hn, UInt64.le_iff_toNat_le, hmax] at hrest
      exact hrest.1

theorem the_sizes_of_one_chunk_agree :
    extendedManifest.kept.validate = .ok () ∧
      ∀ o ∈ extendedManifest.kept.objects, o.SizesAgree := by
  have hvalid : extendedManifest.kept.validate = .ok () := by decide +kernel
  have hexact : ∀ o ∈ extendedManifest.kept.objects,
      o.chunk_ciphertext_size.toNat - 16 < 2 ^ 32 ∧
        o.chunk_count.toNat * o.chunk_ciphertext_size.toNat < 2 ^ 64 := by decide +kernel
  refine ⟨hvalid, fun o ho => ?_⟩
  exact (sizes_of_a_valid_manifest_agree_iff_the_check_is_exact _ hvalid o ho).2
    ⟨(hexact o ho).1, (hexact o ho).2⟩

/-- A manifest of one object with the given sizes. -/
def withSizes (ciphertext_size chunk_ciphertext_size chunk_count : UInt64) : PublicManifest :=
  { extendedManifest.kept with
    objects := [⟨.replicate 32 2, 0, .replicate 32 3, ciphertext_size, chunk_ciphertext_size,
      chunk_count, 0⟩] }

/-- A chunk of 4 GiB and 64 KiB passes for one of 64 KiB, and 17 bytes pass for
more than `2 ^ 60` chunks. Both manifests are also read back from the wire. -/
theorem a_valid_manifest_with_a_chunk_of_four_gibibytes :
    let wide := withSizes 0x100010010 0x100010010 1
    let many := withSizes 17 65552 0x1000000000000001
    (wide.validate = .ok () ∧ decode wide.encode = .ok wide ∧
      (0x100010010 - 16 : Nat) ∉ ALLOWED_CHUNK_SIZES.map UInt32.toNat ∧
      ∀ o ∈ wide.objects, ¬ o.SizesAgree) ∧
    many.validate = .ok () ∧ decode many.encode = .ok many ∧
      17 < (0x1000000000000001 - 1) * 65552 + 17 ∧ ∀ o ∈ many.objects, ¬ o.SizesAgree := by
  refine ⟨⟨by decide +kernel, by decide +kernel, by decide, ?_⟩, by decide +kernel,
    by decide +kernel, by decide, ?_⟩
  · intro o ho h
    obtain rfl := List.mem_singleton.1 ho
    obtain ⟨size, -, hc⟩ := h.chunk
    have hlt := size.toNat_lt
    have hwide : (0x100010010 : UInt64).toNat = 0x100010010 := rfl
    simp only [hwide] at hc
    omega
  · intro o ho h
    obtain rfl := List.mem_singleton.1 ho
    exact absurd (h.low (by decide)) (by decide +kernel)

end PublicManifest

end rtp2_core.manifest
