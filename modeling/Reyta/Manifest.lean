-- The public manifest. The decoder drops the noncritical extension maps, so
-- the encoding of what it returns is shorter than the bytes it was given if
-- there were any. The commitment covers the encoding, not the bytes.
import Reyta.Object
import Reyta.SkipValue

open byte_string exact_parse

namespace rtp2_core.manifest

open cbor crypto object
open ManifestError (from_cbor)

def COMMITMENT_DOMAIN : Bytes := ascii "RTP2-MANIFEST-COMMITMENT-v1\x00"
def SCOPE_DOMAIN : Bytes := ascii "RTP2-RECIPIENT-SCOPE-v1"

def MAX_OBJECTS : UInt64 := 1024
def MAX_TEXT_LEN : Nat := 4096

def ROUTE_STEALTH_TRANSFER : UInt8 := 3
def ROLE_SIDECAR : UInt8 := 5
def PADDING_FIXED_BUCKET : UInt8 := 3
def CAPABILITY_SCHEME : UInt64 := 1

def valid_route_profile (v : UInt64) : Bool := v ≤ ROUTE_STEALTH_TRANSFER.toUInt64
def valid_role (v : UInt64) : Bool := v ≤ ROLE_SIDECAR.toUInt64
def valid_padding (v : UInt64) : Bool := v ≤ PADDING_FIXED_BUCKET.toUInt64

/-- A noncritical extension map. -/
abbrev Extension := List (UInt64 × Value)

structure ObjectPublic where
  object_id : Arr 32
  object_role : UInt8
  ciphertext_root : Arr 32
  ciphertext_size : UInt64
  chunk_ciphertext_size : UInt64
  chunk_count : UInt64
  padding_policy : UInt8
  deriving DecidableEq

structure PublicManifest where
  protocol_minor : UInt64
  suite_id : UInt16
  transfer_id : Arr 32
  created_at : UInt64
  expires_at : UInt64
  route_profile : UInt8
  objects : List ObjectPublic
  private_manifest_ciphertext_hash : Arr 32
  capability_scheme : UInt64
  deriving DecidableEq

/-- An object with the extension map it came with. -/
abbrev RawObject := ObjectPublic × Option Extension

/-! ## Objects -/

namespace ObjectPublic

/-- The entries of the map of an object. -/
def fields (o : ObjectPublic) : List (UInt64 × Bytes) :=
  [(0, Writer.bytes o.object_id.bytes), (1, Writer.uint o.object_role.toUInt64),
    (2, Writer.bytes o.ciphertext_root.bytes), (3, Writer.uint o.ciphertext_size),
    (4, Writer.uint o.chunk_ciphertext_size), (5, Writer.uint o.chunk_count),
    (6, Writer.uint o.padding_policy.toUInt64)]

def encode (o : ObjectPublic) : Bytes := MapWriter o.fields

end ObjectPublic

/-- The tail of a map: nothing, or an extension map at `key` and nothing after
it. Any other key is critical. The extension is returned for the proofs only. -/
def read_extension (m : MapReader) (key : UInt64) : Parse ManifestError (Option Extension) := do
  let (k, m) ← map_err from_cbor m.next_key
  match k with
  | none => pure none
  | some k =>
    if k = key then
      let extension ← skip_extension_map
      m.expect_end from_cbor .UnknownCriticalField
      pure (some extension)
    else fail .UnknownCriticalField

/-- An object, and the extension map that the decoder drops. -/
def ObjectPublic.read : Parse ManifestError RawObject := do
  let m ← map_err from_cbor Reader.map
  let m ← map_err from_cbor (m.expect_key 0)
  let object_id ← map_err from_cbor (Reader.bytes_exact 32)
  let m ← map_err from_cbor (m.expect_key 1)
  let object_role ← map_err from_cbor Reader.uint
  let m ← map_err from_cbor (m.expect_key 2)
  let ciphertext_root ← map_err from_cbor (Reader.bytes_exact 32)
  let m ← map_err from_cbor (m.expect_key 3)
  let ciphertext_size ← map_err from_cbor Reader.uint
  let m ← map_err from_cbor (m.expect_key 4)
  let chunk_ciphertext_size ← map_err from_cbor Reader.uint
  let m ← map_err from_cbor (m.expect_key 5)
  let chunk_count ← map_err from_cbor Reader.uint
  let m ← map_err from_cbor (m.expect_key 6)
  let padding_policy ← map_err from_cbor Reader.uint
  let extension ← read_extension m 7
  fail_if (!valid_role object_role || !valid_padding padding_policy) .InvalidValue
  pure (⟨object_id, object_role.toUInt8, ciphertext_root, ciphertext_size, chunk_ciphertext_size,
    chunk_count, padding_policy.toUInt8⟩, extension)

/-! ## What an object is read from -/

/-- An extension map that is skipped at depth `d`. -/
def ExtensionOk (d : Nat) (e : Extension) : Prop :=
  d < MAX_DEPTH ∧ e.length < 2 ^ 64 ∧ KeysAbove none e ∧
    ∀ x ∈ e, Skippable (MAX_DEPTH + 1) (d + 1) x.2

/-- The entry of an extension map, if there is one. -/
def extension_entry (key : UInt64) (extension : Option Extension) : List (UInt64 × Bytes) :=
  extension.toList.map fun e => (key, (Value.map e).encode)

theorem skip_extension_map.reads :
    Reads skip_extension_map ExtensionOk (fun e => (Value.map e).encode) (fun d _ => d) :=
  skip_map.reads (skip_value.reads _)

theorem read_extension.reads {m : MapReader} {key : UInt64}
    (hk : ∀ last, m.last_key = some last → last < key) :
    MapBody m (fun e => e.toList.length) (read_extension m key)
      (fun d e => ∀ x ∈ e, ExtensionOk d x)
      (fun e => (extension_entry key e).flatMap fun x => Writer.uint x.1 ++ x.2)
      (fun d _ => d - 1) := by
  constructor
  · intro s d e s' d' h
    obtain ⟨r, ⟨s1, d1⟩, h1, h2⟩ := run_bind_eq_ok.1 h
    by_cases hm : m.remaining = 0
    · obtain ⟨rfl, rfl, rfl⟩ := ((MapReader.next_key_of_eq hm).map_err _).sound h1
      cases h2
      simp [hm, extension_entry]
    · obtain ⟨⟨k, rfl, -⟩, rfl, rfl⟩ := ((MapReader.next_key_of_ne hm).map_err _).sound h1
      by_cases hkey : k = key
      · simp only [hkey, if_true] at h2
        obtain ⟨x, ⟨s2, d2⟩, h3, h4⟩ := run_bind_eq_ok.1 h2
        obtain ⟨u, ⟨s3, d3⟩, h5, h6⟩ := run_bind_eq_ok.1 h4
        obtain ⟨hx, rfl, rfl⟩ := skip_extension_map.reads.sound h3
        obtain ⟨hend, rfl, rfl⟩ := (MapReader.expect_end.reads _ _ _).sound h5
        cases h6
        simp only at hend
        exact ⟨⟨by simp; omega, by simpa using hx⟩, by simp [extension_entry, hkey], rfl⟩
      · simp only [hkey, if_false] at h2
        cases h2
  · rintro d e t ⟨hm, hx⟩
    rcases e with _ | x
    · exact run_bind_of_ok (((MapReader.next_key_of_eq hm).map_err _).complete t rfl)
    · simp only [Option.toList_some, List.length_singleton] at hm
      have h1 := ((MapReader.next_key_of_ne (m := m) (by omega)).map_err from_cbor).complete
        (d := d)
        ((Value.map x).encode ++ t) ⟨key, rfl, hk⟩
      have h2 := skip_extension_map.reads.complete t (hx x rfl)
      have h3 := (MapReader.expect_end.reads from_cbor ⟨m.remaining - 1, some key⟩
        ManifestError.UnknownCriticalField).complete (d := d) (a := ()) t (by simp [hm])
      simp only [extension_entry, Option.toList_some, List.map_singleton, List.flatMap_singleton,
        List.append_assoc]
      refine (run_bind_of_ok h1).trans ?_
      simp only [if_true]
      refine (run_bind_of_ok h2).trans ?_
      exact run_bind_of_ok h3

theorem toUInt8_back {v : UInt64} {bound : UInt8} (h : v ≤ bound.toUInt64) :
    v.toUInt8.toUInt64 = v := by
  have hb := bound.toNat_lt
  rw [UInt64.le_iff_toNat_le, UInt8.toNat_toUInt64] at h
  rw [← UInt64.toNat_inj, UInt8.toNat_toUInt64, UInt64.toNat_toUInt8]
  omega

theorem toUInt64_le {v bound : UInt8} : v.toUInt64 ≤ bound.toUInt64 ↔ v ≤ bound := by
  rw [UInt64.le_iff_toNat_le, UInt8.le_iff_toNat_le, UInt8.toNat_toUInt64, UInt8.toNat_toUInt64]

/-- An object with values in range. -/
def ObjectPublic.InRange (o : ObjectPublic) : Prop :=
  o.object_role ≤ ROLE_SIDECAR ∧ o.padding_policy ≤ PADDING_FIXED_BUCKET

theorem ObjectPublic.read.reads :
    Reads ObjectPublic.read
      (fun d r => d < MAX_DEPTH ∧ r.1.InRange ∧ ∀ x ∈ r.2, ExtensionOk (d + 1) x)
      (fun r => MapWriter (r.1.fields ++ extension_entry 7 r.2)) (fun d _ => d) := by
  unfold ObjectPublic.read
  refine Reads.congr (MapBody.start
    (fun r : RawObject => r.2.toList.length + 7) (fun r => ?_)
    fun m hm => MapBody.key (by simp [hm])
    fun m hm => MapBody.value (fun r : RawObject => r.1.object_id)
      ((Reader.bytes_exact.reads (by decide)).map_err _) (fun _ => MapBody.key (by simp [hm])
    fun m hm => MapBody.value (fun r : RawObject => r.1.object_role.toUInt64)
      (Reader.uint.reads.map_err _) (fun _ => MapBody.key (by simp [hm])
    fun m hm => MapBody.value (fun r : RawObject => r.1.ciphertext_root)
      ((Reader.bytes_exact.reads (by decide)).map_err _) (fun _ => MapBody.key (by simp [hm])
    fun m hm => MapBody.value (fun r : RawObject => r.1.ciphertext_size)
      (Reader.uint.reads.map_err _) (fun _ => MapBody.key (by simp [hm])
    fun m hm => MapBody.value (fun r : RawObject => r.1.chunk_ciphertext_size)
      (Reader.uint.reads.map_err _) (fun _ => MapBody.key (by simp [hm])
    fun m hm => MapBody.value (fun r : RawObject => r.1.chunk_count)
      (Reader.uint.reads.map_err _) (fun _ => MapBody.key (by simp [hm])
    fun m hm => MapBody.value
      (fun r : RawObject => r.1.padding_policy.toUInt64)
      (Reader.uint.reads.map_err _) (fun _ => MapBody.last
      (fun r : RawObject => r.2) (read_extension.reads (by simp [hm]))
      (fun _ => Reads.fail_if _ _ (Reads.pure _))
      ?_) ?padding) ?_) ?_) ?_) ?_) ?role) ?_) ?admits ?writes ?depth
  case admits =>
    intro d r
    simp only [valid_role, valid_padding, toUInt64_le, InRange, Bool.or_eq_true, Bool.not_eq_true',
      decide_eq_false_iff_not, not_or, not_not, true_and, UInt8.toUInt8_toUInt64]
    tauto
  case writes =>
    intro d r _
    have hlen : (r.1.fields ++ extension_entry 7 r.2).length = r.2.toList.length + 7 := by
      simp only [fields, extension_entry, List.length_append, List.length_map, List.length_cons,
        List.length_nil]
      omega
    rw [MapWriter, hlen]
    simp [fields]
  case depth =>
    intro d r _
    rfl
  case padding =>
    rintro d v r - ⟨-, hv, hr⟩
    simp only [valid_padding, Bool.or_eq_true, Bool.not_eq_true', decide_eq_false_iff_not,
      not_or, not_not] at hv
    rw [hr]
    exact toUInt8_back hv.2
  case role =>
    rintro d v r - ⟨-, -, -, -, -, -, hv, hr⟩
    simp only [valid_role, Bool.or_eq_true, Bool.not_eq_true', decide_eq_false_iff_not,
      not_or, not_not] at hv
    rw [hr]
    exact toUInt8_back hv.1
  · rcases r.2 with _ | e <;> simp
  all_goals grind

/-! ## The manifest -/

/-- A manifest with the extension maps it came with. -/
structure RawManifest where
  protocol_minor : UInt64
  suite_id : UInt16
  transfer_id : Arr 32
  created_at : UInt64
  expires_at : UInt64
  route_profile : UInt8
  objects : List RawObject
  private_manifest_ciphertext_hash : Arr 32
  capability_scheme : UInt64
  extension : Option Extension

namespace RawManifest

/-- What the decoder returns. -/
def kept (raw : RawManifest) : PublicManifest where
  protocol_minor := raw.protocol_minor
  suite_id := raw.suite_id
  transfer_id := raw.transfer_id
  created_at := raw.created_at
  expires_at := raw.expires_at
  route_profile := raw.route_profile
  objects := raw.objects.map Prod.fst
  private_manifest_ciphertext_hash := raw.private_manifest_ciphertext_hash
  capability_scheme := raw.capability_scheme

/-- What the decoder drops: the extension map of each object, and its own. -/
def dropped (raw : RawManifest) : List (Option Extension) × Option Extension :=
  (raw.objects.map Prod.snd, raw.extension)

/-- The entries of the map that is read as `raw`. -/
def fields (raw : RawManifest) : List (UInt64 × Bytes) :=
  [(0, Writer.uint PROTOCOL_MAJOR.toUInt64), (1, Writer.uint raw.protocol_minor),
    (2, Writer.uint raw.suite_id.toUInt64), (3, Writer.bytes raw.transfer_id.bytes),
    (4, Writer.uint raw.created_at), (5, Writer.uint raw.expires_at),
    (6, Writer.uint raw.route_profile.toUInt64),
    (7, Writer.array (.ofNat raw.objects.length) ++ raw.objects.flatMap fun r =>
      MapWriter (r.1.fields ++ extension_entry 7 r.2)),
    (8, Writer.bytes raw.private_manifest_ciphertext_hash.bytes),
    (9, Writer.uint raw.capability_scheme)] ++ extension_entry 10 raw.extension

def encode (raw : RawManifest) : Bytes := MapWriter raw.fields

theorem eq_of_parts {raw raw' : RawManifest} (hk : raw.kept = raw'.kept)
    (hd : raw.dropped = raw'.dropped) : raw = raw' := by
  rcases raw with ⟨_, _, _, _, _, _, objects, _, _, _⟩
  rcases raw' with ⟨_, _, _, _, _, _, objects', _, _, _⟩
  simp only [kept, dropped, PublicManifest.mk.injEq, Prod.mk.injEq] at hk hd
  obtain ⟨rfl, rfl, rfl, rfl, rfl, rfl, hfst, rfl, rfl⟩ := hk
  obtain ⟨hsnd, rfl⟩ := hd
  have hobj : objects = objects' :=
    (List.zip_of_prod hfst hsnd).trans (List.zip_of_prod rfl rfl).symm
  rw [hobj]

end RawManifest

namespace PublicManifest

def encode (m : PublicManifest) : Bytes :=
  MapWriter [(0, Writer.uint PROTOCOL_MAJOR.toUInt64), (1, Writer.uint m.protocol_minor),
    (2, Writer.uint m.suite_id.toUInt64), (3, Writer.bytes m.transfer_id.bytes),
    (4, Writer.uint m.created_at), (5, Writer.uint m.expires_at),
    (6, Writer.uint m.route_profile.toUInt64),
    (7, Writer.array (.ofNat m.objects.length) ++ m.objects.flatMap ObjectPublic.encode),
    (8, Writer.bytes m.private_manifest_ciphertext_hash.bytes),
    (9, Writer.uint m.capability_scheme)]

def read : Parse ManifestError RawManifest := do
  let m ← map_err from_cbor Reader.map
  let m ← map_err from_cbor (m.expect_key 0)
  let major ← map_err from_cbor Reader.uint
  fail_if (major ≠ PROTOCOL_MAJOR.toUInt64) .UnsupportedVersion
  let m ← map_err from_cbor (m.expect_key 1)
  let protocol_minor ← map_err from_cbor Reader.uint
  let m ← map_err from_cbor (m.expect_key 2)
  let suite_id ← map_err from_cbor Reader.uint
  fail_if (suite_id ≠ SUITE_ID.toUInt64) .UnsupportedSuite
  let m ← map_err from_cbor (m.expect_key 3)
  let transfer_id ← map_err from_cbor (Reader.bytes_exact 32)
  let m ← map_err from_cbor (m.expect_key 4)
  let created_at ← map_err from_cbor Reader.uint
  let m ← map_err from_cbor (m.expect_key 5)
  let expires_at ← map_err from_cbor Reader.uint
  let m ← map_err from_cbor (m.expect_key 6)
  let route_profile ← map_err from_cbor Reader.uint
  fail_if (!valid_route_profile route_profile) .InvalidValue
  let m ← map_err from_cbor (m.expect_key 7)
  let objects ← Reader.array_of from_cbor MAX_OBJECTS .TooManyObjects ObjectPublic.read
  let m ← map_err from_cbor (m.expect_key 8)
  let private_manifest_ciphertext_hash ← map_err from_cbor (Reader.bytes_exact 32)
  let m ← map_err from_cbor (m.expect_key 9)
  let capability_scheme ← map_err from_cbor Reader.uint
  let extension ← read_extension m 10
  pure ⟨protocol_minor, suite_id.toUInt16, transfer_id, created_at, expires_at,
    route_profile.toUInt8, objects, private_manifest_ciphertext_hash, capability_scheme, extension⟩

/-- One turn of the loop over the objects. -/
def validate_object (object : ObjectPublic) : Except ManifestError Unit :=
  if object.chunk_ciphertext_size < .ofNat AEAD_TAG_LEN then .error .InvalidValue
  else
    let plaintext_chunk := object.chunk_ciphertext_size - .ofNat AEAD_TAG_LEN
    if plaintext_chunk.toUInt32 ∉ ALLOWED_CHUNK_SIZES then .error .InvalidValue
    else if object.chunk_count = 0 then
      if object.ciphertext_size ≠ 0 then .error .InvalidValue else .ok ()
    else
      let max := object.chunk_count * object.chunk_ciphertext_size
      let min := max - object.chunk_ciphertext_size + 1 + .ofNat AEAD_TAG_LEN
      if object.ciphertext_size > max || object.ciphertext_size < min then .error .InvalidValue
      else .ok ()

/-- The loop over the objects, with the ids seen so far. -/
def validate_objects (seen : List (Arr 32)) : List ObjectPublic → Except ManifestError Unit
  | [] => .ok ()
  | object :: objects =>
    if object.object_id ∈ seen then .error .InvalidValue
    else do
      validate_object object
      validate_objects (object.object_id :: seen) objects

def validate (m : PublicManifest) : Except ManifestError Unit :=
  if m.objects = [] then .error .InvalidValue
  else if m.expires_at ≤ m.created_at then .error .InvalidValue
  else if m.capability_scheme ≠ CAPABILITY_SCHEME then .error .InvalidValue
  else if (m.objects.filter fun o => o.object_role = ROLE_PRIMARY).length ≠ 1 then
    .error .InvalidValue
  else validate_objects [] m.objects

/-- The manifest as it was read, before `validate`. -/
def read_raw (bytes : Bytes) : Except ManifestError RawManifest := do
  let r ← (Reader.new bytes).mapError from_cbor
  Reader.read_all from_cbor read r

def decode (bytes : Bytes) : Except ManifestError PublicManifest := do
  let raw ← read_raw bytes
  raw.kept.validate
  pure raw.kept

def primary (m : PublicManifest) : Option ObjectPublic :=
  m.objects.find? fun o => o.object_role = ROLE_PRIMARY

def commitment (P : Primitives) (m : PublicManifest) : Arr 32 :=
  P.blake3 (COMMITMENT_DOMAIN ++ m.encode ++ m.private_manifest_ciphertext_hash.bytes)

/-- A manifest with values in range. -/
def InRange (m : PublicManifest) : Prop :=
  m.suite_id = SUITE_ID ∧ m.route_profile ≤ ROUTE_STEALTH_TRANSFER ∧
    m.objects.length ≤ MAX_OBJECTS.toNat ∧ ∀ o ∈ m.objects, o.InRange

theorem read.reads :
    Reads read
      (fun d raw => d + 1 < MAX_DEPTH ∧ raw.kept.InRange ∧
        (∀ r ∈ raw.objects, d + 2 < MAX_DEPTH ∧ ∀ x ∈ r.2, ExtensionOk (d + 3) x) ∧
        ∀ x ∈ raw.extension, ExtensionOk (d + 1) x)
      RawManifest.encode (fun d _ => d) := by
  unfold read
  refine Reads.congr (MapBody.start
    (fun r : RawManifest => r.extension.toList.length + 10) (fun r => ?_)
    fun m hm => MapBody.key (by simp [hm])
    fun m hm => MapBody.value (fun _ : RawManifest => PROTOCOL_MAJOR.toUInt64)
      (Reader.uint.reads.map_err _) (fun _ => MapBody.value (fun _ => ())
      (Reads.check _ _) (fun _ => MapBody.key (by simp [hm])
    fun m hm => MapBody.value RawManifest.protocol_minor
      (Reader.uint.reads.map_err _) (fun _ => MapBody.key (by simp [hm])
    fun m hm => MapBody.value (fun r : RawManifest => r.suite_id.toUInt64)
      (Reader.uint.reads.map_err _) (fun _ => MapBody.value (fun _ => ())
      (Reads.check _ _) (fun _ => MapBody.key (by simp [hm])
    fun m hm => MapBody.value RawManifest.transfer_id
      ((Reader.bytes_exact.reads (by decide)).map_err _) (fun _ => MapBody.key (by simp [hm])
    fun m hm => MapBody.value RawManifest.created_at
      (Reader.uint.reads.map_err _) (fun _ => MapBody.key (by simp [hm])
    fun m hm => MapBody.value RawManifest.expires_at
      (Reader.uint.reads.map_err _) (fun _ => MapBody.key (by simp [hm])
    fun m hm => MapBody.value (fun r : RawManifest => r.route_profile.toUInt64)
      (Reader.uint.reads.map_err _) (fun _ => MapBody.value (fun _ => ())
      (Reads.check _ _) (fun _ => MapBody.key (by simp [hm])
    fun m hm => MapBody.value RawManifest.objects
      (Reader.array_of.reads ObjectPublic.read.reads) (fun _ => MapBody.key (by simp [hm])
    fun m hm => MapBody.value RawManifest.private_manifest_ciphertext_hash
      ((Reader.bytes_exact.reads (by decide)).map_err _) (fun _ => MapBody.key (by simp [hm])
    fun m hm => MapBody.value RawManifest.capability_scheme
      (Reader.uint.reads.map_err _) (fun _ => MapBody.last RawManifest.extension
      (read_extension.reads (by simp [hm])) (fun _ => Reads.pure _)
      ?_) ?_) ?_) ?_) ?_) ?route) ?_) ?_) ?_) ?_) ?suite) ?_) ?_) ?major) ?admits ?writes ?depth
  case admits =>
    intro d raw
    have hsuite : raw.suite_id.toUInt64 = SUITE_ID.toUInt64 ↔ raw.suite_id = SUITE_ID :=
      UInt16.toUInt64_inj
    have hobjects : (∀ a ∈ raw.objects, d + 2 < MAX_DEPTH ∧ a.1.InRange ∧
          ∀ x ∈ a.2, ExtensionOk (d + 3) x) ↔
        (∀ o ∈ raw.objects.map Prod.fst, o.InRange) ∧
          ∀ r ∈ raw.objects, d + 2 < MAX_DEPTH ∧ ∀ x ∈ r.2, ExtensionOk (d + 3) x := by
      rw [List.forall_mem_map]
      exact ⟨fun h => ⟨fun a ha => (h a ha).2.1, fun a ha => ⟨(h a ha).1, (h a ha).2.2⟩⟩,
        fun h a ha => ⟨(h.2 a ha).1, h.1 a ha, (h.2 a ha).2⟩⟩
    simp only [valid_route_profile, toUInt64_le, Bool.not_eq_true', decide_eq_false_iff_not,
      not_not, ne_eq, true_and, hsuite, hobjects, InRange, RawManifest.kept, List.length_map]
    have hd : d + 1 < MAX_DEPTH → d < MAX_DEPTH := Nat.lt_of_succ_lt
    have hraw : raw = { raw with
        suite_id := raw.suite_id.toUInt64.toUInt16
        route_profile := raw.route_profile.toUInt64.toUInt8 } := by
      simp
    constructor
    · rintro ⟨-, h1, h2, ⟨h3, h4, h5, h6⟩, h7, -⟩
      exact ⟨h3, ⟨h1, h2, h4, h5⟩, h6, h7⟩
    · rintro ⟨h3, ⟨h1, h2, h4, h5⟩, h6, h7⟩
      exact ⟨hd h3, h1, h2, ⟨h3, h4, h5, h6⟩, h7, hraw⟩
  case writes =>
    intro d raw _
    have hlen : raw.fields.length = raw.extension.toList.length + 10 := by
      simp only [RawManifest.fields, extension_entry, List.length_append, List.length_map,
        List.length_cons, List.length_nil]
      omega
    rw [RawManifest.encode, MapWriter, hlen]
    simp [RawManifest.fields]
  case depth =>
    intro d raw _
    rfl
  case route =>
    rintro d v r - ⟨hv, h⟩
    simp only [valid_route_profile, Bool.not_eq_true', decide_eq_false_iff_not, not_not] at hv
    have hr : r.route_profile = v.toUInt8 := by grind
    rw [hr]
    exact toUInt8_back hv
  case suite =>
    rintro d v r - ⟨hv, h⟩
    have hr : r.suite_id = v.toUInt16 := by grind
    rw [hr, not_not.1 hv]
    rfl
  case major =>
    rintro d v r - ⟨hv, -⟩
    exact (not_not.1 hv).symm
  · rcases r.extension with _ | e <;> simp
  all_goals grind

/-- The manifest with no extension maps. -/
def bare (m : PublicManifest) : RawManifest where
  protocol_minor := m.protocol_minor
  suite_id := m.suite_id
  transfer_id := m.transfer_id
  created_at := m.created_at
  expires_at := m.expires_at
  route_profile := m.route_profile
  objects := m.objects.map fun o => (o, none)
  private_manifest_ciphertext_hash := m.private_manifest_ciphertext_hash
  capability_scheme := m.capability_scheme
  extension := none

@[simp] theorem kept_bare (m : PublicManifest) : m.bare.kept = m := by
  simp [RawManifest.kept, bare, Function.comp_def]

theorem encode_bare (m : PublicManifest) : m.bare.encode = m.encode := by
  simp [RawManifest.encode, RawManifest.fields, bare, encode, extension_entry, List.flatMap_map]
  rfl

/-- The extension maps that `decode` drops. -/
def dropped (bytes : Bytes) : Option (List (Option Extension) × Option Extension) :=
  (read_raw bytes).toOption.map RawManifest.dropped

/-- What `read` accepts of a whole input. -/
def Fits (raw : RawManifest) : Prop :=
  raw.kept.InRange ∧ (∀ r ∈ raw.objects, ∀ x ∈ r.2, ExtensionOk 3 x) ∧
    ∀ x ∈ raw.extension, ExtensionOk 1 x

theorem read_raw_eq_ok {bytes : Bytes} {raw : RawManifest} :
    read_raw bytes = .ok raw ↔
      bytes.length ≤ MAX_CONTROL_SIZE ∧ Fits raw ∧ bytes = raw.encode := by
  refine (Reader.new_read_all_eq_ok read.reads).trans ?_
  simp only [MAX_DEPTH, Nat.reduceAdd, Nat.reduceLT, true_and]
  exact Iff.rfl

/-- The encodings of manifests in range can be told apart. -/
theorem encode_apart {m m' : PublicManifest} {s t : Bytes} (hm : m.InRange) (hm' : m'.InRange)
    (h : m.encode ++ s = m'.encode ++ t) : m = m' ∧ s = t := by
  have fits : ∀ {m : PublicManifest}, m.InRange → 0 + 1 < MAX_DEPTH ∧ m.bare.kept.InRange ∧
      (∀ r ∈ m.bare.objects, 0 + 2 < MAX_DEPTH ∧ ∀ x ∈ r.2, ExtensionOk (0 + 3) x) ∧
      ∀ x ∈ m.bare.extension, ExtensionOk (0 + 1) x := by
    intro m hm
    rw [kept_bare]
    exact ⟨by decide, hm, by simp [bare, MAX_DEPTH], by simp [bare]⟩
  rw [← encode_bare m, ← encode_bare m'] at h
  obtain ⟨h1, h2⟩ := read.reads.writes_apart (fits hm) (fits hm') h
  refine ⟨?_, h2⟩
  rw [← kept_bare m, h1, kept_bare]

theorem decode_eq_ok {bytes : Bytes} {m : PublicManifest} :
    decode bytes = .ok m ↔
      ∃ raw, read_raw bytes = .ok raw ∧ raw.kept = m ∧ m.validate = .ok () := by
  unfold decode
  simp only [bind_eq_ok, pure_eq_ok]
  constructor
  · rintro ⟨raw, hraw, u, hv, rfl⟩
    exact ⟨raw, hraw, rfl, hv⟩
  · rintro ⟨raw, hraw, rfl, hv⟩
    exact ⟨raw, hraw, (), hv, rfl⟩

theorem validate_object_eq_ok {o : ObjectPublic} : validate_object o = .ok () ↔
    .ofNat AEAD_TAG_LEN ≤ o.chunk_ciphertext_size ∧
      (o.chunk_ciphertext_size - .ofNat AEAD_TAG_LEN).toUInt32 ∈ ALLOWED_CHUNK_SIZES ∧
      if o.chunk_count = 0 then o.ciphertext_size = 0
      else o.ciphertext_size ≤ o.chunk_count * o.chunk_ciphertext_size ∧
        o.chunk_count * o.chunk_ciphertext_size - o.chunk_ciphertext_size + 1 +
          .ofNat AEAD_TAG_LEN ≤ o.ciphertext_size := by
  unfold validate_object
  dsimp only
  rw [← UInt64.not_lt]
  generalize (o.chunk_ciphertext_size - .ofNat AEAD_TAG_LEN).toUInt32 = size
  by_cases htag : o.chunk_ciphertext_size < .ofNat AEAD_TAG_LEN
  · simp [htag]
  by_cases hsize : size ∈ ALLOWED_CHUNK_SIZES
  · by_cases hzero : o.chunk_count = 0 <;> simp [htag, hsize, hzero]
  · simp [htag, hsize]

theorem validate_eq_ok {m : PublicManifest} : m.validate = .ok () ↔
    m.objects ≠ [] ∧ m.created_at < m.expires_at ∧ m.capability_scheme = CAPABILITY_SCHEME ∧
      (m.objects.filter fun o => o.object_role = ROLE_PRIMARY).length = 1 ∧
      validate_objects [] m.objects = .ok () := by
  unfold validate
  rw [← UInt64.not_le]
  split_ifs with h1 h2 h3 h4
  · simp [h1]
  · simp [h2]
  · simp [h3]
  · simp [h4]
  · simp only [ne_eq, not_not] at h3 h4
    simp [h1, h2, h3, h4]

theorem length_encode_object_le (o : ObjectPublic) : o.encode.length ≤ 200 := by
  have hmap : o.encode.length ≤ _ := length_mapWriter_le_of (.cons (length_bytes_le _)
    (.cons (length_uint_le _) (.cons (length_bytes_le _) (.cons (length_uint_le _)
    (.cons (length_uint_le _) (.cons (length_uint_le _) (.cons (length_uint_le _) .nil)))))))
  simp only [Arr.length_bytes, List.map_cons, List.map_nil, List.sum_cons, List.sum_nil] at hmap
  omega

theorem length_encode_le (m : PublicManifest) :
    m.encode.length ≤ 300 + 200 * m.objects.length := by
  have hobjects : (Writer.array (.ofNat m.objects.length) ++
      m.objects.flatMap ObjectPublic.encode).length ≤ 9 + 200 * m.objects.length := by
    rw [List.length_append]
    exact Nat.add_le_add (length_header_le _ _)
      (length_flatMap_le fun o _ => length_encode_object_le o)
  have hmap : m.encode.length ≤ _ := length_mapWriter_le_of (.cons (length_uint_le _)
    (.cons (length_uint_le _) (.cons (length_uint_le _) (.cons (length_bytes_le _)
    (.cons (length_uint_le _) (.cons (length_uint_le _) (.cons (length_uint_le _)
    (.cons hobjects (.cons (length_bytes_le _) (.cons (length_uint_le _) .nil))))))))))
  simp only [Arr.length_bytes, List.map_cons, List.map_nil, List.sum_cons, List.sum_nil] at hmap
  omega

/-- A valid manifest with values in range is read back. -/
theorem decode_encode {m : PublicManifest} (hr : m.InRange) (hv : m.validate = .ok ())
    (hlen : m.encode.length ≤ MAX_CONTROL_SIZE) : decode m.encode = .ok m := by
  have hfits : Fits m.bare := by
    unfold Fits
    rw [kept_bare]
    exact ⟨hr, by simp [bare], by simp [bare]⟩
  apply decode_eq_ok.2
  exact ⟨m.bare, read_raw_eq_ok.2 ⟨hlen, hfits, (encode_bare m).symm⟩, kept_bare m, hv⟩

theorem decoded_inRange {bytes : Bytes} {m : PublicManifest} (h : decode bytes = .ok m) :
    m.InRange := by
  obtain ⟨raw, hraw, rfl, -⟩ := decode_eq_ok.1 h
  exact (read_raw_eq_ok.1 hraw).2.1.1

end PublicManifest

/-! ## The recipient scope and the sealed manifest -/

structure RecipientScope where
  scope_type : UInt64
  id : Bytes
  deriving DecidableEq

structure SealedManifest where
  nonce : Arr 24
  ciphertext : Bytes
  deriving DecidableEq

def RecipientScope.encode (scope : RecipientScope) : Bytes :=
  MapWriter [(0, Writer.uint scope.scope_type), (1, Writer.bytes scope.id)]

def RecipientScope.hash (P : Primitives) (scope : RecipientScope) : Arr 32 :=
  P.blake3 (SCOPE_DOMAIN ++ scope.encode)

/-- The hash covers the nonce too. -/
def SealedManifest.ciphertext_hash (P : Primitives) (sealed : SealedManifest) : Arr 32 :=
  P.blake3 (sealed.nonce.bytes ++ sealed.ciphertext)

def verify_commitment (P : Primitives) (manifest : PublicManifest) (sealed : SealedManifest)
    (expected_commitment : Arr 32) : Except ManifestError Unit :=
  if !ct_eq manifest.private_manifest_ciphertext_hash.bytes (sealed.ciphertext_hash P).bytes then
    .error .CommitmentMismatch
  else if !ct_eq (manifest.commitment P).bytes expected_commitment.bytes then
    .error .CommitmentMismatch
  else .ok ()

theorem verify_commitment_eq_ok (P : Primitives) {manifest : PublicManifest}
    {sealed : SealedManifest} {expected : Arr 32} {u : Unit} :
    verify_commitment P manifest sealed expected = .ok u ↔
      manifest.private_manifest_ciphertext_hash = sealed.ciphertext_hash P ∧
        manifest.commitment P = expected := by
  unfold verify_commitment
  rw [← Arr.bytes_inj, ← Arr.bytes_inj, ← ct_eq_iff, ← ct_eq_iff]
  split_ifs <;> simp_all

end rtp2_core.manifest
