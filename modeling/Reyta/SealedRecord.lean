-- The records of the state directory. A record is sealed under data that names
-- its domain, its version and its protection level, so a payload comes out of a
-- file only as it went in: whatever stands in the file, it is the very file
-- that was written for that payload, domain and level.
import Reyta.CborExact
import Reyta.Crypto

open byte_string exact_parse

namespace rtp2_core.store

open cbor crypto

def RECORD_VERSION : UInt64 := 1
def MAX_RECORD_BYTES : Nat := 256 * 1024

inductive StoreError where
  | Io (e : String)
  | Corrupt
  | VersionMismatch
  | ProtectionDowngrade
  | UnsafePath (path : String)
  | NotRegularFile (path : String)
  | Seal
  deriving DecidableEq, Repr

def StoreError.from_cbor (_ : CborError) : StoreError := .Corrupt

open StoreError (from_cbor)

inductive Protection where
  | Plaintext
  | PlatformKeystore
  | HardwareKeystore
  deriving DecidableEq, Repr

namespace Protection

def as_u64 : Protection → UInt64
  | .Plaintext => 0
  | .PlatformKeystore => 1
  | .HardwareKeystore => 2

def from_u64 (v : UInt64) : Except StoreError Protection :=
  if v = 0 then .ok .Plaintext
  else if v = 1 then .ok .PlatformKeystore
  else if v = 2 then .ok .HardwareKeystore
  else .error .VersionMismatch

/-- Ordered as the levels are declared. -/
instance : LT Protection := ⟨fun a b => a.as_u64 < b.as_u64⟩

instance (a b : Protection) : Decidable (a < b) := inferInstanceAs (Decidable (a.as_u64 < b.as_u64))

theorem as_u64_inj {a b : Protection} (h : a.as_u64 = b.as_u64) : a = b := by
  cases a <;> cases b <;> first | rfl | cases h

theorem from_u64_eq_ok {v : UInt64} {p : Protection} : from_u64 v = .ok p ↔ p.as_u64 = v := by
  unfold from_u64
  split_ifs with h0 h1 h2
  · rw [Except.ok.injEq, h0]
    exact ⟨fun h => h ▸ rfl, fun h => (as_u64_inj (b := .Plaintext) h).symm⟩
  · rw [Except.ok.injEq, h1]
    exact ⟨fun h => h ▸ rfl, fun h => (as_u64_inj (b := .PlatformKeystore) h).symm⟩
  · rw [Except.ok.injEq, h2]
    exact ⟨fun h => h ▸ rfl, fun h => (as_u64_inj (b := .HardwareKeystore) h).symm⟩
  · refine iff_of_false (by rintro ⟨⟩) fun h => ?_
    cases p with
    | Plaintext => exact h0 h.symm
    | PlatformKeystore => exact h1 h.symm
    | HardwareKeystore => exact h2 h.symm

end Protection

/-- What a sealer draws at random is its first argument. -/
structure SecretSealer where
  protection : Protection
  «seal» : Arr 24 → Bytes → Bytes → Except StoreError Bytes
  «open» : Bytes → Bytes → Except StoreError Bytes

def PlaintextSealer : SecretSealer where
  protection := .Plaintext
  «seal» _ plaintext _ := .ok plaintext
  «open» sealed _ := .ok sealed

variable (P : Primitives)

/-- XChaCha20-Poly1305, with the nonce in front of the ciphertext. -/
def AeadSealer (key : Arr 32) (protection : Protection) : SecretSealer where
  protection := protection
  «seal» nonce plaintext aad :=
    match P.encrypt key nonce aad plaintext with
    | some ciphertext => .ok (nonce.bytes ++ ciphertext)
    | none => .error .Seal
  «open» sealed aad := do
    let nonce ← some_or .Seal (Arr.try_from 24 (sealed.take 24))
    some_or .Seal (P.decrypt key nonce aad (sealed.drop 24))

def record_aad (domain : Bytes) (protection : Protection) : Bytes :=
  domain ++ be_bytes 8 RECORD_VERSION.toNat ++ be_bytes 8 protection.as_u64.toNat

def record_body (protection : Protection) (sealed : Bytes) : Bytes :=
  MapWriter [(0, Writer.uint RECORD_VERSION), (1, Writer.uint protection.as_u64),
    (2, Writer.bytes sealed)]

/-- The bytes of the file that `write_sealed` puts in place. -/
def write_sealed (domain : Bytes) (sealer : SecretSealer) (random : Arr 24) (payload : Bytes) :
    Except StoreError Bytes := do
  let protection := sealer.protection
  let sealed ← sealer.seal random payload (record_aad domain protection)
  let body := record_body protection sealed
  let checksum := P.blake3 (domain ++ body)
  let file_bytes := checksum.bytes ++ body
  refuse_if (file_bytes.length > MAX_RECORD_BYTES) .Corrupt
  pure file_bytes

/-- What is found at a path. -/
inductive Found where
  | missing
  | failed (e : String)
  | special
  | file (mode : Nat) (content : Except String Bytes)

/-- The file that `create_private_file` makes, with its bytes. -/
def Found.private (bytes : Bytes) : Found := .file 0o600 (.ok bytes)

def check_private_mode (mode : Nat) (path : String) : Except StoreError Unit :=
  let octal := String.ofList (Nat.toDigits 8 (mode &&& 0o777))
  refuse_if (mode &&& 0o077 ≠ 0)
    (.UnsafePath s!"{path} is accessible to group or other (mode {octal})")

/-- The three fields of a record, as they stand in it. -/
def read_fields : Parse StoreError (UInt64 × UInt64 × Bytes) := do
  let m ← map_err from_cbor Reader.map
  let m ← map_err from_cbor (m.expect_key 0)
  let version ← map_err from_cbor Reader.uint
  let m ← map_err from_cbor (m.expect_key 1)
  let protection_raw ← map_err from_cbor Reader.uint
  let m ← map_err from_cbor (m.expect_key 2)
  let sealed ← map_err from_cbor Reader.bytes
  m.expect_end from_cbor .Corrupt
  pure (version, protection_raw, sealed)

/-- The steps of `read_sealed` on the bytes of the file. -/
def read_bytes (domain : Bytes) (sealer : SecretSealer) (minimum : Protection) (bytes : Bytes) :
    Except StoreError Bytes := do
  refuse_if (bytes.length < 32 ∨ bytes.length > MAX_RECORD_BYTES) .Corrupt
  let checksum := bytes.take 32
  let body := bytes.drop 32
  refuse_if (!ct_eq checksum (P.blake3 (domain ++ body)).bytes) .Corrupt
  let r ← (Reader.new body).mapError from_cbor
  let (version, protection_raw, sealed) ← Reader.read_all from_cbor read_fields r
  refuse_if (version ≠ RECORD_VERSION) .VersionMismatch
  let protection ← Protection.from_u64 protection_raw
  refuse_if (protection < minimum) .ProtectionDowngrade
  sealer.open sealed (record_aad domain protection)

def read_sealed (path : String) (domain : Bytes) (sealer : SecretSealer) (minimum : Protection) :
    Found → Except StoreError (Option Bytes)
  | .missing => .ok none
  | .failed e => .error (.Io e)
  | .special => .error (.NotRegularFile path)
  | .file mode content => do
    check_private_mode mode path
    let bytes ← content.mapError .Io
    let payload ← read_bytes P domain sealer minimum bytes
    pure (some payload)

/-! ## The fields of a record -/

theorem read_fields.reads :
    Reads read_fields (fun d f => d < MAX_DEPTH ∧ f.2.2.length < 2 ^ 64)
      (fun f => MapWriter [(0, Writer.uint f.1), (1, Writer.uint f.2.1), (2, Writer.bytes f.2.2)])
      (fun d _ => d) := by
  unfold read_fields
  refine Reads.congr (MapBody.start (fun _ : UInt64 × UInt64 × Bytes => 3) (fun _ => by decide)
    fun m hm => MapBody.key (by simp [hm])
    fun m hm => MapBody.value (fun f : UInt64 × UInt64 × Bytes => f.1)
      (Reader.uint.reads.map_err _) (fun _ => MapBody.key (by simp [hm])
    fun m hm => MapBody.value (fun f : UInt64 × UInt64 × Bytes => f.2.1)
      (Reader.uint.reads.map_err _) (fun _ => MapBody.key (by simp [hm])
    fun m hm => MapBody.value (fun f : UInt64 × UInt64 × Bytes => f.2.2)
      (Reader.bytes.reads.map_err _) (fun _ => MapBody.stop _ (Reads.pure _))
      ?_) ?_) ?_) ?admits ?writes ?depth
  case admits =>
    intro d f
    exact ⟨fun h => ⟨h.1, h.2.2.2.1⟩, fun h => ⟨h.1, trivial, trivial, h.2, rfl⟩⟩
  case writes =>
    intro d f _
    simp [MapWriter]
  case depth =>
    intro d f _
    rfl
  all_goals grind

variable {P} {domain : Bytes} {sealer : SecretSealer} {minimum : Protection}

/-- The bytes of a record. -/
def record_file (P : Primitives) (domain : Bytes) (protection : Protection) (sealed : Bytes) :
    Bytes :=
  (P.blake3 (domain ++ record_body protection sealed)).bytes ++ record_body protection sealed

theorem write_sealed_eq_ok {random : Arr 24} {payload bytes : Bytes} :
    write_sealed P domain sealer random payload = .ok bytes ↔
      ∃ sealed, sealer.seal random payload (record_aad domain sealer.protection) = .ok sealed ∧
        (record_file P domain sealer.protection sealed).length ≤ MAX_RECORD_BYTES ∧
        bytes = record_file P domain sealer.protection sealed := by
  unfold write_sealed
  simp only [bind_eq_ok, refuse_if_eq_ok, pure_eq_ok, exists_and_left, exists_const, Nat.not_lt,
    gt_iff_lt]
  constructor
  · rintro ⟨sealed, hseal, hlen, rfl⟩
    exact ⟨sealed, hseal, hlen, rfl⟩
  · rintro ⟨sealed, hseal, hlen, rfl⟩
    exact ⟨sealed, hseal, hlen, rfl⟩

theorem length_lt_of_record_file {protection : Protection} {sealed : Bytes}
    (h : (record_file P domain protection sealed).length ≤ MAX_RECORD_BYTES) :
    (record_body protection sealed).length ≤ MAX_CONTROL_SIZE ∧ sealed.length < 2 ^ 64 := by
  have hbody : (record_body protection sealed).length ≤ MAX_RECORD_BYTES := by
    refine Nat.le_trans ?_ h
    simp [record_file]
  have hsealed : sealed.length ≤ (record_body protection sealed).length := by
    refine Nat.le_trans (length_le_bytes sealed) (length_le_mapWriter
      (e := (2, Writer.bytes sealed)) ?_)
    simp
  exact ⟨Nat.le_trans hbody (by decide),
    Nat.lt_of_le_of_lt (Nat.le_trans hsealed hbody) (by decide)⟩

theorem record_file_parts (P : Primitives) (domain : Bytes) (protection : Protection)
    (sealed : Bytes) :
    (record_file P domain protection sealed).take 32 =
        (P.blake3 (domain ++ record_body protection sealed)).bytes ∧
      (record_file P domain protection sealed).drop 32 = record_body protection sealed :=
  ⟨List.take_left' (Arr.length_bytes _), List.drop_left' (Arr.length_bytes _)⟩

/-- A record is read up to the check of its level. -/
theorem read_bytes_record_file {protection : Protection} {sealed : Bytes}
    (h : (record_file P domain protection sealed).length ≤ MAX_RECORD_BYTES) :
    read_bytes P domain sealer minimum (record_file P domain protection sealed) = (do
      refuse_if (protection < minimum) .ProtectionDowngrade
      sealer.open sealed (record_aad domain protection)) := by
  obtain ⟨htake, hdrop⟩ := record_file_parts P domain protection sealed
  obtain ⟨hbody, hsealed⟩ := length_lt_of_record_file h
  have hlong : 32 ≤ (record_file P domain protection sealed).length := by simp [record_file]
  have hread : ((Reader.new (record_body protection sealed)).mapError from_cbor >>=
      Reader.read_all from_cbor read_fields) = .ok (RECORD_VERSION, protection.as_u64, sealed) :=
    (Reader.new_read_all_eq_ok read_fields.reads).2 ⟨hbody, ⟨by decide, hsealed⟩, rfl⟩
  obtain ⟨r, hr, hfields⟩ := bind_eq_ok.1 hread
  have hlen : refuse_if ((record_file P domain protection sealed).length < 32 ∨
      (record_file P domain protection sealed).length > MAX_RECORD_BYTES)
        StoreError.Corrupt = .ok () := refuse_if_eq_ok.2 (by omega)
  have hsum : refuse_if (!ct_eq (P.blake3 (domain ++ record_body protection sealed)).bytes
      (P.blake3 (domain ++ record_body protection sealed)).bytes) StoreError.Corrupt = .ok () :=
    refuse_if_eq_ok.2 (by simp [ct_eq_iff])
  have hversion : refuse_if (RECORD_VERSION ≠ RECORD_VERSION) StoreError.VersionMismatch =
      .ok () := refuse_if_eq_ok.2 (not_not.2 rfl)
  unfold read_bytes
  simp only [htake, hdrop, hlen, hsum, hr, hfields, hversion, Protection.from_u64_eq_ok.2 rfl,
    ok_bind]

/-- Bytes that are read are a record of the domain. -/
theorem of_read_bytes {bytes payload : Bytes}
    (h : read_bytes P domain sealer minimum bytes = .ok payload) :
    ∃ protection sealed, bytes = record_file P domain protection sealed ∧
      bytes.length ≤ MAX_RECORD_BYTES ∧ ¬ protection < minimum ∧
      sealer.open sealed (record_aad domain protection) = .ok payload := by
  unfold read_bytes at h
  obtain ⟨_, hlen, h⟩ := bind_eq_ok.1 h
  obtain ⟨_, hsum, h⟩ := bind_eq_ok.1 h
  obtain ⟨r, hr, h⟩ := bind_eq_ok.1 h
  obtain ⟨⟨version, protection_raw, sealed⟩, hfields, h⟩ := bind_eq_ok.1 h
  obtain ⟨_, hversion, h⟩ := bind_eq_ok.1 h
  obtain ⟨protection, hlevel, h⟩ := bind_eq_ok.1 h
  obtain ⟨_, hmin, hopen⟩ := bind_eq_ok.1 h
  rw [refuse_if_eq_ok] at hlen hsum hversion hmin
  obtain ⟨-, -, hbody⟩ := (Reader.new_read_all_eq_ok read_fields.reads).1
    (bind_eq_ok.2 ⟨r, hr, hfields⟩)
  obtain rfl := not_not.1 hversion
  obtain rfl := Protection.from_u64_eq_ok.1 hlevel
  have hchecksum : bytes.take 32 = (P.blake3 (domain ++ bytes.drop 32)).bytes := by
    simpa [ct_eq_iff] using hsum
  refine ⟨protection, sealed, ?_, by omega, hmin, hopen⟩
  calc bytes = bytes.take 32 ++ bytes.drop 32 := (List.take_append_drop 32 bytes).symm
    _ = record_file P domain protection sealed := by rw [hchecksum, hbody]; rfl

/-! ## What a key has sealed -/

/-- A call of `write_sealed` with a sealer of the key. -/
structure Sealing where
  domain : Bytes
  protection : Protection
  nonce : Arr 24
  payload : Bytes

namespace Sealing

def aad (s : Sealing) : Bytes := record_aad s.domain s.protection

/-- The bytes it writes. -/
def write (P : Primitives) (key : Arr 32) (s : Sealing) : Except StoreError Bytes :=
  write_sealed P s.domain (AeadSealer P key s.protection) s.nonce s.payload

end Sealing

/-- The key opens what was sealed with it, under the data it was sealed for, and
nothing else. -/
def Ideal (P : Primitives) (key : Arr 32) (sealings : List Sealing) : Prop :=
  ∀ nonce aad ciphertext msg, P.decrypt key nonce aad ciphertext = some msg ↔
    ∃ s ∈ sealings, s.nonce = nonce ∧ s.aad = aad ∧ s.payload = msg ∧
      P.encrypt key nonce aad msg = some ciphertext

/-- The version and the level have fixed lengths, so the domain before them can
be told apart. -/
theorem record_aad_inj {domain domain' : Bytes} {p p' : Protection}
    (h : record_aad domain p = record_aad domain' p') : domain = domain' ∧ p = p' := by
  unfold record_aad at h
  obtain ⟨hfront, hlevel⟩ := List.append_inj' h (by simp)
  obtain ⟨hdomain, -⟩ := List.append_inj' hfront (by simp)
  refine ⟨hdomain, Protection.as_u64_inj (UInt64.toNat_inj.1 ?_)⟩
  exact be_bytes_inj p.as_u64.toNat_lt p'.as_u64.toNat_lt hlevel

variable {key : Arr 32} {sealings : List Sealing}

theorem seal_eq_ok {protection : Protection} {nonce : Arr 24} {payload aad sealed : Bytes} :
    (AeadSealer P key protection).seal nonce payload aad = .ok sealed ↔
      ∃ ciphertext, P.encrypt key nonce aad payload = some ciphertext ∧
        sealed = nonce.bytes ++ ciphertext := by
  change (match P.encrypt key nonce aad payload with
    | some ciphertext => Except.ok (nonce.bytes ++ ciphertext)
    | none => .error StoreError.Seal) = .ok sealed ↔ _
  cases P.encrypt key nonce aad payload with
  | none => simp
  | some ciphertext => simp [eq_comm]

theorem open_eq_ok {protection : Protection} {sealed aad payload : Bytes} :
    (AeadSealer P key protection).open sealed aad = .ok payload ↔
      ∃ nonce ciphertext, sealed = nonce.bytes ++ ciphertext ∧
        P.decrypt key nonce aad ciphertext = some payload := by
  change (do
    let nonce ← some_or StoreError.Seal (Arr.try_from 24 (sealed.take 24))
    some_or .Seal (P.decrypt key nonce aad (sealed.drop 24))) = .ok payload ↔ _
  simp only [bind_eq_ok, some_or_eq_ok, Arr.try_from_eq_some]
  constructor
  · rintro ⟨nonce, hnonce, hdec⟩
    refine ⟨nonce, sealed.drop 24, ?_, hdec⟩
    rw [hnonce, List.take_append_drop]
  · rintro ⟨nonce, ciphertext, rfl, hdec⟩
    refine ⟨nonce, (List.take_left' nonce.length_bytes).symm, ?_⟩
    rwa [List.drop_left' nonce.length_bytes]

/-- What was sealed is opened again. -/
theorem Ideal.open_seal (h : Ideal P key sealings) {s : Sealing} (hs : s ∈ sealings)
    {protection : Protection} {sealed : Bytes}
    (hseal : (AeadSealer P key s.protection).seal s.nonce s.payload s.aad = .ok sealed) :
    (AeadSealer P key protection).open sealed s.aad = .ok s.payload := by
  obtain ⟨ciphertext, henc, rfl⟩ := seal_eq_ok.1 hseal
  exact open_eq_ok.2 ⟨s.nonce, ciphertext, rfl, (h _ _ _ _).2 ⟨s, hs, rfl, rfl, rfl, henc⟩⟩

/-- What is opened was sealed, for the domain and the level it is opened for. -/
theorem Ideal.of_open (h : Ideal P key sealings) {p protection : Protection}
    {domain sealed payload : Bytes}
    (hopen : (AeadSealer P key p).open sealed (record_aad domain protection) = .ok payload) :
    ∃ s ∈ sealings, s.domain = domain ∧ s.protection = protection ∧ s.payload = payload ∧
      (AeadSealer P key protection).seal s.nonce payload (record_aad domain protection) =
        .ok sealed := by
  obtain ⟨nonce, ciphertext, rfl, hdec⟩ := open_eq_ok.1 hopen
  obtain ⟨s, hs, rfl, haad, hpayload, henc⟩ := (h _ _ _ _).1 hdec
  obtain ⟨hdomain, hprotection⟩ := record_aad_inj haad
  exact ⟨s, hs, hdomain, hprotection, hpayload, seal_eq_ok.2 ⟨ciphertext, henc, rfl⟩⟩

theorem read_sealed_private {path : String} (bytes : Bytes) :
    read_sealed P path domain sealer minimum (.private bytes) = (do
      let payload ← read_bytes P domain sealer minimum bytes
      pure (some payload)) := rfl

/-- A record with a payload that its sealer opens is read, or refused for its
level. -/
theorem read_sealed_record_file {path : String} {protection : Protection} {sealed payload : Bytes}
    (hlen : (record_file P domain protection sealed).length ≤ MAX_RECORD_BYTES)
    (hopen : sealer.open sealed (record_aad domain protection) = .ok payload) :
    read_sealed P path domain sealer minimum (.private (record_file P domain protection sealed)) =
      if protection < minimum then .error .ProtectionDowngrade else .ok (some payload) := by
  rw [read_sealed_private, read_bytes_record_file hlen, hopen]
  by_cases hlt : protection < minimum
  · simp only [refuse_if, if_pos hlt]
    rfl
  · simp only [refuse_if, if_neg hlt]
    rfl

theorem of_read_sealed {path : String} {found : Found} {payload : Bytes}
    (h : read_sealed P path domain sealer minimum found = .ok (some payload)) :
    ∃ mode bytes, found = .file mode (.ok bytes) ∧
      read_bytes P domain sealer minimum bytes = .ok payload := by
  cases found with
  | missing => cases h
  | failed e => cases h
  | special => cases h
  | file mode content =>
    obtain ⟨-, -, h⟩ := bind_eq_ok.1 h
    obtain ⟨bytes, hcontent, h⟩ := bind_eq_ok.1 h
    obtain ⟨payload', hread, hpayload⟩ := bind_eq_ok.1 h
    obtain rfl := Option.some.inj (pure_eq_ok.1 hpayload)
    rw [mapError_eq_ok.1 hcontent]
    exact ⟨mode, bytes, rfl, hread⟩

/-- What was sealed is opened again. -/
def SecretSealer.Opens (sealer : SecretSealer) : Prop :=
  ∀ random payload aad sealed, sealer.seal random payload aad = .ok sealed →
    sealer.open sealed aad = .ok payload

/-- A payload of a size that occurs is sealed, with a bounded overhead. -/
def SecretSealer.Seals (sealer : SecretSealer) : Prop :=
  ∀ random payload aad, payload.length ≤ 2 ^ 16 →
    ∃ sealed, sealer.seal random payload aad = .ok sealed ∧ sealed.length ≤ payload.length + 1024

theorem PlaintextSealer.opens : PlaintextSealer.Opens := fun _ _ _ _ h => h.symm

theorem AeadSealer.opens (hdec : P.Decrypts) (key : Arr 32) (protection : Protection) :
    (AeadSealer P key protection).Opens := by
  intro nonce payload aad sealed h
  obtain ⟨ciphertext, henc, rfl⟩ := seal_eq_ok.1 h
  exact open_eq_ok.2 ⟨nonce, ciphertext, rfl, hdec _ _ _ _ _ henc⟩

theorem PlaintextSealer.seals : PlaintextSealer.Seals :=
  fun _ payload _ _ => ⟨payload, rfl, Nat.le_add_right _ _⟩

theorem AeadSealer.seals (henc : P.Encrypts) (key : Arr 32) (protection : Protection) :
    (AeadSealer P key protection).Seals := by
  intro nonce payload aad hlen
  obtain ⟨c, hc, hclen⟩ := henc key nonce aad payload (Nat.lt_of_le_of_lt hlen (by decide))
  refine ⟨nonce.bytes ++ c, seal_eq_ok.2 ⟨c, hc, rfl⟩, ?_⟩
  rw [List.length_append, Arr.length_bytes, hclen]
  omega

theorem exists_write_sealed (P : Primitives) (domain : Bytes) (hseals : sealer.Seals)
    (random : Arr 24) {payload : Bytes} (h : payload.length ≤ 2 ^ 16) :
    ∃ bytes, write_sealed P domain sealer random payload = .ok bytes := by
  obtain ⟨sealed, hseal, hle⟩ := hseals random payload (record_aad domain sealer.protection) h
  refine ⟨_, write_sealed_eq_ok.2 ⟨sealed, hseal, ?_, rfl⟩⟩
  have hbody : (record_body sealer.protection sealed).length ≤ _ := length_mapWriter_le_of
    (.cons (length_uint_le _) (.cons (length_uint_le _) (.cons (length_bytes_le _) .nil)))
  simp only [List.map_cons, List.map_nil, List.sum_cons, List.sum_nil] at hbody
  rw [record_file, List.length_append, Arr.length_bytes, MAX_RECORD_BYTES]
  omega

theorem read_sealed_of_write (hopens : sealer.Opens) (path : String) (minimum : Protection)
    {random : Arr 24} {payload bytes : Bytes}
    (h : write_sealed P domain sealer random payload = .ok bytes) :
    read_sealed P path domain sealer minimum (.private bytes) =
      if sealer.protection < minimum then .error .ProtectionDowngrade else .ok (some payload) := by
  obtain ⟨sealed, hseal, hlen, rfl⟩ := write_sealed_eq_ok.1 h
  exact read_sealed_record_file hlen (hopens _ _ _ _ hseal)

/-- With an ideal cipher: a record that was written is read back as its payload,
or refused if its level is below the minimum. And whatever a file holds, a
payload that is read from it was sealed with the key for this domain and for the
level that the file names, which is not below the minimum, and the file is the
one that was written then. -/
theorem a_record_is_read_only_as_it_was_sealed (P : Primitives) (key : Arr 32)
    (sealings : List Sealing) (hideal : Ideal P key sealings) (path : String) :
    (∀ s ∈ sealings, ∀ bytes, s.write P key = .ok bytes → ∀ minimum,
      read_sealed P path s.domain (AeadSealer P key s.protection) minimum (.private bytes) =
        if s.protection < minimum then .error .ProtectionDowngrade else .ok (some s.payload)) ∧
    (∀ domain p minimum found payload,
      read_sealed P path domain (AeadSealer P key p) minimum found = .ok (some payload) →
        ∃ s ∈ sealings, s.domain = domain ∧ s.payload = payload ∧ ¬ s.protection < minimum ∧
          ∃ mode sealed, found = .file mode (.ok (record_file P domain s.protection sealed)) ∧
            s.write P key = .ok (record_file P domain s.protection sealed)) := by
  constructor
  · intro s hs bytes hwrite minimum
    obtain ⟨sealed, hseal, hlen, rfl⟩ := write_sealed_eq_ok.1 hwrite
    have hopen : (AeadSealer P key s.protection).open sealed (record_aad s.domain s.protection) =
        .ok s.payload := hideal.open_seal hs hseal
    exact read_sealed_record_file hlen hopen
  · intro domain p minimum found payload h
    obtain ⟨mode, bytes, rfl, hread⟩ := of_read_sealed h
    obtain ⟨protection, sealed, rfl, hlen, hmin, hopen⟩ := of_read_bytes hread
    obtain ⟨s, hs, rfl, rfl, rfl, hseal⟩ := hideal.of_open hopen
    exact ⟨s, hs, rfl, rfl, hmin, mode, sealed, rfl,
      write_sealed_eq_ok.2 ⟨sealed, hseal, hlen, rfl⟩⟩

def sampleSealing : Sealing := ⟨ascii "RTP2-SAMPLE", .PlatformKeystore, .replicate 24 1, [1, 2, 3]⟩

/-- A cipher with which the sample was sealed and nothing else. -/
def sampleCipher : Primitives :=
  { sample with
    decrypt := fun key nonce aad ciphertext =>
      if sampleSealing.nonce = nonce ∧ sampleSealing.aad = aad ∧
          sample.encrypt key nonce aad sampleSealing.payload = some ciphertext then
        some sampleSealing.payload
      else none }

theorem sampleCipher_ideal (key : Arr 32) : Ideal sampleCipher key [sampleSealing] := by
  intro nonce aad ciphertext msg
  simp only [List.mem_singleton, exists_eq_left]
  change (if _ then _ else _) = some msg ↔ _
  split_ifs with h
  · constructor
    · intro hmsg
      obtain rfl := Option.some.inj hmsg
      exact ⟨h.1, h.2.1, rfl, h.2.2⟩
    · rintro ⟨-, -, rfl, -⟩
      rfl
  · refine iff_of_false id ?_
    rintro ⟨hnonce, haad, rfl, henc⟩
    exact h ⟨hnonce, haad, henc⟩

theorem the_sample_record_is_read_and_refused_above_its_level :
    ∃ bytes, sampleSealing.write sampleCipher (.replicate 32 2) = .ok bytes ∧
      read_sealed sampleCipher "sample" sampleSealing.domain
        (AeadSealer sampleCipher (.replicate 32 2) .PlatformKeystore) .Plaintext
          (.private bytes) = .ok (some [1, 2, 3]) ∧
      read_sealed sampleCipher "sample" sampleSealing.domain
        (AeadSealer sampleCipher (.replicate 32 2) .PlatformKeystore) .HardwareKeystore
          (.private bytes) = .error .ProtectionDowngrade := by
  have hread := (a_record_is_read_only_as_it_was_sealed sampleCipher (.replicate 32 2)
    [sampleSealing] (sampleCipher_ideal _) "sample").1 sampleSealing (by simp)
  obtain ⟨bytes, hwrite⟩ : ∃ bytes, sampleSealing.write sampleCipher (.replicate 32 2) =
      .ok bytes := ⟨_, write_sealed_eq_ok.2 ⟨_, rfl, by decide +kernel, rfl⟩⟩
  exact ⟨bytes, hwrite, hread bytes hwrite .Plaintext, hread bytes hwrite .HardwareKeystore⟩

end rtp2_core.store
