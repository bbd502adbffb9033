-- The first run on a state directory. The identity and the vault key are both
-- loaded if there is a record, and made and written if there is none. Two
-- processes that both find no record, and both succeed, are left with different
-- secrets, and only one of them is in the record.
import Reyta.CreateOnce
import Reyta.Identity
import Reyta.Keystore
import Reyta.ResumptionStore

open byte_string create_once exact_parse interleaving

namespace rtp2_core.identity

open crypto

def IDENTITY_SEED_LEN : Nat := 32
def SEED_SALT : Bytes := ascii "RTP2-IDENTITY-SALT-v1"
def INFO_DEVICE_ID : Bytes := ascii "RTP2 device id v1"
def INFO_ED25519 : Bytes := ascii "RTP2 device ed25519 v1"
def INFO_MLDSA : Bytes := ascii "RTP2 device mldsa65 v1"

deriving instance DecidableEq for DeviceIdentity

/-- An identity, with the seed that it keeps. -/
structure SeededIdentity where
  seed : Arr IDENTITY_SEED_LEN
  keys : DeviceIdentity
  deriving DecidableEq

def SeededIdentity.from_seed (P : Primitives) (seed : Arr IDENTITY_SEED_LEN) : SeededIdentity :=
  let prk := P.hkdf_extract SEED_SALT seed.bytes
  ⟨seed, P.hkdf_expand 32 prk INFO_DEVICE_ID, P.hkdf_expand 32 prk INFO_ED25519,
    P.hkdf_expand 32 prk INFO_MLDSA⟩

end rtp2_core.identity

namespace rtp2_core.store

open cbor crypto identity StoreError

def IDENTITY_DOMAIN : Bytes := ascii "RTP2-IDENTITY-RECORD-v1"
def IDENTITY_PAYLOAD_VERSION : UInt64 := 1

def encode_identity_payload (seed : Arr IDENTITY_SEED_LEN) (created_at : UInt64) : Bytes :=
  MapWriter [(0, Writer.uint IDENTITY_PAYLOAD_VERSION), (1, Writer.bytes seed.bytes),
    (2, Writer.uint created_at)]

def read_identity_payload : Parse StoreError (Arr IDENTITY_SEED_LEN × UInt64) := do
  let m ← map_err from_cbor Reader.map
  let m ← map_err from_cbor (m.expect_key 0)
  let version ← map_err from_cbor Reader.uint
  fail_if (version ≠ IDENTITY_PAYLOAD_VERSION) .VersionMismatch
  let m ← map_err from_cbor (m.expect_key 1)
  let seed ← map_err from_cbor (Reader.bytes_exact IDENTITY_SEED_LEN)
  let m ← map_err from_cbor (m.expect_key 2)
  let created_at ← map_err from_cbor Reader.uint
  m.expect_end from_cbor .Corrupt
  pure (seed, created_at)

def decode_identity_payload (payload : Bytes) : Except StoreError (Arr IDENTITY_SEED_LEN) := do
  let r ← (Reader.new payload).mapError from_cbor
  let (seed, _) ← Reader.read_all from_cbor read_identity_payload r
  pure seed

variable (P : Primitives)

namespace DeviceStore

def identity_path (self : DeviceStore) : String := self.dir ++ "/identity.rtp2"

/-- The seed in the record that was found. -/
def load_identity (self : DeviceStore) (found : Option Bytes) :
    Except StoreError (Option (Arr IDENTITY_SEED_LEN)) := do
  let payload ← read_sealed P self.identity_path IDENTITY_DOMAIN self.sealer
    self.minimum_protection (.of found)
  match payload with
  | some payload => do
    let seed ← decode_identity_payload payload
    pure (some seed)
  | none => pure none

/-- What `rename` says if there is no temporary file. -/
def gone : StoreError := .Io "No such file or directory (os error 2)"

/-- `seed` is the one that is drawn if there is no record, `now` is the time, and
`random` is for the sealer. -/
def load_or_create_identity (self : DeviceStore) (seed : Arr IDENTITY_SEED_LEN) (now : UInt64)
    (random : Arr 24) : DirTask UInt8 StoreError (SeededIdentity × Bool) := do
  let found ← create_once.read_file
  match ← Task.of (self.load_identity P found) with
  | some seed => pure (.from_seed P seed, true)
  | none =>
    let payload := encode_identity_payload seed now
    let bytes ← Task.of (write_sealed P IDENTITY_DOMAIN self.sealer random payload)
    create_once.replace_file bytes gone
    pure (.from_seed P seed, false)

end DeviceStore

/-! ## The identity -/

theorem read_identity_payload.reads :
    Reads read_identity_payload (fun d _ => d < MAX_DEPTH)
      (fun p => encode_identity_payload p.1 p.2) (fun d _ => d) := by
  unfold read_identity_payload
  refine Reads.congr (MapBody.start (fun _ : Arr IDENTITY_SEED_LEN × UInt64 => 3)
    (fun _ => by decide)
    fun m hm => MapBody.key (by simp [hm])
    fun m hm => MapBody.value (fun _ => IDENTITY_PAYLOAD_VERSION)
      (Reader.uint.reads.map_err _) (fun _ => MapBody.value (fun _ => ())
      (Reads.check _ _) (fun _ => MapBody.key (by simp [hm])
    fun m hm => MapBody.value (fun p : Arr IDENTITY_SEED_LEN × UInt64 => p.1)
      ((Reader.bytes_exact.reads (by decide)).map_err _) (fun _ => MapBody.key (by simp [hm])
    fun m hm => MapBody.value (fun p : Arr IDENTITY_SEED_LEN × UInt64 => p.2)
      (Reader.uint.reads.map_err _) (fun _ => MapBody.stop _ (Reads.pure _))
      ?_) ?_) ?_) ?_) ?admits ?writes ?depth
  case admits =>
    intro d p
    simp
  case writes =>
    intro d p _
    simp [encode_identity_payload, MapWriter]
  case depth =>
    intro d p _
    rfl
  all_goals grind

theorem decode_encode_identity_payload (seed : Arr IDENTITY_SEED_LEN) (created_at : UInt64) :
    decode_identity_payload (encode_identity_payload seed created_at) = .ok seed := by
  have hlen : (encode_identity_payload seed created_at).length ≤ MAX_CONTROL_SIZE := by
    refine Nat.le_trans (length_mapWriter_le_of (.cons (length_uint_le _)
      (.cons (length_bytes_le _) (.cons (length_uint_le _) .nil)))) ?_
    simp [IDENTITY_SEED_LEN, MAX_CONTROL_SIZE]
  obtain ⟨r, hr, hall⟩ := bind_eq_ok.1 ((Reader.new_read_all_eq_ok (a := (seed, created_at))
    read_identity_payload.reads).2 ⟨hlen, by decide, rfl⟩)
  exact bind_eq_ok.2 ⟨r, hr, bind_eq_ok.2 ⟨_, hall, rfl⟩⟩

/-- The call, as a process that looks for a file. -/
def identity_caller (store : DeviceStore) (seed : Arr IDENTITY_SEED_LEN) (now : UInt64)
    (random : Arr 24) :
    Caller UInt8 StoreError (Arr IDENTITY_SEED_LEN) (SeededIdentity × Bool) where
  load := store.load_identity P
  fresh := seed
  bytes := write_sealed P IDENTITY_DOMAIN store.sealer random (encode_identity_payload seed now)
  gone := DeviceStore.gone
  give seed loaded := (.from_seed P seed, loaded)

theorem load_or_create_identity_eq (store : DeviceStore) (seed : Arr IDENTITY_SEED_LEN)
    (now : UInt64) (random : Arr 24) :
    store.load_or_create_identity P seed now random =
      (identity_caller P store seed now random).task := by
  refine bind_congr fun found => bind_congr fun loaded => ?_
  cases loaded <;> rfl

theorem load_identity_of_write {P : Primitives} {store : DeviceStore} (hopens : store.sealer.Opens)
    (hlevel : ¬ store.sealer.protection < store.minimum_protection)
    {seed : Arr IDENTITY_SEED_LEN} {now : UInt64} {random : Arr 24} {bytes : Bytes}
    (h : write_sealed P IDENTITY_DOMAIN store.sealer random (encode_identity_payload seed now) =
      .ok bytes) :
    store.load_identity P (some bytes) = .ok (some seed) := by
  refine bind_eq_ok.2 ⟨some (encode_identity_payload seed now), ?_, ?_⟩
  · exact (read_sealed_of_write hopens _ _ h).trans (if_neg hlevel)
  · exact bind_eq_ok.2 ⟨seed, decode_encode_identity_payload seed now, rfl⟩

/-- Two calls on an empty state directory. -/
def identity_race (store : DeviceStore) (seed : Bool → Arr IDENTITY_SEED_LEN) (now : Bool → UInt64)
    (random : Bool → Arr 24) (schedule : List Bool) :
    Race UInt8 StoreError (SeededIdentity × Bool) :=
  race (fun i => store.load_or_create_identity P (seed i) (now i) (random i)) schedule

theorem both_have_the_identity_iff {store : DeviceStore} (hopens : store.sealer.Opens)
    (hlevel : ¬ store.sealer.protection < store.minimum_protection)
    {seed : Bool → Arr IDENTITY_SEED_LEN} {now : Bool → UInt64} {random : Bool → Arr 24}
    {schedule : List Bool} {x : Bool → SeededIdentity × Bool}
    (hx : ∀ i, ((identity_race P store seed now random schedule).threads i).result =
      some (.ok (x i))) :
    ∃ stored, store.load_identity P (identity_race P store seed now random schedule).shared.read =
        .ok (some stored) ∧
      ((∀ i, (x i).1 = .from_seed P stored) ↔
        (∃ i, After (identity_race P store seed now random schedule).trace i !i) ∨
          seed false = seed true) := by
  have hc : Faithful fun i => identity_caller P store (seed i) (now i) (random i) :=
    fun _ => ⟨rfl, fun _ _ hb => load_identity_of_write hopens hlevel hb⟩
  obtain ⟨held, stored, hheld, hload, hiff⟩ := both_have_the_file_iff hc
    (fun i => load_or_create_identity_eq P store (seed i) (now i) (random i)) hx
  refine ⟨stored, hload false, Iff.trans (forall_congr' fun i => ?_) hiff⟩
  obtain ⟨loaded, hi⟩ := hheld i
  rw [hi]
  exact ⟨congrArg SeededIdentity.seed, congrArg (SeededIdentity.from_seed P)⟩

end rtp2_core.store

namespace rtp2_core.keystore

open crypto identity store

def VAULT_KEY_DOMAIN : Bytes := ascii "RTP2-VAULT-KEY-v1"
def VAULT_KEY_FILE : String := "vaultkey.rtp2"

/-- A key of the security processor. What it draws at random to seal is an
argument. -/
structure HardwareRoot where
  «seal» : Arr 24 → Bytes → Except KeystoreError Bytes
  «unseal» : Bytes → Except KeystoreError Bytes

def EciesSealer (root : HardwareRoot) : SecretSealer where
  protection := .HardwareKeystore
  «seal» random plaintext _ := (root.seal random plaintext).mapError fun _ => .Seal
  «open» sealed _ := (root.unseal sealed).mapError fun _ => .Seal

/-- A sealer with the vault key. -/
structure HardwareSealer where
  key : Arr WRAPPING_KEY_LEN
  deriving DecidableEq

variable (P : Primitives)

def HardwareSealer.inner (self : HardwareSealer) : SecretSealer :=
  AeadSealer P self.key .HardwareKeystore

/-- The vault key in the record that was found. -/
def load_vault_key (state_dir : String) (root : HardwareRoot) (found : Option Bytes) :
    Except KeystoreError (Option (Arr WRAPPING_KEY_LEN)) := do
  let existing ← (read_sealed P (state_dir ++ "/" ++ VAULT_KEY_FILE) VAULT_KEY_DOMAIN
    (EciesSealer root) .HardwareKeystore (.of found)).mapError
      fun _ => KeystoreError.Platform "read vault key" 0
  match existing with
  | some existing => do
    let key ← some_or .MalformedKey (Arr.try_from WRAPPING_KEY_LEN existing)
    pure (some key)
  | none => pure none

/-- `roots` opens the hardware root, and `fresh` is the key that is drawn if
there is no record. -/
def HardwareSealer.open (roots : String → String → Except KeystoreError HardwareRoot)
    (state_dir service account : String) (fresh : Arr WRAPPING_KEY_LEN) (random : Arr 24) :
    DirTask UInt8 KeystoreError HardwareSealer := do
  Task.of (check_label service)
  Task.of (check_label account)
  let root ← Task.of (roots service account)
  let found ← create_once.read_file
  match ← Task.of (load_vault_key P state_dir root found) with
  | some key => pure ⟨key⟩
  | none =>
    let bytes ← Task.of ((write_sealed P VAULT_KEY_DOMAIN (EciesSealer root) random
      fresh.bytes).mapError fun _ => .Platform "write vault key" 0)
    create_once.replace_file bytes (.Platform "write vault key" 0)
    pure ⟨fresh⟩

/-! ## The vault key -/

/-- The call once it has the root, as a process that looks for a file. -/
def vault_caller (state_dir : String) (root : HardwareRoot) (fresh : Arr WRAPPING_KEY_LEN)
    (random : Arr 24) : Caller UInt8 KeystoreError (Arr WRAPPING_KEY_LEN) HardwareSealer where
  load := load_vault_key P state_dir root
  fresh := fresh
  bytes := (write_sealed P VAULT_KEY_DOMAIN (EciesSealer root) random fresh.bytes).mapError
    fun _ => .Platform "write vault key" 0
  gone := .Platform "write vault key" 0
  give key _ := ⟨key⟩

variable {P : Primitives} {roots : String → String → Except KeystoreError HardwareRoot}
  {state_dir service account : String}

variable (P roots state_dir service account) in
/-- A call fails before it looks for the record, or it has the root. -/
theorem open_cases :
    (∃ e, ∀ fresh random,
      HardwareSealer.open P roots state_dir service account fresh random = Task.of (.error e)) ∨
    ∃ root, roots service account = .ok root ∧ ∀ fresh random,
      HardwareSealer.open P roots state_dir service account fresh random =
        (vault_caller P state_dir root fresh random).task := by
  unfold HardwareSealer.open
  cases check_label service with
  | error e => exact .inl ⟨e, fun _ _ => Task.of_error_bind e _⟩
  | ok _ =>
    simp only [Task.of_ok_bind]
    cases check_label account with
    | error e => exact .inl ⟨e, fun _ _ => Task.of_error_bind e _⟩
    | ok _ =>
      simp only [Task.of_ok_bind]
      cases roots service account with
      | error e => exact .inl ⟨e, fun _ _ => Task.of_error_bind e _⟩
      | ok root =>
        refine .inr ⟨root, rfl, fun fresh random => ?_⟩
        rw [Task.of_ok_bind]
        refine bind_congr fun found => bind_congr fun loaded => ?_
        cases loaded <;> rfl

theorem EciesSealer.opens {root : HardwareRoot}
    (h : ∀ random plaintext sealed, root.seal random plaintext = .ok sealed →
      root.unseal sealed = .ok plaintext) : (EciesSealer root).Opens :=
  fun _ _ _ _ hseal => mapError_eq_ok.2 (h _ _ _ (mapError_eq_ok.1 hseal))

theorem load_vault_key_of_write {root : HardwareRoot} (hopens : (EciesSealer root).Opens)
    {fresh : Arr WRAPPING_KEY_LEN} {random : Arr 24} {bytes : Bytes}
    (h : write_sealed P VAULT_KEY_DOMAIN (EciesSealer root) random fresh.bytes = .ok bytes) :
    load_vault_key P state_dir root (some bytes) = .ok (some fresh) := by
  refine bind_eq_ok.2 ⟨some fresh.bytes, ?_, ?_⟩
  · exact mapError_eq_ok.2 ((read_sealed_of_write hopens _ _ h).trans (if_neg (Nat.lt_irrefl _)))
  · exact bind_eq_ok.2 ⟨fresh, some_or_eq_ok.2 (Arr.try_from_eq_some.2 rfl), rfl⟩

variable (P roots state_dir service account) in
/-- Two calls on an empty state directory. -/
def vault_race (fresh : Bool → Arr WRAPPING_KEY_LEN) (random : Bool → Arr 24)
    (schedule : List Bool) : Race UInt8 KeystoreError HardwareSealer :=
  race (fun i => HardwareSealer.open P roots state_dir service account (fresh i) (random i))
    schedule

theorem both_have_the_vault_key_iff
    (hroots : ∀ root, roots service account = .ok root → (EciesSealer root).Opens)
    {fresh : Bool → Arr WRAPPING_KEY_LEN} {random : Bool → Arr 24} {schedule : List Bool}
    {x : Bool → HardwareSealer}
    (hx : ∀ i, ((vault_race P roots state_dir service account fresh random schedule).threads
      i).result = some (.ok (x i))) :
    ∃ root stored, roots service account = .ok root ∧
      load_vault_key P state_dir root
        (vault_race P roots state_dir service account fresh random schedule).shared.read =
        .ok (some stored) ∧
      ((∀ i, x i = ⟨stored⟩) ↔
        (∃ i, After (vault_race P roots state_dir service account fresh random schedule).trace
          i !i) ∨ fresh false = fresh true) := by
  rcases open_cases P roots state_dir service account with ⟨e, hfails⟩ | ⟨root, hroot, htask⟩
  · have hret : ((vault_race P roots state_dir service account fresh random schedule).threads
        false) = .ret (.error e) := run_threads_of_ret (hfails _ _) schedule
    have hfalse := hx false
    rw [hret] at hfalse
    cases hfalse
  · have hc : Faithful fun i => vault_caller P state_dir root (fresh i) (random i) :=
      fun _ => ⟨rfl, fun _ _ hb => load_vault_key_of_write (hroots root hroot)
        (mapError_eq_ok.1 hb)⟩
    obtain ⟨held, stored, hheld, hload, hiff⟩ := both_have_the_file_iff hc
      (fun i => htask (fresh i) (random i)) hx
    refine ⟨root, stored, hroot, hload false, Iff.trans (forall_congr' fun i => ?_) hiff⟩
    obtain ⟨loaded, hi⟩ := hheld i
    rw [hi]
    exact ⟨congrArg HardwareSealer.key, congrArg HardwareSealer.mk⟩

/-- Two processes run for the first time on a state directory, and both succeed.
Then the record can be loaded. Both have the secret in it exactly if one of them
looked for it after the other had renamed it into its place, or by chance they
drew the same secret. It is so for the identity and for the vault key. -/
theorem first_runs_have_the_record_iff_one_looked_after_the_other (P : Primitives)
    (store : DeviceStore) (hopens : store.sealer.Opens)
    (hlevel : ¬ store.sealer.protection < store.minimum_protection)
    (roots : String → String → Except KeystoreError HardwareRoot)
    (state_dir service account : String)
    (hroots : ∀ root, roots service account = .ok root →
      ∀ random plaintext sealed, root.seal random plaintext = .ok sealed →
        root.unseal sealed = .ok plaintext)
    (seed : Bool → Arr IDENTITY_SEED_LEN) (now : Bool → UInt64)
    (fresh : Bool → Arr WRAPPING_KEY_LEN) (random : Bool → Arr 24) (schedule : List Bool) :
    (∀ x : Bool → SeededIdentity × Bool,
      (∀ i, ((identity_race P store seed now random schedule).threads i).result =
        some (.ok (x i))) →
      ∃ stored, store.load_identity P (identity_race P store seed now random schedule).shared.read =
          .ok (some stored) ∧
        ((∀ i, (x i).1 = .from_seed P stored) ↔
          (∃ i, After (identity_race P store seed now random schedule).trace i !i) ∨
            seed false = seed true)) ∧
    ∀ x : Bool → HardwareSealer,
      (∀ i, ((vault_race P roots state_dir service account fresh random schedule).threads
        i).result = some (.ok (x i))) →
      ∃ root stored, roots service account = .ok root ∧
        load_vault_key P state_dir root
          (vault_race P roots state_dir service account fresh random schedule).shared.read =
          .ok (some stored) ∧
        ((∀ i, x i = ⟨stored⟩) ↔
          (∃ i, After (vault_race P roots state_dir service account fresh random schedule).trace
            i !i) ∨ fresh false = fresh true) :=
  ⟨fun _ hx => both_have_the_identity_iff P hopens hlevel hx, fun _ hx =>
    both_have_the_vault_key_iff (fun _ hroot => EciesSealer.opens (hroots _ hroot)) hx⟩

/-- A root that hides nothing. -/
def sampleRoot : HardwareRoot := ⟨fun _ plaintext => .ok plaintext, fun sealed => .ok sealed⟩

def sampleRoots : String → String → Except KeystoreError HardwareRoot := fun _ _ => .ok sampleRoot

def sampleDraw : Bool → Arr 32
  | false => .replicate 32 1
  | true => .replicate 32 2

def sampleIdentityRace (schedule : List Bool) : Race UInt8 StoreError (SeededIdentity × Bool) :=
  identity_race sample sampleStore sampleDraw (fun _ => 1000) (fun _ => .replicate 24 0) schedule

def sampleVaultRace (schedule : List Bool) : Race UInt8 KeystoreError HardwareSealer :=
  vault_race sample sampleRoots "state" "com.reyta.rtp2" "root" sampleDraw
    (fun _ => .replicate 24 0) schedule

/-- The first process is done before the second looks. -/
def sampleTurns : List Bool := [false, false, false, false, true]

theorem one_process_after_the_other_has_the_record :
    (∃ stored, sampleStore.load_identity sample (sampleIdentityRace sampleTurns).shared.read =
        .ok (some stored) ∧
      ∀ i, ((sampleIdentityRace sampleTurns).threads i).result =
        some (.ok (.from_seed sample stored, i))) ∧
    ∃ stored, load_vault_key sample "state" sampleRoot (sampleVaultRace sampleTurns).shared.read =
        .ok (some stored) ∧
      ∀ i, ((sampleVaultRace sampleTurns).threads i).result = some (.ok ⟨stored⟩) := by
  have hidentity : ∀ i, ((sampleIdentityRace sampleTurns).threads i).result =
      some (.ok (.from_seed sample (sampleDraw false), i)) := by decide +kernel
  have hvault : ∀ i, ((sampleVaultRace sampleTurns).threads i).result =
      some (.ok ⟨sampleDraw false⟩) := by decide +kernel
  obtain ⟨hid, hkey⟩ := first_runs_have_the_record_iff_one_looked_after_the_other sample sampleStore
    PlaintextSealer.opens (by decide) sampleRoots "state" "com.reyta.rtp2" "root"
    (by rintro _ ⟨⟩ _ _ _ h; exact h.symm) sampleDraw (fun _ => 1000) sampleDraw
    (fun _ => .replicate 24 0) sampleTurns
  obtain ⟨stored, hload, hiff⟩ := hid _ hidentity
  obtain ⟨_, stored', ⟨⟩, hload', hiff'⟩ := hkey _ hvault
  refine ⟨⟨stored, hload, fun i => ?_⟩, stored', hload', fun i => ?_⟩
  · rw [hidentity i]
    have hall := hiff.2 (.inl ⟨false, by decide +kernel⟩)
    exact congrArg (fun x => some (Except.ok (x, i))) (hall i)
  · rw [hvault i]
    have hall := hiff'.2 (.inl ⟨false, by decide +kernel⟩)
    exact congrArg (fun x => some (Except.ok x)) (hall i)

/-- Both look before either of them renames. -/
def sampleOverlap : List Bool := [false, true, false, false, false, true, true, true]

/-- Both processes succeed, with the secrets that they drew. But the record has
the secret of the second only, so the first has an identity and a vault key that
are nowhere stored. -/
theorem processes_that_both_found_no_record_have_different_secrets :
    (∀ i, ((sampleIdentityRace sampleOverlap).threads i).result.map
        (Except.map fun x => x.1.seed) = some (.ok (sampleDraw i))) ∧
      sampleStore.load_identity sample (sampleIdentityRace sampleOverlap).shared.read =
        .ok (some (sampleDraw true)) ∧
      (∀ i, ((sampleVaultRace sampleOverlap).threads i).result.map
        (Except.map HardwareSealer.key) = some (.ok (sampleDraw i))) ∧
      load_vault_key sample "state" sampleRoot (sampleVaultRace sampleOverlap).shared.read =
        .ok (some (sampleDraw true)) ∧
      sampleDraw false ≠ sampleDraw true := by
  decide +kernel

end rtp2_core.keystore
