-- Device identity: the hybrid Ed25519 and ML-DSA-65 signature, the public
-- bundle that carries both verification keys, and their encodings.
import Reyta.CborExact
import Reyta.Crypto

open byte_string exact_parse

namespace rtp2_core.identity

open cbor crypto

variable (P : Primitives)

/-- The domain-separation context of the ML-DSA signatures. -/
def MLDSA_CONTEXT : Bytes := ascii "RTP2-DEVICE-SIG-v1"

/-- Public device bundle, `cert_A` or `cert_B` in the handshake. -/
structure DevicePublic where
  device_id : Arr 32
  ed25519 : Arr 32
  mldsa : Arr MLDSA65_VERIFICATION_KEY_LEN
  deriving DecidableEq

structure HybridSignature where
  ed25519 : Arr 64
  mldsa : Arr MLDSA65_SIGNATURE_LEN
  deriving DecidableEq

/-- Private device identity. A signing key stands for its seed. -/
structure DeviceIdentity where
  device_id : Arr 32
  ed25519 : Arr 32
  mldsa : Arr 32

namespace DeviceIdentity

def «public» (identity : DeviceIdentity) : DevicePublic where
  device_id := identity.device_id
  ed25519 := P.ed25519_public identity.ed25519
  mldsa := P.mldsa_public identity.mldsa

/-- Both signatures over the same transcript hash. `random` is what ML-DSA
draws. -/
def hybrid_sign (identity : DeviceIdentity) (transcript_hash : Bytes) (random : Arr 32) :
    Option HybridSignature :=
  (P.mldsa_sign identity.mldsa transcript_hash MLDSA_CONTEXT random).map fun mldsa =>
    ⟨P.ed25519_sign identity.ed25519 transcript_hash, mldsa⟩

theorem hybrid_sign_sample (identity : DeviceIdentity) (hash : Bytes) (random : Arr 32)
    (other : HybridSignature) : identity.hybrid_sign sample hash random =
      some ((identity.hybrid_sign sample hash random).getD other) := by
  simp [hybrid_sign, sample]

end DeviceIdentity

/-! ## The encodings -/

namespace DevicePublic

def encode (d : DevicePublic) : Bytes :=
  MapWriter [(0, Writer.bytes d.device_id.bytes), (1, Writer.bytes d.ed25519.bytes),
    (2, Writer.bytes d.mldsa.bytes)]

/-- The errors are `CborError`s. `bad` is what the caller's `?` makes of them. -/
def decode {ε : Type} (bad : CborError → ε) : Parse ε DevicePublic := do
  let m ← map_err bad Reader.map
  let m ← map_err bad (m.expect_key 0)
  let device_id ← map_err bad (Reader.bytes_exact 32)
  let m ← map_err bad (m.expect_key 1)
  let ed25519 ← map_err bad (Reader.bytes_exact 32)
  let m ← map_err bad (m.expect_key 2)
  let mldsa ← map_err bad (Reader.bytes_exact MLDSA65_VERIFICATION_KEY_LEN)
  m.expect_end bad (bad .InvalidValue)
  pure ⟨device_id, ed25519, mldsa⟩

/-- Verification succeeds only if both signatures verify. -/
def hybrid_verify (d : DevicePublic) (transcript_hash : Bytes) (sig : HybridSignature) : Bool :=
  P.ed25519_verify d.ed25519 transcript_hash sig.ed25519 &&
    P.mldsa_verify d.mldsa transcript_hash MLDSA_CONTEXT sig.mldsa

theorem hybrid_verify_sample (identity : DeviceIdentity) (hash : Bytes) (random : Arr 32)
    (other : HybridSignature) : (identity.public sample).hybrid_verify sample hash
      ((identity.hybrid_sign sample hash random).getD other) = true := by
  simp [hybrid_verify, DeviceIdentity.public, DeviceIdentity.hybrid_sign, sample, sample.unpad_pad]

/-- A signature is valid only for the hash that was signed. -/
def SignsExactly : Prop :=
  ∀ (identity : DeviceIdentity) (hash hash' : Arr 48) (random : Arr 32) (sig : HybridSignature)
    (d : DevicePublic), identity.hybrid_sign P hash.bytes random = some sig →
      d.hybrid_verify P hash'.bytes sig = true → hash' = hash

theorem sample_signsExactly : SignsExactly sample := by
  intro identity hash hash' random sig d hsign hverify
  simp only [DeviceIdentity.hybrid_sign, sample, Option.map_some, Option.some.injEq] at hsign
  simp only [hybrid_verify, sample, Bool.and_eq_true, decide_eq_true_eq] at hverify
  apply sample.sign_inj
  rw [← hverify.1, ← hsign]

theorem decode.reads {ε : Type} (bad : CborError → ε) :
    Reads (decode bad) (fun d _ => d < MAX_DEPTH) encode (fun d _ => d) := by
  unfold decode
  refine Reads.congr (MapBody.start (fun _ => 3) (fun _ => by decide)
    fun m hm => MapBody.key (by simp [hm]) fun m hm => MapBody.value DevicePublic.device_id
      ((Reader.bytes_exact.reads (by decide)).map_err bad) (fun _ => MapBody.key (by simp [hm])
    fun m hm => MapBody.value DevicePublic.ed25519
      ((Reader.bytes_exact.reads (by decide)).map_err bad) (fun _ => MapBody.key (by simp [hm])
    fun m hm => MapBody.value DevicePublic.mldsa
      ((Reader.bytes_exact.reads (by decide)).map_err bad) (fun _ => MapBody.stop _ (Reads.pure _))
      ?_) ?_) ?_) ?admits ?writes ?depth
  case admits =>
    intro d r
    exact ⟨fun h => h.1, fun h => ⟨h, trivial, trivial, trivial, rfl⟩⟩
  case writes =>
    intro d r _
    simp [encode, MapWriter]
  case depth =>
    intro d r _
    rfl
  all_goals grind

theorem length_encode_le (d : DevicePublic) : d.encode.length ≤ 2100 := by
  have hmap : d.encode.length ≤ _ := length_mapWriter_le_of (.cons (length_bytes_le _)
    (.cons (length_bytes_le _) (.cons (length_bytes_le _) .nil)))
  simp only [Arr.length_bytes, List.map_cons, List.map_nil, List.sum_cons, List.sum_nil] at hmap
  refine Nat.le_trans hmap ?_
  unfold MLDSA65_VERIFICATION_KEY_LEN
  omega

end DevicePublic

namespace HybridSignature

def encode (sig : HybridSignature) : Bytes :=
  MapWriter [(0, Writer.bytes sig.ed25519.bytes), (1, Writer.bytes sig.mldsa.bytes)]

def decode {ε : Type} (bad : CborError → ε) : Parse ε HybridSignature := do
  let m ← map_err bad Reader.map
  let m ← map_err bad (m.expect_key 0)
  let ed25519 ← map_err bad (Reader.bytes_exact 64)
  let m ← map_err bad (m.expect_key 1)
  let mldsa ← map_err bad (Reader.bytes_exact MLDSA65_SIGNATURE_LEN)
  m.expect_end bad (bad .InvalidValue)
  pure ⟨ed25519, mldsa⟩

theorem decode.reads {ε : Type} (bad : CborError → ε) :
    Reads (decode bad) (fun d _ => d < MAX_DEPTH) encode (fun d _ => d) := by
  unfold decode
  refine Reads.congr (MapBody.start (fun _ => 2) (fun _ => by decide)
    fun m hm => MapBody.key (by simp [hm]) fun m hm => MapBody.value HybridSignature.ed25519
      ((Reader.bytes_exact.reads (by decide)).map_err bad) (fun _ => MapBody.key (by simp [hm])
    fun m hm => MapBody.value HybridSignature.mldsa
      ((Reader.bytes_exact.reads (by decide)).map_err bad) (fun _ => MapBody.stop _ (Reads.pure _))
      ?_) ?_) ?admits ?writes ?depth
  case admits =>
    intro d r
    exact ⟨fun h => h.1, fun h => ⟨h, trivial, trivial, rfl⟩⟩
  case writes =>
    intro d r _
    simp [encode, MapWriter]
  case depth =>
    intro d r _
    rfl
  all_goals grind

theorem length_encode_le (sig : HybridSignature) : sig.encode.length ≤ 3500 := by
  have hmap : sig.encode.length ≤ _ :=
    length_mapWriter_le_of (.cons (length_bytes_le _) (.cons (length_bytes_le _) .nil))
  simp only [Arr.length_bytes, List.map_cons, List.map_nil, List.sum_cons, List.sum_nil] at hmap
  refine Nat.le_trans hmap ?_
  unfold MLDSA65_SIGNATURE_LEN
  omega

end HybridSignature

end rtp2_core.identity
