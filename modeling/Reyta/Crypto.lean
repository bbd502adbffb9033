-- The suite constants, and the primitives that other crates provide. A
-- primitive is a parameter: what a result needs to know about it is a
-- hypothesis of that result.
import Reyta.Bytes
import Reyta.HashTree

open byte_string

namespace rtp2_core.crypto

def SUITE_ID : UInt16 := 1
def PROTOCOL_MAJOR : UInt16 := 2
def PROTOCOL_MINOR : UInt16 := 0
def HASH_LEN : Nat := 48

def MLKEM768_PUBLIC_KEY_LEN : Nat := 1184
def MLKEM768_CIPHERTEXT_LEN : Nat := 1088
def MLKEM768_SHARED_SECRET_LEN : Nat := 32
def MLDSA65_VERIFICATION_KEY_LEN : Nat := 1952
def MLDSA65_SIGNATURE_LEN : Nat := 3309

/-- A byte string literal. -/
def ascii (s : String) : Bytes := s.toList.map fun c => c.toNat.toUInt8

def ALPN : Bytes := ascii "reyta-transfer/2"

/-- A key pair stands for the seed it is made from, and the randomness that
the code draws from the operating system is an argument. -/
structure Primitives where
  blake3 : Bytes → Arr 32
  /-- `blake3::derive_key` for a context string. -/
  blake3_derive_key : String → Bytes → Arr 32
  sha384 : Bytes → Arr HASH_LEN
  /-- Salt, then input keying material. -/
  hkdf_extract : Bytes → Bytes → Arr HASH_LEN
  hkdf_expand : (n : Nat) → Arr HASH_LEN → Bytes → Arr n
  hmac_sha384 : Bytes → Bytes → Arr HASH_LEN
  /-- XChaCha20-Poly1305: key, nonce, associated data, message. -/
  encrypt : Arr 32 → Arr 24 → Bytes → Bytes → Option Bytes
  decrypt : Arr 32 → Arr 24 → Bytes → Bytes → Option Bytes
  ed25519_public : Arr 32 → Arr 32
  ed25519_sign : Arr 32 → Bytes → Arr 64
  ed25519_verify : Arr 32 → Bytes → Arr 64 → Bool
  mldsa_public : Arr 32 → Arr MLDSA65_VERIFICATION_KEY_LEN
  /-- Seed, message, context, randomness. -/
  mldsa_sign : Arr 32 → Bytes → Bytes → Arr 32 → Option (Arr MLDSA65_SIGNATURE_LEN)
  mldsa_verify : Arr MLDSA65_VERIFICATION_KEY_LEN → Bytes → Bytes →
    Arr MLDSA65_SIGNATURE_LEN → Bool
  x25519_public : Arr 32 → Arr 32
  /-- Own secret, peer's public key. -/
  x25519 : Arr 32 → Arr 32 → Arr 32
  mlkem_public : Arr 64 → Arr MLKEM768_PUBLIC_KEY_LEN
  mlkem_validate : Arr MLKEM768_PUBLIC_KEY_LEN → Bool
  mlkem_encapsulate : Arr MLKEM768_PUBLIC_KEY_LEN → Arr 32 →
    Arr MLKEM768_CIPHERTEXT_LEN × Arr MLKEM768_SHARED_SECRET_LEN
  mlkem_decapsulate : Arr 64 → Arr MLKEM768_CIPHERTEXT_LEN → Arr MLKEM768_SHARED_SECRET_LEN

/-- Constant-time equality for MACs and digests. -/
def ct_eq (a b : Bytes) : Bool := a.length == b.length && a == b

theorem ct_eq_iff {a b : Bytes} : ct_eq a b = true ↔ a = b := by
  simp only [ct_eq, Bool.and_eq_true, beq_iff_eq]
  exact ⟨fun h => h.2, fun h => ⟨by rw [h], h⟩⟩

namespace Primitives

/-- Decryption gives back what was encrypted. -/
def Decrypts (P : Primitives) : Prop :=
  ∀ key nonce aad msg c, P.encrypt key nonce aad msg = some c → P.decrypt key nonce aad c = some msg

/-- Only what was encrypted under the key, the nonce and the data is
decrypted. -/
def Authentic (P : Primitives) : Prop :=
  ∀ key nonce aad msg c, P.decrypt key nonce aad c = some msg → P.encrypt key nonce aad msg = some c

/-- Messages of a length that occurs are encrypted, with a tag of 16 bytes. -/
def Encrypts (P : Primitives) : Prop :=
  ∀ key nonce aad (msg : Bytes), msg.length < 2 ^ 32 →
    ∃ c, P.encrypt key nonce aad msg = some c ∧ c.length = msg.length + 16

theorem Encrypts.length_eq {P : Primitives} (hP : P.Encrypts) {key : Arr 32} {nonce : Arr 24}
    {aad msg c : Bytes} (hlen : msg.length < 2 ^ 32) (h : P.encrypt key nonce aad msg = some c) :
    c.length = msg.length + 16 := by
  obtain ⟨c', hc', hl⟩ := hP key nonce aad msg hlen
  rw [Option.some.inj (h.symm.trans hc'), hl]

/-- Both sides of an X25519 exchange get the same secret. -/
def Exchanges (P : Primitives) : Prop :=
  ∀ a b, P.x25519 a (P.x25519_public b) = P.x25519 b (P.x25519_public a)

/-- Decapsulation gives the secret that was encapsulated. -/
def Decapsulates (P : Primitives) : Prop :=
  ∀ secret random,
    P.mlkem_decapsulate secret (P.mlkem_encapsulate (P.mlkem_public secret) random).1 =
    (P.mlkem_encapsulate (P.mlkem_public secret) random).2

end Primitives

/-! ## A stand-in to run the model on -/

namespace sample

/-- A polynomial hash onto `n` bytes. -/
def digest (n : Nat) (l : Bytes) : Arr n :=
  ⟨be_bytes n (l.foldl (fun acc b => (acc * 257 + b.toNat + 1) % (2 ^ 255 - 19)) 7),
    length_be_bytes _ _⟩

/-- The tag that `encrypt` puts behind the message. -/
def tag (key : Arr 32) (nonce : Arr 24) (aad msg : Bytes) : Bytes :=
  (digest 16 (key.bytes ++ nonce.bytes ++ aad ++ msg)).bytes

def decrypt (key : Arr 32) (nonce : Arr 24) (aad c : Bytes) : Option Bytes :=
  let msg := c.take (c.length - 16)
  if c = msg ++ tag key nonce aad msg then some msg else none

/-- A short string behind zeros. -/
def pad (n : Nat) (a : Arr 32) (h : 32 ≤ n) : Arr n :=
  ⟨List.replicate (n - 32) 0 ++ a.bytes, by
    rw [List.length_append, List.length_replicate, a.length_bytes]
    omega⟩

/-- What `pad` was given. -/
def unpad {n : Nat} (a : Arr n) (h : 32 ≤ n) : Arr 32 :=
  ⟨a.bytes.drop (n - 32), by
    rw [List.length_drop, a.length_bytes]
    omega⟩

theorem unpad_pad {n : Nat} (a : Arr 32) (h : 32 ≤ n) : unpad (pad n a h) h = a := by
  apply Arr.ext
  simp [unpad, pad]

/-- The message and the key, cut to 64 bytes. -/
def sign (vk : Arr 32) (msg : Bytes) : Arr 64 :=
  ⟨(msg ++ vk.bytes ++ List.replicate 64 0).take 64, by simp⟩

/-- A signature is for one hash only. -/
theorem sign_inj {vk vk' : Arr 32} {h h' : Arr 48} (he : sign vk h.bytes = sign vk' h'.bytes) :
    h = h' := by
  have hbytes := congrArg (fun a => a.bytes.take 48) he
  simp only [sign, List.take_take, List.append_assoc] at hbytes
  rw [List.take_append_of_le_length (by simp), List.take_append_of_le_length (by simp)] at hbytes
  apply Arr.ext
  simpa [List.take_of_length_le] using hbytes

def half (secret : Arr 64) : Arr 32 := ⟨secret.bytes.take 32, by simp⟩

end sample

/-- Primitives that are correct and easy to evaluate, for runs of the model on
fixed inputs. They protect nothing. -/
def sample : Primitives where
  blake3 := sample.digest 32
  blake3_derive_key context material := sample.digest 32 (ascii context ++ material)
  sha384 := sample.digest HASH_LEN
  hkdf_extract salt ikm := sample.digest HASH_LEN (salt ++ ikm)
  hkdf_expand n prk info := sample.digest n (prk.bytes ++ info)
  hmac_sha384 key msg := sample.digest HASH_LEN (key ++ msg)
  encrypt key nonce aad msg := some (msg ++ sample.tag key nonce aad msg)
  decrypt := sample.decrypt
  ed25519_public seed := seed
  ed25519_sign := sample.sign
  ed25519_verify vk msg sig := sig = sample.sign vk msg
  mldsa_public seed := sample.pad _ seed (by decide)
  mldsa_sign seed msg context _ :=
    some (sample.pad _ (sample.digest 32 (seed.bytes ++ context ++ msg)) (by decide))
  mldsa_verify vk msg context sig := sig = sample.pad _
    (sample.digest 32 ((sample.unpad vk (by decide)).bytes ++ context ++ msg)) (by decide)
  x25519_public secret := secret
  x25519 secret peer := sample.digest 32 (List.zipWith (· + ·) secret.bytes peer.bytes)
  mlkem_public secret := sample.pad _ (sample.half secret) (by decide)
  mlkem_validate _ := true
  mlkem_encapsulate pk random := (sample.pad _ random (by decide),
    sample.digest 32 ((sample.unpad pk (by decide)).bytes ++ random.bytes))
  mlkem_decapsulate secret c :=
    sample.digest 32 ((sample.half secret).bytes ++ (sample.unpad c (by decide)).bytes)

theorem sample_decrypts : sample.Decrypts := by
  intro key nonce aad msg c h
  have hc : msg ++ sample.tag key nonce aad msg = c := Option.some.inj h
  have htag : (sample.tag key nonce aad msg).length = 16 := Arr.length_bytes _
  rw [← hc]
  change sample.decrypt key nonce aad _ = _
  simp [sample.decrypt, htag]

theorem sample_authentic : sample.Authentic := by
  intro key nonce aad msg c h
  change sample.decrypt key nonce aad c = some msg at h
  unfold sample.decrypt at h
  simp only [Option.ite_none_right_eq_some, Option.some.injEq] at h
  obtain ⟨hc, rfl⟩ := h
  exact congrArg some hc.symm

theorem sample_encrypts : sample.Encrypts := by
  intro key nonce aad msg _
  refine ⟨_, rfl, ?_⟩
  rw [List.length_append, sample.tag, Arr.length_bytes]

theorem sample_exchanges : sample.Exchanges := by
  intro a b
  change sample.digest 32 (List.zipWith (· + ·) a.bytes b.bytes) =
    sample.digest 32 (List.zipWith (· + ·) b.bytes a.bytes)
  rw [List.zipWith_comm_of_comm UInt8.add_comm]

theorem sample_decapsulates : sample.Decapsulates := by
  intro secret random
  simp only [sample, sample.unpad_pad]
  rfl

end rtp2_core.crypto
