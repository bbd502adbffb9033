-- A chunk is bound to its place. The data that its ciphertext authenticates has
-- a fixed layout, with the hash of the whole object context and the index in
-- it, so it opens for that context at that index only.
import Reyta.CborExact
import Reyta.IdealCipher
import Reyta.Object

open byte_string exact_parse hash_tree

namespace rtp2_core.object

open cbor crypto keys

/-! ## What is authenticated -/

/-- What `context_hash` hashes. -/
def ObjectContext.hash_input (ctx : ObjectContext) : Bytes :=
  ascii "RTP2-OBJECT-CONTEXT-v1" ++ ctx.encode

/-- A context is read off its encoding, field by field. -/
theorem ObjectContext.encode_inj {ctx ctx' : ObjectContext} (h : ctx.encode = ctx'.encode) :
    ctx = ctx' := by
  have harr : ∀ {a a' : Arr 32} {s t : Bytes},
      Writer.bytes a.bytes ++ s = Writer.bytes a'.bytes ++ t → a = a' ∧ s = t :=
    bytes_append_inj (by decide)
  simp only [encode, MapWriter, List.flatMap_cons, List.flatMap_nil, List.append_assoc,
    List.length_cons, List.append_cancel_left_eq] at h
  obtain ⟨htransfer, h⟩ := harr h
  obtain ⟨hobject, h⟩ := harr (List.append_cancel_left h)
  obtain ⟨hlogical, h⟩ := uint_append_inj (List.append_cancel_left h)
  obtain ⟨hencoded, h⟩ := uint_append_inj (List.append_cancel_left h)
  obtain ⟨hsize, h⟩ := uint_append_inj (List.append_cancel_left h)
  obtain ⟨hcount, h⟩ := uint_append_inj (List.append_cancel_left h)
  obtain ⟨hpadding, h⟩ := uint_append_inj (List.append_cancel_left h)
  obtain ⟨hrole, -⟩ := uint_append_inj (List.append_cancel_left h)
  rcases ctx with ⟨_, _, _, _, _, _, _, _⟩
  rcases ctx' with ⟨_, _, _, _, _, _, _, _⟩
  simp only [UInt32.toUInt64_inj, UInt8.toUInt64_inj] at *
  simp [htransfer, hobject, hlogical, hencoded, hsize, hcount, hpadding, hrole]

theorem chunk_aad_inj {ctx ctx' : ObjectContext} {hash hash' : Arr 32} {i i' o o' : UInt64}
    {l l' f f' : UInt32} (h : chunk_aad ctx hash i o l f = chunk_aad ctx' hash' i' o' l' f') :
    hash = hash' ∧ i = i' := by
  simp only [chunk_aad, List.append_assoc, List.append_cancel_left_eq] at h
  obtain ⟨-, h⟩ := arr_append_inj h
  obtain ⟨-, h⟩ := arr_append_inj h
  obtain ⟨hhash, h⟩ := arr_append_inj h
  obtain ⟨hindex, -⟩ := append_inj_of_length (by simp) h
  exact ⟨hhash, UInt64.toNat_inj.1 (be_bytes_inj i.toNat_lt i'.toNat_lt hindex)⟩

/-! ## Encryptions of chunks -/

variable (P : Primitives)

/-- The use of the cipher that encrypts a chunk. -/
def chunk_encryption (schedule : FileKeySchedule) (ctx : ObjectContext)
    (object_context_hash : Arr 32) (index : UInt64) (plaintext : Bytes) : Encryption where
  key := schedule.chunk_key P index
  nonce := schedule.chunk_nonce P index
  aad := chunk_aad ctx object_context_hash index (index * ctx.chunk_plaintext_size.toUInt64)
    (.ofNat plaintext.length) 0
  msg := plaintext

variable {P} {schedule : FileKeySchedule} {ctx : ObjectContext} {ctx_hash : Arr 32}
  {index : UInt64} {plaintext ciphertext : Bytes}

theorem encrypt_chunk_ciphertext
    (h : encrypt_chunk P schedule ctx ctx_hash index plaintext = some ciphertext) :
    ctx.chunk_len index = some (.ofNat plaintext.length) ∧
      plaintext.length = (UInt32.ofNat plaintext.length).toNat ∧
      (chunk_encryption P schedule ctx ctx_hash index plaintext).ciphertext P =
        some ciphertext := by
  obtain ⟨len, hlen, hp, henc⟩ := (encrypt_chunk_eq_some P).1 h
  have hback : UInt32.ofNat plaintext.length = len := by rw [hp, UInt32.ofNat_toNat]
  rw [hback, Encryption.ciphertext, chunk_encryption, hback]
  exact ⟨hlen, hp, henc⟩

/-- Under an ideal cipher, a chunk that was encrypted is decrypted with the same
arguments. Whatever schedule, context and index it is decrypted with, if the
hashes of the contexts do not collide then they are the context and the index
it was encrypted for, with the same key and nonce, and the plaintext is the
same. -/
theorem a_chunk_is_decrypted_only_in_its_place (P : Primitives) {made : Set Encryption}
    (hP : P.Ideal made) (schedule : FileKeySchedule) (ctx : ObjectContext) (i : UInt64)
    (p c : Bytes)
    (henc : encrypt_chunk P schedule ctx (ctx.context_hash P) i p = some c)
    (hmade : chunk_encryption P schedule ctx (ctx.context_hash P) i p ∈ made) :
    decrypt_chunk P schedule ctx (ctx.context_hash P) i c = some p ∧
      ∀ (schedule2 : FileKeySchedule) (ctx2 : ObjectContext) (j : UInt64) (p2 : Bytes),
        NoCollision P.blake3 [ctx2.hash_input] [ctx.hash_input] →
        decrypt_chunk P schedule2 ctx2 (ctx2.context_hash P) j c = some p2 →
        ctx2 = ctx ∧ j = i ∧ schedule2.chunk_key P j = schedule.chunk_key P i ∧
          schedule2.chunk_nonce P j = schedule.chunk_nonce P i ∧ p2 = p := by
  obtain ⟨hlen, hp, hcipher⟩ := encrypt_chunk_ciphertext henc
  constructor
  · refine (decrypt_chunk_eq_some P).2 ⟨_, hlen, ?_, hP.decrypt hmade hcipher, hp⟩
    rw [hP.tag _ hmade c hcipher, ← hp]
    rfl
  · intro schedule2 ctx2 j p2 hcol hdec
    obtain ⟨len2, -, -, hopen, -⟩ := (decrypt_chunk_eq_some P).1 hdec
    have he := hP.eq_of_decrypt hmade hcipher hopen
    simp only [chunk_encryption, Encryption.mk.injEq] at he
    obtain ⟨hkey, hnonce, haad, hmsg⟩ := he
    obtain ⟨hhash, hindex⟩ := chunk_aad_inj haad
    have hinput : ctx2.hash_input = ctx.hash_input :=
      hcol _ (List.mem_singleton_self _) _ (List.mem_singleton_self _) hhash
    exact ⟨ObjectContext.encode_inj (List.append_cancel_left hinput), hindex, hkey, hnonce, hmsg⟩

def boundSchedule : FileKeySchedule :=
  ⟨.replicate 32 1, .replicate 32 2, .replicate 32 3, .replicate 32 4, .replicate 48 5⟩

/-- An object of one byte. -/
def boundContext : ObjectContext := ⟨.replicate 32 1, .replicate 32 2, 1, 1, 65536, 1, 0, 0⟩

/-- The cipher under which the byte was encrypted, and nothing else. -/
def boundCipher : Primitives :=
  sampleFor (chunk_encryption sample boundSchedule boundContext
    (boundContext.context_hash sample) 0 [7])

theorem one_byte_is_decrypted_at_its_index :
    ∃ c, encrypt_chunk boundCipher boundSchedule boundContext
        (boundContext.context_hash boundCipher) 0 [7] = some c ∧
      decrypt_chunk boundCipher boundSchedule boundContext
        (boundContext.context_hash boundCipher) 0 c = some [7] ∧
      ∀ schedule2 j p2, decrypt_chunk boundCipher schedule2 boundContext
        (boundContext.context_hash boundCipher) j c = some p2 → j = 0 ∧ p2 = [7] := by
  obtain ⟨c, henc⟩ : ∃ c, encrypt_chunk boundCipher boundSchedule boundContext
      (boundContext.context_hash boundCipher) 0 [7] = some c := ⟨_, rfl⟩
  obtain ⟨hdec, honly⟩ := a_chunk_is_decrypted_only_in_its_place boundCipher (sampleFor_ideal _)
    boundSchedule boundContext 0 [7] c henc rfl
  refine ⟨c, henc, hdec, ?_⟩
  intro schedule2 j p2 h
  have hsame : NoCollision boundCipher.blake3 [boundContext.hash_input]
      [boundContext.hash_input] := by
    intro x hx y hy _
    rw [List.mem_singleton.1 hx, List.mem_singleton.1 hy]
  obtain ⟨-, hj, -, -, hp⟩ := honly schedule2 boundContext j p2 hsame h
  exact ⟨hj, hp⟩

end rtp2_core.object
