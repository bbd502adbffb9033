-- The ideal cipher. It opens what was encrypted, under the key, the nonce and
-- the data that it was encrypted with, and nothing else.
import Mathlib.Data.Set.Insert
import Reyta.Crypto

open byte_string

namespace rtp2_core.crypto

/-- One use of `encrypt`. -/
structure Encryption where
  key : Arr 32
  nonce : Arr 24
  aad : Bytes
  msg : Bytes
  deriving DecidableEq

def Encryption.ciphertext (P : Primitives) (e : Encryption) : Option Bytes :=
  P.encrypt e.key e.nonce e.aad e.msg

/-- The cipher is ideal for the encryptions that were made. -/
structure Primitives.Ideal (P : Primitives) (made : Set Encryption) : Prop where
  /-- It opens what was made, and nothing else. -/
  decrypt_iff : ∀ key nonce aad c msg, P.decrypt key nonce aad c = some msg ↔
    ⟨key, nonce, aad, msg⟩ ∈ made ∧ P.encrypt key nonce aad msg = some c
  /-- No ciphertext was made in two ways. -/
  apart : ∀ e ∈ made, ∀ e' ∈ made, ∀ c, e.ciphertext P = some c → e'.ciphertext P = some c → e = e'
  /-- A ciphertext is as long as its message and a tag. -/
  tag : ∀ e ∈ made, ∀ c, e.ciphertext P = some c → c.length = e.msg.length + 16

namespace Primitives.Ideal

variable {P : Primitives} {made : Set Encryption} {e : Encryption} {c : Bytes}

theorem decrypt (h : P.Ideal made) (he : e ∈ made) (hc : e.ciphertext P = some c) :
    P.decrypt e.key e.nonce e.aad c = some e.msg :=
  (h.decrypt_iff _ _ _ _ _).2 ⟨he, hc⟩

/-- A ciphertext is opened only as what it was made of. -/
theorem eq_of_decrypt (h : P.Ideal made) (he : e ∈ made) (hc : e.ciphertext P = some c)
    {key : Arr 32} {nonce : Arr 24} {aad msg : Bytes}
    (hdec : P.decrypt key nonce aad c = some msg) : ⟨key, nonce, aad, msg⟩ = e := by
  obtain ⟨hmade, henc⟩ := (h.decrypt_iff _ _ _ _ _).1 hdec
  exact h.apart _ hmade _ he c henc hc

end Primitives.Ideal

/-- The stand-in, with a cipher that opens one encryption. -/
def sampleFor (e : Encryption) : Primitives :=
  { sample with
    decrypt := fun key nonce aad c =>
      if key = e.key ∧ nonce = e.nonce ∧ aad = e.aad ∧ e.ciphertext sample = some c then some e.msg
      else none }

theorem sampleFor_ideal (e : Encryption) : (sampleFor e).Ideal {e} := by
  constructor
  · intro key nonce aad c msg
    change (if _ then _ else _) = some msg ↔ _
    split_ifs with h
    · obtain ⟨rfl, rfl, rfl, hc⟩ := h
      constructor
      · intro hmsg
        obtain rfl := Option.some.inj hmsg
        exact ⟨rfl, hc⟩
      · rintro ⟨he, -⟩
        exact congrArg (fun e => some e.msg) (Set.mem_singleton_iff.1 he).symm
    · refine iff_of_false (by simp) ?_
      rintro ⟨he, hc⟩
      have he := Set.mem_singleton_iff.1 he
      subst he
      exact h ⟨rfl, rfl, rfl, hc⟩
  · rintro e' rfl e'' rfl c - -
    rfl
  · rintro e' rfl c hc
    obtain ⟨key, nonce, aad, msg⟩ := e'
    obtain rfl : msg ++ sample.tag key nonce aad msg = c := Option.some.inj hc
    rw [List.length_append, sample.tag, Arr.length_bytes]

end rtp2_core.crypto
