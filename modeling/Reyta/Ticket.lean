-- The ticket: where a transfer can be fetched, as a map in CBOR, and as a URI
-- that carries the map in base64url without padding. One URI stands for each
-- ticket.
import Mathlib.Data.Nat.Bitwise
import Reyta.BlockCodec
import Reyta.Offer

open byte_string exact_parse block_codec

namespace rtp2_core.offer

open cbor crypto OfferError

/-! ## base64url -/

def B64_ALPHABET : Bytes :=
  ascii "ABCDEFGHIJKLMNOPQRSTUVWXYZabcdefghijklmnopqrstuvwxyz0123456789-_"

/-- The letter for six bits, from `n >> shift`. -/
def letter (n shift : Nat) : UInt8 := B64_ALPHABET.getD (n >>> shift &&& 63) 0

/-- The body of the loop of `base64url_encode`, over the bytes of the text. -/
def encode_chunk (chunk : Bytes) : Bytes :=
  let b0 := (chunk.getD 0 0).toNat
  let b1 := (chunk.getD 1 0).toNat
  let b2 := (chunk.getD 2 0).toNat
  let n := b0 <<< 16 ||| b1 <<< 8 ||| b2
  [letter n 18, letter n 12] ++ (if chunk.length > 1 then [letter n 6] else []) ++
    (if chunk.length > 2 then [letter n 0] else [])

/-- `b as char` -/
def as_char (b : UInt8) : Char := Char.ofUInt8 b

def base64url_encode (data : Bytes) : String :=
  String.ofList ((block_codec.encode 3 encode_chunk data).map as_char)

/-- The six bits of a letter. -/
def value (c : UInt8) : Option Nat :=
  if 65 ≤ c ∧ c ≤ 90 then some (c - 65).toNat
  else if 97 ≤ c ∧ c ≤ 122 then some ((c - 97).toNat + 26)
  else if 48 ≤ c ∧ c ≤ 57 then some ((c - 48).toNat + 52)
  else if c = 45 then some 62
  else if c = 95 then some 63
  else none

/-- The loop over the letters of a chunk, from the letter `i` on. -/
def gather : Nat → Nat → Bytes → Except OfferError Nat
  | _, n, [] => pure n
  | i, n, c :: chunk => do
    let v ← some_or .Encoding (value c)
    gather (i + 1) (n ||| v <<< (18 - 6 * i)) chunk

/-- The bits beyond the bytes of a chunk of `len` letters, which have to be zero. -/
def unused_bits (len : Nat) : Nat :=
  if len = 2 then 16 else if len = 3 then 8 else 0

/-- The body of the loop of `base64url_decode`. -/
def decode_chunk (chunk : Bytes) : Except OfferError Bytes := do
  let n ← gather 0 0 chunk
  let out := [(n >>> 16).toUInt8] ++ (if chunk.length > 2 then [(n >>> 8).toUInt8] else []) ++
    (if chunk.length > 3 then [n.toUInt8] else [])
  let unused := unused_bits chunk.length
  refuse_if (unused > 0 ∧ n &&& ((1 <<< unused) - 1) ≠ 0) .Encoding
  pure out

/-- `text` stands as its bytes. -/
def base64url_decode (text : Bytes) : Except OfferError Bytes := do
  refuse_if (text.length % 4 = 1) .Encoding
  block_codec.decode 4 decode_chunk text

/-! ## The ticket -/

def TICKET_VERSION : UInt64 := 1
def TICKET_SCHEME : String := "rtp2:"
def MAX_TICKET_LEN : Nat := 8192

structure Ticket where
  ticket_version : UInt64
  transfer_id : Arr 32
  manifest_commitment : Arr 32
  provider_addresses : List ProviderAddress
  capability_token : Bytes
  expires_at : UInt64
  route_profile : UInt8
  deriving DecidableEq

namespace Ticket

def encode (self : Ticket) : Bytes :=
  MapWriter [(0, Writer.uint self.ticket_version), (1, Writer.bytes self.transfer_id.bytes),
    (2, Writer.bytes self.manifest_commitment.bytes),
    (3, encode_providers self.provider_addresses), (4, Writer.bytes self.capability_token),
    (5, Writer.uint self.expires_at), (6, Writer.uint self.route_profile.toUInt64)]

def read : Parse OfferError Ticket := do
  let m ← map_err from_cbor Reader.map
  let m ← map_err from_cbor (m.expect_key 0)
  let ticket_version ← map_err from_cbor Reader.uint
  fail_if (ticket_version ≠ TICKET_VERSION) .UnsupportedVersion
  let m ← map_err from_cbor (m.expect_key 1)
  let transfer_id ← map_err from_cbor (Reader.bytes_exact 32)
  let m ← map_err from_cbor (m.expect_key 2)
  let manifest_commitment ← map_err from_cbor (Reader.bytes_exact 32)
  let m ← map_err from_cbor (m.expect_key 3)
  let provider_addresses ← Reader.array_if from_cbor
    (fun count => count = 0 ∨ count > MAX_PROVIDERS) .TooManyProviders ProviderAddress.decode
  let m ← map_err from_cbor (m.expect_key 4)
  let capability_token ← map_err from_cbor Reader.bytes
  let m ← map_err from_cbor (m.expect_key 5)
  let expires_at ← map_err from_cbor Reader.uint
  let m ← map_err from_cbor (m.expect_key 6)
  let route_profile ← map_err from_cbor Reader.uint
  fail_if (route_profile > 3) .Encoding
  m.expect_end from_cbor .Encoding
  pure ⟨ticket_version, transfer_id, manifest_commitment, provider_addresses, capability_token,
    expires_at, route_profile.toUInt8⟩

def decode (bytes : Bytes) : Except OfferError Ticket := do
  let r ← (Reader.new bytes).mapError from_cbor
  Reader.read_all from_cbor read r

def to_uri (self : Ticket) : String := TICKET_SCHEME ++ base64url_encode self.encode

def from_uri (uri : String) : Except OfferError Ticket := do
  refuse_if ((Writer.as_bytes uri).length > MAX_TICKET_LEN) .ValueTooLong
  let body ← some_or .Encoding ((Writer.as_bytes uri).dropPrefix? (Writer.as_bytes TICKET_SCHEME))
  let bytes ← base64url_decode body
  decode bytes

end Ticket

/-! ## Letters and six bits -/

/-- The letter for a value. -/
def digit (v : Nat) : UInt8 := B64_ALPHABET.getD v 0

theorem value_digit : ∀ v, v < 64 → value (digit v) = some v := by
  decide +kernel

theorem value_eq_some {c : UInt8} {v : Nat} (h : value c = some v) : v < 64 ∧ digit v = c := by
  have all : ∀ i : Fin 256, ∀ v ∈ value (UInt8.ofFin i), v < 64 ∧ digit v = UInt8.ofFin i := by
    decide +kernel
  exact all c.toFin v h

theorem letter_eq (n shift : Nat) : letter n shift = digit (n / 2 ^ shift % 64) := by
  have hand := Nat.and_two_pow_sub_one_eq_mod (n >>> shift) 6
  unfold letter digit
  rw [← Nat.shiftRight_eq_div_pow]
  exact congrArg (fun i => B64_ALPHABET.getD i 0) hand

/-- Three bytes side by side. -/
theorem join_bytes (b0 b1 b2 : UInt8) : b0.toNat <<< 16 ||| b1.toNat <<< 8 ||| b2.toNat =
    b0.toNat * 65536 + b1.toNat * 256 + b2.toNat := by
  have h0 := b0.toNat_lt
  have h1 := b1.toNat_lt
  have h2 := b2.toNat_lt
  have hlow : b1.toNat * 256 ||| b2.toNat = b1.toNat * 256 + b2.toNat := by
    rw [Nat.mul_comm, ← Nat.two_pow_add_eq_or_of_lt (i := 8) h2]
  rw [Nat.shiftLeft_eq, Nat.shiftLeft_eq, Nat.or_assoc, hlow, Nat.mul_comm,
    ← Nat.two_pow_add_eq_or_of_lt (by omega)]
  omega

/-- Six bits that are put below what is there. -/
theorem or_shiftLeft_of_dvd {n v k : Nat} (hn : 2 ^ (k + 6) ∣ n) (hv : v < 64) :
    n ||| v <<< k = n + v * 2 ^ k := by
  obtain ⟨m, rfl⟩ := hn
  have hlt : v * 2 ^ k < 2 ^ (k + 6) := by
    rw [Nat.add_comm, Nat.pow_add]
    exact Nat.mul_lt_mul_of_pos_right hv (Nat.two_pow_pos k)
  rw [Nat.shiftLeft_eq, Nat.two_pow_add_eq_or_of_lt hlt]

/-- The number that letters with the values `vs` give, from the letter `i` on. -/
def sextets : Nat → List Nat → Nat
  | _, [] => 0
  | i, v :: vs => v * 2 ^ (18 - 6 * i) + sextets (i + 1) vs

theorem gather_eq_ok {chunk : Bytes} {i n r : Nat} (hi : i + chunk.length ≤ 4)
    (hn : 2 ^ (24 - 6 * i) ∣ n) : gather i n chunk = .ok r ↔
      ∃ vs : List Nat, (∀ v ∈ vs, v < 64) ∧ chunk = vs.map digit ∧ r = n + sextets i vs := by
  induction chunk generalizing i n with
  | nil =>
    rw [gather, pure_eq_ok]
    constructor
    · rintro rfl
      exact ⟨[], by simp, rfl, rfl⟩
    · rintro ⟨vs, -, hvs, rfl⟩
      rw [List.map_eq_nil_iff.1 hvs.symm]
      rfl
  | cons c chunk ih =>
    rw [List.length_cons] at hi
    have hk : 24 - 6 * i = 18 - 6 * i + 6 := by omega
    rw [hk] at hn
    have hdvd : ∀ v, 2 ^ (24 - 6 * (i + 1)) ∣ n + v * 2 ^ (18 - 6 * i) := by
      intro v
      have hnext : 24 - 6 * (i + 1) = 18 - 6 * i := by omega
      rw [hnext]
      exact Nat.dvd_add (Nat.dvd_trans (Nat.pow_dvd_pow 2 (Nat.le_add_right _ _)) hn)
        (Nat.dvd_mul_left _ _)
    rw [gather, bind_eq_ok]
    constructor
    · rintro ⟨v, hv, hrest⟩
      obtain ⟨hlt, hdigit⟩ := value_eq_some (some_or_eq_ok.1 hv)
      rw [or_shiftLeft_of_dvd hn hlt] at hrest
      obtain ⟨vs, hvs, rfl, rfl⟩ := (ih (by omega) (hdvd v)).1 hrest
      refine ⟨v :: vs, ?_, by rw [List.map_cons, hdigit], by rw [sextets, Nat.add_assoc]⟩
      simpa using ⟨hlt, hvs⟩
    · rintro ⟨vs, hvs, hchunk, rfl⟩
      cases vs with
      | nil => cases hchunk
      | cons v vs =>
        obtain ⟨rfl, rfl⟩ := List.cons.inj hchunk
        have hlt := hvs v List.mem_cons_self
        refine ⟨v, some_or_eq_ok.2 (value_digit v hlt), ?_⟩
        rw [or_shiftLeft_of_dvd hn hlt]
        have hrest : ∀ u ∈ vs, u < 64 := fun u hu => hvs u (List.mem_cons_of_mem _ hu)
        refine (ih (by omega) (hdvd v)).2 ⟨vs, hrest, rfl, ?_⟩
        rw [sextets, Nat.add_assoc]

/-! ## A chunk -/

/-- The four letters of three bytes. -/
theorem letters_eq (b0 b1 b2 : UInt8) :
    let n := b0.toNat <<< 16 ||| b1.toNat <<< 8 ||| b2.toNat
    letter n 18 = digit (b0.toNat / 4) ∧
    letter n 12 = digit (b0.toNat % 4 * 16 + b1.toNat / 16) ∧
    letter n 6 = digit (b1.toNat % 16 * 4 + b2.toNat / 64) ∧
    letter n 0 = digit (b2.toNat % 64) := by
  have h0 := b0.toNat_lt
  have h1 := b1.toNat_lt
  have h2 := b2.toNat_lt
  simp only [letter_eq, join_bytes]
  refine ⟨congrArg digit ?_, congrArg digit ?_, congrArg digit ?_, congrArg digit ?_⟩
  all_goals omega

theorem encode_chunk_one (b0 : UInt8) :
    encode_chunk [b0] = [digit (b0.toNat / 4), digit (b0.toNat % 4 * 16)] := by
  obtain ⟨h0, h1, -, -⟩ := letters_eq b0 0 0
  change [letter _ 18, letter _ 12] = _
  refine (congrArg₂ (fun c d => [c, d]) h0 h1).trans ?_
  rfl

theorem encode_chunk_two (b0 b1 : UInt8) :
    encode_chunk [b0, b1] = [digit (b0.toNat / 4), digit (b0.toNat % 4 * 16 + b1.toNat / 16),
      digit (b1.toNat % 16 * 4)] := by
  obtain ⟨h0, h1, h2, -⟩ := letters_eq b0 b1 0
  rw [← h0, ← h1]
  exact congrArg (fun c => [_, _, c]) h2

theorem encode_chunk_three (b0 b1 b2 : UInt8) :
    encode_chunk [b0, b1, b2] = [digit (b0.toNat / 4),
      digit (b0.toNat % 4 * 16 + b1.toNat / 16), digit (b1.toNat % 16 * 4 + b2.toNat / 64),
      digit (b2.toNat % 64)] := by
  obtain ⟨h0, h1, h2, h3⟩ := letters_eq b0 b1 b2
  rw [← h0, ← h1, ← h2, ← h3]
  rfl

/-- A chunk that is decoded is made of letters. -/
theorem of_decode_chunk {chunk out : Bytes} (hlen : chunk.length ≤ 4)
    (h : decode_chunk chunk = .ok out) :
    ∃ vs : List Nat, (∀ v ∈ vs, v < 64) ∧ chunk = vs.map digit := by
  obtain ⟨n, hn, -⟩ := bind_eq_ok.1 h
  obtain ⟨vs, hvs, hchunk, -⟩ := (gather_eq_ok (by omega) (Nat.dvd_zero _)).1 hn
  exact ⟨vs, hvs, hchunk⟩

theorem decode_chunk_map {vs : List Nat} (hvs : ∀ v ∈ vs, v < 64) (hlen : vs.length ≤ 4)
    {out : Bytes} :
    decode_chunk (vs.map digit) = .ok out ↔
      ¬ (unused_bits vs.length > 0 ∧ sextets 0 vs % 2 ^ unused_bits vs.length ≠ 0) ∧
      [(sextets 0 vs / 65536).toUInt8] ++
        (if vs.length > 2 then [(sextets 0 vs / 256).toUInt8] else []) ++
        (if vs.length > 3 then [(sextets 0 vs).toUInt8] else []) = out := by
  have hgather : gather 0 0 (vs.map digit) = .ok (sextets 0 vs) := by
    refine (gather_eq_ok (by simpa using hlen) (Nat.dvd_zero _)).2 ⟨vs, hvs, rfl, ?_⟩
    rw [Nat.zero_add]
  unfold decode_chunk
  rw [hgather]
  change ((refuse_if _ _ >>= _) = _) ↔ _
  rw [bind_eq_ok]
  simp only [refuse_if_eq_ok, pure_eq_ok, List.length_map, Nat.shiftRight_eq_div_pow,
    Nat.one_shiftLeft, Nat.and_two_pow_sub_one_eq_mod, exists_and_left, exists_const]

theorem toUInt8_congr {n m : Nat} (h : n % 256 = m % 256) : n.toUInt8 = m.toUInt8 := by
  rw [← UInt8.toNat_inj]
  exact h

theorem toUInt8_eq {n : Nat} {b : UInt8} (h : n = b.toNat) : n.toUInt8 = b := by
  rw [h]
  exact UInt8.ofNat_toNat

theorem toNat_toUInt8 {n : Nat} (h : n < 256) : n.toUInt8.toNat = n := Nat.mod_eq_of_lt h

theorem decode_chunk_two {v0 v1 : Nat} (h0 : v0 < 64) (h1 : v1 < 64) {out : Bytes} :
    decode_chunk [digit v0, digit v1] = .ok out ↔
      v1 % 16 = 0 ∧ [(v0 * 4 + v1 / 16).toUInt8] = out := by
  have hchunk : decode_chunk ([v0, v1].map digit) = .ok out ↔ _ :=
    decode_chunk_map (by simp [h0, h1]) (by simp)
  have hsum : sextets 0 [v0, v1] = (v0 * 4 + v1 / 16) * 65536 + v1 % 16 * 4096 := by
    simp only [sextets]
    omega
  have hdiv : ((v0 * 4 + v1 / 16) * 65536 + v1 % 16 * 4096) / 65536 = v0 * 4 + v1 / 16 := by omega
  have hmod : ((v0 * 4 + v1 / 16) * 65536 + v1 % 16 * 4096) % 65536 = v1 % 16 * 4096 := by omega
  simpa [unused_bits, hsum, hdiv, hmod] using hchunk

theorem decode_chunk_three {v0 v1 v2 : Nat} (h0 : v0 < 64) (h1 : v1 < 64) (h2 : v2 < 64)
    {out : Bytes} :
    decode_chunk [digit v0, digit v1, digit v2] = .ok out ↔
      v2 % 4 = 0 ∧ [(v0 * 4 + v1 / 16).toUInt8, (v1 % 16 * 16 + v2 / 4).toUInt8] = out := by
  have hchunk : decode_chunk ([v0, v1, v2].map digit) = .ok out ↔ _ :=
    decode_chunk_map (by simp [h0, h1, h2]) (by simp)
  have hsum : sextets 0 [v0, v1, v2] = v0 * 262144 + v1 * 4096 + v2 * 64 := by
    simp only [sextets]
    omega
  have hdiv : (v0 * 262144 + v1 * 4096 + v2 * 64) / 65536 = v0 * 4 + v1 / 16 := by omega
  have hbyte : ((v0 * 262144 + v1 * 4096 + v2 * 64) / 256).toUInt8 =
      (v1 % 16 * 16 + v2 / 4).toUInt8 := toUInt8_congr (by omega)
  have hmod : (v0 * 262144 + v1 * 4096 + v2 * 64) % 256 = v2 % 4 * 64 := by omega
  simpa [unused_bits, hsum, hdiv, hbyte, hmod] using hchunk

theorem decode_chunk_four {v0 v1 v2 v3 : Nat} (h0 : v0 < 64) (h1 : v1 < 64) (h2 : v2 < 64)
    (h3 : v3 < 64) {out : Bytes} :
    decode_chunk [digit v0, digit v1, digit v2, digit v3] = .ok out ↔
      [(v0 * 4 + v1 / 16).toUInt8, (v1 % 16 * 16 + v2 / 4).toUInt8,
        (v2 % 4 * 64 + v3).toUInt8] = out := by
  have hchunk : decode_chunk ([v0, v1, v2, v3].map digit) = .ok out ↔ _ :=
    decode_chunk_map (by simp [h0, h1, h2, h3]) (by simp)
  have hsum : sextets 0 [v0, v1, v2, v3] = v0 * 262144 + v1 * 4096 + v2 * 64 + v3 := by
    simp only [sextets]
    omega
  have hdiv : (v0 * 262144 + v1 * 4096 + v2 * 64 + v3) / 65536 = v0 * 4 + v1 / 16 := by omega
  have hbyte : ((v0 * 262144 + v1 * 4096 + v2 * 64 + v3) / 256).toUInt8 =
      (v1 % 16 * 16 + v2 / 4).toUInt8 := toUInt8_congr (by omega)
  have hlast : (v0 * 262144 + v1 * 4096 + v2 * 64 + v3).toUInt8 =
      (v2 % 4 * 64 + v3).toUInt8 := toUInt8_congr (by omega)
  simpa [unused_bits, hsum, hdiv, hbyte, hlast] using hchunk

/-- Three bytes are four letters, and fewer bytes are two letters or three. -/
theorem base64url_codec : BlockCodec 3 4 encode_chunk decode_chunk (· ≠ 1) where
  a_pos := by decide
  b_pos := by decide
  dec_enc := by
    rintro (_ | ⟨b0, _ | ⟨b1, _ | ⟨b2, _ | ⟨b3, x⟩⟩⟩⟩) hne hlen
    · exact absurd rfl hne
    · have h0 := b0.toNat_lt
      rw [encode_chunk_one, decode_chunk_two (by omega) (by omega)]
      refine ⟨by omega, ?_⟩
      rw [toUInt8_eq (b := b0) (by omega)]
    · have h0 := b0.toNat_lt
      have h1 := b1.toNat_lt
      rw [encode_chunk_two, decode_chunk_three (by omega) (by omega) (by omega)]
      refine ⟨by omega, ?_⟩
      rw [toUInt8_eq (b := b0) (by omega), toUInt8_eq (b := b1) (by omega)]
    · have h0 := b0.toNat_lt
      have h1 := b1.toNat_lt
      have h2 := b2.toNat_lt
      rw [encode_chunk_three, decode_chunk_four (by omega) (by omega) (by omega) (by omega),
        toUInt8_eq (b := b0) (by omega), toUInt8_eq (b := b1) (by omega),
        toUInt8_eq (b := b2) (by omega)]
    · simp only [List.length_cons] at hlen
      omega
  full_enc := by
    intro x hx
    obtain ⟨b0, b1, b2, rfl⟩ := List.length_eq_three.1 hx
    rw [encode_chunk_three]
    rfl
  short_enc := by
    rintro (_ | ⟨b0, _ | ⟨b1, _ | ⟨b2, x⟩⟩⟩) hne hlen
    · exact absurd rfl hne
    · rw [encode_chunk_one]
      simp
    · rw [encode_chunk_two]
      simp
    · simp only [List.length_cons] at hlen
      omega
  full_dec := by
    intro y x hy h
    obtain ⟨vs, hvs, rfl⟩ := of_decode_chunk (Nat.le_of_eq hy) h
    rw [List.length_map] at hy
    obtain ⟨v0, vs, rfl⟩ := List.exists_cons_of_length_eq_add_one hy
    obtain ⟨v1, v2, v3, rfl⟩ := List.length_eq_three.1 (Nat.succ.inj hy)
    simp only [List.forall_mem_cons, List.not_mem_nil, false_imp_iff, implies_true, and_true] at hvs
    obtain ⟨h0, h1, h2, h3⟩ := hvs
    obtain rfl := (decode_chunk_four h0 h1 h2 h3).1 h
    refine ⟨?_, rfl⟩
    rw [encode_chunk_three, toNat_toUInt8 (by omega), toNat_toUInt8 (by omega),
      toNat_toUInt8 (by omega)]
    have hv0 : (v0 * 4 + v1 / 16) / 4 = v0 := by omega
    have hv1 : (v0 * 4 + v1 / 16) % 4 * 16 + (v1 % 16 * 16 + v2 / 4) / 16 = v1 := by omega
    have hv2 : (v1 % 16 * 16 + v2 / 4) % 16 * 4 + (v2 % 4 * 64 + v3) / 64 = v2 := by omega
    have hv3 : (v2 % 4 * 64 + v3) % 64 = v3 := by omega
    rw [hv0, hv1, hv2, hv3]
    rfl
  short_dec := by
    intro y x hne hlt hone h
    obtain ⟨vs, hvs, rfl⟩ := of_decode_chunk (Nat.le_of_lt hlt) h
    rw [List.length_map] at hlt hone
    match vs with
    | [] => exact absurd rfl hne
    | [v0] => exact absurd rfl hone
    | [v0, v1] =>
      simp only [List.forall_mem_cons, List.not_mem_nil, false_imp_iff, implies_true, and_true]
        at hvs
      obtain ⟨hzero, rfl⟩ := (decode_chunk_two hvs.1 hvs.2).1 h
      refine ⟨?_, List.cons_ne_nil _ _, (by decide : 1 < 3)⟩
      rw [encode_chunk_one, toNat_toUInt8 (by omega)]
      have hv0 : (v0 * 4 + v1 / 16) / 4 = v0 := by omega
      have hv1 : (v0 * 4 + v1 / 16) % 4 * 16 = v1 := by omega
      rw [hv0, hv1]
      rfl
    | [v0, v1, v2] =>
      simp only [List.forall_mem_cons, List.not_mem_nil, false_imp_iff, implies_true, and_true]
        at hvs
      obtain ⟨hzero, rfl⟩ := (decode_chunk_three hvs.1 hvs.2.1 hvs.2.2).1 h
      refine ⟨?_, List.cons_ne_nil _ _, (by decide : 2 < 3)⟩
      rw [encode_chunk_two, toNat_toUInt8 (by omega), toNat_toUInt8 (by omega)]
      have hv0 : (v0 * 4 + v1 / 16) / 4 = v0 := by omega
      have hv1 : (v0 * 4 + v1 / 16) % 4 * 16 + (v1 % 16 * 16 + v2 / 4) / 16 = v1 := by omega
      have hv2 : (v1 % 16 * 16 + v2 / 4) % 16 * 4 = v2 := by omega
      rw [hv0, hv1, hv2]
      rfl
    | v0 :: v1 :: v2 :: v3 :: vs =>
      simp only [List.length_cons] at hlt
      omega

theorem base64url_decode_eq_ok {text data : Bytes} :
    base64url_decode text = .ok data ↔ text = block_codec.encode 3 encode_chunk data := by
  unfold base64url_decode
  simp only [bind_eq_ok, refuse_if_eq_ok, exists_and_left, exists_const]
  constructor
  · rintro ⟨hlen, h⟩
    refine (base64url_codec.encode_decode ?_ h).symm
    exact .inr hlen
  · rintro rfl
    refine ⟨?_, base64url_codec.decode_encode data⟩
    rcases base64url_codec.length_encode_mod data with h | h
    · rw [h]
      decide
    · exact h

/-! ## The text -/

/-- Every letter is a byte of ASCII. -/
theorem digit_le (v : Nat) : digit v ≤ 127 := by
  have hall : ∀ c ∈ B64_ALPHABET, c ≤ 127 := by decide +kernel
  unfold digit
  rw [List.getD_eq_getElem?_getD]
  rcases hc : B64_ALPHABET[v]? with _ | c
  · decide
  · exact hall c (List.mem_of_getElem? hc)

theorem encode_chunk_le (chunk : Bytes) : ∀ c ∈ encode_chunk chunk, c ≤ 127 := by
  intro c hc
  have hletter : ∃ n shift, c = letter n shift := by
    unfold encode_chunk at hc
    simp only [List.mem_append, List.mem_cons, List.not_mem_nil, or_false,
      List.mem_ite_nil_right] at hc
    rcases hc with ((h | h) | ⟨-, h⟩) | ⟨-, h⟩
    all_goals exact ⟨_, _, h⟩
  obtain ⟨n, shift, rfl⟩ := hletter
  rw [letter_eq]
  exact digit_le _

theorem as_bytes_append (s t : String) :
    Writer.as_bytes (s ++ t) = Writer.as_bytes s ++ Writer.as_bytes t := by
  unfold Writer.as_bytes
  rw [String.toByteArray_append]
  simp

theorem as_bytes_inj {s t : String} (h : Writer.as_bytes s = Writer.as_bytes t) : s = t := by
  unfold Writer.as_bytes at h
  rw [← String.toByteArray_inj]
  exact ByteArray.ext (Array.toList_inj.1 h)

theorem val_as_char (c : UInt8) : (as_char c).val = c.toUInt32 := rfl

theorem as_bytes_ofList {l : Bytes} (h : ∀ c ∈ l, c ≤ 127) :
    Writer.as_bytes (String.ofList (l.map as_char)) = l := by
  have hchar : ∀ c ∈ l, String.utf8EncodeChar (as_char c) = [c] := by
    intro c hc
    have hle := UInt8.le_iff_toNat_le.1 (h c hc)
    have hsize : (as_char c).utf8Size = 1 := by
      rw [Char.utf8Size_eq_one_iff, UInt32.le_iff_toNat_le]
      simpa [val_as_char] using hle
    rw [String.utf8EncodeChar_eq_singleton hsize]
    simp [val_as_char]
  unfold Writer.as_bytes
  rw [String.toByteArray_ofList, List.utf8Encode, List.flatMap_map, List.data_toByteArray,
    List.toList_toArray, List.flatMap_congr hchar, List.flatMap_singleton']

theorem as_bytes_base64url_encode (data : Bytes) :
    Writer.as_bytes (base64url_encode data) = block_codec.encode 3 encode_chunk data := by
  refine as_bytes_ofList ?_
  intro c hc
  obtain ⟨chunk, -, hc⟩ := List.mem_flatMap.1 hc
  exact encode_chunk_le chunk c hc

/-! ## What is read from the wire -/

namespace Ticket

/-- What `decode` checks. -/
structure Fits (t : Ticket) : Prop where
  version : t.ticket_version = TICKET_VERSION
  providers_ne : t.provider_addresses ≠ []
  providers_len : t.provider_addresses.length ≤ MAX_PROVIDERS.toNat
  providers : ∀ p ∈ t.provider_addresses, p.address.length ≤ MAX_PROVIDER_ADDR_LEN
  route_profile : t.route_profile ≤ 3

/-- `route_profile as u8` keeps what the check lets through. -/
theorem route_profile_eq {v : UInt64} (h : ¬ v > 3) : v.toUInt8.toUInt64 = v := by
  have hle := UInt64.le_iff_toNat_le.1 (UInt64.not_lt.1 h)
  rw [← UInt64.toNat_inj, UInt8.toNat_toUInt64, UInt64.toNat_toUInt8]
  exact Nat.mod_eq_of_lt (Nat.lt_of_le_of_lt hle (by decide))

theorem not_profile_gt {p : UInt8} : ¬ p.toUInt64 > 3 ↔ p ≤ 3 := by
  rw [gt_iff_lt, UInt64.not_lt, UInt64.le_iff_toNat_le, UInt8.le_iff_toNat_le,
    UInt8.toNat_toUInt64]
  rfl

theorem providers_refused {n : Nat} (h : n < 2 ^ 64) :
    (decide (UInt64.ofNat n = 0 ∨ UInt64.ofNat n > MAX_PROVIDERS) = false) ↔
      0 < n ∧ n ≤ MAX_PROVIDERS.toNat := by
  rw [decide_eq_false_iff_not, not_or, gt_iff_lt, UInt64.not_lt, UInt64.le_iff_toNat_le,
    ← UInt64.toNat_inj, UInt64.toNat_ofNat_of_lt' h]
  exact and_congr_left fun _ => Nat.pos_iff_ne_zero.symm

theorem read.reads :
    Reads read (fun d t => d + 2 < MAX_DEPTH ∧ t.capability_token.length < 2 ^ 64 ∧ t.Fits)
      encode (fun d _ => d) := by
  unfold read
  refine Reads.congr (MapBody.start (fun _ : Ticket => 7) (fun _ => by decide)
    fun m hm => MapBody.key (by simp [hm]) fun m hm => MapBody.value Ticket.ticket_version
      (Reader.uint.reads.map_err _) (fun _ => MapBody.value (fun _ => ())
      (Reads.check _ _) (fun _ => MapBody.key (by simp [hm])
    fun m hm => MapBody.value Ticket.transfer_id
      ((Reader.bytes_exact.reads (by decide)).map_err _) (fun _ => MapBody.key (by simp [hm])
    fun m hm => MapBody.value Ticket.manifest_commitment
      ((Reader.bytes_exact.reads (by decide)).map_err _) (fun _ => MapBody.key (by simp [hm])
    fun m hm => MapBody.value Ticket.provider_addresses
      (Reader.array_if.reads ProviderAddress.decode.reads) (fun _ => MapBody.key (by simp [hm])
    fun m hm => MapBody.value Ticket.capability_token
      (Reader.bytes.reads.map_err _) (fun _ => MapBody.key (by simp [hm])
    fun m hm => MapBody.value Ticket.expires_at
      (Reader.uint.reads.map_err _) (fun _ => MapBody.key (by simp [hm])
    fun m hm => MapBody.value (fun t : Ticket => t.route_profile.toUInt64)
      (Reader.uint.reads.map_err _) (fun v => MapBody.value (fun _ => ())
      (Reads.check _ _) (fun _ => MapBody.stop _ (Reads.pure _))
      ?_) ?profile) ?_) ?_) ?_) ?_) ?_) ?_) ?_) ?admits ?writes ?depth
  case admits =>
    intro d t
    constructor
    · rintro ⟨-, -, hversion, -, -, ⟨-, hlt, hcount, hprov⟩, htoken, -, -, hprofile, heq⟩
      obtain ⟨hpos, hmax⟩ := (providers_refused hlt).1 hcount
      obtain ⟨p, hp⟩ := List.exists_mem_of_length_pos hpos
      exact ⟨(hprov p hp).1, htoken, not_not.1 hversion, List.ne_nil_of_length_pos hpos, hmax,
        fun p hp => (hprov p hp).2, not_profile_gt.1 hprofile⟩
    · rintro ⟨hd, htoken, hfits⟩
      have hlt : t.provider_addresses.length < 2 ^ 64 :=
        Nat.lt_of_le_of_lt hfits.providers_len (by decide)
      have hcount := (providers_refused hlt).2
        ⟨List.length_pos_iff.2 hfits.providers_ne, hfits.providers_len⟩
      refine ⟨by omega, trivial, not_not.2 hfits.version, trivial, trivial,
        ⟨by omega, hlt, hcount, fun p hp => ⟨hd, hfits.providers p hp⟩⟩, htoken, trivial, trivial,
        not_profile_gt.2 hfits.route_profile, ?_⟩
      simp
  case writes =>
    intro d t _
    simp [encode, MapWriter, encode_providers]
  case depth =>
    intro d t _
    rfl
  case profile =>
    rintro d v t - ⟨hv, rfl⟩
    exact route_profile_eq hv
  all_goals grind

theorem decode_eq_ok {bytes : Bytes} {t : Ticket} : decode bytes = .ok t ↔
    bytes.length ≤ MAX_CONTROL_SIZE ∧ (t.capability_token.length < 2 ^ 64 ∧ t.Fits) ∧
      bytes = t.encode := by
  refine (Reader.new_read_all_eq_ok read.reads).trans ?_
  simp [MAX_DEPTH]

/-! ## The URI -/

theorem as_bytes_to_uri (t : Ticket) : Writer.as_bytes t.to_uri =
    Writer.as_bytes TICKET_SCHEME ++ block_codec.encode 3 encode_chunk t.encode := by
  unfold to_uri
  rw [as_bytes_append, as_bytes_base64url_encode]

theorem from_uri_eq_ok {uri : String} {t : Ticket} : from_uri uri = .ok t ↔
    (Writer.as_bytes uri).length ≤ MAX_TICKET_LEN ∧ decode t.encode = .ok t ∧ uri = t.to_uri := by
  unfold from_uri
  simp only [bind_eq_ok, refuse_if_eq_ok, some_or_eq_ok, exists_and_left, exists_const, Nat.not_lt,
    gt_iff_lt, base64url_decode_eq_ok]
  refine and_congr_right fun _ => ?_
  constructor
  · rintro ⟨body, hbody, bytes, rfl, hdecode⟩
    obtain ⟨-, -, rfl⟩ := decode_eq_ok.1 hdecode
    refine ⟨hdecode, as_bytes_inj ?_⟩
    obtain ⟨scheme, huri, hscheme⟩ := List.dropPrefix?_eq_some_iff.1 hbody
    rw [as_bytes_to_uri, huri, eq_of_beq hscheme]
  · rintro ⟨hdecode, rfl⟩
    refine ⟨_, ?_, t.encode, rfl, hdecode⟩
    rw [List.dropPrefix?_eq_some_iff]
    exact ⟨_, as_bytes_to_uri t, beq_self_eq_true _⟩

theorem length_encode_le_uri (t : Ticket) :
    t.encode.length ≤ (Writer.as_bytes t.to_uri).length := by
  have hgrow : ∀ x : Bytes, x ≠ [] → x.length ≤ 3 → x.length ≤ (encode_chunk x).length := by
    rintro (_ | ⟨b0, _ | ⟨b1, _ | ⟨b2, _ | ⟨b3, x⟩⟩⟩⟩) hne hlen
    · exact absurd rfl hne
    · simp [encode_chunk_one]
    · simp [encode_chunk_two]
    · simp [encode_chunk_three]
    · simp only [List.length_cons] at hlen
      omega
  rw [as_bytes_to_uri, List.length_append]
  exact Nat.le_trans (base64url_codec.length_le_encode hgrow _) (Nat.le_add_left _ _)

/-- A ticket within the limits of `decode`, with a URI that is not too long,
is read back from its URI, and the URI of a ticket that was read is the string
it was read from. So no two strings stand for one ticket. -/
theorem one_uri_for_each_ticket (t : Ticket) :
    (t.Fits → (Writer.as_bytes t.to_uri).length ≤ MAX_TICKET_LEN → from_uri t.to_uri = .ok t) ∧
    (∀ uri, from_uri uri = .ok t → t.to_uri = uri) ∧
    (∀ uri uri', from_uri uri = .ok t → from_uri uri' = .ok t → uri = uri') := by
  have hback : ∀ uri, from_uri uri = .ok t → t.to_uri = uri :=
    fun uri h => (from_uri_eq_ok.1 h).2.2.symm
  refine ⟨?_, hback, fun uri uri' h h' => (hback uri h).symm.trans (hback uri' h')⟩
  intro hfits hlen
  have hencode := Nat.le_trans (length_encode_le_uri t) hlen
  have htoken : t.capability_token.length ≤ t.encode.length := by
    refine Nat.le_trans (length_le_bytes _) (length_le_mapWriter
      (e := (4, Writer.bytes t.capability_token)) ?_)
    simp
  refine from_uri_eq_ok.2 ⟨hlen, decode_eq_ok.2 ⟨?_, ⟨?_, hfits⟩, rfl⟩, rfl⟩
  · exact Nat.le_trans hencode (by decide)
  · exact Nat.lt_of_le_of_lt (Nat.le_trans htoken hencode) (by decide)

def sampleTicket : Ticket where
  ticket_version := TICKET_VERSION
  transfer_id := .replicate 32 1
  manifest_commitment := .replicate 32 2
  provider_addresses := [⟨0, [127, 0, 0, 1]⟩]
  capability_token := [9]
  expires_at := 1000
  route_profile := 3

theorem the_sample_ticket_is_read_back : from_uri sampleTicket.to_uri = .ok sampleTicket := by
  refine (one_uri_for_each_ticket sampleTicket).1 ?_ ?_
  · exact ⟨rfl, by decide, by decide, by decide, by decide⟩
  · rw [as_bytes_to_uri]
    decide +kernel

end Ticket

end rtp2_core.offer
