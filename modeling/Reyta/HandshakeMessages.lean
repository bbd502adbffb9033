-- The messages of the standalone handshake. Each has one encoding, and no
-- encoding is the start of another one, so messages that are hashed one after
-- the other can be told apart.
import Reyta.Identity

open byte_string exact_parse

namespace rtp2_core.handshake

open cbor crypto identity

inductive HandshakeError where
  | Decode
  | UnsupportedVersion
  | UnsupportedSuite
  | PolicyViolation
  | InvalidKey
  | InvalidSignature
  | InvalidMac
  | Replay
  | EndpointMismatch
  | State
  deriving DecidableEq, Repr

/-- `From<CborError>`. -/
def from_cbor (_ : CborError) : HandshakeError := .Decode

def MODE_STANDALONE : UInt64 := 0

/-! ## Parts of the messages -/

def read_alpn : Parse HandshakeError Bytes := do
  let alpn ← map_err from_cbor Reader.bytes
  fail_if (alpn.length > 64) .Decode
  pure alpn

def read_suite : Parse HandshakeError UInt16 := do
  let s ← map_err from_cbor Reader.uint
  fail_if (s > 0xffff) .Decode
  pure s.toUInt16

def read_suites : Parse HandshakeError (List UInt16) :=
  Reader.array_if from_cbor (fun n => n == 0 || n > 32) .Decode read_suite

def encode_suites (suites : List UInt16) : Bytes :=
  Writer.array (.ofNat suites.length) ++ suites.flatMap fun s => Writer.uint s.toUInt64

/-- `pqc_required` and `minimum_security_level`. -/
def read_policy : Parse HandshakeError (Bool × UInt64) := do
  let pm ← map_err from_cbor Reader.map
  let pm ← map_err from_cbor (pm.expect_key 0)
  let req ← map_err from_cbor Reader.boolean
  let pm ← map_err from_cbor (pm.expect_key 1)
  let level ← map_err from_cbor Reader.uint
  pm.expect_end from_cbor .Decode
  pure (req, level)

def encode_policy (policy : Bool × UInt64) : Bytes :=
  MapWriter [(0, Writer.boolean policy.1), (1, Writer.uint policy.2)]

theorem read_alpn.reads :
    Reads read_alpn (fun _ alpn => alpn.length ≤ 64) Writer.bytes (fun d _ => d) := by
  unfold read_alpn
  refine Reads.congr (Reads.bind id (Reader.bytes.reads.map_err _)
    (fun alpn _ => Reads.fail_if _ _ (Reads.pure alpn)) ?_) ?_ ?_ (fun _ _ _ => rfl)
  · rintro d alpn a - ⟨-, rfl⟩
    rfl
  · intro d alpn
    simp only [id, and_true]
    omega
  · intro d alpn _
    simp

theorem read_suite.reads :
    Reads read_suite (fun _ _ => True) (fun s => Writer.uint s.toUInt64) (fun d _ => d) := by
  unfold read_suite
  refine Reads.congr (Reads.bind UInt16.toUInt64 (Reader.uint.reads.map_err _)
    (fun s _ => Reads.fail_if _ _ (Reads.pure _)) ?_) ?_ ?_ (fun _ _ _ => rfl)
  · rintro d v s - ⟨hv, rfl⟩
    exact toUInt16_back hv
  · intro d s
    simp [-gt_iff_lt, toUInt64_not_gt s]
  · intro d s _
    simp

theorem read_suites.reads :
    Reads read_suites
      (fun d suites => d < MAX_DEPTH ∧ suites ≠ [] ∧ suites.length ≤ 32) encode_suites
      (fun d _ => d) := by
  refine (Reader.array_if.reads read_suite.reads).congr ?_ (fun _ _ _ => rfl) (fun _ _ _ => rfl)
  intro d l
  simp only [Bool.or_eq_false_iff, beq_eq_false_iff_ne, decide_eq_false_iff_not, gt_iff_lt,
    UInt64.not_lt, UInt64.le_iff_toNat_le, UInt64.toNat_ofNat', ← List.length_pos_iff, ne_eq,
    ← UInt64.toNat_inj, UInt64.toNat_ofNat, implies_true, and_true]
  constructor
  · rintro ⟨hd, hlt, hne, hle⟩
    exact ⟨hd, by omega, by omega⟩
  · rintro ⟨hd, hpos, hle⟩
    exact ⟨hd, by omega, by omega, by omega⟩

theorem read_policy.reads :
    Reads read_policy (fun d _ => d < MAX_DEPTH) encode_policy (fun d _ => d) := by
  unfold read_policy
  refine Reads.congr (MapBody.start (fun _ => 2) (fun _ => by decide)
    fun m hm => MapBody.key (by simp [hm]) fun m hm => MapBody.value Prod.fst
      (Reader.boolean.reads.map_err _) (fun _ => MapBody.key (by simp [hm])
    fun m hm => MapBody.value Prod.snd
      (Reader.uint.reads.map_err _) (fun _ => MapBody.stop _ (Reads.pure _))
      ?_) ?_) ?admits ?writes ?depth
  case admits =>
    intro d policy
    exact ⟨fun h => h.1, fun h => ⟨h, trivial, trivial, rfl⟩⟩
  case writes =>
    intro d policy _
    simp [encode_policy, MapWriter]
  case depth =>
    intro d policy _
    rfl
  all_goals grind

/-! ## ClientHello -/

structure ClientHello where
  protocol_minor : UInt64
  handshake_mode : UInt64
  alpn : Bytes
  suites : List UInt16
  nonce : Arr 32
  ex_pk : Arr 32
  kem_pk : Arr MLKEM768_PUBLIC_KEY_LEN
  pqc_required : Bool
  minimum_security_level : UInt64
  cert : DevicePublic
  endpoint_id : Arr 32
  timestamp : UInt64
  deriving DecidableEq

namespace ClientHello

def encode (ch : ClientHello) : Bytes :=
  MapWriter [(0, Writer.uint PROTOCOL_MAJOR.toUInt64), (1, Writer.uint ch.protocol_minor),
    (2, Writer.uint ch.handshake_mode), (3, Writer.bytes ch.alpn), (4, encode_suites ch.suites),
    (5, Writer.bytes ch.nonce.bytes), (6, Writer.bytes ch.ex_pk.bytes),
    (7, Writer.bytes ch.kem_pk.bytes),
    (8, encode_policy (ch.pqc_required, ch.minimum_security_level)),
    (9, ch.cert.encode), (10, Writer.bytes ch.endpoint_id.bytes), (11, Writer.uint ch.timestamp)]

def read : Parse HandshakeError ClientHello := do
  let m ← map_err from_cbor Reader.map
  let m ← map_err from_cbor (m.expect_key 0)
  let major ← map_err from_cbor Reader.uint
  fail_if (major ≠ PROTOCOL_MAJOR.toUInt64) .UnsupportedVersion
  let m ← map_err from_cbor (m.expect_key 1)
  let protocol_minor ← map_err from_cbor Reader.uint
  let m ← map_err from_cbor (m.expect_key 2)
  let handshake_mode ← map_err from_cbor Reader.uint
  let m ← map_err from_cbor (m.expect_key 3)
  let alpn ← read_alpn
  let m ← map_err from_cbor (m.expect_key 4)
  let suites ← read_suites
  let m ← map_err from_cbor (m.expect_key 5)
  let nonce ← map_err from_cbor (Reader.bytes_exact 32)
  let m ← map_err from_cbor (m.expect_key 6)
  let ex_pk ← map_err from_cbor (Reader.bytes_exact 32)
  let m ← map_err from_cbor (m.expect_key 7)
  let kem_pk ← map_err from_cbor (Reader.bytes_exact MLKEM768_PUBLIC_KEY_LEN)
  let m ← map_err from_cbor (m.expect_key 8)
  let (pqc_required, minimum_security_level) ← read_policy
  let m ← map_err from_cbor (m.expect_key 9)
  let cert ← DevicePublic.decode from_cbor
  let m ← map_err from_cbor (m.expect_key 10)
  let endpoint_id ← map_err from_cbor (Reader.bytes_exact 32)
  let m ← map_err from_cbor (m.expect_key 11)
  let timestamp ← map_err from_cbor Reader.uint
  m.expect_end from_cbor .Decode
  pure ⟨protocol_minor, handshake_mode, alpn, suites, nonce, ex_pk, kem_pk, pqc_required,
    minimum_security_level, cert, endpoint_id, timestamp⟩

def decode (bytes : Bytes) : Except HandshakeError ClientHello := do
  let r ← (Reader.new bytes).mapError from_cbor
  Reader.read_all from_cbor read r

/-- Within the limits that the decoder checks. -/
def InRange (ch : ClientHello) : Prop :=
  ch.alpn.length ≤ 64 ∧ ch.suites ≠ [] ∧ ch.suites.length ≤ 32

theorem read.reads :
    Reads read (fun d ch => d + 1 < MAX_DEPTH ∧ ch.InRange) encode (fun d _ => d) := by
  unfold read
  refine Reads.congr (MapBody.start (fun _ : ClientHello => 12) (fun _ => by decide)
    fun m hm => MapBody.key (by simp [hm])
    fun m hm => MapBody.value (fun _ : ClientHello => PROTOCOL_MAJOR.toUInt64)
      (Reader.uint.reads.map_err _) (fun _ => MapBody.value (fun _ => ())
      (Reads.check _ _) (fun _ => MapBody.key (by simp [hm])
    fun m hm => MapBody.value ClientHello.protocol_minor
      (Reader.uint.reads.map_err _) (fun _ => MapBody.key (by simp [hm])
    fun m hm => MapBody.value ClientHello.handshake_mode
      (Reader.uint.reads.map_err _) (fun _ => MapBody.key (by simp [hm])
    fun m hm => MapBody.value ClientHello.alpn
      read_alpn.reads (fun _ => MapBody.key (by simp [hm])
    fun m hm => MapBody.value ClientHello.suites
      read_suites.reads (fun _ => MapBody.key (by simp [hm])
    fun m hm => MapBody.value ClientHello.nonce
      ((Reader.bytes_exact.reads (by decide)).map_err _) (fun _ => MapBody.key (by simp [hm])
    fun m hm => MapBody.value ClientHello.ex_pk
      ((Reader.bytes_exact.reads (by decide)).map_err _) (fun _ => MapBody.key (by simp [hm])
    fun m hm => MapBody.value ClientHello.kem_pk
      ((Reader.bytes_exact.reads (by decide)).map_err _) (fun _ => MapBody.key (by simp [hm])
    fun m hm => MapBody.value
      (fun ch : ClientHello => (ch.pqc_required, ch.minimum_security_level))
      read_policy.reads (fun _ => MapBody.key (by simp [hm])
    fun m hm => MapBody.value ClientHello.cert
      (DevicePublic.decode.reads _) (fun _ => MapBody.key (by simp [hm])
    fun m hm => MapBody.value ClientHello.endpoint_id
      ((Reader.bytes_exact.reads (by decide)).map_err _) (fun _ => MapBody.key (by simp [hm])
    fun m hm => MapBody.value ClientHello.timestamp
      (Reader.uint.reads.map_err _) (fun _ => MapBody.stop _ (Reads.pure _))
      ?_) ?_) ?_) ?_) ?_) ?_) ?_) ?_) ?_) ?_) ?_) ?_) ?major) ?admits ?writes ?depth
  case admits =>
    intro d ch
    have hd : d + 1 < MAX_DEPTH → d < MAX_DEPTH := Nat.lt_of_succ_lt
    constructor
    · intro h
      obtain ⟨-, -, -, -, -, halpn, ⟨hdepth, hne, hlen⟩, -⟩ := h
      exact ⟨hdepth, halpn, hne, hlen⟩
    · rintro ⟨hdepth, halpn, hne, hlen⟩
      exact ⟨hd hdepth, trivial, not_not.2 rfl, trivial, trivial, halpn, ⟨hdepth, hne, hlen⟩,
        trivial, trivial, trivial, hdepth, hdepth, trivial, trivial, rfl⟩
  case writes =>
    intro d ch _
    simp [encode, MapWriter]
  case depth =>
    intro d ch _
    rfl
  case major =>
    rintro d v ch - ⟨hv, -⟩
    exact (not_not.1 hv).symm
  all_goals grind

theorem decode_eq_ok {bytes : Bytes} {ch : ClientHello} : decode bytes = .ok ch ↔
    bytes.length ≤ MAX_CONTROL_SIZE ∧ ch.InRange ∧ bytes = ch.encode := by
  refine (Reader.new_read_all_eq_ok read.reads).trans ?_
  simp [MAX_DEPTH]

theorem length_encode_suites_le (suites : List UInt16) :
    (encode_suites suites).length ≤ 9 + 9 * suites.length := by
  have hitems : (suites.flatMap fun s => Writer.uint s.toUInt64).length ≤ 9 * suites.length :=
    length_flatMap_le fun s _ => length_uint_le s.toUInt64
  have h := length_header_le MAJOR_ARRAY (.ofNat suites.length)
  rw [encode_suites, List.length_append, Writer.array]
  omega

theorem length_encode_policy_le (policy : Bool × UInt64) : (encode_policy policy).length ≤ 100 := by
  have hflag : (Writer.boolean policy.1).length ≤ 1 := Nat.le_refl 1
  have hmap : (encode_policy policy).length ≤ _ :=
    length_mapWriter_le_of (.cons hflag (.cons (length_uint_le _) .nil))
  simp only [List.map_cons, List.map_nil, List.sum_cons, List.sum_nil] at hmap
  omega

theorem length_encode_le {ch : ClientHello} (h : ch.InRange) :
    ch.encode.length ≤ MAX_CONTROL_SIZE := by
  have hmap : ch.encode.length ≤ _ := length_mapWriter_le_of (.cons (length_uint_le _)
    (.cons (length_uint_le _) (.cons (length_uint_le _) (.cons (length_bytes_le _)
    (.cons (length_encode_suites_le _) (.cons (length_bytes_le _) (.cons (length_bytes_le _)
    (.cons (length_bytes_le _) (.cons (length_encode_policy_le _)
    (.cons (DevicePublic.length_encode_le _) (.cons (length_bytes_le _)
    (.cons (length_uint_le _) .nil))))))))))))
  have halpn := h.1
  have hsuites := h.2.2
  simp only [Arr.length_bytes, List.map_cons, List.map_nil, List.sum_cons, List.sum_nil] at hmap
  refine Nat.le_trans hmap ?_
  unfold MLKEM768_PUBLIC_KEY_LEN MAX_CONTROL_SIZE
  omega

theorem decode_encode {ch : ClientHello} (h : ch.InRange) : decode ch.encode = .ok ch :=
  decode_eq_ok.2 ⟨length_encode_le h, h, rfl⟩

end ClientHello

/-! ## ServerHello -/

/-- The signature is not a field: it is made over the encoding without it. -/
structure ServerHello where
  selected_minor : UInt64
  handshake_mode : UInt64
  alpn : Bytes
  selected_suite : UInt16
  nonce : Arr 32
  ex_pk : Arr 32
  kem_pk : Arr MLKEM768_PUBLIC_KEY_LEN
  ct_to_a : Arr MLKEM768_CIPHERTEXT_LEN
  cert : DevicePublic
  endpoint_id : Arr 32
  deriving DecidableEq

namespace ServerHello

/-- `encode(false)` has no signature and `encode(true)` has one. -/
def encode (sh : ServerHello) (signature : Option HybridSignature) : Bytes :=
  MapWriter ([(0, Writer.uint PROTOCOL_MAJOR.toUInt64), (1, Writer.uint sh.selected_minor),
    (2, Writer.uint sh.handshake_mode), (3, Writer.bytes sh.alpn),
    (4, Writer.uint sh.selected_suite.toUInt64), (5, Writer.bytes sh.nonce.bytes),
    (6, Writer.bytes sh.ex_pk.bytes), (7, Writer.bytes sh.kem_pk.bytes),
    (8, Writer.bytes sh.ct_to_a.bytes), (9, sh.cert.encode),
    (10, Writer.bytes sh.endpoint_id.bytes)] ++ signature.toList.map fun sig => (11, sig.encode))

def read : Parse HandshakeError (ServerHello × HybridSignature) := do
  let m ← map_err from_cbor Reader.map
  let m ← map_err from_cbor (m.expect_key 0)
  let major ← map_err from_cbor Reader.uint
  fail_if (major ≠ PROTOCOL_MAJOR.toUInt64) .UnsupportedVersion
  let m ← map_err from_cbor (m.expect_key 1)
  let selected_minor ← map_err from_cbor Reader.uint
  let m ← map_err from_cbor (m.expect_key 2)
  let handshake_mode ← map_err from_cbor Reader.uint
  let m ← map_err from_cbor (m.expect_key 3)
  let alpn ← read_alpn
  let m ← map_err from_cbor (m.expect_key 4)
  let selected_suite ← read_suite
  let m ← map_err from_cbor (m.expect_key 5)
  let nonce ← map_err from_cbor (Reader.bytes_exact 32)
  let m ← map_err from_cbor (m.expect_key 6)
  let ex_pk ← map_err from_cbor (Reader.bytes_exact 32)
  let m ← map_err from_cbor (m.expect_key 7)
  let kem_pk ← map_err from_cbor (Reader.bytes_exact MLKEM768_PUBLIC_KEY_LEN)
  let m ← map_err from_cbor (m.expect_key 8)
  let ct_to_a ← map_err from_cbor (Reader.bytes_exact MLKEM768_CIPHERTEXT_LEN)
  let m ← map_err from_cbor (m.expect_key 9)
  let cert ← DevicePublic.decode from_cbor
  let m ← map_err from_cbor (m.expect_key 10)
  let endpoint_id ← map_err from_cbor (Reader.bytes_exact 32)
  let m ← map_err from_cbor (m.expect_key 11)
  let signature ← HybridSignature.decode from_cbor
  m.expect_end from_cbor .Decode
  pure (⟨selected_minor, handshake_mode, alpn, selected_suite, nonce, ex_pk, kem_pk, ct_to_a, cert,
    endpoint_id⟩, signature)

def decode (bytes : Bytes) : Except HandshakeError (ServerHello × HybridSignature) := do
  let r ← (Reader.new bytes).mapError from_cbor
  Reader.read_all from_cbor read r

theorem read.reads :
    Reads read (fun d r => d + 1 < MAX_DEPTH ∧ r.1.alpn.length ≤ 64)
      (fun r => r.1.encode (some r.2)) (fun d _ => d) := by
  unfold read
  refine Reads.congr (MapBody.start (fun _ : ServerHello × HybridSignature => 12)
    (fun _ => by decide)
    fun m hm => MapBody.key (by simp [hm])
    fun m hm => MapBody.value (fun _ : ServerHello × HybridSignature => PROTOCOL_MAJOR.toUInt64)
      (Reader.uint.reads.map_err _) (fun _ => MapBody.value (fun _ => ())
      (Reads.check _ _) (fun _ => MapBody.key (by simp [hm])
    fun m hm => MapBody.value (fun r : ServerHello × HybridSignature => r.1.selected_minor)
      (Reader.uint.reads.map_err _) (fun _ => MapBody.key (by simp [hm])
    fun m hm => MapBody.value (fun r : ServerHello × HybridSignature => r.1.handshake_mode)
      (Reader.uint.reads.map_err _) (fun _ => MapBody.key (by simp [hm])
    fun m hm => MapBody.value (fun r : ServerHello × HybridSignature => r.1.alpn)
      read_alpn.reads (fun _ => MapBody.key (by simp [hm])
    fun m hm => MapBody.value (fun r : ServerHello × HybridSignature => r.1.selected_suite)
      read_suite.reads (fun _ => MapBody.key (by simp [hm])
    fun m hm => MapBody.value (fun r : ServerHello × HybridSignature => r.1.nonce)
      ((Reader.bytes_exact.reads (by decide)).map_err _) (fun _ => MapBody.key (by simp [hm])
    fun m hm => MapBody.value (fun r : ServerHello × HybridSignature => r.1.ex_pk)
      ((Reader.bytes_exact.reads (by decide)).map_err _) (fun _ => MapBody.key (by simp [hm])
    fun m hm => MapBody.value (fun r : ServerHello × HybridSignature => r.1.kem_pk)
      ((Reader.bytes_exact.reads (by decide)).map_err _) (fun _ => MapBody.key (by simp [hm])
    fun m hm => MapBody.value (fun r : ServerHello × HybridSignature => r.1.ct_to_a)
      ((Reader.bytes_exact.reads (by decide)).map_err _) (fun _ => MapBody.key (by simp [hm])
    fun m hm => MapBody.value (fun r : ServerHello × HybridSignature => r.1.cert)
      (DevicePublic.decode.reads _) (fun _ => MapBody.key (by simp [hm])
    fun m hm => MapBody.value (fun r : ServerHello × HybridSignature => r.1.endpoint_id)
      ((Reader.bytes_exact.reads (by decide)).map_err _) (fun _ => MapBody.key (by simp [hm])
    fun m hm => MapBody.value (fun r : ServerHello × HybridSignature => r.2)
      (HybridSignature.decode.reads _) (fun _ => MapBody.stop _ (Reads.pure _))
      ?_) ?_) ?_) ?_) ?_) ?_) ?_) ?_) ?_) ?_) ?_) ?_) ?major) ?admits ?writes ?depth
  case admits =>
    intro d r
    have hd : d + 1 < MAX_DEPTH → d < MAX_DEPTH := Nat.lt_of_succ_lt
    constructor
    · intro h
      obtain ⟨-, -, -, -, -, halpn, -, -, -, -, -, hdepth, -⟩ := h
      exact ⟨hdepth, halpn⟩
    · rintro ⟨hdepth, halpn⟩
      exact ⟨hd hdepth, trivial, not_not.2 rfl, trivial, trivial, halpn, trivial, trivial, trivial,
        trivial, trivial, hdepth, trivial, hdepth, rfl⟩
  case writes =>
    intro d r _
    simp [encode, MapWriter]
  case depth =>
    intro d r _
    rfl
  case major =>
    rintro d v r - ⟨hv, -⟩
    exact (not_not.1 hv).symm
  all_goals grind

theorem decode_eq_ok {bytes : Bytes} {sh : ServerHello} {signature : HybridSignature} :
    decode bytes = .ok (sh, signature) ↔
      bytes.length ≤ MAX_CONTROL_SIZE ∧ sh.alpn.length ≤ 64 ∧ bytes = sh.encode signature := by
  refine (Reader.new_read_all_eq_ok read.reads).trans ?_
  simp [MAX_DEPTH]

theorem length_encode_le {sh : ServerHello} (h : sh.alpn.length ≤ 64)
    (signature : HybridSignature) : (sh.encode signature).length ≤ MAX_CONTROL_SIZE := by
  have hmap : (sh.encode signature).length ≤ _ := length_mapWriter_le_of (.cons (length_uint_le _)
    (.cons (length_uint_le _) (.cons (length_uint_le _) (.cons (length_bytes_le _)
    (.cons (length_uint_le _) (.cons (length_bytes_le _) (.cons (length_bytes_le _)
    (.cons (length_bytes_le _) (.cons (length_bytes_le _) (.cons (DevicePublic.length_encode_le _)
    (.cons (length_bytes_le _) (.cons (HybridSignature.length_encode_le _) .nil))))))))))))
  simp only [Arr.length_bytes, List.map_cons, List.map_nil, List.sum_cons, List.sum_nil] at hmap
  refine Nat.le_trans hmap ?_
  unfold MLKEM768_PUBLIC_KEY_LEN MLKEM768_CIPHERTEXT_LEN MAX_CONTROL_SIZE
  omega

theorem decode_encode {sh : ServerHello} (h : sh.alpn.length ≤ 64) (signature : HybridSignature) :
    decode (sh.encode signature) = .ok (sh, signature) :=
  decode_eq_ok.2 ⟨length_encode_le h signature, h, rfl⟩

end ServerHello

/-! ## ClientFinish and ServerFinish -/

structure ClientFinish where
  ct_to_b : Arr MLKEM768_CIPHERTEXT_LEN
  signature : HybridSignature
  finished_mac : Arr 48
  deriving DecidableEq

namespace ClientFinish

def encode_bare (ct_to_b : Arr MLKEM768_CIPHERTEXT_LEN) : Bytes :=
  MapWriter [(0, Writer.bytes ct_to_b.bytes)]

def encode_full (cf : ClientFinish) : Bytes :=
  MapWriter [(0, Writer.bytes cf.ct_to_b.bytes), (1, cf.signature.encode),
    (2, Writer.bytes cf.finished_mac.bytes)]

def read : Parse HandshakeError ClientFinish := do
  let m ← map_err from_cbor Reader.map
  let m ← map_err from_cbor (m.expect_key 0)
  let ct_to_b ← map_err from_cbor (Reader.bytes_exact MLKEM768_CIPHERTEXT_LEN)
  let m ← map_err from_cbor (m.expect_key 1)
  let signature ← HybridSignature.decode from_cbor
  let m ← map_err from_cbor (m.expect_key 2)
  let finished_mac ← map_err from_cbor (Reader.bytes_exact 48)
  m.expect_end from_cbor .Decode
  pure ⟨ct_to_b, signature, finished_mac⟩

def decode (bytes : Bytes) : Except HandshakeError ClientFinish := do
  let r ← (Reader.new bytes).mapError from_cbor
  Reader.read_all from_cbor read r

theorem read.reads : Reads read (fun d _ => d + 1 < MAX_DEPTH) encode_full (fun d _ => d) := by
  unfold read
  refine Reads.congr (MapBody.start (fun _ => 3) (fun _ => by decide)
    fun m hm => MapBody.key (by simp [hm]) fun m hm => MapBody.value ClientFinish.ct_to_b
      ((Reader.bytes_exact.reads (by decide)).map_err _) (fun _ => MapBody.key (by simp [hm])
    fun m hm => MapBody.value ClientFinish.signature
      (HybridSignature.decode.reads _) (fun _ => MapBody.key (by simp [hm])
    fun m hm => MapBody.value ClientFinish.finished_mac
      ((Reader.bytes_exact.reads (by decide)).map_err _) (fun _ => MapBody.stop _ (Reads.pure _))
      ?_) ?_) ?_) ?admits ?writes ?depth
  case admits =>
    intro d cf
    exact ⟨fun h => h.2.2.1, fun h => ⟨Nat.lt_of_succ_lt h, trivial, h, trivial, rfl⟩⟩
  case writes =>
    intro d cf _
    simp [encode_full, MapWriter]
  case depth =>
    intro d cf _
    rfl
  all_goals grind

theorem decode_eq_ok {bytes : Bytes} {cf : ClientFinish} : decode bytes = .ok cf ↔
    bytes.length ≤ MAX_CONTROL_SIZE ∧ bytes = cf.encode_full := by
  refine (Reader.new_read_all_eq_ok read.reads).trans ?_
  simp [MAX_DEPTH]

theorem encode_full_inj {cf cf' : ClientFinish} (h : cf.encode_full = cf'.encode_full) : cf = cf' :=
  read.reads.write_inj (d := 0) (by decide) (by decide) h

theorem length_encode_full_le (cf : ClientFinish) : cf.encode_full.length ≤ MAX_CONTROL_SIZE := by
  have hmap : cf.encode_full.length ≤ _ := length_mapWriter_le_of (.cons (length_bytes_le _)
    (.cons (HybridSignature.length_encode_le _) (.cons (length_bytes_le _) .nil)))
  simp only [Arr.length_bytes, List.map_cons, List.map_nil, List.sum_cons, List.sum_nil] at hmap
  unfold MLKEM768_CIPHERTEXT_LEN at hmap
  unfold MAX_CONTROL_SIZE
  omega

theorem decode_encode_full (cf : ClientFinish) : decode cf.encode_full = .ok cf :=
  decode_eq_ok.2 ⟨length_encode_full_le cf, rfl⟩

end ClientFinish

def encode_server_finish (mac : Arr 48) : Bytes := MapWriter [(0, Writer.bytes mac.bytes)]

def read_server_finish : Parse HandshakeError (Arr 48) := do
  let m ← map_err from_cbor Reader.map
  let m ← map_err from_cbor (m.expect_key 0)
  let mac ← map_err from_cbor (Reader.bytes_exact 48)
  m.expect_end from_cbor .Decode
  pure mac

def decode_server_finish (bytes : Bytes) : Except HandshakeError (Arr 48) := do
  let r ← (Reader.new bytes).mapError from_cbor
  Reader.read_all from_cbor read_server_finish r

/-- A map with one byte string of a fixed length, as ServerFinish is and the
part of ClientFinish that is hashed. -/
theorem bytes_entry_inj {n : Nat} {a b : Arr n}
    (h : MapWriter [(0, Writer.bytes a.bytes)] = MapWriter [(0, Writer.bytes b.bytes)]) :
    a = b := by
  simpa [MapWriter, Writer.bytes, Arr.bytes_inj] using h

theorem read_server_finish.reads :
    Reads read_server_finish (fun d _ => d < MAX_DEPTH) encode_server_finish (fun d _ => d) := by
  unfold read_server_finish
  refine Reads.congr (MapBody.start (fun _ => 1) (fun _ => by decide)
    fun m hm => MapBody.key (by simp [hm]) fun m hm => MapBody.value id
      ((Reader.bytes_exact.reads (by decide)).map_err _) (fun _ => MapBody.stop _ (Reads.pure _))
      ?_) ?admits ?writes ?depth
  case admits =>
    intro d mac
    exact ⟨fun h => h.1, fun h => ⟨h, trivial, rfl⟩⟩
  case writes =>
    intro d mac _
    simp [encode_server_finish, MapWriter]
  case depth =>
    intro d mac _
    rfl
  all_goals grind

theorem decode_server_finish_eq_ok {bytes : Bytes} {mac : Arr 48} :
    decode_server_finish bytes = .ok mac ↔
      bytes.length ≤ MAX_CONTROL_SIZE ∧ bytes = encode_server_finish mac := by
  refine (Reader.new_read_all_eq_ok read_server_finish.reads).trans ?_
  simp [MAX_DEPTH]

theorem length_encode_server_finish_le (mac : Arr 48) :
    (encode_server_finish mac).length ≤ MAX_CONTROL_SIZE := by
  have hmap : (encode_server_finish mac).length ≤ _ :=
    length_mapWriter_le_of (.cons (length_bytes_le _) .nil)
  simp only [Arr.length_bytes, List.map_cons, List.map_nil, List.sum_cons, List.sum_nil] at hmap
  unfold MAX_CONTROL_SIZE
  omega

theorem decode_encode_server_finish (mac : Arr 48) :
    decode_server_finish (encode_server_finish mac) = .ok mac :=
  decode_server_finish_eq_ok.2 ⟨length_encode_server_finish_le mac, rfl⟩

/-- The three messages that are hashed one after the other are told apart. -/
theorem transcript_inj {ch ch' : ClientHello} {sh sh' : ServerHello} {sig sig' : HybridSignature}
    {ct ct' : Arr MLKEM768_CIPHERTEXT_LEN} (hch : ch.InRange) (hch' : ch'.InRange)
    (hsh : sh.alpn.length ≤ 64) (hsh' : sh'.alpn.length ≤ 64)
    (h : ch.encode ++ (sh.encode sig ++ ClientFinish.encode_bare ct) =
      ch'.encode ++ (sh'.encode sig' ++ ClientFinish.encode_bare ct')) :
    ch = ch' ∧ sh = sh' ∧ sig = sig' ∧ ct = ct' := by
  have hdepth : 0 + 1 < MAX_DEPTH := by decide
  obtain ⟨hhello, hrest⟩ := ClientHello.read.reads.writes_apart ⟨hdepth, hch⟩ ⟨hdepth, hch'⟩ h
  obtain ⟨hserver, hfinish⟩ := ServerHello.read.reads.writes_apart (a := (sh, sig))
    (b := (sh', sig')) ⟨hdepth, hsh⟩ ⟨hdepth, hsh'⟩ hrest
  exact ⟨hhello, congrArg Prod.fst hserver, congrArg Prod.snd hserver, bytes_entry_inj hfinish⟩

end rtp2_core.handshake
