-- The two messages of a resumed session, and the law that all messages of the
-- handshake share: each has one encoding, and a peer that encodes again what
-- it has read gets the bytes that it was sent.
import Reyta.HandshakeMessages

open byte_string exact_parse

namespace rtp2_core.handshake

open cbor crypto identity

def MODE_RESUMPTION : UInt64 := 3

/-! ## ResumptionHello -/

structure ResumptionHello where
  protocol_minor : UInt64
  alpn : Bytes
  suite_id : UInt16
  resumption_id : Arr 16
  nonce : Arr 32
  timestamp : UInt64
  endpoint_id : Arr 32
  deriving DecidableEq

namespace ResumptionHello

def encode (rh : ResumptionHello) : Bytes :=
  MapWriter [(0, Writer.uint PROTOCOL_MAJOR.toUInt64), (1, Writer.uint rh.protocol_minor),
    (2, Writer.uint MODE_RESUMPTION), (3, Writer.bytes rh.alpn),
    (4, Writer.uint rh.suite_id.toUInt64), (5, Writer.bytes rh.resumption_id.bytes),
    (6, Writer.bytes rh.nonce.bytes), (7, Writer.uint rh.timestamp),
    (8, Writer.bytes rh.endpoint_id.bytes)]

def read : Parse HandshakeError ResumptionHello := do
  let m ← map_err from_cbor Reader.map
  let m ← map_err from_cbor (m.expect_key 0)
  let major ← map_err from_cbor Reader.uint
  fail_if (major ≠ PROTOCOL_MAJOR.toUInt64) .UnsupportedVersion
  let m ← map_err from_cbor (m.expect_key 1)
  let protocol_minor ← map_err from_cbor Reader.uint
  let m ← map_err from_cbor (m.expect_key 2)
  let mode ← map_err from_cbor Reader.uint
  fail_if (mode ≠ MODE_RESUMPTION) .PolicyViolation
  let m ← map_err from_cbor (m.expect_key 3)
  let alpn ← map_err from_cbor Reader.bytes
  fail_if (alpn ≠ ALPN) .PolicyViolation
  let m ← map_err from_cbor (m.expect_key 4)
  let suite_id ← map_err from_cbor Reader.uint
  fail_if (suite_id ≠ SUITE_ID.toUInt64) .UnsupportedSuite
  let m ← map_err from_cbor (m.expect_key 5)
  let resumption_id ← map_err from_cbor (Reader.bytes_exact 16)
  let m ← map_err from_cbor (m.expect_key 6)
  let nonce ← map_err from_cbor (Reader.bytes_exact 32)
  let m ← map_err from_cbor (m.expect_key 7)
  let timestamp ← map_err from_cbor Reader.uint
  let m ← map_err from_cbor (m.expect_key 8)
  let endpoint_id ← map_err from_cbor (Reader.bytes_exact 32)
  m.expect_end from_cbor .Decode
  pure ⟨protocol_minor, alpn, suite_id.toUInt16, resumption_id, nonce, timestamp, endpoint_id⟩

def decode (bytes : Bytes) : Except HandshakeError ResumptionHello := do
  let r ← (Reader.new bytes).mapError from_cbor
  Reader.read_all from_cbor read r

/-- Within the limits that the decoder checks. -/
def InRange (rh : ResumptionHello) : Prop := rh.alpn = ALPN ∧ rh.suite_id = SUITE_ID

theorem read.reads :
    Reads read (fun d rh => d < MAX_DEPTH ∧ rh.InRange) encode (fun d _ => d) := by
  unfold read
  refine Reads.congr (MapBody.start (fun _ : ResumptionHello => 9) (fun _ => by decide)
    fun m hm => MapBody.key (by simp [hm])
    fun m hm => MapBody.value (fun _ : ResumptionHello => PROTOCOL_MAJOR.toUInt64)
      (Reader.uint.reads.map_err _) (fun _ => MapBody.value (fun _ => ())
      (Reads.check _ _) (fun _ => MapBody.key (by simp [hm])
    fun m hm => MapBody.value ResumptionHello.protocol_minor
      (Reader.uint.reads.map_err _) (fun _ => MapBody.key (by simp [hm])
    fun m hm => MapBody.value (fun _ : ResumptionHello => MODE_RESUMPTION)
      (Reader.uint.reads.map_err _) (fun _ => MapBody.value (fun _ => ())
      (Reads.check _ _) (fun _ => MapBody.key (by simp [hm])
    fun m hm => MapBody.value ResumptionHello.alpn
      (Reader.bytes.reads.map_err _) (fun _ => MapBody.value (fun _ => ())
      (Reads.check _ _) (fun _ => MapBody.key (by simp [hm])
    fun m hm => MapBody.value (fun _ : ResumptionHello => SUITE_ID.toUInt64)
      (Reader.uint.reads.map_err _) (fun _ => MapBody.value (fun _ => ())
      (Reads.check _ _) (fun _ => MapBody.key (by simp [hm])
    fun m hm => MapBody.value ResumptionHello.resumption_id
      ((Reader.bytes_exact.reads (by decide)).map_err _) (fun _ => MapBody.key (by simp [hm])
    fun m hm => MapBody.value ResumptionHello.nonce
      ((Reader.bytes_exact.reads (by decide)).map_err _) (fun _ => MapBody.key (by simp [hm])
    fun m hm => MapBody.value ResumptionHello.timestamp
      (Reader.uint.reads.map_err _) (fun _ => MapBody.key (by simp [hm])
    fun m hm => MapBody.value ResumptionHello.endpoint_id
      ((Reader.bytes_exact.reads (by decide)).map_err _) (fun _ => MapBody.stop _ (Reads.pure _))
      ?_) ?_) ?_) ?_) ?_) ?suite) ?_) ?_) ?_) ?mode) ?_) ?_) ?major) ?admits ?writes ?depth
  case admits =>
    intro d rh
    constructor
    · intro h
      obtain ⟨hd, -, -, -, -, -, -, halpn, -, -, -, -, -, -, heq⟩ := h
      exact ⟨hd, not_not.1 halpn, congrArg ResumptionHello.suite_id heq⟩
    · rintro ⟨hd, halpn, hsuite⟩
      have hlen : rh.alpn.length < 2 ^ 64 := by
        rw [halpn]
        decide
      refine ⟨hd, trivial, not_not.2 rfl, trivial, trivial, not_not.2 rfl, hlen,
        not_not.2 halpn, trivial, not_not.2 rfl, trivial, trivial, trivial, trivial, ?_⟩
      rcases rh with ⟨minor, alpn, suite, rid, nonce, time, endpoint⟩
      simp only at hsuite
      rw [hsuite]
      rfl
  case writes =>
    rintro d rh ⟨-, -, -, -, -, -, -, -, -, -, -, -, -, -, heq⟩
    have hsuite : rh.suite_id = SUITE_ID := congrArg ResumptionHello.suite_id heq
    simp [encode, MapWriter, hsuite]
  case depth =>
    intro d rh _
    rfl
  case major =>
    rintro d v rh - ⟨hv, -⟩
    exact (not_not.1 hv).symm
  case mode =>
    rintro d v rh - ⟨hv, -⟩
    exact (not_not.1 hv).symm
  case suite =>
    rintro d v rh - ⟨hv, -⟩
    exact (not_not.1 hv).symm
  all_goals grind

theorem decode_eq_ok {bytes : Bytes} {rh : ResumptionHello} : decode bytes = .ok rh ↔
    bytes.length ≤ MAX_CONTROL_SIZE ∧ rh.InRange ∧ bytes = rh.encode := by
  refine (Reader.new_read_all_eq_ok read.reads).trans ?_
  simp [MAX_DEPTH]

theorem length_encode_le {rh : ResumptionHello} (h : rh.InRange) :
    rh.encode.length ≤ MAX_CONTROL_SIZE := by
  have hmap : rh.encode.length ≤ _ := length_mapWriter_le_of (.cons (length_uint_le _)
    (.cons (length_uint_le _) (.cons (length_uint_le _) (.cons (length_bytes_le _)
    (.cons (length_uint_le _) (.cons (length_bytes_le _) (.cons (length_bytes_le _)
    (.cons (length_uint_le _) (.cons (length_bytes_le _) .nil)))))))))
  have halpn : ALPN.length = 16 := by decide
  simp only [h.1, halpn, Arr.length_bytes, List.map_cons, List.map_nil, List.sum_cons,
    List.sum_nil] at hmap
  unfold MAX_CONTROL_SIZE
  omega

end ResumptionHello

/-! ## ResumptionAccept -/

structure ResumptionAccept where
  nonce : Arr 32
  endpoint_id : Arr 32
  timestamp : UInt64
  deriving DecidableEq

namespace ResumptionAccept

def encode (ra : ResumptionAccept) : Bytes :=
  MapWriter [(0, Writer.bytes ra.nonce.bytes), (1, Writer.bytes ra.endpoint_id.bytes),
    (2, Writer.uint ra.timestamp)]

def read : Parse HandshakeError ResumptionAccept := do
  let m ← map_err from_cbor Reader.map
  let m ← map_err from_cbor (m.expect_key 0)
  let nonce ← map_err from_cbor (Reader.bytes_exact 32)
  let m ← map_err from_cbor (m.expect_key 1)
  let endpoint_id ← map_err from_cbor (Reader.bytes_exact 32)
  let m ← map_err from_cbor (m.expect_key 2)
  let timestamp ← map_err from_cbor Reader.uint
  m.expect_end from_cbor .Decode
  pure ⟨nonce, endpoint_id, timestamp⟩

def decode (bytes : Bytes) : Except HandshakeError ResumptionAccept := do
  let r ← (Reader.new bytes).mapError from_cbor
  Reader.read_all from_cbor read r

theorem read.reads : Reads read (fun d _ => d < MAX_DEPTH) encode (fun d _ => d) := by
  unfold read
  refine Reads.congr (MapBody.start (fun _ => 3) (fun _ => by decide)
    fun m hm => MapBody.key (by simp [hm]) fun m hm => MapBody.value ResumptionAccept.nonce
      ((Reader.bytes_exact.reads (by decide)).map_err _) (fun _ => MapBody.key (by simp [hm])
    fun m hm => MapBody.value ResumptionAccept.endpoint_id
      ((Reader.bytes_exact.reads (by decide)).map_err _) (fun _ => MapBody.key (by simp [hm])
    fun m hm => MapBody.value ResumptionAccept.timestamp
      (Reader.uint.reads.map_err _) (fun _ => MapBody.stop _ (Reads.pure _))
      ?_) ?_) ?_) ?admits ?writes ?depth
  case admits =>
    intro d ra
    exact ⟨fun h => h.1, fun h => ⟨h, trivial, trivial, trivial, rfl⟩⟩
  case writes =>
    intro d ra _
    simp [encode, MapWriter]
  case depth =>
    intro d ra _
    rfl
  all_goals grind

theorem decode_eq_ok {bytes : Bytes} {ra : ResumptionAccept} : decode bytes = .ok ra ↔
    bytes.length ≤ MAX_CONTROL_SIZE ∧ bytes = ra.encode := by
  refine (Reader.new_read_all_eq_ok read.reads).trans ?_
  simp [MAX_DEPTH]

theorem length_encode_le (ra : ResumptionAccept) : ra.encode.length ≤ MAX_CONTROL_SIZE := by
  have hmap : ra.encode.length ≤ _ := length_mapWriter_le_of (.cons (length_bytes_le _)
    (.cons (length_bytes_le _) (.cons (length_uint_le _) .nil)))
  simp only [Arr.length_bytes, List.map_cons, List.map_nil, List.sum_cons, List.sum_nil] at hmap
  unfold MAX_CONTROL_SIZE
  omega

end ResumptionAccept

/-! ## All messages -/

/-- Every message of the handshake within the limits of its decoder is read
back from its encoding, and a message that is read is encoded to the very
bytes it was read from. -/
theorem every_message_has_one_encoding :
    Canonical ClientHello.decode ClientHello.encode ClientHello.InRange ∧
    Canonical ServerHello.decode (fun m => m.1.encode m.2) (fun m => m.1.alpn.length ≤ 64) ∧
    Canonical ClientFinish.decode ClientFinish.encode_full (fun _ => True) ∧
    Canonical decode_server_finish encode_server_finish (fun _ => True) ∧
    Canonical ResumptionHello.decode ResumptionHello.encode ResumptionHello.InRange ∧
    Canonical ResumptionAccept.decode ResumptionAccept.encode (fun _ => True) := by
  refine ⟨?clientHello, ?serverHello, ?clientFinish, ?serverFinish, ?hello, ?accept⟩
  case clientHello =>
    exact .of_decode_eq_ok ClientHello.decode_eq_ok fun _ => ClientHello.length_encode_le
  case serverHello =>
    exact .of_decode_eq_ok ServerHello.decode_eq_ok fun m h => ServerHello.length_encode_le h m.2
  case clientFinish =>
    refine .of_decode_eq_ok ?_ fun cf _ => cf.length_encode_full_le
    simp [ClientFinish.decode_eq_ok]
  case serverFinish =>
    refine .of_decode_eq_ok ?_ fun mac _ => length_encode_server_finish_le mac
    simp [decode_server_finish_eq_ok]
  case hello =>
    exact .of_decode_eq_ok ResumptionHello.decode_eq_ok fun _ => ResumptionHello.length_encode_le
  case accept =>
    refine .of_decode_eq_ok ?_ fun ra _ => ra.length_encode_le
    simp [ResumptionAccept.decode_eq_ok]

end rtp2_core.handshake
