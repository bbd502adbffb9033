-- The messages around the chunks of a session: the types of their frames, the
-- acknowledgement of the receiver, and the report that both sides return.
import Reyta.CborExact
import Reyta.Route

open byte_string exact_parse

namespace rtp2_core.transfer

open cbor events route

def FRAME_COMPLETE : UInt8 := 0x0A

def FRAME_CLIENT_HELLO : UInt8 := 0x81
def FRAME_SERVER_HELLO : UInt8 := 0x82
def FRAME_CLIENT_FINISH : UInt8 := 0x83
def FRAME_SERVER_FINISH : UInt8 := 0x84

structure TransferReport where
  transfer_id : Arr 32
  object_id : Arr 32
  manifest_commitment : Arr 32
  ciphertext_root : Arr 32
  plaintext_digest : Arr 32
  bytes : UInt64
  chunks : UInt64
  /-- The chunks that crossed the wire in this attempt. -/
  chunks_transferred : UInt64
  peer_device_id : Arr 32
  peer_endpoint_id : Arr 32
  route : Route
  deriving DecidableEq

/-- The events at the end. -/
def completed (transfer_id object_id digest : Arr 32) : List Event :=
  [.ObjectCompleted transfer_id object_id digest, .TransferCompleted transfer_id 1]

/-! ## The acknowledgement -/

def encode_ack (status : UInt64) (digest : Arr 32) : Bytes :=
  MapWriter [(0, Writer.uint status), (1, Writer.bytes digest.bytes)]

def bad_ack (_ : CborError) : TransferError := .Protocol "bad ack"

def read_ack : Parse TransferError (UInt64 × Arr 32) := do
  let m ← map_err bad_ack Reader.map
  let m ← map_err bad_ack (m.expect_key 0)
  let status ← map_err bad_ack Reader.uint
  let m ← map_err bad_ack (m.expect_key 1)
  let digest ← map_err bad_ack (Reader.bytes_exact 32)
  m.expect_end bad_ack (.Protocol "bad ack")
  pure (status, digest)

def decode_ack (bytes : Bytes) : Except TransferError (UInt64 × Arr 32) := do
  let r ← (Reader.new bytes).mapError bad_ack
  Reader.read_all bad_ack read_ack r

theorem read_ack.reads :
    Reads read_ack (fun d _ => d < MAX_DEPTH) (fun ack => encode_ack ack.1 ack.2)
      (fun d _ => d) := by
  unfold read_ack
  refine Reads.congr (MapBody.start (fun _ => 2) (fun _ => by decide)
    fun m hm => MapBody.key (by simp [hm]) fun m hm => MapBody.value Prod.fst
      (Reader.uint.reads.map_err _) (fun _ => MapBody.key (by simp [hm])
    fun m hm => MapBody.value Prod.snd
      ((Reader.bytes_exact.reads (by decide)).map_err _) (fun _ => MapBody.stop _ (Reads.pure _))
      ?_) ?_) ?admits ?writes ?depth
  case admits =>
    intro d ack
    exact ⟨fun h => h.1, fun h => ⟨h, trivial, trivial, rfl⟩⟩
  case writes =>
    intro d ack _
    simp [encode_ack, MapWriter]
  case depth =>
    intro d ack _
    rfl
  all_goals grind

theorem decode_ack_eq_ok {bytes : Bytes} {ack : UInt64 × Arr 32} :
    decode_ack bytes = .ok ack ↔
      bytes.length ≤ MAX_CONTROL_SIZE ∧ bytes = encode_ack ack.1 ack.2 := by
  refine (Reader.new_read_all_eq_ok read_ack.reads).trans ?_
  simp [MAX_DEPTH]

theorem length_encode_ack_le (status : UInt64) (digest : Arr 32) :
    (encode_ack status digest).length ≤ 100 := by
  have hmap : (encode_ack status digest).length ≤ _ :=
    length_mapWriter_le_of (.cons (length_uint_le _) (.cons (length_bytes_le _) .nil))
  simp only [Arr.length_bytes, List.map_cons, List.map_nil, List.sum_cons, List.sum_nil] at hmap
  omega

theorem decode_encode_ack (status : UInt64) (digest : Arr 32) :
    decode_ack (encode_ack status digest) = .ok (status, digest) := by
  apply decode_ack_eq_ok.2
  have hlen := length_encode_ack_le status digest
  refine ⟨?_, rfl⟩
  unfold MAX_CONTROL_SIZE
  omega

end rtp2_core.transfer
