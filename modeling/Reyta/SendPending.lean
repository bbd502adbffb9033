-- The sender of a session, from the connection to the acknowledgement: it dials, checks
-- the path, shakes hands, offers the file, sends what the receiver asks for and waits for
-- the acknowledgement.
import Reyta.Admission
import Reyta.FrameSizes
import Reyta.FrameStreams
import Reyta.HonestTransfer
import Reyta.RouteAdmission
import Reyta.SessionMessages

open byte_string early_exit exact_parse stream_party

namespace rtp2_core.transfer

open crypto events handshake identity keys manifest object offer route scheduler
open control (ControlChannel)

/-! ## The call -/

/-- The arguments of `send_pending`. -/
structure SendCall where
  identity : DeviceIdentity
  local_endpoint_id : Arr 32
  /-- The endpoint that is dialled. -/
  peer : Arr 32
  pending : PendingTransfer
  /-- The last part of the path. -/
  file_name : String
  admission : RouteAdmission

/-- What the system answers in a call of `send_pending`, and what the call draws. -/
structure SendAnswers where
  /-- The endpoint of the connection. -/
  connect : Except String (Arr 32)
  path : PathLooks
  /-- The time when the watch over the path starts. -/
  watch : Nat
  open_bi : Except String Unit
  start : StartRandom
  finish : FinishRandom
  open_file : Except String Unit
  now : UInt64
  draws : OfferDraws
  /-- The file when the record at a position is made. -/
  file : Nat → File
  /-- The clock and the path after the record at a position was sent. -/
  look : Nat → RouteWatch.Look

namespace Talk

variable {σ : Type}

/-- The initiator's side of the handshake. -/
def initiate (P : Primitives) (identity : DeviceIdentity) (local_endpoint_id peer : Arr 32)
    (start : StartRandom) (finish : FinishRandom) : Talk σ SessionKeys := do
  let (initiator, ch) := Initiator.start P identity local_endpoint_id peer start
  send_plain_frame FRAME_CLIENT_HELLO ch
  let sh ← expect_plain_frame FRAME_SERVER_HELLO
  let answered := initiator.on_server_hello P finish sh
  let cf ← fallible (answered.1.mapError fun _ => .Handshake)
  send_plain_frame FRAME_CLIENT_FINISH cf
  let sf ← expect_plain_frame FRAME_SERVER_FINISH
  fallible ((answered.2.on_server_finish P sf).1.mapError fun _ => .Handshake)

end Talk

open Talk

/-- The events that were pushed. -/
def push (pushed : List Event) : Talk (List Event) Unit := Session.act (change (· ++ pushed))

variable (P : Primitives) (call : SendCall) (a : SendAnswers)

/-- The record for the first chunk of the rest, if there is one. -/
def SendCall.prepare_ahead (position : Nat) : List UInt64 → Except Stop (Option Bytes)
  | [] => pure none
  | next :: _ => (call.pending.produce P ⟨a.file position, next⟩).map some

/-- What the loop over the chunks carries along. -/
structure Sending where
  control : ControlChannel
  route_watch : RouteWatch
  sent_bytes : UInt64
  sent_chunks : UInt64

/-- The loop over the chunks. The record for a chunk is made before the one before it
counts as sent. -/
def SendCall.send_loop (requested_chunks : UInt64) :
    Nat → Option Bytes → Sending → List UInt64 → Talk (List Event) Sending
  | _, _, s, [] => pure s
  | position, ahead, s, index :: rest => do
    let record ← stopping (unwrap ahead)
    let len ← stopping (unwrap (call.pending.ctx.chunk_len index))
    let control ← Talk.send_frame P s.control FRAME_CHUNK record
    let ahead ← stopping (call.prepare_ahead P a (position + 1) rest)
    let polled := s.route_watch.poll_with call.pending.secrets.transfer_id (a.look position).1
      (a.look position).2
    push polled.2.1
    fallible polled.2.2
    let s : Sending := ⟨control, polled.1, s.sent_bytes + len.toUInt64, s.sent_chunks + 1⟩
    push [.TransferProgress call.pending.secrets.transfer_id .Sending s.sent_bytes
      call.pending.ctx.encoded_plaintext_size s.sent_chunks requested_chunks]
    send_loop requested_chunks (position + 1) ahead s rest

/-- From the offer to the request of the receiver. -/
def SendCall.offer_file (session : SessionKeys) (control : ControlChannel) :
    Talk (List Event) (TransferOffer × RangeRequest × ControlChannel) := do
  let offer ← fallible (make_offer P call.identity session call.pending call.file_name
    call.local_endpoint_id a.now a.draws)
  let control ← Talk.send_frame P control FRAME_OFFER offer.encode
  let (request_bytes, control) ← Talk.expect_frame P control FRAME_RANGE_REQUEST
  let request ← fallible ((RangeRequest.decode request_bytes
    call.pending.ctx.chunk_count).mapError fun _ => .Protocol "bad range request")
  fallible (refuse_if (request.transfer_id ≠ call.pending.secrets.transfer_id ∨
    request.object_id ≠ call.pending.secrets.object_id)
    (.Protocol "range request names another object"))
  pure (offer, request, control)

/-- The chunks, and the end of the stream. -/
def SendCall.send_chunks (route_watch : RouteWatch) (request : RangeRequest)
    (control : ControlChannel) : Talk (List Event) Sending := do
  push [.TransferStarted call.pending.secrets.transfer_id 1
    call.pending.ctx.encoded_plaintext_size]
  let ahead ← stopping (call.prepare_ahead P a 0 request.indices)
  let s ← call.send_loop P a request.chunk_total 0 ahead ⟨control, route_watch, 0, 0⟩
    request.indices
  let control ← Talk.send_frame P s.control FRAME_STREAM_END []
  pure { s with control }

/-- The acknowledgement of the receiver. -/
def SendCall.await_ack (control : ControlChannel) : Talk (List Event) Unit := do
  let (ack, _) ← Talk.expect_frame P control FRAME_COMPLETE
  let (status, remote_digest) ← fallible (decode_ack ack)
  fallible (refuse_if (status ≠ 0) (.Protocol "receiver reported failure"))
  fallible (refuse_if (ct_eq remote_digest.bytes call.pending.plaintext_digest.bytes = false)
    (.Crypto "plaintext digest mismatch"))

/-- The connection, up to the point where the first byte may leave. -/
def SendCall.connect : Talk (List Event) RouteWatch := do
  let remote_id ← io a.connect
  fallible (refuse_if (remote_id ≠ call.peer) .Handshake)
  let (pushed, admitted) ←
    waiting (admit_route call.pending.secrets.transfer_id call.admission a.path)
  push pushed
  let route ← fallible admitted
  io a.open_bi
  pure (.new route call.admission.policy a.watch)

/-- The report. The manifest that was announced is the one with the hash of the sealed
manifest in the offer. -/
def SendCall.report (session : SessionKeys) (offer : TransferOffer) (request : RangeRequest)
    (route : Route) : TransferReport where
  transfer_id := call.pending.secrets.transfer_id
  object_id := call.pending.secrets.object_id
  manifest_commitment := (public_manifest call.pending.secrets call.pending.ctx
    call.pending.ciphertext_root (offer.sealed_manifest.ciphertext_hash P) a.now).commitment P
  ciphertext_root := call.pending.ciphertext_root
  plaintext_digest := call.pending.plaintext_digest
  bytes := call.pending.ctx.logical_plaintext_size
  chunks := call.pending.ctx.chunk_count
  chunks_transferred := request.chunk_total
  peer_device_id := session.peer.device_id
  peer_endpoint_id := session.peer_endpoint_id
  route := route

def SendCall.send_pending : Talk (List Event) TransferReport := do
  let route_watch ← call.connect a
  let session ← initiate P call.identity call.local_endpoint_id call.peer a.start a.finish
  let control := ControlChannel.new P session.handshake_prk session.th2 .ClientToServer
  io a.open_file
  let (offer, request, control) ← call.offer_file P a session control
  let s ← call.send_chunks P a route_watch request control
  call.await_ack P s.control
  push [.ObjectCompleted call.pending.secrets.transfer_id call.pending.secrets.object_id
      call.pending.plaintext_digest,
    .TransferCompleted call.pending.secrets.transfer_id 1]
  pure (call.report P a session offer request s.route_watch.last)

end rtp2_core.transfer
