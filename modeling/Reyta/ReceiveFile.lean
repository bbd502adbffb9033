-- The receiver of a session, from the connection to the acknowledgement: it accepts,
-- shakes hands, checks the offer, opens the destination and the resume record, asks for
-- what is missing, and acknowledges a file that is complete and as announced.
import Reyta.Admission
import Reyta.Destinations
import Reyta.FrameSizes
import Reyta.FrameStreams
import Reyta.RouteAdmission
import Reyta.SessionMessages

open byte_string early_exit exact_parse stream_party

namespace rtp2_core.transfer

open bitmap crypto events handshake identity keys manifest object offer resume route scheduler
open control (ControlChannel)

/-! ## The call -/

/-- The arguments of `receive_file`. -/
structure ReceiveCall where
  identity : DeviceIdentity
  local_endpoint_id : Arr 32
  dest : String
  /-- Whether there is a path for resume state. -/
  resume_state : Bool
  admission : RouteAdmission

/-- What becomes of the wait for a connection. -/
inductive Accepting where
  | timeout
  | closed
  | failed (e : String)
  | accepted (observed_peer : Arr 32)

def Accepting.result : Accepting → Except TransferError (Arr 32)
  | .timeout => .error .Timeout
  | .closed => .error (.Io "endpoint closed")
  | .failed e => .error (.Io e)
  | .accepted observed_peer => .ok observed_peer

/-- What the system answers in a call of `receive_file`, and what the call draws. -/
structure ReceiveAnswers where
  accept : Accepting
  path : PathLooks
  /-- The time when the watch over the path starts. -/
  watch : Nat
  accept_bi : Except String Unit
  hello : HelloRandom
  now : UInt64
  /-- The record at the state path, if it can be read and decoded. -/
  stored : Option ResumeRecord
  /-- What the destination has when it is opened. -/
  open_file : Except String Bytes
  set_len : Except String Unit
  /-- One for each frame of the loop. Without one more the call is cut short. -/
  turns : List Answers
  sync_all : Except String Unit
  checkpoint : Except String Unit
  reread : Except String Unit
  remove_file : Except String Unit
  remove_record : Except String Unit

/-- The state from the loop on. -/
structure Arrival where
  recv : Recv
  /-- What was removed in the end. -/
  removed : List DestDeed

/-- The state of the call. -/
structure Receiving where
  replay : ReplayCache
  /-- The events before the loop. -/
  events : List Event
  /-- The offer that the destination was opened for. -/
  opened : Option Admitted
  arrival : Option Arrival

/-- The state before a call. -/
def Receiving.start (replay : ReplayCache) : Receiving := ⟨replay, [], none, none⟩

namespace Talk

variable {α : Type}

/-- The responder's side of the handshake. -/
def respond (P : Primitives) (identity : DeviceIdentity) (local_endpoint_id observed_peer : Arr 32)
    (hello : HelloRandom) : Talk Receiving SessionKeys := do
  let ch ← expect_plain_frame FRAME_CLIENT_HELLO
  let s ← Session.act read
  let answered := (Responder.new identity local_endpoint_id).on_client_hello P ch observed_peer
    s.replay hello
  Session.act (change fun s => { s with replay := answered.2.2 })
  let sh ← fallible (answered.1.mapError fun _ => .Handshake)
  send_plain_frame FRAME_SERVER_HELLO sh
  let cf ← expect_plain_frame FRAME_CLIENT_FINISH
  let (sf, session) ←
    fallible ((answered.2.1.on_client_finish P cf).1.mapError fun _ => .Handshake)
  send_plain_frame FRAME_SERVER_FINISH sf
  pure session

/-- A step of the loop, or of what follows it. -/
def on_recv (x : Act α) : Talk Arrival α := Session.act fun s =>
  ((exec x s.recv).1.mapError .Err, { s with recv := (exec x s.recv).2 })

end Talk

open Talk

variable (P : Primitives) (call : ReceiveCall) (a : ReceiveAnswers)

namespace Admitted

variable (admitted : Admitted)

/-- What the loop works with. -/
def incoming : Incoming :=
  ⟨admitted.ctx, admitted.ctx.context_hash P, admitted.opened.secrets.key_schedule P,
    admitted.object_public.ciphertext_root⟩

def object_identity : ObjectIdentity where
  transfer_id := admitted.opened.secrets.transfer_id
  object_id := admitted.opened.secrets.object_id
  manifest_commitment := admitted.identity_commitment
  ciphertext_root := admitted.object_public.ciphertext_root
  chunk_count := admitted.ctx.chunk_count
  chunk_ciphertext_size := admitted.object_public.chunk_ciphertext_size
  logical_plaintext_size := admitted.ctx.logical_plaintext_size

/-- The request for what is missing. -/
def request (held : ChunkBitmap) : RangeRequest :=
  (Scheduler.new admitted.opened.secrets.transfer_id admitted.opened.secrets.object_id
    admitted.ctx.chunk_count admitted.object_public.chunk_ciphertext_size).full_request held

end Admitted

namespace ReceiveCall

/-- The connection, up to the point where the first byte may be read. -/
def connect : Talk Receiving (Arr 32 × RouteWatch) := do
  let observed_peer ← fallible a.accept.result
  -- There is no transfer id yet.
  let (pushed, admitted) ← waiting (admit_route (.replicate 32 0) call.admission a.path)
  Session.act (change fun s => { s with events := s.events ++ pushed })
  let route ← fallible admitted
  io a.accept_bi
  pure (observed_peer, .new route call.admission.policy a.watch)

/-- The resume database, if there is a path for it. -/
def open_record (admitted : Admitted) : Except TransferError (Option ResumeDb) :=
  if call.resume_state then
    ((ResumeDb.open a.stored admitted.object_identity call.dest).map
      fun r => some r.1).mapError fun e => .Io e.to_string
  else .ok none

/-- The chunks that are held at the start. -/
def held_at_start (admitted : Admitted) : Option ResumeDb → Except TransferError ChunkBitmap
  | some db => .ok db.record.durable
  | none => (ChunkBitmap.new admitted.ctx.chunk_count).mapError
      fun _ => .Protocol "bad chunk count"

/-- The resume database, the chunks that are held, and what the destination has. -/
def open_destination (admitted : Admitted) :
    Talk Receiving (Option ResumeDb × ChunkBitmap × Bytes) := do
  let db ← fallible (call.open_record a admitted)
  let file ← io a.open_file
  Session.act (change fun s => { s with opened := some admitted })
  io a.set_len
  let held ← fallible (held_at_start admitted db)
  pure (db, held, file)

/-- The loop. -/
def receive_chunks (t : Incoming) : ControlChannel → List Answers → Talk Arrival ControlChannel
  | _, [] => throw .Cut
  | control, answers :: rest => do
    let (frame, control) ← Talk.recv_frame P control
    match ← on_recv (turn P t ⟨.ok frame, answers⟩) with
    | .next => receive_chunks t control rest
    | .done => pure control

/-- The attempt that this call makes with the frames `turns`. -/
def attempt (admitted : Admitted) (route_watch : RouteWatch) (file : Bytes) (turns : List Turn) :
    Attempt where
  identity := admitted.object_identity
  dest := call.dest
  readable := true
  prepared := .ok ()
  route_watch := route_watch
  file := file
  turns := turns
  sync_all := a.sync_all
  checkpoint := a.checkpoint

/-- The file and the record are discarded, as far as the file system lets them. -/
def discard : Talk Arrival Unit := Session.act (change fun s =>
  { s with removed := s.removed ++ removed a.remove_file .remove_file ++
      if s.recv.db.isSome then removed a.remove_record .remove_record else [] })

/-- The record has no more work to describe. -/
def remove_record : Talk Arrival Unit := Session.act fun s =>
  if s.recv.db.isSome then
    match a.remove_record with
    | .ok () => (.ok (), { s with removed := s.removed ++ [.remove_record] })
    | .error e => (.error (.Err (.Io (ResumeError.Io e).to_string)), s)
  else (.ok (), s)

/-- After the end of the stream, up to the terminal events. -/
def complete (admitted : Admitted) : Talk Arrival (Arr 32) := do
  -- `settle` reads neither the path nor the file nor the frames of the attempt.
  on_recv (settle (call.attempt a admitted (.new .Unknown .Any 0) [] []))
  let digest ← on_recv (plaintext_digest P admitted.ctx a.reread)
  if ct_eq digest.bytes admitted.disclosed.plaintext_digest.bytes = false then do
    discard a
    throw (.Err (.Crypto "plaintext digest mismatch"))
  else do
    remove_record a
    Session.act (change fun s => { s with recv := { s.recv with events := s.recv.events ++
      [.ObjectCompleted admitted.opened.secrets.transfer_id admitted.opened.secrets.object_id
          digest,
        .TransferCompleted admitted.opened.secrets.transfer_id 1] } })
    pure digest

/-- From the loop to the acknowledgement. -/
def receive_object (admitted : Admitted) (control : ControlChannel) :
    Talk Arrival (Arr 32 × UInt64 × Route) := do
  let control ← receive_chunks P (admitted.incoming P) control a.turns
  let digest ← call.complete P a admitted
  let _ ← Talk.send_frame P control FRAME_COMPLETE (encode_ack 0 digest)
  let s ← Session.act read
  pure (digest, s.recv.received_this_attempt, s.recv.route_watch.last)

/-- The report. -/
def report (session : SessionKeys) (admitted : Admitted) (digest : Arr 32)
    (received_this_attempt : UInt64) (route : Route) : TransferReport where
  transfer_id := admitted.opened.secrets.transfer_id
  object_id := admitted.opened.secrets.object_id
  manifest_commitment := admitted.identity_commitment
  ciphertext_root := admitted.object_public.ciphertext_root
  plaintext_digest := digest
  bytes := admitted.ctx.logical_plaintext_size
  chunks := admitted.ctx.chunk_count
  chunks_transferred := received_this_attempt
  peer_device_id := session.peer.device_id
  peer_endpoint_id := session.peer_endpoint_id
  route := route

end ReceiveCall

def ReceiveCall.receive_file : Talk Receiving TransferReport := do
  let (observed_peer, route_watch) ← call.connect a
  let session ← respond P call.identity call.local_endpoint_id observed_peer a.hello
  let control := ControlChannel.new P session.handshake_prk session.th2 .ServerToClient
  let (offer_bytes, control) ← Talk.expect_frame P control FRAME_OFFER
  let admitted ← fallible (admit_offer P call.identity.device_id session a.now offer_bytes)
  let (db, held, file) ← call.open_destination a admitted
  let control ← Talk.send_frame P control FRAME_RANGE_REQUEST (admitted.request held).encode
  let (digest, received_this_attempt, route) ←
    Session.within ⟨.start admitted.ctx db held route_watch file, []⟩
      (fun arrival s => { s with arrival := some arrival })
      (call.receive_object P a admitted control)
  pure (ReceiveCall.report session admitted digest received_this_attempt route)

end rtp2_core.transfer
