-- Two calls that meet while nothing goes wrong. Whatever the order of their steps and
-- however the streams cut their bytes, both calls return, their reports agree, and the
-- destination has the bytes of the source.
import Reyta.HonestCalls
import Reyta.MissingChunks

open byte_string early_exit exact_parse file_region stream_party stream_party.Session

namespace rtp2_core.transfer

open bitmap crypto events handshake identity keys manifest merkle object offer resume route
open scheduler
open control (ControlChannel MAX_FRAMES_PER_EPOCH)

/-! ## The frames of a session -/

/-- The frames after the handshake, up to the end of the stream. -/
structure Course (P : Primitives) (a b : ControlChannel) (offer request : Bytes)
    (payloads : List Bytes) (out back : Bytes) (chunks : List Bytes) (last : Bytes)
    (a' : ControlChannel) : Prop where
  offer : Conveys P a FRAME_OFFER offer out
  request : Conveys P { b with receive_watermark := a.send_counter + 1 } FRAME_RANGE_REQUEST
    request back
  chunks : ConveysAll P FRAME_CHUNK
    { a with send_counter := a.send_counter + 1, receive_watermark := b.send_counter + 1 } payloads
    chunks a'
  last : Conveys P a' FRAME_STREAM_END [] last

theorem exists_course {P : Primitives} (hE : P.Encrypts) {a b : ControlChannel}
    (htouch : InTouch a b) (ha : a.send_counter = 0) (hb : b.send_counter = 0)
    (hepoch : a.keys.epoch = 0) {offer request : Bytes} {payloads : List Bytes}
    (hoffer : offer.length ≤ 17000) (hrequest : request.length + 16 ≤ MAX_CONTROL_BODY)
    (hfew : payloads.length ≤ 2 ^ 14)
    (hpayloads : ∀ payload ∈ payloads, payload.length + 16 ≤ body_limit FRAME_CHUNK) :
    ∃ out back chunks last a', Course P a b offer request payloads out back chunks last a' := by
  have hcontrol : ∀ frame_type : UInt8, frame_type ≠ FRAME_CHUNK →
      body_limit frame_type = MAX_CONTROL_BODY := fun _ hne => if_neg hne
  obtain ⟨out, hout⟩ := exists_conveys hE FRAME_OFFER offer hepoch (by rw [ha]; decide)
    (by rw [hcontrol _ (by decide)]; unfold MAX_CONTROL_BODY; omega)
  obtain ⟨back, hback⟩ := exists_conveys hE FRAME_RANGE_REQUEST request
    (a := { b with receive_watermark := a.send_counter + 1 })
    ((congrArg _ htouch.there.keys).trans hepoch) (by simp only [hb]; decide)
    (by rwa [hcontrol _ (by decide)])
  have hsmall : 1 + payloads.length < 2 ^ 32 :=
    Nat.lt_of_le_of_lt (Nat.add_le_add_left hfew _) (by decide)
  obtain ⟨chunks, a', hchunks, hkeys, hcount⟩ := exists_conveysAll hE FRAME_CHUNK
    (a := { a with send_counter := a.send_counter + 1, receive_watermark := b.send_counter + 1 })
    hepoch (by simp only [ha]; exact hsmall) hpayloads
  have hmax : a'.send_counter < MAX_FRAMES_PER_EPOCH := by
    rw [UInt64.lt_iff_toNat_lt, hcount]
    simp only [ha]
    exact hsmall
  obtain ⟨last, hlast⟩ := exists_conveys hE FRAME_STREAM_END [] ((congrArg _ hkeys).trans hepoch)
    hmax (by rw [hcontrol _ (by decide)]; decide)
  exact ⟨out, back, chunks, last, a', hout, hback, hchunks, hlast⟩

/-- These frames and the acknowledgement, as the sender sees them. -/
def transfer_script (out back : Bytes) (chunks : List Bytes) (last ack : Bytes) :
    List (Line UInt8) :=
  [.send out, .recv back] ++ (chunks.map .send ++ [.send last] ++ [.recv ack])

theorem transfer_script_dual (out back : Bytes) (chunks : List Bytes) (last ack : Bytes) :
    (transfer_script out back chunks last ack).map Line.dual =
      [.recv out, .send back] ++ (chunks.map .recv ++ [.recv last] ++ [.send ack]) := by
  simp [transfer_script, Function.comp_def, Line.dual]

/-! ## One request is enough -/

section Whole

variable {P : Primitives} {t : PendingTransfer} {content : Bytes} {held : ChunkBitmap}
  {file : Bytes}

/-- What the receiver needs to start from: few gaps, and true chunks. -/
structure Starts (ctx : ObjectContext) (content file : Bytes) (held : ChunkBitmap) : Prop where
  count : held.chunk_count = ctx.chunk_count
  gaps : held.gaps ≤ MAX_RANGES_PER_REQUEST
  true_of : ∀ i, held.Has i →
    region ctx (set_len 0 file ctx.logical_plaintext_size.toNat) i = region ctx content i

theorem range_request_sorted (ctx : ObjectContext) (held : ChunkBitmap) :
    Sorted (range_request ctx held).ranges held.chunk_count :=
  (RangeRequest.validate_iff.1 (RangeRequest.decode_eq_ok.1
    (Scheduler.full_request_decodes _ held)).2.2).2

theorem Starts.mem_or_has (h : Starts t.ctx content file held) {i : UInt64}
    (hi : i < t.ctx.chunk_count) : i ∈ (range_request t.ctx held).indices ∨ held.Has i := by
  by_cases hhas : held.Has i
  · exact .inr hhas
  · rw [← h.count] at hi
    exact .inl (mem_range_request.2 ((held.missing_ranges_cover_iff _).2 h.gaps i hi hhas))

/-- The receiver has the file. -/
structure Whole (P : Primitives) (ctx : ObjectContext) (content : Bytes) (total : UInt64)
    (s : Recv) : Prop where
  complete : s.held.is_complete = true
  file : s.file = content
  received : s.received_this_attempt = total
  digest : ∀ effects, exec (plaintext_digest P ctx (.ok ())) { s with effects } =
    (.ok (P.blake3 content), { s with effects })

/-- The chunks that were written are those that were asked for. -/
theorem length_accepted {ctx : ObjectContext} {ciphertexts : List Bytes} {s : Recv} {t : Incoming}
    (hs : s.Delivered P t ciphertexts held file)
    (hhas : ∀ i, s.held.Has i ↔ i ∈ (range_request ctx held).indices ∨ held.Has i) :
    s.accepted.length = (range_request ctx held).indices.length :=
  List.Perm.length_eq ((List.perm_ext_iff_of_nodup hs.once
    (RangeRequest.indices_nodup (range_request_sorted ctx held))).2 fun _ =>
      mem_accepted_iff hs hhas)

/-- The loop over all that was asked for makes the file whole. -/
theorem exists_whole (hD : P.Decrypts) (ht : t.Source P content)
    (hstart : Starts t.ctx content file held) {db : Option ResumeDb}
    (hdb : ∀ d ∈ db, d.record.identity.chunk_count = t.ctx.chunk_count)
    (route_watch : RouteWatch) {record : UInt64 → Record} {payload : UInt64 → Bytes}
    (hsound : ∀ i ∈ (range_request t.ctx held).indices,
      Sound P t content i (record i) (payload i))
    {ans : List Answers} (hans : (range_request t.ctx held).indices.length < ans.length)
    (hwork : ∀ a ∈ ans, a.Work route_watch.policy) :
    ∃ s, exec (receive_loop P t.incoming
        (chunk_turns ((range_request t.ctx held).indices.map payload) ans))
          (.start t.ctx db held route_watch file) = (.ok .done, s) ∧
      Whole P t.ctx content (range_request t.ctx held).chunk_total s := by
  have hg := ht.prepared.geometry
  obtain ⟨s, hrun, hready, hhas⟩ := chunk_loop_exec hg hsound hans hwork
    (s := .start t.ctx db held route_watch file) ⟨start_inv hg hstart.count hdb, rfl⟩
  have hhas : ∀ i, s.held.Has i ↔ i ∈ (range_request t.ctx held).indices ∨ held.Has i := hhas
  have hplain : ∀ i ∈ (range_request t.ctx held).indices,
      t.incoming.Plain P (t.ciphertexts P content) i (region t.ctx content i) :=
    fun i hi => (hsound i hi).plain
  have harrived := hready.inv.2.arrived hD hplain hhas
  have hfile : s.file = content := by
    refine eq_of_regions hg hready.inv.1.file_len ht.length fun i hi => ?_
    by_cases hheld : held.Has i
    · exact (harrived.other i (.inl hheld)).trans (hstart.true_of i hheld)
    · exact harrived.content i ((hstart.mem_or_has hi).resolve_right hheld) hheld
  refine ⟨s, hrun, ?_, hfile, ?_, fun effects => ?_⟩
  · rw [s.held.is_complete_iff]
    intro i hi
    have hcount : s.held.chunk_count = t.ctx.chunk_count := hready.inv.1.held_count
    rw [hcount] at hi
    exact (hhas i).2 (hstart.mem_or_has hi)
  · have htally : s.Tallied := receive_loop_tallied.of_ok (by rfl) hrun
    rw [htally, length_accepted hready.inv.2 hhas, ← RangeRequest.toNat_chunk_total
      (range_request_sorted t.ctx held), UInt64.ofNat_toNat]
  · have hfilled := loop_fills (t := t.incoming) (start_filled hg hstart.count hdb) hg hrun
    have hdigest := Recv.Filled.plaintext_digest (P := P) (t := t.incoming)
      (s := { s with effects }) ⟨⟨hfilled.shape.file_len, hfilled.shape.held_count,
        hfilled.shape.db_count⟩, hfilled.has, hfilled.kept, hfilled.taken, hfilled.streaming⟩ hg
    rw [← hfile]
    exact hdigest

/-- From the first chunk to the acknowledgement. -/
theorem plays_receive_object (hE : P.Encrypts) (hD : P.Decrypts) (call : ReceiveCall)
    {answers : ReceiveAnswers} {admitted : Admitted} {payloads out : List Bytes} {last : Bytes}
    {a a' b : ControlChannel} (hc : ConveysAll P FRAME_CHUNK a payloads out a')
    (hend : Conveys P a' FRAME_STREAM_END [] last) (htouch : InTouch a b)
    (hcounter : b.send_counter < MAX_FRAMES_PER_EPOCH) {s : Arrival} {recv : Recv} {total : UInt64}
    (hrun : exec (receive_loop P (admitted.incoming P) (chunk_turns payloads answers.turns))
      s.recv = (.ok .done, recv)) (hwhole : Whole P admitted.ctx content total recv)
    (hsync : answers.sync_all = .ok ()) (hreread : answers.reread = .ok ())
    (hremove : answers.remove_record = .ok ())
    (hdigest : admitted.disclosed.plaintext_digest = P.blake3 content) :
    ∃ ack b' arrival, InTouch { a' with send_counter := a'.send_counter + 1 } b' ∧
      Conveys P b' FRAME_COMPLETE (encode_ack 0 (P.blake3 content)) ack ∧
      Plays frames (call.receive_object P answers admitted b) s
        (out.map .recv ++ [.recv last] ++ [.send ack])
        (P.blake3 content, total, arrival.recv.route_watch.last) arrival ∧
      arrival.recv.file = content ∧
      completed admitted.opened.secrets.transfer_id admitted.opened.secrets.object_id
        (P.blake3 content) <:+ arrival.recv.events := by
  obtain ⟨b', hb', hcount, hchunks⟩ := plays_receive_chunks hD hc hend htouch hrun
  have hepoch : b'.keys.epoch = 0 := by
    rw [hb'.there.keys]
    exact hend.epoch
  obtain ⟨ack, hack⟩ : ∃ ack, Conveys P b' FRAME_COMPLETE (encode_ack 0 (P.blake3 content))
      ack := by
    have hsize := length_encode_ack_le 0 (P.blake3 content)
    refine exists_conveys hE _ _ hepoch (hcount ▸ hcounter) ?_
    have hlimit : body_limit FRAME_COMPLETE = MAX_CONTROL_BODY := if_neg (by decide)
    rw [hlimit]
    unfold MAX_CONTROL_BODY
    omega
  have hread : exec (plaintext_digest P admitted.ctx answers.reread)
      { recv with effects := recv.effects ++ [.sync] } =
        (.ok (P.blake3 content), { recv with effects := recv.effects ++ [.sync] }) := by
    rw [hreread]
    exact hwhole.digest _
  obtain ⟨arrival, hcomplete, hrecv⟩ := plays_complete call (s := { s with recv })
    hwhole.complete hsync hread hdigest.symm hremove
  refine ⟨ack, b', arrival, hb', hack, ?_, ?_, ?_⟩
  · have hreceived : arrival.recv.received_this_attempt = total := by
      rw [hrecv]
      exact hwhole.received
    unfold ReceiveCall.receive_object
    refine hchunks.bind (hcomplete.after_quiet ((hack.plays_send _).then_quiet ?_))
    refine (plays_read _).after_quiet ?_
    rw [← hreceived]
    exact plays_pure _ _
  · rw [hrecv]
    exact hwhole.file
  · rw [hrecv]
    exact List.suffix_append _ _

end Whole

/-! ## The two calls -/

/-- A call of each side, with what their systems answer. -/
structure Meeting where
  send : SendCall
  sent : SendAnswers
  receive : ReceiveCall
  received : ReceiveAnswers
  /-- The replay cache of the receiver. -/
  replay : ReplayCache

namespace Meeting

variable (P : Primitives) (m : Meeting)

def pair : handshake.Pair :=
  ⟨m.send.identity, m.send.local_endpoint_id, m.sent.start, m.sent.finish, m.receive.identity,
    m.receive.local_endpoint_id, m.received.hello⟩

/-- The calls at their start, and two empty streams between them. -/
def link : Link UInt8 Bool TransferError Numbered (Except Halt TransferReport × List Event)
    (Except Halt TransferReport × Receiving) :=
  .start (run (m.send.send_pending P m.sent) [])
    (run (m.receive.receive_file P m.received) (.start m.replay))

/-- The object that is sent, apart from the commitment of its manifest. -/
def object (commitment : Arr 32) : ObjectIdentity where
  transfer_id := m.send.pending.secrets.transfer_id
  object_id := m.send.pending.secrets.object_id
  manifest_commitment := commitment
  ciphertext_root := m.send.pending.ciphertext_root
  chunk_count := m.send.pending.ctx.chunk_count
  chunk_ciphertext_size := m.send.pending.ctx.chunk_ciphertext_size
  logical_plaintext_size := m.send.pending.ctx.logical_plaintext_size

/-- Nothing goes wrong in a transfer of the file `content`. -/
structure Calm (content : Bytes) : Prop where
  length : content.length < 2 ^ 64
  /-- The file was prepared and has not changed. -/
  prepared : ∃ secrets size, PendingTransfer.prepare P secrets (.ok (.ofNat content.length))
    (.ok content) size = .ok m.send.pending
  unchanged : ∀ position, m.sent.file position = .ok content
  small : m.send.pending.ctx.chunk_count.toNat ≤ 2 ^ 14
  name : PrivateManifest.text_len m.send.file_name ≤ MAX_TEXT_LEN
  /-- Each side is connected to the other one, -/
  peer : m.send.peer = m.receive.local_endpoint_id
  connect : m.sent.connect = .ok m.receive.local_endpoint_id
  accept : m.received.accept = .accepted m.send.local_endpoint_id
  /-- over a path that both policies admit. -/
  send_path : ∃ pushed route, admit_route m.send.pending.secrets.transfer_id m.send.admission
    m.sent.path = some (pushed, .ok route)
  receive_path : ∃ pushed route, admit_route (.replicate 32 0) m.receive.admission
    m.received.path = some (pushed, .ok route)
  looks : ∀ position, m.send.admission.policy.admits (m.sent.look position).2 = true
  turns : ∀ a ∈ m.received.turns, a.Work m.receive.admission.policy
  enough_turns : m.send.pending.ctx.chunk_count.toNat < m.received.turns.length
  /-- The two devices sign, and the hello is new. -/
  handshake : ∃ sig_a sig_b, m.pair.Sound P sig_a sig_b
  fresh : (m.replay.check_and_insert m.send.identity.device_id m.sent.start.nonce).1 = true
  signs : ∀ hash, ∃ sig, m.send.identity.hybrid_sign P hash m.sent.draws.signature = some sig
  /-- The offer arrives while it is valid. -/
  clock : m.sent.now.toNat + ENVELOPE_TTL_SECS.toNat < 2 ^ 64
  later : m.sent.now ≤ m.received.now
  in_time : m.received.now < m.sent.now + ENVELOPE_TTL_SECS
  /-- Neither the streams nor the files fail. -/
  open_bi : m.sent.open_bi = .ok ()
  accept_bi : m.received.accept_bi = .ok ()
  open_source : m.sent.open_file = .ok ()
  resized : m.received.set_len = .ok ()
  sync_all : m.received.sync_all = .ok ()
  reread : m.received.reread = .ok ()
  remove_record : m.received.remove_record = .ok ()
  /-- A record for the object has few gaps, and marks only chunks of the source. -/
  destination : ∃ file, m.received.open_file = .ok file ∧ ∀ commitment held,
    m.receive.Claimed m.received (m.object commitment) held →
      held.gaps ≤ MAX_RANGES_PER_REQUEST ∧ ∀ i, held.Has i → region m.send.pending.ctx
        (set_len 0 file m.send.pending.ctx.logical_plaintext_size.toNat) i =
          region m.send.pending.ctx content i

/-- The control channel of the sender after the handshake. -/
def sender_channel (sig_b : HybridSignature) : ControlChannel :=
  .new P (m.pair.initiator_session P sig_b).handshake_prk (m.pair.initiator_session P sig_b).th2
    .ClientToServer

def receiver_channel (sig_b : HybridSignature) : ControlChannel :=
  .new P (m.pair.responder_session P sig_b).handshake_prk (m.pair.responder_session P sig_b).th2
    .ServerToClient

theorem channels_inTouch (sig_b : HybridSignature) :
    InTouch (m.sender_channel P sig_b) (m.receiver_channel P sig_b) :=
  ⟨InStep.new P _ _ .ClientToServer, InStep.new P _ _ .ServerToClient⟩

/-- What the receiver has after its checks of the offer. -/
def admitted (sig_b : HybridSignature) (offer : TransferOffer) : Admitted :=
  expected P m.send.identity (m.pair.initiator_session P sig_b) m.send.pending m.send.file_name
    m.sent.now offer.sealed_manifest offer

/-- The receiver has opened its destination for the object that is sent. -/
def Opens (s : Receiving) : Prop := ∃ admitted, s.opened = some admitted ∧
  admitted.ctx = m.send.pending.ctx ∧
  ∀ commitment, admitted.object_identity.core = (m.object commitment).core

variable {P m} {content : Bytes}

theorem admitted_incoming (ht : m.send.pending.Source P content) (sig_b : HybridSignature)
    (offer : TransferOffer) :
    (m.admitted P sig_b offer).incoming P = m.send.pending.incoming := by
  unfold Admitted.incoming PendingTransfer.incoming Meeting.admitted expected
  rw [ht.ctx_hash, ht.schedule]
  rfl

theorem admitted_request (ht : m.send.pending.Source P content) (sig_b : HybridSignature)
    (offer : TransferOffer) (held : ChunkBitmap) :
    (m.admitted P sig_b offer).request held = range_request m.send.pending.ctx held := by
  unfold Admitted.request range_request
  rw [ht.ids.1, ht.ids.2]
  rfl

/-- The offer of the sender passes the checks of the receiver. -/
theorem Calm.offer (h : m.Calm P content) (hE : P.Encrypts) (hD : P.Decrypts)
    (hV : DeviceIdentity.Verifies P) (ht : m.send.pending.Source P content)
    (sig_b : HybridSignature) :
    ∃ offer, make_offer P m.send.identity (m.pair.initiator_session P sig_b) m.send.pending
        m.send.file_name m.send.local_endpoint_id m.sent.now m.sent.draws = .ok offer ∧
      offer.encode.length ≤ 17000 ∧
      admit_offer P m.receive.identity.device_id (m.pair.responder_session P sig_b) m.received.now
        offer.encode = .ok (m.admitted P sig_b offer) := by
  obtain ⟨size, hfile⟩ := ht.for_file
  obtain ⟨offer, hoffer⟩ : ∃ offer, make_offer P m.send.identity
      (m.pair.initiator_session P sig_b) m.send.pending m.send.file_name m.send.local_endpoint_id
      m.sent.now m.sent.draws = .ok offer :=
    exists_made hE h.signs h.name hfile h.clock
  obtain ⟨envelope, sealed, hmade⟩ := make_offer.spec hoffer
  have hsealed : offer.sealed_manifest = sealed := by rw [hmade.created.offer_eq]
  refine ⟨offer, hoffer, hmade.length_encode hE, ?_⟩
  unfold Meeting.admitted
  rw [hsealed]
  exact hmade.admitted hD hE hV hfile ht.schedule (by rfl) (by rfl) h.later h.in_time

/-- What the receiver starts from. -/
theorem Calm.starts (h : m.Calm P content) (hg : m.send.pending.ctx.Geometry) {file : Bytes}
    (hopen : m.received.open_file = .ok file) (sig_b : HybridSignature) (offer : TransferOffer) :
    ∃ db held, m.receive.open_record m.received (m.admitted P sig_b offer) = .ok db ∧
      ReceiveCall.held_at_start (m.admitted P sig_b offer) db = .ok held ∧
      (∀ d ∈ db, d.record.identity.chunk_count = m.send.pending.ctx.chunk_count) ∧
      Starts m.send.pending.ctx content file held := by
  obtain ⟨file', hopen', hclaimed⟩ := h.destination
  obtain rfl := Except.ok.inj (hopen.symm.trans hopen')
  have hctx : (m.admitted P sig_b offer).ctx = m.send.pending.ctx := rfl
  obtain ⟨db, held, hdb, hheld, hcount, hdbs, hfrom⟩ := exists_open_record m.receive m.received
    (hctx ▸ hg)
  refine ⟨db, held, hdb, hheld, hdbs, hcount, ?_, ?_⟩
  · rcases hfrom with hfrom | hnone
    · exact (hclaimed _ held hfrom).1
    · exact Nat.le_trans (gaps_le_one hnone) (by decide)
  · intro i hi
    rcases hfrom with hfrom | hnone
    · exact (hclaimed _ held hfrom).2 i hi
    · exact absurd hi (hnone i)

/-- The records of some chunks, and the frames that carry them. -/
theorem Calm.exists_frames (h : m.Calm P content) (hE : P.Encrypts) (hD : P.Decrypts)
    (ht : m.send.pending.Source P content) (sig_b : HybridSignature) {offer : TransferOffer}
    (hsize : offer.encode.length ≤ 17000) (held : ChunkBitmap) {indices : List UInt64}
    (hlt : ∀ i ∈ indices, i < m.send.pending.ctx.chunk_count)
    (hfew : indices.length ≤ m.send.pending.ctx.chunk_count.toNat) :
    ∃ (record : UInt64 → Record) (payload : UInt64 → Bytes) (out back : Bytes)
      (chunks : List Bytes) (last : Bytes) (a' : ControlChannel),
      (∀ i ∈ indices, Sound P m.send.pending content i (record i) (payload i)) ∧
      Course P (m.sender_channel P sig_b) (m.receiver_channel P sig_b) offer.encode
        (range_request m.send.pending.ctx held).encode (indices.map payload) out back chunks last
        a' := by
  have hsound : ∀ i ∈ indices, ∃ record payload, Sound P m.send.pending content i record payload :=
    fun i hi => exists_sound hE hD ht.prepared ht.root (Nat.le_of_eq ht.length.symm) h.small
      (hlt i hi)
  choose! record payload hsound using hsound
  have hcount : (indices.map payload).length ≤ 2 ^ 14 := by
    rw [List.length_map]
    exact Nat.le_trans hfew h.small
  have hfits : ∀ p ∈ indices.map payload, p.length + 16 ≤ body_limit FRAME_CHUNK := by
    simp only [List.forall_mem_map]
    exact fun i hi => (hsound i hi).fits
  have hlen : (range_request m.send.pending.ctx held).encode.length + 16 ≤ MAX_CONTROL_BODY :=
    length_full_request_le _ held
  obtain ⟨out, back, chunks, last, a', hcourse⟩ := exists_course hE (m.channels_inTouch P sig_b)
    rfl rfl rfl hsize hlen hcount hfits
  exact ⟨record, payload, out, back, chunks, last, a', hsound, hcourse⟩

section Plays

variable {sig_a sig_b : HybridSignature} {offer : TransferOffer} {held : ChunkBitmap}
  {record : UInt64 → Record} {payload : UInt64 → Bytes} {out back : Bytes} {chunks : List Bytes}
  {last ack : Bytes} {a' b' : ControlChannel}

theorem Calm.plays_send (h : m.Calm P content) (hD : P.Decrypts)
    (ht : m.send.pending.Source P content) (hpair : m.pair.Sound P sig_a sig_b)
    (hoffer : make_offer P m.send.identity (m.pair.initiator_session P sig_b) m.send.pending
      m.send.file_name m.send.local_endpoint_id m.sent.now m.sent.draws = .ok offer)
    (hcount : held.chunk_count = m.send.pending.ctx.chunk_count)
    (hsound : ∀ i ∈ (range_request m.send.pending.ctx held).indices,
      Sound P m.send.pending content i (record i) (payload i))
    (hcourse : Course P (m.sender_channel P sig_b) (m.receiver_channel P sig_b) offer.encode
      (range_request m.send.pending.ctx held).encode
      ((range_request m.send.pending.ctx held).indices.map payload) out back chunks last a')
    (hb' : InTouch { a' with send_counter := a'.send_counter + 1 } b')
    (hack : Conveys P b' FRAME_COMPLETE (encode_ack 0 m.send.pending.plaintext_digest) ack) :
    ∃ route events, Plays frames (m.send.send_pending P m.sent) []
      (handshake_script P m.pair sig_a sig_b ++ transfer_script out back chunks last ack)
      (m.send.report P m.sent (m.pair.initiator_session P sig_b) offer
        (range_request m.send.pending.ctx held) route)
      (events ++ completed m.send.pending.secrets.transfer_id m.send.pending.secrets.object_id
        m.send.pending.plaintext_digest) := by
  obtain ⟨pushed, route, hpath⟩ := h.send_path
  have hsorted := range_request_sorted m.send.pending.ctx held
  rw [hcount] at hsorted
  have hproduced : ∀ position, ∀ i ∈ (range_request m.send.pending.ctx held).indices,
      m.send.pending.produce P ⟨m.sent.file position, i⟩ = .ok (payload i) := by
    intro position i hi
    rw [h.unchanged]
    exact (hsound i hi).produced
  have hknown : ∀ i ∈ (range_request m.send.pending.ctx held).indices,
      ∃ len, m.send.pending.ctx.chunk_len i = some len := by
    intro i hi
    obtain ⟨len, hlen, -⟩ := ObjectContext.chunk_len_spec ht.prepared.geometry
      (RangeRequest.indices_lt hsorted hi)
    exact ⟨len, hlen⟩
  have hdecodes : RangeRequest.decode (range_request m.send.pending.ctx held).encode
      m.send.pending.ctx.chunk_count = .ok (range_request m.send.pending.ctx held) := by
    rw [← hcount]
    exact Scheduler.full_request_decodes _ held
  obtain ⟨s, events, hchunks, hcontrol⟩ := plays_send_chunks hproduced hknown
    (.new route m.send.admission.policy m.sent.watch) h.looks hcourse.chunks hcourse.last
    ([] ++ pushed)
  refine ⟨s.route_watch.last, events, ?_⟩
  unfold SendCall.send_pending
  refine (plays_send_connect (by rw [h.connect, h.peer]) hpath h.open_bi []).after_quiet ?_
  rw [h.peer]
  refine (plays_initiate hpair _).bind ?_
  refine (Talk.plays_io h.open_source _).after_quiet ?_
  refine (plays_offer_file hD hoffer hcourse.offer ((m.channels_inTouch P sig_b).next 1)
    hcourse.request hdecodes ht.ids.1 ht.ids.2 _).bind ?_
  refine hchunks.bind ?_
  refine (plays_await_ack hD (hcontrol ▸ hb') hack _).then_quiet ?_
  exact (plays_change _ _).after_quiet (plays_pure _ _)

/-- The receiver up to its request, and then what comes of the chunks. -/
theorem Calm.receive_follows (h : m.Calm P content) (hD : P.Decrypts) (hx : P.Exchanges)
    (hkem : P.Decapsulates) (ht : m.send.pending.Source P content)
    (hpair : m.pair.Sound P sig_a sig_b)
    (hadmits : admit_offer P m.receive.identity.device_id (m.pair.responder_session P sig_b)
      m.received.now offer.encode = .ok (m.admitted P sig_b offer)) {file : Bytes}
    (hopen : m.received.open_file = .ok file) {db : Option ResumeDb}
    (hdb : m.receive.open_record m.received (m.admitted P sig_b offer) = .ok db)
    (hheld : ReceiveCall.held_at_start (m.admitted P sig_b offer) db = .ok held)
    {payloads : List Bytes} (hcourse : Course P (m.sender_channel P sig_b)
      (m.receiver_channel P sig_b) offer.encode (range_request m.send.pending.ctx held).encode
      payloads out back chunks last a') :
    ∃ (route_watch : RouteWatch) (s₀ : Receiving),
      route_watch.policy = m.receive.admission.policy ∧ ∀ {script r arrival},
      Follows frames (run (m.receive.receive_object P m.received (m.admitted P sig_b offer)
          { m.receiver_channel P sig_b with receive_watermark := 1, send_counter := 1 })
        ⟨.start m.send.pending.ctx db held route_watch file, []⟩) script (.done (r, arrival)) →
      Follows frames (run (m.receive.receive_file P m.received) (.start m.replay))
        ((handshake_script P m.pair sig_a sig_b).map Line.dual ++
          ([.recv out, .send back] ++ script))
        (.done (r.map fun (digest, total, route) => ReceiveCall.report
          (m.pair.responder_session P sig_b) (m.admitted P sig_b offer) digest total route,
          { s₀ with opened := some (m.admitted P sig_b offer), arrival := some arrival })) := by
  obtain ⟨pushed, route, hpath⟩ := h.receive_path
  obtain ⟨replay, hreplay⟩ : ∃ replay, m.replay.check_and_insert m.send.identity.device_id
      m.sent.start.nonce = (true, replay) := ⟨_, Prod.ext h.fresh rfl⟩
  have hback := hcourse.request
  rw [← admitted_request ht sig_b offer] at hback
  refine ⟨.new route m.receive.admission.policy m.received.watch,
    ⟨replay, [] ++ pushed, none, none⟩, rfl, fun {script r arrival} hobject => ?_⟩
  unfold ReceiveCall.receive_file
  refine (plays_receive_connect h.accept hpath h.accept_bi _).follows ?_
  refine (plays_respond hx hkem hpair hreplay).follows ?_
  refine (hcourse.offer.plays_expect hD (m.channels_inTouch P sig_b) _).follows ?_
  refine (Talk.plays_fallible hadmits _).follows ?_
  refine (plays_open_destination hdb hheld hopen h.resized _).follows ?_
  refine (hback.plays_send _).follows ?_
  have hwithin := follows_within hobject (fun arrival s => { s with arrival := some arrival })
    (⟨replay, [] ++ pushed, some (m.admitted P sig_b offer), none⟩ : Receiving)
  rcases r with e | ⟨digest, total, route⟩
  · exact follows_early hwithin
  · exact Plays.then_quiet hwithin (plays_pure _ _)

/-- Both sides put their acknowledgement, and what it acknowledges, in the same place. -/
theorem Calm.plays_receive (h : m.Calm P content) (hE : P.Encrypts) (hD : P.Decrypts)
    (hx : P.Exchanges) (hkem : P.Decapsulates) (ht : m.send.pending.Source P content)
    (hpair : m.pair.Sound P sig_a sig_b)
    (hadmits : admit_offer P m.receive.identity.device_id (m.pair.responder_session P sig_b)
      m.received.now offer.encode = .ok (m.admitted P sig_b offer)) {file : Bytes}
    (hopen : m.received.open_file = .ok file) {db : Option ResumeDb}
    (hdb : m.receive.open_record m.received (m.admitted P sig_b offer) = .ok db)
    (hheld : ReceiveCall.held_at_start (m.admitted P sig_b offer) db = .ok held)
    (hdbs : ∀ d ∈ db, d.record.identity.chunk_count = m.send.pending.ctx.chunk_count)
    (hstart : Starts m.send.pending.ctx content file held)
    (hsound : ∀ i ∈ (range_request m.send.pending.ctx held).indices,
      Sound P m.send.pending content i (record i) (payload i))
    (hcourse : Course P (m.sender_channel P sig_b) (m.receiver_channel P sig_b) offer.encode
      (range_request m.send.pending.ctx held).encode
      ((range_request m.send.pending.ctx held).indices.map payload) out back chunks last a') :
    ∃ ack b' arrival s, InTouch { a' with send_counter := a'.send_counter + 1 } b' ∧
      Conveys P b' FRAME_COMPLETE (encode_ack 0 (P.blake3 content)) ack ∧
      Plays frames (m.receive.receive_file P m.received) (.start m.replay)
        ((handshake_script P m.pair sig_a sig_b ++
          transfer_script out back chunks last ack).map Line.dual)
        (ReceiveCall.report (m.pair.responder_session P sig_b) (m.admitted P sig_b offer)
          (P.blake3 content) (range_request m.send.pending.ctx held).chunk_total
          arrival.recv.route_watch.last) s ∧
      m.Opens s ∧ s.arrival = some arrival ∧ arrival.recv.file = content ∧
      completed m.send.pending.secrets.transfer_id m.send.pending.secrets.object_id
        (P.blake3 content) <:+ arrival.recv.events := by
  obtain ⟨route_watch, s₀, hpolicy, hfollows⟩ :=
    h.receive_follows hD hx hkem ht hpair hadmits hopen hdb hheld hcourse
  have hfew : (range_request m.send.pending.ctx held).indices.length <
      m.received.turns.length := by
    have hle := RangeRequest.length_indices_le (range_request_sorted m.send.pending.ctx held)
    rw [hstart.count] at hle
    exact Nat.lt_of_le_of_lt hle h.enough_turns
  obtain ⟨recv, hrun, hwhole⟩ := exists_whole hD ht hstart hdbs route_watch hsound hfew
    (hpolicy ▸ h.turns)
  rw [← admitted_incoming ht sig_b offer] at hrun
  obtain ⟨ack, b', arrival, hb', hack, hobject, hfile, hevents⟩ := plays_receive_object hE hD
    m.receive hcourse.chunks hcourse.last
    (((m.channels_inTouch P sig_b).next 1).symm.next 1).symm
    (show (1 : UInt64) < MAX_FRAMES_PER_EPOCH by decide) (s := ⟨_, []⟩) hrun hwhole h.sync_all
    h.reread h.remove_record ht.digest
  refine ⟨ack, b', arrival, { s₀ with
    opened := some (m.admitted P sig_b offer), arrival := some arrival }, hb', hack, ?_,
    ⟨_, rfl, rfl, fun _ => rfl⟩, rfl, hfile, hevents⟩
  rw [List.map_append, transfer_script_dual]
  exact hfollows hobject

end Plays

/-- Both calls go through one script, which starts with the handshake. -/
theorem Calm.exists_plays (hE : P.Encrypts) (hD : P.Decrypts) (hV : DeviceIdentity.Verifies P)
    (hx : P.Exchanges) (hkem : P.Decapsulates) (h : m.Calm P content) :
    ∃ sig_a sig_b script report events route s arrival,
      m.pair.Sound P sig_a sig_b ∧ handshake_script P m.pair sig_a sig_b <+: script ∧
      Plays frames (m.send.send_pending P m.sent) [] script report events ∧
      Plays frames (m.receive.receive_file P m.received) (.start m.replay)
        (script.map Line.dual) { report with
          peer_device_id := m.send.identity.device_id
          peer_endpoint_id := m.send.local_endpoint_id
          route := route } s ∧ m.Opens s ∧
      report.peer_device_id = m.receive.identity.device_id ∧
      report.peer_endpoint_id = m.receive.local_endpoint_id ∧
      report.plaintext_digest = P.blake3 content ∧
      s.arrival = some arrival ∧ arrival.recv.file = content ∧
      completed report.transfer_id report.object_id (P.blake3 content) <:+ events ∧
      completed report.transfer_id report.object_id (P.blake3 content) <:+
        arrival.recv.events := by
  obtain ⟨secrets, size, hprepare⟩ := h.prepared
  have ht := PendingTransfer.prepare.source h.length hprepare
  obtain ⟨sig_a, sig_b, hpair⟩ := h.handshake
  obtain ⟨offer, hoffer, hsize, hadmits⟩ := h.offer hE hD hV ht sig_b
  obtain ⟨file, hopen, -⟩ := h.destination
  obtain ⟨db, held, hdb, hheld, hdbs, hstart⟩ :=
    h.starts ht.prepared.geometry hopen sig_b offer
  have hsorted := range_request_sorted m.send.pending.ctx held
  rw [hstart.count] at hsorted
  obtain ⟨record, payload, out, back, chunks, last, a', hsound, hcourse⟩ :=
    h.exists_frames hE hD ht sig_b hsize held (fun i hi => RangeRequest.indices_lt hsorted hi)
      (RangeRequest.length_indices_le hsorted)
  obtain ⟨ack, b', arrival, s, hb', hack, hreceive, hopens, harrival, hfile, hevents⟩ :=
    h.plays_receive hE hD hx hkem ht hpair hadmits hopen hdb hheld hdbs hstart hsound hcourse
  rw [← ht.digest] at hack
  obtain ⟨route, events, hsend⟩ := h.plays_send hD ht hpair hoffer hstart.count hsound hcourse hb'
    hack
  have hreport : ReceiveCall.report (m.pair.responder_session P sig_b) (m.admitted P sig_b offer)
      (P.blake3 content) (range_request m.send.pending.ctx held).chunk_total
      arrival.recv.route_watch.last =
      { m.send.report P m.sent (m.pair.initiator_session P sig_b) offer
          (range_request m.send.pending.ctx held) route with
        peer_device_id := m.send.identity.device_id
        peer_endpoint_id := m.send.local_endpoint_id
        route := arrival.recv.route_watch.last } := by
    rw [← ht.digest]
    rfl
  rw [hreport] at hreceive
  refine ⟨sig_a, sig_b, _, _, _, _, s, arrival, hpair, List.prefix_append .., hsend, hreceive,
    hopens, rfl, rfl, ht.digest, harrival, hfile, ?_, hevents⟩
  rw [← ht.digest]
  exact List.suffix_append _ _

/-- A file of three chunks at most is sent from one device to another. The other one has this
record at its state path and this much at the destination. -/
def sampleMeeting (pending : PendingTransfer) (content : Bytes) (stored : Option ResumeRecord)
    (file : Bytes) : Meeting where
  send := ⟨samplePair.initiator, samplePair.initiator_endpoint, samplePair.responder_endpoint,
    pending, "a.txt", .new .Any⟩
  sent :=
    { connect := .ok samplePair.responder_endpoint
      path := ⟨.Unknown, 0, []⟩
      watch := 0
      open_bi := .ok ()
      start := samplePair.start
      finish := samplePair.finish
      open_file := .ok ()
      now := 1000
      draws := ⟨.replicate 24 16, .replicate 24 17, .replicate 32 18⟩
      file := fun _ => .ok content
      look := fun _ => (0, .Unknown) }
  receive := ⟨samplePair.responder, samplePair.responder_endpoint, "a.txt", true, .new .Any⟩
  received :=
    { accept := .accepted samplePair.initiator_endpoint
      path := ⟨.Unknown, 0, []⟩
      watch := 0
      accept_bi := .ok ()
      hello := samplePair.hello
      now := 1001
      stored := stored
      open_file := .ok file
      set_len := .ok ()
      turns := List.replicate 4 sampleAnswers
      sync_all := .ok ()
      checkpoint := .ok ()
      reread := .ok ()
      remove_file := .ok ()
      remove_record := .ok () }
  replay := ⟨[], []⟩

theorem sampleMeeting_calm {pending : PendingTransfer} {secrets : FileSecrets} {content : Bytes}
    {stored : Option ResumeRecord} {file : Bytes} (hlen : content.length < 2 ^ 64)
    (h : PendingTransfer.prepare sample secrets (.ok (.ofNat content.length)) (.ok content) 65536 =
      .ok pending) (hcount : pending.ctx.chunk_count.toNat ≤ 3)
    (hdest : ∀ r ∈ stored, r.durable.gaps ≤ MAX_RANGES_PER_REQUEST ∧ ∀ i, r.durable.Has i →
      region pending.ctx (set_len 0 file pending.ctx.logical_plaintext_size.toNat) i =
        region pending.ctx content i) :
    (sampleMeeting pending content stored file).Calm sample content where
  length := hlen
  prepared := ⟨secrets, 65536, h⟩
  unchanged _ := rfl
  small := Nat.le_trans hcount (by decide)
  name := show PrivateManifest.text_len "a.txt" ≤ MAX_TEXT_LEN by decide
  peer := rfl
  connect := rfl
  accept := rfl
  send_path := ⟨_, _, rfl⟩
  receive_path := ⟨_, _, rfl⟩
  looks _ := rfl
  turns := by
    intro a ha
    rw [List.eq_of_mem_replicate ha]
    exact ⟨rfl, rfl, rfl, rfl⟩
  enough_turns := Nat.lt_succ_of_le hcount
  handshake := samplePair.exists_sound (by decide) (by decide +kernel)
  fresh := rfl
  signs := TransferOffer.sample_signs _ _
  clock := show (1000 : UInt64).toNat + ENVELOPE_TTL_SECS.toNat < 2 ^ 64 by decide
  later := show (1000 : UInt64) ≤ 1001 by decide
  in_time := show (1001 : UInt64) < 1000 + ENVELOPE_TTL_SECS by decide
  open_bi := rfl
  accept_bi := rfl
  open_source := rfl
  resized := rfl
  sync_all := rfl
  reread := rfl
  remove_record := rfl
  destination := ⟨file, rfl, by
    rintro _ _ ⟨-, r, hr, -, rfl⟩
    exact hdest r hr⟩

/-- A file of one byte, and nothing at the destination. -/
def oneByte (pending : PendingTransfer) : Meeting := sampleMeeting pending [7] none []

/-- There is a file of one byte that was prepared. -/
theorem exists_oneByte : ∃ pending : PendingTransfer, (oneByte pending).Calm sample [7] := by
  let secrets : FileSecrets :=
    ⟨.replicate 32 1, .replicate 32 2, .replicate 32 3, .replicate 32 4⟩
  have hctx : ObjectContext.for_file secrets.transfer_id secrets.object_id 1 65536 =
      some transfer.oneByte := by decide
  have hlen : transfer.oneByte.encoded_plaintext_size.toNat ≤ ([7] : Bytes).length := by decide
  obtain ⟨t, -, hprepare, ht, -⟩ := PendingTransfer.prepare_ok sample sample_encrypts hctx hlen
  exact ⟨t, sampleMeeting_calm (by decide) hprepare (by rw [ht]; decide) (by simp)⟩

/-- Two calls over a link that loses nothing, without faults. However their steps are
interleaved and the streams are cut, both return, and they agree on the object, its bytes
and its digest. Each names the other as its peer, the destination has the file, and both
have told that it is complete. -/
theorem both_calls_return_and_their_reports_agree (hE : P.Encrypts) (hD : P.Decrypts)
    (hV : DeviceIdentity.Verifies P) (hx : P.Exchanges) (hkem : P.Decapsulates)
    (h : m.Calm P content) :
    ∃ report events route s arrival,
      Settles frames (m.link P) (.ok report, events) (.ok { report with
        peer_device_id := m.send.identity.device_id
        peer_endpoint_id := m.send.local_endpoint_id
        route := route }, s) ∧
      report.peer_device_id = m.receive.identity.device_id ∧
      report.peer_endpoint_id = m.receive.local_endpoint_id ∧
      report.plaintext_digest = P.blake3 content ∧
      s.arrival = some arrival ∧ arrival.recv.file = content ∧
      completed report.transfer_id report.object_id (P.blake3 content) <:+ events ∧
      completed report.transfer_id report.object_id (P.blake3 content) <:+
        arrival.recv.events := by
  obtain ⟨_, _, _, report, events, route, s, arrival, -, -, hsend, hreceive, -, hfacts⟩ :=
    h.exists_plays hE hD hV hx hkem
  exact ⟨report, events, route, s, arrival, settles_of_follows hsend hreceive, hfacts⟩

theorem both_calls_return_for_one_byte : ∃ (m : Meeting) (report : TransferReport)
    (events : List Event) (route : Route) (s : Receiving) (arrival : Arrival),
    Settles frames (m.link sample) (.ok report, events) (.ok { report with
      peer_device_id := m.send.identity.device_id
      peer_endpoint_id := m.send.local_endpoint_id
      route := route }, s) ∧
    s.arrival = some arrival ∧ arrival.recv.file = [7] := by
  obtain ⟨pending, hcalm⟩ := exists_oneByte
  obtain ⟨report, events, route, s, arrival, hsettles, -, -, -, harrival, hfile, -⟩ :=
    both_calls_return_and_their_reports_agree sample_encrypts sample_decrypts
      DeviceIdentity.sample_verifies sample_exchanges sample_decapsulates hcalm
  exact ⟨_, report, events, route, s, arrival, hsettles, harrival, hfile⟩

end Meeting

end rtp2_core.transfer
