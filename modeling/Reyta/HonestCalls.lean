-- The parts of a session along a script, while nothing goes wrong: the handshake, the
-- frames of the control channel, the chunks and the destination. Each part is played by
-- one side, and its frames are those that the other side plays.
import Reyta.HandshakeAgreement
import Reyta.ReceiveFile
import Reyta.SendPending
import Reyta.StreamingDigest

open byte_string early_exit exact_parse file_region stream_party stream_party.Session

namespace rtp2_core.transfer

open bitmap crypto events handshake identity keys manifest merkle object offer resume route
open scheduler
open control (ControlChannel MAX_FRAMES_PER_EPOCH)

/-! ## The handshake -/

section Handshake

variable {σ : Type} {P : Primitives}

theorem send_plain_frame_of_le {payload : Bytes} (frame_type : UInt8)
    (h : payload.length ≤ MAX_CONTROL_BODY) :
    send_plain_frame frame_type payload = .ok (plain_wire frame_type payload) := by
  have hhead : header_bytes frame_type 0 0 payload.length 0 =
      .ok (header_fields (12 + 0 + payload.length) frame_type 0 0) := by
    refine header_bytes_eq_ok.2 ⟨?_, rfl⟩
    unfold MAX_CONTROL_BODY at h
    unfold MAX_FRAME
    omega
  unfold send_plain_frame plain_wire
  rw [hhead]
  rfl

theorem plays_send_plain_wire {payload : Bytes} (frame_type : UInt8)
    (h : payload.length ≤ MAX_CONTROL_BODY) (s : σ) :
    Plays frames (Talk.send_plain_frame frame_type payload : Talk σ Unit) s
      [.send (plain_wire frame_type payload)] () s :=
  Talk.plays_send_plain (send_plain_frame_of_le frame_type h) s

theorem plays_expect_plain_wire {frame_type : UInt8} {payload : Bytes}
    (htype : frame_type ≠ FRAME_CHUNK) (h : payload.length ≤ MAX_CONTROL_BODY) (s : σ) :
    Plays frames (Talk.expect_plain_frame frame_type : Talk σ Bytes) s
      [.recv (plain_wire frame_type payload)] payload s := by
  have hlimit : body_limit frame_type = MAX_CONTROL_BODY := if_neg htype
  exact Talk.plays_expect_plain (send_plain_frame_of_le frame_type h) (hlimit ▸ h) s

variable {h : handshake.Pair} {sig_a sig_b : HybridSignature}

/-- The four frames of a handshake, as the initiator sees them. -/
def handshake_script (P : Primitives) (h : handshake.Pair) (sig_a sig_b : HybridSignature) :
    List (Line UInt8) :=
  [.send (plain_wire FRAME_CLIENT_HELLO (h.ch P).encode),
    .recv (plain_wire FRAME_SERVER_HELLO (h.sh_bytes P sig_b)),
    .send (plain_wire FRAME_CLIENT_FINISH (h.cf_bytes P sig_a sig_b)),
    .recv (plain_wire FRAME_SERVER_FINISH (encode_server_finish (h.mac_b P sig_b)))]

theorem length_ch_le (P : Primitives) (h : handshake.Pair) :
    (h.ch P).encode.length ≤ MAX_CONTROL_BODY :=
  ClientHello.length_encode_le (Initiator.hello_inRange _ _ _)

theorem length_sh_le (P : Primitives) (h : handshake.Pair) (sig_b : HybridSignature) :
    (h.sh_bytes P sig_b).length ≤ MAX_CONTROL_BODY := by
  have halpn : (h.sh P).alpn.length ≤ 64 := show ALPN.length ≤ 64 by decide
  exact ServerHello.length_encode_le halpn sig_b

theorem plays_initiate (hs : h.Sound P sig_a sig_b) (s : σ) :
    Plays frames (Talk.initiate P h.initiator h.initiator_endpoint h.responder_endpoint h.start
        h.finish : Talk σ SessionKeys) s (handshake_script P h sig_a sig_b)
      (h.initiator_session P sig_b) s := by
  have hstart : Initiator.start P h.initiator h.initiator_endpoint h.responder_endpoint h.start =
      (⟨h.initiator, .AwaitServerHello h.start.ex_secret h.start.kem (h.ch P).encode
        h.responder_endpoint⟩, (h.ch P).encode) := rfl
  have hanswer : (⟨h.initiator, .AwaitServerHello h.start.ex_secret h.start.kem (h.ch P).encode
      h.responder_endpoint⟩ : Initiator).on_server_hello P h.finish (h.sh_bytes P sig_b) =
        (.ok (h.cf_bytes P sig_a sig_b), ⟨h.initiator, h.awaits_server_finish P sig_b⟩) := by
    unfold Initiator.on_server_hello
    simp only [handshake.Pair.initiator_answers hs]
  have haccept : ((⟨h.initiator, h.awaits_server_finish P sig_b⟩ : Initiator).on_server_finish P
      (encode_server_finish (h.mac_b P sig_b))).1 = .ok (h.initiator_session P sig_b) := by
    unfold handshake.Pair.awaits_server_finish Initiator.on_server_finish
    simp only [handshake.Pair.initiator_accepts]
  unfold Talk.initiate
  rw [hstart]
  refine (plays_send_plain_wire FRAME_CLIENT_HELLO (length_ch_le P h) s).bind ?_
  refine (plays_expect_plain_wire (by decide) (length_sh_le P h sig_b) s).bind ?_
  rw [hanswer]
  refine (Talk.plays_fallible rfl s).after_quiet ?_
  refine (plays_send_plain_wire FRAME_CLIENT_FINISH (ClientFinish.length_encode_full_le _)
    s).bind ?_
  refine (plays_expect_plain_wire (by decide) (length_encode_server_finish_le _) s).then_quiet ?_
  rw [haccept]
  exact Talk.plays_fallible rfl s

theorem plays_respond (hx : P.Exchanges) (hkem : P.Decapsulates) (hs : h.Sound P sig_a sig_b)
    {s : Receiving} {replay : ReplayCache}
    (hfresh : s.replay.check_and_insert h.initiator.device_id h.start.nonce = (true, replay)) :
    Plays frames (Talk.respond P h.responder h.responder_endpoint h.initiator_endpoint h.hello) s
      ((handshake_script P h sig_a sig_b).map Line.dual) (h.responder_session P sig_b)
      { s with replay } := by
  have hdec : ClientHello.decode (h.ch P).encode = .ok (h.ch P) :=
    ClientHello.decode_encode (Initiator.hello_inRange _ _ _)
  have hanswer : (Responder.new h.responder h.responder_endpoint).on_client_hello P
      (h.ch P).encode h.initiator_endpoint s.replay h.hello =
        (.ok (h.sh_bytes P sig_b),
          ⟨h.responder, h.responder_endpoint, h.awaits_client_finish P sig_b⟩, replay) := by
    have hanswer := handshake.Pair.responder_answers hs
    unfold Responder.new at hanswer
    have hkey : s.replay.check_and_insert (h.ch P).cert.device_id (h.ch P).nonce =
      (true, replay) := hfresh
    unfold Responder.on_client_hello Responder.new
    simp only [hdec, handshake.Pair.hello_passes hs, hkey, hanswer]
  have haccept : ((⟨h.responder, h.responder_endpoint,
      h.awaits_client_finish P sig_b⟩ : Responder).on_client_finish P
        (h.cf_bytes P sig_a sig_b)).1 =
          .ok (encode_server_finish (h.mac_b P sig_b), h.responder_session P sig_b) := by
    unfold handshake.Pair.awaits_client_finish Responder.on_client_finish
    simp only [handshake.Pair.responder_accepts hx hkem hs]
  unfold Talk.respond
  refine (plays_expect_plain_wire (by decide) (length_ch_le P h) s).bind ?_
  refine (plays_read s).after_quiet ?_
  rw [hanswer]
  refine (plays_change _ s).after_quiet ?_
  refine (Talk.plays_fallible rfl _).after_quiet ?_
  refine (plays_send_plain_wire FRAME_SERVER_HELLO (length_sh_le P h sig_b) _).bind ?_
  refine (plays_expect_plain_wire (by decide) (ClientFinish.length_encode_full_le _) _).bind ?_
  refine (Talk.plays_fallible (congrArg (Except.mapError _) haccept) _).after_quiet ?_
  exact (plays_send_plain_wire FRAME_SERVER_FINISH (length_encode_server_finish_le _)
    _).then_quiet (plays_pure _ _)

end Handshake

/-! ## Frames of the control channel -/

section Frames

variable {σ : Type} {P : Primitives} {a a' b : ControlChannel} {frame_type : UInt8}
  {payload bytes : Bytes}

/-- Each channel opens what the other one seals next. -/
structure InTouch (a b : ControlChannel) : Prop where
  there : InStep a b
  back : InStep b a

theorem InTouch.symm (h : InTouch a b) : InTouch b a := ⟨h.back, h.there⟩

theorem InTouch.next (h : InTouch a b) (counter : UInt64) :
    InTouch { a with send_counter := counter } { b with receive_watermark := counter } :=
  ⟨h.there.received counter, ⟨h.back.direction, h.back.keys, h.back.watermark⟩⟩

/-- The next frame of the channel in its first epoch, within the limits of both sides. -/
structure Conveys (P : Primitives) (a : ControlChannel) (frame_type : UInt8)
    (payload bytes : Bytes) : Prop where
  sealed : ∃ c, Sealed P a frame_type payload c ∧ c.length ≤ body_limit frame_type ∧
    bytes = wire frame_type a.keys.epoch a.send_counter c
  epoch : a.keys.epoch = 0

theorem exists_conveys (hE : P.Encrypts) (frame_type : UInt8) (payload : Bytes)
    (hepoch : a.keys.epoch = 0) (hcounter : a.send_counter < MAX_FRAMES_PER_EPOCH)
    (hlen : payload.length + 16 ≤ body_limit frame_type) :
    ∃ bytes, Conveys P a frame_type payload bytes := by
  have hlimit : body_limit frame_type ≤ MAX_DATA_BODY := by
    unfold body_limit
    split_ifs <;> decide
  unfold MAX_DATA_BODY at hlimit
  obtain ⟨c, hc, hsize⟩ := hE (a.keys.key_for a.send_direction)
    (control.control_nonce P a.send_direction a.keys.epoch a.send_counter)
    (control.control_aad a.send_direction a.keys.epoch a.send_counter frame_type 0 0) payload
    (by omega)
  refine ⟨_, ⟨c, ⟨hcounter, hc, ?_⟩, by omega, rfl⟩, hepoch⟩
  unfold MAX_FRAME
  omega

theorem Conveys.plays_send (h : Conveys P a frame_type payload bytes) (s : σ) :
    Plays frames (Talk.send_frame P a frame_type payload : Talk σ ControlChannel) s
      [.send bytes] { a with send_counter := a.send_counter + 1 } s := by
  obtain ⟨c, hc, -, rfl⟩ := h.sealed
  exact Talk.plays_send hc s

variable (hD : P.Decrypts) (htouch : InTouch a b)
include hD htouch

theorem Conveys.plays_recv (h : Conveys P a frame_type payload bytes) (s : σ) :
    Plays frames (Talk.recv_frame P b : Talk σ ((UInt8 × Bytes) × ControlChannel)) s
      [.recv bytes] ((frame_type, payload), { b with receive_watermark := a.send_counter + 1 })
      s := by
  obtain ⟨c, hc, hlimit, rfl⟩ := h.sealed
  exact Talk.plays_recv hc hD htouch.there hlimit (by rw [h.epoch]; decide) s

theorem Conveys.plays_expect (h : Conveys P a frame_type payload bytes) (s : σ) :
    Plays frames (Talk.expect_frame P b frame_type : Talk σ (Bytes × ControlChannel)) s
      [.recv bytes] (payload, { b with receive_watermark := a.send_counter + 1 }) s := by
  obtain ⟨c, hc, hlimit, rfl⟩ := h.sealed
  exact Talk.plays_expect hc hD htouch.there hlimit (by rw [h.epoch]; decide) s

end Frames

/-- Frames of one type, one after the other, from `a` to `a'`. -/
inductive ConveysAll (P : Primitives) (frame_type : UInt8) :
    ControlChannel → List Bytes → List Bytes → ControlChannel → Prop
  | nil (a : ControlChannel) : ConveysAll P frame_type a [] [] a
  | cons {a a' payload payloads bytes out} (h : Conveys P a frame_type payload bytes)
      (hrest : ConveysAll P frame_type { a with send_counter := a.send_counter + 1 } payloads out
        a') :
      ConveysAll P frame_type a (payload :: payloads) (bytes :: out) a'

theorem exists_conveysAll {P : Primitives} (hE : P.Encrypts) (frame_type : UInt8)
    {payloads : List Bytes} {a : ControlChannel} (hepoch : a.keys.epoch = 0)
    (hcounter : a.send_counter.toNat + payloads.length < 2 ^ 32)
    (hlen : ∀ payload ∈ payloads, payload.length + 16 ≤ body_limit frame_type) :
    ∃ out a', ConveysAll P frame_type a payloads out a' ∧ a'.keys = a.keys ∧
      a'.send_counter.toNat = a.send_counter.toNat + payloads.length := by
  induction payloads generalizing a with
  | nil => exact ⟨[], a, .nil a, rfl, rfl⟩
  | cons payload payloads ih =>
    rw [List.length_cons] at hcounter
    have hmax : a.send_counter < MAX_FRAMES_PER_EPOCH := by
      rw [UInt64.lt_iff_toNat_lt]
      exact Nat.lt_of_lt_of_le (by omega) (show 2 ^ 32 ≤ MAX_FRAMES_PER_EPOCH.toNat by decide)
    have hsucc := ControlChannel.toNat_succ_counter hmax
    obtain ⟨bytes, hfirst⟩ := exists_conveys hE frame_type payload hepoch hmax
      (hlen payload List.mem_cons_self)
    obtain ⟨out, a', hrest, hkeys, hcount⟩ :=
      ih (a := { a with send_counter := a.send_counter + 1 }) hepoch (by simp only; omega)
        fun p hp => hlen p (List.mem_cons_of_mem _ hp)
    refine ⟨_, a', .cons hfirst hrest, hkeys, ?_⟩
    simp only at hcount
    rw [hcount, hsucc, List.length_cons]
    omega

/-! ## The chunks -/

section Chunks

variable {P : Primitives} {call : SendCall} {answers : SendAnswers}

theorem prepare_ahead_of_ok {record : UInt64 → Bytes} {position : Nat} {indices : List UInt64}
    (h : ∀ i ∈ indices, call.pending.produce P ⟨answers.file position, i⟩ = .ok (record i)) :
    call.prepare_ahead P answers position indices = .ok (indices.head?.map record) := by
  cases indices with
  | nil => rfl
  | cons i rest =>
    exact congrArg (Except.map some) (h i List.mem_cons_self)

/-- The sender gets through the chunks that were asked for. -/
theorem plays_send_loop {record : UInt64 → Bytes} {indices : List UInt64}
    (hrecord : ∀ position, ∀ i ∈ indices,
      call.pending.produce P ⟨answers.file position, i⟩ = .ok (record i))
    (hlen : ∀ i ∈ indices, ∃ len, call.pending.ctx.chunk_len i = some len) {policy : RoutePolicy}
    (hroute : ∀ position, policy.admits (answers.look position).2 = true)
    {s : Sending} (hpolicy : s.route_watch.policy = policy) {out : List Bytes}
    {control : ControlChannel}
    (hc : ConveysAll P FRAME_CHUNK s.control (indices.map record) out control)
    (total : UInt64) (position : Nat) (events : List Event) :
    ∃ s' events', Plays frames (call.send_loop P answers total position
        (indices.head?.map record) s indices) events (out.map .send) s' events' ∧
      s'.control = control := by
  induction indices generalizing s out position events with
  | nil =>
    cases hc
    exact ⟨s, events, plays_pure s events, rfl⟩
  | cons i rest ih =>
    cases hc with
    | cons hfirst hrest =>
      obtain ⟨len, hi⟩ := hlen i List.mem_cons_self
      have hadmits : s.route_watch.policy.admits (answers.look position).2 = true := by
        rw [hpolicy]
        exact hroute position
      obtain ⟨hpoll, hstays⟩ := RouteWatch.poll_with_of_admits hadmits
        call.pending.secrets.transfer_id (answers.look position).1
      have hahead := prepare_ahead_of_ok fun j hj =>
        hrecord (position + 1) j (List.mem_cons_of_mem _ hj)
      obtain ⟨s', events', hloop, hcontrol⟩ := ih
        (fun k j hj => hrecord k j (List.mem_cons_of_mem _ hj))
        (fun j hj => hlen j (List.mem_cons_of_mem _ hj))
        (s := ⟨_, _, s.sent_bytes + len.toUInt64, s.sent_chunks + 1⟩) (hstays.trans hpolicy) hrest
        (position + 1) _
      refine ⟨s', events', ?_, hcontrol⟩
      unfold SendCall.send_loop
      refine (Talk.plays_stopping (unwrap_eq_ok.2 rfl) events).after_quiet ?_
      refine (Talk.plays_stopping (unwrap_eq_ok.2 hi) events).after_quiet ?_
      refine (hfirst.plays_send events).bind ?_
      refine (Talk.plays_stopping hahead events).after_quiet ?_
      refine (plays_change _ events).after_quiet ?_
      refine (Talk.plays_fallible hpoll _).after_quiet ?_
      refine (plays_change _ _).after_quiet ?_
      exact hloop

/-- The chunks, and the end of the stream. -/
theorem plays_send_chunks {record : UInt64 → Bytes} {request : RangeRequest}
    (hrecord : ∀ position, ∀ i ∈ request.indices,
      call.pending.produce P ⟨answers.file position, i⟩ = .ok (record i))
    (hlen : ∀ i ∈ request.indices, ∃ len, call.pending.ctx.chunk_len i = some len)
    (route_watch : RouteWatch)
    (hroute : ∀ position, route_watch.policy.admits (answers.look position).2 = true)
    {a a' : ControlChannel} {out : List Bytes} {last : Bytes}
    (hc : ConveysAll P FRAME_CHUNK a (request.indices.map record) out a')
    (hend : Conveys P a' FRAME_STREAM_END [] last) (events : List Event) :
    ∃ s events', Plays frames (call.send_chunks P answers route_watch request a) events
        (out.map .send ++ [.send last]) s events' ∧
      s.control = { a' with send_counter := a'.send_counter + 1 } := by
  obtain ⟨s, events', hloop, rfl⟩ := plays_send_loop hrecord hlen hroute
    (s := ⟨a, route_watch, 0, 0⟩) rfl hc request.chunk_total 0 _
  refine ⟨{ s with control := { s.control with send_counter := s.control.send_counter + 1 } },
    events', ?_, rfl⟩
  unfold SendCall.send_chunks
  refine (plays_change _ events).after_quiet ?_
  refine (Talk.plays_stopping (prepare_ahead_of_ok (hrecord 0)) _).after_quiet ?_
  exact hloop.bind ((hend.plays_send events').then_quiet (plays_pure _ events'))

variable {session : SessionKeys} {a b : ControlChannel}

/-- The offer is answered with a request for chunks of the object. -/
theorem plays_offer_file (hD : P.Decrypts) {offer : TransferOffer}
    (hoffer : make_offer P call.identity session call.pending call.file_name
      call.local_endpoint_id answers.now answers.draws = .ok offer) {out back : Bytes}
    (hout : Conveys P a FRAME_OFFER offer.encode out)
    (htouch : InTouch { a with send_counter := a.send_counter + 1 } b) {request : RangeRequest}
    (hback : Conveys P b FRAME_RANGE_REQUEST request.encode back)
    (hrequest : RangeRequest.decode request.encode call.pending.ctx.chunk_count = .ok request)
    (htransfer : request.transfer_id = call.pending.secrets.transfer_id)
    (hobject : request.object_id = call.pending.secrets.object_id) (events : List Event) :
    Plays frames (call.offer_file P answers session a) events [.send out, .recv back]
      (offer, request, { a with
        send_counter := a.send_counter + 1, receive_watermark := b.send_counter + 1 })
      events := by
  unfold SendCall.offer_file
  refine (Talk.plays_fallible hoffer events).after_quiet ?_
  refine (hout.plays_send events).bind ?_
  refine (hback.plays_expect hD htouch.symm events).then_quiet ?_
  refine (Talk.plays_fallible (congrArg (Except.mapError _) hrequest) events).after_quiet ?_
  have hnames : ¬ (request.transfer_id ≠ call.pending.secrets.transfer_id ∨
      request.object_id ≠ call.pending.secrets.object_id) := by
    simp [htransfer, hobject]
  refine (Talk.plays_fallible (r := ()) (refuse_if_eq_ok.2 hnames) events).after_quiet ?_
  exact plays_pure _ events

theorem plays_await_ack (hD : P.Decrypts) {back : Bytes} (htouch : InTouch a b)
    (hback : Conveys P b FRAME_COMPLETE (encode_ack 0 call.pending.plaintext_digest) back)
    (events : List Event) :
    Plays frames (call.await_ack P a) events [.recv back] () events := by
  unfold SendCall.await_ack
  refine (hback.plays_expect hD htouch.symm events).then_quiet ?_
  refine (Talk.plays_fallible (decode_encode_ack _ _) events).after_quiet ?_
  refine (Talk.plays_fallible (r := ()) (refuse_if_eq_ok.2 (by simp)) events).after_quiet ?_
  exact Talk.plays_fallible (refuse_if_eq_ok.2 (by simp [ct_eq])) events

variable {t : Incoming}

/-- Only the end of the stream ends the loop. -/
theorem turn_eq_done {u : Turn} {s s' : Recv} (h : exec (turn P t u) s = (.ok .done, s')) :
    s' = s ∧ ∃ payload, u.frame = .ok (FRAME_STREAM_END, payload) := by
  unfold turn at h
  rw [exec_bind] at h
  rcases hframe : u.frame with e | ⟨frame_type, payload⟩
  · rw [hframe] at h
    cases h
  · rw [hframe] at h
    simp only [exec, lift] at h
    split_ifs at h with hchunk hend
    · change exec (lift (check_chunk P t s.held payload) >>= _) s = _ at h
      rw [exec_bind] at h
      rcases hcheck : check_chunk P t s.held payload with e | _ | ⟨index, p⟩
      · rw [hcheck] at h
        cases h
      · rw [hcheck] at h
        cases h
      · rw [hcheck] at h
        change exec (accept t.ctx u.answers index p >>= fun _ => pure Flow.next) s = _ at h
        rw [exec_bind] at h
        rcases hacc : exec (accept t.ctx u.answers index p) s with ⟨e | _, s₁⟩
        · rw [hacc] at h
          cases h
        · rw [hacc] at h
          cases h
    · cases h
      exact ⟨rfl, payload, by rw [hend]⟩
    · cases h

theorem plays_on_recv {α : Type} {x : Act α} {s : Arrival} {r : α} {recv : Recv}
    (h : exec x s.recv = (.ok r, recv)) :
    Plays frames (Talk.on_recv x) s [] r { s with recv } := by
  apply plays_act
  change ((exec x s.recv).1.mapError Halt.Err, { s with recv := (exec x s.recv).2 }) = _
  rw [h]
  rfl

/-- The receiver does with the frames what the loop does with the turns. -/
theorem plays_receive_chunks (hD : P.Decrypts) {payloads out : List Bytes} {last : Bytes}
    {a a' b : ControlChannel} (hc : ConveysAll P FRAME_CHUNK a payloads out a')
    (hend : Conveys P a' FRAME_STREAM_END [] last) (htouch : InTouch a b) {ans : List Answers}
    {s : Arrival} {recv : Recv}
    (hrun : exec (receive_loop P t (chunk_turns payloads ans)) s.recv = (.ok .done, recv)) :
    ∃ b', InTouch { a' with send_counter := a'.send_counter + 1 } b' ∧
      b'.send_counter = b.send_counter ∧
      Plays frames (ReceiveCall.receive_chunks P t b ans) s (out.map .recv ++ [.recv last]) b'
        { s with recv } := by
  induction hc generalizing b ans s with
  | nil a =>
    cases ans with
    | nil => cases hrun
    | cons answer rest =>
      refine ⟨_, htouch.next _, rfl, ?_⟩
      have hturn : exec (turn P t ⟨.ok (FRAME_STREAM_END, []), answer⟩) s.recv =
          (.ok .done, s.recv) := rfl
      cases hrun
      unfold ReceiveCall.receive_chunks
      refine (hend.plays_recv hD htouch s).then_quiet ?_
      refine (plays_on_recv hturn).after_quiet ?_
      exact plays_pure _ _
  | @cons a a' payload payloads bytes out hfirst hrest ih =>
    cases ans with
    | nil => cases hrun
    | cons answer rest =>
      unfold receive_loop chunk_turns each at hrun
      rw [exec_bind] at hrun
      rcases hturn : exec (turn P t ⟨.ok (FRAME_CHUNK, payload), answer⟩) s.recv with
        ⟨e | _ | _, recv₁⟩
      · rw [hturn] at hrun
        cases hrun
      · rw [hturn] at hrun
        obtain ⟨b', hb', hcount, hplays⟩ := ih hend (htouch.next _) (s := { s with recv := recv₁ })
          hrun
        refine ⟨b', hb', hcount, ?_⟩
        unfold ReceiveCall.receive_chunks
        refine (hfirst.plays_recv hD htouch s).bind ?_
        exact (plays_on_recv hturn).after_quiet hplays
      · obtain ⟨-, _, hframe⟩ := turn_eq_done hturn
        cases hframe

end Chunks

/-! ## The number of chunks -/

section Tally

variable {P : Primitives} {t : Incoming} {ctx : ObjectContext} {a : Answers} {index : UInt64}
  {p : Bytes}

/-- The counter of the attempt has the chunks that were written. -/
def Recv.Tallied (s : Recv) : Prop := s.received_this_attempt = .ofNat s.accepted.length

/-- One chunk was written and is not counted yet. -/
def Recv.Behind (s : Recv) : Prop := s.received_this_attempt + 1 = .ofNat s.accepted.length

theorem write_chunk_behind :
    Spec Recv.Tallied (write_chunk ctx a index p) (fun _ => Recv.Behind) (fun _ _ => True) := by
  intro s hs
  unfold exec write_chunk
  rcases a.write with ⟨n, e⟩ | _
  · exact .inr ⟨_, _, rfl, trivial⟩
  · refine .inl ⟨(), _, rfl, ?_⟩
    unfold Recv.Tallied at hs
    unfold Recv.Behind
    simp only [Recv.accepted, List.filterMap_append, List.length_append] at hs ⊢
    rw [hs, UInt64.ofNat_add]
    rfl

theorem set_held_tallied :
    Spec Recv.Behind (set_held index) (fun _ => Recv.Tallied) (fun _ _ => True) := by
  intro s hs
  unfold exec set_held
  split
  · exact .inr ⟨_, _, rfl, trivial⟩
  · exact .inl ⟨(), _, rfl, hs⟩

theorem mark_verified_behind :
    Spec Recv.Behind (mark_verified index) (fun _ => Recv.Behind) (fun _ _ => True) := by
  intro s hs
  unfold exec mark_verified
  split
  · exact .inl ⟨(), s, rfl, hs⟩
  · split
    · exact .inr ⟨_, _, rfl, trivial⟩
    · exact .inl ⟨(), _, rfl, hs⟩

theorem Recv.Tallied.still {x : Act Unit}
    (hx : ∀ s, (exec x s).2.received_this_attempt = s.received_this_attempt ∧
      (exec x s).2.accepted = s.accepted) :
    Spec Recv.Tallied x (fun _ => Recv.Tallied) (fun _ _ => True) := by
  apply (Spec.always_iff.2 _).weaken (fun _ h => h) (fun _ _ h => h) (fun _ _ _ => trivial)
  intro s hs
  obtain ⟨hreceived, haccepted⟩ := hx s
  unfold Recv.Tallied
  rw [hreceived, haccepted]
  exact hs

theorem accept_tallied :
    Spec Recv.Tallied (accept ctx a index p) (fun _ => Recv.Tallied) (fun _ _ => True) := by
  refine Spec.bind (Spec.bind write_chunk_behind fun _ => Spec.bind mark_verified_behind fun _ =>
    set_held_tallied) fun _ => Spec.bind (Recv.Tallied.still ?poll) fun _ =>
    Spec.bind (Recv.Tallied.still ?digest) fun _ =>
    Spec.bind (Recv.Tallied.still ?progress) fun _ => Recv.Tallied.still ?written
  case poll => exact fun s => ⟨rfl, rfl⟩
  case digest => exact fun s => ⟨rfl, rfl⟩
  case progress => exact fun s => ⟨rfl, rfl⟩
  case written =>
    intro s
    rcases chunk_written_exec index a s with ⟨-, he⟩ | ⟨db, db', effects, result, -, hw, he⟩
    · rw [he]
      exact ⟨rfl, rfl⟩
    · rw [he]
      simp only [Recv.accepted, List.filterMap_append, written_nil hw, List.append_nil, and_self]

/-- After any frames, as long as no error ended the loop. -/
theorem receive_loop_tallied {us : List Turn} :
    Spec Recv.Tallied (receive_loop P t us) (fun _ => Recv.Tallied) (fun _ _ => True) := by
  apply Spec.each
  intro u _
  apply turn_spec (fun _ _ _ => trivial)
  intro s index p hs _
  apply accept_tallied.weaken _ (fun _ _ h => h) (fun _ _ h => h)
  rintro s' rfl
  exact hs

end Tally

/-! ## The destination -/

section Destination

variable {P : Primitives} {call : ReceiveCall} {answers : ReceiveAnswers} {admitted : Admitted}

/-- Without a chunk there is one gap at most. -/
theorem gaps_le_one {b : ChunkBitmap} (h : ∀ i, ¬ b.Has i) : b.gaps ≤ 1 := by
  have hzero : ∀ i < b.chunk_count.toNat, bit b.bits i = false := by
    intro i hi
    have hbit := h (.ofNat i)
    rw [ChunkBitmap.Has, UInt64.toNat_ofNat_of_lt' (Nat.lt_trans hi (UInt64.toNat_lt _))] at hbit
    exact Bool.eq_false_iff.2 hbit
  unfold ChunkBitmap.gaps bit_run.zero_run_count
  by_cases hpos : 1 ≤ b.chunk_count.toNat
  · rw [bit_run.count_eq_of_none hpos]
    · exact Nat.count_le _
    · intro j hj hlt hstarts
      simp [bit_run.starts_zeros, hzero (j - 1) (by omega), Nat.ne_of_gt hj] at hstarts
  · exact Nat.le_trans (Nat.count_le _) (by omega)

/-- The bitmap is that of a record at the state path for the object. -/
def ReceiveCall.Claimed (call : ReceiveCall) (answers : ReceiveAnswers) (identity : ObjectIdentity)
    (held : ChunkBitmap) : Prop :=
  call.resume_state = true ∧
    ∃ r ∈ answers.stored, r.identity.matches identity = true ∧ r.durable = held

theorem chunk_count_of_matches {a b : ObjectIdentity} (h : a.matches b = true) :
    a.chunk_count = b.chunk_count := by
  have hcore : a.core.chunk_count = b.core.chunk_count := by rw [ObjectIdentity.matches_iff.1 h]
  exact hcore

/-- The receiver starts from the bitmap of the record, or from an empty one. -/
theorem exists_open_record (call : ReceiveCall) (answers : ReceiveAnswers)
    (hg : admitted.ctx.Geometry) :
    ∃ db held, call.open_record answers admitted = .ok db ∧
      ReceiveCall.held_at_start admitted db = .ok held ∧
      held.chunk_count = admitted.ctx.chunk_count ∧
      (∀ d ∈ db, d.record.identity.chunk_count = admitted.ctx.chunk_count) ∧
      (call.Claimed answers admitted.object_identity held ∨ ∀ i, ¬ held.Has i) := by
  have hcount : admitted.object_identity.chunk_count ≤ bitmap.MAX_CHUNK_COUNT := by
    rw [UInt64.le_iff_toNat_le]
    exact hg.count_le
  unfold ReceiveCall.open_record
  by_cases hstate : call.resume_state = true
  · obtain ⟨fresh, hfresh⟩ := ResumeRecord.new_of_le call.dest hcount
    obtain ⟨r, hr⟩ : ∃ r, ResumeDb.open answers.stored admitted.object_identity call.dest =
        .ok r := by
      unfold ResumeDb.open
      rw [hfresh]
      split
      · exact ⟨_, rfl⟩
      · exact ⟨_, rfl⟩
    have hadopts := ResumeDb.open_adopts hr
    have hidentity : r.1.record.identity.chunk_count = admitted.ctx.chunk_count := by
      rcases hadopts with ⟨-, hmatches⟩ | hnew
      · exact chunk_count_of_matches hmatches
      · rw [(ResumeRecord.new_eq_ok hnew).1]
        rfl
    refine ⟨some r.1, r.1.record.durable, ?_, rfl, r.1.record.durable_count.trans hidentity, ?_,
      ?_⟩
    · rw [if_pos hstate, hr]
      rfl
    · rintro d ⟨⟩
      exact hidentity
    · rcases hadopts with ⟨hstored, hmatches⟩ | hnew
      · exact .inl ⟨hstate, r.1.record, hstored, hmatches, rfl⟩
      · exact .inr fun i => ((ResumeRecord.new_eq_ok hnew).2.2 i).2
  · obtain ⟨held, hnew⟩ : ∃ held, ChunkBitmap.new admitted.ctx.chunk_count = .ok held := by
      have hle : ¬ admitted.ctx.chunk_count > bitmap.MAX_CHUNK_COUNT := UInt64.not_lt.2 hcount
      unfold ChunkBitmap.new
      rw [dif_neg hle]
      exact ⟨_, rfl⟩
    obtain ⟨hchunks, hnone⟩ := ChunkBitmap.new_eq_ok hnew
    refine ⟨none, held, if_neg hstate, ?_, hchunks, by simp, .inr hnone⟩
    exact congrArg (Except.mapError _) hnew

theorem plays_open_destination {db : Option ResumeDb} {held : ChunkBitmap} {file : Bytes}
    (hdb : call.open_record answers admitted = .ok db)
    (hheld : ReceiveCall.held_at_start admitted db = .ok held)
    (hopen : answers.open_file = .ok file) (hset : answers.set_len = .ok ()) (s : Receiving) :
    Plays frames (call.open_destination answers admitted) s [] (db, held, file)
      { s with opened := some admitted } := by
  refine (Talk.plays_fallible hdb s).after_quiet ?_
  refine (Talk.plays_io hopen s).after_quiet ?_
  refine (plays_change _ s).after_quiet ?_
  refine (Talk.plays_io hset _).after_quiet ?_
  exact (Talk.plays_fallible hheld _).after_quiet (plays_pure _ _)

end Destination

/-! ## The connection -/

section Connection

/-- The sender dials the other side over a path that is admitted. -/
theorem plays_send_connect {call : SendCall} {answers : SendAnswers}
    (hconnect : answers.connect = .ok call.peer) {pushed : List Event} {route : Route}
    (hpath : admit_route call.pending.secrets.transfer_id call.admission answers.path =
      some (pushed, .ok route)) (hopen : answers.open_bi = .ok ()) (events : List Event) :
    Plays frames (call.connect answers) events []
      (.new route call.admission.policy answers.watch) (events ++ pushed) := by
  unfold SendCall.connect
  refine (Talk.plays_io hconnect events).after_quiet ?_
  refine (Talk.plays_fallible (r := ()) (refuse_if_eq_ok.2 (by simp)) events).after_quiet ?_
  refine (Talk.plays_waiting hpath events).after_quiet ?_
  refine (plays_change _ events).after_quiet ?_
  refine (Talk.plays_fallible rfl _).after_quiet ?_
  exact (Talk.plays_io hopen _).after_quiet (plays_pure _ _)

theorem plays_receive_connect {call : ReceiveCall} {answers : ReceiveAnswers} {peer : Arr 32}
    (haccept : answers.accept = .accepted peer) {pushed : List Event} {route : Route}
    (hpath : admit_route (.replicate 32 0) call.admission answers.path = some (pushed, .ok route))
    (hopen : answers.accept_bi = .ok ()) (s : Receiving) :
    Plays frames (call.connect answers) s [] (peer, .new route call.admission.policy answers.watch)
      { s with events := s.events ++ pushed } := by
  unfold ReceiveCall.connect
  refine (Talk.plays_fallible (congrArg Accepting.result haccept) s).after_quiet ?_
  refine (Talk.plays_waiting hpath s).after_quiet ?_
  refine (plays_change _ s).after_quiet ?_
  refine (Talk.plays_fallible rfl _).after_quiet ?_
  exact (Talk.plays_io hopen _).after_quiet (plays_pure _ _)

end Connection

/-! ## The end of the stream -/

section Completion

variable {P : Primitives} {call : ReceiveCall} {answers : ReceiveAnswers} {admitted : Admitted}

theorem plays_remove_record (h : answers.remove_record = .ok ()) (s : Arrival) :
    ∃ removed, Plays frames (ReceiveCall.remove_record answers) s [] ()
      { s with removed := s.removed ++ removed } := by
  by_cases hdb : s.recv.db.isSome = true
  · refine ⟨[.remove_record], plays_act ?_⟩
    unfold exec
    simp only [hdb, if_true, h]
  · refine ⟨[], plays_act ?_⟩
    unfold exec
    simp only [hdb, List.append_nil]
    rfl

/-- A complete file with the digest that was announced is kept. -/
theorem plays_complete (call : ReceiveCall) {s : Arrival}
    (hcomplete : s.recv.held.is_complete = true) (hsync : answers.sync_all = .ok ())
    {digest : Arr 32} (hdigest : exec (plaintext_digest P admitted.ctx answers.reread)
      { s.recv with effects := s.recv.effects ++ [.sync] } =
        (.ok digest, { s.recv with effects := s.recv.effects ++ [.sync] }))
    (hsame : digest = admitted.disclosed.plaintext_digest)
    (hremove : answers.remove_record = .ok ()) :
    ∃ s', Plays frames (call.complete P answers admitted) s [] digest s' ∧
      s'.recv = { s.recv with
        effects := s.recv.effects ++ [.sync]
        events := s.recv.events ++ completed admitted.opened.secrets.transfer_id
          admitted.opened.secrets.object_id digest } := by
  obtain ⟨removed, hremoved⟩ := plays_remove_record hremove
    { s with recv := { s.recv with effects := s.recv.effects ++ [.sync] } }
  refine ⟨⟨_, s.removed ++ removed⟩, ?_, rfl⟩
  unfold ReceiveCall.complete
  refine (plays_on_recv (settle_complete hcomplete hsync)).after_quiet ?_
  refine (plays_on_recv hdigest).after_quiet ?_
  have hct : ¬ ct_eq digest.bytes admitted.disclosed.plaintext_digest.bytes = false := by
    simp [ct_eq, hsame]
  rw [if_neg hct]
  refine hremoved.after_quiet ?_
  exact (plays_change _ _).after_quiet (plays_pure _ _)

end Completion

/-! ## The source -/

section Source

variable {P : Primitives} {schedule : FileKeySchedule} {ctx : ObjectContext} {ctx_hash : Arr 32}
  {content : Bytes}

/-- The pass over the file hashes what it has read. -/
theorem run_hashed {n : Nat} {s : Pass}
    (h : Pass.run P schedule ctx ctx_hash (.ok content) n = .ok s) :
    s.hashed = content.take s.position := by
  induction n generalizing s with
  | zero =>
    obtain rfl := pure_eq_ok.1 h
    rfl
  | succ n ih =>
    obtain ⟨s₁, hrun, hnext⟩ := bind_eq_ok.1 h
    obtain ⟨len, p, c, -, hread, -, rfl⟩ := (Pass.next_eq_ok P).1 hnext
    obtain ⟨_, ⟨⟩, -, rfl⟩ := read_exact_eq_ok.1 hread
    rw [ih hrun, List.take_add]
    rfl

/-- What was prepared from a file. -/
structure PendingTransfer.Source (P : Primitives) (t : PendingTransfer) (content : Bytes) :
    Prop where
  prepared : t.Prepared P (.ok content)
  root : t.ciphertext_root = merkle_root P t.leaves
  for_file : ∃ size, ObjectContext.for_file t.secrets.transfer_id t.secrets.object_id
    (.ofNat content.length) size = some t.ctx
  ctx_hash : t.ctx_hash = t.ctx.context_hash P
  schedule : t.schedule = t.secrets.key_schedule P
  length : content.length = t.ctx.encoded_plaintext_size.toNat
  digest : t.plaintext_digest = P.blake3 content

theorem PendingTransfer.Source.ids {t : PendingTransfer} (h : t.Source P content) :
    t.ctx.transfer_id = t.secrets.transfer_id ∧ t.ctx.object_id = t.secrets.object_id := by
  obtain ⟨size, hfile⟩ := h.for_file
  obtain ⟨-, -, hctx⟩ := ObjectContext.for_file_eq_some.1 hfile
  rw [← hctx]
  exact ⟨rfl, rfl⟩

theorem PendingTransfer.prepare.source {secrets : FileSecrets} {size : UInt32}
    {t : PendingTransfer} (hlen : content.length < 2 ^ 64)
    (h : prepare P secrets (.ok (.ofNat content.length)) (.ok content) size = .ok t) :
    t.Source P content := by
  have hprepared := prepare.spec P h
  have hroot := prepare.root P h
  unfold prepare at h
  simp only [bind_eq_ok, ok_or_eq_ok, pure_eq_ok] at h
  obtain ⟨_, ⟨⟩, ctx, hctx, _, -, s, hs, rfl⟩ := h
  have hg := ObjectContext.for_file_geometry hctx
  have hsize : content.length = ctx.encoded_plaintext_size.toNat := by
    obtain ⟨-, -, rfl⟩ := ObjectContext.for_file_eq_some.1 hctx
    exact (UInt64.toNat_ofNat_of_lt' hlen).symm
  refine ⟨hprepared, hroot, ⟨size, hctx⟩, rfl, rfl, hsize, ?_⟩
  have hposition := (Pass.run_inv P hg (Nat.le_refl _) hs).position
  have hwhole : s.hashed = content := by
    rw [run_hashed hs, hposition, Nat.min_eq_right hg.covers, ← hsize, List.take_length]
  exact congrArg P.blake3 hwhole

/-- Files of the same chunks are the same. -/
theorem eq_of_regions {file : Bytes} (hg : ctx.Geometry)
    (hfile : file.length = ctx.encoded_plaintext_size.toNat)
    (hcontent : content.length = ctx.encoded_plaintext_size.toNat)
    (h : ∀ i < ctx.chunk_count, region ctx file i = region ctx content i) : file = content := by
  rw [← front_all hg hfile, ← front_all hg hcontent]
  apply front_congr
  intro i hi
  apply h
  rw [UInt64.lt_iff_toNat_lt, UInt64.toNat_ofNat_of_lt' (Nat.lt_trans hi (UInt64.toNat_lt _))]
  exact hi

end Source

end rtp2_core.transfer
