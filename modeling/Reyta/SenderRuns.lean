-- The sender against any other side, at any moment of a call. In the clear it sends its two
-- messages of the handshake. All else is sealed in the session that they gave: the offer,
-- the records of the chunks that the receiver asked for, in their order, and the end of
-- the stream. Delivery is claimed only for an acknowledgement with the digest of the file.
import Reyta.ChannelDeeds
import Reyta.HandshakeRuns
import Reyta.SendPending

open byte_string early_exit exact_parse stream_party

namespace rtp2_core.events

/-- The event says that something is complete. -/
def Event.Completes : Event → Prop
  | .ObjectCompleted .. => True
  | .TransferCompleted .. => True
  | _ => False

end rtp2_core.events

namespace rtp2_core.handshake

open crypto identity

/-- An initiator that answers was shown the endpoint that it expects. -/
theorem Initiator.answer_endpoint {P : Primitives} {identity : DeviceIdentity}
    {ex_secret : Arr 32} {kem : Arr 64} {ch_bytes : Bytes} {expected : Arr 32}
    {random : FinishRandom} {sh_bytes cf_bytes : Bytes} {state : InitiatorState}
    (h : answer P identity ex_secret kem ch_bytes expected random sh_bytes =
      .ok (cf_bytes, state)) :
    ∃ keys th2 mac_a peer, state = .AwaitServerFinish keys th2 mac_a peer expected := by
  unfold answer at h
  obtain ⟨⟨sh, sig_b⟩, -, h⟩ := bind_eq_ok.1 h
  obtain ⟨_, -, h⟩ := bind_eq_ok.1 h
  obtain ⟨_, -, h⟩ := bind_eq_ok.1 h
  obtain ⟨_, -, h⟩ := bind_eq_ok.1 h
  obtain ⟨_, hendpoint, h⟩ := bind_eq_ok.1 h
  obtain ⟨_, -, h⟩ := bind_eq_ok.1 h
  obtain ⟨_, -, h⟩ := bind_eq_ok.1 h
  obtain ⟨⟨ct_to_b, ss_pq_b⟩, -, h⟩ := bind_eq_ok.1 h
  obtain ⟨_, -, h⟩ := bind_eq_ok.1 h
  cases pure_eq_ok.1 h
  have hendpoint : sh.endpoint_id = expected := by simpa using refuse_if_eq_ok.1 hendpoint
  exact ⟨_, _, _, _, by rw [hendpoint]⟩

end rtp2_core.handshake

namespace rtp2_core.transfer

open crypto events handshake identity keys manifest object offer route scheduler Talk Session
open control (ControlChannel)

/-- Nothing was said to be complete. -/
def Quiet (s : List Event) : Prop := ∀ e ∈ s, ¬ e.Completes

theorem quiet_singleton {e : Event} (h : ¬ e.Completes) : Quiet [e] := by
  intro e' he
  rwa [List.mem_singleton.1 he]

theorem Quiet.append {s pushed : List Event} (hs : Quiet s) (hp : Quiet pushed) :
    Quiet (s ++ pushed) := by
  intro e he
  rcases List.mem_append.1 he with he | he
  · exact hs e he
  · exact hp e he

/-! ## Panics -/

/-- It does not panic. -/
def NoPanic {α : Type} (x : Except Stop α) : Prop := x ≠ .error .Panic

theorem NoPanic.bind {α β : Type} {x : Except Stop α} {f : α → Except Stop β} (hx : NoPanic x)
    (hf : ∀ b, NoPanic (f b)) : NoPanic (x >>= f) := by
  rcases x with e | b
  · intro h
    exact hx (by rw [Except.error.inj h])
  · exact hf b

theorem noPanic_mapError {ε α : Type} (x : Except ε α) (f : ε → TransferError) :
    NoPanic (x.mapError fun e => .Err (f e)) := by
  rcases x with e | b <;> exact nofun

theorem noPanic_ok_or {α : Type} (e : TransferError) (o : Option α) : NoPanic (ok_or e o) := by
  rcases o with _ | b <;> exact nofun

theorem noPanic_refuse_if (p : Prop) [Decidable p] (e : TransferError) :
    NoPanic (refuse_if p (.Err e)) := by
  unfold refuse_if
  split <;> exact nofun

/-- The making of a record panics only for a chunk that the object does not have. -/
theorem PendingTransfer.produce_noPanic {P : Primitives} {t : PendingTransfer} {call : Call}
    {len : UInt32} (hlen : t.ctx.chunk_len call.index = some len) : NoPanic (t.produce P call) := by
  unfold PendingTransfer.produce produce_chunk_record chunk_record
  rw [hlen]
  refine .bind (.bind nofun fun len => .bind ?_ fun c => .bind (noPanic_mapError _ _) fun _ =>
    nofun) fun _ => nofun
  unfold chunk_ciphertext
  split
  · exact nofun
  · refine .bind (.bind (noPanic_mapError _ _) fun content => ?_) fun p => noPanic_ok_or _ _
    exact .bind (noPanic_refuse_if _ _) fun _ => nofun

theorem NoPanic.halt_ne {α : Type} {x : Except Stop α} {e : Stop} (hx : NoPanic x)
    (h : x = .error e) : e.halt ≠ .Panic := by
  rcases e with e | _
  · exact nofun
  · exact absurd h hx

namespace SendCall

variable (P : Primitives) (call : SendCall) (a : SendAnswers)

/-! ## What may leave -/

def started : Initiator × Bytes :=
  Initiator.start P call.identity call.local_endpoint_id call.peer a.start

def hello_frame : Bytes := plain_wire FRAME_CLIENT_HELLO (call.started P a).2

def answered (sh : Bytes) : Except HandshakeError Bytes × Initiator :=
  (call.started P a).1.on_server_hello P a.finish sh

/-- What left before the handshake was complete. -/
inductive Greeted : List Bytes → Prop
  | silent : Greeted []
  | hello : Greeted [call.hello_frame P a]
  | finish {sh cf : Bytes} (h : (call.answered P a sh).1 = .ok cf) :
      Greeted [call.hello_frame P a, plain_wire FRAME_CLIENT_FINISH cf]

/-- The handshake is complete with this session, and nothing else was done. -/
def Agreed (session : SessionKeys) (h : List FrameDeed) : Prop :=
  ∃ (sh sf : Numbered) (cf : Bytes), (call.answered P a sh.1.body).1 = .ok cf ∧
    ((call.answered P a sh.1.body).2.on_server_finish P sf.1.body).1 = .ok session ∧
    h = [.wrote (call.hello_frame P a), .got false (.ok sh),
      .wrote (plain_wire FRAME_CLIENT_FINISH cf), .got false (.ok sf)]

def channel (session : SessionKeys) : ControlChannel :=
  .new P session.handshake_prk session.th2 .ClientToServer

/-- The offer of the call. -/
def Offers (session : SessionKeys) (offer : TransferOffer) : Prop :=
  make_offer P call.identity session call.pending call.file_name call.local_endpoint_id a.now
    a.draws = .ok offer

/-- Only the offer has left, and now a request for this object was read and opened. -/
def Requested (session : SessionKeys) (h₀ : List FrameDeed) (offer : TransferOffer)
    (request : RangeRequest) (h : List FrameDeed) : Prop :=
  ∃ c bytes c', Heard P (channel P session) h₀ [(FRAME_OFFER, offer.encode)] c
      ((FRAME_RANGE_REQUEST, bytes), c') h ∧
    RangeRequest.decode bytes call.pending.ctx.chunk_count = .ok request ∧
    request.transfer_id = call.pending.secrets.transfer_id ∧
    request.object_id = call.pending.secrets.object_id

/-- The records are those of the chunks, one after the other from the first on. -/
def Produces (indices : List UInt64) (records : List Bytes) : Prop :=
  ∀ k record, records[k]? = some record → ∃ index, indices[k]? = some index ∧
    call.pending.produce P ⟨a.file k, index⟩ = .ok record

/-- The offer and the records. -/
def sending (offer : TransferOffer) (records : List Bytes) : List (UInt8 × Bytes) :=
  (FRAME_OFFER, offer.encode) :: records.map (FRAME_CHUNK, ·)

/-- What was given to the channel of the session. -/
inductive Released (session : SessionKeys) (h₀ h : List FrameDeed) : List (UInt8 × Bytes) → Prop
  | nothing : Released session h₀ h []
  | offered {offer : TransferOffer} (ho : call.Offers P a session offer) :
      Released session h₀ h (sending offer [])
  | chunks {offer : TransferOffer} {request : RangeRequest} {h₁ : List FrameDeed}
      {records : List Bytes} (ho : call.Offers P a session offer)
      (hr : call.Requested P session h₀ offer request h₁) (hh : h₁ <+: h)
      (hp : call.Produces P a request.indices records) :
      Released session h₀ h (sending offer records)
  | ended {offer : TransferOffer} {request : RangeRequest} {h₁ : List FrameDeed}
      {records : List Bytes} (ho : call.Offers P a session offer)
      (hr : call.Requested P session h₀ offer request h₁) (hh : h₁ <+: h)
      (hp : call.Produces P a request.indices records)
      (hall : records.length = request.indices.length) :
      Released session h₀ h (sending offer records ++ [(FRAME_STREAM_END, [])])

/-- Where a call can be. -/
inductive Reached (h : List FrameDeed) : Prop
  | greeting (hg : call.Greeted P a (outputs h))
  | talking {session : SessionKeys} {h₀ : List FrameDeed} {asked : List (UInt8 × Bytes)}
      {c : ControlChannel} (ha : call.Agreed P a session h₀)
      (hw : Went P (channel P session) h₀ asked c h)
      (hr : call.Released P a session h₀ h asked)

variable {P call a}

/-! ## Earlier moments -/

theorem Greeted.of_prefix {outs outs' : List Bytes} (hg : call.Greeted P a outs)
    (hp : outs' <+: outs) : call.Greeted P a outs' := by
  cases hg with
  | silent =>
    rw [List.prefix_nil.1 hp]
    exact .silent
  | hello =>
    rcases outs' with _ | ⟨o, outs'⟩
    · exact .silent
    · obtain ⟨rfl, hrest⟩ := List.cons_prefix_cons.1 hp
      rw [List.prefix_nil.1 hrest]
      exact .hello
  | finish h =>
    rcases outs' with _ | ⟨o, _ | ⟨o', outs'⟩⟩
    · exact .silent
    · obtain ⟨rfl, -⟩ := List.cons_prefix_cons.1 hp
      exact .hello
    · obtain ⟨rfl, htail⟩ := List.cons_prefix_cons.1 hp
      obtain ⟨rfl, hrest⟩ := List.cons_prefix_cons.1 htail
      rw [List.prefix_nil.1 hrest]
      exact .finish h

theorem Agreed.greeted {session : SessionKeys} {h : List FrameDeed}
    (ha : call.Agreed P a session h) : call.Greeted P a (outputs h) := by
  obtain ⟨sh, sf, cf, hcf, -, rfl⟩ := ha
  exact .finish hcf

/-- The session is with the endpoint that was dialled. -/
theorem Agreed.peer {session : SessionKeys} {h : List FrameDeed}
    (ha : call.Agreed P a session h) : session.peer_endpoint_id = call.peer := by
  obtain ⟨sh, sf, cf, hcf, hsession, -⟩ := ha
  unfold answered started Initiator.start Initiator.on_server_hello at hcf hsession
  rcases hanswer : Initiator.answer P call.identity a.start.ex_secret a.start.kem
      (Initiator.hello P call.identity call.local_endpoint_id a.start).encode call.peer a.finish
      sh.1.body with e | ⟨cf', state⟩
  · simp only [hanswer] at hcf
    cases hcf
  · simp only [hanswer] at hsession
    obtain ⟨keys, th2, mac_a, peer, rfl⟩ := Initiator.answer_endpoint hanswer
    unfold Initiator.on_server_finish at hsession
    rcases haccept : Initiator.accept P keys th2 mac_a peer call.peer sf.1.body with e | session'
    · simp only [haccept] at hsession
      cases hsession
    · simp only [haccept] at hsession
      cases hsession
      rw [(Initiator.accept_eq_ok haccept).2]
      rfl

theorem Produces.of_prefix {indices : List UInt64} {records records' : List Bytes}
    (h : call.Produces P a indices records) (hp : records' <+: records) :
    call.Produces P a indices records' := by
  intro k record hk
  obtain ⟨rest, rfl⟩ := hp
  obtain ⟨hlt, -⟩ := List.getElem?_eq_some_iff.1 hk
  exact h k record (by rw [List.getElem?_append_left hlt, hk])

/-- What was asked before the offer was answered. -/
theorem Released.of_length_le {session : SessionKeys} {h₀ h h' : List FrameDeed}
    {asked asked' : List (UInt8 × Bytes)} (hr : call.Released P a session h₀ h asked)
    (hp : asked' <+: asked) (hlen : asked'.length ≤ 1) :
    call.Released P a session h₀ h' asked' := by
  have hfirst : ∀ {offer : TransferOffer} {rest : List (UInt8 × Bytes)},
      call.Offers P a session offer → asked' <+: (FRAME_OFFER, offer.encode) :: rest →
      call.Released P a session h₀ h' asked' := by
    intro offer rest ho hp
    rcases asked' with _ | ⟨x, _ | ⟨y, asked'⟩⟩
    · exact .nothing
    · obtain ⟨rfl, -⟩ := List.cons_prefix_cons.1 hp
      exact .offered ho
    · simp at hlen
  cases hr with
  | nothing =>
    rw [List.prefix_nil.1 hp]
    exact .nothing
  | offered ho => exact hfirst ho hp
  | chunks ho _ _ _ => exact hfirst ho hp
  | ended ho _ _ _ _ => exact hfirst ho hp

/-- A beginning of the offer and the records. -/
theorem prefix_sending {offer : TransferOffer} {records : List Bytes}
    {asked : List (UInt8 × Bytes)} (hp : asked <+: sending offer records) (hne : asked ≠ []) :
    ∃ records', records' <+: records ∧ asked = sending offer records' := by
  rcases asked with _ | ⟨x, asked⟩
  · exact absurd rfl hne
  · obtain ⟨rfl, hrest⟩ := List.cons_prefix_cons.1 hp
    obtain ⟨records', hrecords, rfl⟩ := List.prefix_map_iff.1 hrest
    exact ⟨records', hrecords, rfl⟩

theorem Released.of_prefix {session : SessionKeys} {h₀ h h' : List FrameDeed}
    {asked asked' : List (UInt8 × Bytes)} {c : ControlChannel}
    (hr : call.Released P a session h₀ h asked) (hp : asked' <+: asked) (hh' : h' <+: h)
    (hw : Went P (channel P session) h₀ asked' c h') :
    call.Released P a session h₀ h' asked' := by
  by_cases hlen : asked'.length ≤ 1
  · exact hr.of_length_le hp hlen
  -- More than the offer has left, so the request had arrived.
  have hrequested : ∀ {offer : TransferOffer} {request : RangeRequest} {h₁ : List FrameDeed},
      call.Requested P session h₀ offer request h₁ → h₁ <+: h → h₁ <+: h' := by
    intro offer request h₁ hreq hh
    rcases List.prefix_or_prefix_of_prefix hh' hh with hle | hle
    · obtain ⟨_, _, _, hheard, -⟩ := hreq
      have hlt := (prefix_outputs hle).length_le
      have h₁len := hheard.went.length_outputs
      have hlen' := hw.length_outputs
      simp only [List.length_singleton] at h₁len
      omega
    · exact hle
  have hne : asked' ≠ [] := by
    rintro rfl
    simp at hlen
  cases hr with
  | nothing =>
    rw [List.prefix_nil.1 hp] at hne
    exact absurd rfl hne
  | offered ho =>
    have := hp.length_le
    simp [sending] at this hlen
    omega
  | chunks ho hreq hh hprod =>
    obtain ⟨records', hrecords, rfl⟩ := prefix_sending hp hne
    exact .chunks ho hreq (hrequested hreq hh) (hprod.of_prefix hrecords)
  | ended ho hreq hh hprod hall =>
    rcases List.prefix_concat_iff.1 hp with rfl | hp
    · exact .ended ho hreq (hrequested hreq hh) hprod hall
    · obtain ⟨records', hrecords, rfl⟩ := prefix_sending hp hne
      exact .chunks ho hreq (hrequested hreq hh) (hprod.of_prefix hrecords)

/-- What holds at the end of a call held at every moment of it. -/
theorem Reached.of_prefix {h h' : List FrameDeed} (hr : call.Reached P a h) (hp : h' <+: h) :
    call.Reached P a h' := by
  cases hr with
  | greeting hg => exact .greeting (hg.of_prefix (prefix_outputs hp))
  | talking ha hw hr =>
    rcases hw.of_prefix hp with hp₀ | ⟨asked', c', hasked, hw'⟩
    · exact .greeting (ha.greeted.of_prefix (prefix_outputs hp₀))
    · exact .talking ha hw' (hr.of_prefix hasked hp hw')

/-! ## The parts of a call -/

/-- However the call is left early: it does not panic, and it has told of nothing
complete. -/
def Fails (P : Primitives) (call : SendCall) (a : SendAnswers) (e : Halt) (h : List FrameDeed)
    (s : List Event) : Prop :=
  e ≠ .Panic ∧ call.Reached P a h ∧ Quiet s

theorem meets_push {p : List FrameDeed → Prop} {r : Halt → List FrameDeed → List Event → Prop}
    {pushed : List Event} (hp : Quiet pushed) :
    Meets (fun h s => p h ∧ Quiet s) (push pushed) (fun _ h s => p h ∧ Quiet s) r := by
  apply Meets.act
  · intro h s _ s' hs hexec
    cases hexec
    exact ⟨hs.1, hs.2.append hp⟩
  · intro h s e s' _ hexec
    cases hexec

theorem quiet_admit_route {transfer_id : Arr 32} {admission : RouteAdmission} {path : PathLooks}
    {pushed : List Event} {admitted : Except TransferError Route}
    (h : admit_route transfer_id admission path = some (pushed, admitted)) : Quiet pushed := by
  unfold admit_route at h
  obtain ⟨route, -, heq⟩ := Option.map_eq_some_iff.1 h
  cases heq
  exact quiet_singleton id

theorem quiet_poll_with (w : RouteWatch) (transfer_id : Arr 32) (now : Nat) (route : Route) :
    Quiet (w.poll_with transfer_id now route).2.1 := by
  rw [RouteWatch.poll_with_pushed]
  split
  · exact quiet_singleton id
  · exact nofun

/-- Before the first message. -/
theorem meets_connect :
    Meets (fun h s => h = [] ∧ Quiet s) (call.connect a) (fun _ h s => h = [] ∧ Quiet s)
      (call.Fails P a) := by
  have hfails : ∀ {e : Halt} {h : List FrameDeed} {s : List Event}, e ≠ .Panic →
      h = [] ∧ Quiet s → call.Fails P a e h s := by
    rintro e h s he ⟨rfl, hs⟩
    exact ⟨he, .greeting .silent, hs⟩
  refine .bind (meets_fallible fun e h s hp => hfails nofun hp) fun remote_id => ?_
  refine .bind (meets_fallible fun e h s hp => hfails nofun hp.2) fun _ => ?_
  refine .bind (meets_waiting fun h s hp => hfails nofun hp.2.2) ?_
  rintro ⟨pushed, admitted⟩
  refine .bind (q := fun _ h s => h = [] ∧ Quiet s) (.act ?_ ?_) fun _ => ?_
  · rintro h s _ s' ⟨hroute, -, -, rfl, hs⟩ hexec
    cases hexec
    exact ⟨rfl, hs.append (quiet_admit_route hroute)⟩
  · intro h s e s' _ hexec
    cases hexec
  refine .bind (meets_fallible fun e h s hp => hfails nofun hp) fun route => ?_
  refine .bind (meets_fallible fun e h s hp => hfails nofun hp.2) fun _ => ?_
  exact (Meets.pure _).weaken (fun h s hp => hp.2.2) (fun _ _ _ hq => hq) fun _ _ _ hr => hr

/-- The handshake: two frames leave in the clear, the second one as the answer. -/
theorem meets_initiate :
    Meets (fun h s => h = [] ∧ Quiet s)
      (initiate P call.identity call.local_endpoint_id call.peer a.start a.finish)
      (fun session h s => call.Agreed P a session h ∧ Quiet s) (call.Fails P a) := by
  refine .bind ((meets_send_plain_frame [] Quiet FRAME_CLIENT_HELLO
    (call.started P a).2).on_error ?_) fun _ => ?_
  · rintro e h s ⟨he, hout | hout, hs⟩
    · exact ⟨he.ne_panic, .greeting (hout ▸ .silent), hs⟩
    · exact ⟨he.ne_panic, .greeting (hout ▸ .hello), hs⟩
  refine .bind ((meets_expect_plain_frame _ Quiet FRAME_SERVER_HELLO).on_error ?_) fun body =>
    .of_exists fun sh => .assuming fun hsh => ?_
  · rintro e h s ⟨he, hout, hs⟩
    exact ⟨he.ne_panic, .greeting (hout ▸ .hello), hs⟩
  subst hsh
  refine .bind (meets_fallible ?_) fun cf => .assuming fun hcf => ?_
  · rintro e h s ⟨rfl, hs⟩
    exact ⟨nofun, .greeting .hello, hs⟩
  have hcf : (call.answered P a sh.1.body).1 = .ok cf := mapError_eq_ok.1 hcf
  refine .bind ((meets_send_plain_frame _ Quiet FRAME_CLIENT_FINISH cf).on_error ?_) fun _ => ?_
  · rintro e h s ⟨he, hout | hout, hs⟩
    · exact ⟨he.ne_panic, .greeting (hout ▸ .hello), hs⟩
    · exact ⟨he.ne_panic, .greeting (hout ▸ .finish hcf), hs⟩
  refine .bind ((meets_expect_plain_frame _ Quiet FRAME_SERVER_FINISH).on_error ?_) fun body =>
    .of_exists fun sf => .assuming fun hsf => ?_
  · rintro e h s ⟨he, hout, hs⟩
    exact ⟨he.ne_panic, .greeting (hout ▸ .finish hcf), hs⟩
  subst hsf
  refine (meets_fallible ?_).weaken (fun _ _ hp => hp) ?_ fun _ _ _ hr => hr
  · rintro e h s ⟨rfl, hs⟩
    exact ⟨nofun, .greeting (.finish hcf), hs⟩
  · rintro session h s ⟨hsession, rfl, hs⟩
    exact ⟨⟨sh, sf, cf, hcf, mapError_eq_ok.1 hsession, rfl⟩, hs⟩

section Session

variable {session : SessionKeys} {h₀ h₁ : List FrameDeed} {c : ControlChannel}
  {offer : TransferOffer} {request : RangeRequest} {records : List Bytes}

theorem Fails.of_within {plan : List (UInt8 × Bytes)} {e : Halt} {h : List FrameDeed}
    {s : List Event} (he : e ≠ .Panic) (ha : call.Agreed P a session h₀)
    (hw : Within P (channel P session) h₀ plan h) (hs : Quiet s)
    (hr : ∀ asked, asked <+: plan → call.Released P a session h₀ h asked) :
    call.Fails P a e h s := by
  obtain ⟨asked, c, hasked, hw⟩ := hw
  exact ⟨he, .talking ha hw (hr asked hasked), hs⟩

/-- Nothing or the offer. -/
theorem released_offer (ho : call.Offers P a session offer) (h : List FrameDeed)
    (asked : List (UInt8 × Bytes)) (hp : asked <+: sending offer []) :
    call.Released P a session h₀ h asked :=
  Released.of_length_le (h := h) (.offered ho) hp hp.length_le

theorem meets_offer_file (ha : call.Agreed P a session h₀) :
    Meets (fun h s => h = h₀ ∧ Quiet s) (call.offer_file P a session (channel P session))
      (fun x h s => call.Offers P a session x.1 ∧ call.Requested P session h₀ x.1 x.2.1 h ∧
        Went P (channel P session) h₀ (sending x.1 []) x.2.2 h ∧ Quiet s)
      (call.Fails P a) := by
  refine .bind (meets_fallible ?_) fun offer => .assuming fun ho => ?_
  · rintro e h s ⟨rfl, hs⟩
    exact ⟨nofun, .talking ha .start .nothing, hs⟩
  refine .bind ((meets_send_frame (channel P session) _ h₀ [] Quiet FRAME_OFFER
    offer.encode).weaken ?_ (fun _ _ _ hq => hq) ?_) fun c => ?_
  · rintro h s ⟨rfl, hs⟩
    exact ⟨.start, hs⟩
  · rintro e h s ⟨he, hw, hs⟩
    exact .of_within he.ne_panic ha hw hs (released_offer ho h)
  refine .bind ((meets_expect_frame _ c h₀ _ Quiet FRAME_RANGE_REQUEST).on_error ?_) ?_
  · rintro e h s ⟨he, hw, hs⟩
    exact .of_within he.ne_panic ha hw hs (released_offer ho h)
  rintro ⟨bytes, c'⟩
  have hfails : ∀ {x : TransferError} {h : List FrameDeed} {s : List Event},
      Heard P (channel P session) h₀ [(FRAME_OFFER, offer.encode)] c
        ((FRAME_RANGE_REQUEST, bytes), c') h → Quiet s → call.Fails P a (.Err x) h s := by
    intro x h s hh hs
    exact ⟨nofun, .talking ha hh.went (.offered ho), hs⟩
  refine .bind (meets_fallible fun e h s hp => hfails hp.1 hp.2) fun request => ?_
  refine .bind (meets_fallible fun e h s hp => hfails hp.2.1 hp.2.2) ?_
  rintro ⟨⟩
  refine .returning ?_
  rintro h s ⟨hnames, hdecode, hh, hs⟩
  have hnames := refuse_if_eq_ok.1 hnames
  simp only [not_or, not_not] at hnames
  exact ⟨ho, ⟨c, bytes, c', hh, mapError_eq_ok.1 hdecode, hnames.1, hnames.2⟩, hh.went, hs⟩

/-- One more record. -/
theorem Produces.concat {indices rest : List UInt64} {index : UInt64} {record : Bytes}
    (h : call.Produces P a (indices ++ index :: rest) records)
    (hlen : records.length = indices.length)
    (hrecord : call.pending.produce P ⟨a.file indices.length, index⟩ = .ok record) :
    call.Produces P a (indices ++ index :: rest) (records ++ [record]) := by
  intro k r hk
  rcases Nat.lt_or_ge k records.length with hlt | hge
  · rw [List.getElem?_append_left hlt] at hk
    exact h k r hk
  · rw [List.getElem?_append_right hge] at hk
    obtain ⟨hzero, hr⟩ := List.getElem?_eq_some_iff.1 hk
    have hk : k = indices.length := by
      simp at hzero
      omega
    subst hk
    refine ⟨index, by simp, ?_⟩
    simp only [hlen, Nat.sub_self, List.getElem_cons_zero] at hr
    rw [hrecord, hr]

theorem sending_concat (record : Bytes) :
    sending offer records ++ [(FRAME_CHUNK, record)] = sending offer (records ++ [record]) := by
  simp [sending]

/-- The record that was made ahead is the one for the next chunk. -/
theorem prepare_ahead_eq_ok {position : Nat} {index : UInt64} {rest : List UInt64}
    {ahead : Option Bytes} (h : call.prepare_ahead P a position (index :: rest) = .ok ahead) :
    ∃ record, ahead = some record ∧
      call.pending.produce P ⟨a.file position, index⟩ = .ok record := by
  rcases hr : call.pending.produce P ⟨a.file position, index⟩ with e | record
  · simp only [prepare_ahead, hr] at h
    cases h
  · simp only [prepare_ahead, hr] at h
    cases h
    exact ⟨record, rfl, rfl⟩

theorem prepare_ahead_noPanic {position : Nat} {indices : List UInt64}
    (hlen : ∀ i ∈ indices, ∃ len, call.pending.ctx.chunk_len i = some len) :
    NoPanic (call.prepare_ahead P a position indices) := by
  rcases indices with _ | ⟨index, rest⟩
  · exact nofun
  · obtain ⟨len, hlen⟩ := hlen index List.mem_cons_self
    have hcalm : NoPanic (call.pending.produce P ⟨a.file position, index⟩) :=
      PendingTransfer.produce_noPanic hlen
    rcases hr : call.pending.produce P ⟨a.file position, index⟩ with e | record
    · rw [hr] at hcalm
      simp only [prepare_ahead, hr]
      exact fun h => hcalm (by rw [Except.error.inj h])
    · simp only [prepare_ahead, hr]
      exact nofun

/-- The call is left while it sends records of the request. -/
def FailsSending (P : Primitives) (call : SendCall) (a : SendAnswers) (session : SessionKeys)
    (h₀ : List FrameDeed) (offer : TransferOffer) (request : RangeRequest) (e : Halt)
    (h : List FrameDeed) (s : List Event) : Prop :=
  e ≠ .Panic ∧ (∃ records, call.Produces P a request.indices records ∧
    Within P (channel P session) h₀ (sending offer records) h) ∧ Quiet s

/-- The loop. `done` was sent, and the record for the first chunk of the rest was made. -/
theorem meets_send_loop {total : UInt64} {todo : List UInt64} :
    ∀ (done : List UInt64) (records : List Bytes) (st : Sending) {ahead : Option Bytes},
      request.indices = done ++ todo → call.Produces P a request.indices records →
      records.length = done.length → call.prepare_ahead P a done.length todo = .ok ahead →
      (∀ i ∈ todo, ∃ len, call.pending.ctx.chunk_len i = some len) →
      Meets (fun h s => Went P (channel P session) h₀ (sending offer records) st.control h ∧
          Quiet s)
        (call.send_loop P a total done.length ahead st todo)
        (fun st' h s => ∃ records', call.Produces P a request.indices records' ∧
          records'.length = request.indices.length ∧
          Went P (channel P session) h₀ (sending offer records') st'.control h ∧ Quiet s)
        (call.FailsSending P a session h₀ offer request) := by
  induction todo with
  | nil =>
    intro done records st ahead hsplit hprod hcount _ _
    refine .returning ?_
    rintro h s ⟨hw, hs⟩
    exact ⟨records, hprod, by rw [hcount, hsplit, List.append_nil], hw, hs⟩
  | cons index rest ih =>
    intro done records st ahead hsplit hprod hcount hahead hlen
    obtain ⟨record, rfl, hrecord⟩ := prepare_ahead_eq_ok hahead
    obtain ⟨len, hindex⟩ := hlen index List.mem_cons_self
    have hlen' : ∀ i ∈ rest, ∃ len, call.pending.ctx.chunk_len i = some len :=
      fun i hi => hlen i (List.mem_cons_of_mem _ hi)
    have hprod' : call.Produces P a request.indices (records ++ [record]) := by
      rw [hsplit] at hprod ⊢
      exact hprod.concat hcount hrecord
    have hfails : ∀ {e : Halt} {c : ControlChannel} {h : List FrameDeed} {s : List Event},
        e ≠ .Panic → Went P (channel P session) h₀ (sending offer (records ++ [record])) c h →
        Quiet s → call.FailsSending P a session h₀ offer request e h s :=
      fun he hw hs => ⟨he, ⟨_, hprod', hw.within (List.prefix_refl _)⟩, hs⟩
    refine meets_known rfl (meets_known (unwrap_eq_ok.2 hindex) ?_)
    refine .bind ((meets_send_frame _ st.control h₀ (sending offer records) Quiet FRAME_CHUNK
      record).on_error ?_) fun c => ?_
    · rintro e h s ⟨he, hw, hs⟩
      rw [sending_concat] at hw
      exact ⟨he.ne_panic, ⟨_, hprod', hw⟩, hs⟩
    rw [sending_concat]
    refine .bind (meets_stopping ?_) fun ahead => .assuming fun hahead => ?_
    · intro e h s he hp
      exact hfails ((prepare_ahead_noPanic hlen').halt_ne he) hp.1 hp.2
    refine .bind (meets_push (quiet_poll_with _ _ _ _)) fun _ => ?_
    refine .bind (meets_fallible fun e h s hp => hfails nofun hp.1 hp.2) fun _ =>
      .assuming fun _ => ?_
    refine .bind (meets_push (quiet_singleton id)) fun _ => ?_
    have hdone : (done ++ [index]).length = done.length + 1 := by simp
    rw [← hdone] at hahead ⊢
    exact ih _ _ ⟨c, _, _, _⟩ (by simp [hsplit]) hprod' (by simp [hcount]) hahead hlen'

theorem FailsSending.fails {e : Halt} {h : List FrameDeed} {s : List Event}
    (hf : call.FailsSending P a session h₀ offer request e h s) (ha : call.Agreed P a session h₀)
    (ho : call.Offers P a session offer) (hr : call.Requested P session h₀ offer request h₁)
    (hh : h₁ <+: h) : call.Fails P a e h s := by
  obtain ⟨he, ⟨records, hprod, hw⟩, hs⟩ := hf
  refine .of_within he ha hw hs ?_
  intro asked hasked
  by_cases hne : asked = []
  · rw [hne]
    exact .nothing
  · obtain ⟨records', hrecords, rfl⟩ := prefix_sending hasked hne
    exact .chunks ho hr hh (hprod.of_prefix hrecords)

/-- All records of the request and the end of the stream were sent. -/
def Ended (P : Primitives) (call : SendCall) (a : SendAnswers) (session : SessionKeys)
    (h₀ h₁ : List FrameDeed) (offer : TransferOffer) (request : RangeRequest)
    (plan : List (UInt8 × Bytes)) : Prop :=
  call.Offers P a session offer ∧ call.Requested P session h₀ offer request h₁ ∧
    ∃ records, call.Produces P a request.indices records ∧
      records.length = request.indices.length ∧
      plan = sending offer records ++ [(FRAME_STREAM_END, [])]

theorem Ended.released {plan asked : List (UInt8 × Bytes)} {h : List FrameDeed}
    (he : call.Ended P a session h₀ h₁ offer request plan) (hp : asked <+: plan) (hh : h₁ <+: h) :
    call.Released P a session h₀ h asked := by
  obtain ⟨ho, hr, records, hprod, hall, rfl⟩ := he
  rcases List.prefix_concat_iff.1 hp with rfl | hp
  · exact .ended ho hr hh hprod hall
  by_cases hne : asked = []
  · rw [hne]
    exact .nothing
  · obtain ⟨records', hrecords, rfl⟩ := prefix_sending hp hne
    exact .chunks ho hr hh (hprod.of_prefix hrecords)

theorem meets_send_chunks {route_watch : RouteWatch} (hg : call.pending.ctx.Geometry)
    (ha : call.Agreed P a session h₀) (ho : call.Offers P a session offer)
    (hr : call.Requested P session h₀ offer request h₁) :
    Meets (fun h s => h = h₁ ∧ Went P (channel P session) h₀ (sending offer []) c h ∧ Quiet s)
      (call.send_chunks P a route_watch request c)
      (fun st h s => ∃ plan, call.Ended P a session h₀ h₁ offer request plan ∧
        Went P (channel P session) h₀ plan st.control h ∧ h₁ <+: h ∧ Quiet s)
      (call.Fails P a) := by
  have hlen : ∀ i ∈ request.indices, ∃ len, call.pending.ctx.chunk_len i = some len := by
    intro i hi
    obtain ⟨_, _, _, -, hdecode, -⟩ := hr
    obtain ⟨len, hlen, -⟩ := ObjectContext.chunk_len_spec hg (RangeRequest.index_lt hdecode hi)
    exact ⟨len, hlen⟩
  -- The request stays what was read before all that follows.
  suffices hmeets : Meets
      (fun h s => h = h₁ ∧ Went P (channel P session) h₀ (sending offer []) c h ∧ Quiet s)
      (call.send_chunks P a route_watch request c)
      (fun st h s => ∃ plan, call.Ended P a session h₀ h₁ offer request plan ∧
        Went P (channel P session) h₀ plan st.control h ∧ Quiet s)
      (fun e h s => call.FailsSending P a session h₀ offer request e h s ∨
        e ≠ .Panic ∧ (∃ plan, call.Ended P a session h₀ h₁ offer request plan ∧
          Within P (channel P session) h₀ plan h) ∧ Quiet s) by
    refine (hmeets.extending h₁).weaken ?_ ?_ ?_
    · rintro h s ⟨rfl, hp⟩
      exact ⟨⟨rfl, hp⟩, List.prefix_refl _⟩
    · rintro st h s ⟨⟨plan, hended, hw, hs⟩, hh⟩
      exact ⟨plan, hended, hw, hh, hs⟩
    · rintro e h s ⟨hf | ⟨he, ⟨plan, hended, hw⟩, hs⟩, hh⟩
      · exact hf.fails ha ho hr hh
      · exact .of_within he ha hw hs fun asked hasked => hended.released hasked hh
  refine .bind ((meets_push (quiet_singleton id)).weaken (fun h s hp => ⟨hp.2.1, hp.2.2⟩)
    (fun _ _ _ hq => hq) fun _ _ _ hr => hr) fun _ => ?_
  refine .bind (meets_stopping ?_) fun ahead => .assuming fun hahead => ?_
  · intro e h s he hp
    exact .inl ⟨(prepare_ahead_noPanic hlen).halt_ne he,
      ⟨[], nofun, hp.1.within (List.prefix_refl _)⟩, hp.2⟩
  refine .bind ((meets_send_loop [] [] ⟨c, route_watch, 0, 0⟩ (List.nil_append _).symm nofun rfl
    hahead hlen).weaken (fun _ _ hp => hp) (fun _ _ _ hq => hq) fun _ _ _ hr => .inl hr)
    fun st => .of_exists fun records => .assuming fun hprod => .assuming fun hall => ?_
  have hended : call.Ended P a session h₀ h₁ offer request
      (sending offer records ++ [(FRAME_STREAM_END, [])]) := ⟨ho, hr, records, hprod, hall, rfl⟩
  refine .bind ((meets_send_frame _ st.control h₀ (sending offer records) Quiet FRAME_STREAM_END
    []).on_error ?_) fun c => ?_
  · rintro e h s ⟨he, hw, hs⟩
    exact .inr ⟨he.ne_panic, ⟨_, hended, hw⟩, hs⟩
  refine .returning ?_
  exact fun h s hp => ⟨_, hended, hp⟩

/-- Everything that was asked for has left, and then the acknowledgement for the digest of
the file was read and opened. -/
def Confirmed (P : Primitives) (call : SendCall) (a : SendAnswers) (session : SessionKeys)
    (h₀ : List FrameDeed) (offer : TransferOffer) (request : RangeRequest)
    (h : List FrameDeed) : Prop :=
  ∃ h₁ plan c c', h₁ <+: h ∧ call.Ended P a session h₀ h₁ offer request plan ∧
    Heard P (channel P session) h₀ plan c
      ((FRAME_COMPLETE, encode_ack 0 call.pending.plaintext_digest), c') h

theorem meets_await_ack {plan : List (UInt8 × Bytes)} (ha : call.Agreed P a session h₀)
    (hended : call.Ended P a session h₀ h₁ offer request plan) :
    Meets (fun h s => Went P (channel P session) h₀ plan c h ∧ h₁ <+: h ∧ Quiet s)
      (call.await_ack P c)
      (fun _ h s => call.Confirmed P a session h₀ offer request h ∧ Quiet s)
      (call.Fails P a) := by
  suffices hmeets : Meets
      (fun h s => Went P (channel P session) h₀ plan c h ∧ h₁ <+: h ∧ Quiet s)
      (call.await_ack P c)
      (fun _ h s => (∃ c', Heard P (channel P session) h₀ plan c
        ((FRAME_COMPLETE, encode_ack 0 call.pending.plaintext_digest), c') h) ∧ Quiet s)
      (fun e h s => e ≠ .Panic ∧ Within P (channel P session) h₀ plan h ∧ Quiet s) by
    refine (hmeets.extending h₁).weaken (fun h s hp => ⟨hp, hp.2.1⟩) ?_ ?_
    · rintro _ h s ⟨⟨⟨c', hh⟩, hs⟩, hp⟩
      exact ⟨⟨h₁, plan, c, c', hp, hended, hh⟩, hs⟩
    · rintro e h s ⟨⟨he, hw, hs⟩, hp⟩
      exact .of_within he ha hw hs fun asked hasked => hended.released hasked hp
  refine .bind ((meets_expect_frame _ c h₀ plan Quiet FRAME_COMPLETE).weaken
    (fun h s hp => ⟨hp.1, hp.2.2⟩) (fun _ _ _ hq => hq) ?_) ?_
  · rintro e h s ⟨he, hw, hs⟩
    exact ⟨he.ne_panic, hw, hs⟩
  rintro ⟨ack, c'⟩
  have hfails : ∀ {x : TransferError} {h : List FrameDeed} {s : List Event},
      Heard P (channel P session) h₀ plan c ((FRAME_COMPLETE, ack), c') h → Quiet s →
      Halt.Err x ≠ .Panic ∧ Within P (channel P session) h₀ plan h ∧ Quiet s :=
    fun hh hs => ⟨nofun, hh.went.within (List.prefix_refl _), hs⟩
  refine .bind (meets_fallible fun e h s hp => hfails hp.1 hp.2) ?_
  rintro ⟨status, digest⟩
  refine .assuming fun hack => ?_
  refine .bind (meets_fallible fun e h s hp => hfails hp.1 hp.2) fun _ =>
    .assuming fun hstatus => ?_
  refine (meets_fallible fun e h s hp => hfails hp.1 hp.2).weaken (fun _ _ hp => hp) ?_
    fun _ _ _ hr => hr
  rintro _ h s ⟨hdigest, hh, hs⟩
  have hstatus : status = 0 := by simpa using refuse_if_eq_ok.1 hstatus
  have hdigest : digest = call.pending.plaintext_digest :=
    Arr.ext (ct_eq_iff.1 (eq_true_of_ne_false (refuse_if_eq_ok.1 hdigest)))
  obtain ⟨-, rfl⟩ := decode_ack_eq_ok.1 hack
  subst hstatus hdigest
  exact ⟨⟨c', hh⟩, hs⟩

/-- The call has returned this report. -/
def Returned (P : Primitives) (call : SendCall) (a : SendAnswers) (report : TransferReport)
    (h : List FrameDeed) (s : List Event) : Prop :=
  ∃ session h₀ offer request route quiet, call.Agreed P a session h₀ ∧
    call.Confirmed P a session h₀ offer request h ∧
    report = call.report P a session offer request route ∧ Quiet quiet ∧
    s = quiet ++ completed call.pending.secrets.transfer_id call.pending.secrets.object_id
      call.pending.plaintext_digest

theorem Returned.reached {report : TransferReport} {h : List FrameDeed} {s : List Event}
    (hr : call.Returned P a report h s) : call.Reached P a h := by
  obtain ⟨session, h₀, offer, request, -, -, ha, ⟨h₁, plan, c, c', hp, hended, hh⟩, -⟩ := hr
  exact .talking ha hh.went (hended.released (List.prefix_refl _) hp)

theorem meets_claim {p : List FrameDeed → Prop}
    {r : Halt → List FrameDeed → List Event → Prop} {pushed : List Event} :
    Meets (fun h s => p h ∧ Quiet s) (push pushed)
      (fun _ h s => p h ∧ ∃ quiet, Quiet quiet ∧ s = quiet ++ pushed) r := by
  apply Meets.act
  · intro h s _ s' hs hexec
    cases hexec
    exact ⟨hs.1, s, hs.2, rfl⟩
  · intro h s e s' _ hexec
    cases hexec

theorem meets_send_pending (hg : call.pending.ctx.Geometry) :
    Meets (fun h s => h = [] ∧ Quiet s) (call.send_pending P a) (call.Returned P a)
      (call.Fails P a) := by
  refine .bind meets_connect fun route_watch => ?_
  refine .bind meets_initiate fun session => ?_
  refine .bind (meets_fallible ?_) fun _ => .assuming fun _ => .from_here fun h₀ ha => ?_
  · rintro e h s ⟨ha, hs⟩
    exact ⟨nofun, .talking ha .start .nothing, hs⟩
  refine .bind (meets_offer_file ha) ?_
  rintro ⟨offer, request, c⟩
  refine .assuming fun ho => .from_here fun h₁ hr => ?_
  refine .bind (meets_send_chunks hg ha ho hr) fun st =>
    .of_exists fun plan => .assuming fun hended => ?_
  refine .bind (meets_await_ack ha hended) fun _ => ?_
  refine .bind (meets_claim) fun _ => ?_
  refine .returning ?_
  rintro h s ⟨hc, quiet, hquiet, hs⟩
  exact ⟨session, h₀, offer, request, _, quiet, ha, hc, rfl, hquiet, hs⟩

end Session

end SendCall

end rtp2_core.transfer
