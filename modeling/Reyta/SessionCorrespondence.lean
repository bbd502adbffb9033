-- Two calls with any network between them, which may drop, change, invent and reorder what
-- it carries. If what one side accepts was made by the other side, then a report of the
-- sender means that the receiver has the file, and the receiver opens its destination
-- only for what the sender offers.
import Reyta.SessionSafety

open byte_string early_exit exact_parse stream_party

namespace rtp2_core.handshake

open crypto identity

variable {P : Primitives}

/-! ## Steps of a handshake that succeed -/

namespace Initiator

variable {self : Initiator} {random : FinishRandom} {sh cf sf : Bytes} {session : SessionKeys}

theorem call_server_hello (h : (self.on_server_hello P random sh).1 = .ok cf) :
    self.call P (.server_hello random sh) =
      (.answered sh cf (self.on_server_hello P random sh).2.state,
        (self.on_server_hello P random sh).2) := by
  rcases hf : self.on_server_hello P random sh with ⟨r, i⟩
  rw [hf] at h
  obtain rfl : r = .ok cf := h
  simp only [call, hf]

theorem call_server_finish (h : (self.on_server_finish P sf).1 = .ok session) :
    self.call P (.server_finish sf) = (.finished sf session, (self.on_server_finish P sf).2) := by
  rcases hf : self.on_server_finish P sf with ⟨r, i⟩
  rw [hf] at h
  obtain rfl : r = .ok session := h
  simp only [call, hf]

/-- An initiator that finishes has read a MAC. -/
theorem finish_mac (h : (self.on_server_finish P sf).1 = .ok session) :
    ∃ mac_b, decode_server_finish sf = .ok mac_b := by
  have hcall := congrArg Prod.fst (call_server_finish h)
  rcases self.call_cases (P := P) (.server_finish sf) with ⟨e, he⟩ |
    ⟨_, _, _, _, _, _, _, _, -, -, he⟩ | ⟨_, _, _, _, _, sf', session', -, ha, he⟩
  · rw [he] at hcall
    cases hcall
  · rw [he] at hcall
    cases hcall
  · rw [he] at hcall
    cases hcall
    exact ⟨_, (accept_eq_ok ha).1⟩

end Initiator

namespace Responder

variable {self : Responder} {observed_peer : Arr 32} {replay : ReplayCache} {random : HelloRandom}
  {ch sh cf sf : Bytes} {session : SessionKeys}

theorem call_client_hello (h : (self.on_client_hello P ch observed_peer replay random).1 = .ok sh) :
    self.call P (.client_hello ch observed_peer replay random) =
      (.answered ch sh, (self.on_client_hello P ch observed_peer replay random).2.1) := by
  rcases hf : self.on_client_hello P ch observed_peer replay random with ⟨r, i, c⟩
  rw [hf] at h
  obtain rfl : r = .ok sh := h
  simp only [call, hf]

theorem call_client_finish (h : (self.on_client_finish P cf).1 = .ok (sf, session)) :
    self.call P (.client_finish cf) =
      (.finished cf sf session, (self.on_client_finish P cf).2) := by
  rcases hf : self.on_client_finish P cf with ⟨r, i⟩
  rw [hf] at h
  obtain rfl : r = .ok (sf, session) := h
  simp only [call, hf]

/-- A responder that finishes has read a signature, and gives a MAC. -/
theorem finish_mac (h : (self.on_client_finish P cf).1 = .ok (sf, session)) :
    ∃ finish mac_b, ClientFinish.decode cf = .ok finish ∧ sf = encode_server_finish mac_b := by
  have hcall := congrArg Prod.fst (call_client_finish h)
  rcases self.call_cases (P := P) (.client_finish cf) with ⟨e, he⟩ | ⟨_, _, _, _, _, -, -, -, he⟩ |
    ⟨_, _, _, _, _, _, _, _, _, cf', sf', session', -, ha, he⟩
  · rw [he] at hcall
    cases hcall
  · rw [he] at hcall
    cases hcall
  · rw [he] at hcall
    cases hcall
    obtain ⟨finish, hdecode, -, -, hsf, -⟩ := accept_eq_ok ha
    exact ⟨finish, _, hdecode, hsf⟩

end Responder

/-- An initiator that completes on the MAC of a responder agrees with it. -/
theorem agrees_of_mac (hx : P.Exchanges) (hkem : P.Decapsulates) {A : Initiator.Run}
    {B : Responder.Run} {signature : HybridSignature} {mac_b : Arr 48} {session : SessionKeys}
    {b : View} (ha : A.Completed P mac_b session) (hb : B.Completed P signature mac_b b)
    (hapart : ∀ sig a, A.Derived P sig a → a.Apart P b) : ∃ a : View, a.session = session ∧
      a.own = A.identity.public P ∧ a.Agrees b := by
  obtain ⟨ch, rb, sig_b, -, -, -, -, hsession', hmac', -⟩ := Responder.Run.completed_spec hb
  obtain ⟨sig, a, hd, hsession, hmac⟩ := Initiator.Run.completed_spec ha
  obtain ⟨sh, -, ra, -, -, -, -, -, hsession_a, hown, -⟩ := Initiator.Run.derived_spec hd
  have hth2 := (hapart sig a hd).session_th2 (hmac.symm.trans hmac')
  rw [hsession_a, hsession'] at hth2
  exact ⟨a, hsession, hown,
    agree_of_same_transcript hx hkem hd hb ((hapart sig a hd).transcript hth2)⟩

/-- A responder that completes on the signature of an initiator agrees with it. -/
theorem agrees_of_signature (hx : P.Exchanges) (hkem : P.Decapsulates)
    (hsign : DevicePublic.SignsExactly P) {A : Initiator.Run} {B : Responder.Run}
    {signature : HybridSignature} {mac_b : Arr 48} {a b : View} (ha : A.Derived P signature a)
    (hb : B.Completed P signature mac_b b) (hapart : a.Apart P b) : a.Agrees b := by
  obtain ⟨ch, rb, sig_b, -, -, -, hverify, -⟩ := Responder.Run.completed_spec hb
  obtain ⟨sh, -, ra, -, -, -, -, hsigned, -⟩ := Initiator.Run.derived_spec ha
  have hhash := hsign A.identity _ _ _ _ _ hsigned hverify
  exact agree_of_same_transcript hx hkem ha hb (hapart.transcript hhash.symm)

/-- An initiator completes with the session that it derived. -/
theorem Initiator.Run.session_of_completed {A : Run} {signature : HybridSignature} {a : View}
    {mac_b : Arr 48} {session : SessionKeys} (ha : A.Derived P signature a)
    (hc : A.Completed P mac_b session) : session = a.session := by
  obtain ⟨sh_bytes, cf_bytes, cf, keys, th2, mac_a, peer, endpoint, hanswered, -, -, rfl⟩ := ha
  obtain ⟨sf_bytes, hfinished, -⟩ := hc
  rcases A.spec (P := P) with hall | ⟨_, _, _, _, _, _, _, _, -, -, hall⟩
  · obtain ⟨e, he⟩ := hall _ hanswered
    cases he
  rcases hall _ hanswered with he | ⟨e, he⟩ | ⟨_, _, he, -⟩
  · cases he
    rcases hall _ hfinished with he | ⟨e, he⟩ | ⟨_, _, he, haccept⟩
    · cases he
    · cases he
    · cases he
      exact (accept_eq_ok haccept).2
  · cases he
  · cases he

theorem Pair.eq_mac_b {h : Pair} {sig_a sig_b : HybridSignature} {mac_b : Arr 48}
    {session : SessionKeys} (hs : h.Sound P sig_a sig_b)
    (ha : (h.initiator_run P sig_b).Completed P mac_b session) : mac_b = h.mac_b P sig_b := by
  obtain ⟨sf_bytes, hfinished, hdecode⟩ := ha
  rw [initiator_events hs] at hfinished
  rcases List.mem_cons.1 hfinished with he | he
  · cases he
  · cases List.mem_singleton.1 he
    exact Except.ok.inj (hdecode.symm.trans (decode_encode_server_finish _))

theorem Pair.eq_responder_view (hx : P.Exchanges) (hkem : P.Decapsulates) {h : Pair}
    {sig_a sig_b sig : HybridSignature} {mac_b : Arr 48} {b : View} (hs : h.Sound P sig_a sig_b)
    (hb : (h.responder_run P sig_a sig_b).Completed P sig mac_b b) :
    sig = sig_a ∧ b = h.responder_view P sig_b := by
  obtain ⟨ch_bytes, sh_bytes, cf_bytes, cf, sf_bytes, session, hanswered, hfinished, hdecode, rfl,
    -, rfl⟩ := hb
  rw [responder_events hx hkem hs] at hanswered hfinished
  rcases List.mem_cons.1 hanswered with he | he
  · cases he
    rcases List.mem_cons.1 hfinished with he | he
    · cases he
    · cases List.mem_singleton.1 he
      cases hdecode.symm.trans (ClientFinish.decode_encode_full _)
      exact ⟨rfl, rfl⟩
  · cases List.mem_singleton.1 he

end rtp2_core.handshake

namespace rtp2_core.transfer

open control (ControlChannel InEpoch)
open crypto events handshake identity keys manifest object offer resume scheduler Session Talk

/-! ## Frames as they are on the stream -/

section Frames

variable {P : Primitives} {frame_type : UInt8} {payload payload' : Bytes}

/-- Where the type of a frame stands. -/
def frame_tag (bytes : Bytes) : UInt8 := bytes.getD 4 0

theorem frame_tag_header (len : Nat) (frame_type frame_flags : UInt8) (request_id : UInt64)
    (rest : Bytes) : frame_tag (header_fields len frame_type frame_flags request_id ++ rest) =
      frame_type := by
  obtain ⟨hlen, -, htype, -⟩ := header_fields_parts len frame_type frame_flags request_id
  have hlt : 4 < (header_fields len frame_type frame_flags request_id).length := by
    rw [hlen]
    decide
  unfold frame_tag
  rw [List.getD_eq_getElem?_getD, List.getElem?_append_left hlt,
    ← List.getD_eq_getElem?_getD, htype]

theorem frame_tag_plain : frame_tag (plain_wire frame_type payload) = frame_type :=
  frame_tag_header ..

theorem Sent.frame_tag_bytes (f : Sent) : frame_tag f.bytes = f.frame_type :=
  frame_tag_header ..

theorem plain_wire_inj (h : plain_wire frame_type payload = plain_wire frame_type payload') :
    payload = payload' := by
  refine (List.append_inj h ?_).2
  rw [(header_fields_parts ..).1, (header_fields_parts ..).1]

/-- A frame that is taken off a stream has the type that stands there. -/
theorem scan_tag {form : Bool} {bytes rest : Bytes} {m : Numbered}
    (h : frames.scan form bytes = .got m rest) : m.1.frame_type = frame_tag bytes := by
  have hrecv : recv_raw_frame form ⟨bytes, ()⟩ = .ok (m, ⟨rest, ()⟩) := scan_eq_got h
  obtain ⟨head, i, hhead, hrecv⟩ := run_bind_eq_ok.1 hrecv
  obtain ⟨-, i, -, hrecv⟩ := run_bind_eq_ok.1 hrecv
  obtain ⟨-, i, -, hrecv⟩ := run_bind_eq_ok.1 hrecv
  obtain ⟨-, i, -, hrecv⟩ := run_bind_eq_ok.1 hrecv
  obtain ⟨numbers, i, -, hrecv⟩ := run_bind_eq_ok.1 hrecv
  obtain ⟨body, i, -, hrecv⟩ := run_bind_eq_ok.1 hrecv
  cases hrecv
  change exact_parse.take FRAME_HEADER_LEN _ _ = _ at hhead
  unfold exact_parse.take at hhead
  split at hhead
  · cases hhead
  · cases hhead
    unfold frame_tag
    simp [List.getD_eq_getElem?_getD, FRAME_HEADER_LEN]

/-- A frame of the session is taken off a stream as it was sealed. -/
theorem Sent.SealedIn.scan {prk th2 : Arr 48} {d : control.Direction} {f : Sent} {rest : Bytes}
    {m : Numbered} (hf : f.SealedIn P prk th2 d) (h : frames.scan true f.bytes = .got m rest) :
    m = (⟨f.frame_type, 0, 0, f.ciphertext⟩, f.epoch, f.counter) := by
  have hrecv : recv_raw_frame true ⟨f.bytes, ()⟩ = .ok (m, ⟨rest, ()⟩) := scan_eq_got h
  by_cases hlimit : f.ciphertext.length ≤ body_limit f.frame_type
  · have hwire : recv_raw_frame true ⟨f.bytes ++ [], ()⟩ =
        .ok ((⟨f.frame_type, 0, 0, f.ciphertext⟩, f.epoch, f.counter), ⟨[], ()⟩) :=
      recv_raw_frame_wire hf.le hlimit []
    rw [List.append_nil] at hwire
    exact congrArg Prod.fst (Except.ok.inj (hrecv.symm.trans hwire))
  · have hgt : recv_raw_frame true ⟨f.bytes, ()⟩ =
        .error (.Protocol "frame body exceeds its limit") :=
      (recv_raw_frame_header rfl hf.le _).trans (recv_body_of_gt (Nat.lt_of_not_le hlimit) _)
    exact absurd (hrecv.symm.trans hgt) nofun

/-- A frame in the clear that is taken off a stream has the body that was written. -/
theorem body_of_scan {m : Numbered} (htype : frame_type ≠ FRAME_CHUNK)
    (h : payload.length ≤ MAX_CONTROL_BODY)
    (hscan : ∀ t, frames.scan false (plain_wire frame_type payload ++ t) = .got m t) :
    m.1.body = payload := by
  have hlimit : body_limit frame_type = MAX_CONTROL_BODY := if_neg htype
  obtain ⟨m', -, hbody, hscan'⟩ :=
    scan_plain (send_plain_frame_of_le frame_type h) (hlimit ▸ h)
  cases (hscan []).symm.trans (hscan' [])
  exact hbody

end Frames

/-! ## The handshake of a call as a run -/

/-- The messages that were read in the clear. -/
def plain_bodies (ds : List FrameDeed) : List Bytes := ds.filterMap fun
  | .got false (.ok m) => some m.1.body
  | _ => none

theorem plain_bodies_append (ds ds' : List FrameDeed) :
    plain_bodies (ds ++ ds') = plain_bodies ds ++ plain_bodies ds' :=
  List.filterMap_append ..

/-- Nothing is read in the clear through a channel. -/
theorem Through.plain_bodies {P : Primitives} {c₀ c : ControlChannel} {ds : List FrameDeed}
    {fs : List Sent} (h : Through P c₀ ds fs c) : plain_bodies ds = [] := by
  induction h with
  | start => rfl
  | @sent ds fs c frame_type payload ciphertext d _ hs hd ih =>
    rw [plain_bodies_append, ih]
    -- what is read is not an output
    cases d with
    | got form m => cases hd
    | _ => rfl
  | opened _ _ ih =>
    rw [plain_bodies_append, ih]
    rfl
  | refused _ ih =>
    rw [plain_bodies_append, ih]
    rfl

theorem Went.plain_bodies {P : Primitives} {c₀ c : ControlChannel} {h₀ h : List FrameDeed}
    {asked : List (UInt8 × Bytes)} (hw : Went P c₀ h₀ asked c h) :
    plain_bodies h = plain_bodies h₀ := by
  obtain ⟨ds, fs, rfl, ht, -⟩ := hw
  rw [plain_bodies_append, ht.plain_bodies, List.append_nil]

theorem Within.plain_bodies {P : Primitives} {c₀ : ControlChannel} {h₀ h : List FrameDeed}
    {plan : List (UInt8 × Bytes)} (hw : Within P c₀ h₀ plan h) :
    plain_bodies h = plain_bodies h₀ := by
  obtain ⟨asked, c, -, hw⟩ := hw
  exact hw.plain_bodies

namespace SendCall

variable {P : Primitives} {call : SendCall} {a : SendAnswers}

/-- What the initiator of a call was given. -/
def handshake_run (call : SendCall) (a : SendAnswers) (ds : List FrameDeed) : Initiator.Run where
  identity := call.identity
  local_endpoint_id := call.local_endpoint_id
  expected_peer_endpoint := call.peer
  random := a.start
  calls := match plain_bodies ds with
    | [] => []
    | sh :: rest => .server_hello a.finish sh :: rest.map .server_finish

theorem handshake_run_congr {ds ds' : List FrameDeed} (h : plain_bodies ds = plain_bodies ds') :
    call.handshake_run a ds = call.handshake_run a ds' := by
  unfold handshake_run
  rw [h]

theorem Agreed.completed {session : SessionKeys} {h₀ : List FrameDeed}
    (ha : call.Agreed P a session h₀) :
    ∃ mac_b, (call.handshake_run a h₀).Completed P mac_b session := by
  obtain ⟨sh, sf, cf, hanswer, hfinish, rfl⟩ := ha
  obtain ⟨mac_b, hmac⟩ := Initiator.finish_mac hfinish
  refine ⟨mac_b, sf.1.body, ?_, hmac⟩
  show _ ∈ [_, (Initiator.call P (Initiator.call P (call.started P a).1
    (.server_hello a.finish sh.1.body)).2 (.server_finish sf.1.body)).1]
  unfold answered at hanswer hfinish
  rw [Initiator.call_server_hello hanswer]
  dsimp only
  rw [Initiator.call_server_finish hfinish]
  exact List.mem_cons_of_mem _ List.mem_cons_self

/-- In the clear only messages of the handshake leave. -/
theorem Greeted.tag {outs : List Bytes} (hg : call.Greeted P a outs) {out : Bytes}
    (ho : out ∈ outs) :
    frame_tag out = FRAME_CLIENT_HELLO ∨ frame_tag out = FRAME_CLIENT_FINISH := by
  cases hg with
  | silent => cases ho
  | hello =>
    rw [List.mem_singleton.1 ho]
    exact .inl frame_tag_plain
  | finish h =>
    rcases List.mem_cons.1 ho with rfl | ho
    · exact .inl frame_tag_plain
    · rw [List.mem_singleton.1 ho]
      exact .inr frame_tag_plain

theorem mem_sending {offer : TransferOffer} {records : List Bytes} {ask : UInt8 × Bytes}
    (h : ask ∈ sending offer records) :
    ask = (FRAME_OFFER, offer.encode) ∨ ask.1 = FRAME_CHUNK := by
  rcases List.mem_cons.1 h with h | h
  · exact .inl h
  · obtain ⟨record, -, rfl⟩ := List.mem_map.1 h
    exact .inr rfl

/-- The one frame of this type is the offer of the call. -/
theorem Released.offer {session : SessionKeys} {h₀ h : List FrameDeed}
    {asked : List (UInt8 × Bytes)} (hr : call.Released P a session h₀ h asked)
    {ask : UInt8 × Bytes} (hask : ask ∈ asked) (htype : ask.1 = FRAME_OFFER) :
    ∃ offer, call.Offers P a session offer ∧ ask = (FRAME_OFFER, offer.encode) := by
  have hoffer : ∀ {offer records}, call.Offers P a session offer → ask ∈ sending offer records →
      ∃ offer, call.Offers P a session offer ∧ ask = (FRAME_OFFER, offer.encode) := by
    intro offer records ho hmem
    rcases mem_sending hmem with h | h
    · exact ⟨offer, ho, h⟩
    · rw [htype] at h
      exact absurd h (by decide)
  cases hr with
  | nothing => cases hask
  | offered ho => exact hoffer ho hask
  | chunks ho _ _ _ => exact hoffer ho hask
  | ended ho _ _ _ _ =>
    rcases List.mem_append.1 hask with hask | hask
    · exact hoffer ho hask
    · rw [List.mem_singleton.1 hask] at htype
      exact absurd htype (by decide : FRAME_STREAM_END ≠ FRAME_OFFER)

/-- What leaves as an offer is sealed in the session, and it is the offer of the call. -/
theorem Reached.offer {ds : List FrameDeed} {out : Bytes} (hr : call.Reached P a ds)
    (ho : out ∈ outputs ds) (htag : frame_tag out = FRAME_OFFER) :
    ∃ (session : SessionKeys) (h₀ : List FrameDeed) (offer : TransferOffer) (f : Sent),
      call.Agreed P a session h₀ ∧ plain_bodies ds = plain_bodies h₀ ∧
      call.Offers P a session offer ∧ out = f.bytes ∧
      f.SealedIn P session.handshake_prk session.th2 .ClientToServer ∧
      f.asked = (FRAME_OFFER, offer.encode) := by
  have hplain : ∀ {outs}, call.Greeted P a outs → out ∉ outs := by
    intro outs hg hmem
    have := hg.tag hmem
    rw [htag] at this
    exact absurd this (by decide)
  cases hr with
  | greeting hg => exact absurd ho (hplain hg)
  | @talking session h₀ asked c ha hw hr =>
    rcases (hw.within (List.prefix_refl _)).output ho with ho | ⟨f, rfl, hasked, hsealed⟩
    · exact absurd ho (hplain ha.greeted)
    rw [f.frame_tag_bytes] at htag
    obtain ⟨offer, hoffer, hask⟩ := hr.offer hasked htag
    exact ⟨session, h₀, offer, f, ha, hw.plain_bodies, hoffer, rfl, hsealed, hask⟩

end SendCall

namespace ReceiveCall

variable {P : Primitives} {call : ReceiveCall} {a : ReceiveAnswers} {replay : ReplayCache}

/-- What the responder of a call was given. -/
def handshake_run (call : ReceiveCall) (a : ReceiveAnswers) (replay : ReplayCache)
    (ds : List FrameDeed) : Responder.Run where
  identity := call.identity
  local_endpoint_id := call.local_endpoint_id
  calls := match a.accept.result, plain_bodies ds with
    | .ok observed_peer, ch :: rest =>
      .client_hello ch observed_peer replay a.hello :: rest.map .client_finish
    | _, _ => []

theorem handshake_run_congr {ds ds' : List FrameDeed} (h : plain_bodies ds = plain_bodies ds') :
    call.handshake_run a replay ds = call.handshake_run a replay ds' := by
  unfold handshake_run
  rw [h]

/-- The events of a handshake that succeeds. -/
theorem handshake_events {ds : List FrameDeed} {observed_peer : Arr 32} {ch sh cf sf : Bytes}
    {session : SessionKeys} (haccept : a.accept.result = .ok observed_peer)
    (hbodies : plain_bodies ds = [ch, cf])
    (hanswer : (call.answered P a replay observed_peer ch).1 = .ok sh)
    (hfinish : ((call.answered P a replay observed_peer ch).2.1.on_client_finish P cf).1 =
      .ok (sf, session)) :
    (call.handshake_run a replay ds).events P = [.answered ch sh, .finished cf sf session] := by
  unfold answered at hanswer hfinish
  unfold Responder.Run.events handshake_run
  rw [haccept, hbodies]
  show [(Responder.call P (.new call.identity call.local_endpoint_id)
      (.client_hello ch observed_peer replay a.hello)).1,
    (Responder.call P (Responder.call P (.new call.identity call.local_endpoint_id)
      (.client_hello ch observed_peer replay a.hello)).2 (.client_finish cf)).1] = _
  rw [Responder.call_client_hello hanswer]
  dsimp only
  rw [Responder.call_client_finish hfinish]

/-- Only one of the two answers is a ServerFinish. -/
theorem server_finish_inj {sh sf body : Bytes} (h : plain_wire FRAME_SERVER_FINISH body ∈
    [plain_wire FRAME_SERVER_HELLO sh, plain_wire FRAME_SERVER_FINISH sf]) : body = sf := by
  rcases List.mem_cons.1 h with he | he
  · have htag := congrArg frame_tag he
    rw [frame_tag_plain, frame_tag_plain] at htag
    exact absurd htag (by decide)
  · exact plain_wire_inj (List.mem_singleton.1 he)

theorem Agreed.completed {session : SessionKeys} {h₀ : List FrameDeed}
    (ha : call.Agreed P a replay session h₀) : ∃ signature mac_b v,
      (call.handshake_run a replay h₀).Completed P signature mac_b v ∧ v.session = session ∧
      v.own = call.identity.public P ∧
      ∀ body, plain_wire FRAME_SERVER_FINISH body ∈ outputs h₀ →
        body = encode_server_finish mac_b := by
  obtain ⟨observed_peer, ch, cf, sh, sf, haccept, hanswer, hfinish, rfl⟩ := ha
  obtain ⟨finish, mac_b, hdecode, rfl⟩ := Responder.finish_mac hfinish
  refine ⟨finish.signature, mac_b, ⟨ch.1.body, sh, finish.ct_to_b, session,
    call.identity.public P, call.local_endpoint_id⟩, ?_, rfl, rfl, fun _ => server_finish_inj⟩
  refine ⟨_, _, cf.1.body, finish, _, _, ?_, ?_, hdecode, rfl, decode_encode_server_finish mac_b,
    rfl⟩
  · rw [handshake_events haccept rfl hanswer hfinish]
    exact List.mem_cons_self
  · rw [handshake_events haccept rfl hanswer hfinish]
    exact List.mem_cons_of_mem _ List.mem_cons_self

/-- In the clear only messages of the handshake leave. -/
theorem Greeted.tag {outs : List Bytes} (hg : call.Greeted P a replay outs) {out : Bytes}
    (ho : out ∈ outs) :
    frame_tag out = FRAME_SERVER_HELLO ∨ frame_tag out = FRAME_SERVER_FINISH := by
  cases hg with
  | silent => cases ho
  | hello h =>
    rw [List.mem_singleton.1 ho]
    exact .inl frame_tag_plain
  | finish h h' =>
    rcases List.mem_cons.1 ho with rfl | ho
    · exact .inl frame_tag_plain
    · rw [List.mem_singleton.1 ho]
      exact .inr frame_tag_plain

theorem Agreed.greeted {session : SessionKeys} {h₀ : List FrameDeed}
    (ha : call.Agreed P a replay session h₀) : call.Greeted P a replay (outputs h₀) := by
  obtain ⟨observed_peer, ch, cf, sh, sf, -, hanswer, hfinish, rfl⟩ := ha
  exact .finish hanswer hfinish

/-- What leaves as an acknowledgement is sealed in the session, and the attempt is
complete. -/
theorem Reached.acknowledgement {ds : List FrameDeed} {s : Receiving} {out : Bytes}
    (hr : call.Reached P a replay ds s) (ho : out ∈ outputs ds)
    (htag : frame_tag out = FRAME_COMPLETE) :
    ∃ (x : Setting) (f : Sent) (digest : Arr 32) (arrival : Arrival),
      x.Holds P call a replay ∧ Within P (channel P x.session) x.shaken
        [x.request, (FRAME_COMPLETE, encode_ack 0 digest)] ds ∧ out = f.bytes ∧
      f.SealedIn P x.session.handshake_prk x.session.th2 .ServerToClient ∧
      f.asked = (FRAME_COMPLETE, encode_ack 0 digest) ∧ s.opened = some x.admitted ∧
      s.arrival = some arrival ∧ Intact P x.admitted digest arrival.recv := by
  have hplain : ∀ {outs}, call.Greeted P a replay outs → out ∉ outs := by
    intro outs hg hmem
    have := hg.tag hmem
    rw [htag] at this
    exact absurd this (by decide)
  have hrequest : ∀ {x : Setting} {f : Sent}, out = f.bytes → f.asked ≠ x.request := by
    rintro x f rfl hasked
    have htype : f.frame_type = FRAME_RANGE_REQUEST := congrArg Prod.fst hasked
    rw [f.frame_tag_bytes, htype] at htag
    exact absurd htag (by decide)
  cases hr with
  | greeting hg hs => exact absurd ho (hplain hg)
  | talking ha hw hs =>
    rcases hw.output ho with ho | ⟨f, -, hplan, -⟩
    · exact absurd ho (hplain ha.greeted)
    · cases hplan
  | preparing ha hoffer hh hw hs hopened =>
    rcases hw.output ho with ho | ⟨f, -, hplan, -⟩
    · exact absurd ho (hplain ha.greeted)
    · cases hplan
  | requesting hx hh hw hs =>
    rcases hw.output ho with ho | ⟨f, hf, hplan, -⟩
    · exact absurd ho (hplain hx.agreed.greeted)
    · exact absurd (List.mem_singleton.1 hplan) (hrequest hf)
  | receiving hx hh hw hs ht =>
    rcases hw.output ho with ho | ⟨f, hf, hplan, -⟩
    · exact absurd ho (hplain hx.agreed.greeted)
    · exact absurd (List.mem_singleton.1 hplan) (hrequest hf)
  | finished hx hh hw hs ht =>
    rcases hw.output ho with ho | ⟨f, hf, hplan, hsealed⟩
    · exact absurd ho (hplain hx.agreed.greeted)
    rcases List.mem_cons.1 hplan with hplan | hplan
    · exact absurd hplan (hrequest hf)
    · exact ⟨_, f, _, _, hx, hw, hf, hsealed, List.mem_singleton.1 hplan, hs.1, hs.2.1, ht.intact⟩

/-- The destination is opened for an offer that was read in the session. -/
theorem Reached.of_opened {ds : List FrameDeed} {s : Receiving} {admitted : Admitted}
    (hr : call.Reached P a replay ds s) (hopened : s.opened = some admitted) :
    ∃ session h₀ h₁ plan, call.Agreed P a replay session h₀ ∧
      call.Offered P a session h₀ admitted h₁ ∧ h₁ <+: ds ∧
      Within P (channel P session) h₀ plan ds := by
  have hsame : ∀ {other : Admitted}, s.opened = some other → other = admitted :=
    fun h => Option.some.inj (h.symm.trans hopened)
  cases hr with
  | greeting _ hs => exact absurd (hs.1.symm.trans hopened) nofun
  | talking _ _ hs => exact absurd (hs.1.symm.trans hopened) nofun
  | preparing ha ho hh hw _ hopened' =>
    rcases hopened' with hnone | ⟨hsome, -⟩
    · exact absurd (hnone.symm.trans hopened) nofun
    · exact hsame hsome ▸ ⟨_, _, _, _, ha, ho, hh, hw⟩
  | requesting hx hh hw hs => exact hsame hs.1 ▸ ⟨_, _, _, _, hx.agreed, hx.admits, hh, hw⟩
  | receiving hx hh hw hs _ => exact hsame hs.1 ▸ ⟨_, _, _, _, hx.agreed, hx.admits, hh, hw⟩
  | finished hx hh hw hs _ => exact hsame hs.1 ▸ ⟨_, _, _, _, hx.agreed, hx.admits, hh, hw⟩

/-- So it is at the end of a call, and a report is about what was admitted. -/
theorem opened_of_ends {ds : List FrameDeed} {r : Except Halt TransferReport} {s : Receiving}
    {admitted : Admitted} (h : Ends (call.receive_file P a) (.start replay) ds r s)
    (hopened : s.opened = some admitted) :
    ∃ session h₀ h₁ plan, call.Agreed P a replay session h₀ ∧
      call.Offered P a session h₀ admitted h₁ ∧ h₁ <+: ds ∧
      Within P (channel P session) h₀ plan ds ∧
      ∀ report', r = .ok report' → ∃ count route, report' =
        report session admitted admitted.disclosed.plaintext_digest count route := by
  rcases r with e | report'
  · obtain ⟨session, h₀, h₁, plan, ha, ho, hh, hw⟩ := (reached_of_ends h).of_opened hopened
    exact ⟨session, h₀, h₁, plan, ha, ho, hh, hw, nofun⟩
  · obtain ⟨x, hx, turns, digest, c, arrival, hh, hw, hs, -, -, hf, count, route, rfl⟩ :=
      returned_of_ends h
    obtain rfl := Option.some.inj (hs.symm.trans hopened)
    refine ⟨x.session, x.shaken, x.offered, _, hx.agreed, hx.admits, hh,
      hw.within (List.prefix_refl _), ?_⟩
    intro report' hreport
    rw [← hf.intact.announced]
    exact ⟨count, route, (Except.ok.inj hreport).symm⟩

end ReceiveCall

/-! ## What is offered is what is admitted -/

section Offer

variable {P : Primitives}

theorem open_envelope_of_at {envelope : SealedEnvelope} {key : Arr 32} {now : UInt64}
    {opened : OpenedEnvelope} (h : open_envelope_at P envelope key now = .ok opened) :
    open_envelope P envelope key = .ok opened := by
  unfold open_envelope_at at h
  simp only [bind_eq_ok, pure_eq_ok] at h
  obtain ⟨opened', hopen, -, -, -, -, rfl⟩ := h
  exact hopen

/-- The clock decides whether an offer is admitted, and not what is admitted. -/
theorem Admits.unique {device_id : Arr 32} {session : SessionKeys} {now now' : UInt64}
    {bytes : Bytes} {x y : Admitted} (hx : Admits P device_id session now bytes x)
    (hy : Admits P device_id session now' bytes y) : x = y := by
  obtain ⟨offer, announced, opened, object_public, disclosed, ctx, commitment⟩ := x
  obtain ⟨offer', announced', opened', object_public', disclosed', ctx', commitment'⟩ := y
  obtain rfl : offer = offer' := Except.ok.inj (hx.decoded.symm.trans hy.decoded)
  obtain ⟨-, -, hdecode, -⟩ := (TransferOffer.verify.spec ..).1 hx.verified
  obtain ⟨-, -, hdecode', -⟩ := (TransferOffer.verify.spec ..).1 hy.verified
  obtain rfl : announced = announced' := Except.ok.inj (hdecode.symm.trans hdecode')
  obtain ⟨entry, hentry, hopen⟩ := hx.opened
  obtain ⟨entry', hentry', hopen'⟩ := hy.opened
  obtain rfl := Option.some.inj (hentry.symm.trans hentry')
  obtain rfl : opened = opened' :=
    Except.ok.inj ((open_envelope_of_at hopen).symm.trans (open_envelope_of_at hopen'))
  obtain rfl : object_public = object_public' :=
    Option.some.inj (hx.primary.symm.trans hy.primary)
  obtain rfl : disclosed = disclosed' := Except.ok.inj (hx.disclosed.symm.trans hy.disclosed)
  obtain rfl : ctx = ctx' := Except.ok.inj (hx.ctx.symm.trans hy.ctx)
  obtain rfl : commitment = commitment' :=
    Except.ok.inj (hx.commitment.symm.trans hy.commitment)
  rfl

/-- What a receiver with the keys of the session admits is what the sender offered. -/
theorem Made.eq_expected {identity : DeviceIdentity} {sender receiver : SessionKeys}
    {pending : PendingTransfer} {file_name : String} {endpoint : Arr 32} {now later : UInt64}
    {draws : OfferDraws} {offer : TransferOffer} {envelope : SealedEnvelope}
    {sealed : SealedManifest} {admitted : Admitted}
    (h : Made P identity sender pending file_name endpoint now draws offer envelope sealed)
    (hD : P.Decrypts) (hE : P.Encrypts) (hV : DeviceIdentity.Verifies P) {file_size : UInt64}
    {chunk_size : UInt32} (hfile : ObjectContext.for_file pending.secrets.transfer_id
      pending.secrets.object_id file_size chunk_size = some pending.ctx)
    (hschedule : pending.schedule = pending.secrets.key_schedule P)
    (hkey : receiver.transfer_wrap_key = sender.transfer_wrap_key)
    (hpeer : receiver.peer.device_id = identity.device_id)
    (hadmits : admit_offer P sender.peer.device_id receiver later offer.encode = .ok admitted) :
    admitted = expected P identity sender pending file_name now sealed offer := by
  have hexpires : now < now + ENVELOPE_TTL_SECS :=
    (PublicManifest.validate_eq_ok.1 h.created.valid).2.1
  have hmade := h.admitted hD hE hV hfile hschedule hkey hpeer (Nat.le_refl _) hexpires
  exact (admit_offer.spec.1 hadmits).unique (admit_offer.spec.1 hmade)

theorem PendingTransfer.prepare.described {secrets : FileSecrets}
    {metadata : Except String UInt64} {source : File} {size : UInt32} {t : PendingTransfer}
    (h : prepare P secrets metadata source size = .ok t) : t.schedule = t.secrets.key_schedule P ∧
      ∃ file_size, ObjectContext.for_file t.secrets.transfer_id t.secrets.object_id file_size
        size = some t.ctx := by
  unfold prepare at h
  simp only [bind_eq_ok, ok_or_eq_ok, pure_eq_ok] at h
  obtain ⟨file_len, -, ctx, hctx, _, -, s, -, rfl⟩ := h
  exact ⟨rfl, file_len, hctx⟩

end Offer

namespace Meeting

/-- The other side made what the sender takes from it: the MAC that ends the handshake, and
every frame that a channel of the session opens. There is no collision in what the two
sides hash. -/
structure GenuineToSender (P : Primitives) (m : Meeting) (ds ds' : List FrameDeed) : Prop where
  finish : ∀ mac_b session, (m.send.handshake_run m.sent ds).Completed P mac_b session →
    plain_wire FRAME_SERVER_FINISH (encode_server_finish mac_b) ∈ outputs ds'
  apart : ∀ sig v signature mac_b v', (m.send.handshake_run m.sent ds).Derived P sig v →
    (m.receive.handshake_run m.received m.replay ds').Completed P signature mac_b v' →
    v.Apart P v'
  frame : ∀ mac_b session f c x c', (m.send.handshake_run m.sent ds).Completed P mac_b session →
    .got true (.ok f) ∈ ds →
    InEpoch P session.handshake_prk session.th2 c c.keys.epoch.toNat →
    c.send_direction = .ClientToServer → open_frame P c f = .ok (x, c') →
    ∃ out ∈ outputs ds', frames.scan true out = .got f []

/-- The other side made what the receiver takes from it: the signature that ends the
handshake, and every frame that a channel of the session opens. There is no collision in
what the two sides hash. -/
structure GenuineToReceiver (P : Primitives) (m : Meeting) (ds ds' : List FrameDeed) : Prop where
  signature : ∀ sig mac_b v,
    (m.receive.handshake_run m.received m.replay ds').Completed P sig mac_b v →
    ∃ v', (m.send.handshake_run m.sent ds).Derived P sig v'
  apart : ∀ sig mac_b v v',
    (m.receive.handshake_run m.received m.replay ds').Completed P sig mac_b v →
    (m.send.handshake_run m.sent ds).Derived P sig v' → v'.Apart P v
  frame : ∀ sig mac_b v f c x c',
    (m.receive.handshake_run m.received m.replay ds').Completed P sig mac_b v →
    .got true (.ok f) ∈ ds' →
    InEpoch P v.session.handshake_prk v.session.th2 c c.keys.epoch.toNat →
    c.send_direction = .ServerToClient → open_frame P c f = .ok (x, c') →
    ∃ out ∈ outputs ds, frames.scan true out = .got f []

variable {P : Primitives} {m : Meeting} {ds ds' : List FrameDeed} {report : TransferReport}
  {events : List Event} {r : Except Halt TransferReport} {s : Receiving}

/-! ## A link that carries what is written -/

section Link

variable {sig_a sig_b : HybridSignature} {script : List (Line UInt8)} {session : SessionKeys}
  {h₀ : List FrameDeed}

/-- What the initiator reads along the script of a handshake. -/
theorem sender_bodies (ha : m.send.Agreed P m.sent session h₀) (hh : h₀ <+: ds)
    (hscript : handshake_script P m.pair sig_a sig_b <+: script)
    (henacts : Enacts frames script ds) : plain_bodies h₀ =
      [m.pair.sh_bytes P sig_b, encode_server_finish (m.pair.mac_b P sig_b)] := by
  obtain ⟨sh, sf, cf, -, -, rfl⟩ := ha
  obtain ⟨rest, rfl⟩ := hh
  obtain ⟨more, rfl⟩ := hscript
  obtain ⟨hsh, henacts⟩ := henacts.of_send.of_recv
  obtain ⟨hsf, -⟩ := henacts.of_send.of_recv
  show [sh.1.body, sf.1.body] = _
  rw [body_of_scan (by decide) (length_sh_le P m.pair sig_b) hsh,
    body_of_scan (by decide) (length_encode_server_finish_le _) hsf]

/-- What the responder reads along the script of a handshake. -/
theorem receiver_bodies (ha : m.receive.Agreed P m.received m.replay session h₀)
    (hh : h₀ <+: ds) (hscript : handshake_script P m.pair sig_a sig_b <+: script)
    (henacts : Enacts frames (script.map Line.dual) ds) : plain_bodies h₀ =
      [(m.pair.ch P).encode, m.pair.cf_bytes P sig_a sig_b] := by
  obtain ⟨observed_peer, ch, cf, sh, sf, -, -, -, rfl⟩ := ha
  obtain ⟨rest, rfl⟩ := hh
  obtain ⟨more, rfl⟩ := hscript
  obtain ⟨hch, henacts⟩ := henacts.of_recv
  obtain ⟨hcf, -⟩ := henacts.of_send.of_recv
  show [ch.1.body, cf.1.body] = _
  rw [body_of_scan (by decide) (length_ch_le P m.pair) hch,
    body_of_scan (by decide) (ClientFinish.length_encode_full_le _) hcf]
  rfl

/-- Along one script the two calls have the runs of the pair. -/
theorem Calm.handshake_runs {content : Bytes} (h : m.Calm P content) (hreplay : m.replay = ⟨[], []⟩)
    (hscript : handshake_script P m.pair sig_a sig_b <+: script)
    (hsend : Ends (m.send.send_pending P m.sent) [] ds (.ok report) events)
    {report' : TransferReport}
    (hreceive : Ends (m.receive.receive_file P m.received) (.start m.replay) ds' (.ok report') s)
    (henacts : Enacts frames script ds) (henacts' : Enacts frames (script.map Line.dual) ds') :
    m.send.handshake_run m.sent ds = m.pair.initiator_run P sig_b ∧
      m.receive.handshake_run m.received m.replay ds' = m.pair.responder_run P sig_a sig_b := by
  obtain ⟨secrets, size, hprepare⟩ := h.prepared
  have hg := (PendingTransfer.prepare.spec P hprepare).geometry
  obtain ⟨session, h₀, offer, request, route, quiet, ha, ⟨h₁, plan, c, c', -, -, hheard⟩, -⟩ :=
    SendCall.returned_of_ends hg hsend
  obtain ⟨x, hx, turns, digest, c, arrival, -, hw, -⟩ := ReceiveCall.returned_of_ends hreceive
  have hwent := hheard.went.within (List.prefix_refl _)
  have hwent' := hw.within (List.prefix_refl _)
  have hbodies : plain_bodies ds = _ :=
    hwent.plain_bodies.trans (sender_bodies ha hwent.since hscript henacts)
  have hbodies' := hwent'.plain_bodies.trans
    (receiver_bodies hx.agreed hwent'.since hscript henacts')
  constructor
  · unfold SendCall.handshake_run
    rw [hbodies, h.peer]
    rfl
  · unfold ReceiveCall.handshake_run
    rw [hbodies', h.accept, hreplay]
    rfl

/-- Over a link that carries what is written, each side takes what the other side made. -/
theorem Calm.genuine (hx : P.Exchanges) (hkem : P.Decapsulates) {content : Bytes}
    (h : m.Calm P content) (hreplay : m.replay = ⟨[], []⟩) (hs : m.pair.Sound P sig_a sig_b)
    (hscript : handshake_script P m.pair sig_a sig_b <+: script)
    (hsend : Ends (m.send.send_pending P m.sent) [] ds (.ok report) events)
    {report' : TransferReport}
    (hreceive : Ends (m.receive.receive_file P m.received) (.start m.replay) ds' (.ok report') s)
    (henacts : Enacts frames script ds) (henacts' : Enacts frames (script.map Line.dual) ds') :
    m.GenuineToSender P ds ds' ∧ m.GenuineToReceiver P ds ds' := by
  obtain ⟨hrun, hrun'⟩ := h.handshake_runs hreplay hscript hsend hreceive henacts henacts'
  have hheard : ∀ {form f}, .got form (.ok f) ∈ ds →
      ∃ out ∈ outputs ds', frames.scan form out = .got f [] := by
    intro form f hf
    obtain ⟨out, ho, hscan⟩ := henacts.heard henacts' hf
    exact ⟨out, ho, List.append_nil out ▸ hscan []⟩
  have hheard' : ∀ {form f}, .got form (.ok f) ∈ ds' →
      ∃ out ∈ outputs ds, frames.scan form out = .got f [] := by
    intro form f hf
    obtain ⟨out, ho, hscan⟩ := henacts'.heard ((map_dual_dual script).symm ▸ henacts) hf
    exact ⟨out, ho, List.append_nil out ▸ hscan []⟩
  constructor
  · refine ⟨?_, ?_, fun _ _ _ _ _ _ _ hf _ _ _ => hheard hf⟩
    · rw [hrun]
      intro mac_b session hcompleted
      rw [handshake.Pair.eq_mac_b hs hcompleted]
      refine henacts'.written (List.mem_map.2 ⟨.recv _, hscript.subset ?_, rfl⟩)
      exact List.mem_append_right [_, _, _] List.mem_cons_self
    · rw [hrun, hrun']
      intro sig v signature mac_b v' hv hv'
      rw [handshake.Pair.eq_initiator_view hs hv,
        (handshake.Pair.eq_responder_view hx hkem hs hv').2]
      exact m.pair.views_apart P sig_b
  · refine ⟨?_, ?_, fun _ _ _ _ _ _ _ _ hf _ _ _ => hheard' hf⟩
    · rw [hrun, hrun']
      intro sig mac_b v hv
      rw [(handshake.Pair.eq_responder_view hx hkem hs hv).1]
      exact ⟨_, handshake.Pair.initiator_derived hs⟩
    · rw [hrun, hrun']
      intro sig mac_b v v' hv hv'
      rw [handshake.Pair.eq_initiator_view hs hv',
        (handshake.Pair.eq_responder_view hx hkem hs hv).2]
      exact m.pair.views_apart P sig_b

end Link

/-- The keys and the peers of the two sides of a session. -/
structure SameSession (P : Primitives) (m : Meeting) (session session' : SessionKeys) : Prop where
  prk : session.handshake_prk = session'.handshake_prk
  th2 : session.th2 = session'.th2
  wrap_key : session.transfer_wrap_key = session'.transfer_wrap_key
  peer : session.peer = m.receive.identity.public P
  peer' : session'.peer = m.send.identity.public P

/-- A sender that has taken the MAC of the receiver is in the session of the receiver. -/
theorem GenuineToSender.session (hx : P.Exchanges) (hkem : P.Decapsulates)
    (hg : m.GenuineToSender P ds ds') {session session' : SessionKeys} {h₀ h₀' : List FrameDeed}
    (ha : m.send.Agreed P m.sent session h₀) (hbodies : plain_bodies ds = plain_bodies h₀)
    (ha' : m.receive.Agreed P m.received m.replay session' h₀')
    {plan : List (UInt8 × Bytes)} (hw' : Within P (ReceiveCall.channel P session') h₀' plan ds')
    (hplan : ∀ ask ∈ plan, ask.1 ≠ FRAME_SERVER_FINISH) : m.SameSession P session session' := by
  obtain ⟨mac_b, hcompleted⟩ := ha.completed
  rw [← SendCall.handshake_run_congr hbodies] at hcompleted
  obtain ⟨signature, mac_b', v, hcompleted', hsession', hown', hunique⟩ := ha'.completed
  rw [← ReceiveCall.handshake_run_congr hw'.plain_bodies] at hcompleted'
  -- the MAC that the sender took is the one that the receiver made
  have hmac : encode_server_finish mac_b = encode_server_finish mac_b' := by
    apply hunique
    rcases hw'.output (hg.finish mac_b session hcompleted) with ho | ⟨f, hf, hasked, -⟩
    · exact ho
    · have htag := congrArg frame_tag hf
      rw [frame_tag_plain, f.frame_tag_bytes] at htag
      exact absurd htag.symm (hplan _ hasked)
  have hmac' := decode_encode_server_finish mac_b
  rw [hmac, decode_encode_server_finish] at hmac'
  obtain rfl := Except.ok.inj hmac'
  obtain ⟨v', rfl, hown, hagrees⟩ := agrees_of_mac hx hkem hcompleted hcompleted'
    fun sig v' hd => hg.apart sig v' signature mac_b' v hd hcompleted'
  subst hsession'
  exact ⟨hagrees.handshake_prk, hagrees.th2, hagrees.transfer_wrap_key,
    hagrees.peer.1.trans hown', hagrees.peer.2.trans hown⟩

/-- Whatever the network does, as long as it forges nothing that the sender takes: if the
sender returns a report then the receiver, however its own call ends, has the file, complete
and synced and with the digest of what was sent. It has it from the session that its call
went through, and each side is the peer of the other one. -/
theorem a_report_of_the_sender_means_that_the_receiver_has_the_file (hD : P.Decrypts)
    (hx : P.Exchanges) (hkem : P.Decapsulates) {secrets : FileSecrets}
    {metadata : Except String UInt64} {source : File} {size : UInt32}
    (hprepare : PendingTransfer.prepare P secrets metadata source size = .ok m.send.pending)
    (hsend : Ends (m.send.send_pending P m.sent) [] ds (.ok report) events)
    (hreceive : Ends (m.receive.receive_file P m.received) (.start m.replay) ds' r s)
    (hgenuine : m.GenuineToSender P ds ds') :
    ∃ (x : ReceiveCall.Setting) (arrival : Arrival),
      x.Holds P m.receive m.received m.replay ∧ x.shaken <+: ds' ∧
      s.opened = some x.admitted ∧ s.arrival = some arrival ∧
      ReceiveCall.Intact P x.admitted m.send.pending.plaintext_digest arrival.recv ∧
      report.peer_device_id = m.receive.identity.device_id ∧
      x.session.peer = m.send.identity.public P := by
  have hg := (PendingTransfer.prepare.spec P hprepare).geometry
  obtain ⟨session, h₀, offer, request, route, quiet, ha, ⟨h₁, plan, c, c', -, -, hheard⟩, rfl, -⟩ :=
    SendCall.returned_of_ends hg hsend
  have hbodies := hheard.went.plain_bodies
  obtain ⟨before, f, rfl, ⟨ds₁, fs, rfl, hthrough, -⟩, hopen⟩ := hheard
  obtain ⟨hepoch, hdirection, -⟩ := hthrough.in_session
  obtain ⟨mac_b, hcompleted⟩ := ha.completed
  rw [← SendCall.handshake_run_congr hbodies] at hcompleted
  -- the acknowledgement was written by the receiver
  obtain ⟨out, ho, hscan⟩ := hgenuine.frame mac_b session f c _ c' hcompleted
    (List.mem_append_right _ List.mem_cons_self) hepoch hdirection hopen
  have htag : frame_tag out = FRAME_COMPLETE :=
    (scan_tag hscan).symm.trans (open_frame_eq_ok hopen).1.symm
  obtain ⟨x, g, digest, arrival, hx', hw', rfl, hsealed, hasked, hopened, harrival, hintact⟩ :=
    (ReceiveCall.reached_of_ends hreceive).acknowledgement ho htag
  have hsame := hgenuine.session hx hkem ha hbodies hx'.agreed hw' (by
    intro ask hask
    rcases List.mem_cons.1 hask with rfl | hask
    · exact (by decide : FRAME_RANGE_REQUEST ≠ FRAME_SERVER_FINISH)
    · rw [List.mem_singleton.1 hask]
      exact (by decide : FRAME_COMPLETE ≠ FRAME_SERVER_FINISH))
  -- and it was opened to what was sealed
  rw [hsealed.scan hscan] at hopen
  rw [hsame.prk, hsame.th2] at hepoch
  have hack := hsealed.opened hD hepoch (congrArg control.Direction.opposite hdirection) hopen
  rw [hasked] at hack
  have hdecode := decode_encode_ack 0 digest
  rw [← (Prod.mk.inj hack).2, decode_encode_ack] at hdecode
  obtain rfl := (Prod.mk.inj (Except.ok.inj hdecode)).2
  exact ⟨x, arrival, hx', hw'.since, hopened, harrival, hintact,
    congrArg DevicePublic.device_id hsame.peer, hsame.peer'⟩

/-- A sender that reports one byte, and the receiver that has it. -/
theorem a_report_of_one_byte_means_that_the_receiver_has_it :
    ∃ (m : Meeting) (ds ds' : List FrameDeed) (report report' : TransferReport)
      (events : List Event) (x : ReceiveCall.Setting) (s : Receiving) (arrival : Arrival),
      Ends (m.send.send_pending sample m.sent) [] ds (.ok report) events ∧
      Ends (m.receive.receive_file sample m.received) (.start m.replay) ds' (.ok report') s ∧
      x.Holds sample m.receive m.received m.replay ∧ x.shaken <+: ds' ∧
      s.arrival = some arrival ∧
      ReceiveCall.Intact sample x.admitted m.send.pending.plaintext_digest arrival.recv ∧
      report.peer_device_id = m.receive.identity.device_id := by
  obtain ⟨_, sig_a, sig_b, script, report, events, report', s, ds, ds', hcalm, ⟨pending, rfl⟩,
    hpair, hscript, hsend, hreceive, henacts, henacts'⟩ := Meeting.exists_runs
  obtain ⟨secrets, size, hprepare⟩ := hcalm.prepared
  have hgenuine := hcalm.genuine sample_exchanges sample_decapsulates rfl hpair hscript hsend
    hreceive henacts henacts'
  obtain ⟨x, arrival, hx, hshaken, -, harrival, hintact, hpeer, -⟩ :=
    a_report_of_the_sender_means_that_the_receiver_has_the_file sample_decrypts sample_exchanges
      sample_decapsulates hprepare hsend hreceive hgenuine.1
  exact ⟨_, ds, ds', report, report', events, x, s, arrival, hsend, hreceive, hx, hshaken,
    harrival, hintact, hpeer⟩

/-- A receiver that has taken the signature of the sender is in the session of the sender. -/
theorem GenuineToReceiver.session (hx : P.Exchanges) (hkem : P.Decapsulates)
    (hsign : DevicePublic.SignsExactly P) (hg : m.GenuineToReceiver P ds ds')
    {session session' : SessionKeys} {h₀ h₀' : List FrameDeed}
    (ha : m.send.Agreed P m.sent session h₀) (hbodies : plain_bodies ds = plain_bodies h₀)
    (ha' : m.receive.Agreed P m.received m.replay session' h₀')
    (hbodies' : plain_bodies ds' = plain_bodies h₀') : m.SameSession P session session' := by
  obtain ⟨mac_b, hcompleted⟩ := ha.completed
  rw [← SendCall.handshake_run_congr hbodies] at hcompleted
  obtain ⟨sig, mac_b', v, hcompleted', rfl, hown', -⟩ := ha'.completed
  rw [← ReceiveCall.handshake_run_congr hbodies'] at hcompleted'
  obtain ⟨v', hderived⟩ := hg.signature sig mac_b' v hcompleted'
  have hagrees := agrees_of_signature hx hkem hsign hderived hcompleted'
    (hg.apart sig mac_b' v v' hcompleted' hderived)
  obtain ⟨-, -, -, -, -, -, -, -, -, hown, -⟩ := Initiator.Run.derived_spec hderived
  rw [Initiator.Run.session_of_completed hderived hcompleted]
  exact ⟨hagrees.handshake_prk, hagrees.th2, hagrees.transfer_wrap_key,
    hagrees.peer.1.trans hown', hagrees.peer.2.trans hown⟩

/-- Whatever the network does, as long as it forges nothing that the receiver takes: the
receiver opens its destination only for the offer of the sender, with the secrets, the sizes
and the name that the sender gave it, and a report of the receiver is about that object. The
two sessions are those of the handshakes that the two calls went through. -/
theorem the_receiver_opens_its_destination_only_for_what_the_sender_offers (hE : P.Encrypts)
    (hD : P.Decrypts) (hV : DeviceIdentity.Verifies P) (hx : P.Exchanges) (hkem : P.Decapsulates)
    (hsign : DevicePublic.SignsExactly P) {secrets : FileSecrets}
    {metadata : Except String UInt64} {source : File} {size : UInt32}
    (hprepare : PendingTransfer.prepare P secrets metadata source size = .ok m.send.pending)
    {q : Party UInt8 Bool TransferError Numbered (Except Halt TransferReport × List Event)}
    (hsend : Does (run (m.send.send_pending P m.sent) []) ds q)
    (hreceive : Ends (m.receive.receive_file P m.received) (.start m.replay) ds' r s)
    (hgenuine : m.GenuineToReceiver P ds ds') {admitted : Admitted}
    (hopened : s.opened = some admitted) :
    ∃ session session' offer h₀ h₀', m.send.Agreed P m.sent session h₀ ∧
      plain_bodies ds = plain_bodies h₀ ∧ m.receive.Agreed P m.received m.replay session' h₀' ∧
      h₀' <+: ds' ∧ m.send.Offers P m.sent session offer ∧ m.SameSession P session session' ∧
      admitted = expected P m.send.identity session m.send.pending m.send.file_name m.sent.now
        offer.sealed_manifest offer ∧
      ∀ report, r = .ok report → ∃ count route,
        report = ReceiveCall.report session' admitted m.send.pending.plaintext_digest count
          route := by
  obtain ⟨hschedule, file_size, hfile⟩ := PendingTransfer.prepare.described hprepare
  obtain ⟨session', h₀', h₁, plan, ha', ⟨c, bytes, c', hheard, hadmits⟩, hh, hw', hreport⟩ :=
    ReceiveCall.opened_of_ends hreceive hopened
  obtain ⟨before, f, rfl, ⟨ds₁, fs, rfl, hthrough, -⟩, hopen⟩ := hheard
  obtain ⟨hepoch, hdirection, -⟩ := hthrough.in_session
  obtain ⟨sig, mac_b, v, hcompleted, rfl, -, -⟩ := ha'.completed
  rw [← ReceiveCall.handshake_run_congr hw'.plain_bodies] at hcompleted
  -- the offer was written by the sender
  obtain ⟨out, ho, hscan⟩ := hgenuine.frame sig mac_b v f c _ c' hcompleted
    (hh.subset (List.mem_append_right _ List.mem_cons_self)) hepoch hdirection hopen
  have htag : frame_tag out = FRAME_OFFER :=
    (scan_tag hscan).symm.trans (open_frame_eq_ok hopen).1.symm
  have hgeometry := (PendingTransfer.prepare.spec P hprepare).geometry
  obtain ⟨ds₂, ⟨r', events⟩, hends⟩ := hsend.ends
  have hreached := SendCall.Reached.of_prefix (SendCall.reached_of_ends hgeometry hends)
    (List.prefix_append ds ds₂)
  obtain ⟨session, h₀, offer, g, ha, hbodies, hoffer, rfl, hsealed, hasked⟩ :=
    hreached.offer ho htag
  have hsame := hgenuine.session hx hkem hsign ha hbodies ha' hw'.plain_bodies
  -- and it was opened to what was sealed
  rw [hsealed.scan hscan] at hopen
  rw [← hsame.prk, ← hsame.th2] at hepoch
  have hplain := hsealed.opened hD hepoch (congrArg control.Direction.opposite hdirection) hopen
  rw [hasked] at hplain
  obtain rfl : bytes = offer.encode := (Prod.mk.inj hplain).2
  obtain ⟨envelope, sealed, hmade⟩ := make_offer.spec hoffer
  have hdevice : m.receive.identity.device_id = session.peer.device_id :=
    (congrArg DevicePublic.device_id hsame.peer).symm
  rw [hdevice] at hadmits
  have hexpected := hmade.eq_expected hD hE hV hfile hschedule hsame.wrap_key.symm
    (congrArg DevicePublic.device_id hsame.peer') hadmits
  have hsealed' : offer.sealed_manifest = sealed := by rw [hmade.created.offer_eq]
  have hdigest : admitted.disclosed.plaintext_digest = m.send.pending.plaintext_digest := by
    rw [hexpected]
    rfl
  rw [hdigest] at hreport
  exact ⟨session, v.session, offer, h₀, h₀', ha, hbodies, ha', hw'.since, hoffer, hsame,
    hsealed' ▸ hexpected, hreport⟩

/-- The destination of one byte is opened for the offer of the sender. -/
theorem the_destination_of_one_byte_is_opened_for_its_offer :
    ∃ (m : Meeting) (session session' : SessionKeys) (offer : TransferOffer)
      (h₀ h₀' ds ds' : List FrameDeed) (s : Receiving) (report : TransferReport),
      Ends (m.receive.receive_file sample m.received) (.start m.replay) ds' (.ok report) s ∧
      m.send.Agreed sample m.sent session h₀ ∧ plain_bodies ds = plain_bodies h₀ ∧
      m.receive.Agreed sample m.received m.replay session' h₀' ∧ h₀' <+: ds' ∧
      m.send.Offers sample m.sent session offer ∧
      s.opened = some (expected sample m.send.identity session m.send.pending m.send.file_name
        m.sent.now offer.sealed_manifest offer) ∧
      ∃ admitted count route, report = ReceiveCall.report session' admitted
        m.send.pending.plaintext_digest count route := by
  obtain ⟨_, sig_a, sig_b, script, report, events, report', s, ds, ds', hcalm, ⟨pending, rfl⟩,
    hpair, hscript, hsend, hreceive, henacts, henacts'⟩ := Meeting.exists_runs
  obtain ⟨secrets, size, hprepare⟩ := hcalm.prepared
  have hgenuine := hcalm.genuine sample_exchanges sample_decapsulates rfl hpair hscript hsend
    hreceive henacts henacts'
  obtain ⟨x, -, -, -, -, -, -, -, hopened, -⟩ := ReceiveCall.returned_of_ends hreceive
  obtain ⟨session, session', offer, h₀, h₀', ha, hbodies, ha', hh, hoffer, -, hexpected, hreport⟩ :=
    the_receiver_opens_its_destination_only_for_what_the_sender_offers sample_encrypts
      sample_decrypts DeviceIdentity.sample_verifies sample_exchanges sample_decapsulates
      DevicePublic.sample_signsExactly hprepare hsend hreceive hgenuine.2 hopened
  exact ⟨_, session, session', offer, h₀, h₀', ds, ds', s, report', hreceive, ha, hbodies, ha', hh,
    hoffer, hexpected ▸ hopened, _, hreport report' rfl⟩

end Meeting

end rtp2_core.transfer
