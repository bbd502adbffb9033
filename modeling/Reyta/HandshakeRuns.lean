-- Each side of a handshake is a run: a fresh state machine and the calls that
-- the network makes on it, in any order and with any bytes. It answers at most
-- once and completes at most once.
import Reyta.CallMachine
import Reyta.Handshake

open byte_string call_machine exact_parse

namespace rtp2_core.handshake

open cbor crypto identity

variable (P : Primitives)

/-! ## Runs -/

namespace Initiator

inductive Call where
  | server_hello (random : FinishRandom) (sh_bytes : Bytes)
  | server_finish (sf_bytes : Bytes)

/-- What became of a call. A ClientFinish is sent with the state that is kept
for the ServerFinish. -/
inductive Event where
  | answered (sh_bytes cf_bytes : Bytes) (state : InitiatorState)
  | finished (sf_bytes : Bytes) (session : SessionKeys)
  | refused (e : HandshakeError)
  deriving DecidableEq

def Event.Refused (ev : Event) : Prop := ∃ e, ev = .refused e

def call (self : Initiator) : Call → Event × Initiator
  | .server_hello random sh_bytes =>
    match self.on_server_hello P random sh_bytes with
    | (.ok cf_bytes, i) => (.answered sh_bytes cf_bytes i.state, i)
    | (.error e, i) => (.refused e, i)
  | .server_finish sf_bytes =>
    match self.on_server_finish P sf_bytes with
    | (.ok session, i) => (.finished sf_bytes session, i)
    | (.error e, i) => (.refused e, i)

structure Run where
  identity : DeviceIdentity
  local_endpoint_id : Arr 32
  expected_peer_endpoint : Arr 32
  random : StartRandom
  calls : List Call

namespace Run

def hello (A : Run) : ClientHello := Initiator.hello P A.identity A.local_endpoint_id A.random

def started (A : Run) : Initiator × Bytes :=
  start P A.identity A.local_endpoint_id A.expected_peer_endpoint A.random

def events (A : Run) : List Event := call_machine.events (call P) (A.started P).1 A.calls

end Run

end Initiator

namespace Responder

inductive Call where
  | client_hello (ch_bytes : Bytes) (observed_peer_endpoint : Arr 32) (replay : ReplayCache)
      (random : HelloRandom)
  | client_finish (cf_bytes : Bytes)

inductive Event where
  | answered (ch_bytes sh_bytes : Bytes)
  | finished (cf_bytes sf_bytes : Bytes) (session : SessionKeys)
  | refused (e : HandshakeError)
  deriving DecidableEq

def Event.Refused (ev : Event) : Prop := ∃ e, ev = .refused e

def call (self : Responder) : Call → Event × Responder
  | .client_hello ch_bytes observed replay random =>
    match self.on_client_hello P ch_bytes observed replay random with
    | (.ok sh_bytes, r, _) => (.answered ch_bytes sh_bytes, r)
    | (.error e, r, _) => (.refused e, r)
  | .client_finish cf_bytes =>
    match self.on_client_finish P cf_bytes with
    | (.ok (sf_bytes, session), r) => (.finished cf_bytes sf_bytes session, r)
    | (.error e, r) => (.refused e, r)

structure Run where
  identity : DeviceIdentity
  local_endpoint_id : Arr 32
  calls : List Call

def Run.events (B : Run) : List Event :=
  call_machine.events (call P) (new B.identity B.local_endpoint_id) B.calls

end Responder

/-! ## What the steps establish -/

variable {P}

theorem x25519_agree_eq_ok {secret peer shared : Arr 32}
    (h : x25519_agree P secret peer = .ok shared) : shared = P.x25519 secret peer := by
  obtain ⟨_, -, h⟩ := bind_eq_ok.1 h
  exact (pure_eq_ok.1 h).symm

theorem mlkem_encapsulate_eq_ok {pk : Arr MLKEM768_PUBLIC_KEY_LEN} {random : Arr 32}
    {r : Arr MLKEM768_CIPHERTEXT_LEN × Arr MLKEM768_SHARED_SECRET_LEN}
    (h : mlkem_encapsulate P pk random = .ok r) : r = P.mlkem_encapsulate pk random := by
  obtain ⟨_, -, h⟩ := bind_eq_ok.1 h
  exact (pure_eq_ok.1 h).symm

theorem hybrid_sign_eq_ok {identity : DeviceIdentity} {hash : Arr 48} {random : Arr 32}
    {sig : HybridSignature} (h : hybrid_sign P identity hash random = .ok sig) :
    identity.hybrid_sign P hash.bytes random = some sig := by
  unfold hybrid_sign at h
  cases hs : identity.hybrid_sign P hash.bytes random with
  | none =>
    rw [hs] at h
    cases h
  | some sig' =>
    rw [hs] at h
    rw [pure_eq_ok.1 h]

theorem x25519_agree_of_ne {secret peer : Arr 32} (h : P.x25519 secret peer ≠ .replicate 32 0) :
    x25519_agree P secret peer = .ok (P.x25519 secret peer) :=
  bind_eq_ok.2 ⟨(), refuse_if_eq_ok.2 h, rfl⟩

theorem mlkem_encapsulate_of_valid {pk : Arr MLKEM768_PUBLIC_KEY_LEN}
    (h : P.mlkem_validate pk = true) (random : Arr 32) :
    mlkem_encapsulate P pk random = .ok (P.mlkem_encapsulate pk random) :=
  bind_eq_ok.2 ⟨(), refuse_if_eq_ok.2 (ne_false_of_eq_true h), rfl⟩

theorem hybrid_sign_of_some {identity : DeviceIdentity} {hash : Arr 48} {random : Arr 32}
    {sig : HybridSignature} (h : identity.hybrid_sign P hash.bytes random = some sig) :
    hybrid_sign P identity hash random = .ok sig := by
  rw [hybrid_sign, h]
  rfl

theorem Initiator.hello_inRange (identity : DeviceIdentity) (endpoint : Arr 32)
    (random : StartRandom) : (hello P identity endpoint random).InRange := by
  refine ⟨?_, ?_, ?_⟩ <;> simp [hello, ALPN, ascii]

/-- The hello of an initiator passes the checks of a responder while its
timestamp is inside the window. -/
theorem Initiator.hello_passes {identity : DeviceIdentity} {endpoint : Arr 32}
    {random : StartRandom} {now : UInt64}
    (htime : ¬ abs_diff random.now now > TIMESTAMP_WINDOW_SECS) :
    Responder.check_hello endpoint now (hello P identity endpoint random) = .ok () := by
  refine bind_eq_ok.2 ⟨(), refuse_if_eq_ok.2 (not_not.2 rfl), ?_⟩
  refine bind_eq_ok.2 ⟨(), refuse_if_eq_ok.2 (not_not.2 rfl), ?_⟩
  refine bind_eq_ok.2 ⟨(), refuse_if_eq_ok.2 (not_not.2 List.mem_cons_self), ?_⟩
  refine bind_eq_ok.2 ⟨(), refuse_if_eq_ok.2 ?_, ?_⟩
  · simp [hello]
  refine bind_eq_ok.2 ⟨(), refuse_if_eq_ok.2 (not_not.2 rfl), ?_⟩
  exact refuse_if_eq_ok.2 htime

/-- The keys of an initiator that answers the ServerHello. -/
def Initiator.keys_for (P : Primitives) (ex_secret : Arr 32) (kem : Arr 64) (ch_bytes : Bytes)
    (random : FinishRandom) (sh : ServerHello) (th2 : Arr 48) : DerivedKeys :=
  let (ct_to_b, ss_pq_b) := P.mlkem_encapsulate sh.kem_pk random.encapsulate
  derive_keys P ch_bytes (sh.encode none) (ClientFinish.encode_bare ct_to_b) th2
    (P.x25519 ex_secret sh.ex_pk) (P.mlkem_decapsulate kem sh.ct_to_a) ss_pq_b

theorem Initiator.answer_eq_ok {identity : DeviceIdentity} {ex_secret : Arr 32} {kem : Arr 64}
    {ch_bytes : Bytes} {expected : Arr 32} {random : FinishRandom} {sh_bytes cf_bytes : Bytes}
    {state : InitiatorState}
    (h : answer P identity ex_secret kem ch_bytes expected random sh_bytes =
      .ok (cf_bytes, state)) :
    ∃ sh sig_b sig_a, ServerHello.decode sh_bytes = .ok (sh, sig_b) ∧
      let ct_to_b := (P.mlkem_encapsulate sh.kem_pk random.encapsulate).1
      let th2 := transcript_2 P ch_bytes (sh.encode sig_b) ct_to_b
      let keys := keys_for P ex_secret kem ch_bytes random sh th2
      let mac_a := client_mac P keys.client_finished_key th2
      identity.hybrid_sign P th2.bytes random.sign = some sig_a ∧
      cf_bytes = ClientFinish.encode_full ⟨ct_to_b, sig_a, mac_a⟩ ∧
      state = .AwaitServerFinish keys th2 mac_a sh.cert sh.endpoint_id := by
  unfold answer at h
  obtain ⟨⟨sh, sig_b⟩, hdec, h⟩ := bind_eq_ok.1 h
  obtain ⟨_, -, h⟩ := bind_eq_ok.1 h
  obtain ⟨_, -, h⟩ := bind_eq_ok.1 h
  obtain ⟨_, -, h⟩ := bind_eq_ok.1 h
  obtain ⟨_, -, h⟩ := bind_eq_ok.1 h
  obtain ⟨_, -, h⟩ := bind_eq_ok.1 h
  obtain ⟨ss_x, hx, h⟩ := bind_eq_ok.1 h
  obtain ⟨⟨ct_to_b, ss_pq_b⟩, hkem, h⟩ := bind_eq_ok.1 h
  obtain ⟨sig_a, hsign, h⟩ := bind_eq_ok.1 h
  obtain rfl := x25519_agree_eq_ok hx
  have hkem := mlkem_encapsulate_eq_ok hkem
  cases pure_eq_ok.1 h
  refine ⟨sh, sig_b, sig_a, hdec, ?_⟩
  simp only [keys_for, ← hkem]
  exact ⟨hybrid_sign_eq_ok hsign, trivial, trivial⟩

theorem Initiator.accept_eq_ok {keys : DerivedKeys} {th2 mac_a : Arr 48} {peer : DevicePublic}
    {peer_endpoint_id : Arr 32} {sf_bytes : Bytes} {session : SessionKeys}
    (h : accept P keys th2 mac_a peer peer_endpoint_id sf_bytes = .ok session) :
    decode_server_finish sf_bytes = .ok (server_mac P keys.server_finished_key th2 mac_a) ∧
      session = keys.session .Initiator th2 peer peer_endpoint_id := by
  unfold accept at h
  obtain ⟨mac_b, hdec, h⟩ := bind_eq_ok.1 h
  obtain ⟨_, hmac, h⟩ := bind_eq_ok.1 h
  have hmac : mac_b = server_mac P keys.server_finished_key th2 mac_a :=
    Arr.ext (ct_eq_iff.1 (eq_true_of_ne_false (refuse_if_eq_ok.1 hmac)))
  rw [← hmac]
  exact ⟨hdec, (pure_eq_ok.1 h).symm⟩

/-- The ServerHello of a responder. -/
def Responder.hello (P : Primitives) (self : Responder) (ch : ClientHello) (random : HelloRandom) :
    ServerHello where
  selected_minor := min ch.protocol_minor PROTOCOL_MINOR.toUInt64
  handshake_mode := MODE_STANDALONE
  alpn := ALPN
  selected_suite := SUITE_ID
  nonce := random.nonce
  ex_pk := P.x25519_public random.ex_secret
  kem_pk := P.mlkem_public random.kem
  ct_to_a := (P.mlkem_encapsulate ch.kem_pk random.encapsulate).1
  cert := self.identity.public P
  endpoint_id := self.local_endpoint_id

theorem Responder.answer_eq_ok {self : Responder} {ch_bytes : Bytes} {ch : ClientHello}
    {random : HelloRandom} {sh_bytes : Bytes} {state : ResponderState}
    (h : answer P self ch_bytes ch random = .ok (sh_bytes, state)) :
    ∃ sig_b : HybridSignature, sh_bytes = (self.hello P ch random).encode sig_b ∧
      state = .AwaitClientFinish random.ex_secret random.kem
        (P.mlkem_encapsulate ch.kem_pk random.encapsulate).2 ch_bytes
        ((self.hello P ch random).encode none) sh_bytes ch.ex_pk ch.cert ch.endpoint_id := by
  unfold answer at h
  obtain ⟨⟨ct_to_a, ss_pq_a⟩, hkem, h⟩ := bind_eq_ok.1 h
  obtain ⟨sig_b, -, h⟩ := bind_eq_ok.1 h
  have hkem := mlkem_encapsulate_eq_ok hkem
  cases pure_eq_ok.1 h
  refine ⟨sig_b, ?_⟩
  simp only [hello, ← hkem]
  exact ⟨trivial, trivial⟩

theorem Responder.accept_eq_ok {ex_secret : Arr 32} {kem : Arr 64} {ss_pq_a : Arr 32}
    {ch_bytes sh_wo_sig sh_full : Bytes} {client_ex_pk : Arr 32} {client_cert : DevicePublic}
    {client_endpoint_id : Arr 32} {cf_bytes sf_bytes : Bytes} {session : SessionKeys}
    (h : accept P ex_secret kem ss_pq_a ch_bytes sh_wo_sig sh_full client_ex_pk client_cert
      client_endpoint_id cf_bytes = .ok (sf_bytes, session)) :
    ∃ cf, ClientFinish.decode cf_bytes = .ok cf ∧
      let th2 := transcript_2 P ch_bytes sh_full cf.ct_to_b
      let keys := derive_keys P ch_bytes sh_wo_sig (ClientFinish.encode_bare cf.ct_to_b) th2
        (P.x25519 ex_secret client_ex_pk) ss_pq_a (P.mlkem_decapsulate kem cf.ct_to_b)
      client_cert.hybrid_verify P th2.bytes cf.signature = true ∧
      cf.finished_mac = client_mac P keys.client_finished_key th2 ∧
      sf_bytes = encode_server_finish (server_mac P keys.server_finished_key th2 cf.finished_mac) ∧
      session = keys.session .Responder th2 client_cert client_endpoint_id := by
  unfold accept at h
  obtain ⟨cf, hdec, h⟩ := bind_eq_ok.1 h
  obtain ⟨_, hverify, h⟩ := bind_eq_ok.1 h
  obtain ⟨ss_x, hx, h⟩ := bind_eq_ok.1 h
  obtain ⟨_, hmac, h⟩ := bind_eq_ok.1 h
  obtain rfl := x25519_agree_eq_ok hx
  cases pure_eq_ok.1 h
  exact ⟨cf, hdec, eq_true_of_ne_false (refuse_if_eq_ok.1 hverify),
    Arr.ext (ct_eq_iff.1 (eq_true_of_ne_false (refuse_if_eq_ok.1 hmac))), rfl, rfl⟩

/-! ## What a whole run does -/

theorem Initiator.call_cases (i : Initiator) (c : Call) :
    (∃ e, i.call P c = (.refused e, { i with state := .Failed })) ∨
    (∃ ex_secret kem ch_bytes expected random sh_bytes cf_bytes state,
      i.state = .AwaitServerHello ex_secret kem ch_bytes expected ∧
      answer P i.identity ex_secret kem ch_bytes expected random sh_bytes =
        .ok (cf_bytes, state) ∧
      i.call P c = (.answered sh_bytes cf_bytes state, { i with state })) ∨
    (∃ keys th2 mac_a peer peer_endpoint_id sf_bytes session,
      i.state = .AwaitServerFinish keys th2 mac_a peer peer_endpoint_id ∧
      accept P keys th2 mac_a peer peer_endpoint_id sf_bytes = .ok session ∧
      i.call P c = (.finished sf_bytes session, { i with state := .Done })) := by
  unfold call
  cases c with
  | server_hello random sh_bytes =>
    unfold on_server_hello
    cases hs : i.state with
    | AwaitServerHello ex_secret kem ch_bytes expected =>
      rcases ha : answer P i.identity ex_secret kem ch_bytes expected random sh_bytes with e | r
      · exact .inl ⟨e, by simp [ha]⟩
      · exact .inr (.inl ⟨ex_secret, kem, ch_bytes, expected, random, sh_bytes, r.1, r.2, rfl, ha,
          by simp [ha]⟩)
    | _ => exact .inl ⟨.State, rfl⟩
  | server_finish sf_bytes =>
    unfold on_server_finish
    cases hs : i.state with
    | AwaitServerFinish keys th2 mac_a peer peer_endpoint_id =>
      rcases ha : accept P keys th2 mac_a peer peer_endpoint_id sf_bytes with e | session
      · exact .inl ⟨e, by simp [ha]⟩
      · exact .inr (.inr ⟨keys, th2, mac_a, peer, peer_endpoint_id, sf_bytes, session, rfl, ha,
          by simp [ha]⟩)
    | _ => exact .inl ⟨.State, rfl⟩

/-- No call is served any more. -/
def Initiator.Stopped (i : Initiator) : Prop := i.state = .Done ∨ i.state = .Failed

theorem Initiator.call_of_stopped (i : Initiator) (c : Call) (hi : i.Stopped) :
    (i.call P c).1.Refused ∧ (i.call P c).2.Stopped := by
  rcases i.call_cases (P := P) c with ⟨e, he⟩ | ⟨_, _, _, _, _, _, _, _, hs, -⟩ |
    ⟨_, _, _, _, _, _, _, hs, -⟩
  · rw [he]
    exact ⟨⟨e, rfl⟩, .inr rfl⟩
  · rcases hi with hi | hi <;> cases hi.symm.trans hs
  · rcases hi with hi | hi <;> cases hi.symm.trans hs

/-- The ServerFinish is accepted, or the call is refused. -/
def Initiator.Event.Finishes (P : Primitives) (keys : DerivedKeys) (th2 mac_a : Arr 48)
    (peer : DevicePublic) (peer_endpoint_id : Arr 32) (ev : Event) : Prop :=
  ev.Refused ∨ ∃ sf_bytes session, ev = .finished sf_bytes session ∧
    accept P keys th2 mac_a peer peer_endpoint_id sf_bytes = .ok session

theorem Initiator.call_of_finish {i : Initiator} {keys : DerivedKeys} {th2 mac_a : Arr 48}
    {peer : DevicePublic} {peer_endpoint_id : Arr 32}
    (hi : i.state = .AwaitServerFinish keys th2 mac_a peer peer_endpoint_id) (c : Call) :
    (i.call P c).1.Finishes P keys th2 mac_a peer peer_endpoint_id ∧ (i.call P c).2.Stopped := by
  rcases i.call_cases (P := P) c with ⟨e, he⟩ | ⟨_, _, _, _, _, _, _, _, hs, -⟩ |
    ⟨_, _, _, _, _, sf_bytes, session, hs, ha, he⟩
  · rw [he]
    exact ⟨.inl ⟨e, rfl⟩, .inr rfl⟩
  · cases hi.symm.trans hs
  · rw [he]
    cases hi.symm.trans hs
    exact ⟨.inr ⟨sf_bytes, session, rfl, ha⟩, .inl rfl⟩

/-- Nothing but refusals, or one answer that is followed by at most one
completion. -/
theorem Initiator.Run.spec (A : Run) :
    (∀ ev ∈ A.events P, ev.Refused) ∨
    ∃ random sh_bytes cf_bytes keys th2 mac_a peer peer_endpoint_id,
      answer P A.identity A.random.ex_secret A.random.kem (A.started P).2
        A.expected_peer_endpoint random sh_bytes =
          .ok (cf_bytes, .AwaitServerFinish keys th2 mac_a peer peer_endpoint_id) ∧
      .answered sh_bytes cf_bytes (.AwaitServerFinish keys th2 mac_a peer peer_endpoint_id) ∈
        A.events P ∧
      ∀ ev ∈ A.events P, ev = .answered sh_bytes cf_bytes
          (.AwaitServerFinish keys th2 mac_a peer peer_endpoint_id) ∨
        ev.Finishes P keys th2 mac_a peer peer_endpoint_id := by
  unfold events
  rcases A.calls with _ | ⟨c, cs⟩
  · exact .inl fun ev h => nomatch h
  · rw [call_machine.events]
    rcases (A.started P).1.call_cases (P := P) c with ⟨e, he⟩ |
      ⟨_, _, _, _, random, sh_bytes, cf_bytes, state, hs, ha, he⟩ | ⟨_, _, _, _, _, _, _, hs, -⟩
    · left
      rw [he]
      intro ev h
      rcases List.mem_cons.1 h with rfl | h
      · exact ⟨e, rfl⟩
      · exact events_good call_of_stopped (.inr rfl) h
    · right
      cases hs
      obtain ⟨_, _, _, -, -, -, rfl⟩ := answer_eq_ok ha
      rw [he]
      refine ⟨random, sh_bytes, cf_bytes, _, _, _, _, _, ha, List.mem_cons_self, ?_⟩
      intro ev h
      rcases List.mem_cons.1 h with rfl | h
      · exact .inl rfl
      · rcases events_first (call_of_finish rfl) call_of_stopped h with h | h
        · exact .inr h
        · exact .inr (.inl h)
    · cases hs

theorem Responder.call_cases (r : Responder) (c : Call) :
    (∃ e, r.call P c = (.refused e, { r with state := .Failed })) ∨
    (∃ ch_bytes ch random sh_bytes state,
      r.state = .AwaitClientHello ∧ ClientHello.decode ch_bytes = .ok ch ∧
      answer P r ch_bytes ch random = .ok (sh_bytes, state) ∧
      r.call P c = (.answered ch_bytes sh_bytes, { r with state })) ∨
    (∃ ex_secret kem ss_pq_a ch_bytes sh_wo_sig sh_full client_ex_pk client_cert
      client_endpoint_id cf_bytes sf_bytes session,
      r.state = .AwaitClientFinish ex_secret kem ss_pq_a ch_bytes sh_wo_sig sh_full client_ex_pk
        client_cert client_endpoint_id ∧
      accept P ex_secret kem ss_pq_a ch_bytes sh_wo_sig sh_full client_ex_pk client_cert
        client_endpoint_id cf_bytes = .ok (sf_bytes, session) ∧
      r.call P c = (.finished cf_bytes sf_bytes session, { r with state := .Done })) := by
  unfold call
  cases c with
  | client_hello ch_bytes observed replay random =>
    unfold on_client_hello
    cases hs : r.state with
    | AwaitClientHello =>
      rcases hdec : ClientHello.decode ch_bytes with e | ch
      · exact .inl ⟨e, by simp [hdec]⟩
      rcases hcheck : check_hello observed random.now ch with e | _
      · exact .inl ⟨e, by simp [hdec, hcheck]⟩
      rcases hreplay : replay.check_and_insert ch.cert.device_id ch.nonce with ⟨_ | _, replay'⟩
      · exact .inl ⟨.Replay, by simp [hdec, hcheck, hreplay]⟩
      rcases ha : answer P r ch_bytes ch random with e | ⟨sh_bytes, state⟩
      · exact .inl ⟨e, by simp [hdec, hcheck, hreplay, ha]⟩
      · exact .inr (.inl ⟨ch_bytes, ch, random, sh_bytes, state, rfl, hdec, ha,
          by simp [hdec, hcheck, hreplay, ha]⟩)
    | _ => exact .inl ⟨.State, rfl⟩
  | client_finish cf_bytes =>
    unfold on_client_finish
    cases hs : r.state with
    | AwaitClientFinish ex_secret kem ss_pq_a ch_bytes sh_wo_sig sh_full client_ex_pk client_cert
        client_endpoint_id =>
      rcases ha : accept P ex_secret kem ss_pq_a ch_bytes sh_wo_sig sh_full client_ex_pk
        client_cert client_endpoint_id cf_bytes with e | ⟨sf_bytes, session⟩
      · exact .inl ⟨e, by simp [ha]⟩
      · exact .inr (.inr ⟨_, _, _, _, _, _, _, _, _, cf_bytes, sf_bytes, session, rfl, ha,
          by simp [ha]⟩)
    | _ => exact .inl ⟨.State, rfl⟩

def Responder.Stopped (r : Responder) : Prop := r.state = .Done ∨ r.state = .Failed

theorem Responder.call_of_stopped (r : Responder) (c : Call) (hr : r.Stopped) :
    (r.call P c).1.Refused ∧ (r.call P c).2.Stopped := by
  rcases r.call_cases (P := P) c with ⟨e, he⟩ | ⟨_, _, _, _, _, hs, -⟩ |
    ⟨_, _, _, _, _, _, _, _, _, _, _, _, hs, -⟩
  · rw [he]
    exact ⟨⟨e, rfl⟩, .inr rfl⟩
  · rcases hr with hr | hr <;> cases hr.symm.trans hs
  · rcases hr with hr | hr <;> cases hr.symm.trans hs

/-- A ClientFinish is accepted in the state, or the call is refused. -/
def Responder.Event.Finishes (P : Primitives) (state : ResponderState) (ev : Event) : Prop :=
  ev.Refused ∨ ∃ ex_secret kem ss_pq_a ch_bytes sh_wo_sig sh_full client_ex_pk client_cert
      client_endpoint_id cf_bytes sf_bytes session,
    state = .AwaitClientFinish ex_secret kem ss_pq_a ch_bytes sh_wo_sig sh_full client_ex_pk
      client_cert client_endpoint_id ∧ ev = .finished cf_bytes sf_bytes session ∧
    accept P ex_secret kem ss_pq_a ch_bytes sh_wo_sig sh_full client_ex_pk client_cert
      client_endpoint_id cf_bytes = .ok (sf_bytes, session)

theorem Responder.call_of_finish {r : Responder} (hr : r.state ≠ .AwaitClientHello) (c : Call) :
    (r.call P c).1.Finishes P r.state ∧ (r.call P c).2.Stopped := by
  rcases r.call_cases (P := P) c with ⟨e, he⟩ | ⟨_, _, _, _, _, hs, -⟩ |
    ⟨_, _, _, _, _, _, _, _, _, cf_bytes, sf_bytes, session, hs, ha, he⟩
  · rw [he]
    exact ⟨.inl ⟨e, rfl⟩, .inr rfl⟩
  · exact absurd hs hr
  · rw [he]
    exact ⟨.inr ⟨_, _, _, _, _, _, _, _, _, cf_bytes, sf_bytes, session, hs, rfl, ha⟩, .inl rfl⟩

theorem Responder.Run.spec (B : Run) :
    (∀ ev ∈ B.events P, ev.Refused) ∨
    ∃ ch_bytes ch random sh_bytes state, ClientHello.decode ch_bytes = .ok ch ∧
      answer P (new B.identity B.local_endpoint_id) ch_bytes ch random = .ok (sh_bytes, state) ∧
      ∀ ev ∈ B.events P, ev = .answered ch_bytes sh_bytes ∨ ev.Finishes P state := by
  unfold events
  rcases B.calls with _ | ⟨c, cs⟩
  · left
    intro ev h
    cases h
  · rw [call_machine.events]
    rcases (new B.identity B.local_endpoint_id).call_cases (P := P) c with ⟨e, he⟩ |
      ⟨ch_bytes, ch, random, sh_bytes, state, -, hdec, ha, he⟩ |
      ⟨_, _, _, _, _, _, _, _, _, _, _, _, hs, -⟩
    · left
      rw [he]
      intro ev h
      rcases List.mem_cons.1 h with rfl | h
      · exact ⟨e, rfl⟩
      · exact events_good call_of_stopped (.inr rfl) h
    · right
      refine ⟨ch_bytes, ch, random, sh_bytes, state, hdec, ha, ?_⟩
      obtain ⟨_, -, hstate⟩ := answer_eq_ok ha
      have hnot : state ≠ .AwaitClientHello := by
        rw [hstate]
        intro h
        cases h
      rw [he]
      intro ev h
      rcases List.mem_cons.1 h with rfl | h
      · exact .inl rfl
      · rcases events_first (call_of_finish hnot) call_of_stopped h with h | h
        · exact .inr h
        · exact .inr (.inl h)
    · cases hs

end rtp2_core.handshake
