-- What the two sides of a handshake agree on. If one of them completes on what
-- the other one produced then both have used the same messages and derived the
-- same keys.
import Reyta.HandshakeRuns

open byte_string exact_parse hash_tree

namespace rtp2_core.handshake

open cbor crypto identity

variable (P : Primitives)

/-! ## What a run has used and derived -/

structure View where
  client_hello : Bytes
  server_hello : Bytes
  ct_to_b : Arr MLKEM768_CIPHERTEXT_LEN
  session : SessionKeys
  own : DevicePublic
  own_endpoint_id : Arr 32
  deriving DecidableEq

/-- An initiator that sent a ClientFinish with the signature has the view. -/
def Initiator.Run.Derived (A : Initiator.Run) (signature : HybridSignature) (v : View) : Prop :=
  ∃ (sh_bytes cf_bytes : Bytes) (cf : ClientFinish) (keys : DerivedKeys) (th2 mac_a : Arr 48)
      (peer : DevicePublic) (peer_endpoint_id : Arr 32),
    .answered sh_bytes cf_bytes (.AwaitServerFinish keys th2 mac_a peer peer_endpoint_id) ∈
      A.events P ∧
    cf_bytes = cf.encode_full ∧ cf.signature = signature ∧
    v = ⟨(A.started P).2, sh_bytes, cf.ct_to_b, keys.session .Initiator th2 peer peer_endpoint_id,
      A.identity.public P, A.local_endpoint_id⟩

/-- An initiator completed with the session on a ServerFinish with the MAC. -/
def Initiator.Run.Completed (A : Initiator.Run) (mac_b : Arr 48) (session : SessionKeys) : Prop :=
  ∃ sf_bytes, .finished sf_bytes session ∈ A.events P ∧ decode_server_finish sf_bytes = .ok mac_b

/-- A responder that completed on a ClientFinish with the signature, and
produced the MAC, has the view. -/
def Responder.Run.Completed (B : Responder.Run) (signature : HybridSignature) (mac_b : Arr 48)
    (v : View) : Prop :=
  ∃ ch_bytes sh_bytes cf_bytes cf sf_bytes session,
    .answered ch_bytes sh_bytes ∈ B.events P ∧ .finished cf_bytes sf_bytes session ∈ B.events P ∧
    ClientFinish.decode cf_bytes = .ok cf ∧ cf.signature = signature ∧
    decode_server_finish sf_bytes = .ok mac_b ∧
    v = ⟨ch_bytes, sh_bytes, cf.ct_to_b, session, B.identity.public P, B.local_endpoint_id⟩

namespace View

/-- The same messages and the same keys, and each side is the other's peer. -/
structure Agrees (a b : View) : Prop where
  client_hello : a.client_hello = b.client_hello
  server_hello : a.server_hello = b.server_hello
  ct_to_b : a.ct_to_b = b.ct_to_b
  th2 : a.session.th2 = b.session.th2
  handshake_prk : a.session.handshake_prk = b.session.handshake_prk
  control_key_c2s : a.session.control_key_c2s = b.session.control_key_c2s
  control_key_s2c : a.session.control_key_s2c = b.session.control_key_s2c
  transfer_wrap_key : a.session.transfer_wrap_key = b.session.transfer_wrap_key
  session_resumption_secret :
    a.session.session_resumption_secret = b.session.session_resumption_secret
  peer : a.session.peer = b.own ∧ b.session.peer = a.own
  peer_endpoint_id :
    a.session.peer_endpoint_id = b.own_endpoint_id ∧ b.session.peer_endpoint_id = a.own_endpoint_id

def th2_input (v : View) : Bytes := transcript_2_input v.client_hello v.server_hello v.ct_to_b

/-- What is hashed for the MAC of the responder. -/
def finished_input (v : View) : Bytes :=
  let mac_a := client_mac P (client_finished_key P v.session.handshake_prk v.session.th2)
    v.session.th2
  v.session.th2.bytes ++ mac_a.bytes

/-- The key and the message of the MAC of the responder. -/
def mac_input (v : View) : Bytes × Bytes :=
  ((server_finished_key P v.session.handshake_prk v.session.th2).bytes,
    (P.sha384 (v.finished_input P)).bytes)

/-- SHA-384 and HMAC have no collision between what the two sides give them. -/
structure Apart (a b : View) : Prop where
  th2 : NoCollision P.sha384 [a.th2_input] [b.th2_input]
  finished : NoCollision P.sha384 [a.finished_input P] [b.finished_input P]
  mac : NoCollision (fun km : Bytes × Bytes => P.hmac_sha384 km.1 km.2) [a.mac_input P]
    [b.mac_input P]

end View

variable {P}

/-! ## Agreement -/

/-- What an initiator that has a view did. -/
theorem Initiator.Run.derived_spec {A : Run} {signature : HybridSignature} {a : View}
    (h : A.Derived P signature a) : ∃ (sh : ServerHello) (sig_b : HybridSignature)
      (random : FinishRandom),
      sh.alpn.length ≤ 64 ∧ a.client_hello = (A.hello P).encode ∧
      a.server_hello = sh.encode sig_b ∧
      a.ct_to_b = (P.mlkem_encapsulate sh.kem_pk random.encapsulate).1 ∧
      A.identity.hybrid_sign P (P.sha384 a.th2_input).bytes random.sign = some signature ∧
      a.session = (keys_for P A.random.ex_secret A.random.kem a.client_hello random sh
        (P.sha384 a.th2_input)).session .Initiator (P.sha384 a.th2_input) sh.cert sh.endpoint_id ∧
      a.own = A.identity.public P ∧ a.own_endpoint_id = A.local_endpoint_id := by
  obtain ⟨sh_bytes, cf_bytes, cf, keys, th2, mac_a, peer, peer_endpoint_id, hev, hdec,
    rfl, rfl⟩ := h
  rcases A.spec (P := P) with hall | ⟨random, _, _, _, _, _, _, _, ha, -, hall⟩
  · obtain ⟨e, he⟩ := hall _ hev
    cases he
  · rcases hall _ hev with he | ⟨e, he⟩ | ⟨_, _, he, -⟩
    · cases he
      obtain ⟨sh, sig_b, sig_a, hsh, hsign, hcf, hstate⟩ := answer_eq_ok ha
      obtain ⟨-, halpn, rfl⟩ := ServerHello.decode_eq_ok.1 hsh
      cases hstate
      obtain rfl := ClientFinish.encode_full_inj (hcf.symm.trans hdec)
      exact ⟨sh, sig_b, random, halpn, rfl, rfl, rfl, hsign, rfl, rfl, rfl⟩
    · cases he
    · cases he

/-- A completion is on the MAC that the view asks for. -/
theorem Initiator.Run.completed_spec {A : Run} {mac_b : Arr 48} {session : SessionKeys}
    (h : A.Completed P mac_b session) : ∃ signature a, A.Derived P signature a ∧
      a.session = session ∧ mac_b = P.hmac_sha384 (a.mac_input P).1 (a.mac_input P).2 := by
  obtain ⟨sf_bytes, hev, hdec⟩ := h
  rcases A.spec (P := P) with hall | ⟨random, sh_bytes, cf_bytes, _, _, _, _, _, ha, hmem, hall⟩
  · obtain ⟨e, he⟩ := hall _ hev
    cases he
  · rcases hall _ hev with he | ⟨e, he⟩ | ⟨_, _, he, haccept⟩
    · cases he
    · cases he
    · cases he
      obtain ⟨hmac, rfl⟩ := accept_eq_ok haccept
      cases hdec.symm.trans hmac
      obtain ⟨sh, sig_b, sig_a, hsh, hsign, hcf, hstate⟩ := answer_eq_ok ha
      cases hstate
      refine ⟨sig_a, _, ⟨sh_bytes, cf_bytes, _, _, _, _, _, _, hmem, hcf, rfl, rfl⟩, rfl, ?_⟩
      rfl

/-- What a responder that completed did. -/
theorem Responder.Run.completed_spec {B : Run} {signature : HybridSignature} {mac_b : Arr 48}
    {b : View} (h : B.Completed P signature mac_b b) : ∃ (ch : ClientHello) (random : HelloRandom)
      (sig_b : HybridSignature),
      let self := new B.identity B.local_endpoint_id
      let sh := self.hello P ch random
      let th2 := P.sha384 b.th2_input
      let keys := derive_keys P b.client_hello (sh.encode none) (ClientFinish.encode_bare b.ct_to_b)
        th2 (P.x25519 random.ex_secret ch.ex_pk)
        (P.mlkem_encapsulate ch.kem_pk random.encapsulate).2
        (P.mlkem_decapsulate random.kem b.ct_to_b)
      ch.InRange ∧ b.client_hello = ch.encode ∧ b.server_hello = sh.encode sig_b ∧
      ch.cert.hybrid_verify P th2.bytes signature = true ∧
      b.session = keys.session .Responder th2 ch.cert ch.endpoint_id ∧
      mac_b = P.hmac_sha384 (b.mac_input P).1 (b.mac_input P).2 ∧
      b.own = B.identity.public P ∧ b.own_endpoint_id = B.local_endpoint_id := by
  obtain ⟨ch_bytes, sh_bytes, cf_bytes, cf, sf_bytes, session, hans, hfin, hdec, rfl, hsf, rfl⟩ := h
  rcases B.spec (P := P) with hall | ⟨_, ch, random, _, state, hch, ha, hall⟩
  · obtain ⟨e, he⟩ := hall _ hans
    cases he
  · rcases hall _ hans with he | ⟨e, he⟩ | ⟨_, _, _, _, _, _, _, _, _, _, _, _, -, he, -⟩
    · cases he
      obtain ⟨-, hrange, rfl⟩ := ClientHello.decode_eq_ok.1 hch
      obtain ⟨sig_b, rfl, rfl⟩ := answer_eq_ok ha
      rcases hall _ hfin with he | ⟨e, he⟩ | ⟨_, _, _, _, _, _, _, _, _, _, _, _, hs, he, haccept⟩
      · cases he
      · cases he
      · cases he
        cases hs
        obtain ⟨cf', hdec', hverify, hmac, rfl, rfl⟩ := accept_eq_ok haccept
        cases hdec.symm.trans hdec'
        have hmac_b := bytes_entry_inj (decode_server_finish_eq_ok.1 hsf).2
        refine ⟨ch, random, sig_b, hrange, rfl, rfl, hverify, rfl, ?_, rfl, rfl⟩
        rw [← hmac_b, hmac]
        rfl
    · cases he
    · cases he

/-- If the second transcript hash is over the same bytes then all is the same. -/
theorem agree_of_same_transcript (hx : P.Exchanges) (hkem : P.Decapsulates) {A : Initiator.Run}
    {B : Responder.Run} {sig_a signature : HybridSignature} {mac_b : Arr 48} {a b : View}
    (ha : A.Derived P sig_a a) (hb : B.Completed P signature mac_b b)
    (h : a.th2_input = b.th2_input) : a.Agrees b := by
  obtain ⟨sh, sig_b, ra, halpn, hch, hsh, hct, -, hsession, hown, hend⟩ :=
    Initiator.Run.derived_spec ha
  obtain ⟨ch, rb, sig_b', hrange, hch', hsh', -, hsession', -, hown', hend'⟩ :=
    Responder.Run.completed_spec hb
  have halpn' :
      (((Responder.new B.identity B.local_endpoint_id).hello P ch rb).alpn).length ≤ 64 := by
    simp [Responder.hello, ALPN, ascii]
  have hbytes := List.append_cancel_left h
  rw [hch, hsh, hch', hsh'] at hbytes
  have hown_range : (A.hello P).InRange := Initiator.hello_inRange _ _ _
  obtain ⟨rfl, rfl, rfl, hct'⟩ := transcript_inj hown_range hrange halpn halpn' hbytes
  -- each shared secret is computed from the other side's public part
  have hkeys : Initiator.keys_for P A.random.ex_secret A.random.kem a.client_hello ra
      ((Responder.new B.identity B.local_endpoint_id).hello P (A.hello P) rb)
      (P.sha384 a.th2_input) = derive_keys P b.client_hello
        (((Responder.new B.identity B.local_endpoint_id).hello P (A.hello P) rb).encode none)
        (ClientFinish.encode_bare b.ct_to_b) (P.sha384 b.th2_input)
        (P.x25519 rb.ex_secret (A.hello P).ex_pk)
        (P.mlkem_encapsulate (A.hello P).kem_pk rb.encapsulate).2
        (P.mlkem_decapsulate rb.kem b.ct_to_b) := by
    change derive_keys P a.client_hello _ _ _ (P.x25519 _ (P.x25519_public _))
      (P.mlkem_decapsulate _ (P.mlkem_encapsulate (P.mlkem_public _) _).1) _ = _
    rw [hx, hkem, h, hch, hch', ← hct', hct]
    congr 1
    exact (hkem _ _).symm
  rw [hkeys, h] at hsession
  exact {
    client_hello := hch.trans hch'.symm
    server_hello := hsh.trans hsh'.symm
    ct_to_b := hct'
    th2 := by rw [hsession, hsession']; rfl
    handshake_prk := by rw [hsession, hsession']; rfl
    control_key_c2s := by rw [hsession, hsession']; rfl
    control_key_s2c := by rw [hsession, hsession']; rfl
    transfer_wrap_key := by rw [hsession, hsession']; rfl
    session_resumption_secret := by rw [hsession, hsession']; rfl
    peer := by rw [hsession, hsession', hown, hown']; exact ⟨rfl, rfl⟩
    peer_endpoint_id := by rw [hsession, hsession', hend, hend']; exact ⟨rfl, rfl⟩ }

/-! ## An honest handshake -/

/-- The two sides and what they draw. -/
structure Pair where
  initiator : DeviceIdentity
  initiator_endpoint : Arr 32
  start : StartRandom
  finish : FinishRandom
  responder : DeviceIdentity
  responder_endpoint : Arr 32
  hello : HelloRandom

namespace Pair

variable (P) (h : Pair) (sig_a sig_b : HybridSignature)

def ch : ClientHello := Initiator.hello P h.initiator h.initiator_endpoint h.start

def sh : ServerHello :=
  (Responder.new h.responder h.responder_endpoint).hello P (h.ch P) h.hello

def sh_bytes : Bytes := (h.sh P).encode sig_b

def ct_to_b : Arr MLKEM768_CIPHERTEXT_LEN :=
  (P.mlkem_encapsulate (h.sh P).kem_pk h.finish.encapsulate).1

def th2 : Arr 48 := transcript_2 P (h.ch P).encode (h.sh_bytes P sig_b) (h.ct_to_b P)

def keys : DerivedKeys :=
  Initiator.keys_for P h.start.ex_secret h.start.kem (h.ch P).encode h.finish (h.sh P)
    (h.th2 P sig_b)

def mac_a : Arr 48 := client_mac P (h.keys P sig_b).client_finished_key (h.th2 P sig_b)

def cf_bytes : Bytes := ClientFinish.encode_full ⟨h.ct_to_b P, sig_a, h.mac_a P sig_b⟩

def mac_b : Arr 48 :=
  server_mac P (h.keys P sig_b).server_finished_key (h.th2 P sig_b) (h.mac_a P sig_b)

def awaits_client_finish : ResponderState :=
  .AwaitClientFinish h.hello.ex_secret h.hello.kem
    (P.mlkem_encapsulate (h.ch P).kem_pk h.hello.encapsulate).2 (h.ch P).encode
    ((h.sh P).encode none) (h.sh_bytes P sig_b) (h.ch P).ex_pk (h.ch P).cert (h.ch P).endpoint_id

def awaits_server_finish : InitiatorState :=
  .AwaitServerFinish (h.keys P sig_b) (h.th2 P sig_b) (h.mac_a P sig_b) (h.sh P).cert
    (h.sh P).endpoint_id

def initiator_session :=
  (h.keys P sig_b).session .Initiator (h.th2 P sig_b) (h.sh P).cert (h.sh P).endpoint_id

def responder_session :=
  (h.keys P sig_b).session .Responder (h.th2 P sig_b) (h.ch P).cert (h.ch P).endpoint_id

def initiator_run : Initiator.Run :=
  ⟨h.initiator, h.initiator_endpoint, h.responder_endpoint, h.start,
    [.server_hello h.finish (h.sh_bytes P sig_b),
      .server_finish (encode_server_finish (h.mac_b P sig_b))]⟩

def responder_run : Responder.Run :=
  ⟨h.responder, h.responder_endpoint,
    [.client_hello (h.ch P).encode h.initiator_endpoint ⟨[], []⟩ h.hello,
      .client_finish (h.cf_bytes P sig_a sig_b)]⟩

/-- The signatures are made and verify, the keys are valid, the clocks are
close, and the X25519 secret is not zero. -/
structure Sound : Prop where
  sign_b : h.responder.hybrid_sign P
    (transcript_1 P (h.ch P).encode ((h.sh P).encode none)).bytes h.hello.sign = some sig_b
  verify_b : (h.responder.public P).hybrid_verify P
    (transcript_1 P (h.ch P).encode ((h.sh P).encode none)).bytes sig_b = true
  sign_a : h.initiator.hybrid_sign P (h.th2 P sig_b).bytes h.finish.sign = some sig_a
  verify_a : (h.initiator.public P).hybrid_verify P (h.th2 P sig_b).bytes sig_a = true
  valid_a : P.mlkem_validate (P.mlkem_public h.start.kem) = true
  valid_b : P.mlkem_validate (P.mlkem_public h.hello.kem) = true
  time : ¬ abs_diff h.start.now h.hello.now > TIMESTAMP_WINDOW_SECS
  shared : P.x25519 h.start.ex_secret (P.x25519_public h.hello.ex_secret) ≠ .replicate 32 0

variable {P h sig_a sig_b}

theorem responder_answers (hs : h.Sound P sig_a sig_b) :
    (Responder.new h.responder h.responder_endpoint).answer P (h.ch P).encode (h.ch P) h.hello =
      .ok (h.sh_bytes P sig_b, h.awaits_client_finish P sig_b) :=
  bind_eq_ok.2 ⟨_, mlkem_encapsulate_of_valid hs.valid_a _,
    bind_eq_ok.2 ⟨_, hybrid_sign_of_some hs.sign_b, rfl⟩⟩

theorem initiator_answers (hs : h.Sound P sig_a sig_b) :
    Initiator.answer P h.initiator h.start.ex_secret h.start.kem (h.ch P).encode
      h.responder_endpoint h.finish (h.sh_bytes P sig_b) =
      .ok (h.cf_bytes P sig_a sig_b, h.awaits_server_finish P sig_b) := by
  have hdec : ServerHello.decode (h.sh_bytes P sig_b) = .ok (h.sh P, sig_b) :=
    ServerHello.decode_encode (by simp [sh, Responder.hello, ALPN, ascii]) _
  have hminor : (h.sh P).selected_minor = PROTOCOL_MINOR.toUInt64 := by
    change min PROTOCOL_MINOR.toUInt64 PROTOCOL_MINOR.toUInt64 = _
    rfl
  refine bind_eq_ok.2 ⟨_, hdec, ?_⟩
  refine bind_eq_ok.2 ⟨(), refuse_if_eq_ok.2 (not_not.2 hminor), ?_⟩
  refine bind_eq_ok.2 ⟨(), refuse_if_eq_ok.2 (not_or_intro (not_not.2 rfl) (not_not.2 rfl)), ?_⟩
  refine bind_eq_ok.2 ⟨(), refuse_if_eq_ok.2 (not_not.2 rfl), ?_⟩
  refine bind_eq_ok.2 ⟨(), refuse_if_eq_ok.2 (not_not.2 rfl), ?_⟩
  refine bind_eq_ok.2 ⟨(), refuse_if_eq_ok.2 (ne_false_of_eq_true hs.verify_b), ?_⟩
  refine bind_eq_ok.2 ⟨_, x25519_agree_of_ne hs.shared, ?_⟩
  refine bind_eq_ok.2 ⟨_, mlkem_encapsulate_of_valid hs.valid_b _, ?_⟩
  exact bind_eq_ok.2 ⟨_, hybrid_sign_of_some hs.sign_a, rfl⟩

theorem keys_eq (sig_b : HybridSignature) (hx : P.Exchanges) (hkem : P.Decapsulates) :
    h.keys P sig_b = derive_keys P (h.ch P).encode ((h.sh P).encode none)
      (ClientFinish.encode_bare (h.ct_to_b P)) (h.th2 P sig_b)
      (P.x25519 h.hello.ex_secret (h.ch P).ex_pk)
      (P.mlkem_encapsulate (h.ch P).kem_pk h.hello.encapsulate).2
      (P.mlkem_decapsulate h.hello.kem (h.ct_to_b P)) := by
  have hb : P.mlkem_decapsulate h.hello.kem (h.ct_to_b P) =
      (P.mlkem_encapsulate (h.sh P).kem_pk h.finish.encapsulate).2 := hkem _ _
  have ha : P.mlkem_decapsulate h.start.kem (h.sh P).ct_to_a =
      (P.mlkem_encapsulate (h.ch P).kem_pk h.hello.encapsulate).2 := hkem _ _
  have hs : P.x25519 h.start.ex_secret (h.sh P).ex_pk =
      P.x25519 h.hello.ex_secret (h.ch P).ex_pk := hx _ _
  rw [hb, ← ha, ← hs]
  rfl

theorem responder_accepts (hx : P.Exchanges) (hkem : P.Decapsulates) (hs : h.Sound P sig_a sig_b) :
    Responder.accept P h.hello.ex_secret h.hello.kem
      (P.mlkem_encapsulate (h.ch P).kem_pk h.hello.encapsulate).2 (h.ch P).encode
      ((h.sh P).encode none) (h.sh_bytes P sig_b) (h.ch P).ex_pk (h.ch P).cert (h.ch P).endpoint_id
      (h.cf_bytes P sig_a sig_b) =
      .ok (encode_server_finish (h.mac_b P sig_b), h.responder_session P sig_b) := by
  have hkeys := keys_eq (h := h) sig_b hx hkem
  have hshared : P.x25519 h.hello.ex_secret (h.ch P).ex_pk ≠ .replicate 32 0 := by
    have he : P.x25519 h.hello.ex_secret (h.ch P).ex_pk =
      P.x25519 h.start.ex_secret (P.x25519_public h.hello.ex_secret) := hx _ _
    rw [he]
    exact hs.shared
  refine bind_eq_ok.2 ⟨_, ClientFinish.decode_encode_full _, ?_⟩
  refine bind_eq_ok.2 ⟨(), refuse_if_eq_ok.2 (ne_false_of_eq_true hs.verify_a), ?_⟩
  refine bind_eq_ok.2 ⟨_, x25519_agree_of_ne hshared, ?_⟩
  refine bind_eq_ok.2 ⟨(), refuse_if_eq_ok.2 (ne_false_of_eq_true (ct_eq_iff.2 ?_)), ?_⟩
  · change (h.mac_a P sig_b).bytes = _
    rw [mac_a, hkeys]
    rfl
  · change pure (encode_server_finish
      (server_mac P (derive_keys P _ _ _ _ _ _ _).server_finished_key (h.th2 P sig_b)
        (h.mac_a P sig_b)), (derive_keys P _ _ _ _ _ _ _).session _ _ _ _) = _
    rw [mac_b, responder_session, hkeys]
    rfl

theorem initiator_accepts (h : Pair) (sig_b : HybridSignature) :
    Initiator.accept P (h.keys P sig_b) (h.th2 P sig_b) (h.mac_a P sig_b) (h.sh P).cert
      (h.sh P).endpoint_id (encode_server_finish (h.mac_b P sig_b)) =
      .ok (h.initiator_session P sig_b) := by
  refine bind_eq_ok.2 ⟨_, decode_encode_server_finish _, ?_⟩
  exact bind_eq_ok.2 ⟨(), refuse_if_eq_ok.2 (ne_false_of_eq_true (ct_eq_iff.2 rfl)), rfl⟩

theorem hello_passes (hs : h.Sound P sig_a sig_b) :
    Responder.check_hello h.initiator_endpoint h.hello.now (h.ch P) = .ok () :=
  Initiator.hello_passes hs.time

theorem responder_events (hx : P.Exchanges) (hkem : P.Decapsulates) (hs : h.Sound P sig_a sig_b) :
    (h.responder_run P sig_a sig_b).events P = [.answered (h.ch P).encode (h.sh_bytes P sig_b),
      .finished (h.cf_bytes P sig_a sig_b) (encode_server_finish (h.mac_b P sig_b))
        (h.responder_session P sig_b)] := by
  have hdec : ClientHello.decode (h.ch P).encode = .ok (h.ch P) :=
    ClientHello.decode_encode (Initiator.hello_inRange _ _ _)
  have hhello : (Responder.new h.responder h.responder_endpoint).call P
      (.client_hello (h.ch P).encode h.initiator_endpoint ⟨[], []⟩ h.hello) =
      (.answered (h.ch P).encode (h.sh_bytes P sig_b),
        ⟨h.responder, h.responder_endpoint, h.awaits_client_finish P sig_b⟩) := by
    have hanswer := responder_answers hs
    unfold Responder.new at hanswer
    unfold Responder.call Responder.on_client_hello Responder.new
    simp only [hdec, hello_passes hs, ReplayCache.check_and_insert, List.not_mem_nil, ite_false,
      hanswer]
  have hfinish : Responder.call P
        ⟨h.responder, h.responder_endpoint, h.awaits_client_finish P sig_b⟩
        (.client_finish (h.cf_bytes P sig_a sig_b)) =
      (.finished (h.cf_bytes P sig_a sig_b) (encode_server_finish (h.mac_b P sig_b))
        (h.responder_session P sig_b), ⟨h.responder, h.responder_endpoint, .Done⟩) := by
    unfold awaits_client_finish Responder.call Responder.on_client_finish
    simp only [responder_accepts hx hkem hs]
  unfold Responder.Run.events responder_run
  simp only [call_machine.events, hhello, hfinish]

theorem initiator_events (hs : h.Sound P sig_a sig_b) :
    (h.initiator_run P sig_b).events P = [.answered (h.sh_bytes P sig_b) (h.cf_bytes P sig_a sig_b)
        (h.awaits_server_finish P sig_b),
      .finished (encode_server_finish (h.mac_b P sig_b)) (h.initiator_session P sig_b)] := by
  unfold Initiator.Run.events initiator_run
  have hhello : Initiator.call P ⟨h.initiator, .AwaitServerHello h.start.ex_secret h.start.kem
        (h.ch P).encode h.responder_endpoint⟩ (.server_hello h.finish (h.sh_bytes P sig_b)) =
      (.answered (h.sh_bytes P sig_b) (h.cf_bytes P sig_a sig_b)
        (h.awaits_server_finish P sig_b), ⟨h.initiator, h.awaits_server_finish P sig_b⟩) := by
    unfold Initiator.call Initiator.on_server_hello
    simp only [initiator_answers hs]
  have hfinish : Initiator.call P ⟨h.initiator, h.awaits_server_finish P sig_b⟩
        (.server_finish (encode_server_finish (h.mac_b P sig_b))) =
      (.finished (encode_server_finish (h.mac_b P sig_b)) (h.initiator_session P sig_b),
        ⟨h.initiator, .Done⟩) := by
    unfold awaits_server_finish Initiator.call Initiator.on_server_finish
    simp only [initiator_accepts h sig_b]
  change call_machine.events (Initiator.call P) ⟨h.initiator, .AwaitServerHello h.start.ex_secret
    h.start.kem (h.ch P).encode h.responder_endpoint⟩ _ = _
  simp only [call_machine.events, hhello, hfinish]

variable (P h sig_b)

def initiator_view : View :=
  ⟨(h.ch P).encode, h.sh_bytes P sig_b, h.ct_to_b P,
    (h.keys P sig_b).session .Initiator (h.th2 P sig_b) (h.sh P).cert (h.sh P).endpoint_id,
    h.initiator.public P, h.initiator_endpoint⟩

def responder_view : View :=
  ⟨(h.ch P).encode, h.sh_bytes P sig_b, h.ct_to_b P,
    (h.keys P sig_b).session .Responder (h.th2 P sig_b) (h.ch P).cert (h.ch P).endpoint_id,
    h.responder.public P, h.responder_endpoint⟩

/-- Both sides hash the same. -/
theorem views_apart : (h.initiator_view P sig_b).Apart P (h.responder_view P sig_b) := by
  have hsame : ∀ {α β : Type} (f : α → β) (x : α), NoCollision f [x] [x] := by
    intro α β f x y hy z hz _
    rw [List.mem_singleton.1 hy, List.mem_singleton.1 hz]
  exact ⟨hsame _ _, hsame _ _, hsame _ _⟩

variable {P h sig_b}

theorem responder_completed (hx : P.Exchanges) (hkem : P.Decapsulates)
    (hs : h.Sound P sig_a sig_b) : (h.responder_run P sig_a sig_b).Completed P sig_a
      (h.mac_b P sig_b) (h.responder_view P sig_b) := by
  refine ⟨(h.ch P).encode, h.sh_bytes P sig_b, h.cf_bytes P sig_a sig_b,
    ⟨h.ct_to_b P, sig_a, h.mac_a P sig_b⟩, encode_server_finish (h.mac_b P sig_b), _, ?_, ?_,
    ClientFinish.decode_encode_full _, rfl, decode_encode_server_finish _, rfl⟩
  · rw [responder_events hx hkem hs]
    exact List.mem_cons_self
  · rw [responder_events hx hkem hs]
    exact List.mem_cons_of_mem _ List.mem_cons_self

theorem initiator_derived (hs : h.Sound P sig_a sig_b) :
    (h.initiator_run P sig_b).Derived P sig_a (h.initiator_view P sig_b) := by
  refine ⟨h.sh_bytes P sig_b, h.cf_bytes P sig_a sig_b, ⟨h.ct_to_b P, sig_a, h.mac_a P sig_b⟩,
    h.keys P sig_b, h.th2 P sig_b, h.mac_a P sig_b, (h.sh P).cert, (h.sh P).endpoint_id, ?_, rfl,
    rfl, rfl⟩
  rw [initiator_events hs]
  exact List.mem_cons_self

theorem initiator_completed (hs : h.Sound P sig_a sig_b) :
    (h.initiator_run P sig_b).Completed P (h.mac_b P sig_b) (h.initiator_session P sig_b) := by
  refine ⟨_, ?_, decode_encode_server_finish _⟩
  rw [initiator_events hs]
  exact List.mem_cons_of_mem _ List.mem_cons_self

theorem eq_initiator_view (hs : h.Sound P sig_a sig_b) {sig : HybridSignature} {a : View}
    (ha : (h.initiator_run P sig_b).Derived P sig a) : a = h.initiator_view P sig_b := by
  obtain ⟨sh_bytes, cf_bytes, cf, keys, th2, mac_a, peer, peer_endpoint_id, hev, hcf, -, rfl⟩ := ha
  rw [initiator_events hs] at hev
  rcases List.mem_cons.1 hev with he | hev
  · cases he
    obtain rfl := ClientFinish.encode_full_inj hcf
    rfl
  · cases List.mem_singleton.1 hev

end Pair

theorem View.Apart.transcript {a b : View} (h : a.Apart P b)
    (he : P.sha384 a.th2_input = P.sha384 b.th2_input) : a.th2_input = b.th2_input :=
  h.th2 _ List.mem_cons_self _ List.mem_cons_self he

theorem View.Apart.session_th2 {a b : View} (h : a.Apart P b)
    (he : P.hmac_sha384 (a.mac_input P).1 (a.mac_input P).2 =
      P.hmac_sha384 (b.mac_input P).1 (b.mac_input P).2) : a.session.th2 = b.session.th2 := by
  have hmac := h.mac _ List.mem_cons_self _ List.mem_cons_self he
  have hhash : P.sha384 (a.finished_input P) = P.sha384 (b.finished_input P) :=
    Arr.ext (congrArg Prod.snd hmac)
  have hinput := h.finished _ List.mem_cons_self _ List.mem_cons_self hhash
  exact (arr_append_inj hinput).1

/-- Whatever the network delivers: a responder that completes on the signature
of an initiator agrees with it, and so does an initiator that completes on the
MAC of a responder. -/
theorem whoever_completes_on_the_other_side_agrees_with_it (hx : P.Exchanges)
    (hkem : P.Decapsulates) (hsign : DevicePublic.SignsExactly P) {A : Initiator.Run}
    {B : Responder.Run} {signature : HybridSignature} {mac_b : Arr 48} {b : View}
    (hb : B.Completed P signature mac_b b)
    (hapart : ∀ sig a, A.Derived P sig a → a.Apart P b) :
    (∀ a, A.Derived P signature a → a.Agrees b) ∧
      ∀ session, A.Completed P mac_b session →
        ∃ sig a, A.Derived P sig a ∧ a.session = session ∧ a.Agrees b := by
  obtain ⟨ch, rb, sig_b, -, -, -, hverify, hsession', hmac', -⟩ := Responder.Run.completed_spec hb
  constructor
  · intro a ha
    obtain ⟨sh, -, ra, -, -, -, -, hsigned, -⟩ := Initiator.Run.derived_spec ha
    have hhash := hsign A.identity _ _ _ _ _ hsigned hverify
    exact agree_of_same_transcript hx hkem ha hb ((hapart _ a ha).transcript hhash.symm)
  · intro session hcompleted
    obtain ⟨sig, a, ha, hsession, hmac⟩ := Initiator.Run.completed_spec hcompleted
    obtain ⟨sh, -, ra, -, -, -, -, -, hsession_a, -⟩ := Initiator.Run.derived_spec ha
    have hth2 := (hapart sig a ha).session_th2 (hmac.symm.trans hmac')
    rw [hsession_a, hsession'] at hth2
    exact ⟨sig, a, ha, hsession,
      agree_of_same_transcript hx hkem ha hb ((hapart sig a ha).transcript hth2)⟩

def samplePair : Pair where
  initiator := ⟨.replicate 32 1, .replicate 32 2, .replicate 32 3⟩
  initiator_endpoint := .replicate 32 7
  start := ⟨.replicate 32 9, .replicate 64 10, .replicate 32 11, 1000⟩
  finish := ⟨.replicate 32 17, .replicate 32 18⟩
  responder := ⟨.replicate 32 4, .replicate 32 5, .replicate 32 6⟩
  responder_endpoint := .replicate 32 8
  hello := ⟨.replicate 32 12, .replicate 64 13, .replicate 32 14, .replicate 32 15,
    .replicate 32 16, 1000⟩

/-- The sample primitives sign whatever they are given. -/
theorem Pair.exists_sound (h : Pair)
    (htime : ¬ abs_diff h.start.now h.hello.now > TIMESTAMP_WINDOW_SECS)
    (hshared : sample.x25519 h.start.ex_secret (sample.x25519_public h.hello.ex_secret) ≠
      .replicate 32 0) : ∃ sig_a sig_b, h.Sound sample sig_a sig_b := by
  have hsign : ∀ (identity : DeviceIdentity) (hash : Bytes) (random : Arr 32), ∃ sig,
      identity.hybrid_sign sample hash random = some sig ∧
        (identity.public sample).hybrid_verify sample hash sig = true := by
    intro identity hash random
    have other : HybridSignature := ⟨.replicate 64 0, .replicate _ 0⟩
    exact ⟨_, DeviceIdentity.hybrid_sign_sample identity hash random other,
      DevicePublic.hybrid_verify_sample identity hash random other⟩
  obtain ⟨sig_b, hsign_b, hverify_b⟩ := hsign h.responder
    (transcript_1 sample (h.ch sample).encode ((h.sh sample).encode none)).bytes h.hello.sign
  obtain ⟨sig_a, hsign_a, hverify_a⟩ := hsign h.initiator (h.th2 sample sig_b).bytes h.finish.sign
  exact ⟨sig_a, sig_b, hsign_b, hverify_b, hsign_a, hverify_a, rfl, rfl, htime, hshared⟩

/-- The two sides of an honest handshake complete and agree. -/
theorem an_honest_pair_completes_and_agrees :
    ∃ A B sig_a mac_b b session, Responder.Run.Completed sample B sig_a mac_b b ∧
      Initiator.Run.Completed sample A mac_b session ∧
      (∃ a, A.Derived sample sig_a a) ∧ (∀ a, A.Derived sample sig_a a → a.Agrees b) ∧
      ∃ sig a, A.Derived sample sig a ∧ a.session = session ∧ a.Agrees b := by
  obtain ⟨sig_a, sig_b, hs⟩ := samplePair.exists_sound (by decide) (by decide +kernel)
  have hb := Pair.responder_completed sample_exchanges sample_decapsulates hs
  have hcompleted := Pair.initiator_completed hs
  have hagree := whoever_completes_on_the_other_side_agrees_with_it sample_exchanges
    sample_decapsulates DevicePublic.sample_signsExactly hb fun sig a ha => by
      rw [Pair.eq_initiator_view hs ha]
      exact samplePair.views_apart sample sig_b
  exact ⟨_, _, sig_a, _, _, _, hb, hcompleted, ⟨_, Pair.initiator_derived hs⟩, hagree.1,
    hagree.2 _ hcompleted⟩

end rtp2_core.handshake
