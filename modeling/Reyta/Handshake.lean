-- The standalone handshake: two state machines that are fed whatever the
-- network delivers. If one side finishes on what the other one produced then
-- both have seen the same messages and derived the same keys.
import Reyta.HandshakeMessages

open byte_string exact_parse hash_tree

namespace rtp2_core.handshake

open cbor crypto identity

def TH1_DOMAIN : Bytes := ascii "RTP2-HS-TH1-v1"
def TH2_DOMAIN : Bytes := ascii "RTP2-HS-TH2-v1"
def SALT_DOMAIN : Bytes := ascii "RTP2-HYBRID-SALT-v1"

def TIMESTAMP_WINDOW_SECS : UInt64 := 300
def REPLAY_CACHE_CAP : Nat := 4096

inductive Role where
  | Initiator
  | Responder
  deriving DecidableEq, Repr

structure SessionKeys where
  role : Role
  handshake_prk : Arr 48
  th2 : Arr 48
  control_key_c2s : Arr 32
  control_key_s2c : Arr 32
  transfer_wrap_key : Arr 32
  session_resumption_secret : Arr 48
  peer : DevicePublic
  peer_endpoint_id : Arr 32
  deriving DecidableEq

/-! ## The replay cache -/

/-- The keys that were seen, and the same keys in the order they came. -/
structure ReplayCache where
  seen : List Bytes
  order : List Bytes

/-- `false` for a key that is in the cache. A full cache drops its oldest. -/
def ReplayCache.check_and_insert (c : ReplayCache) (device_id nonce : Arr 32) :
    Bool × ReplayCache :=
  let key := device_id.bytes ++ nonce.bytes
  if key ∈ c.seen then (false, c)
  else
    let c := if c.order.length ≥ REPLAY_CACHE_CAP then
        match c.order with
        | [] => c
        | old :: order => ⟨c.seen.filter (· ≠ old), order⟩
      else c
    (true, ⟨key :: c.seen, c.order ++ [key]⟩)

/-! ## The key schedule -/

structure DerivedKeys where
  handshake_prk : Arr 48
  client_finished_key : Arr 48
  server_finished_key : Arr 48
  control_key_c2s : Arr 32
  control_key_s2c : Arr 32
  transfer_wrap_key : Arr 32
  session_resumption_secret : Arr 48
  deriving DecidableEq

variable (P : Primitives)

def client_finished_key (prk th2 : Arr 48) : Arr 48 :=
  P.hkdf_expand 48 prk (ascii "RTP2 client finished v1" ++ th2.bytes)

def server_finished_key (prk th2 : Arr 48) : Arr 48 :=
  P.hkdf_expand 48 prk (ascii "RTP2 server finished v1" ++ th2.bytes)

/-- The shared secrets, each behind its length. -/
def hybrid_ikm (ss_x ss_pq_a ss_pq_b : Arr 32) : Bytes :=
  [ss_x, ss_pq_a, ss_pq_b].flatMap fun ss => be_bytes 2 ss.bytes.length ++ ss.bytes

def derive_keys (ch sh_wo_sig cf_bare : Bytes) (th2 : Arr 48) (ss_x ss_pq_a ss_pq_b : Arr 32) :
    DerivedKeys :=
  let salt := P.sha384 (SALT_DOMAIN ++ ch ++ sh_wo_sig ++ cf_bare)
  let prk := P.hkdf_extract salt.bytes (hybrid_ikm ss_x ss_pq_a ss_pq_b)
  { handshake_prk := prk
    client_finished_key := client_finished_key P prk th2
    server_finished_key := server_finished_key P prk th2
    control_key_c2s := P.hkdf_expand 32 prk (ascii "RTP2 control c2s v1" ++ th2.bytes)
    control_key_s2c := P.hkdf_expand 32 prk (ascii "RTP2 control s2c v1" ++ th2.bytes)
    transfer_wrap_key := P.hkdf_expand 32 prk (ascii "RTP2 transfer wrap v1" ++ th2.bytes)
    session_resumption_secret := P.hkdf_expand 48 prk (ascii "RTP2 resumption v1" ++ th2.bytes) }

/-- What both sides return. -/
def DerivedKeys.session (keys : DerivedKeys) (role : Role) (th2 : Arr 48) (peer : DevicePublic)
    (peer_endpoint_id : Arr 32) : SessionKeys where
  role := role
  handshake_prk := keys.handshake_prk
  th2 := th2
  control_key_c2s := keys.control_key_c2s
  control_key_s2c := keys.control_key_s2c
  transfer_wrap_key := keys.transfer_wrap_key
  session_resumption_secret := keys.session_resumption_secret
  peer := peer
  peer_endpoint_id := peer_endpoint_id

/-- The secret that both sides share is not all zeros. -/
def x25519_agree (secret peer : Arr 32) : Except HandshakeError (Arr 32) := do
  let shared := P.x25519 secret peer
  refuse_if (shared = .replicate 32 0) .InvalidKey
  pure shared

def mlkem_encapsulate (pk : Arr MLKEM768_PUBLIC_KEY_LEN) (random : Arr 32) :
    Except HandshakeError (Arr MLKEM768_CIPHERTEXT_LEN × Arr MLKEM768_SHARED_SECRET_LEN) := do
  refuse_if (P.mlkem_validate pk = false) .InvalidKey
  pure (P.mlkem_encapsulate pk random)

def hybrid_sign (identity : DeviceIdentity) (hash : Arr 48) (random : Arr 32) :
    Except HandshakeError HybridSignature :=
  (identity.hybrid_sign P hash.bytes random).elim (.error .InvalidSignature) pure

def transcript_1 (ch_bytes sh_wo_sig : Bytes) : Arr 48 :=
  P.sha384 (TH1_DOMAIN ++ ch_bytes ++ sh_wo_sig)

/-- What is hashed for the second transcript hash. -/
def transcript_2_input (ch_bytes sh_full : Bytes) (ct_to_b : Arr MLKEM768_CIPHERTEXT_LEN) : Bytes :=
  TH2_DOMAIN ++ (ch_bytes ++ (sh_full ++ ClientFinish.encode_bare ct_to_b))

def transcript_2 (ch_bytes sh_full : Bytes) (ct_to_b : Arr MLKEM768_CIPHERTEXT_LEN) : Arr 48 :=
  P.sha384 (transcript_2_input ch_bytes sh_full ct_to_b)

/-- `finished_mac_A`. -/
def client_mac (client_finished_key th2 : Arr 48) : Arr 48 :=
  P.hmac_sha384 client_finished_key.bytes th2.bytes

/-- `finished_mac_B`. -/
def server_mac (server_finished_key th2 mac_a : Arr 48) : Arr 48 :=
  P.hmac_sha384 server_finished_key.bytes (P.sha384 (th2.bytes ++ mac_a.bytes)).bytes

/-! ## The initiator -/

/-- An ephemeral secret and a key pair stand for what they are made from. -/
inductive InitiatorState where
  | AwaitServerHello (ex_secret : Arr 32) (kem : Arr 64) (ch_bytes : Bytes)
      (expected_peer_endpoint : Arr 32)
  | AwaitServerFinish (keys : DerivedKeys) (th2 finished_mac_a : Arr 48) (peer : DevicePublic)
      (peer_endpoint_id : Arr 32)
  | Done
  | Failed
  deriving DecidableEq

structure Initiator where
  identity : DeviceIdentity
  state : InitiatorState

/-- What `start` draws, and the time. -/
structure StartRandom where
  ex_secret : Arr 32
  kem : Arr 64
  nonce : Arr 32
  now : UInt64

/-- What an answer to a ServerHello draws. -/
structure FinishRandom where
  encapsulate : Arr 32
  sign : Arr 32

namespace Initiator

def hello (identity : DeviceIdentity) (local_endpoint_id : Arr 32) (random : StartRandom) :
    ClientHello where
  protocol_minor := PROTOCOL_MINOR.toUInt64
  handshake_mode := MODE_STANDALONE
  alpn := ALPN
  suites := [SUITE_ID]
  nonce := random.nonce
  ex_pk := P.x25519_public random.ex_secret
  kem_pk := P.mlkem_public random.kem
  pqc_required := true
  minimum_security_level := 1
  cert := identity.public P
  endpoint_id := local_endpoint_id
  timestamp := random.now

def start (identity : DeviceIdentity) (local_endpoint_id expected_peer_endpoint : Arr 32)
    (random : StartRandom) : Initiator × Bytes :=
  let ch_bytes := (hello P identity local_endpoint_id random).encode
  (⟨identity, .AwaitServerHello random.ex_secret random.kem ch_bytes expected_peer_endpoint⟩,
    ch_bytes)

/-- The ClientFinish, and the state after it. -/
def answer (identity : DeviceIdentity) (ex_secret : Arr 32) (kem : Arr 64) (ch_bytes : Bytes)
    (expected_peer_endpoint : Arr 32) (random : FinishRandom) (sh_bytes : Bytes) :
    Except HandshakeError (Bytes × InitiatorState) := do
  let (sh, signature) ← ServerHello.decode sh_bytes
  refuse_if (sh.selected_minor ≠ PROTOCOL_MINOR.toUInt64) .UnsupportedVersion
  refuse_if (sh.handshake_mode ≠ MODE_STANDALONE ∨ sh.alpn ≠ ALPN) .PolicyViolation
  refuse_if (sh.selected_suite ≠ SUITE_ID) .UnsupportedSuite
  refuse_if (sh.endpoint_id ≠ expected_peer_endpoint) .EndpointMismatch
  let sh_wo_sig := sh.encode none
  let th1 := transcript_1 P ch_bytes sh_wo_sig
  refuse_if (sh.cert.hybrid_verify P th1.bytes signature = false) .InvalidSignature
  let ss_x ← x25519_agree P ex_secret sh.ex_pk
  let ss_pq_a := P.mlkem_decapsulate kem sh.ct_to_a
  let (ct_to_b, ss_pq_b) ← mlkem_encapsulate P sh.kem_pk random.encapsulate
  let sh_full := sh.encode signature
  let th2 := transcript_2 P ch_bytes sh_full ct_to_b
  let keys := derive_keys P ch_bytes sh_wo_sig (ClientFinish.encode_bare ct_to_b) th2
    ss_x ss_pq_a ss_pq_b
  let signature ← hybrid_sign P identity th2 random.sign
  let finished_mac_a := client_mac P keys.client_finished_key th2
  pure (ClientFinish.encode_full ⟨ct_to_b, signature, finished_mac_a⟩,
    .AwaitServerFinish keys th2 finished_mac_a sh.cert sh.endpoint_id)

/-- The check of a ServerFinish. -/
def accept (keys : DerivedKeys) (th2 finished_mac_a : Arr 48) (peer : DevicePublic)
    (peer_endpoint_id : Arr 32) (sf_bytes : Bytes) : Except HandshakeError SessionKeys := do
  let mac_b ← decode_server_finish sf_bytes
  let expected := server_mac P keys.server_finished_key th2 finished_mac_a
  refuse_if (ct_eq mac_b.bytes expected.bytes = false) .InvalidMac
  pure (keys.session .Initiator th2 peer peer_endpoint_id)

/-- Every way out but success leaves the state `Failed`. -/
def on_server_hello (self : Initiator) (random : FinishRandom) (sh_bytes : Bytes) :
    Except HandshakeError Bytes × Initiator :=
  match self.state with
  | .AwaitServerHello ex_secret kem ch_bytes expected_peer_endpoint =>
    match answer P self.identity ex_secret kem ch_bytes expected_peer_endpoint random sh_bytes with
    | .ok (cf_bytes, state) => (.ok cf_bytes, { self with state })
    | .error e => (.error e, { self with state := .Failed })
  | _ => (.error .State, { self with state := .Failed })

def on_server_finish (self : Initiator) (sf_bytes : Bytes) :
    Except HandshakeError SessionKeys × Initiator :=
  match self.state with
  | .AwaitServerFinish keys th2 finished_mac_a peer peer_endpoint_id =>
    match accept P keys th2 finished_mac_a peer peer_endpoint_id sf_bytes with
    | .ok session => (.ok session, { self with state := .Done })
    | .error e => (.error e, { self with state := .Failed })
  | _ => (.error .State, { self with state := .Failed })

end Initiator

/-! ## The responder -/

inductive ResponderState where
  | AwaitClientHello
  | AwaitClientFinish (ex_secret : Arr 32) (kem : Arr 64) (ss_pq_a : Arr 32)
      (ch_bytes sh_wo_sig sh_full : Bytes) (client_ex_pk : Arr 32) (client_cert : DevicePublic)
      (client_endpoint_id : Arr 32)
  | Done
  | Failed
  deriving DecidableEq

structure Responder where
  identity : DeviceIdentity
  local_endpoint_id : Arr 32
  state : ResponderState

/-- What an answer to a ClientHello draws, and the time. -/
structure HelloRandom where
  ex_secret : Arr 32
  kem : Arr 64
  encapsulate : Arr 32
  nonce : Arr 32
  sign : Arr 32
  now : UInt64

def abs_diff (a b : UInt64) : UInt64 := if a < b then b - a else a - b

namespace Responder

def new (identity : DeviceIdentity) (local_endpoint_id : Arr 32) : Responder :=
  ⟨identity, local_endpoint_id, .AwaitClientHello⟩

/-- The checks of a ClientHello before the replay cache. -/
def check_hello (observed_peer_endpoint : Arr 32) (now : UInt64) (ch : ClientHello) :
    Except HandshakeError Unit := do
  refuse_if (ch.alpn ≠ ALPN) .PolicyViolation
  refuse_if (ch.handshake_mode ≠ MODE_STANDALONE) .PolicyViolation
  refuse_if (SUITE_ID ∉ ch.suites) .UnsupportedSuite
  refuse_if (ch.pqc_required = false ∨ ch.minimum_security_level < 1) .PolicyViolation
  refuse_if (ch.endpoint_id ≠ observed_peer_endpoint) .EndpointMismatch
  refuse_if (abs_diff ch.timestamp now > TIMESTAMP_WINDOW_SECS) .Replay

/-- The ServerHello, and the state after it. -/
def answer (self : Responder) (ch_bytes : Bytes) (ch : ClientHello) (random : HelloRandom) :
    Except HandshakeError (Bytes × ResponderState) := do
  let selected_minor := min ch.protocol_minor PROTOCOL_MINOR.toUInt64
  let (ct_to_a, ss_pq_a) ← mlkem_encapsulate P ch.kem_pk random.encapsulate
  let sh : ServerHello := {
    selected_minor
    handshake_mode := MODE_STANDALONE
    alpn := ALPN
    selected_suite := SUITE_ID
    nonce := random.nonce
    ex_pk := P.x25519_public random.ex_secret
    kem_pk := P.mlkem_public random.kem
    ct_to_a
    cert := self.identity.public P
    endpoint_id := self.local_endpoint_id }
  let sh_wo_sig := sh.encode none
  let th1 := transcript_1 P ch_bytes sh_wo_sig
  let signature ← hybrid_sign P self.identity th1 random.sign
  let sh_full := sh.encode signature
  pure (sh_full, .AwaitClientFinish random.ex_secret random.kem ss_pq_a ch_bytes sh_wo_sig sh_full
    ch.ex_pk ch.cert ch.endpoint_id)

/-- The ServerFinish and the session. -/
def accept (ex_secret : Arr 32) (kem : Arr 64) (ss_pq_a : Arr 32)
    (ch_bytes sh_wo_sig sh_full : Bytes) (client_ex_pk : Arr 32) (client_cert : DevicePublic)
    (client_endpoint_id : Arr 32) (cf_bytes : Bytes) :
    Except HandshakeError (Bytes × SessionKeys) := do
  let cf ← ClientFinish.decode cf_bytes
  let th2 := transcript_2 P ch_bytes sh_full cf.ct_to_b
  refuse_if (client_cert.hybrid_verify P th2.bytes cf.signature = false) .InvalidSignature
  let ss_x ← x25519_agree P ex_secret client_ex_pk
  let ss_pq_b := P.mlkem_decapsulate kem cf.ct_to_b
  let keys := derive_keys P ch_bytes sh_wo_sig (ClientFinish.encode_bare cf.ct_to_b) th2
    ss_x ss_pq_a ss_pq_b
  let expected_a := client_mac P keys.client_finished_key th2
  refuse_if (ct_eq cf.finished_mac.bytes expected_a.bytes = false) .InvalidMac
  let mac_b := server_mac P keys.server_finished_key th2 cf.finished_mac
  pure (encode_server_finish mac_b,
    keys.session .Responder th2 client_cert client_endpoint_id)

def on_client_hello (self : Responder) (ch_bytes : Bytes) (observed_peer_endpoint : Arr 32)
    (replay : ReplayCache) (random : HelloRandom) :
    Except HandshakeError Bytes × Responder × ReplayCache :=
  let failed := { self with state := .Failed }
  match self.state with
  | .AwaitClientHello =>
    match ClientHello.decode ch_bytes with
    | .error e => (.error e, failed, replay)
    | .ok ch =>
      match check_hello observed_peer_endpoint random.now ch with
      | .error e => (.error e, failed, replay)
      | .ok () =>
        match replay.check_and_insert ch.cert.device_id ch.nonce with
        | (false, replay) => (.error .Replay, failed, replay)
        | (true, replay) =>
          match answer P self ch_bytes ch random with
          | .error e => (.error e, failed, replay)
          | .ok (sh_full, state) => (.ok sh_full, { self with state }, replay)
  | _ => (.error .State, failed, replay)

def on_client_finish (self : Responder) (cf_bytes : Bytes) :
    Except HandshakeError (Bytes × SessionKeys) × Responder :=
  match self.state with
  | .AwaitClientFinish ex_secret kem ss_pq_a ch_bytes sh_wo_sig sh_full client_ex_pk client_cert
      client_endpoint_id =>
    match accept P ex_secret kem ss_pq_a ch_bytes sh_wo_sig sh_full client_ex_pk client_cert
        client_endpoint_id cf_bytes with
    | .ok r => (.ok r, { self with state := .Done })
    | .error e => (.error e, { self with state := .Failed })
  | _ => (.error .State, { self with state := .Failed })

end Responder

end rtp2_core.handshake
