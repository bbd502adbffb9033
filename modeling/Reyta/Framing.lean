-- The frames on a stream. The sender caps a whole frame at 8 MiB, the receiver
-- caps the body by the type of the frame, and a control frame may be sent that
-- the receiver refuses. Within the limits of the receiver every frame that is
-- sent comes out as it went in, also after a frame that was sealed and then
-- not sent.
import Reyta.Control
import Reyta.Receiver

open byte_string exact_parse

namespace rtp2_core.transfer

open control crypto

def MAX_FRAME : Nat := 8 * 1024 * 1024

def FRAME_OFFER : UInt8 := 0x02

def FRAME_HEADER_LEN : Nat := 4 + 1 + 1 + 2 + 8

def MAX_CONTROL_BODY : Nat := 1024 * 1024
def MAX_DATA_BODY : Nat := 4 * 1024 * 1024 + 4 * 1024

def FLAG_NONCRITICAL : UInt8 := 0x01

def body_limit (frame_type : UInt8) : Nat :=
  if frame_type = FRAME_CHUNK then MAX_DATA_BODY else MAX_CONTROL_BODY

/-- The fields of a header, the reserved bytes zero. -/
def header_fields (len : Nat) (frame_type frame_flags : UInt8) (request_id : UInt64) : Bytes :=
  be_bytes 4 len ++ [frame_type, frame_flags, 0, 0] ++ be_bytes 8 request_id.toNat

def header_bytes (frame_type frame_flags : UInt8) (request_id : UInt64) (body_len extra : Nat) :
    Except TransferError Bytes := do
  let after_length := 1 + 1 + 2 + 8 + extra + body_len
  refuse_if (after_length ≥ 2 ^ 32) (.Protocol "frame too large")
  refuse_if (after_length > MAX_FRAME) (.Protocol "frame too large")
  pure (header_fields after_length frame_type frame_flags request_id)

structure RawFrame where
  frame_type : UInt8
  frame_flags : UInt8
  request_id : UInt64
  body : Bytes
  deriving DecidableEq

/-- A reader of the bytes that arrive. -/
abbrev RecvStream (α : Type) := Parser UInt8 Unit TransferError α

/-- The stream ends before `n` bytes are there. -/
def RecvStream.read_exact (n : Nat) : RecvStream Bytes :=
  exact_parse.take n (.Io "stream finished early")

/-- The epoch and the counter of a protected frame. -/
def recv_numbers (is_protected : Bool) : RecvStream (UInt64 × UInt64) :=
  if is_protected then do
    let numbers ← RecvStream.read_exact 16
    pure (.ofNat (of_be (numbers.take 8)), .ofNat (of_be (numbers.drop 8)))
  else pure (0, 0)

/-- What follows a header: the limit is checked before anything is read. -/
def recv_body (is_protected : Bool) (body_len : Nat) (frame_type frame_flags : UInt8)
    (request_id : UInt64) : RecvStream (RawFrame × UInt64 × UInt64) := do
  fail_if (body_len > body_limit frame_type) (.Protocol "frame body exceeds its limit")
  let (epoch, counter) ← recv_numbers is_protected
  let body ← RecvStream.read_exact body_len
  pure (⟨frame_type, frame_flags, request_id, body⟩, epoch, counter)

def recv_raw_frame (is_protected : Bool) : RecvStream (RawFrame × UInt64 × UInt64) := do
  let head ← RecvStream.read_exact FRAME_HEADER_LEN
  let declared := of_be (head.take 4)
  let frame_type := head.getD 4 0
  let frame_flags := head.getD 5 0
  fail_if (head.getD 6 0 ≠ 0 ∨ head.getD 7 0 ≠ 0 ∨ frame_flags &&& ~~~FLAG_NONCRITICAL ≠ 0)
    (.Protocol "reserved bits set")
  let request_id := .ofNat (of_be (head.drop 8))
  let fixed := FRAME_HEADER_LEN - 4 + if is_protected then 16 else 0
  fail_if (declared < fixed) (.Protocol "bad frame length")
  recv_body is_protected (declared - fixed) frame_type frame_flags request_id

/-- The bytes of a frame without protection. -/
def send_plain_frame (frame_type : UInt8) (payload : Bytes) : Except TransferError Bytes := do
  let head ← header_bytes frame_type 0 0 payload.length 0
  pure (head ++ payload)

def expect_plain_frame (expected : UInt8) : RecvStream Bytes := do
  let (frame, _, _) ← recv_raw_frame false
  fail_if (frame.frame_type ≠ expected) (.Protocol "unexpected frame type")
  pure frame.body

variable (P : Primitives)

/-- The bytes of a frame. The counter moves when the frame is sealed, whether
or not the header can be written. -/
def send_frame (control : ControlChannel) (frame_type : UInt8) (payload : Bytes) :
    Except TransferError Bytes × ControlChannel :=
  match control.seal P frame_type 0 0 payload with
  | (.error _, control) => (.error (.Crypto "control frame"), control)
  | (.ok sealed, control) =>
    match header_bytes frame_type 0 0 sealed.ciphertext.length 16 with
    | .error e => (.error e, control)
    | .ok head =>
      (.ok (head ++ be_bytes 8 sealed.epoch.toNat ++ be_bytes 8 sealed.counter.toNat ++
        sealed.ciphertext), control)

def recv_frame (control : ControlChannel) : RecvStream ((UInt8 × Bytes) × ControlChannel) := do
  let (frame, epoch, counter) ← recv_raw_frame true
  match control.open P epoch counter frame.frame_type frame.frame_flags frame.request_id
    frame.body with
  | (.ok body, control) => pure ((frame.frame_type, body), control)
  | (.error _, _) => fail (.Crypto "control frame")

/-! ## A header -/

theorem header_bytes_eq_ok {frame_type frame_flags : UInt8} {request_id : UInt64}
    {body_len extra : Nat} {head : Bytes} :
    header_bytes frame_type frame_flags request_id body_len extra = .ok head ↔
      12 + extra + body_len ≤ MAX_FRAME ∧
      header_fields (12 + extra + body_len) frame_type frame_flags request_id = head := by
  unfold header_bytes
  simp only [bind_eq_ok, refuse_if_eq_ok, pure_eq_ok, exists_and_left, exists_const]
  constructor
  · rintro ⟨-, hle, rfl⟩
    exact ⟨Nat.not_lt.1 hle, rfl⟩
  · rintro ⟨hle, rfl⟩
    refine ⟨?_, Nat.not_lt.2 hle, rfl⟩
    unfold MAX_FRAME at hle
    omega

/-- What the receiver finds in a header. -/
theorem header_fields_parts (len : Nat) (frame_type frame_flags : UInt8) (request_id : UInt64) :
    let head := header_fields len frame_type frame_flags request_id
    head.length = FRAME_HEADER_LEN ∧ head.take 4 = be_bytes 4 len ∧ head.getD 4 0 = frame_type ∧
      head.getD 5 0 = frame_flags ∧ head.getD 6 0 = 0 ∧ head.getD 7 0 = 0 ∧
      head.drop 8 = be_bytes 8 request_id.toNat := by
  refine ⟨?_, ?_, ?_, ?_, ?_, ?_, ?_⟩
  · simp [header_fields, FRAME_HEADER_LEN]
  · simp [header_fields]
  · simp [header_fields]
  · simp [header_fields]
  · simp [header_fields]
  · simp [header_fields]
  · exact List.drop_left' (by simp)

theorem recv_raw_frame_header {is_protected : Bool} {extra body_len : Nat}
    {frame_type : UInt8} {request_id : UInt64} (hextra : extra = if is_protected then 16 else 0)
    (hlen : 12 + extra + body_len ≤ MAX_FRAME) (rest : Bytes) :
    recv_raw_frame is_protected
        ⟨header_fields (12 + extra + body_len) frame_type 0 request_id ++ rest, ()⟩ =
      recv_body is_protected body_len frame_type 0 request_id ⟨rest, ()⟩ := by
  obtain ⟨hhead, hfour, htype, hflags, hr6, hr7, hid⟩ :=
    header_fields_parts (12 + extra + body_len) frame_type 0 request_id
  have hdeclared : of_be (be_bytes 4 (12 + extra + body_len)) = 12 + extra + body_len :=
    of_be_be_bytes (Nat.lt_of_le_of_lt hlen (by decide))
  have hrid : UInt64.ofNat (of_be (be_bytes 8 request_id.toNat)) = request_id := by
    rw [of_be_be_bytes request_id.toNat_lt, UInt64.ofNat_toNat]
  have hfixed : FRAME_HEADER_LEN - 4 + (if is_protected then 16 else 0) = 12 + extra := by
    rw [hextra]
    rfl
  unfold recv_raw_frame
  refine (run_bind_of_ok ((Reads.take FRAME_HEADER_LEN _).complete rest hhead)).trans ?_
  refine (run_bind_of_ok (if_neg ?_)).trans ?_
  · rw [hr6, hr7, hflags]
    decide
  refine (run_bind_of_ok (if_neg ?_)).trans ?_
  · rw [hfour, hdeclared, hfixed]
    omega
  rw [hfour, hdeclared, hfixed, htype, hflags, hid, hrid, Nat.add_sub_cancel_left]

theorem recv_body_of_le {body : Bytes} {frame_type : UInt8} {request_id epoch counter : UInt64}
    (h : body.length ≤ body_limit frame_type) (rest : Bytes) :
    recv_body true body.length frame_type 0 request_id
        ⟨be_bytes 8 epoch.toNat ++ be_bytes 8 counter.toNat ++ body ++ rest, ()⟩ =
      .ok ((⟨frame_type, 0, request_id, body⟩, epoch, counter), ⟨rest, ()⟩) := by
  have hnumbers : (be_bytes 8 epoch.toNat ++ be_bytes 8 counter.toNat).length = 16 := by simp
  have hepoch : UInt64.ofNat (of_be (be_bytes 8 epoch.toNat)) = epoch := by
    rw [of_be_be_bytes epoch.toNat_lt, UInt64.ofNat_toNat]
  have hcounter : UInt64.ofNat (of_be (be_bytes 8 counter.toNat)) = counter := by
    rw [of_be_be_bytes counter.toNat_lt, UInt64.ofNat_toNat]
  have hread : recv_numbers true
      ⟨be_bytes 8 epoch.toNat ++ be_bytes 8 counter.toNat ++ (body ++ rest), ()⟩ =
        .ok ((epoch, counter), ⟨body ++ rest, ()⟩) := by
    refine (run_bind_of_ok ((Reads.take 16 _).complete (body ++ rest) hnumbers)).trans ?_
    rw [List.take_left' (length_be_bytes 8 _), List.drop_left' (length_be_bytes 8 _), hepoch,
      hcounter, run_pure]
  unfold recv_body
  rw [List.append_assoc]
  refine (run_bind_of_ok (if_neg (Nat.not_lt.2 h))).trans ?_
  refine (run_bind_of_ok hread).trans ?_
  exact run_bind_of_ok ((Reads.take body.length _).complete rest rfl)

theorem recv_body_of_gt {is_protected : Bool} {body_len : Nat} {frame_type frame_flags : UInt8}
    {request_id : UInt64} (h : body_limit frame_type < body_len) (rest : Bytes) :
    recv_body is_protected body_len frame_type frame_flags request_id ⟨rest, ()⟩ =
      .error (.Protocol "frame body exceeds its limit") := by
  have hfail : (fail_if (body_len > body_limit frame_type)
      (.Protocol "frame body exceeds its limit") : RecvStream Unit) ⟨rest, ()⟩ =
        .error (.Protocol "frame body exceeds its limit") := if_pos h
  unfold recv_body
  exact run_bind_of_error hfail

/-- A frame without protection is received if its payload keeps the limit of
its type. -/
theorem expect_plain_frame_of_send {frame_type : UInt8} {payload bytes : Bytes}
    (hsend : send_plain_frame frame_type payload = .ok bytes)
    (h : payload.length ≤ body_limit frame_type) (rest : Bytes) :
    expect_plain_frame frame_type ⟨bytes ++ rest, ()⟩ = .ok (payload, ⟨rest, ()⟩) := by
  obtain ⟨head, hhead, hbytes⟩ := bind_eq_ok.1 hsend
  obtain ⟨hle, rfl⟩ := header_bytes_eq_ok.1 hhead
  obtain rfl := pure_eq_ok.1 hbytes
  have hbody : recv_body false payload.length frame_type 0 0 ⟨payload ++ rest, ()⟩ =
      .ok ((⟨frame_type, 0, 0, payload⟩, 0, 0), ⟨rest, ()⟩) := by
    unfold recv_body
    refine (run_bind_of_ok (if_neg (Nat.not_lt.2 h))).trans ?_
    refine (run_bind_of_ok rfl).trans ?_
    exact run_bind_of_ok ((Reads.take payload.length _).complete rest rfl)
  unfold expect_plain_frame
  rw [List.append_assoc]
  refine (run_bind_of_ok ((recv_raw_frame_header rfl hle _).trans hbody)).trans ?_
  exact run_bind_of_ok (if_neg (not_not.2 rfl))

/-! ## A frame from one channel to the other -/

/-- `b` has the keys of `a`, opens what `a` seals, and has opened nothing that
`a` has yet to seal. -/
structure InStep (a b : ControlChannel) : Prop where
  direction : b.send_direction = a.send_direction.opposite
  keys : b.keys = a.keys
  watermark : b.receive_watermark ≤ a.send_counter

/-- Two channels of one session are in step at the start. -/
theorem InStep.new (handshake_prk th2 : Arr 48) (direction : Direction) :
    InStep (.new P handshake_prk th2 direction) (.new P handshake_prk th2 direction.opposite) :=
  ⟨rfl, rfl, UInt64.le_refl _⟩

variable {P} {a b : ControlChannel}

theorem InStep.sent (h : InStep a b) {counter : UInt64} (hle : a.send_counter ≤ counter) :
    InStep { a with send_counter := counter } b :=
  ⟨h.direction, h.keys, UInt64.le_trans h.watermark hle⟩

theorem InStep.received (h : InStep a b) (counter : UInt64) :
    InStep { a with send_counter := counter } { b with receive_watermark := counter } :=
  ⟨h.direction, h.keys, UInt64.le_refl _⟩

/-- The bytes of a sealed frame. -/
def wire (frame_type : UInt8) (epoch counter : UInt64) (ciphertext : Bytes) : Bytes :=
  header_fields (12 + 16 + ciphertext.length) frame_type 0 0 ++
    (be_bytes 8 epoch.toNat ++ be_bytes 8 counter.toNat ++ ciphertext)

theorem length_wire (frame_type : UInt8) (epoch counter : UInt64) (ciphertext : Bytes) :
    (wire frame_type epoch counter ciphertext).length = 32 + ciphertext.length := by
  simp [wire, header_fields]
  omega

/-- The next frame of `a` has this ciphertext, and is not too long to be sent. -/
structure Sealed (P : Primitives) (a : ControlChannel) (frame_type : UInt8)
    (payload ciphertext : Bytes) : Prop where
  max : a.send_counter < MAX_FRAMES_PER_EPOCH
  enc : P.encrypt (a.keys.key_for a.send_direction)
    (control_nonce P a.send_direction a.keys.epoch a.send_counter)
    (control_aad a.send_direction a.keys.epoch a.send_counter frame_type 0 0) payload =
      some ciphertext
  le : 12 + 16 + ciphertext.length ≤ MAX_FRAME

theorem Sealed.send_frame {frame_type : UInt8} {payload ciphertext : Bytes}
    (h : Sealed P a frame_type payload ciphertext) :
    send_frame P a frame_type payload =
      (.ok (wire frame_type a.keys.epoch a.send_counter ciphertext),
        { a with send_counter := a.send_counter + 1 }) := by
  unfold transfer.send_frame
  rw [ControlChannel.seal_of_encrypt h.max h.enc]
  simp only [header_bytes_eq_ok.2 ⟨h.le, rfl⟩, wire, List.append_assoc]

/-- The sender emits a frame, or emits nothing and may leave out a counter. -/
theorem send_frame_cases (a : ControlChannel) (frame_type : UInt8) (payload : Bytes) :
    (∃ e counter, a.send_counter ≤ counter ∧ send_frame P a frame_type payload =
      (.error e, { a with send_counter := counter })) ∨
    ∃ ciphertext, Sealed P a frame_type payload ciphertext := by
  rcases a.seal_cases (P := P) frame_type 0 0 payload with
    ⟨e, hseal⟩ | ⟨ciphertext, hmax, henc, hseal⟩
  · refine .inl ⟨.Crypto "control frame", a.send_counter, UInt64.le_refl _, ?_⟩
    rw [send_frame, hseal]
  · rcases hhead : header_bytes frame_type 0 0 ciphertext.length 16 with e | head
    · refine .inl ⟨e, a.send_counter + 1, ?_, ?_⟩
      · rw [UInt64.le_iff_toNat_le, ControlChannel.toNat_succ_counter hmax]
        exact Nat.le_succ _
      · simp only [send_frame, hseal, hhead]
    · exact .inr ⟨ciphertext, hmax, henc, (header_bytes_eq_ok.1 hhead).1⟩

theorem recv_raw_frame_wire {frame_type : UInt8} {epoch counter : UInt64} {ciphertext : Bytes}
    (hle : 12 + 16 + ciphertext.length ≤ MAX_FRAME)
    (hlimit : ciphertext.length ≤ body_limit frame_type) (rest : Bytes) :
    recv_raw_frame true ⟨wire frame_type epoch counter ciphertext ++ rest, ()⟩ =
      .ok ((⟨frame_type, 0, 0, ciphertext⟩, epoch, counter), ⟨rest, ()⟩) := by
  unfold wire
  rw [List.append_assoc]
  exact (recv_raw_frame_header rfl hle _).trans (recv_body_of_le hlimit rest)

/-- The channel in step takes a sealed frame off the stream. -/
theorem Sealed.recv_frame {frame_type : UInt8} {payload ciphertext : Bytes}
    (hsealed : Sealed P a frame_type payload ciphertext) (hdec : P.Decrypts) (h : InStep a b)
    (hlimit : ciphertext.length ≤ body_limit frame_type) (hepoch : a.keys.epoch.toNat < 2 ^ 64 - 1)
    (rest : Bytes) :
    recv_frame P b ⟨wire frame_type a.keys.epoch a.send_counter ciphertext ++ rest, ()⟩ =
      .ok (((frame_type, payload), { b with receive_watermark := a.send_counter + 1 }),
        ⟨rest, ()⟩) := by
  have hdir : b.send_direction.opposite = a.send_direction := by
    rw [h.direction]
    cases a.send_direction <;> rfl
  have hopen : b.open P a.keys.epoch a.send_counter frame_type 0 0 ciphertext =
      (.ok payload, { b with receive_watermark := a.send_counter + 1 }) := by
    have henc := hsealed.enc
    rw [← hdir] at henc
    rw [← h.keys] at henc hepoch ⊢
    exact ControlChannel.open_current hdec henc rfl hepoch hsealed.max h.watermark
  unfold transfer.recv_frame
  refine (run_bind_of_ok (recv_raw_frame_wire hsealed.le hlimit rest)).trans ?_
  simp only [hopen, run_pure]

/-- It refuses one whose body is over the limit of its type. -/
theorem recv_frame_of_gt {frame_type : UInt8} {epoch counter : UInt64} {ciphertext : Bytes}
    (hle : 12 + 16 + ciphertext.length ≤ MAX_FRAME)
    (hlimit : body_limit frame_type < ciphertext.length) (rest : Bytes) :
    recv_frame P b ⟨wire frame_type epoch counter ciphertext ++ rest, ()⟩ =
      .error (.Protocol "frame body exceeds its limit") := by
  unfold recv_frame wire
  rw [List.append_assoc]
  exact run_bind_of_error
    ((recv_raw_frame_header rfl hle _).trans (recv_body_of_gt hlimit _))

/-- In the last epoch it refuses every frame. -/
theorem recv_frame_of_last (h : InStep a b) {frame_type : UInt8} {ciphertext : Bytes}
    (hle : 12 + 16 + ciphertext.length ≤ MAX_FRAME) (hlast : a.keys.epoch.toNat = 2 ^ 64 - 1)
    (rest : Bytes) : ∃ e,
    recv_frame P b ⟨wire frame_type a.keys.epoch a.send_counter ciphertext ++ rest, ()⟩ =
      .error e := by
  by_cases hlimit : ciphertext.length ≤ body_limit frame_type
  · have hopen : b.open P a.keys.epoch a.send_counter frame_type 0 0 ciphertext =
        (.error .EpochGap, b) :=
      ControlChannel.open_last (congrArg EpochKeys.epoch h.keys) hlast
    unfold recv_frame
    refine ⟨.Crypto "control frame", ?_⟩
    refine (run_bind_of_ok (recv_raw_frame_wire hle hlimit rest)).trans ?_
    simp only [hopen]
    rfl
  · exact ⟨_, recv_frame_of_gt hle (Nat.not_le.1 hlimit) rest⟩

/-! ## A run of frames -/

/-- A frame that was emitted. -/
structure Emitted where
  frame_type : UInt8
  payload : Bytes
  bytes : Bytes

variable (P) in
/-- What the sender emits when it is asked to send these, one after the other. -/
def emitted : ControlChannel → List (UInt8 × Bytes) → List Emitted
  | _, [] => []
  | a, (frame_type, payload) :: asked =>
    match send_frame P a frame_type payload with
    | (.ok bytes, a) => ⟨frame_type, payload, bytes⟩ :: emitted a asked
    | (.error _, a) => emitted a asked

variable (P) in
/-- `recv_frame`, `n` times. -/
def recv_frames : Nat → ControlChannel → RecvStream (List (UInt8 × Bytes) × ControlChannel)
  | 0, b => pure ([], b)
  | n + 1, b => do
    let (frame, b) ← recv_frame P b
    let (frames, b) ← recv_frames n b
    pure (frame :: frames, b)

/-- The receiver takes all frames off the stream, and leaves what follows. -/
def Received (P : Primitives) (b : ControlChannel) (frames : List Emitted) (rest : Bytes) : Prop :=
  ∃ b', recv_frames P frames.length b ⟨frames.flatMap Emitted.bytes ++ rest, ()⟩ =
    .ok ((frames.map fun f => (f.frame_type, f.payload), b'), ⟨rest, ()⟩)

theorem received_cons (frame : Emitted) {frames : List Emitted} {rest : Bytes}
    {b' : ControlChannel} (h : ∀ rest, recv_frame P b ⟨frame.bytes ++ rest, ()⟩ =
      .ok (((frame.frame_type, frame.payload), b'), ⟨rest, ()⟩)) :
    Received P b (frame :: frames) rest ↔ Received P b' frames rest := by
  unfold Received
  simp only [List.length_cons, List.flatMap_cons, List.append_assoc, List.map_cons, recv_frames]
  constructor
  · rintro ⟨b'', hrun⟩
    rw [run_bind_of_ok (h _)] at hrun
    obtain ⟨⟨frames', b''⟩, i, hrest, hpure⟩ := run_bind_eq_ok.1 hrun
    cases hpure
    exact ⟨_, hrest⟩
  · rintro ⟨b'', hrest⟩
    refine ⟨b'', ?_⟩
    rw [run_bind_of_ok (h _), run_bind_of_ok hrest]
    rfl

theorem not_received_cons (frame : Emitted) {frames : List Emitted} {rest : Bytes}
    (h : ∀ rest, ∃ e, recv_frame P b ⟨frame.bytes ++ rest, ()⟩ = .error e) :
    ¬ Received P b (frame :: frames) rest := by
  rintro ⟨b', hrun⟩
  simp only [List.length_cons, List.flatMap_cons, List.append_assoc, recv_frames] at hrun
  obtain ⟨e, he⟩ := h (frames.flatMap Emitted.bytes ++ rest)
  rw [run_bind_of_error he] at hrun
  cases hrun

/-- With 16 bytes of header and 16 of epoch and counter, the body keeps the
limit of the receiver. -/
def Emitted.KeepsLimit (frame : Emitted) : Prop :=
  frame.bytes.length ≤ 32 + body_limit frame.frame_type

/-- A ciphertext is 16 bytes longer than its payload, so the limit can be read
off the payload. -/
theorem emitted_keepsLimit (hP : P.Encrypts) {asked : List (UInt8 × Bytes)}
    (hasked : ∀ ask ∈ asked, ask.2.length + 16 ≤ body_limit ask.1) (a : ControlChannel) :
    ∀ frame ∈ emitted P a asked, frame.KeepsLimit := by
  induction asked generalizing a with
  | nil => simp [emitted]
  | cons ask asked ih =>
    obtain ⟨frame_type, payload⟩ := ask
    rw [List.forall_mem_cons] at hasked
    rcases send_frame_cases (P := P) a frame_type payload with
      ⟨e, counter, -, hsend⟩ | ⟨ciphertext, hsealed⟩
    · simp only [emitted, hsend]
      exact ih hasked.2 _
    · have hlimit : body_limit frame_type < 2 ^ 32 := by
        unfold body_limit
        split_ifs <;> decide
      have hlen := hP.length_eq (Nat.lt_of_le_of_lt (Nat.le_of_add_right_le hasked.1) hlimit)
        hsealed.enc
      simp only [emitted, hsealed.send_frame, List.forall_mem_cons]
      refine ⟨?_, ih hasked.2 _⟩
      rw [Emitted.KeepsLimit, length_wire, hlen]
      exact Nat.add_le_add_left hasked.1 32

/-- Frames on the way from a channel to one in step with it, whatever the sender
was asked to send: the receiver returns the same types and payloads and takes
just the bytes of these frames, exactly if each of them keeps the body limit of
its type and the epoch is not the last of all. -/
theorem frames_are_received_iff_they_keep_the_body_limits (P : Primitives) (hdec : P.Decrypts)
    (a b : ControlChannel) (h : InStep a b) (asked : List (UInt8 × Bytes)) (rest : Bytes) :
    Received P b (emitted P a asked) rest ↔
      ∀ frame ∈ emitted P a asked, frame.KeepsLimit ∧ a.keys.epoch.toNat < 2 ^ 64 - 1 := by
  induction asked generalizing a b with
  | nil => simp [emitted, Received, recv_frames]
  | cons ask asked ih =>
    obtain ⟨frame_type, payload⟩ := ask
    rcases send_frame_cases (P := P) a frame_type payload with
      ⟨e, counter, hcounter, hsend⟩ | ⟨ciphertext, hsealed⟩
    · have hskip : emitted P a ((frame_type, payload) :: asked) =
          emitted P { a with send_counter := counter } asked := by
        simp only [emitted, hsend]
      rw [hskip]
      exact ih _ _ (h.sent hcounter)
    · obtain ⟨frame, hframe⟩ : ∃ frame : Emitted, frame =
          ⟨frame_type, payload, wire frame_type a.keys.epoch a.send_counter ciphertext⟩ := ⟨_, rfl⟩
      have hcons : emitted P a ((frame_type, payload) :: asked) =
          frame :: emitted P { a with send_counter := a.send_counter + 1 } asked := by
        simp only [emitted, hsealed.send_frame, hframe]
      have hkeeps : frame.KeepsLimit ↔ ciphertext.length ≤ body_limit frame_type := by
        rw [hframe, Emitted.KeepsLimit, length_wire, Nat.add_le_add_iff_left]
      rw [hcons, List.forall_mem_cons, hkeeps]
      by_cases hok : ciphertext.length ≤ body_limit frame_type ∧ a.keys.epoch.toNat < 2 ^ 64 - 1
      · have hrecv := hsealed.recv_frame hdec h hok.1 hok.2
        rw [received_cons frame (by rwa [hframe]), ih _ _ (h.received _)]
        exact (and_iff_right hok).symm
      · refine iff_of_false (not_received_cons frame fun rest => ?_) fun hall => hok hall.1
        rw [hframe]
        by_cases hlimit : ciphertext.length ≤ body_limit frame_type
        · have hlast : a.keys.epoch.toNat = 2 ^ 64 - 1 := by
            have hlt := a.keys.epoch.toNat_lt
            have hnot : ¬ a.keys.epoch.toNat < 2 ^ 64 - 1 := fun hlt => hok ⟨hlimit, hlt⟩
            omega
          exact recv_frame_of_last h hsealed.le hlast rest
        · exact ⟨_, recv_frame_of_gt hsealed.le (Nat.not_le.1 hlimit) rest⟩

def sampleSender : ControlChannel := .new sample (.replicate 48 1) (.replicate 48 2) .ClientToServer
def sampleReceiver : ControlChannel :=
  .new sample (.replicate 48 1) (.replicate 48 2) .ServerToClient

theorem sample_inStep : InStep sampleSender sampleReceiver :=
  InStep.new sample (.replicate 48 1) (.replicate 48 2) .ClientToServer

theorem an_offer_and_a_chunk_are_received :
    Received sample sampleReceiver
      (emitted sample sampleSender [(FRAME_OFFER, [1, 2, 3]), (FRAME_CHUNK, [4])]) [] := by
  refine (frames_are_received_iff_they_keep_the_body_limits sample sample_decrypts _ _
    sample_inStep _ []).2 fun frame hframe => ⟨?_, by decide⟩
  exact emitted_keepsLimit sample_encrypts (by decide) sampleSender frame hframe

/-- An offer of 1 MiB: with the tag its body is over the limit. -/
theorem an_offer_of_a_mebibyte_is_sent_and_refused :
    ∃ bytes,
      (send_frame sample sampleSender FRAME_OFFER (.replicate (1024 * 1024) 0)).1 = .ok bytes ∧
      recv_frame sample sampleReceiver ⟨bytes, ()⟩ =
        .error (.Protocol "frame body exceeds its limit") := by
  have hlen : (List.replicate (1024 * 1024) (0 : UInt8)).length = 1024 * 1024 :=
    List.length_replicate
  obtain ⟨ciphertext, henc, hcipher⟩ := sample_encrypts
    (sampleSender.keys.key_for sampleSender.send_direction)
    (control_nonce sample sampleSender.send_direction sampleSender.keys.epoch
      sampleSender.send_counter)
    (control_aad sampleSender.send_direction sampleSender.keys.epoch sampleSender.send_counter
      FRAME_OFFER 0 0) (.replicate (1024 * 1024) 0) (by rw [hlen]; decide)
  rw [hlen] at hcipher
  have hle : 12 + 16 + ciphertext.length ≤ MAX_FRAME := by rw [hcipher]; decide
  have hlimit : body_limit FRAME_OFFER < ciphertext.length := by rw [hcipher]; decide
  have hsealed : Sealed sample sampleSender FRAME_OFFER (.replicate (1024 * 1024) 0) ciphertext :=
    ⟨by decide, henc, hle⟩
  refine ⟨_, congrArg Prod.fst hsealed.send_frame, ?_⟩
  rw [← List.append_nil (wire _ _ _ _)]
  exact recv_frame_of_gt hle hlimit []

end rtp2_core.transfer
