-- Parties that talk in frames. What a frame is stays the same when more bytes arrive, so
-- a party can read from a stream that delivers piece by piece.
import Reyta.Framing
import Reyta.Sender
import Reyta.Sessions
import Reyta.SteadyParser

open byte_string early_exit exact_parse stream_party

namespace rtp2_core.transfer

open control crypto

/-! ## The reader -/

/-- The error of a stream that ends in a frame. -/
def finished_early : TransferError := .Io "stream finished early"

theorem recv_body_steady (is_protected : Bool) (body_len : Nat) (frame_type frame_flags : UInt8)
    (request_id : UInt64) :
    Steady finished_early (recv_body is_protected body_len frame_type frame_flags request_id) := by
  unfold recv_body recv_numbers RecvStream.read_exact
  refine .bind (.fail_if _ _) fun _ => .bind (.ite ?_ (.pure _)) fun _ => ?_
  · exact .bind (.take 16) fun _ => .pure _
  · exact .bind (.take body_len) fun _ => .pure _

theorem recv_raw_frame_steady (is_protected : Bool) :
    Steady finished_early (recv_raw_frame is_protected) := by
  unfold recv_raw_frame RecvStream.read_exact
  refine .bind (.take FRAME_HEADER_LEN) fun head => ?_
  refine .bind (.fail_if _ _) fun _ => .bind (.fail_if _ _) fun _ => ?_
  exact recv_body_steady _ _ _ _ _

/-- A frame with its epoch and its counter, which are zero if it is not protected. -/
abbrev Numbered := RawFrame × UInt64 × UInt64

/-- Frames that are protected and frames that are not. -/
def frames : Reader UInt8 Bool TransferError Numbered :=
  reader finished_early recv_raw_frame recv_raw_frame_steady

/-- The bytes of a frame without protection. -/
def plain_wire (frame_type : UInt8) (payload : Bytes) : Bytes :=
  header_fields (12 + payload.length) frame_type 0 0 ++ payload

theorem send_plain_frame_eq_ok {frame_type : UInt8} {payload bytes : Bytes}
    (h : send_plain_frame frame_type payload = .ok bytes) :
    bytes = plain_wire frame_type payload := by
  obtain ⟨head, hhead, hbytes⟩ := bind_eq_ok.1 h
  obtain ⟨-, rfl⟩ := header_bytes_eq_ok.1 hhead
  exact (pure_eq_ok.1 hbytes).symm

/-! ## Talking in frames -/

/-- How a call is left early: with an error, with a panic, or because it is cut short. -/
inductive Halt where
  | Err (e : TransferError)
  | Panic
  | Cut
  deriving DecidableEq, Repr

def Stop.halt : Stop → Halt
  | .Err e => .Err e
  | .Panic => .Panic

/-- A procedure with the state `σ` that talks in frames. -/
abbrev Talk (σ α : Type) := Session UInt8 Bool TransferError Numbered σ Halt α

/-- What a party did with frames. -/
abbrev FrameDeed := Deed UInt8 Bool TransferError Numbered

namespace Talk

variable {σ α : Type}

/-- `x?` -/
def fallible (x : Except TransferError α) : Talk σ α := Session.act (lift (x.mapError .Err))

/-- `x?`, where `x` may also panic. -/
def stopping (x : Except Stop α) : Talk σ α := Session.act (lift (x.mapError Stop.halt))

/-- What the surroundings have not answered yet cuts the call short. -/
def waiting : Option α → Talk σ α
  | none => throw .Cut
  | some a => pure a

def io (x : Except String α) : Talk σ α := fallible (x.mapError .Io)

def write_all (bytes : Bytes) : Talk σ Unit := Session.put .Err bytes

def send_plain_frame (frame_type : UInt8) (payload : Bytes) : Talk σ Unit := do
  let bytes ← fallible (transfer.send_plain_frame frame_type payload)
  write_all bytes

def expect_plain_frame (expected : UInt8) : Talk σ Bytes := do
  let (frame, _, _) ← Session.take .Err false
  fallible (refuse_if (frame.frame_type ≠ expected) (.Protocol "unexpected frame type"))
  pure frame.body

variable (P : Primitives)

/-- The channel afterwards. -/
def send_frame (control : ControlChannel) (frame_type : UInt8) (payload : Bytes) :
    Talk σ ControlChannel := do
  let bytes ← fallible (transfer.send_frame P control frame_type payload).1
  write_all bytes
  pure (transfer.send_frame P control frame_type payload).2

/-- What the channel makes of a frame. -/
def open_frame (control : ControlChannel) (m : Numbered) :
    Except TransferError ((UInt8 × Bytes) × ControlChannel) :=
  match control.open P m.2.1 m.2.2 m.1.frame_type m.1.frame_flags m.1.request_id m.1.body with
  | (.ok body, control) => .ok ((m.1.frame_type, body), control)
  | (.error _, _) => .error (.Crypto "control frame")

def recv_frame (control : ControlChannel) : Talk σ ((UInt8 × Bytes) × ControlChannel) := do
  let m ← Session.take .Err true
  fallible (open_frame P control m)

def expect_frame (control : ControlChannel) (expected : UInt8) :
    Talk σ (Bytes × ControlChannel) := do
  let ((t, payload), control) ← recv_frame P control
  fallible (refuse_if (t ≠ expected) (.Protocol "unexpected frame type"))
  pure (payload, control)

variable {P}

/-! ## Along a script -/

section Plays

open Session

variable {s : σ} {a b : ControlChannel} {frame_type : UInt8} {payload ciphertext : Bytes}

theorem plays_fallible {x : Except TransferError α} {r : α} (h : x = .ok r) (s : σ) :
    Plays frames (fallible x : Talk σ α) s [] r s := by
  unfold fallible
  rw [h]
  exact plays_act rfl

theorem plays_stopping {x : Except Stop α} {r : α} (h : x = .ok r) (s : σ) :
    Plays frames (stopping x : Talk σ α) s [] r s := by
  unfold stopping
  rw [h]
  exact plays_act rfl

theorem plays_io {x : Except String α} {r : α} (h : x = .ok r) (s : σ) :
    Plays frames (io x : Talk σ α) s [] r s := by
  unfold io
  rw [h]
  exact plays_fallible rfl s

theorem plays_waiting {x : Option α} {r : α} (h : x = some r) (s : σ) :
    Plays frames (waiting x : Talk σ α) s [] r s := by
  rw [h]
  exact plays_pure r s

/-- A frame that is not protected is taken off the stream, whatever follows. -/
theorem scan_plain {bytes : Bytes}
    (hsend : transfer.send_plain_frame frame_type payload = .ok bytes)
    (hlimit : payload.length ≤ body_limit frame_type) :
    ∃ m : Numbered, m.1.frame_type = frame_type ∧ m.1.body = payload ∧
      ∀ t, frames.scan false (bytes ++ t) = .got m t := by
  have hwhole := expect_plain_frame_of_send hsend hlimit []
  obtain ⟨⟨frame, numbers⟩, i, hraw, hrest⟩ := run_bind_eq_ok.1 hwhole
  obtain ⟨u, j, hcheck, hbody⟩ := run_bind_eq_ok.1 hrest
  have htype : frame.frame_type = frame_type := by
    by_contra hne
    simp [exact_parse.fail_if, hne] at hcheck
  simp only [exact_parse.fail_if, htype, ne_eq, not_true_eq_false, if_false] at hcheck
  cases hcheck
  cases hbody
  refine ⟨(frame, numbers), htype, rfl, fun t => ?_⟩
  have hmore := (recv_raw_frame_steady false).ok t hraw
  rw [List.append_nil] at hmore
  exact scan_of_ok hmore

theorem plays_send_plain {bytes : Bytes}
    (hsend : transfer.send_plain_frame frame_type payload = .ok bytes) (s : σ) :
    Plays frames (send_plain_frame frame_type payload : Talk σ Unit) s [.send bytes] () s :=
  (plays_fallible hsend s).after_quiet (plays_put Halt.Err bytes s)

theorem plays_expect_plain {bytes : Bytes}
    (hsend : transfer.send_plain_frame frame_type payload = .ok bytes)
    (hlimit : payload.length ≤ body_limit frame_type) (s : σ) :
    Plays frames (expect_plain_frame frame_type : Talk σ Bytes) s [.recv bytes] payload s := by
  obtain ⟨m, htype, rfl, hscan⟩ := scan_plain hsend hlimit
  refine (plays_take Halt.Err hscan s).then_quiet ?_
  have hok : refuse_if (m.1.frame_type ≠ frame_type)
      (TransferError.Protocol "unexpected frame type") = .ok () := by
    simp [refuse_if, htype]
  exact (plays_fallible hok s).after_quiet (plays_pure _ s)

theorem plays_send (h : Sealed P a frame_type payload ciphertext) (s : σ) :
    Plays frames (send_frame P a frame_type payload : Talk σ ControlChannel) s
      [.send (wire frame_type a.keys.epoch a.send_counter ciphertext)]
      { a with send_counter := a.send_counter + 1 } s := by
  unfold send_frame
  rw [h.send_frame]
  exact (plays_fallible rfl s).after_quiet ((plays_put Halt.Err _ s).then_quiet (plays_pure _ s))

/-- The channel in step takes the frame. -/
theorem open_frame_of_sealed (h : Sealed P a frame_type payload ciphertext) (hdec : P.Decrypts)
    (hstep : InStep a b) (hepoch : a.keys.epoch.toNat < 2 ^ 64 - 1) :
    open_frame P b (⟨frame_type, 0, 0, ciphertext⟩, a.keys.epoch, a.send_counter) =
      .ok ((frame_type, payload), { b with receive_watermark := a.send_counter + 1 }) := by
  have hdir : b.send_direction.opposite = a.send_direction := by
    rw [hstep.direction]
    cases a.send_direction <;> rfl
  have henc := h.enc
  rw [← hdir, ← hstep.keys] at henc
  rw [← hstep.keys] at hepoch ⊢
  unfold open_frame
  rw [ControlChannel.open_current hdec henc rfl hepoch h.max hstep.watermark]

theorem plays_recv (h : Sealed P a frame_type payload ciphertext) (hdec : P.Decrypts)
    (hstep : InStep a b) (hlimit : ciphertext.length ≤ body_limit frame_type)
    (hepoch : a.keys.epoch.toNat < 2 ^ 64 - 1) (s : σ) :
    Plays frames (recv_frame P b : Talk σ ((UInt8 × Bytes) × ControlChannel)) s
      [.recv (wire frame_type a.keys.epoch a.send_counter ciphertext)]
      ((frame_type, payload), { b with receive_watermark := a.send_counter + 1 }) s := by
  have hscan : ∀ t, frames.scan true
      (wire frame_type a.keys.epoch a.send_counter ciphertext ++ t) =
        .got (⟨frame_type, 0, 0, ciphertext⟩, a.keys.epoch, a.send_counter) t := fun t =>
    scan_of_ok (recv_raw_frame_wire h.le hlimit t)
  refine (plays_take Halt.Err hscan s).then_quiet ?_
  exact plays_fallible (open_frame_of_sealed h hdec hstep hepoch) s

theorem plays_expect (h : Sealed P a frame_type payload ciphertext) (hdec : P.Decrypts)
    (hstep : InStep a b) (hlimit : ciphertext.length ≤ body_limit frame_type)
    (hepoch : a.keys.epoch.toNat < 2 ^ 64 - 1) (s : σ) :
    Plays frames (expect_frame P b frame_type : Talk σ (Bytes × ControlChannel)) s
      [.recv (wire frame_type a.keys.epoch a.send_counter ciphertext)]
      (payload, { b with receive_watermark := a.send_counter + 1 }) s := by
  refine (plays_recv h hdec hstep hlimit hepoch s).then_quiet ?_
  have hok : refuse_if (frame_type ≠ frame_type)
      (TransferError.Protocol "unexpected frame type") = .ok () := by
    simp [refuse_if]
  exact (plays_fallible hok s).after_quiet (plays_pure _ s)

end Plays

end Talk

end rtp2_core.transfer
