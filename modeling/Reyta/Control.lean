-- Control-frame protection and key epochs. A channel seals in one direction and
-- opens in the other, and both directions share the epoch.
import Mathlib.Data.List.Nodup
import Mathlib.Data.Prod.Lex
import Reyta.CallMachine
import Reyta.Crypto

open byte_string call_machine

namespace rtp2_core.control

open crypto

def CONTROL_NONCE_CONTEXT : String := "Reyta RTP2 2026-08-01 control nonce v1"
def EPOCH_SALT_DOMAIN : Bytes := ascii "RTP2-EPOCH-SALT-v1"
def CONTROL_AAD_MAGIC : Bytes := ascii "RTP2CTRL"

def MAX_FRAMES_PER_EPOCH : UInt64 := (1 : UInt64) <<< (32 : UInt64)

inductive Direction where
  | ClientToServer
  | ServerToClient
  deriving DecidableEq, Repr

def Direction.byte : Direction → UInt8
  | .ClientToServer => 0
  | .ServerToClient => 1

def Direction.opposite : Direction → Direction
  | .ClientToServer => .ServerToClient
  | .ServerToClient => .ClientToServer

theorem Direction.opposite_ne (d : Direction) : d.opposite ≠ d := by cases d <;> decide

inductive ControlError where
  | Decrypt
  | Replay
  | StaleEpoch
  | EpochGap
  | CounterExhausted
  | Malformed
  deriving DecidableEq, Repr

structure EpochKeys where
  epoch : UInt64
  c2s : Arr 32
  s2c : Arr 32
  deriving DecidableEq

def EpochKeys.key_for (keys : EpochKeys) : Direction → Arr 32
  | .ClientToServer => keys.c2s
  | .ServerToClient => keys.s2c

structure ControlChannel where
  send_direction : Direction
  epoch_prk : Arr 48
  th2 : Arr 48
  keys : EpochKeys
  send_counter : UInt64
  /-- One past the highest counter that was accepted in this epoch. -/
  receive_watermark : UInt64
  deriving DecidableEq

structure SealedFrame where
  epoch : UInt64
  counter : UInt64
  ciphertext : Bytes
  deriving DecidableEq

variable (P : Primitives)

def advance_prk (current : Arr 48) (next_epoch : UInt64) : Arr 48 :=
  P.hkdf_extract (EPOCH_SALT_DOMAIN ++ be_bytes 8 next_epoch.toNat) current.bytes

def derive_epoch (prk th2 : Arr 48) (epoch : UInt64) : EpochKeys where
  epoch := epoch
  c2s := P.hkdf_expand 32 prk (ascii "RTP2 control c2s v1" ++ th2.bytes)
  s2c := P.hkdf_expand 32 prk (ascii "RTP2 control s2c v1" ++ th2.bytes)

/-- The 17 bytes that the nonce is derived from. -/
def nonce_material (direction : Direction) (epoch counter : UInt64) : Bytes :=
  direction.byte :: (be_bytes 8 epoch.toNat ++ be_bytes 8 counter.toNat)

def control_nonce (direction : Direction) (epoch counter : UInt64) : Arr 24 :=
  ⟨(P.blake3_derive_key CONTROL_NONCE_CONTEXT
      (nonce_material direction epoch counter)).bytes.take 24,
    by simp⟩

def control_aad (direction : Direction) (epoch counter : UInt64) (frame_type frame_flags : UInt8)
    (request_id : UInt64) : Bytes :=
  CONTROL_AAD_MAGIC ++ be_bytes 2 PROTOCOL_MAJOR.toNat ++ be_bytes 2 SUITE_ID.toNat ++
    [direction.byte] ++ be_bytes 8 epoch.toNat ++ be_bytes 8 counter.toNat ++
    [frame_type, frame_flags] ++ be_bytes 8 request_id.toNat

def seal_with (key : Arr 32) (direction : Direction) (epoch counter : UInt64)
    (aad plaintext : Bytes) : Except ControlError Bytes :=
  (P.encrypt key (control_nonce P direction epoch counter) aad plaintext).elim
    (.error .Decrypt) .ok

def open_with (key : Arr 32) (direction : Direction) (epoch counter : UInt64)
    (aad ciphertext : Bytes) : Except ControlError Bytes :=
  (P.decrypt key (control_nonce P direction epoch counter) aad ciphertext).elim
    (.error .Decrypt) .ok

/-- The nonce material fixes the direction, the epoch and the counter. -/
theorem nonce_material_inj {d d' : Direction} {epoch epoch' counter counter' : UInt64}
    (h : nonce_material d epoch counter = nonce_material d' epoch' counter') :
    (d, epoch, counter) = (d', epoch', counter') := by
  obtain ⟨hd, htail⟩ := List.cons.inj h
  obtain ⟨he, hc⟩ := List.append_inj htail (by simp)
  have hdir : d = d' := by cases d <;> cases d' <;> first | rfl | cases hd
  have hepoch := be_bytes_inj epoch.toNat_lt epoch'.toNat_lt he
  have hcounter := be_bytes_inj counter.toNat_lt counter'.toNat_lt hc
  rw [hdir, UInt64.toNat.inj hepoch, UInt64.toNat.inj hcounter]

namespace ControlChannel

def new (handshake_prk th2 : Arr 48) (send_direction : Direction) : ControlChannel where
  send_direction := send_direction
  epoch_prk := handshake_prk
  th2 := th2
  keys := derive_epoch P handshake_prk th2 0
  send_counter := 0
  receive_watermark := 0

def «seal» (self : ControlChannel) (frame_type frame_flags : UInt8) (request_id : UInt64)
    (plaintext : Bytes) : Except ControlError SealedFrame × ControlChannel :=
  if self.send_counter ≥ MAX_FRAMES_PER_EPOCH then (.error .CounterExhausted, self)
  else
    let epoch := self.keys.epoch
    let counter := self.send_counter
    let aad := control_aad self.send_direction epoch counter frame_type frame_flags request_id
    match seal_with P (self.keys.key_for self.send_direction) self.send_direction epoch counter aad
      plaintext with
    | .error e => (.error e, self)
    | .ok ciphertext =>
      (.ok ⟨epoch, counter, ciphertext⟩, { self with send_counter := self.send_counter + 1 })

/-- The keys of the next epoch, if the frame is in it. -/
def candidate (self : ControlChannel) (epoch : UInt64) : Option (EpochKeys × Arr 48) :=
  if epoch = self.keys.epoch then none
  else
    let next_prk := advance_prk P self.epoch_prk epoch
    some (derive_epoch P next_prk self.th2 epoch, next_prk)

/-- The channel in the epoch of the frame. -/
def adopt (self : ControlChannel) : Option (EpochKeys × Arr 48) → ControlChannel
  | none => self
  | some (keys, prk) =>
    { self with keys, epoch_prk := prk, send_counter := 0, receive_watermark := 0 }

def «open» (self : ControlChannel) (epoch counter : UInt64) (frame_type frame_flags : UInt8)
    (request_id : UInt64) (ciphertext : Bytes) : Except ControlError Bytes × ControlChannel :=
  let direction := self.send_direction.opposite
  if epoch < self.keys.epoch then (.error .StaleEpoch, self)
  else if epoch > self.keys.epoch + 1 then (.error .EpochGap, self)
  else
    let candidate := self.candidate P epoch
    if candidate.isNone ∧ counter < self.receive_watermark then (.error .Replay, self)
    else if counter ≥ MAX_FRAMES_PER_EPOCH then (.error .Malformed, self)
    else
      let key := (candidate.elim self.keys Prod.fst).key_for direction
      let aad := control_aad direction epoch counter frame_type frame_flags request_id
      match open_with P key direction epoch counter aad ciphertext with
      | .error e => (.error e, self)
      | .ok plaintext =>
        (.ok plaintext, { self.adopt candidate with receive_watermark := counter + 1 })

def begin_next_epoch (self : ControlChannel) : ControlChannel :=
  let next := self.keys.epoch + 1
  let prk := advance_prk P self.epoch_prk next
  { self with
    keys := derive_epoch P prk self.th2 next
    epoch_prk := prk
    send_counter := 0
    receive_watermark := 0 }

end ControlChannel

/-! ## Calls on a channel -/

inductive Call where
  | «seal» (frame_type frame_flags : UInt8) (request_id : UInt64) (plaintext : Bytes)
  | «open» (epoch counter : UInt64) (frame_type frame_flags : UInt8) (request_id : UInt64)
      (ciphertext : Bytes)
  | begin_next_epoch

/-- What became of a call. A frame that was sealed stands with the direction and
the key it was sealed for. -/
inductive Event where
  | sealed (direction : Direction) (key : Arr 32) (frame : SealedFrame)
  | opened (epoch counter : UInt64) (plaintext : Bytes)
  | began_epoch
  | refused (e : ControlError)

namespace Event

/-- What the nonce of a sealed frame is made for. -/
def triple : Event → Option (Direction × UInt64 × UInt64)
  | .sealed direction _ frame => some (direction, frame.epoch, frame.counter)
  | _ => none

def sealed_at (ev : Event) : Option (ℕ ×ₗ ℕ) :=
  ev.triple.map fun t => toLex (t.2.1.toNat, t.2.2.toNat)

def opened_at : Event → Option (ℕ ×ₗ ℕ)
  | .opened epoch counter _ => some (toLex (epoch.toNat, counter.toNat))
  | _ => none

/-- What a frame is encrypted under. -/
def key_and_material : Event → Option (Arr 32 × Bytes)
  | .sealed direction key frame =>
    some (key, nonce_material direction frame.epoch frame.counter)
  | _ => none

/-- A sealed frame is in this direction, with a counter below the limit. -/
def SealedIn (d : Direction) : Event → Prop
  | .sealed direction _ frame => direction = d ∧ frame.counter.toNat < 2 ^ 32
  | _ => True

theorem material_eq (ev : Event) :
    ev.key_and_material.map Prod.snd = ev.triple.map fun t => nonce_material t.1 t.2.1 t.2.2 := by
  cases ev <;> rfl

theorem triple_direction {d : Direction} {t : Direction × UInt64 × UInt64} (ev : Event)
    (ht : ev.triple = some t) (h : ev.SealedIn d) : t.1 = d := by
  cases ev with
  | sealed direction key frame =>
    obtain rfl := Option.some.inj ht
    exact h.1
  | _ => cases ht

end Event

namespace ControlChannel

def call (self : ControlChannel) : Call → Event × ControlChannel
  | .seal frame_type frame_flags request_id plaintext =>
    match self.seal P frame_type frame_flags request_id plaintext with
    | (.ok frame, c) =>
      (.sealed self.send_direction (self.keys.key_for self.send_direction) frame, c)
    | (.error e, c) => (.refused e, c)
  | .open epoch counter frame_type frame_flags request_id ciphertext =>
    match self.open P epoch counter frame_type frame_flags request_id ciphertext with
    | (.ok plaintext, c) => (.opened epoch counter plaintext, c)
    | (.error e, c) => (.refused e, c)
  | .begin_next_epoch => (.began_epoch, self.begin_next_epoch P)

/-- How many epochs the calls start. -/
def epochs (self : ControlChannel) (cs : List Call) : Nat :=
  changes (call P) (fun c => c.keys.epoch) self cs

/-- The numbers that a call adds one to. -/
def increments (self : ControlChannel) : Call → List UInt64
  | .seal .. => if self.send_counter ≥ MAX_FRAMES_PER_EPOCH then [] else [self.send_counter]
  | .open epoch counter .. =>
    if epoch < self.keys.epoch then []
    else if counter ≥ MAX_FRAMES_PER_EPOCH then [self.keys.epoch]
    else [self.keys.epoch, counter]
  | .begin_next_epoch => [self.keys.epoch]

variable {P} {self : ControlChannel}

theorem toNat_max_frames : MAX_FRAMES_PER_EPOCH.toNat = 2 ^ 32 := by decide

theorem toNat_succ_le (v : UInt64) : (v + 1).toNat ≤ v.toNat + 1 := by
  rw [UInt64.toNat_add]
  exact Nat.mod_le _ _

theorem toNat_succ {v : UInt64} (h : v.toNat < 2 ^ 64 - 1) : (v + 1).toNat = v.toNat + 1 := by
  simp only [UInt64.toNat_add, UInt64.reduceToNat]
  omega

theorem counter_lt {v : UInt64} (h : v < MAX_FRAMES_PER_EPOCH) : v.toNat < 2 ^ 32 := by
  rwa [UInt64.lt_iff_toNat_lt, toNat_max_frames] at h

/-- A counter below the limit can be counted up. -/
theorem toNat_succ_counter {v : UInt64} (h : v < MAX_FRAMES_PER_EPOCH) :
    (v + 1).toNat = v.toNat + 1 := by
  apply toNat_succ
  have hlt := counter_lt h
  omega

/-- A seal that succeeds counts up, and one that fails changes nothing. -/
theorem seal_cases (self : ControlChannel) (frame_type frame_flags : UInt8) (request_id : UInt64)
    (plaintext : Bytes) :
    (∃ e, self.seal P frame_type frame_flags request_id plaintext = (.error e, self)) ∨
    ∃ ciphertext, self.send_counter < MAX_FRAMES_PER_EPOCH ∧
      P.encrypt (self.keys.key_for self.send_direction)
        (control_nonce P self.send_direction self.keys.epoch self.send_counter)
        (control_aad self.send_direction self.keys.epoch self.send_counter frame_type frame_flags
          request_id) plaintext = some ciphertext ∧
      self.seal P frame_type frame_flags request_id plaintext =
        (.ok ⟨self.keys.epoch, self.send_counter, ciphertext⟩,
          { self with send_counter := self.send_counter + 1 }) := by
  unfold «seal» seal_with
  split_ifs with hmax
  · exact .inl ⟨_, rfl⟩
  · simp only
    cases P.encrypt _ _ _ plaintext with
    | none => exact .inl ⟨_, rfl⟩
    | some ciphertext => exact .inr ⟨ciphertext, UInt64.not_le.1 hmax, rfl, rfl⟩

theorem seal_of_encrypt {frame_type frame_flags : UInt8} {request_id : UInt64}
    {plaintext ciphertext : Bytes} (hmax : self.send_counter < MAX_FRAMES_PER_EPOCH)
    (henc : P.encrypt (self.keys.key_for self.send_direction)
      (control_nonce P self.send_direction self.keys.epoch self.send_counter)
      (control_aad self.send_direction self.keys.epoch self.send_counter frame_type frame_flags
        request_id) plaintext = some ciphertext) :
    self.seal P frame_type frame_flags request_id plaintext =
      (.ok ⟨self.keys.epoch, self.send_counter, ciphertext⟩,
        { self with send_counter := self.send_counter + 1 }) := by
  unfold «seal» seal_with
  simp [UInt64.not_le.2 hmax, henc]

/-- A next epoch that is not refused is the next number: at the last number the
sum wraps to zero, and every other epoch is refused. -/
theorem next_epoch {current epoch : UInt64} (hstale : ¬ epoch < current)
    (hgap : ¬ epoch > current + 1) (hne : epoch ≠ current) :
    epoch.toNat = current.toNat + 1 := by
  have hne' : epoch.toNat ≠ current.toNat := fun he => hne (UInt64.toNat.inj he)
  rw [UInt64.lt_iff_toNat_lt] at hstale
  rw [gt_iff_lt, UInt64.lt_iff_toNat_lt] at hgap
  have hle := toNat_succ_le current
  omega

/-- A frame is opened in the current epoch, not below the watermark, or in the
next one, which is then adopted. Otherwise nothing changes. -/
theorem open_cases (self : ControlChannel) (epoch counter : UInt64) (frame_type frame_flags : UInt8)
    (request_id : UInt64) (ciphertext : Bytes) :
    (∃ e, self.open P epoch counter frame_type frame_flags request_id ciphertext =
      (.error e, self)) ∨
    ∃ plaintext, counter < MAX_FRAMES_PER_EPOCH ∧
      (epoch = self.keys.epoch ∧ self.receive_watermark ≤ counter ∨
        epoch.toNat = self.keys.epoch.toNat + 1) ∧
      self.open P epoch counter frame_type frame_flags request_id ciphertext =
        (.ok plaintext, { self.adopt (self.candidate P epoch) with
          receive_watermark := counter + 1 }) := by
  unfold «open»
  simp only
  split_ifs with hstale hgap hreplay hmax
  · exact .inl ⟨_, rfl⟩
  · exact .inl ⟨_, rfl⟩
  · exact .inl ⟨_, rfl⟩
  · exact .inl ⟨_, rfl⟩
  · unfold open_with
    cases P.decrypt _ _ _ ciphertext with
    | none => exact .inl ⟨_, rfl⟩
    | some plaintext =>
      refine .inr ⟨plaintext, UInt64.not_le.1 hmax, ?_, rfl⟩
      by_cases he : epoch = self.keys.epoch
      · refine .inl ⟨he, ?_⟩
        simpa [candidate, he] using hreplay
      · exact .inr (next_epoch hstale hgap he)

@[simp]
theorem adopt_current (self : ControlChannel) :
    self.adopt (self.candidate P self.keys.epoch) = self := by
  simp [candidate, adopt]

/-- A frame that is not from a later epoch moves the watermark at most. -/
theorem open_of_le {epoch counter request_id : UInt64} {frame_type frame_flags : UInt8}
    {ciphertext : Bytes} (h : epoch.toNat ≤ self.keys.epoch.toNat) :
    ∃ w, (self.open P epoch counter frame_type frame_flags request_id ciphertext).2 =
      { self with receive_watermark := w } := by
  rcases self.open_cases (P := P) epoch counter frame_type frame_flags request_id ciphertext with
    ⟨e, he⟩ | ⟨_, -, ⟨rfl, -⟩ | hnext, hok⟩
  · exact ⟨self.receive_watermark, by rw [he]⟩
  · exact ⟨counter + 1, by rw [hok, adopt_current]⟩
  · omega

/-- What one call can do. -/
theorem call_cases (self : ControlChannel) (c : Call) :
    (∃ e, call P self c = (.refused e, self)) ∨
    (∃ ciphertext, self.send_counter < MAX_FRAMES_PER_EPOCH ∧
      call P self c = (.sealed self.send_direction (self.keys.key_for self.send_direction)
        ⟨self.keys.epoch, self.send_counter, ciphertext⟩,
        { self with send_counter := self.send_counter + 1 })) ∨
    (∃ epoch counter plaintext, counter < MAX_FRAMES_PER_EPOCH ∧
      (epoch = self.keys.epoch ∧ self.receive_watermark ≤ counter ∨
        epoch.toNat = self.keys.epoch.toNat + 1) ∧
      call P self c = (.opened epoch counter plaintext,
        { self.adopt (self.candidate P epoch) with receive_watermark := counter + 1 })) ∨
    call P self c = (.began_epoch, self.begin_next_epoch P) := by
  cases c with
  | «seal» frame_type frame_flags request_id plaintext =>
    rcases self.seal_cases frame_type frame_flags request_id plaintext with
      ⟨e, he⟩ | ⟨ciphertext, hmax, -, hok⟩
    · left
      exact ⟨e, by rw [call, he]⟩
    · right; left
      exact ⟨ciphertext, hmax, by rw [call, hok]⟩
  | «open» epoch counter frame_type frame_flags request_id ciphertext =>
    rcases self.open_cases epoch counter frame_type frame_flags request_id ciphertext with
      ⟨e, he⟩ | ⟨plaintext, hmax, hepoch, hok⟩
    · left
      exact ⟨e, by rw [call, he]⟩
    · right; right; left
      exact ⟨epoch, counter, plaintext, hmax, hepoch, by rw [call, hok]⟩
  | begin_next_epoch => exact .inr (.inr (.inr rfl))

@[simp]
theorem adopt_epoch (self : ControlChannel) (epoch : UInt64) :
    (self.adopt (self.candidate P epoch)).keys.epoch = epoch := by
  by_cases he : epoch = self.keys.epoch
  · simp [he]
  · simp [candidate, adopt, he, derive_epoch]

@[simp]
theorem adopt_send_direction (self : ControlChannel) (epoch : UInt64) :
    (self.adopt (self.candidate P epoch)).send_direction = self.send_direction := by
  by_cases he : epoch = self.keys.epoch
  · simp [he]
  · simp [candidate, adopt, he]

@[simp]
theorem begin_next_epoch_epoch (self : ControlChannel) :
    (self.begin_next_epoch P).keys.epoch = self.keys.epoch + 1 := rfl

theorem call_send_direction (self : ControlChannel) (c : Call) :
    (call P self c).2.send_direction = self.send_direction := by
  rcases self.call_cases (P := P) c with ⟨_, h⟩ | ⟨_, -, h⟩ | ⟨_, _, _, -, -, h⟩ | h
  · rw [h]
  · rw [h]
  · simp [h]
  · rw [h]; rfl

theorem call_epoch_le (self : ControlChannel) (c : Call) :
    (call P self c).2.keys.epoch.toNat ≤ self.keys.epoch.toNat + 1 := by
  rcases self.call_cases (P := P) c with ⟨_, h⟩ | ⟨_, -, h⟩ | ⟨_, _, _, -, hepoch, h⟩ | h
  · simp [h]
  · simp [h]
  · rcases hepoch with ⟨rfl, -⟩ | hnext
    · simp [h]
    · simp [h, hnext]
  · rw [h]
    exact toNat_succ_le _

/-! ## Positions in a run -/

variable (P) in
/-- The calls do not reach the last epoch that a `u64` can number. -/
def WithinEpochs (self : ControlChannel) (cs : List Call) : Prop :=
  self.keys.epoch.toNat + self.epochs P cs < 2 ^ 64 - 1

/-- Where the next frame is sealed. -/
def sent_to (self : ControlChannel) : ℕ ×ₗ ℕ :=
  toLex (self.keys.epoch.toNat, self.send_counter.toNat)

/-- Below this no frame is opened. -/
def received_to (self : ControlChannel) : ℕ ×ₗ ℕ :=
  toLex (self.keys.epoch.toNat, self.receive_watermark.toNat)

theorem WithinEpochs.epoch_lt {cs : List Call} (h : self.WithinEpochs P cs) :
    self.keys.epoch.toNat < 2 ^ 64 - 1 := by
  unfold WithinEpochs at h
  omega

theorem WithinEpochs.step (self : ControlChannel) (c : Call) (cs : List Call)
    (h : self.WithinEpochs P (c :: cs)) : (call P self c).2.WithinEpochs P cs := by
  unfold WithinEpochs epochs at *
  rw [changes] at h
  have hle := self.call_epoch_le (P := P) c
  split_ifs at h with he
  · rw [he]
    omega
  · omega

/-- A frame is sealed at the position of the channel, which is then behind. -/
theorem sent_to_step (self : ControlChannel) (c : Call) (cs : List Call)
    (h : self.WithinEpochs P (c :: cs)) :
    self.sent_to ≤ (call P self c).2.sent_to ∧
      ∀ k ∈ (call P self c).1.sealed_at, self.sent_to ≤ k ∧ k < (call P self c).2.sent_to := by
  have hnext := toNat_succ h.epoch_lt
  rcases self.call_cases (P := P) c with ⟨e, hc⟩ | ⟨_, hmax, hc⟩ | ⟨_, _, _, hmax, hepoch, hc⟩ | hc
  · simp [hc, Event.sealed_at, Event.triple]
  · have hcount := toNat_succ_counter hmax
    simp [hc, Event.sealed_at, Event.triple, sent_to, Prod.Lex.toLex_le_toLex,
      Prod.Lex.toLex_lt_toLex, hcount]
  · rcases hepoch with ⟨rfl, -⟩ | hepoch
    · simp [hc, Event.sealed_at, Event.triple, sent_to]
    · simp [hc, Event.sealed_at, Event.triple, sent_to, Prod.Lex.toLex_le_toLex, hepoch]
  · simp [hc, Event.sealed_at, Event.triple, sent_to, Prod.Lex.toLex_le_toLex, hnext]

/-- A frame is opened from the watermark on, which then lies behind it. -/
theorem received_to_step (self : ControlChannel) (c : Call) (cs : List Call)
    (h : self.WithinEpochs P (c :: cs)) :
    self.received_to ≤ (call P self c).2.received_to ∧
      ∀ k ∈ (call P self c).1.opened_at,
        self.received_to ≤ k ∧ k < (call P self c).2.received_to := by
  have hnext := toNat_succ h.epoch_lt
  rcases self.call_cases (P := P) c with ⟨e, hc⟩ | ⟨_, hmax, hc⟩ | ⟨_, _, _, hmax, hepoch, hc⟩ | hc
  · simp [hc, Event.opened_at]
  · simp [hc, Event.opened_at, received_to]
  · have hcount := toNat_succ_counter hmax
    rcases hepoch with ⟨rfl, hw⟩ | hepoch
    · rw [UInt64.le_iff_toNat_le] at hw
      simp [hc, Event.opened_at, received_to, Prod.Lex.toLex_le_toLex, Prod.Lex.toLex_lt_toLex,
        hcount]
      omega
    · simp [hc, Event.opened_at, received_to, Prod.Lex.toLex_le_toLex, Prod.Lex.toLex_lt_toLex,
        hcount, hepoch]
  · simp [hc, Event.opened_at, received_to, Prod.Lex.toLex_le_toLex, hnext]

/-! ## Frames that are sealed -/

/-- No `u64` sum of a call overflows before the last epoch. -/
theorem increments_lt {cs : List Call} (h : self.WithinEpochs P cs) (c : Call) :
    ∀ v ∈ self.increments c, v.toNat + 1 < 2 ^ 64 := by
  have hepoch := h.epoch_lt
  have hcounter : ∀ v : UInt64, ¬ v ≥ MAX_FRAMES_PER_EPOCH → v.toNat < 2 ^ 32 :=
    fun v hv => counter_lt (UInt64.not_le.1 hv)
  intro v hv
  cases c with
  | «seal» =>
    rw [increments] at hv
    split_ifs at hv with hmax
    · cases hv
    · have hlt := hcounter _ hmax
      rw [List.mem_singleton.1 hv]
      omega
  | «open» epoch counter =>
    rw [increments] at hv
    split_ifs at hv with hstale hmax
    · cases hv
    · rw [List.mem_singleton.1 hv]
      omega
    · have hlt := hcounter _ hmax
      rcases List.mem_pair.1 hv with rfl | rfl
      · omega
      · omega
  | begin_next_epoch =>
    rw [List.mem_singleton.1 hv]
    omega

/-- Every sealed frame of a run is in the direction of the channel, and its
counter is below the limit. -/
theorem events_sealed (self : ControlChannel) {cs : List Call} {ev : Event}
    (h : ev ∈ events (call P) self cs) : ev.SealedIn self.send_direction := by
  have hstep : ∀ c call', c.send_direction = self.send_direction →
      (call P c call').1.SealedIn self.send_direction ∧
        (call P c call').2.send_direction = self.send_direction := by
    intro c call' hdir
    refine ⟨?_, (c.call_send_direction call').trans hdir⟩
    rcases c.call_cases (P := P) call' with ⟨_, hc⟩ | ⟨_, hmax, hc⟩ | ⟨_, _, _, -, -, hc⟩ | hc
    · rw [hc]; trivial
    · rw [hc]
      exact ⟨hdir, counter_lt hmax⟩
    · rw [hc]; trivial
    · rw [hc]; trivial
  exact events_good hstep rfl h

theorem sealed_at_pairwise {cs : List Call} (h : self.WithinEpochs P cs) :
    ((events (call P) self cs).filterMap Event.sealed_at).Pairwise (· < ·) := by
  apply And.left
  apply keys_increase sent_to _ h
  exact fun s c cs h => ⟨WithinEpochs.step s c cs h, sent_to_step s c cs h⟩

theorem triple_nodup {cs : List Call} (h : self.WithinEpochs P cs) :
    ((events (call P) self cs).filterMap Event.triple).Nodup := by
  have hsorted := sealed_at_pairwise h
  unfold Event.sealed_at at hsorted
  rw [← List.map_filterMap] at hsorted
  have hnodup := hsorted.imp fun hlt => hlt.ne
  exact List.Nodup.of_map _ hnodup

/-- The triples of two channels that send in opposite directions. -/
theorem triple_nodup_append {a b : ControlChannel}
    (hdir : b.send_direction = a.send_direction.opposite) {cs ds : List Call}
    (ha : a.WithinEpochs P cs) (hb : b.WithinEpochs P ds) :
    ((events (call P) a cs ++ events (call P) b ds).filterMap Event.triple).Nodup := by
  rw [List.filterMap_append]
  refine List.Nodup.append (triple_nodup ha) (triple_nodup hb) ?_
  intro t hta htb
  obtain ⟨ev, hev, ht⟩ := List.mem_filterMap.1 hta
  obtain ⟨ev', hev', ht'⟩ := List.mem_filterMap.1 htb
  have hda := ev.triple_direction ht (a.events_sealed hev)
  have hdb := ev'.triple_direction ht' (b.events_sealed hev')
  rw [hda, hdir] at hdb
  exact a.send_direction.opposite_ne hdb.symm

/-- The triple can be read off the nonce material. -/
theorem key_and_material_nodup {evs : List Event} (h : (evs.filterMap Event.triple).Nodup) :
    (evs.filterMap Event.key_and_material).Nodup := by
  have hmaterial : (evs.filterMap Event.key_and_material).map Prod.snd =
      (evs.filterMap Event.triple).map fun t => nonce_material t.1 t.2.1 t.2.2 := by
    rw [List.map_filterMap, List.map_filterMap]
    exact congrArg (evs.filterMap ·) (funext Event.material_eq)
  have hnodup := List.Nodup.map (fun t t' he => nonce_material_inj he) h
  rw [← hmaterial] at hnodup
  exact List.Nodup.of_map _ hnodup

/-- Along every run of calls of fewer than `2 ^ 64 - 1` epochs, sealed frames
move forward and no sum overflows, and two channels that send in opposite
directions never encrypt twice under one key and one nonce material. -/
theorem no_key_and_nonce_material_seals_two_frames (P : Primitives) (a b : ControlChannel)
    (hdir : b.send_direction = a.send_direction.opposite) (cs ds : List Call)
    (ha : a.WithinEpochs P cs) (hb : b.WithinEpochs P ds) :
    ((events (call P) a cs).filterMap Event.sealed_at).Pairwise (· < ·) ∧
    (∀ direction key frame, .sealed direction key frame ∈ events (call P) a cs →
      frame.counter.toNat < 2 ^ 32) ∧
    (∀ before c later, cs = before ++ c :: later →
      ∀ v ∈ (after (call P) a before).increments c, v.toNat + 1 < 2 ^ 64) ∧
    ((events (call P) a cs ++ events (call P) b ds).filterMap Event.triple).Nodup ∧
    ((events (call P) a cs ++ events (call P) b ds).filterMap Event.key_and_material).Nodup := by
  have htriple := triple_nodup_append hdir ha hb
  refine ⟨sealed_at_pairwise ha, ?_, ?_, htriple, key_and_material_nodup htriple⟩
  · intro direction key frame h
    exact (a.events_sealed h).2
  · rintro before c later rfl
    have hwithin := after_inv (WithinEpochs.step (P := P)) ha
    exact increments_lt hwithin c

theorem two_peers_seal_across_a_rekey :
    let prk : Arr 48 := ⟨List.replicate 48 7, rfl⟩
    let th2 : Arr 48 := ⟨List.replicate 48 9, rfl⟩
    let a := new sample prk th2 .ClientToServer
    let b := new sample prk th2 .ServerToClient
    let cs : List Call := [.seal 1 0 5 [1], .seal 1 0 6 [2], .begin_next_epoch, .seal 1 0 7 [3]]
    let ds : List Call := [.seal 1 0 5 [1]]
    ((events (call sample) a cs).filterMap Event.sealed_at).length = 3 ∧
    ((events (call sample) a cs ++ events (call sample) b ds).filterMap
      Event.key_and_material).Nodup := by
  intro prk th2 a b cs ds
  have ha : a.WithinEpochs sample cs := by unfold WithinEpochs; decide +kernel
  have hb : b.WithinEpochs sample ds := by unfold WithinEpochs; decide +kernel
  have hall := no_key_and_nonce_material_seals_two_frames sample a b rfl cs ds ha hb
  exact ⟨by decide +kernel, hall.2.2.2.2⟩

/-! ## Frames that are opened -/

theorem opened_at_pairwise {cs : List Call} (h : self.WithinEpochs P cs) :
    ((events (call P) self cs).filterMap Event.opened_at).Pairwise (· < ·) := by
  apply And.left
  apply keys_increase received_to _ h
  exact fun s c cs h => ⟨WithinEpochs.step s c cs h, received_to_step s c cs h⟩

/-- A frame that was encrypted for this channel in its epoch is opened, unless
the epoch is the last one. -/
theorem open_current (hdec : P.Decrypts) {epoch counter : UInt64} {frame_type frame_flags : UInt8}
    {request_id : UInt64} {plaintext ciphertext : Bytes}
    (henc : P.encrypt (self.keys.key_for self.send_direction.opposite)
      (control_nonce P self.send_direction.opposite epoch counter)
      (control_aad self.send_direction.opposite epoch counter frame_type frame_flags request_id)
      plaintext = some ciphertext)
    (hepoch : self.keys.epoch = epoch) (hlast : epoch.toNat < 2 ^ 64 - 1)
    (hmax : counter < MAX_FRAMES_PER_EPOCH) (hw : self.receive_watermark ≤ counter) :
    self.open P epoch counter frame_type frame_flags request_id ciphertext =
      (.ok plaintext, { self with receive_watermark := counter + 1 }) := by
  have hgap : ¬ epoch > epoch + 1 := by
    rw [gt_iff_lt, UInt64.lt_iff_toNat_lt, toNat_succ hlast]
    omega
  subst hepoch
  unfold «open» open_with
  simp [candidate, adopt, hgap, UInt64.not_lt.2 hw, UInt64.not_le.2 hmax, hdec _ _ _ _ _ henc]

/-- In the last epoch the next number wraps to zero, so every frame of the epoch
is taken for one of a later epoch. -/
theorem open_last {epoch counter request_id : UInt64} {frame_type frame_flags : UInt8}
    {ciphertext : Bytes} (hepoch : self.keys.epoch = epoch) (hlast : epoch.toNat = 2 ^ 64 - 1) :
    self.open P epoch counter frame_type frame_flags request_id ciphertext =
      (.error .EpochGap, self) := by
  have hgap : epoch + 1 < epoch := by
    rw [UInt64.lt_iff_toNat_lt, UInt64.toNat_add, hlast]
    decide
  subst hepoch
  unfold «open»
  simp [hgap]

/-- A frame that was encrypted for this channel in the next epoch is opened, and
the channel is then in that epoch. -/
theorem open_next (hdec : P.Decrypts) {epoch counter : UInt64} {frame_type frame_flags : UInt8}
    {request_id : UInt64} {plaintext ciphertext : Bytes}
    (hepoch : self.keys.epoch + 1 = epoch) (hlast : self.keys.epoch.toNat < 2 ^ 64 - 1)
    (henc : P.encrypt ((self.begin_next_epoch P).keys.key_for self.send_direction.opposite)
      (control_nonce P self.send_direction.opposite epoch counter)
      (control_aad self.send_direction.opposite epoch counter frame_type frame_flags request_id)
      plaintext = some ciphertext)
    (hmax : counter < MAX_FRAMES_PER_EPOCH) :
    self.open P epoch counter frame_type frame_flags request_id ciphertext =
      (.ok plaintext, { self.begin_next_epoch P with receive_watermark := counter + 1 }) := by
  subst hepoch
  have hnext := toNat_succ hlast
  have hstale : ¬ self.keys.epoch + 1 < self.keys.epoch := by
    rw [UInt64.lt_iff_toNat_lt]
    omega
  have hne : self.keys.epoch + 1 ≠ self.keys.epoch := by
    intro he
    rw [he] at hnext
    omega
  have hopen := hdec _ _ _ _ _ henc
  unfold begin_next_epoch at hopen
  unfold «open» open_with begin_next_epoch
  simp [candidate, adopt, hstale, hne, UInt64.not_le.2 hmax, hopen]

theorem events_open {epoch counter request_id : UInt64} {frame_type frame_flags : UInt8}
    {ciphertext plaintext : Bytes} {next : ControlChannel} {cs : List Call}
    (h : self.open P epoch counter frame_type frame_flags request_id ciphertext =
      (.ok plaintext, next)) :
    (events (call P) self (.open epoch counter frame_type frame_flags request_id ciphertext ::
      cs)).filterMap Event.opened_at =
    toLex (epoch.toNat, counter.toNat) :: (events (call P) next cs).filterMap Event.opened_at := by
  rw [events, call, h]
  rfl

theorem iterate_epoch (self : ControlChannel) (n : Nat) :
    ((begin_next_epoch P)^[n] self).keys.epoch = self.keys.epoch + UInt64.ofNat n := by
  induction n with
  | zero => simp
  | succ n ih =>
    rw [Function.iterate_succ_apply', begin_next_epoch_epoch, ih, UInt64.ofNat_add,
      UInt64.add_assoc]
    rfl

theorem iterate_receive_watermark (self : ControlChannel) {n : Nat} (h : 0 < n) :
    ((begin_next_epoch P)^[n] self).receive_watermark = 0 := by
  obtain ⟨m, rfl⟩ := Nat.exists_eq_succ_of_ne_zero h.ne'
  rw [Function.iterate_succ_apply']
  rfl

theorem events_begin_next_epoch (self : ControlChannel) (n : Nat) (cs : List Call) :
    (events (call P) self (List.replicate n .begin_next_epoch ++ cs)).filterMap Event.opened_at =
      (events (call P) ((begin_next_epoch P)^[n] self) cs).filterMap Event.opened_at := by
  induction n generalizing self with
  | zero => rfl
  | succ n ih =>
    rw [List.replicate_succ, List.cons_append, events, Function.iterate_succ_apply]
    exact ih _

/-- Along every run of calls of fewer than `2 ^ 64 - 1` epochs, the frames that
are opened move forward. A call on any channel that fails changes nothing. -/
theorem opened_frames_move_forward_and_errors_change_nothing (P : Primitives)
    (self : ControlChannel) (cs : List Call) (h : self.WithinEpochs P cs) :
    ((events (call P) self cs).filterMap Event.opened_at).Pairwise (· < ·) ∧
    (∀ (c c' : ControlChannel) frame_type frame_flags request_id plaintext e,
      c.seal P frame_type frame_flags request_id plaintext = (.error e, c') → c' = c) ∧
    (∀ (c c' : ControlChannel) epoch counter frame_type frame_flags request_id ciphertext e,
      c.open P epoch counter frame_type frame_flags request_id ciphertext = (.error e, c') →
      c' = c) := by
  refine ⟨opened_at_pairwise h, ?_, ?_⟩
  · intro c c' frame_type frame_flags request_id plaintext e herr
    rcases c.seal_cases (P := P) frame_type frame_flags request_id plaintext with
      ⟨e', he⟩ | ⟨_, -, -, hok⟩
    · rw [he] at herr
      exact (Prod.mk.inj herr).2.symm
    · rw [hok] at herr
      cases (Prod.mk.inj herr).1
  · intro c c' epoch counter frame_type frame_flags request_id ciphertext e herr
    rcases c.open_cases (P := P) epoch counter frame_type frame_flags request_id ciphertext with
      ⟨e', he⟩ | ⟨_, -, -, hok⟩
    · rw [he] at herr
      exact (Prod.mk.inj herr).2.symm
    · rw [hok] at herr
      cases (Prod.mk.inj herr).1

theorem a_channel_opens_across_a_rekey :
    let self := new sample ⟨List.replicate 48 7, rfl⟩ ⟨List.replicate 48 9, rfl⟩ .ClientToServer
    let peer := { self with send_direction := .ServerToClient }
    let frame (c : ControlChannel) : Bytes :=
      (c.seal sample 1 0 5 [1]).1.toOption.elim [] (·.ciphertext)
    let cs : List Call := [.open 0 0 1 0 5 (frame peer), .open 0 0 1 0 5 (frame peer),
      .open 1 0 1 0 5 (frame (peer.begin_next_epoch sample))]
    (events (call sample) self cs).filterMap Event.opened_at = [toLex (0, 0), toLex (1, 0)] ∧
    ((events (call sample) self cs).filterMap Event.opened_at).Pairwise (· < ·) := by
  intro self peer frame cs
  have h : self.WithinEpochs sample cs := by unfold WithinEpochs; decide +kernel
  have hall := opened_frames_move_forward_and_errors_change_nothing sample self cs h
  exact ⟨by decide +kernel, hall.1⟩

/-- The epoch is a `u64` that wraps: after `2 ^ 64` epochs a channel is back in
epoch 0 and opens a frame at a position that it has opened before. -/
theorem a_position_is_opened_again_after_the_epochs_wrap :
    let self := new sample ⟨List.replicate 48 7, rfl⟩ ⟨List.replicate 48 9, rfl⟩ .ClientToServer
    ∃ first again : Bytes,
      ¬ ((events (call sample) self (.open 0 0 1 0 5 first ::
        (List.replicate (2 ^ 64) .begin_next_epoch ++ [.open 0 0 1 0 5 again]))).filterMap
          Event.opened_at).Pairwise (· < ·) := by
  intro self
  obtain ⟨first, hfirst, -⟩ := sample_encrypts (self.keys.key_for self.send_direction.opposite)
    (control_nonce sample self.send_direction.opposite 0 0)
    (control_aad self.send_direction.opposite 0 0 1 0 5) [1] (by decide)
  have hopen := open_current sample_decrypts hfirst rfl (by decide) (by decide) (by decide)
  generalize hback : (begin_next_epoch sample)^[2 ^ 64]
    { self with receive_watermark := 0 + 1 } = back
  have hepoch : back.keys.epoch = 0 := by
    rw [← hback, iterate_epoch]
    decide
  have hw : back.receive_watermark = 0 := by
    rw [← hback]
    exact iterate_receive_watermark _ (by decide)
  obtain ⟨again, hagain, -⟩ := sample_encrypts (back.keys.key_for back.send_direction.opposite)
    (control_nonce sample back.send_direction.opposite 0 0)
    (control_aad back.send_direction.opposite 0 0 1 0 5) [1] (by decide)
  have hopen' := open_current sample_decrypts hagain hepoch (by decide) (by decide)
    (UInt64.le_of_eq hw)
  refine ⟨first, again, ?_⟩
  rw [events_open hopen, events_begin_next_epoch, hback, events_open hopen']
  simp [events]

end ControlChannel

end rtp2_core.control
