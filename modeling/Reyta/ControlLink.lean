-- Two control channels over links that keep the order of frames. One side may
-- start new epochs, and the other one follows on the first frame it sees in one.
import Reyta.Control

open byte_string

namespace rtp2_core.control

open crypto ControlChannel

/-! ## Two channels and their links -/

structure Message where
  frame_type : UInt8
  frame_flags : UInt8
  request_id : UInt64
  plaintext : Bytes
  deriving DecidableEq

/-- A frame on its way: the header in the clear, and what was sealed. -/
structure WireFrame where
  frame_type : UInt8
  frame_flags : UInt8
  request_id : UInt64
  body : SealedFrame

/-- One direction between the channels. -/
structure Link where
  /-- The frames on their way, the oldest one first. -/
  frames : List WireFrame
  /-- What was sealed so far. -/
  sent : List Message
  /-- What became of the frames that were delivered so far. -/
  got : List (Except ControlError Message)

def Link.empty : Link := ⟨[], [], []⟩

def Link.put (self : Link) (m : Message) (body : SealedFrame) : Link :=
  { self with
    frames := self.frames ++ [⟨m.frame_type, m.frame_flags, m.request_id, body⟩]
    sent := self.sent ++ [m] }

/-- What was delivered was opened to what was sealed, in its order, and the rest
is on its way. -/
def Link.InOrder (self : Link) : Prop :=
  ∃ pending : List Message, pending.length = self.frames.length ∧
    self.sent.map .ok = self.got ++ pending.map .ok

structure System where
  a : ControlChannel
  b : ControlChannel
  to_b : Link
  to_a : Link
  /-- How often `a` has started an epoch. -/
  rekeys : Nat
  /-- `a` has sealed a frame since it last started an epoch. -/
  may_rekey : Bool

inductive Action where
  | seal_a (m : Message)
  | seal_b (m : Message)
  | deliver_to_b
  | deliver_to_a
  | rekey_a

variable (P : Primitives)

/-- The oldest frame of a link is given to a channel. -/
def Link.deliver (self : Link) (c : ControlChannel) : Option (Link × ControlChannel) :=
  match self.frames with
  | [] => none
  | f :: frames =>
    let (r, c') := c.open P f.body.epoch f.body.counter f.frame_type f.frame_flags f.request_id
      f.body.ciphertext
    let m := r.map fun plaintext => ⟨f.frame_type, f.frame_flags, f.request_id, plaintext⟩
    some ({ self with frames, got := self.got ++ [m] }, c')

namespace System

def start (handshake_prk th2 : Arr 48) (direction : Direction) : System where
  a := .new P handshake_prk th2 direction
  b := .new P handshake_prk th2 direction.opposite
  to_b := .empty
  to_a := .empty
  rekeys := 0
  may_rekey := true

/-- Nothing is delivered from an empty link, and `a` seals a frame between two
starts of an epoch. -/
def step (s : System) : Action → Option System
  | .seal_a m =>
    match s.a.seal P m.frame_type m.frame_flags m.request_id m.plaintext with
    | (.ok body, a) => some { s with a, to_b := s.to_b.put m body, may_rekey := true }
    | (.error _, a) => some { s with a }
  | .seal_b m =>
    match s.b.seal P m.frame_type m.frame_flags m.request_id m.plaintext with
    | (.ok body, b) => some { s with b, to_a := s.to_a.put m body }
    | (.error _, b) => some { s with b }
  | .deliver_to_b => (s.to_b.deliver P s.b).map fun (to_b, b) => { s with b, to_b }
  | .deliver_to_a => (s.to_a.deliver P s.a).map fun (to_a, a) => { s with a, to_a }
  | .rekey_a =>
    if s.may_rekey then
      some { s with a := s.a.begin_next_epoch P, rekeys := s.rekeys + 1, may_rekey := false }
    else none

def run (s : System) (actions : List Action) : Option System := actions.foldlM (step P) s

end System

/-! ## The epochs of a session -/

/-- A channel that has started `n` epochs. -/
def at_epoch (prk th2 : Arr 48) (n : Nat) : ControlChannel :=
  (begin_next_epoch P)^[n] (.new P prk th2 .ClientToServer)

/-- The channel has the secrets of epoch `n`. -/
structure InEpoch (prk th2 : Arr 48) (c : ControlChannel) (n : Nat) : Prop where
  keys : c.keys = (at_epoch P prk th2 n).keys
  epoch_prk : c.epoch_prk = (at_epoch P prk th2 n).epoch_prk
  th2 : c.th2 = (at_epoch P prk th2 n).th2

variable {P} {prk th2 : Arr 48} {c : ControlChannel} {n : Nat}

theorem InEpoch.new (direction : Direction) :
    InEpoch P prk th2 (.new P prk th2 direction) 0 := ⟨rfl, rfl, rfl⟩

theorem InEpoch.epoch (h : InEpoch P prk th2 c n) : c.keys.epoch = UInt64.ofNat n := by
  rw [h.keys, at_epoch, iterate_epoch]
  exact UInt64.zero_add _

theorem at_epoch_succ :
    at_epoch P prk th2 (n + 1) = (at_epoch P prk th2 n).begin_next_epoch P :=
  Function.iterate_succ_apply' _ _ _

theorem InEpoch.next (h : InEpoch P prk th2 c n) :
    InEpoch P prk th2 (c.begin_next_epoch P) (n + 1) := by
  obtain ⟨hkeys, hprk, hth2⟩ := h
  constructor <;> rw [at_epoch_succ]
  · simp only [begin_next_epoch, hkeys, hprk, hth2]
  · simp only [begin_next_epoch, hkeys, hprk]
  · exact hth2

/-- Only the secrets matter. -/
theorem InEpoch.congr {c' : ControlChannel} (h : InEpoch P prk th2 c n)
    (hkeys : c'.keys = c.keys) (hprk : c'.epoch_prk = c.epoch_prk) (hth2 : c'.th2 = c.th2) :
    InEpoch P prk th2 c' n :=
  ⟨hkeys.trans h.keys, hprk.trans h.epoch_prk, hth2.trans h.th2⟩

/-! ## Frames on their way -/

variable (P prk th2) (d : Direction)

/-- The frame was sealed from the message in epoch `n`. -/
structure Carries (n : Nat) (f : WireFrame) (m : Message) : Prop where
  frame_type : f.frame_type = m.frame_type
  frame_flags : f.frame_flags = m.frame_flags
  request_id : f.request_id = m.request_id
  epoch : f.body.epoch = UInt64.ofNat n
  counter : f.body.counter < MAX_FRAMES_PER_EPOCH
  body : P.encrypt ((at_epoch P prk th2 n).keys.key_for d)
    (control_nonce P d f.body.epoch f.body.counter)
    (control_aad d f.body.epoch f.body.counter f.frame_type f.frame_flags f.request_id)
    m.plaintext = some f.body.ciphertext

/-- A receiver in an epoch with a watermark can open the frames one after the
other, and is in the other epoch with the other watermark then. -/
inductive Flight : Nat → UInt64 → List WireFrame → List Message → Nat → UInt64 → Prop
  | nil {n w} : Flight n w [] [] n w
  | same {n w f m fs ms n' w'} (hf : Carries P prk th2 d n f m) (hw : w ≤ f.body.counter)
      (h : Flight n (f.body.counter + 1) fs ms n' w') : Flight n w (f :: fs) (m :: ms) n' w'
  | next {n w f m fs ms n' w'} (hf : Carries P prk th2 d (n + 1) f m)
      (h : Flight (n + 1) (f.body.counter + 1) fs ms n' w') : Flight n w (f :: fs) (m :: ms) n' w'

/-- The sender is in epoch `k` and the receiver in epoch `n`. Every frame was
opened to what was sealed, and the frames on their way lead the receiver to the
sender, or to the epoch before if the sender has sealed nothing in its own. -/
structure Linked (l : Link) (sender receiver : ControlChannel) (k n : Nat) (has_sealed : Bool) :
    Prop where
  sender_epoch : InEpoch P prk th2 sender k
  receiver_epoch : InEpoch P prk th2 receiver n
  sends : sender.send_direction = d
  receives : receiver.send_direction.opposite = d
  flight : ∃ pending last w,
    Flight P prk th2 d n receiver.receive_watermark l.frames pending last w ∧
    l.sent.map .ok = l.got ++ pending.map .ok ∧
    (last = k ∧ w ≤ sender.send_counter ∨ last + 1 = k ∧ has_sealed = false)

variable {P prk th2 d}

namespace Carries

variable {f : WireFrame} {m : Message} {receiver : ControlChannel}

/-- The message is the header of the frame and what it opens to. -/
theorem message_eq (h : Carries P prk th2 d n f m) :
    ⟨f.frame_type, f.frame_flags, f.request_id, m.plaintext⟩ = m := by
  rw [h.frame_type, h.frame_flags, h.request_id]

/-- What a channel seals in its epoch. -/
theorem of_encrypt {sender : ControlChannel} {ciphertext : Bytes}
    (hs : InEpoch P prk th2 sender n) (hd : sender.send_direction = d)
    (hmax : sender.send_counter < MAX_FRAMES_PER_EPOCH)
    (henc : P.encrypt (sender.keys.key_for sender.send_direction)
      (control_nonce P sender.send_direction sender.keys.epoch sender.send_counter)
      (control_aad sender.send_direction sender.keys.epoch sender.send_counter m.frame_type
        m.frame_flags m.request_id) m.plaintext = some ciphertext) :
    Carries P prk th2 d n ⟨m.frame_type, m.frame_flags, m.request_id,
      ⟨sender.keys.epoch, sender.send_counter, ciphertext⟩⟩ m := by
  refine ⟨rfl, rfl, rfl, hs.epoch, hmax, ?_⟩
  rw [← hs.keys, ← hd]
  exact henc

theorem opens_in_epoch (hdec : P.Decrypts) (h : Carries P prk th2 d n f m)
    (hr : InEpoch P prk th2 receiver n) (hd : receiver.send_direction.opposite = d)
    (hn : n < 2 ^ 64 - 1) (hw : receiver.receive_watermark ≤ f.body.counter) :
    receiver.open P f.body.epoch f.body.counter f.frame_type f.frame_flags f.request_id
      f.body.ciphertext =
      (.ok m.plaintext, { receiver with receive_watermark := f.body.counter + 1 }) := by
  have hbody := h.body
  rw [← hr.keys, ← hd] at hbody
  apply open_current hdec hbody (hr.epoch.trans h.epoch.symm) _ h.counter hw
  rw [h.epoch, UInt64.toNat_ofNat']
  omega

/-- The receiver follows a frame of the next epoch. -/
theorem opens_next_epoch (hdec : P.Decrypts) (h : Carries P prk th2 d (n + 1) f m)
    (hr : InEpoch P prk th2 receiver n) (hd : receiver.send_direction.opposite = d)
    (hn : n < 2 ^ 64 - 1) :
    receiver.open P f.body.epoch f.body.counter f.frame_type f.frame_flags f.request_id
      f.body.ciphertext =
      (.ok m.plaintext,
        { receiver.begin_next_epoch P with receive_watermark := f.body.counter + 1 }) := by
  have hbody := h.body
  rw [← hr.next.keys, ← hd] at hbody
  refine open_next hdec ?_ ?_ hbody h.counter
  · rw [h.epoch, ← hr.next.epoch]
    rfl
  · rw [hr.epoch, UInt64.toNat_ofNat']
    omega

end Carries

/-- A frame that opens is taken from the link. -/
theorem Link.deliver_cons {l : Link} {f : WireFrame} {fs : List WireFrame} {m : Message}
    {receiver receiver' : ControlChannel} (hl : l.frames = f :: fs)
    (hf : Carries P prk th2 d n f m)
    (hopen : receiver.open P f.body.epoch f.body.counter f.frame_type f.frame_flags f.request_id
      f.body.ciphertext = (.ok m.plaintext, receiver')) :
    l.deliver P receiver = some ({ l with frames := fs, got := l.got ++ [.ok m] }, receiver') := by
  simp only [Link.deliver, hl, hopen, Except.map, hf.message_eq]

theorem Link.deliver_eq_some {l l' : Link} {c c' : ControlChannel}
    (h : l.deliver P c = some (l', c')) :
    ∃ f, l.frames = f :: l'.frames ∧ l'.sent = l.sent ∧
      c' = (c.open P f.body.epoch f.body.counter f.frame_type f.frame_flags f.request_id
        f.body.ciphertext).2 := by
  unfold Link.deliver at h
  cases hl : l.frames with
  | nil => simp [hl] at h
  | cons f fs =>
    simp only [hl, Option.some.injEq, Prod.mk.injEq] at h
    obtain ⟨rfl, rfl⟩ := h
    exact ⟨f, rfl, rfl, rfl⟩

theorem Flight.le {n n' : Nat} {w w' : UInt64} {fs : List WireFrame} {ms : List Message}
    (h : Flight P prk th2 d n w fs ms n' w') : n ≤ n' := by
  induction h with
  | nil => exact Nat.le_refl _
  | same _ _ _ ih => exact ih
  | next _ _ ih => exact Nat.le_of_succ_le ih

theorem Flight.length_eq {n n' : Nat} {w w' : UInt64} {fs : List WireFrame} {ms : List Message}
    (h : Flight P prk th2 d n w fs ms n' w') : ms.length = fs.length := by
  induction h with
  | nil => rfl
  | same _ _ _ ih => rw [List.length_cons, List.length_cons, ih]
  | next _ _ ih => rw [List.length_cons, List.length_cons, ih]

/-- A frame behind the last one, in its epoch or in the next. -/
theorem Flight.snoc {n n' k : Nat} {w w' : UInt64} {fs : List WireFrame} {ms : List Message}
    {f : WireFrame} {m : Message} (h : Flight P prk th2 d n w fs ms n' w')
    (hf : Carries P prk th2 d k f m) (hk : n' = k ∧ w' ≤ f.body.counter ∨ n' + 1 = k) :
    Flight P prk th2 d n w (fs ++ [f]) (ms ++ [m]) k (f.body.counter + 1) := by
  induction h with
  | nil =>
    rcases hk with ⟨rfl, hw⟩ | rfl
    · exact .same hf hw .nil
    · exact .next hf .nil
  | same hf' hw' _ ih => exact .same hf' hw' (ih hk)
  | next hf' _ ih => exact .next hf' (ih hk)

/-! ## What keeps two channels linked -/

namespace Linked

variable {l : Link} {sender receiver : ControlChannel} {k : Nat} {has_sealed : Bool}

theorem new (direction : Direction) :
    Linked P prk th2 direction .empty (.new P prk th2 direction)
      (.new P prk th2 direction.opposite) 0 0 true where
  sender_epoch := .new _
  receiver_epoch := .new _
  sends := rfl
  receives := by cases direction <;> rfl
  flight := ⟨[], 0, 0, .nil, rfl, .inl ⟨rfl, UInt64.le_refl _⟩⟩

theorem le (h : Linked P prk th2 d l sender receiver k n has_sealed) : n ≤ k := by
  obtain ⟨pending, last, w, hflight, -, hlast⟩ := h.flight
  have hle := hflight.le
  omega

/-- What the sender receives does not matter, as long as it stays in its epoch. -/
theorem sender_received (h : Linked P prk th2 d l sender receiver k n has_sealed) (w : UInt64) :
    Linked P prk th2 d l { sender with receive_watermark := w } receiver k n has_sealed :=
  ⟨h.sender_epoch.congr rfl rfl rfl, h.receiver_epoch, h.sends, h.receives, h.flight⟩

theorem receiver_sent (h : Linked P prk th2 d l sender receiver k n has_sealed) (v : UInt64) :
    Linked P prk th2 d l sender { receiver with send_counter := v } k n has_sealed :=
  ⟨h.sender_epoch, h.receiver_epoch.congr rfl rfl rfl, h.sends, h.receives, h.flight⟩

theorem begin_next_epoch (h : Linked P prk th2 d l sender receiver k n true) :
    Linked P prk th2 d l (sender.begin_next_epoch P) receiver (k + 1) n false := by
  obtain ⟨pending, last, w, hflight, hlog, hlast⟩ := h.flight
  refine ⟨h.sender_epoch.next, h.receiver_epoch, h.sends, h.receives, ?_⟩
  refine ⟨pending, last, w, hflight, hlog, ?_⟩
  rcases hlast with ⟨rfl, -⟩ | ⟨-, hfalse⟩
  · exact .inr ⟨rfl, rfl⟩
  · cases hfalse

theorem put (h : Linked P prk th2 d l sender receiver k n has_sealed) {m : Message}
    {ciphertext : Bytes} (hmax : sender.send_counter < MAX_FRAMES_PER_EPOCH)
    (henc : P.encrypt (sender.keys.key_for sender.send_direction)
      (control_nonce P sender.send_direction sender.keys.epoch sender.send_counter)
      (control_aad sender.send_direction sender.keys.epoch sender.send_counter m.frame_type
        m.frame_flags m.request_id) m.plaintext = some ciphertext) :
    Linked P prk th2 d (l.put m ⟨sender.keys.epoch, sender.send_counter, ciphertext⟩)
      { sender with send_counter := sender.send_counter + 1 } receiver k n true := by
  obtain ⟨pending, last, w, hflight, hlog, hlast⟩ := h.flight
  have hcarries := Carries.of_encrypt h.sender_epoch h.sends hmax henc
  refine ⟨h.sender_epoch.congr rfl rfl rfl, h.receiver_epoch, h.sends, h.receives, ?_⟩
  refine ⟨pending ++ [m], k, sender.send_counter + 1, ?_, ?_, .inl ⟨rfl, UInt64.le_refl _⟩⟩
  · apply hflight.snoc hcarries
    rcases hlast with hcurrent | ⟨hnext, -⟩
    · exact .inl hcurrent
    · exact .inr hnext
  · simp only [Link.put, List.map_append, hlog, List.append_assoc]

/-- The oldest frame is opened to what was sealed. The receiver stays in its
epoch, or follows the sender. -/
theorem deliver (hdec : P.Decrypts) (h : Linked P prk th2 d l sender receiver k n has_sealed)
    (hk : k < 2 ^ 64 - 1) {l' : Link} {receiver' : ControlChannel}
    (hd : l.deliver P receiver = some (l', receiver')) :
    ∃ n', Linked P prk th2 d l' sender receiver' k n' has_sealed ∧
      (n' = n → ∃ w, receiver' = { receiver with receive_watermark := w }) := by
  obtain ⟨pending, last, w, hflight, hlog, hlast⟩ := h.flight
  have hn := h.le
  cases hframes : l.frames with
  | nil => simp [Link.deliver, hframes] at hd
  | cons f fs =>
    rw [hframes] at hflight
    cases hflight with
    | @same _ _ _ m _ ms _ _ hf hw hrest =>
      have hopen := hf.opens_in_epoch hdec h.receiver_epoch h.receives (by omega) hw
      rw [Link.deliver_cons hframes hf hopen] at hd
      obtain ⟨rfl, rfl⟩ := Prod.mk.inj (Option.some.inj hd)
      refine ⟨n, ⟨h.sender_epoch, h.receiver_epoch.congr rfl rfl rfl, h.sends, h.receives, ?_⟩, ?_⟩
      · exact ⟨ms, last, w, hrest, by simp [hlog], hlast⟩
      · intro _
        exact ⟨_, rfl⟩
    | @next _ _ _ m _ ms _ _ hf hrest =>
      have hle := hrest.le
      have hopen := hf.opens_next_epoch hdec h.receiver_epoch h.receives (by omega)
      rw [Link.deliver_cons hframes hf hopen] at hd
      obtain ⟨rfl, rfl⟩ := Prod.mk.inj (Option.some.inj hd)
      refine ⟨n + 1, ⟨h.sender_epoch, h.receiver_epoch.next.congr rfl rfl rfl, h.sends,
        h.receives, ?_⟩, ?_⟩
      · exact ⟨ms, last, w, hrest, by simp [hlog], hlast⟩
      · intro hsame
        omega

theorem in_order (h : Linked P prk th2 d l sender receiver k n has_sealed) : l.InOrder := by
  obtain ⟨pending, last, w, hflight, hlog, -⟩ := h.flight
  exact ⟨pending, hflight.length_eq, hlog⟩

end Linked

/-! ## Runs -/

namespace System

variable {s s' : System}

variable (P prk th2 d) in
/-- The links of a system in which only `a` starts epochs. -/
structure Converging (s : System) : Prop where
  to_b : ∃ n, Linked P prk th2 d s.to_b s.a s.b s.rekeys n s.may_rekey
  /-- No frame of `b` is in an epoch that `a` has not started. -/
  behind : ∀ f ∈ s.to_a.frames, f.body.epoch.toNat ≤ s.rekeys
  to_a : s.rekeys = 0 → Linked P prk th2 d.opposite s.to_a s.b s.a 0 0 true

theorem Converging.start : Converging P prk th2 d (start P prk th2 d) where
  to_b := ⟨0, .new d⟩
  behind := by simp [System.start, Link.empty]
  to_a := by
    intro _
    have hd : d.opposite.opposite = d := by cases d <;> rfl
    have h : Linked P prk th2 d.opposite .empty (.new P prk th2 d.opposite)
        (.new P prk th2 d.opposite.opposite) 0 0 true := .new _
    rwa [hd] at h

theorem Converging.seal_a (h : Converging P prk th2 d s) {m : Message}
    (hs : step P s (.seal_a m) = some s') : Converging P prk th2 d s' := by
  obtain ⟨⟨n, hto_b⟩, hbehind, hto_a⟩ := h
  rw [step] at hs
  rcases s.a.seal_cases (P := P) m.frame_type m.frame_flags m.request_id m.plaintext with
    ⟨e, he⟩ | ⟨ciphertext, hmax, henc, hok⟩
  · rw [he] at hs
    obtain rfl := Option.some.inj hs
    exact ⟨⟨n, hto_b⟩, hbehind, hto_a⟩
  · rw [hok] at hs
    obtain rfl := Option.some.inj hs
    exact ⟨⟨n, hto_b.put hmax henc⟩, hbehind, fun h0 => (hto_a h0).receiver_sent _⟩

theorem Converging.seal_b (h : Converging P prk th2 d s) {m : Message}
    (hs : step P s (.seal_b m) = some s') : Converging P prk th2 d s' := by
  obtain ⟨⟨n, hto_b⟩, hbehind, hto_a⟩ := h
  rw [step] at hs
  rcases s.b.seal_cases (P := P) m.frame_type m.frame_flags m.request_id m.plaintext with
    ⟨e, he⟩ | ⟨ciphertext, hmax, henc, hok⟩
  · rw [he] at hs
    obtain rfl := Option.some.inj hs
    exact ⟨⟨n, hto_b⟩, hbehind, hto_a⟩
  · rw [hok] at hs
    obtain rfl := Option.some.inj hs
    refine ⟨⟨n, hto_b.receiver_sent _⟩, ?_, fun h0 => (hto_a h0).put hmax henc⟩
    intro f hf
    rcases List.mem_append.1 hf with hf | hf
    · exact hbehind f hf
    · obtain rfl := List.mem_singleton.1 hf
      have hle := hto_b.le
      have hepoch := congrArg UInt64.toNat hto_b.receiver_epoch.epoch
      rw [UInt64.toNat_ofNat'] at hepoch
      have hmod := Nat.mod_le n (2 ^ 64)
      change s.b.keys.epoch.toNat ≤ s.rekeys
      omega

theorem Converging.rekey_a (h : Converging P prk th2 d s)
    (hs : step P s .rekey_a = some s') : Converging P prk th2 d s' := by
  obtain ⟨⟨n, hto_b⟩, hbehind, -⟩ := h
  rw [step] at hs
  split_ifs at hs with hmay
  obtain rfl := Option.some.inj hs
  rw [hmay] at hto_b
  exact ⟨⟨n, hto_b.begin_next_epoch⟩, fun f hf => Nat.le_succ_of_le (hbehind f hf),
    fun h0 => absurd h0 (Nat.succ_ne_zero _)⟩

theorem Converging.deliver_to_b (hdec : P.Decrypts) (h : Converging P prk th2 d s)
    (hk : s.rekeys < 2 ^ 64 - 1) (hs : step P s .deliver_to_b = some s') :
    Converging P prk th2 d s' := by
  obtain ⟨⟨n, hto_b⟩, hbehind, hto_a⟩ := h
  obtain ⟨⟨to_b, b⟩, hd, rfl⟩ := Option.map_eq_some_iff.1 hs
  obtain ⟨n', hto_b', hsame⟩ := hto_b.deliver hdec hk hd
  refine ⟨⟨n', hto_b'⟩, hbehind, ?_⟩
  intro (h0 : s.rekeys = 0)
  have hle := hto_b.le
  have hle' := hto_b'.le
  obtain ⟨w, rfl⟩ := hsame (by omega)
  exact (hto_a h0).sender_received w

theorem Converging.deliver_to_a (hdec : P.Decrypts) (h : Converging P prk th2 d s)
    (hk : s.rekeys < 2 ^ 64 - 1) (hs : step P s .deliver_to_a = some s') :
    Converging P prk th2 d s' := by
  obtain ⟨⟨n, hto_b⟩, hbehind, hto_a⟩ := h
  obtain ⟨⟨to_a, a⟩, hd, rfl⟩ := Option.map_eq_some_iff.1 hs
  obtain ⟨f, hframes, -, ha⟩ := Link.deliver_eq_some hd
  have hepoch : s.a.keys.epoch.toNat = s.rekeys := by
    rw [hto_b.sender_epoch.epoch, UInt64.toNat_ofNat']
    omega
  rw [hframes] at hbehind
  -- `a` is in the latest epoch, so a frame of `b` never moves it to another one
  obtain ⟨w, hw⟩ := open_of_le (P := P) ((hbehind f List.mem_cons_self).trans hepoch.ge)
  refine ⟨⟨n, ?_⟩, fun f' hf' => hbehind f' (List.mem_cons_of_mem _ hf'), ?_⟩
  · rw [ha, hw]
    exact hto_b.sender_received w
  · intro h0
    obtain ⟨n', hto_a', -⟩ := (hto_a h0).deliver hdec (by decide) hd
    have hle := hto_a'.le
    obtain rfl : n' = 0 := by omega
    exact hto_a'

theorem step_rekeys_le {action : Action} (hs : s.step P action = some s') :
    s.rekeys ≤ s'.rekeys := by
  cases action with
  | seal_a m =>
    rw [step] at hs
    split at hs <;> obtain rfl := Option.some.inj hs <;> exact Nat.le_refl _
  | seal_b m =>
    rw [step] at hs
    split at hs <;> obtain rfl := Option.some.inj hs <;> exact Nat.le_refl _
  | deliver_to_b =>
    obtain ⟨_, -, rfl⟩ := Option.map_eq_some_iff.1 hs
    exact Nat.le_refl _
  | deliver_to_a =>
    obtain ⟨_, -, rfl⟩ := Option.map_eq_some_iff.1 hs
    exact Nat.le_refl _
  | rekey_a =>
    rw [step] at hs
    split_ifs at hs
    obtain rfl := Option.some.inj hs
    exact Nat.le_succ _

theorem run_cons {action : Action} {actions : List Action} :
    s.run P (action :: actions) = some s' ↔
      ∃ s₁, s.step P action = some s₁ ∧ s₁.run P actions = some s' := by
  simp only [run, List.foldlM_cons, Option.bind_eq_bind, Option.bind_eq_some_iff]

theorem run_append {actions actions' : List Action} :
    s.run P (actions ++ actions') = some s' ↔
      ∃ s₁, s.run P actions = some s₁ ∧ s₁.run P actions' = some s' := by
  simp only [run, List.foldlM_append, Option.bind_eq_bind, Option.bind_eq_some_iff]

theorem run_rekeys_le {actions : List Action} (hs : s.run P actions = some s') :
    s.rekeys ≤ s'.rekeys := by
  induction actions generalizing s with
  | nil =>
    obtain rfl := Option.some.inj hs
    exact Nat.le_refl _
  | cons action actions ih =>
    obtain ⟨s₁, hstep, hrun⟩ := run_cons.1 hs
    exact (step_rekeys_le hstep).trans (ih hrun)

/-- One action keeps the links, as long as the epochs can be numbered. -/
theorem Converging.step (hdec : P.Decrypts) (h : Converging P prk th2 d s) {action : Action}
    (hk : s.rekeys < 2 ^ 64 - 1) (hs : s.step P action = some s') :
    Converging P prk th2 d s' := by
  cases action with
  | seal_a m => exact h.seal_a hs
  | seal_b m => exact h.seal_b hs
  | deliver_to_b => exact h.deliver_to_b hdec hk hs
  | deliver_to_a => exact h.deliver_to_a hdec hk hs
  | rekey_a => exact h.rekey_a hs

theorem Converging.run (hdec : P.Decrypts) (h : Converging P prk th2 d s) {actions : List Action}
    (hs : s.run P actions = some s') (hk : s'.rekeys < 2 ^ 64 - 1) :
    Converging P prk th2 d s' := by
  induction actions generalizing s with
  | nil =>
    obtain rfl := Option.some.inj hs
    exact h
  | cons action actions ih =>
    obtain ⟨s₁, hstep, hrun⟩ := run_cons.1 hs
    have hk₁ : s.rekeys < 2 ^ 64 - 1 :=
      (step_rekeys_le hstep).trans_lt ((run_rekeys_le hrun).trans_lt hk)
    exact ih (h.step hdec hk₁ hstep) hrun

/-! ## Everything that was sealed is opened -/

theorem deliver_isSome {l : Link} {c : ControlChannel} (h : l.frames ≠ []) :
    ∃ l' c', l.deliver P c = some (l', c') := by
  unfold Link.deliver
  cases hl : l.frames with
  | nil => exact absurd hl h
  | cons f fs => exact ⟨_, _, rfl⟩

/-- A link that stays in order while it is emptied gives out all that was sealed. -/
theorem deliver_all (inv : System → Prop) (link : System → Link) {action : Action}
    (horder : ∀ s, inv s → (link s).InOrder)
    (hstep : ∀ s, inv s → (link s).frames ≠ [] → ∃ s₁, s.step P action = some s₁ ∧ inv s₁ ∧
      (link s).frames.length = (link s₁).frames.length + 1 ∧ (link s₁).sent = (link s).sent)
    (hs : inv s) :
    ∃ s', s.run P (List.replicate (link s).frames.length action) = some s' ∧
      (link s').got = (link s).sent.map .ok := by
  induction hn : (link s).frames.length generalizing s with
  | zero =>
    obtain ⟨pending, hpending, hlog⟩ := horder s hs
    rw [hn] at hpending
    rw [List.length_eq_zero_iff.1 hpending] at hlog
    exact ⟨s, rfl, by simpa using hlog.symm⟩
  | succ n ih =>
    have hne : (link s).frames ≠ [] := by
      intro hnil
      rw [hnil] at hn
      cases hn
    obtain ⟨s₁, hs₁, hinv, hlength, hsent⟩ := hstep s hs hne
    obtain ⟨s', hrun, hgot⟩ := ih hinv (by omega)
    exact ⟨s', run_cons.2 ⟨s₁, hs₁, hrun⟩, by rw [hgot, hsent]⟩

theorem Converging.all_to_b (hdec : P.Decrypts) (h : Converging P prk th2 d s)
    (hk : s.rekeys < 2 ^ 64 - 1) :
    ∃ s', s.run P (List.replicate s.to_b.frames.length .deliver_to_b) = some s' ∧
      s'.to_b.got = s.to_b.sent.map .ok := by
  apply deliver_all (fun s => Converging P prk th2 d s ∧ s.rekeys < 2 ^ 64 - 1) System.to_b
  · rintro s ⟨h, -⟩
    obtain ⟨n, hto_b⟩ := h.to_b
    exact hto_b.in_order
  · rintro s ⟨h, hk⟩ hne
    obtain ⟨l, c, hd⟩ := deliver_isSome (P := P) (c := s.b) hne
    have hstep : s.step P .deliver_to_b = some { s with b := c, to_b := l } := by
      rw [System.step, hd]
      rfl
    obtain ⟨f, hframes, hsent, -⟩ := Link.deliver_eq_some hd
    exact ⟨_, hstep, ⟨h.deliver_to_b hdec hk hstep, hk⟩, by rw [hframes, List.length_cons], hsent⟩
  · exact ⟨h, hk⟩

theorem Converging.all_to_a (hdec : P.Decrypts) (h : Converging P prk th2 d s)
    (hk : s.rekeys = 0) :
    ∃ s', s.run P (List.replicate s.to_a.frames.length .deliver_to_a) = some s' ∧
      s'.to_a.got = s.to_a.sent.map .ok := by
  apply deliver_all (fun s => Converging P prk th2 d s ∧ s.rekeys = 0) System.to_a
  · rintro s ⟨h, hk⟩
    exact (h.to_a hk).in_order
  · rintro s ⟨h, hk⟩ hne
    obtain ⟨l, c, hd⟩ := deliver_isSome (P := P) (c := s.a) hne
    have hstep : s.step P .deliver_to_a = some { s with a := c, to_a := l } := by
      rw [System.step, hd]
      rfl
    obtain ⟨f, hframes, hsent, -⟩ := Link.deliver_eq_some hd
    exact ⟨_, hstep, ⟨h.deliver_to_a hdec (by omega) hstep, hk⟩,
      by rw [hframes, List.length_cons], hsent⟩
  · exact ⟨h, hk⟩

/-- In every run in which only `a` starts epochs, fewer than `2 ^ 64 - 1` of them
and never two without a frame in between, `b` opens the frames of `a` to what was
sealed, in their order. If no epoch is started, this holds both ways. -/
theorem every_frame_of_the_side_that_rekeys_is_opened (P : Primitives) (hdec : P.Decrypts)
    (prk th2 : Arr 48) (d : Direction) (actions : List Action) (s : System)
    (hrun : (start P prk th2 d).run P actions = some s) (hk : s.rekeys < 2 ^ 64 - 1) :
    s.to_b.InOrder ∧
    (∃ s', s.run P (List.replicate s.to_b.frames.length .deliver_to_b) = some s' ∧
      s'.to_b.got = s.to_b.sent.map .ok) ∧
    (s.rekeys = 0 → s.to_a.InOrder ∧
      ∃ s', s.run P (List.replicate s.to_a.frames.length .deliver_to_a) = some s' ∧
        s'.to_a.got = s.to_a.sent.map .ok) := by
  have h : Converging P prk th2 d s := Converging.start.run hdec hrun hk
  obtain ⟨n, hto_b⟩ := h.to_b
  refine ⟨hto_b.in_order, h.all_to_b hdec hk, ?_⟩
  intro h0
  exact ⟨(h.to_a h0).in_order, h.all_to_a hdec h0⟩

theorem frames_before_and_after_a_rekey_are_opened :
    let prk : Arr 48 := ⟨List.replicate 48 7, rfl⟩
    let th2 : Arr 48 := ⟨List.replicate 48 9, rfl⟩
    let actions : List Action := [.seal_a ⟨5, 0, 1, [1]⟩, .rekey_a, .seal_b ⟨10, 0, 1, [9]⟩,
      .seal_a ⟨5, 1, 2, [2, 3]⟩, .deliver_to_b, .deliver_to_a, .deliver_to_b]
    ∃ s, (start sample prk th2 .ClientToServer).run sample actions = some s ∧
      s.to_b.sent = [⟨5, 0, 1, [1]⟩, ⟨5, 1, 2, [2, 3]⟩] ∧
      ∃ s', s.run sample (List.replicate s.to_b.frames.length .deliver_to_b) = some s' ∧
        s'.to_b.got = s.to_b.sent.map .ok := by
  intro prk th2 actions
  have hmap : ((start sample prk th2 .ClientToServer).run sample actions).map
      (fun s => (s.rekeys, s.to_b.sent)) = some (1, [⟨5, 0, 1, [1]⟩, ⟨5, 1, 2, [2, 3]⟩]) := by
    decide +kernel
  obtain ⟨s, hrun, hs⟩ := Option.map_eq_some_iff.1 hmap
  obtain ⟨hrekeys, hsent⟩ := Prod.mk.inj hs
  have hall := every_frame_of_the_side_that_rekeys_is_opened sample sample_decrypts prk th2
    .ClientToServer actions s hrun (by rw [hrekeys]; decide)
  exact ⟨s, hrun, hsent, hall.2.1⟩

/-! ## The last epoch -/

variable (P prk th2 d) in
/-- Both channels are in one epoch, and nothing is on its way to `b`. -/
structure Met (s : System) (n : Nat) : Prop where
  a_epoch : InEpoch P prk th2 s.a n
  b_epoch : InEpoch P prk th2 s.b n
  sends : s.a.send_direction = d
  receives : s.b.send_direction.opposite = d
  counter : s.a.send_counter < MAX_FRAMES_PER_EPOCH
  nothing : s.to_b.frames = []
  may_rekey : s.may_rekey = true

/-- `a` starts an epoch and seals a frame in it, which `b` opens. -/
def round (m : Message) : List Action := [.rekey_a, .seal_a m, .deliver_to_b]

theorem step_rekey_a (h : s.may_rekey = true) : s.step P .rekey_a = some { s with
    a := s.a.begin_next_epoch P, rekeys := s.rekeys + 1, may_rekey := false } := by
  rw [step, if_pos h]

theorem step_seal_a (hall : ∀ key nonce aad msg, ∃ c, P.encrypt key nonce aad msg = some c)
    {k : Nat} (ha : InEpoch P prk th2 s.a k) (hd : s.a.send_direction = d)
    (hmax : s.a.send_counter < MAX_FRAMES_PER_EPOCH) (hnothing : s.to_b.frames = [])
    (m : Message) :
    ∃ f, Carries P prk th2 d k f m ∧ s.step P (.seal_a m) = some { s with
      a := { s.a with send_counter := s.a.send_counter + 1 }
      to_b := ⟨[f], s.to_b.sent ++ [m], s.to_b.got⟩
      may_rekey := true } := by
  obtain ⟨ciphertext, henc⟩ := hall (s.a.keys.key_for s.a.send_direction)
    (control_nonce P s.a.send_direction s.a.keys.epoch s.a.send_counter)
    (control_aad s.a.send_direction s.a.keys.epoch s.a.send_counter m.frame_type m.frame_flags
      m.request_id) m.plaintext
  refine ⟨_, .of_encrypt ha hd hmax henc, ?_⟩
  rw [step, seal_of_encrypt hmax henc]
  simp [Link.put, hnothing]

theorem step_deliver_to_b {f : WireFrame} {m : Message} {sent : List Message}
    {got : List (Except ControlError Message)} {b : ControlChannel}
    (hl : s.to_b = ⟨[f], sent, got⟩) (hf : Carries P prk th2 d n f m)
    (hopen : s.b.open P f.body.epoch f.body.counter f.frame_type f.frame_flags f.request_id
      f.body.ciphertext = (.ok m.plaintext, b)) :
    s.step P .deliver_to_b = some { s with b, to_b := ⟨[], sent, got ++ [.ok m]⟩ } := by
  have hframes : s.to_b.frames = [f] := by rw [hl]
  rw [step, Link.deliver_cons hframes hf hopen, hl]
  rfl

theorem Met.round (hdec : P.Decrypts)
    (hall : ∀ key nonce aad msg, ∃ c, P.encrypt key nonce aad msg = some c)
    (h : Met P prk th2 d s n) (hn : n < 2 ^ 64 - 1) (m : Message) :
    ∃ s', s.run P (round m) = some s' ∧ Met P prk th2 d s' (n + 1) := by
  obtain ⟨ha, hb, hsends, hreceives, -, hnothing, hmay⟩ := h
  have hzero : (0 : UInt64) < MAX_FRAMES_PER_EPOCH := by decide
  have hone : (0 + 1 : UInt64) < MAX_FRAMES_PER_EPOCH := by decide
  have hrekey := step_rekey_a (P := P) hmay
  obtain ⟨f, hf, hseal⟩ := step_seal_a (s := { s with
    a := s.a.begin_next_epoch P, rekeys := s.rekeys + 1, may_rekey := false }) hall ha.next hsends
    hzero hnothing m
  have hopen := hf.opens_next_epoch hdec hb hreceives hn
  refine ⟨_, run_cons.2 ⟨_, hrekey, run_cons.2 ⟨_, hseal, run_cons.2
    ⟨_, step_deliver_to_b rfl hf hopen, rfl⟩⟩⟩, ?_⟩
  exact ⟨ha.next.congr rfl rfl rfl, hb.next.congr rfl rfl rfl, hsends, hreceives, hone, rfl,
    rfl⟩

theorem Met.rounds (hdec : P.Decrypts)
    (hall : ∀ key nonce aad msg, ∃ c, P.encrypt key nonce aad msg = some c)
    (h : Met P prk th2 d s 0) (m : Message) {n : Nat} (hn : n < 2 ^ 64) :
    ∃ s', s.run P (List.replicate n (System.round m)).flatten = some s' ∧
      Met P prk th2 d s' n := by
  induction n with
  | zero => exact ⟨s, rfl, h⟩
  | succ n ih =>
    obtain ⟨s₁, hrun, h₁⟩ := ih (by omega)
    obtain ⟨s', hround, h'⟩ := h₁.round hdec hall (by omega) m
    refine ⟨s', ?_, h'⟩
    rw [List.replicate_succ', List.flatten_append, List.flatten_singleton]
    exact run_append.2 ⟨s₁, hrun, hround⟩

theorem Met.last_epoch (hall : ∀ key nonce aad msg, ∃ c, P.encrypt key nonce aad msg = some c)
    (h : Met P prk th2 d s (2 ^ 64 - 1)) (m : Message) :
    ∃ s', s.run P [.seal_a m, .deliver_to_b] = some s' ∧ .error .EpochGap ∈ s'.to_b.got := by
  obtain ⟨f, hf, hseal⟩ := step_seal_a hall h.a_epoch h.sends h.counter h.nothing m
  have hepoch : s.b.keys.epoch = f.body.epoch := h.b_epoch.epoch.trans hf.epoch.symm
  have hlast : f.body.epoch.toNat = 2 ^ 64 - 1 := by
    rw [hf.epoch]
    decide
  refine ⟨{ s with
    a := { s.a with send_counter := s.a.send_counter + 1 }
    to_b := ⟨[], s.to_b.sent ++ [m], s.to_b.got ++ [.error .EpochGap]⟩
    may_rekey := true }, run_cons.2 ⟨_, hseal, run_cons.2 ⟨_, ?_, rfl⟩⟩, ?_⟩
  · simp only [step, Link.deliver, open_last hepoch hlast, Except.map, Option.map]
  · simp

theorem not_in_order {l : Link} {e : ControlError} (he : .error e ∈ l.got) : ¬ l.InOrder := by
  rintro ⟨pending, -, hlog⟩
  have hmem : .error e ∈ l.sent.map Except.ok := by
    rw [hlog]
    exact List.mem_append_left _ he
  simp at hmem

/-- In the last epoch that a `u64` can number, the second frame of `a` is refused. -/
theorem the_second_frame_of_the_last_epoch_is_refused :
    let prk : Arr 48 := ⟨List.replicate 48 7, rfl⟩
    let th2 : Arr 48 := ⟨List.replicate 48 9, rfl⟩
    let m : Message := ⟨5, 0, 1, [1]⟩
    ∃ s, (start sample prk th2 .ClientToServer).run sample
        ((List.replicate (2 ^ 64 - 1) [.rekey_a, .seal_a m, .deliver_to_b]).flatten ++
          [.seal_a m, .deliver_to_b]) = some s ∧
      .error .EpochGap ∈ s.to_b.got ∧ ¬ s.to_b.InOrder := by
  intro prk th2 m
  have hall : ∀ key nonce aad msg, ∃ c, sample.encrypt key nonce aad msg = some c :=
    fun _ _ _ _ => ⟨_, rfl⟩
  have hstart : Met sample prk th2 .ClientToServer (start sample prk th2 .ClientToServer) 0 :=
    ⟨.new _, .new _, rfl, rfl, by decide, rfl, rfl⟩
  obtain ⟨s₁, hrounds, hmet⟩ := hstart.rounds sample_decrypts hall m (n := 2 ^ 64 - 1) (by decide)
  obtain ⟨s, hrun, hgap⟩ := hmet.last_epoch hall m
  exact ⟨s, run_append.2 ⟨s₁, hrounds, hrun⟩, hgap, not_in_order hgap⟩

end System

end rtp2_core.control
