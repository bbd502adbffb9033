-- What a call does through its control channel, whatever the other side sends. Every frame
-- that leaves is sealed in an epoch of the session, and no two frames have one position.
import Reyta.ControlLink
import Reyta.FrameStreams

open byte_string stream_party

namespace rtp2_core.control.ControlChannel

open crypto

variable {P : Primitives} {self : ControlChannel} {epoch : UInt64}

/-- A channel that follows into the next epoch is as one that starts it. -/
theorem adopt_next (h : epoch.toNat = self.keys.epoch.toNat + 1) :
    self.adopt (self.candidate P epoch) = self.begin_next_epoch P := by
  have hne : epoch ≠ self.keys.epoch := by
    rintro rfl
    omega
  have hnext : epoch = self.keys.epoch + 1 := by
    apply UInt64.toNat_inj.1
    rw [h, toNat_succ]
    have := epoch.toNat_lt
    omega
  subst hnext
  simp [candidate, hne, adopt, begin_next_epoch]

/-- What is opened was decrypted with the key of its epoch, which is adopted. -/
theorem open_decrypts {counter request_id : UInt64} {frame_type frame_flags : UInt8}
    {ciphertext body : Bytes} {c' : ControlChannel}
    (h : self.open P epoch counter frame_type frame_flags request_id ciphertext =
      (.ok body, c')) :
    (epoch = self.keys.epoch ∨ epoch.toNat = self.keys.epoch.toNat + 1) ∧
      P.decrypt ((self.adopt (self.candidate P epoch)).keys.key_for self.send_direction.opposite)
        (control_nonce P self.send_direction.opposite epoch counter)
        (control_aad self.send_direction.opposite epoch counter frame_type frame_flags request_id)
        ciphertext = some body := by
  have hkeys : ((self.candidate P epoch).elim self.keys Prod.fst) =
      (self.adopt (self.candidate P epoch)).keys := by
    cases self.candidate P epoch <;> rfl
  unfold «open» at h
  simp only at h
  split_ifs at h with hstale hgap hreplay hmax
  · cases h
  · cases h
  · cases h
  · cases h
  · rw [hkeys] at h
    unfold open_with at h
    cases hdec : P.decrypt _ _ _ ciphertext with
    | none =>
      rw [hdec] at h
      cases h
    | some plaintext =>
      rw [hdec] at h
      cases h
      refine ⟨?_, rfl⟩
      by_cases he : epoch = self.keys.epoch
      · exact .inl he
      · exact .inr (next_epoch hstale hgap he)

end rtp2_core.control.ControlChannel

namespace rtp2_core.transfer

open control crypto Talk

/-! ## Frames that left -/

/-- A frame that was sealed and given to the stream. -/
structure Sent where
  frame_type : UInt8
  payload : Bytes
  epoch : UInt64
  counter : UInt64
  ciphertext : Bytes

namespace Sent

/-- The next frame of a channel. -/
def next (c : ControlChannel) (frame_type : UInt8) (payload ciphertext : Bytes) : Sent :=
  ⟨frame_type, payload, c.keys.epoch, c.send_counter, ciphertext⟩

def bytes (f : Sent) : Bytes := wire f.frame_type f.epoch f.counter f.ciphertext

/-- What the channel was asked to send. -/
def asked (f : Sent) : UInt8 × Bytes := (f.frame_type, f.payload)

def position (f : Sent) : ℕ ×ₗ ℕ := toLex (f.epoch.toNat, f.counter.toNat)

/-- The frame was sealed in the session, in the epoch of its number, and is not too long
to be sent. -/
structure SealedIn (P : Primitives) (prk th2 : Arr 48) (d : Direction) (f : Sent) : Prop where
  carries : Carries P prk th2 d f.epoch.toNat
    ⟨f.frame_type, 0, 0, ⟨f.epoch, f.counter, f.ciphertext⟩⟩ ⟨f.frame_type, 0, 0, f.payload⟩
  le : 12 + 16 + f.ciphertext.length ≤ MAX_FRAME

end Sent

/-- From `c₀` on these deeds were done with the channel, and it is `c` now. -/
inductive Through (P : Primitives) (c₀ : ControlChannel) :
    List FrameDeed → List Sent → ControlChannel → Prop
  | start : Through P c₀ [] [] c₀
  | sent {ds fs c frame_type payload ciphertext d} (h : Through P c₀ ds fs c)
      (hs : Sealed P c frame_type payload ciphertext)
      (hd : d.output = some (Sent.next c frame_type payload ciphertext).bytes) :
      Through P c₀ (ds ++ [d]) (fs ++ [.next c frame_type payload ciphertext])
        { c with send_counter := c.send_counter + 1 }
  | opened {ds fs c m x c'} (h : Through P c₀ ds fs c) (ho : open_frame P c m = .ok (x, c')) :
      Through P c₀ (ds ++ [.got true (.ok m)]) fs c'
  | refused {ds fs c m} (h : Through P c₀ ds fs c) : Through P c₀ (ds ++ [.got true m]) fs c

variable {P : Primitives} {c₀ c c' : ControlChannel} {ds h h₀ : List FrameDeed} {fs : List Sent}

/-- A channel that takes a frame of the current epoch or of the next one. -/
theorem inEpoch_adopt {prk th2 : Arr 48} {epoch : UInt64}
    (hc : InEpoch P prk th2 c c.keys.epoch.toNat)
    (h : epoch = c.keys.epoch ∨ epoch.toNat = c.keys.epoch.toNat + 1) :
    InEpoch P prk th2 (c.adopt (c.candidate P epoch)) epoch.toNat := by
  rcases h with rfl | hnext
  · rwa [ControlChannel.adopt_current]
  · rw [ControlChannel.adopt_next hnext, hnext]
    exact hc.next

/-- A frame of the session is opened to what was sealed. -/
theorem Sent.SealedIn.opened {prk th2 : Arr 48} {d : Direction} {f : Sent} {x : UInt8 × Bytes}
    (hf : f.SealedIn P prk th2 d) (hD : P.Decrypts) (hc : InEpoch P prk th2 c c.keys.epoch.toNat)
    (hd : c.send_direction.opposite = d)
    (h : open_frame P c (⟨f.frame_type, 0, 0, f.ciphertext⟩, f.epoch, f.counter) = .ok (x, c')) :
    x = f.asked := by
  unfold open_frame at h
  rcases hopen : c.open P f.epoch f.counter f.frame_type 0 0 f.ciphertext with ⟨e | body, c''⟩
  · simp only [hopen] at h
    cases h
  · simp only [hopen] at h
    cases h
    obtain ⟨hepoch, hdec⟩ := ControlChannel.open_decrypts hopen
    rw [hd, (inEpoch_adopt hc hepoch).keys] at hdec
    have hsealed := hD _ _ _ _ _ hf.carries.body
    exact congrArg (f.frame_type, ·) (Option.some.inj (hdec.symm.trans hsealed))

/-- A channel that opens a frame stays in its epoch and keeps its counter, or starts the
next epoch. -/
theorem open_frame_eq_ok {m : Numbered} {x : UInt8 × Bytes}
    (h : open_frame P c m = .ok (x, c')) :
    x.1 = m.1.frame_type ∧ ∃ w, c' = { c with receive_watermark := w } ∨
      c.keys.epoch.toNat + 1 < 2 ^ 64 ∧
        c' = { c.begin_next_epoch P with receive_watermark := w } := by
  unfold open_frame at h
  rcases c.open_cases (P := P) m.2.1 m.2.2 m.1.frame_type m.1.frame_flags m.1.request_id
    m.1.body with ⟨e, he⟩ | ⟨plaintext, -, hepoch, he⟩
  · simp only [he] at h
    cases h
  · simp only [he] at h
    cases h
    refine ⟨rfl, m.2.2 + 1, ?_⟩
    rcases hepoch with ⟨hsame, -⟩ | hnext
    · left
      rw [hsame, ControlChannel.adopt_current]
    · right
      rw [ControlChannel.adopt_next hnext]
      exact ⟨hnext ▸ m.2.1.toNat_lt, rfl⟩

theorem sent_to_of_open_frame {m : Numbered} {x : UInt8 × Bytes}
    (h : open_frame P c m = .ok (x, c')) : c.sent_to ≤ c'.sent_to := by
  obtain ⟨-, w, rfl | ⟨hlt, rfl⟩⟩ := open_frame_eq_ok h
  · exact le_refl _
  · apply Prod.Lex.toLex_le_toLex.2
    left
    show c.keys.epoch.toNat < (c.keys.epoch + 1).toNat
    rw [ControlChannel.toNat_succ (by omega)]
    exact Nat.lt_succ_self _

theorem Sealed.sent_to_lt {frame_type : UInt8} {payload ciphertext : Bytes}
    (h : Sealed P c frame_type payload ciphertext) :
    c.sent_to < ControlChannel.sent_to { c with send_counter := c.send_counter + 1 } := by
  apply Prod.Lex.toLex_lt_toLex.2
  right
  refine ⟨rfl, ?_⟩
  show c.send_counter.toNat < (c.send_counter + 1).toNat
  rw [ControlChannel.toNat_succ_counter h.max]
  exact Nat.lt_succ_self _

namespace Through

theorem outputs_eq (h : Through P c₀ ds fs c) : outputs ds = fs.map Sent.bytes := by
  induction h with
  | start => rfl
  | sent _ hs hd ih => simp [ih, outputs_singleton hd]
  | opened _ _ ih => simpa using ih
  | refused _ ih => simpa using ih

/-- The position of the channel is behind all frames that left. -/
theorem position_lt (h : Through P c₀ ds fs c) : ∀ f ∈ fs, f.position < c.sent_to := by
  induction h with
  | start => exact fun f hf => nomatch hf
  | sent _ hs hd ih =>
    intro f hf
    rcases List.mem_append.1 hf with hf | hf
    · exact (ih f hf).trans hs.sent_to_lt
    · rw [List.mem_singleton.1 hf]
      exact hs.sent_to_lt
  | opened _ ho ih => exact fun f hf => (ih f hf).trans_le (sent_to_of_open_frame ho)
  | refused _ ih => exact ih

/-- No two frames have one position, and they leave in the order of their positions. -/
theorem positions_sorted (h : Through P c₀ ds fs c) :
    fs.Pairwise fun f g => f.position < g.position := by
  induction h with
  | start => exact .nil
  | sent h hs hd ih =>
    refine List.pairwise_append.2 ⟨ih, List.pairwise_singleton _ _, ?_⟩
    intro f hf g hg
    rw [List.mem_singleton.1 hg]
    exact h.position_lt f hf
  | opened _ _ ih => exact ih
  | refused _ ih => exact ih

/-- The channel of a session is in the epoch of its number, and so were the frames. -/
theorem in_session {prk th2 : Arr 48} {d : Direction}
    (h : Through P (.new P prk th2 d) ds fs c) :
    InEpoch P prk th2 c c.keys.epoch.toNat ∧ c.send_direction = d ∧
      ∀ f ∈ fs, f.SealedIn P prk th2 d := by
  induction h with
  | start => exact ⟨.new d, rfl, fun f hf => nomatch hf⟩
  | sent _ hs hd ih =>
    obtain ⟨hn, hdir, hfs⟩ := ih
    refine ⟨hn.congr rfl rfl rfl, hdir, ?_⟩
    intro f hf
    rcases List.mem_append.1 hf with hf | hf
    · exact hfs f hf
    · rw [List.mem_singleton.1 hf]
      exact ⟨Carries.of_encrypt (m := ⟨_, 0, 0, _⟩) hn hdir hs.max hs.enc, hs.le⟩
  | opened _ ho ih =>
    obtain ⟨hn, hdir, hfs⟩ := ih
    obtain ⟨-, w, rfl | ⟨hlt, rfl⟩⟩ := open_frame_eq_ok ho
    · exact ⟨hn.congr rfl rfl rfl, hdir, hfs⟩
    · refine ⟨?_, hdir, hfs⟩
      -- the number of the next epoch does not wrap
      have hnext := ControlChannel.toNat_succ (Nat.lt_sub_of_add_lt hlt)
      show InEpoch P prk th2 _ (_ + 1 : UInt64).toNat
      rw [hnext]
      exact hn.next.congr rfl rfl rfl
  | refused _ ih => exact ih

/-- What was done before was done through the channel as well. -/
theorem of_append {ds' : List FrameDeed} (h : Through P c₀ (ds ++ ds') fs c) :
    ∃ fs' c', fs' <+: fs ∧ Through P c₀ ds fs' c' := by
  induction ds' using List.reverseRecOn generalizing fs c with
  | nil => exact ⟨fs, c, List.prefix_refl _, by rwa [List.append_nil] at h⟩
  | append_singleton ds' d ih =>
    rw [← List.append_assoc] at h
    generalize hall : ds ++ ds' ++ [d] = all at h
    cases h with
    | start => simp at hall
    | sent h hs hd =>
      obtain ⟨rfl, -⟩ := List.append_inj' hall rfl
      obtain ⟨fs', c', hfs, h'⟩ := ih h
      exact ⟨fs', c', hfs.trans (List.prefix_append ..), h'⟩
    | opened h ho =>
      obtain ⟨rfl, -⟩ := List.append_inj' hall rfl
      exact ih h
    | refused h =>
      obtain ⟨rfl, -⟩ := List.append_inj' hall rfl
      exact ih h

end Through

/-! ## What a call has asked its channel to send -/

/-- After `h₀` the channel started from `c₀`, was asked to send this, and is `c` now. -/
def Went (P : Primitives) (c₀ : ControlChannel) (h₀ : List FrameDeed)
    (asked : List (UInt8 × Bytes)) (c : ControlChannel) (h : List FrameDeed) : Prop :=
  ∃ ds fs, h = h₀ ++ ds ∧ Through P c₀ ds fs c ∧ fs.map Sent.asked = asked

/-- All that left after `h₀` is the beginning of a plan. -/
def Within (P : Primitives) (c₀ : ControlChannel) (h₀ : List FrameDeed)
    (plan : List (UInt8 × Bytes)) (h : List FrameDeed) : Prop :=
  ∃ asked c, asked <+: plan ∧ Went P c₀ h₀ asked c h

/-- The last deed was to read a frame, which the channel opened. -/
def Heard (P : Primitives) (c₀ : ControlChannel) (h₀ : List FrameDeed)
    (asked : List (UInt8 × Bytes)) (c : ControlChannel) (x : (UInt8 × Bytes) × ControlChannel)
    (h : List FrameDeed) : Prop :=
  ∃ before m, h = before ++ [.got true (.ok m)] ∧ Went P c₀ h₀ asked c before ∧
    open_frame P c m = .ok x

variable {asked plan plan' : List (UInt8 × Bytes)}

theorem Went.start : Went P c₀ h₀ [] c₀ h₀ :=
  ⟨[], [], (List.append_nil h₀).symm, .start, rfl⟩

theorem Went.sent {frame_type : UInt8} {payload ciphertext : Bytes} {d : FrameDeed}
    (hw : Went P c₀ h₀ asked c h) (hs : Sealed P c frame_type payload ciphertext)
    (hd : d.output = some (Sent.next c frame_type payload ciphertext).bytes) :
    Went P c₀ h₀ (asked ++ [(frame_type, payload)])
      { c with send_counter := c.send_counter + 1 } (h ++ [d]) := by
  obtain ⟨ds, fs, rfl, ht, rfl⟩ := hw
  refine ⟨_, _, List.append_assoc .., ht.sent hs hd, ?_⟩
  rw [List.map_append]
  rfl

theorem Went.opened {m : Numbered} {x : UInt8 × Bytes} (hw : Went P c₀ h₀ asked c h)
    (ho : open_frame P c m = .ok (x, c')) :
    Went P c₀ h₀ asked c' (h ++ [.got true (.ok m)]) := by
  obtain ⟨ds, fs, rfl, ht, hasked⟩ := hw
  exact ⟨_, _, List.append_assoc .., ht.opened ho, hasked⟩

theorem Went.refused (m : Except TransferError Numbered) (hw : Went P c₀ h₀ asked c h) :
    Went P c₀ h₀ asked c (h ++ [.got true m]) := by
  obtain ⟨ds, fs, rfl, ht, hasked⟩ := hw
  exact ⟨_, _, List.append_assoc .., ht.refused, hasked⟩

theorem Heard.went {x : (UInt8 × Bytes) × ControlChannel} (hh : Heard P c₀ h₀ asked c x h) :
    Went P c₀ h₀ asked x.2 h := by
  obtain ⟨before, m, rfl, hw, ho⟩ := hh
  exact hw.opened ho

/-- After `h₀` these frames left. All are sealed in the session, no two are at one
position, and they left in the order of their positions. -/
structure SealedSince (P : Primitives) (prk th2 : Arr 48) (d : Direction) (h₀ h : List FrameDeed)
    (fs : List Sent) : Prop where
  since : h₀ <+: h
  left : outputs h = outputs h₀ ++ fs.map Sent.bytes
  session : ∀ f ∈ fs, f.SealedIn P prk th2 d
  order : fs.Pairwise fun f g => f.position < g.position

theorem Went.sealed {prk th2 : Arr 48} {d : Direction}
    (hw : Went P (.new P prk th2 d) h₀ asked c h) :
    ∃ fs, SealedSince P prk th2 d h₀ h fs ∧ fs.map Sent.asked = asked := by
  obtain ⟨ds, fs, rfl, hthrough, rfl⟩ := hw
  refine ⟨fs, ⟨List.prefix_append .., ?_, hthrough.in_session.2.2, hthrough.positions_sorted⟩, rfl⟩
  rw [outputs_append, hthrough.outputs_eq]

theorem Went.outputs_eq (hw : Went P c₀ h₀ asked c h) :
    ∃ fs : List Sent, outputs h = outputs h₀ ++ fs.map Sent.bytes ∧ fs.map Sent.asked = asked := by
  obtain ⟨ds, fs, rfl, ht, hasked⟩ := hw
  exact ⟨fs, by rw [outputs_append, ht.outputs_eq], hasked⟩

theorem Went.length_outputs (hw : Went P c₀ h₀ asked c h) :
    (outputs h).length = (outputs h₀).length + asked.length := by
  obtain ⟨fs, hout, rfl⟩ := hw.outputs_eq
  simp [hout]

/-- At an earlier point the channel was not in use yet, or less was asked. -/
theorem Went.of_prefix {h' : List FrameDeed} (hw : Went P c₀ h₀ asked c h) (hp : h' <+: h) :
    h' <+: h₀ ∨ ∃ asked' c', asked' <+: asked ∧ Went P c₀ h₀ asked' c' h' := by
  obtain ⟨ds, fs, rfl, ht, rfl⟩ := hw
  rcases List.prefix_or_prefix_of_prefix hp (List.prefix_append h₀ ds) with hp' | ⟨ds', rfl⟩
  · exact .inl hp'
  · obtain ⟨ds'', rfl⟩ := (List.prefix_append_right_inj h₀).1 hp
    obtain ⟨fs', c', hfs, ht'⟩ := ht.of_append
    exact .inr ⟨_, c', hfs.map Sent.asked, ds', fs', rfl, ht', rfl⟩

theorem Went.within (hw : Went P c₀ h₀ asked c h) (hp : asked <+: plan) :
    Within P c₀ h₀ plan h := ⟨asked, c, hp, hw⟩

theorem Within.sealed {prk th2 : Arr 48} {d : Direction}
    (hw : Within P (.new P prk th2 d) h₀ plan h) :
    ∃ fs, SealedSince P prk th2 d h₀ h fs ∧ fs.map Sent.asked <+: plan := by
  obtain ⟨asked, c, hp, hw⟩ := hw
  obtain ⟨fs, hsealed, rfl⟩ := hw.sealed
  exact ⟨fs, hsealed, hp⟩

/-- What left is from before, or was sealed and is in the plan. -/
theorem Within.output {prk th2 : Arr 48} {d : Direction} {out : Bytes}
    (hw : Within P (.new P prk th2 d) h₀ plan h) (ho : out ∈ outputs h) :
    out ∈ outputs h₀ ∨ ∃ f : Sent, out = f.bytes ∧ f.asked ∈ plan ∧ f.SealedIn P prk th2 d := by
  obtain ⟨fs, hsealed, hp⟩ := hw.sealed
  rw [hsealed.left] at ho
  rcases List.mem_append.1 ho with ho | ho
  · exact .inl ho
  · obtain ⟨f, hf, rfl⟩ := List.mem_map.1 ho
    exact .inr ⟨f, rfl, hp.subset (List.mem_map_of_mem hf), hsealed.session f hf⟩

theorem Within.since (hw : Within P c₀ h₀ plan h) : h₀ <+: h := by
  obtain ⟨asked, c, -, ds, fs, rfl, -⟩ := hw
  exact List.prefix_append ..

/-! ## The calls on a channel -/

section Meets

open Session

variable {σ : Type}

/-- The call is left with an error. -/
def Halt.IsErr (e : Halt) : Prop := ∃ x, e = .Err x

theorem Halt.IsErr.ne_panic {e : Halt} (h : e.IsErr) : e ≠ .Panic := by
  obtain ⟨x, rfl⟩ := h
  exact nofun

/-- A part that does not touch the streams and may fail. -/
theorem meets_fallible {α : Type} {x : Except TransferError α} {p : List FrameDeed → σ → Prop}
    {r : Halt → List FrameDeed → σ → Prop} (hr : ∀ e h s, p h s → r (.Err e) h s) :
    Meets p (fallible x : Talk σ α) (fun a h s => x = .ok a ∧ p h s) r := by
  apply Meets.act
  · intro h s a s' hp hexec
    rcases x with e | a'
    · cases hexec
    · cases hexec
      exact ⟨rfl, hp⟩
  · intro h s e s' hp hexec
    rcases x with e' | a'
    · cases hexec
      exact hr e' h s hp
    · cases hexec

theorem meets_stopping {α : Type} {x : Except Stop α} {p : List FrameDeed → σ → Prop}
    {r : Halt → List FrameDeed → σ → Prop} (hr : ∀ e h s, x = .error e → p h s → r e.halt h s) :
    Meets p (stopping x : Talk σ α) (fun a h s => x = .ok a ∧ p h s) r := by
  apply Meets.act
  · intro h s a s' hp hexec
    rcases x with e | a'
    · cases hexec
    · cases hexec
      exact ⟨rfl, hp⟩
  · intro h s e s' hp hexec
    rcases x with e' | a'
    · cases hexec
      exact hr e' h s rfl hp
    · cases hexec

/-- A first part of which the result is known. -/
theorem meets_known {α β : Type} {x : Except Stop α} {b : α} {f : α → Talk σ β}
    {p : List FrameDeed → σ → Prop} {q : β → List FrameDeed → σ → Prop}
    {r : Halt → List FrameDeed → σ → Prop} (hx : x = .ok b) (hf : Meets p (f b) q r) :
    Meets p (stopping x >>= f) q r := by
  subst hx
  refine .bind (meets_stopping nofun) fun b' => .assuming fun hb => ?_
  cases hb
  exact hf

theorem meets_waiting {α : Type} {x : Option α} {p : List FrameDeed → σ → Prop}
    {r : Halt → List FrameDeed → σ → Prop} (hr : ∀ h s, p h s → r .Cut h s) :
    Meets p (waiting x : Talk σ α) (fun a h s => x = some a ∧ p h s) r := by
  rcases x with _ | a
  · exact (Meets.throw Halt.Cut).weaken hr (fun _ _ _ hq => hq) fun _ _ _ h => h
  · exact (Meets.pure (q := fun b h s => some a = some b ∧ p h s) a).weaken
      (fun h s hp => ⟨rfl, hp⟩) (fun _ _ _ hq => hq) fun _ _ _ h => h

/-! ### Frames in the clear -/

theorem meets_send_plain_frame (h₀ : List FrameDeed) (p : σ → Prop) (frame_type : UInt8)
    (payload : Bytes) :
    Meets (fun h s => h = h₀ ∧ p s) (Talk.send_plain_frame frame_type payload : Talk σ Unit)
      (fun _ h s => h = h₀ ++ [.wrote (plain_wire frame_type payload)] ∧ p s)
      (fun e h s => e.IsErr ∧ (outputs h = outputs h₀ ∨
        outputs h = outputs h₀ ++ [plain_wire frame_type payload]) ∧ p s) := by
  refine .bind (meets_fallible ?_) fun bytes => .assuming fun hbytes => ?_
  · rintro e h s ⟨rfl, hps⟩
    exact ⟨⟨e, rfl⟩, .inl rfl, hps⟩
  obtain rfl := send_plain_frame_eq_ok hbytes
  refine .put ?_ ?_
  · rintro h s ⟨rfl, hps⟩
    exact ⟨rfl, hps⟩
  · rintro h s e ⟨rfl, hps⟩
    exact ⟨⟨e, rfl⟩, .inr (outputs_append ..), hps⟩

theorem meets_expect_plain_frame (h₀ : List FrameDeed) (p : σ → Prop) (expected : UInt8) :
    Meets (fun h s => h = h₀ ∧ p s) (Talk.expect_plain_frame expected : Talk σ Bytes)
      (fun body h s => ∃ m : Numbered, m.1.body = body ∧ h = h₀ ++ [.got false (.ok m)] ∧ p s)
      (fun e h s => e.IsErr ∧ outputs h = outputs h₀ ∧ p s) := by
  refine .bind (q := fun m h s => h = h₀ ++ [.got false (.ok m)] ∧ p s) (.take ?_ ?_) ?_
  · rintro h s m ⟨rfl, hps⟩
    exact ⟨rfl, hps⟩
  · rintro h s e ⟨rfl, hps⟩
    exact ⟨⟨e, rfl⟩, by simp, hps⟩
  · rintro ⟨frame, epoch, counter⟩
    refine .bind (meets_fallible ?_) fun _ => .returning ?_
    · rintro e h s ⟨rfl, hps⟩
      exact ⟨⟨e, rfl⟩, by simp, hps⟩
    · exact fun h s hp => ⟨(frame, epoch, counter), rfl, hp.2⟩

/-! ### Frames of the channel -/

theorem meets_send_frame (c₀ c : ControlChannel) (h₀ : List FrameDeed)
    (asked : List (UInt8 × Bytes)) (p : σ → Prop) (frame_type : UInt8) (payload : Bytes) :
    Meets (fun h s => Went P c₀ h₀ asked c h ∧ p s)
      (Talk.send_frame P c frame_type payload : Talk σ ControlChannel)
      (fun c' h s => Went P c₀ h₀ (asked ++ [(frame_type, payload)]) c' h ∧ p s)
      (fun e h s => e.IsErr ∧ Within P c₀ h₀ (asked ++ [(frame_type, payload)]) h ∧ p s) := by
  rcases send_frame_cases (P := P) c frame_type payload with
    ⟨e, counter, -, hsend⟩ | ⟨ciphertext, hs⟩
  · refine .bind (meets_fallible fun e h s hw =>
      ⟨⟨e, rfl⟩, hw.1.within (List.prefix_append ..), hw.2⟩) ?_
    intro bytes
    rw [hsend]
    exact .assuming nofun
  · refine .bind (meets_fallible fun e h s hw =>
      ⟨⟨e, rfl⟩, hw.1.within (List.prefix_append ..), hw.2⟩) ?_
    intro bytes
    rw [hs.send_frame]
    refine .bind (q := fun _ h s => Went P c₀ h₀ (asked ++ [(frame_type, payload)])
      { c with send_counter := c.send_counter + 1 } h ∧ p s) (.put ?_ ?_) fun _ =>
        .pure (q := fun c' h s => Went P c₀ h₀ (asked ++ [(frame_type, payload)]) c' h ∧ p s) _
    · rintro h s ⟨hbytes, hw, hps⟩
      cases hbytes
      exact ⟨hw.sent hs rfl, hps⟩
    · rintro h s e ⟨hbytes, hw, hps⟩
      cases hbytes
      exact ⟨⟨e, rfl⟩, (hw.sent hs rfl).within (List.prefix_refl _), hps⟩

theorem meets_recv_frame (c₀ c : ControlChannel) (h₀ : List FrameDeed)
    (asked : List (UInt8 × Bytes)) (p : σ → Prop) :
    Meets (fun h s => Went P c₀ h₀ asked c h ∧ p s)
      (Talk.recv_frame P c : Talk σ ((UInt8 × Bytes) × ControlChannel))
      (fun x h s => Heard P c₀ h₀ asked c x h ∧ p s)
      (fun e h s => e.IsErr ∧ Within P c₀ h₀ asked h ∧ p s) := by
  refine .bind (q := fun m h s => ∃ h', h = h' ++ [.got true (.ok m)] ∧
    Went P c₀ h₀ asked c h' ∧ p s) (.take ?_ ?_) ?_
  · intro h s m hw
    exact ⟨h, rfl, hw⟩
  · intro h s e hw
    exact ⟨⟨e, rfl⟩, (hw.1.refused _).within (List.prefix_refl _), hw.2⟩
  · intro m
    refine (meets_fallible (r := fun e h s => e.IsErr ∧ Within P c₀ h₀ asked h ∧ p s) ?_).weaken
      (fun _ _ hp => hp) ?_ fun _ _ _ hr => hr
    · rintro e h s ⟨h', rfl, hw, hps⟩
      exact ⟨⟨e, rfl⟩, (hw.refused _).within (List.prefix_refl _), hps⟩
    · rintro x h s ⟨ho, h', rfl, hw, hps⟩
      exact ⟨⟨h', m, rfl, hw, ho⟩, hps⟩

theorem meets_expect_frame (c₀ c : ControlChannel) (h₀ : List FrameDeed)
    (asked : List (UInt8 × Bytes)) (p : σ → Prop) (expected : UInt8) :
    Meets (fun h s => Went P c₀ h₀ asked c h ∧ p s)
      (Talk.expect_frame P c expected : Talk σ (Bytes × ControlChannel))
      (fun x h s => Heard P c₀ h₀ asked c ((expected, x.1), x.2) h ∧ p s)
      (fun e h s => e.IsErr ∧ Within P c₀ h₀ asked h ∧ p s) := by
  refine .bind (meets_recv_frame c₀ c h₀ asked p) ?_
  rintro ⟨⟨t, payload⟩, c'⟩
  refine .bind (meets_fallible ?_) ?_
  · rintro e h s ⟨hh, hps⟩
    exact ⟨⟨e, rfl⟩, hh.went.within (List.prefix_refl _), hps⟩
  · rintro ⟨⟩
    refine .returning ?_
    rintro h s ⟨htype, hh⟩
    have htype : t = expected := by simpa using exact_parse.refuse_if_eq_ok.1 htype
    subst htype
    exact hh

end Meets

end rtp2_core.transfer
