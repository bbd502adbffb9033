-- The receiver against any other side. In the clear it sends its two messages of the
-- handshake, and in the session the request and the acknowledgement. The destination is
-- not opened before an offer was admitted. What a call then does to the destination and
-- to the resume record is what an attempt does, and it acknowledges and tells of a
-- completed object only after the file is complete, synced and as announced.
import Reyta.ChannelDeeds
import Reyta.ReceiveFile
import Reyta.SenderRuns

open byte_string early_exit exact_parse stream_party

namespace rtp2_core.transfer

open bitmap crypto events handshake identity keys manifest object offer resume route scheduler
open Talk Session
open control (ControlChannel)

namespace ReceiveCall

variable {P : Primitives} {call : ReceiveCall} {a : ReceiveAnswers}

/-! ## The call as an attempt -/

/-- The object of an admitted offer. -/
def Names (P : Primitives) (admitted : Admitted) : Prop :=
  admitted.object_identity = ⟨admitted.ctx.transfer_id, admitted.ctx.object_id,
    admitted.identity_commitment, (admitted.incoming P).root, admitted.ctx.chunk_count,
    admitted.object_public.chunk_ciphertext_size, admitted.ctx.logical_plaintext_size⟩

/-- The attempt that a call makes with the frames `turns`, up to its end. -/
def full_attempt (P : Primitives) (call : ReceiveCall) (a : ReceiveAnswers) (admitted : Admitted)
    (hnames : Names P admitted) (route_watch : RouteWatch) (file : Bytes) (turns : List Turn) :
    FullAttempt where
  toAttempt := call.attempt a admitted route_watch file turns
  incoming := admitted.incoming P
  manifest_commitment := admitted.identity_commitment
  chunk_ciphertext_size := admitted.object_public.chunk_ciphertext_size
  identity_eq := hnames
  expected_plaintext_digest := admitted.disclosed.plaintext_digest
  reread := a.reread
  remove_file := a.remove_file
  remove_record := a.remove_record

theorem names_of_admits {device_id : Arr 32} {session : SessionKeys} {now : UInt64}
    {offer_bytes : Bytes} {admitted : Admitted}
    (h : admit_offer P device_id session now offer_bytes = .ok admitted) : Names P admitted := by
  obtain ⟨chunk_size, -, hfile, -⟩ := rebuild_context_eq_ok.1 (admit_offer.spec.1 h).ctx
  obtain ⟨-, -, hctx⟩ := ObjectContext.for_file_eq_some.1 hfile
  unfold Names Admitted.object_identity
  rw [← hctx]
  rfl

/-! ## The loop and what follows it -/

/-- What holds of the streams stays, and the state does what the step does. -/
theorem meets_on_recv {α : Type} {x : Act α} {g : List FrameDeed → Prop} {k : Arrival → Prop} :
    Meets (fun h s => g h ∧ k s) (on_recv x)
      (fun v h s => g h ∧ ∃ s₁, k s₁ ∧ exec x s₁.recv = (.ok v, s.recv) ∧ s.removed = s₁.removed)
      (fun e h s => g h ∧ ∃ s₁ e', e = .Err e' ∧ k s₁ ∧ exec x s₁.recv = (.error e', s.recv) ∧
        s.removed = s₁.removed) := by
  apply Meets.act
  · rintro h s v s' ⟨hg, hk⟩ hexec
    change ((exec x s.recv).1.mapError Halt.Err, _) = _ at hexec
    rcases hx : exec x s.recv with ⟨e | v', r⟩
    · rw [hx] at hexec
      cases hexec
    · rw [hx] at hexec
      cases hexec
      exact ⟨hg, s, hk, hx, rfl⟩
  · rintro h s e s' ⟨hg, hk⟩ hexec
    change ((exec x s.recv).1.mapError Halt.Err, _) = _ at hexec
    rcases hx : exec x s.recv with ⟨e' | v', r⟩
    · rw [hx] at hexec
      cases hexec
      exact ⟨hg, s, e', rfl, hk, hx, rfl⟩
    · rw [hx] at hexec
      cases hexec

section Loop

variable {t : Incoming} {c₀ : ControlChannel} {h₀ : List FrameDeed}
  {asked : List (UInt8 × Bytes)} {s₀ : Recv}

/-- The loop has come so far with the frames `turns`, and nothing was removed. -/
def Looped (P : Primitives) (t : Incoming) (s₀ : Recv) (turns : List Turn)
    (r : Except TransferError Flow) (s : Arrival) : Prop :=
  exec (receive_loop P t turns) s₀ = (r, s.recv) ∧ s.removed = []

/-- The loop is left early: it waits for a frame, or it met an error. -/
def LeftLoop (P : Primitives) (t : Incoming) (s₀ : Recv) (s : Arrival) : Prop :=
  ∃ turns r, r ≠ .ok .done ∧ Looped P t s₀ turns r s

/-- Every frame that the channel opens is one more turn. -/
theorem meets_receive_chunks (c₀ : ControlChannel) (h₀ : List FrameDeed)
    (asked : List (UInt8 × Bytes)) (s₀ : Recv) (answers : List Answers) :
    ∀ (c : ControlChannel) (turns : List Turn),
      Meets (fun h s => Went P c₀ h₀ asked c h ∧ Looped P t s₀ turns (.ok .next) s)
        (receive_chunks P t c answers)
        (fun c' h s => ∃ turns', Went P c₀ h₀ asked c' h ∧ Looped P t s₀ turns' (.ok .done) s)
        (fun _ h s => Within P c₀ h₀ asked h ∧ LeftLoop P t s₀ s) := by
  induction answers with
  | nil =>
    intro c turns
    refine .failing ?_
    rintro h s ⟨hw, hl⟩
    exact ⟨hw.within (List.prefix_refl _), turns, .ok .next, nofun, hl⟩
  | cons answer answers ih =>
    intro c turns
    refine .bind ((meets_recv_frame c₀ c h₀ asked (Looped P t s₀ turns (.ok .next))).weaken
      (fun _ _ hp => hp) (fun _ _ _ hq => hq) ?_) ?_
    · rintro e h s ⟨-, hw, hl⟩
      exact ⟨hw, turns, .ok .next, nofun, hl⟩
    rintro ⟨frame, c'⟩
    refine .bind (q := fun flow h s => Went P c₀ h₀ asked c' h ∧
        Looped P t s₀ (turns ++ [⟨.ok frame, answer⟩]) (.ok flow) s)
      (meets_on_recv.weaken (fun h s hp => ⟨hp.1.went, hp.2⟩) ?_ ?_) ?_
    · rintro flow h s ⟨hw, s₁, hl, hturn, hremoved⟩
      exact ⟨hw, (each_concat hl.1 _).trans hturn, hremoved.trans hl.2⟩
    · rintro e h s ⟨hw, s₁, e', rfl, hl, hturn, hremoved⟩
      exact ⟨hw.within (List.prefix_refl _), _, .error e', nofun,
        (each_concat hl.1 _).trans hturn, hremoved.trans hl.2⟩
    intro flow
    cases flow with
    | next => exact ih c' _
    | done =>
      refine .returning ?_
      exact fun h s hp => ⟨_, hp⟩

variable {f : FullAttempt} {s₁ s₂ : Recv} {digest : Arr 32}

/-- What was done is what the attempt does, up to some point of its clean-up. -/
def Traces (P : Primitives) (f : FullAttempt) (s₀ : Recv) (s : Arrival) : Prop :=
  s.recv = (exec (receive_to_end P f) s₀).2 ∧
    s.removed <+: f.clean_up (exec (receive_to_end P f) s₀).1

/-- The attempt is complete, which was told. -/
def Finished (P : Primitives) (f : FullAttempt) (s₀ : Recv) (digest : Arr 32) (s : Arrival) :
    Prop :=
  digest = f.expected_plaintext_digest ∧ ∃ s₁ : Recv,
    exec (receive_to_end P f) s₀ = (.ok .complete, s₁) ∧
    s.recv = { s₁ with
      events := s₁.events ++ completed f.identity.transfer_id f.identity.object_id digest } ∧
    s.removed <+: f.clean_up (.ok .complete)

theorem traces_of_exec {s : Arrival} {r : Except TransferError Outcome}
    (h : exec (receive_to_end P f) s₀ = (r, s.recv)) (hremoved : s.removed <+: f.clean_up r) :
    Traces P f s₀ s := by
  unfold Traces
  rw [h]
  exact ⟨rfl, hremoved⟩

theorem LeftLoop.traces {s : Arrival} (hl : LeftLoop P f.incoming s₀ s) :
    ∃ turns, Traces P { f with turns := turns } s₀ s := by
  obtain ⟨turns, r, hr, hloop, hremoved⟩ := hl
  refine ⟨turns, ?_⟩
  have hend : ∃ r', exec (receive_to_end P { f with turns := turns }) s₀ = (r', s.recv) := by
    unfold receive_to_end
    rw [exec_bind, hloop]
    rcases r with e | flow
    · exact ⟨_, rfl⟩
    · cases flow with
      | next => exact ⟨_, rfl⟩
      | done => exact absurd rfl hr
  obtain ⟨r', hend⟩ := hend
  exact traces_of_exec hend (hremoved ▸ List.nil_prefix)

theorem to_end_of_done (h : exec (receive_loop P f.incoming f.turns) s₀ = (.ok .done, s₁)) :
    exec (receive_to_end P f) s₀ =
      exec (settle f.toAttempt >>= fun _ => compare_digest P f) s₁ := by
  unfold receive_to_end
  rw [exec_bind, h]

theorem to_end_of_settle_error {e : TransferError}
    (h : exec (receive_loop P f.incoming f.turns) s₀ = (.ok .done, s₁))
    (hsettle : exec (settle f.toAttempt) s₁ = (.error e, s₂)) :
    exec (receive_to_end P f) s₀ = (.error e, s₂) := by
  rw [to_end_of_done h, exec_bind, hsettle]

theorem to_end_of_settle
    (h : exec (receive_loop P f.incoming f.turns) s₀ = (.ok .done, s₁))
    (hsettle : exec (settle f.toAttempt) s₁ = (.ok (), s₂)) :
    exec (receive_to_end P f) s₀ = exec (compare_digest P f) s₂ := by
  rw [to_end_of_done h, exec_bind, hsettle]

theorem plaintext_digest_state {ctx : ObjectContext} {reread : Except String Unit}
    {r : Except TransferError (Arr 32)}
    (h : exec (plaintext_digest P ctx reread) s₁ = (r, s₂)) : s₂ = s₁ := by
  simp only [exec, plaintext_digest] at h
  split at h
  · cases h
    rfl
  · split at h <;> cases h <;> rfl

theorem compare_digest_of_error {e : TransferError}
    (h : exec (plaintext_digest P f.incoming.ctx f.reread) s₁ = (.error e, s₂)) :
    exec (compare_digest P f) s₁ = (.error e, s₂) := by
  unfold compare_digest
  rw [exec_bind, h]

theorem compare_digest_of_ok
    (h : exec (plaintext_digest P f.incoming.ctx f.reread) s₁ = (.ok digest, s₂)) :
    exec (compare_digest P f) s₁ =
      (.ok (if ct_eq digest.bytes f.expected_plaintext_digest.bytes then .complete else .mismatch),
        s₂) := by
  unfold compare_digest
  rw [exec_bind, h]
  rfl

/-- The attempt is one of this call. -/
structure OfCall (P : Primitives) (call : ReceiveCall) (a : ReceiveAnswers) (admitted : Admitted)
    (f : FullAttempt) : Prop where
  incoming : f.incoming = admitted.incoming P
  settle : settle f.toAttempt = settle (call.attempt a admitted (.new .Unknown .Any 0) [] [])
  digest : f.expected_plaintext_digest = admitted.disclosed.plaintext_digest
  reread : f.reread = a.reread
  remove_file : f.remove_file = a.remove_file
  remove_record : f.remove_record = a.remove_record
  transfer_id : f.identity.transfer_id = admitted.opened.secrets.transfer_id
  object_id : f.identity.object_id = admitted.opened.secrets.object_id

theorem ofCall_full_attempt {admitted : Admitted} (hnames : Names P admitted)
    (route_watch : RouteWatch) (file : Bytes) (turns : List Turn) :
    OfCall P call a admitted (call.full_attempt P a admitted hnames route_watch file turns) :=
  ⟨rfl, rfl, rfl, rfl, rfl, rfl, rfl, rfl⟩

/-- All chunks are there and synced, and the digest was compared. -/
def Judged (P : Primitives) (f : FullAttempt) (s₀ : Recv) (digest : Arr 32) (s : Arrival) : Prop :=
  s.removed = [] ∧ exec (receive_to_end P f) s₀ =
    (.ok (if ct_eq digest.bytes f.expected_plaintext_digest.bytes then .complete else .mismatch),
      s.recv)

theorem Judged.mismatch {s : Arrival} (hj : Judged P f s₀ digest s)
    (hmatch : ct_eq digest.bytes f.expected_plaintext_digest.bytes = false) :
    exec (receive_to_end P f) s₀ = (.ok .mismatch, s.recv) := by
  have := hj.2
  rwa [hmatch, if_neg Bool.false_ne_true] at this

theorem Judged.complete {s : Arrival} (hj : Judged P f s₀ digest s)
    (hmatch : ¬ ct_eq digest.bytes f.expected_plaintext_digest.bytes = false) :
    exec (receive_to_end P f) s₀ = (.ok .complete, s.recv) ∧
      digest = f.expected_plaintext_digest := by
  have hmatch := eq_true_of_ne_false hmatch
  have := hj.2
  rw [if_pos hmatch] at this
  exact ⟨this, Arr.ext (ct_eq_iff.1 hmatch)⟩

/-- What was removed after a mismatch. -/
theorem meets_discard {g : List FrameDeed → Prop} {r : Halt → List FrameDeed → Arrival → Prop}
    {admitted : Admitted} (hf : OfCall P call a admitted f)
    (hmatch : ct_eq digest.bytes f.expected_plaintext_digest.bytes = false) :
    Meets (fun h s => g h ∧ Judged P f s₀ digest s) (discard a)
      (fun _ h s => g h ∧ Traces P f s₀ s) r := by
  apply Meets.act
  · rintro h s _ s' ⟨hg, hj⟩ hexec
    cases hexec
    refine ⟨hg, traces_of_exec (s := ⟨s.recv, _⟩) (hj.mismatch hmatch) ?_⟩
    show s.removed ++ _ ++ _ <+: removed f.remove_file .remove_file ++
      removed f.remove_record .remove_record
    rw [hj.1, List.nil_append, hf.remove_file, hf.remove_record]
    apply (List.prefix_append_right_inj _).2
    split
    · exact List.prefix_refl _
    · exact List.nil_prefix
  · intro h s e s' _ hexec
    cases hexec

theorem meets_remove_record {g : List FrameDeed → Prop} {admitted : Admitted}
    (hf : OfCall P call a admitted f)
    (hmatch : ¬ ct_eq digest.bytes f.expected_plaintext_digest.bytes = false) :
    Meets (fun h s => g h ∧ Judged P f s₀ digest s) (remove_record a)
      (fun _ h s => g h ∧ exec (receive_to_end P f) s₀ = (.ok .complete, s.recv) ∧
        s.removed <+: f.clean_up (.ok .complete))
      (fun _ h s => g h ∧ Traces P f s₀ s) := by
  have hclean : f.clean_up (.ok .complete) = removed a.remove_record .remove_record := by
    rw [← hf.remove_record]
    rfl
  apply Meets.act
  · rintro h s _ s' ⟨hg, hj⟩ hexec
    simp only [exec] at hexec
    split at hexec
    · rcases hr : a.remove_record with e | _
      · rw [hr] at hexec
        cases hexec
      · rw [hr] at hexec
        cases hexec
        refine ⟨hg, (hj.complete hmatch).1, ?_⟩
        rw [hclean, hr, hj.1]
        exact List.prefix_refl _
    · cases hexec
      refine ⟨hg, (hj.complete hmatch).1, ?_⟩
      rw [hj.1]
      exact List.nil_prefix
  · rintro h s e s' ⟨hg, hj⟩ hexec
    simp only [exec] at hexec
    split at hexec
    · rcases hr : a.remove_record with e | _
      · rw [hr] at hexec
        cases hexec
        exact ⟨hg, traces_of_exec (hj.complete hmatch).1 (hj.1 ▸ List.nil_prefix)⟩
      · rw [hr] at hexec
        cases hexec
    · cases hexec

/-- After the end of the stream: the attempt is complete and told, or it is left as the
attempt leaves it. -/
theorem meets_complete {admitted : Admitted} {g : List FrameDeed → Prop}
    (hf : OfCall P call a admitted f) :
    Meets (fun h s => g h ∧ Looped P f.incoming s₀ f.turns (.ok .done) s)
      (call.complete P a admitted) (fun digest h s => g h ∧ Finished P f s₀ digest s)
      (fun _ h s => g h ∧ Traces P f s₀ s) := by
  unfold complete
  rw [← hf.settle]
  refine .bind (meets_on_recv.on_error ?_) fun _ => ?_
  · rintro e h s ⟨hg, s₁, e', rfl, hl, hsettle, hremoved⟩
    refine ⟨hg, traces_of_exec (to_end_of_settle_error hl.1 hsettle) ?_⟩
    rw [hremoved, hl.2]
    exact List.nil_prefix
  have hctx : admitted.ctx = f.incoming.ctx := by
    rw [hf.incoming]
    rfl
  rw [hctx, ← hf.reread, ← hf.digest, ← hf.transfer_id, ← hf.object_id]
  refine .bind (q := fun digest h s => g h ∧ Judged P f s₀ digest s)
    (meets_on_recv.weaken (fun _ _ hp => hp) ?_ ?_) fun digest => ?_
  · rintro digest h s ⟨hg, s₂, ⟨s₁, hl, hsettle, hremoved⟩, hdigest, hremoved'⟩
    refine ⟨hg, by rw [hremoved', hremoved, hl.2], ?_⟩
    rw [to_end_of_settle hl.1 hsettle, compare_digest_of_ok hdigest]
  · rintro e h s ⟨hg, s₂, e', rfl, ⟨s₁, hl, hsettle, hremoved⟩, hdigest, hremoved'⟩
    have hend := to_end_of_settle hl.1 hsettle
    refine ⟨hg, traces_of_exec (hend.trans (compare_digest_of_error hdigest)) ?_⟩
    rw [hremoved', hremoved, hl.2]
    exact List.nil_prefix
  by_cases hmatch : ct_eq digest.bytes f.expected_plaintext_digest.bytes = false
  · rw [if_pos hmatch]
    exact .bind (meets_discard hf hmatch) fun _ => .failing fun _ _ hp => hp
  · rw [if_neg hmatch]
    refine .bind (meets_remove_record hf hmatch) fun _ => ?_
    refine .bind (q := fun _ h s => g h ∧ Finished P f s₀ digest s) (.act ?_ ?_) fun _ =>
      .returning fun _ _ hp => hp
    · rintro h s _ s' ⟨hg, hend, hremoved⟩ hexec
      cases hexec
      exact ⟨hg, Arr.ext (ct_eq_iff.1 (eq_true_of_ne_false hmatch)), s.recv, hend, rfl, hremoved⟩
    · intro h s e s' _ hexec
      cases hexec

/-- From the loop to the acknowledgement, which is sent for a complete attempt only. -/
theorem meets_receive_object (c₀ c : ControlChannel) (h₀ : List FrameDeed)
    (asked : List (UInt8 × Bytes)) (s₀ : Recv) {admitted : Admitted} (hnames : Names P admitted)
    (route_watch : RouteWatch) (file : Bytes) :
    Meets (fun h s => Went P c₀ h₀ asked c h ∧ s = ⟨s₀, []⟩)
      (call.receive_object P a admitted c)
      (fun x h s => ∃ turns c', Went P c₀ h₀ (asked ++ [(FRAME_COMPLETE, encode_ack 0 x.1)]) c' h ∧
        Finished P (call.full_attempt P a admitted hnames route_watch file turns) s₀ x.1 s)
      (fun _ h s => ∃ turns,
        Within P c₀ h₀ asked h ∧
          Traces P (call.full_attempt P a admitted hnames route_watch file turns) s₀ s ∨
        ∃ digest, Within P c₀ h₀ (asked ++ [(FRAME_COMPLETE, encode_ack 0 digest)]) h ∧
          Finished P (call.full_attempt P a admitted hnames route_watch file turns) s₀ digest
            s) := by
  refine .bind ((meets_receive_chunks c₀ h₀ asked s₀ a.turns c []).weaken ?_
    (fun _ _ _ hq => hq) ?_) fun c' => .of_exists fun turns => ?_
  · rintro h s ⟨hw, rfl⟩
    exact ⟨hw, rfl, rfl⟩
  · rintro e h s ⟨hw, hl⟩
    obtain ⟨turns, ht⟩ := LeftLoop.traces
      (f := call.full_attempt P a admitted hnames route_watch file []) hl
    exact ⟨turns, .inl ⟨hw, ht⟩⟩
  refine .bind ((meets_complete (ofCall_full_attempt hnames route_watch file turns)).on_error ?_)
    fun digest => ?_
  · rintro e h s ⟨hw, ht⟩
    exact ⟨turns, .inl ⟨hw.within (List.prefix_refl _), ht⟩⟩
  refine .bind ((meets_send_frame c₀ c' h₀ asked _ FRAME_COMPLETE
    (encode_ack 0 digest)).on_error ?_) fun c'' => ?_
  · rintro e h s ⟨-, hw, hf⟩
    exact ⟨turns, .inr ⟨digest, hw, hf⟩⟩
  refine .bind (.act (q := fun _ h s => Went P c₀ h₀ (asked ++ [(FRAME_COMPLETE, encode_ack 0
    digest)]) c'' h ∧ Finished P (call.full_attempt P a admitted hnames route_watch file turns) s₀
      digest s) ?_ ?_) fun s' => .returning fun h s hp => ⟨turns, c'', hp⟩
  · intro h s v s' hp hexec
    cases hexec
    exact hp
  · intro h s e s' _ hexec
    cases hexec

end Loop

/-! ## What a call may do -/

variable (P call a) (replay : ReplayCache)

/-- The answer to a ClientHello. -/
def answered (observed_peer : Arr 32) (ch : Bytes) :
    Except HandshakeError Bytes × Responder × ReplayCache :=
  (Responder.new call.identity call.local_endpoint_id).on_client_hello P ch observed_peer replay
    a.hello

/-- What left before the handshake was complete. -/
inductive Greeted : List Bytes → Prop
  | silent : Greeted []
  | hello {observed_peer : Arr 32} {ch sh : Bytes}
      (h : (call.answered P a replay observed_peer ch).1 = .ok sh) :
      Greeted [plain_wire FRAME_SERVER_HELLO sh]
  | finish {observed_peer : Arr 32} {ch sh cf sf : Bytes} {session : SessionKeys}
      (h : (call.answered P a replay observed_peer ch).1 = .ok sh)
      (h' : ((call.answered P a replay observed_peer ch).2.1.on_client_finish P cf).1 =
        .ok (sf, session)) :
      Greeted [plain_wire FRAME_SERVER_HELLO sh, plain_wire FRAME_SERVER_FINISH sf]

/-- The handshake is complete with this session, and nothing else was done. -/
def Agreed (session : SessionKeys) (h : List FrameDeed) : Prop :=
  ∃ (observed_peer : Arr 32) (ch cf : Numbered) (sh sf : Bytes),
    a.accept.result = .ok observed_peer ∧
    (call.answered P a replay observed_peer ch.1.body).1 = .ok sh ∧
    ((call.answered P a replay observed_peer ch.1.body).2.1.on_client_finish P cf.1.body).1 =
      .ok (sf, session) ∧
    h = [.got false (.ok ch), .wrote (plain_wire FRAME_SERVER_HELLO sh),
      .got false (.ok cf), .wrote (plain_wire FRAME_SERVER_FINISH sf)]

def channel (session : SessionKeys) : ControlChannel :=
  .new P session.handshake_prk session.th2 .ServerToClient

/-- Nothing has left in the session, and now an offer was read, opened and admitted. -/
def Offered (session : SessionKeys) (h₀ : List FrameDeed) (admitted : Admitted)
    (h : List FrameDeed) : Prop :=
  ∃ c bytes c', Heard P (channel P session) h₀ [] c ((FRAME_OFFER, bytes), c') h ∧
    admit_offer P call.identity.device_id session a.now bytes = .ok admitted

variable {P} in
theorem Offered.names {session : SessionKeys} {h₀ h : List FrameDeed} {admitted : Admitted}
    (ho : call.Offered P a session h₀ admitted h) : Names P admitted := by
  obtain ⟨c, bytes, c', -, hadmit⟩ := ho
  exact names_of_admits hadmit

/-- What a call works with when it asks for chunks. -/
structure Setting where
  session : SessionKeys
  /-- What was done when the handshake was complete, and when the offer was read. -/
  shaken : List FrameDeed
  offered : List FrameDeed
  admitted : Admitted
  db : Option ResumeDb
  held : ChunkBitmap
  route_watch : RouteWatch
  file : Bytes

variable {P call a replay}

namespace Setting

variable (P call a replay)

/-- This is the setting of the call. -/
structure Holds (x : Setting) : Prop where
  agreed : call.Agreed P a replay x.session x.shaken
  admits : call.Offered P a x.session x.shaken x.admitted x.offered
  record : call.open_record a x.admitted = .ok x.db
  file : a.open_file = .ok x.file
  set_len : a.set_len = .ok ()
  held : held_at_start x.admitted x.db = .ok x.held

/-- The state before the loop. -/
def start (x : Setting) : Recv := .start x.admitted.ctx x.db x.held x.route_watch x.file

variable {P call a replay} in
/-- The attempt with the frames `turns`. -/
def attempt (x : Setting) (hx : x.Holds P call a replay) (turns : List Turn) : FullAttempt :=
  call.full_attempt P a x.admitted hx.admits.names x.route_watch x.file turns

def request (x : Setting) : UInt8 × Bytes :=
  (FRAME_RANGE_REQUEST, (x.admitted.request x.held).encode)

end Setting

/-- The destination was not touched, and nothing was said to be complete. -/
def Untouched (s : Receiving) : Prop := s.opened = none ∧ s.arrival = none ∧ Quiet s.events

variable (P call a replay)

/-- Where a call can be, and what it has done. -/
inductive Reached (h : List FrameDeed) (s : Receiving) : Prop
  | greeting (hg : call.Greeted P a replay (outputs h)) (hs : Untouched s)
  | talking {session : SessionKeys} {h₀ : List FrameDeed} (ha : call.Agreed P a replay session h₀)
      (hw : Within P (channel P session) h₀ [] h) (hs : Untouched s)
  | preparing {session : SessionKeys} {h₀ h₁ : List FrameDeed} {admitted : Admitted}
      (ha : call.Agreed P a replay session h₀) (ho : call.Offered P a session h₀ admitted h₁)
      (hh : h₁ <+: h) (hw : Within P (channel P session) h₀ [] h)
      (hs : s.arrival = none ∧ Quiet s.events)
      (hopened : s.opened = none ∨
        s.opened = some admitted ∧ ∃ db, call.open_record a admitted = .ok db)
  | requesting {x : Setting} (hx : x.Holds P call a replay) (hh : x.offered <+: h)
      (hw : Within P (channel P x.session) x.shaken [x.request] h)
      (hs : s.opened = some x.admitted ∧ s.arrival = none ∧ Quiet s.events)
  | receiving {x : Setting} {arrival : Arrival} {turns : List Turn} (hx : x.Holds P call a replay)
      (hh : x.offered <+: h) (hw : Within P (channel P x.session) x.shaken [x.request] h)
      (hs : s.opened = some x.admitted ∧ s.arrival = some arrival ∧ Quiet s.events)
      (ht : Traces P (x.attempt hx turns) x.start arrival)
  | finished {x : Setting} {arrival : Arrival} {turns : List Turn} {digest : Arr 32}
      (hx : x.Holds P call a replay) (hh : x.offered <+: h)
      (hw : Within P (channel P x.session) x.shaken
        [x.request, (FRAME_COMPLETE, encode_ack 0 digest)] h)
      (hs : s.opened = some x.admitted ∧ s.arrival = some arrival ∧ Quiet s.events)
      (ht : Finished P (x.attempt hx turns) x.start digest arrival)

variable {P call a replay}

/-! ## The parts of a call -/

/-- Before the first message. -/
theorem meets_connect :
    Meets (fun h s => h = [] ∧ s.replay = replay ∧ Untouched s) (call.connect a)
      (fun x h s => a.accept.result = .ok x.1 ∧ h = [] ∧ s.replay = replay ∧ Untouched s)
      (fun _ h s => call.Reached P a replay h s) := by
  have hfails : ∀ {h : List FrameDeed} {s : Receiving},
      h = [] ∧ s.replay = replay ∧ Untouched s → call.Reached P a replay h s := by
    rintro h s ⟨rfl, -, hs⟩
    exact .greeting .silent hs
  refine .bind (meets_fallible fun e h s hp => hfails hp) fun observed_peer =>
    .assuming fun haccept => ?_
  refine .bind (meets_waiting fun h s hp => hfails hp) ?_
  rintro ⟨pushed, admitted⟩
  refine .assuming fun hroute => ?_
  refine .bind (q := fun _ h s => h = [] ∧ s.replay = replay ∧ Untouched s) (.act ?_ ?_) fun _ => ?_
  · rintro h s _ s' ⟨rfl, hreplay, hopened, harrival, hs⟩ hexec
    cases hexec
    exact ⟨rfl, hreplay, hopened, harrival, hs.append (SendCall.quiet_admit_route hroute)⟩
  · intro h s e s' _ hexec
    cases hexec
  refine .bind (meets_fallible fun e h s hp => hfails hp) fun route => .assuming fun _ => ?_
  refine .bind (meets_fallible fun e h s hp => hfails hp) fun _ => .assuming fun _ => ?_
  exact .returning fun h s hp => ⟨haccept, hp⟩

theorem meets_respond {observed_peer : Arr 32} (haccept : a.accept.result = .ok observed_peer) :
    Meets (fun h s => h = [] ∧ s.replay = replay ∧ Untouched s)
      (respond P call.identity call.local_endpoint_id observed_peer a.hello)
      (fun session h s => call.Agreed P a replay session h ∧ Untouched s)
      (fun _ h s => call.Reached P a replay h s) := by
  refine .bind ((meets_expect_plain_frame [] (fun s => s.replay = replay ∧ Untouched s)
    FRAME_CLIENT_HELLO).on_error ?_) fun body => .of_exists fun ch => .assuming fun hch => ?_
  · rintro e h s ⟨-, hout, -, hs⟩
    exact .greeting (hout ▸ .silent) hs
  subst hch
  refine .bind (q := fun s₁ h s => s₁.replay = replay ∧ h = [.got false (.ok ch)] ∧ Untouched s)
    (.act ?_ ?_) fun s₁ => .assuming fun hreplay => ?_
  · rintro h s v s' ⟨rfl, hreplay, hs⟩ hexec
    cases hexec
    exact ⟨hreplay, rfl, hs⟩
  · intro h s e s' _ hexec
    cases hexec
  rw [hreplay]
  refine .bind (q := fun _ h s => h = [.got false (.ok ch)] ∧ Untouched s) (.act ?_ ?_) fun _ => ?_
  · rintro h s _ s' ⟨rfl, hs⟩ hexec
    cases hexec
    exact ⟨rfl, hs⟩
  · intro h s e s' _ hexec
    cases hexec
  refine .bind (meets_fallible ?_) fun sh => .assuming fun hsh => ?_
  · rintro e h s ⟨rfl, hs⟩
    exact .greeting .silent hs
  have hsh : (call.answered P a replay observed_peer ch.1.body).1 = .ok sh := mapError_eq_ok.1 hsh
  refine .bind ((meets_send_plain_frame _ Untouched FRAME_SERVER_HELLO sh).on_error ?_) fun _ => ?_
  · rintro e h s ⟨-, hout | hout, hs⟩
    · exact .greeting (hout ▸ .silent) hs
    · exact .greeting (hout ▸ .hello hsh) hs
  refine .bind ((meets_expect_plain_frame _ Untouched FRAME_CLIENT_FINISH).on_error ?_) fun body =>
    .of_exists fun cf => .assuming fun hcf => ?_
  · rintro e h s ⟨-, hout, hs⟩
    exact .greeting (hout ▸ .hello hsh) hs
  subst hcf
  refine .bind (meets_fallible ?_) ?_
  · rintro e h s ⟨rfl, hs⟩
    exact .greeting (.hello hsh) hs
  rintro ⟨sf, session⟩
  refine .assuming fun hsf => ?_
  have hsf := mapError_eq_ok.1 hsf
  refine .bind ((meets_send_plain_frame _ Untouched FRAME_SERVER_FINISH sf).on_error ?_) fun _ =>
    .returning ?_
  · rintro e h s ⟨-, hout | hout, hs⟩
    · exact .greeting (hout ▸ .hello hsh) hs
    · exact .greeting (hout ▸ .finish hsh hsf) hs
  · rintro h s ⟨rfl, hs⟩
    exact ⟨⟨observed_peer, ch, cf, sh, sf, haccept, hsh, hsf, rfl⟩, hs⟩

section Session

variable {session : SessionKeys} {h₀ h₁ : List FrameDeed} {admitted : Admitted}
  {c : ControlChannel}

/-- The destination is opened for an offer that was admitted. -/
theorem meets_open_destination (ha : call.Agreed P a replay session h₀)
    (ho : call.Offered P a session h₀ admitted h₁)
    (hw : Within P (channel P session) h₀ [] h₁) :
    Meets (fun h s => h = h₁ ∧ Untouched s) (call.open_destination a admitted)
      (fun x h s => (call.open_record a admitted = .ok x.1 ∧ a.open_file = .ok x.2.2 ∧
          a.set_len = .ok () ∧ held_at_start admitted x.1 = .ok x.2.1) ∧
        h = h₁ ∧ s.opened = some admitted ∧ s.arrival = none ∧ Quiet s.events)
      (fun _ h s => call.Reached P a replay h s) := by
  have hfails : ∀ {h : List FrameDeed} {s : Receiving}, h = h₁ → s.arrival = none →
      Quiet s.events → (s.opened = none ∨
        s.opened = some admitted ∧ ∃ db, call.open_record a admitted = .ok db) →
      call.Reached P a replay h s := by
    rintro h s rfl harrival hs hopened
    exact .preparing ha ho (List.prefix_refl _) hw ⟨harrival, hs⟩ hopened
  have hclosed : ∀ {h : List FrameDeed} {s : Receiving}, h = h₁ ∧ Untouched s →
      call.Reached P a replay h s := by
    rintro h s ⟨hh, hopened, harrival, hs⟩
    exact hfails hh harrival hs (.inl hopened)
  refine .bind (meets_fallible fun e h s hp => hclosed hp) fun db => .assuming fun hdb => ?_
  refine .bind (meets_fallible fun e h s hp => hclosed hp) fun file => .assuming fun hfile => ?_
  refine .bind (q := fun _ h s =>
      h = h₁ ∧ s.opened = some admitted ∧ s.arrival = none ∧ Quiet s.events)
    (.act ?_ ?_) fun _ => ?_
  · rintro h s _ s' ⟨hh, hs⟩ hexec
    cases hexec
    exact ⟨hh, rfl, hs.2⟩
  · intro h s e s' _ hexec
    cases hexec
  refine .bind (meets_fallible ?_) fun _ => .assuming fun hlen => ?_
  · exact fun e h s hp => hfails hp.1 hp.2.2.1 hp.2.2.2 (.inr ⟨hp.2.1, db, hdb⟩)
  refine .bind (meets_fallible ?_) fun held => .assuming fun hheld => ?_
  · exact fun e h s hp => hfails hp.1 hp.2.2.1 hp.2.2.2 (.inr ⟨hp.2.1, db, hdb⟩)
  exact .returning fun h s hp =>
    ⟨⟨hdb, mapError_eq_ok.1 hfile, mapError_eq_ok.1 hlen, hheld⟩, hp⟩

end Session

/-- The call has returned this report. -/
def Returned (P : Primitives) (call : ReceiveCall) (a : ReceiveAnswers) (replay : ReplayCache)
    (report : TransferReport) (h : List FrameDeed) (s : Receiving) : Prop :=
  ∃ (x : Setting) (hx : x.Holds P call a replay) (turns : List Turn) (digest : Arr 32)
    (c : ControlChannel) (arrival : Arrival), x.offered <+: h ∧
    Went P (channel P x.session) x.shaken [x.request, (FRAME_COMPLETE, encode_ack 0 digest)] c h ∧
    s.opened = some x.admitted ∧ s.arrival = some arrival ∧ Quiet s.events ∧
    Finished P (x.attempt hx turns) x.start digest arrival ∧
    ∃ count route, report = ReceiveCall.report x.session x.admitted digest count route

theorem meets_receive_file :
    Meets (fun h s => h = [] ∧ s.replay = replay ∧ Untouched s) (call.receive_file P a)
      (call.Returned P a replay) (fun _ h s => call.Reached P a replay h s) := by
  refine .bind meets_connect ?_
  rintro ⟨observed_peer, route_watch⟩
  refine .assuming fun haccept => ?_
  refine .bind (meets_respond haccept) fun session => .from_here fun h₀ ha => ?_
  refine .bind ((meets_expect_frame (channel P session) _ h₀ [] Untouched FRAME_OFFER).weaken ?_
    (fun _ _ _ hq => hq) ?_) ?_
  · rintro h s ⟨rfl, hs⟩
    exact ⟨.start, hs⟩
  · rintro e h s ⟨-, hw, hs⟩
    exact .talking ha hw hs
  rintro ⟨bytes, c⟩
  refine .bind (meets_fallible ?_) fun admitted =>
    .assuming fun hadmit => .from_here fun h₁ hh => ?_
  · rintro e h s ⟨hh, hs⟩
    exact .talking ha (hh.went.within (List.prefix_refl _)) hs
  have ho : call.Offered P a session h₀ admitted h₁ := ⟨_, bytes, c, hh, hadmit⟩
  refine .bind (meets_open_destination ha ho (hh.went.within (List.prefix_refl _))) ?_
  rintro ⟨db, held, file⟩
  refine .assuming fun hopen => ?_
  let x : Setting := ⟨session, h₀, h₁, admitted, db, held, route_watch, file⟩
  have hx : x.Holds P call a replay := ⟨ha, ho, hopen.1, hopen.2.1, hopen.2.2.1, hopen.2.2.2⟩
  refine .bind (((meets_send_frame (channel P session) c h₀ []
    (fun s => s.opened = some admitted ∧ s.arrival = none ∧ Quiet s.events) FRAME_RANGE_REQUEST
    (admitted.request held).encode).extending h₁).weaken ?_ (fun _ _ _ hq => hq) ?_) fun c' => ?_
  · rintro h s ⟨rfl, hs⟩
    exact ⟨⟨hh.went, hs⟩, List.prefix_refl _⟩
  · rintro e h s ⟨⟨-, hw, hs⟩, hp⟩
    exact .requesting hx hp hw hs
  refine .bind (q := fun y h s => ∃ turns c'' arrival, h₁ <+: h ∧
      Went P (channel P session) h₀ [x.request, (FRAME_COMPLETE, encode_ack 0 y.1)] c'' h ∧
      s.opened = some admitted ∧ s.arrival = some arrival ∧ Quiet s.events ∧
      Finished P (x.attempt hx turns) x.start y.1 arrival)
    (.within (k := fun s => s.opened = some admitted ∧ Quiet s.events) ?_
      ((meets_receive_object (channel P session) c' h₀ [x.request] x.start hx.admits.names
        route_watch file).extending
        h₁) ?_ ?_) ?_
  · rintro h s ⟨⟨hw, hopened, -, hs⟩, hp⟩
    exact ⟨⟨hopened, hs⟩, ⟨hw, rfl⟩, hp⟩
  · rintro y h arrival s ⟨hopened, hs⟩ ⟨⟨turns, c'', hw, hf⟩, hp⟩
    exact ⟨turns, c'', arrival, hp, hw, hopened, rfl, hs, hf⟩
  · rintro e h arrival s ⟨hopened, hs⟩ ⟨⟨turns, ⟨hw, ht⟩ | ⟨digest, hw, hf⟩⟩, hp⟩
    · exact .receiving hx hp hw ⟨hopened, rfl, hs⟩ ht
    · exact .finished hx hp hw ⟨hopened, rfl, hs⟩ hf
  rintro ⟨digest, count, route⟩
  refine .returning ?_
  rintro h s ⟨turns, c'', arrival, hp, hw, hopened, harrival, hs, hf⟩
  exact ⟨x, hx, turns, digest, c'', arrival, hp, hw, hopened, harrival, hs, hf, count, route, rfl⟩

end ReceiveCall

end rtp2_core.transfer
