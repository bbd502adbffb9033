-- What holds of every call, whatever the other side and the network do: what leaves the
-- sender and when it claims delivery, and what the receiver leaves behind.
import Reyta.HonestSession
import Reyta.ReceiverRuns
import Reyta.SenderRuns
import Reyta.StreamingDigest

open byte_string early_exit stream_party

namespace rtp2_core.transfer

open control (ControlChannel)
open bitmap crypto events handshake identity keys object offer resume route scheduler Session

instance : Inhabited TransferError := ⟨finished_early⟩

/-- The two calls that meet over one byte, and what each of them does. -/
theorem Meeting.exists_runs : ∃ (m : Meeting) (sig_a sig_b : HybridSignature)
    (script : List (Line UInt8)) (report : TransferReport) (events : List Event)
    (report' : TransferReport) (s : Receiving) (ds ds' : List FrameDeed),
    m.Calm sample [7] ∧ (∃ pending, m = Meeting.oneByte pending) ∧ m.pair.Sound sample sig_a sig_b ∧
    handshake_script sample m.pair sig_a sig_b <+: script ∧
    Ends (m.send.send_pending sample m.sent) [] ds (.ok report) events ∧
    Ends (m.receive.receive_file sample m.received) (.start m.replay) ds'
      (.ok report') s ∧
    Enacts frames script ds ∧ Enacts frames (script.map Line.dual) ds' := by
  obtain ⟨pending, hcalm⟩ := Meeting.exists_oneByte
  obtain ⟨sig_a, sig_b, script, report, events, route, s, arrival, hpair, hscript, hsend, hreceive,
    -⟩ := hcalm.exists_plays sample_encrypts sample_decrypts DeviceIdentity.sample_verifies
      sample_exchanges sample_decapsulates
  obtain ⟨ds, hds, henacts⟩ := hsend.does
  obtain ⟨ds', hds', henacts'⟩ := hreceive.does
  exact ⟨_, sig_a, sig_b, script, report, events, _, s, ds, ds', hcalm, ⟨pending, rfl⟩, hpair,
    hscript, hds, hds', henacts, henacts'⟩

namespace SendCall

variable {P : Primitives} {call : SendCall} {a : SendAnswers}

theorem returned_of_ends (hg : call.pending.ctx.Geometry) {ds : List FrameDeed}
    {report : TransferReport} {s : List Event}
    (h : Ends (call.send_pending P a) [] ds (.ok report) s) : call.Returned P a report ds s :=
  (meets_send_pending (P := P) hg [] [] ds s ⟨rfl, nofun⟩).1 report h

theorem reached_of_ends (hg : call.pending.ctx.Geometry) {ds : List FrameDeed}
    {r : Except Halt TransferReport} {s : List Event}
    (h : Ends (call.send_pending P a) [] ds r s) : call.Reached P a ds := by
  rcases r with e | report
  · exact ((meets_send_pending (P := P) hg [] [] ds s ⟨rfl, nofun⟩).2 e h).2.1
  · exact (returned_of_ends hg h).reached

theorem Greeted.length_le {outs : List Bytes} (h : call.Greeted P a outs) : outs.length ≤ 2 := by
  cases h <;> simp

/-- More than the handshake has left when delivery is confirmed. -/
theorem Confirmed.length_outputs {session : SessionKeys} {h₀ ds : List FrameDeed}
    {offer : TransferOffer} {request : RangeRequest}
    (hc : call.Confirmed P a session h₀ offer request ds) (ha : call.Agreed P a session h₀) :
    2 < (outputs ds).length := by
  obtain ⟨h₁, plan, c, c', -, hended, hheard⟩ := hc
  obtain ⟨sh, sf, cf, -, -, rfl⟩ := ha
  obtain ⟨-, -, records, -, -, rfl⟩ := hended
  have hlen := hheard.went.length_outputs
  have hshaken : (outputs ([.wrote (call.hello_frame P a), .got false (.ok sh),
    .wrote (plain_wire FRAME_CLIENT_FINISH cf), .got false (.ok sf)] : List FrameDeed)).length =
      2 := rfl
  rw [hshaken, List.length_append, List.length_singleton] at hlen
  omega

/-- At every moment of a call, whatever the other side sends and however the streams fail:
in the clear only the two messages of the handshake have left. All that left afterwards is
sealed in the session with the dialled endpoint, no two frames are at one position, and
they are the offer, the records of the chunks that a request named, in its order, and then
the end of the stream. -/
theorem what_leaves_is_the_handshake_and_what_was_asked_for
    {secrets : FileSecrets} {metadata : Except String UInt64} {source : File} {size : UInt32}
    (hprepare : PendingTransfer.prepare P secrets metadata source size = .ok call.pending)
    {ds : List FrameDeed} {q : Party UInt8 Bool TransferError Numbered
      (Except Halt TransferReport × List Event)}
    (h : Does (run (call.send_pending P a) []) ds q) :
    call.Greeted P a (outputs ds) ∨
    ∃ session h₀ fs, call.Agreed P a session h₀ ∧ session.peer_endpoint_id = call.peer ∧
      SealedSince P session.handshake_prk session.th2 .ClientToServer h₀ ds fs ∧
      call.Released P a session h₀ ds (fs.map Sent.asked) := by
  have hg := (PendingTransfer.prepare.spec P hprepare).geometry
  obtain ⟨ds', ⟨r, s⟩, hends⟩ := h.ends
  have hreached := Reached.of_prefix (reached_of_ends hg hends) (List.prefix_append ds ds')
  cases hreached with
  | greeting hg => exact .inl hg
  | talking ha hw hr =>
    obtain ⟨fs, hsealed, rfl⟩ := hw.sealed
    exact .inr ⟨_, _, fs, ha, ha.peer, hsealed, hr⟩

theorem a_call_for_one_byte_seals_what_was_asked_for :
    ∃ (call : SendCall) (a : SendAnswers) (ds : List FrameDeed) (report : TransferReport)
      (events : List Event),
      Ends (call.send_pending sample a) [] ds (.ok report) events ∧
      ∃ session h₀ fs, call.Agreed sample a session h₀ ∧
        SealedSince sample session.handshake_prk session.th2 .ClientToServer h₀ ds fs ∧
        call.Released sample a session h₀ ds (fs.map Sent.asked) := by
  obtain ⟨m, -, -, -, report, events, -, -, ds, -, hcalm, -, -, -, hends, -, -⟩ :=
    Meeting.exists_runs
  obtain ⟨secrets, size, hprepare⟩ := hcalm.prepared
  refine ⟨m.send, m.sent, ds, report, events, hends, ?_⟩
  rcases what_leaves_is_the_handshake_and_what_was_asked_for hprepare hends with
    hgreeted | ⟨session, h₀, fs, ha, -, hsealed, hr⟩
  · have hg := (PendingTransfer.prepare.spec sample hprepare).geometry
    obtain ⟨session, h₀, offer, request, -, -, ha, hc, -⟩ := returned_of_ends hg hends
    exact absurd hgreeted.length_le (Nat.not_le.2 (hc.length_outputs ha))
  · exact ⟨session, h₀, fs, ha, hsealed, hr⟩

/-- Whatever the other side sends, a call does not panic. It tells that the transfer is
complete exactly if it returns a report, and it returns one only when every record that was
asked for and the end of the stream were sent and then an acknowledgement was opened in the
session that names the digest of the file. -/
theorem delivery_is_claimed_only_for_an_acknowledged_digest
    {secrets : FileSecrets} {metadata : Except String UInt64} {source : File} {size : UInt32}
    (hprepare : PendingTransfer.prepare P secrets metadata source size = .ok call.pending)
    {ds : List FrameDeed} {r : Except Halt TransferReport} {s : List Event}
    (h : Ends (call.send_pending P a) [] ds r s) :
    r ≠ .error .Panic ∧ ((∃ e ∈ s, e.Completes) ↔ ∃ report, r = .ok report) ∧
    ∀ report, r = .ok report → ∃ session h₀ offer request,
      call.Agreed P a session h₀ ∧ call.Confirmed P a session h₀ offer request ds ∧
      report.peer_endpoint_id = call.peer ∧
      report.plaintext_digest = call.pending.plaintext_digest ∧
      report.chunks_transferred = request.chunk_total := by
  have hg := (PendingTransfer.prepare.spec P hprepare).geometry
  obtain ⟨hok, herror⟩ := meets_send_pending (P := P) hg [] [] ds s ⟨rfl, nofun⟩
  rcases r with e | report
  · obtain ⟨hpanic, -, hquiet⟩ := herror e h
    refine ⟨fun he => hpanic (Except.error.inj he), ?_, nofun⟩
    constructor
    · rintro ⟨ev, hev, hc⟩
      exact absurd hc (hquiet ev hev)
    · exact nofun
  · obtain ⟨session, h₀, offer, request, route, quiet, ha, hc, rfl, hquiet, rfl⟩ := hok report h
    refine ⟨nofun, ?_, ?_⟩
    · refine ⟨fun _ => ⟨_, rfl⟩, fun _ => ?_⟩
      exact ⟨_, List.mem_append_right _ List.mem_cons_self, trivial⟩
    · rintro report' hr
      cases hr
      exact ⟨session, h₀, offer, request, ha, hc, ha.peer, rfl, rfl⟩

theorem one_byte_is_delivered_only_with_an_acknowledgement :
    ∃ (call : SendCall) (a : SendAnswers) (ds : List FrameDeed) (report : TransferReport)
      (events : List Event), Ends (call.send_pending sample a) [] ds (.ok report) events ∧
      (∃ e ∈ events, e.Completes) ∧ ∃ session h₀ offer request,
        call.Agreed sample a session h₀ ∧
        call.Confirmed sample a session h₀ offer request ds := by
  obtain ⟨m, -, -, -, report, events, -, -, ds, -, hcalm, -, -, -, hends, -, -⟩ :=
    Meeting.exists_runs
  obtain ⟨secrets, size, hprepare⟩ := hcalm.prepared
  obtain ⟨-, htold, hok⟩ :=
    delivery_is_claimed_only_for_an_acknowledged_digest hprepare hends
  obtain ⟨session, h₀, offer, request, ha, hc, -⟩ := hok report rfl
  exact ⟨m.send, m.sent, ds, report, events, hends, htold.2 ⟨report, rfl⟩, session, h₀, offer,
    request, ha, hc⟩

end SendCall

/-! ## The receiver -/

/-- Nothing was said to be complete in the loop. -/
def Recv.Untold (s : Recv) : Prop := transfer.Quiet s.events

section Events

variable {P : Primitives} {t : Incoming} {ctx : ObjectContext} {a : Answers} {index : UInt64}
  {p : Bytes} {s : Recv}

theorem persist_quiet (hs : s.Untold) : (exec (persist ctx a index p) s).2.Untold := by
  refine Spec.always_iff.1 (Spec.bind (q := fun _ => Recv.Untold) ?write fun _ =>
    Spec.bind (q := fun _ => Recv.Untold) ?mark fun _ => ?held) s hs
  case write =>
    refine Spec.always_iff.2 fun s hs => ?_
    unfold exec write_chunk
    split <;> exact hs
  case mark =>
    refine Spec.always_iff.2 fun s hs => ?_
    unfold exec mark_verified
    split
    · exact hs
    · split <;> exact hs
  case held =>
    refine Spec.always_iff.2 fun s hs => ?_
    unfold exec set_held
    split <;> exact hs

theorem accept_quiet : Spec Recv.Untold (accept ctx a index p)
    (fun _ => Recv.Untold) (fun _ => Recv.Untold) := by
  refine Spec.bind (q := fun _ => Recv.Untold) (Spec.always_iff.2 fun s => persist_quiet)
    fun _ => Spec.bind (q := fun _ => Recv.Untold) ?poll fun _ =>
    Spec.bind (q := fun _ => Recv.Untold) ?digest fun _ =>
    Spec.bind (q := fun _ => Recv.Untold) ?progress fun _ => ?written
  case poll => exact Spec.always_iff.2 fun s hs => Quiet.append hs (SendCall.quiet_poll_with
    s.route_watch ctx.transfer_id a.now a.route)
  case digest => exact Spec.always_iff.2 fun s hs => hs
  case progress => exact Spec.always_iff.2 fun s hs => Quiet.append hs (quiet_singleton id)
  case written =>
    refine Spec.always_iff.2 fun s hs => ?_
    rcases chunk_written_exec index a s with ⟨-, he⟩ | ⟨db, db', effects, result, -, -, he⟩
    · rw [he]
      exact hs
    · rw [he]
      exact hs

theorem sync_all_quiet (outcome : Except String Unit) (hs : s.Untold) :
    (exec (sync_all outcome) s).2.Untold := by
  unfold exec sync_all
  split <;> exact hs

theorem keep_progress_quiet (att : Attempt) (hs : s.Untold) :
    (exec (keep_progress att) s).2.Untold := by
  unfold keep_progress
  rw [exec]
  split
  · exact hs
  · refine (Spec.always_iff (p := Recv.Untold)).1 ?_ s hs
    refine Spec.bind (q := fun _ => Recv.Untold) ?sync fun _ =>
      Spec.bind (q := fun _ => Recv.Untold) ?commit fun _ => ?result
    case sync => exact Spec.always_iff.2 fun s hs => sync_all_quiet _ hs
    case commit => exact Spec.always_iff.2 fun s hs => hs
    case result => exact Spec.always_iff.2 fun s hs => hs

/-- An attempt tells of nothing complete by itself. -/
theorem receive_to_end_quiet (f : FullAttempt) (hs : s.Untold) :
    (exec (receive_to_end P f) s).2.Untold := by
  rw [receive_to_end_state]
  refine receive_always (fun (_ : Recv) (hs : Recv.Untold _) => hs) (fun u => ?_)
    (fun s hs => sync_all_quiet _ hs) (fun s hs => keep_progress_quiet _ hs) hs
  apply turn_spec (fun _ _ hs => hs)
  rintro s index p hs -
  exact accept_quiet.weaken (by rintro s' rfl; exact hs) (fun _ _ h => h) (fun _ _ h => h)

end Events

/-- What a call tells, in its order. -/
def Receiving.told (s : Receiving) : List Event :=
  s.events ++ s.arrival.elim [] fun arrival => arrival.recv.events

namespace ReceiveCall

variable {P : Primitives} {call : ReceiveCall} {a : ReceiveAnswers} {replay : ReplayCache}

theorem Returned.reached {report : TransferReport} {ds : List FrameDeed} {s : Receiving}
    (h : call.Returned P a replay report ds s) : call.Reached P a replay ds s := by
  obtain ⟨x, hx, turns, digest, c, arrival, hh, hw, hopened, harrival, hs, hf, -⟩ := h
  exact .finished hx hh (hw.within (List.prefix_refl _)) ⟨hopened, harrival, hs⟩ hf

theorem returned_of_ends {ds : List FrameDeed} {report : TransferReport} {s : Receiving}
    (h : Ends (call.receive_file P a) (.start replay) ds (.ok report) s) :
    call.Returned P a replay report ds s :=
  (meets_receive_file [] _ ds s ⟨rfl, rfl, rfl, rfl, fun _ he => by cases he⟩).1 report h

theorem reached_of_ends {ds : List FrameDeed} {r : Except Halt TransferReport} {s : Receiving}
    (h : Ends (call.receive_file P a) (.start replay) ds r s) :
    call.Reached P a replay ds s := by
  rcases r with e | report
  · exact (meets_receive_file [] _ ds s ⟨rfl, rfl, rfl, rfl, fun _ he => by cases he⟩).2 e h
  · exact (returned_of_ends h).reached

theorem settle_eq_ok {f : Attempt} {s s' : Recv} (h : exec (settle f) s = (.ok (), s')) :
    s.held.is_complete = true ∧ s' = { s with effects := s.effects ++ [.sync] } := by
  change exec (if s.held.is_complete then sync_all f.sync_all else _) s = _ at h
  by_cases hcomplete : s.held.is_complete = true
  · refine ⟨hcomplete, ?_⟩
    rw [if_pos hcomplete] at h
    unfold exec sync_all at h
    split at h <;> cases h
    rfl
  · rw [if_neg hcomplete, exec_bind] at h
    split at h <;> cases h

/-- The file need not be read again if every chunk came in order. -/
theorem plaintext_digest_reread {ctx : ObjectContext} {reread : Except String Unit}
    {digest : Arr 32} {s s' : Recv}
    (h : exec (plaintext_digest P ctx reread) s = (.ok digest, s')) :
    exec (plaintext_digest P ctx (.ok ())) s = (.ok digest, s') := by
  simp only [exec, plaintext_digest] at h ⊢
  split at h
  · exact h
  · split at h
    · cases h
    · exact h

/-- A complete attempt: the stream ended with all chunks there, the file was synced, and
the digest matches. -/
theorem receive_to_end_eq_complete {f : FullAttempt} {s₀ s : Recv}
    (h : exec (receive_to_end P f) s₀ = (.ok .complete, s)) :
    ∃ s₁, exec (receive_loop P f.incoming f.turns) s₀ = (.ok .done, s₁) ∧
      s₁.held.is_complete = true ∧ s = { s₁ with effects := s₁.effects ++ [.sync] } ∧
      exec (plaintext_digest P f.incoming.ctx (.ok ())) s =
        (.ok f.expected_plaintext_digest, s) := by
  rcases hloop : exec (receive_loop P f.incoming f.turns) s₀ with ⟨e | flow, s₁⟩
  · unfold receive_to_end at h
    rw [exec_bind, hloop] at h
    cases h
  cases flow with
  | next =>
    unfold receive_to_end at h
    rw [exec_bind, hloop] at h
    cases h
  | done =>
    rcases hsettle : exec (settle f.toAttempt) s₁ with ⟨e | _, s₂⟩
    · rw [to_end_of_settle_error hloop hsettle] at h
      cases h
    obtain ⟨hcomplete, rfl⟩ := settle_eq_ok hsettle
    rw [to_end_of_settle hloop hsettle] at h
    rcases hdigest : exec (plaintext_digest P f.incoming.ctx f.reread)
      { s₁ with effects := s₁.effects ++ [.sync] } with ⟨e | digest, s₂⟩
    · rw [compare_digest_of_error hdigest] at h
      cases h
    obtain rfl := plaintext_digest_state hdigest
    rw [compare_digest_of_ok hdigest] at h
    split at h
    · next hmatch =>
      cases h
      have hread := plaintext_digest_reread hdigest
      rw [Arr.ext (ct_eq_iff.1 hmatch)] at hread
      exact ⟨s₁, rfl, hcomplete, rfl, hread⟩
    · cases h

section Setting

variable {x : Setting} (hx : x.Holds P call a replay)
include hx

theorem Setting.Holds.geometry : x.admitted.ctx.Geometry := by
  obtain ⟨c, bytes, c', -, hadmit⟩ := hx.admits
  obtain ⟨chunk_size, -, hfile, -⟩ := rebuild_context_eq_ok.1 (admit_offer.spec.1 hadmit).ctx
  exact ObjectContext.for_file_geometry hfile

/-- The record that is adopted, and the chunks that are held, are for the object. -/
theorem Setting.Holds.counts : x.held.chunk_count = x.admitted.ctx.chunk_count ∧
    ∀ d ∈ x.db, d.record.identity.chunk_count = x.admitted.ctx.chunk_count := by
  obtain ⟨db, held, hdb, hheld, hcount, hdbs, -⟩ := exists_open_record call a hx.geometry
  obtain rfl := Except.ok.inj (hdb.symm.trans hx.record)
  obtain rfl := Except.ok.inj (hheld.symm.trans hx.held)
  exact ⟨hcount, hdbs⟩

end Setting

/-- The file is complete and synced, and is what was announced. -/
structure Intact (P : Primitives) (admitted : Admitted) (digest : Arr 32) (recv : Recv) : Prop where
  announced : digest = admitted.disclosed.plaintext_digest
  complete : recv.held.is_complete = true
  length : recv.file.length = admitted.ctx.encoded_plaintext_size.toNat
  digest : P.blake3 recv.file = digest
  synced : ∃ effects, recv.effects = effects ++ [.sync]

theorem Finished.intact {x : Setting} (hx : x.Holds P call a replay) {turns : List Turn}
    {digest : Arr 32} {arrival : Arrival}
    (h : Finished P (x.attempt hx turns) x.start digest arrival) :
    Intact P x.admitted digest arrival.recv := by
  obtain ⟨hdigest, s₁, hexec, hrecv, -⟩ := h
  obtain ⟨s₂, hloop, hcomplete, rfl, hread⟩ := receive_to_end_eq_complete hexec
  have hg : (x.attempt hx turns).incoming.ctx.Geometry := hx.geometry
  have hfilled := loop_fills (start_filled hg hx.counts.1 hx.counts.2) hg hloop
  have hsynced : Recv.Filled (x.attempt hx turns).incoming.ctx x.held
      (file_region.set_len 0 x.file x.admitted.ctx.logical_plaintext_size.toNat)
      ([] ++ taken P (x.attempt hx turns).incoming (x.attempt hx turns).turns x.start)
      { s₂ with effects := s₂.effects ++ [.sync] } :=
    ⟨⟨hfilled.shape.file_len, hfilled.shape.held_count, hfilled.shape.db_count⟩, hfilled.has,
      hfilled.kept, hfilled.taken, hfilled.streaming⟩
  have hdigest' : P.blake3 s₂.file = digest :=
    hdigest ▸ Except.ok.inj (congrArg Prod.fst ((hsynced.plaintext_digest hg).symm.trans hread))
  rw [hrecv]
  exact ⟨hdigest, hcomplete, hfilled.shape.file_len, hdigest', _, rfl⟩

/-- What the receiver has given to the channel of the session, and what it has done before. -/
inductive Replied (P : Primitives) (call : ReceiveCall) (a : ReceiveAnswers) (replay : ReplayCache)
    (ds : List FrameDeed) (s : Receiving) :
    SessionKeys → List FrameDeed → List (UInt8 × Bytes) → Prop
  | nothing {session : SessionKeys} {h₀ : List FrameDeed} (hs : ∀ admitted,
      s.opened = some admitted → ∃ h₁, call.Offered P a session h₀ admitted h₁ ∧ h₁ <+: ds) :
      Replied P call a replay ds s session h₀ []
  | requested {x : Setting} (hx : x.Holds P call a replay) (hh : x.offered <+: ds) :
      Replied P call a replay ds s x.session x.shaken [x.request]
  | acknowledged {x : Setting} {digest : Arr 32} {arrival : Arrival}
      (hx : x.Holds P call a replay) (hh : x.offered <+: ds) (hs : s.arrival = some arrival)
      (hi : Intact P x.admitted digest arrival.recv) :
      Replied P call a replay ds s x.session x.shaken
        [x.request, (FRAME_COMPLETE, encode_ack 0 digest)]

variable {ds : List FrameDeed} {s : Receiving} {x : Setting} {asked : List (UInt8 × Bytes)}

/-- At most the request. -/
theorem Replied.of_request (hx : x.Holds P call a replay) (hh : x.offered <+: ds)
    (hopened : s.opened = some x.admitted) (hp : asked <+: [x.request]) :
    Replied P call a replay ds s x.session x.shaken asked := by
  rcases List.prefix_cons_iff.1 hp with rfl | ⟨t, rfl, ht⟩
  · refine .nothing fun admitted ho => ?_
    obtain rfl := Option.some.inj (hopened.symm.trans ho)
    exact ⟨x.offered, hx.admits, hh⟩
  · obtain rfl := List.prefix_nil.1 ht
    exact .requested hx hh

theorem Replied.of_acknowledgement {digest : Arr 32} {arrival : Arrival}
    (hx : x.Holds P call a replay) (hh : x.offered <+: ds)
    (hopened : s.opened = some x.admitted) (hs : s.arrival = some arrival)
    (hi : Intact P x.admitted digest arrival.recv)
    (hp : asked <+: [x.request, (FRAME_COMPLETE, encode_ack 0 digest)]) :
    Replied P call a replay ds s x.session x.shaken asked := by
  rcases List.prefix_cons_iff.1 hp with rfl | ⟨t, rfl, ht⟩
  · exact .of_request hx hh hopened List.nil_prefix
  rcases List.prefix_cons_iff.1 ht with rfl | ⟨t', rfl, ht'⟩
  · exact .of_request hx hh hopened (List.prefix_refl _)
  · obtain rfl := List.prefix_nil.1 ht'
    exact .acknowledged hx hh hs hi

/-- Whatever the other side sends and however the streams and the files fail: before the
handshake is complete only its two answers have left, and the destination was not touched.
All that leaves afterwards is sealed in the session, no two frames at one position. The
destination is opened for an offer that was admitted, then one request leaves, and the
acknowledgement only when the file is complete, synced and as announced. -/
theorem what_leaves_is_the_answer_one_request_and_an_earned_acknowledgement
    {r : Except Halt TransferReport}
    (h : Ends (call.receive_file P a) (.start replay) ds r s) :
    call.Greeted P a replay (outputs ds) ∧ Untouched s ∨
    ∃ session h₀ fs, call.Agreed P a replay session h₀ ∧
      SealedSince P session.handshake_prk session.th2 .ServerToClient h₀ ds fs ∧
      Replied P call a replay ds s session h₀ (fs.map Sent.asked) := by
  cases reached_of_ends h with
  | greeting hg hs => exact .inl ⟨hg, hs⟩
  | talking ha hw hs =>
    obtain ⟨fs, hsealed, hp⟩ := hw.sealed
    refine .inr ⟨_, _, fs, ha, hsealed, ?_⟩
    rw [List.prefix_nil.1 hp]
    exact .nothing fun admitted ho => absurd (hs.1.symm.trans ho) nofun
  | preparing ha ho hh hw hs hopened =>
    obtain ⟨fs, hsealed, hp⟩ := hw.sealed
    refine .inr ⟨_, _, fs, ha, hsealed, ?_⟩
    rw [List.prefix_nil.1 hp]
    refine .nothing fun admitted' ho' => ?_
    rcases hopened with hnone | ⟨hsome, -⟩
    · exact absurd (hnone.symm.trans ho') nofun
    · obtain rfl := Option.some.inj (hsome.symm.trans ho')
      exact ⟨_, ho, hh⟩
  | requesting hx hh hw hs =>
    obtain ⟨fs, hsealed, hp⟩ := hw.sealed
    exact .inr ⟨_, _, fs, hx.agreed, hsealed, .of_request hx hh hs.1 hp⟩
  | receiving hx hh hw hs ht =>
    obtain ⟨fs, hsealed, hp⟩ := hw.sealed
    exact .inr ⟨_, _, fs, hx.agreed, hsealed, .of_request hx hh hs.1 hp⟩
  | finished hx hh hw hs ht =>
    obtain ⟨fs, hsealed, hp⟩ := hw.sealed
    exact .inr ⟨_, _, fs, hx.agreed, hsealed, .of_acknowledgement hx hh hs.1 hs.2.1 ht.intact hp⟩

theorem a_call_for_one_byte_replies_in_its_session : ∃ (call : ReceiveCall) (a : ReceiveAnswers)
    (replay : ReplayCache) (ds : List FrameDeed) (report : TransferReport) (s : Receiving),
    Ends (call.receive_file sample a) (.start replay) ds (.ok report) s ∧
    ∃ session h₀ fs, call.Agreed sample a replay session h₀ ∧
      SealedSince sample session.handshake_prk session.th2 .ServerToClient h₀ ds fs ∧
      Replied sample call a replay ds s session h₀ (fs.map Sent.asked) := by
  obtain ⟨m, -, -, -, -, -, report, s, -, ds, -, -, -, -, -, hends, -, -⟩ := Meeting.exists_runs
  refine ⟨m.receive, m.received, m.replay, ds, report, s, hends, ?_⟩
  rcases what_leaves_is_the_answer_one_request_and_an_earned_acknowledgement hends with
    ⟨-, hs⟩ | hreplied
  · obtain ⟨x, -, -, -, -, -, -, -, hopened, -⟩ := returned_of_ends hends
    exact absurd (hs.1.symm.trans hopened) nofun
  · exact hreplied

theorem told_of_none (harrival : s.arrival = none) (hs : Quiet s.events) : Quiet s.told := by
  unfold Receiving.told
  rw [harrival]
  exact hs.append nofun

theorem start_untold (x : Setting) : x.start.Untold :=
  quiet_singleton id

theorem Traces.told {hx : x.Holds P call a replay} {turns : List Turn} {arrival : Arrival}
    (ht : Traces P (x.attempt hx turns) x.start arrival) (harrival : s.arrival = some arrival)
    (hs : Quiet s.events) : Quiet s.told := by
  unfold Receiving.told
  rw [harrival]
  refine hs.append ?_
  rw [Option.elim_some, ht.1]
  exact receive_to_end_quiet _ (start_untold x)

theorem Finished.told {hx : x.Holds P call a replay} {turns : List Turn} {digest : Arr 32}
    {arrival : Arrival} (hf : Finished P (x.attempt hx turns) x.start digest arrival)
    (harrival : s.arrival = some arrival) (hs : Quiet s.events) :
    ∃ quiet, Quiet quiet ∧ s.told = quiet ++ completed x.admitted.opened.secrets.transfer_id
      x.admitted.opened.secrets.object_id digest := by
  obtain ⟨-, s₁, hexec, hrecv, -⟩ := hf
  have huntold : s₁.Untold := by
    have := receive_to_end_quiet (P := P) (x.attempt hx turns) (start_untold x)
    rwa [hexec] at this
  refine ⟨s.events ++ s₁.events, hs.append huntold, ?_⟩
  unfold Receiving.told
  rw [harrival, Option.elim_some, hrecv, List.append_assoc]
  rfl

/-- A call tells that the object and the transfer are complete when it returns a report, and
otherwise only when the file is complete, synced and as announced, too. -/
theorem completion_is_told_only_for_an_intact_file {r : Except Halt TransferReport}
    (h : Ends (call.receive_file P a) (.start replay) ds r s) :
    (∀ report, r = .ok report → ∃ e ∈ s.told, e.Completes) ∧
    ((∃ e ∈ s.told, e.Completes) → ∃ (x : Setting) (digest : Arr 32) (arrival : Arrival)
      (quiet : List Event), x.Holds P call a replay ∧ x.offered <+: ds ∧
      s.arrival = some arrival ∧ Intact P x.admitted digest arrival.recv ∧ Quiet quiet ∧
      s.told = quiet ++ completed x.admitted.opened.secrets.transfer_id
        x.admitted.opened.secrets.object_id digest ∧
      ∀ report, r = .ok report → ∃ count route,
        report = ReceiveCall.report x.session x.admitted digest count route) := by
  rcases r with e | report
  · refine ⟨nofun, ?_⟩
    rintro ⟨e, he, hc⟩
    cases reached_of_ends h with
    | greeting hg hs => exact absurd hc (told_of_none hs.2.1 hs.2.2 e he)
    | talking ha hw hs => exact absurd hc (told_of_none hs.2.1 hs.2.2 e he)
    | preparing ha ho hh hw hs hopened => exact absurd hc (told_of_none hs.1 hs.2 e he)
    | requesting hx hh hw hs => exact absurd hc (told_of_none hs.2.1 hs.2.2 e he)
    | receiving hx hh hw hs ht => exact absurd hc (ht.told hs.2.1 hs.2.2 e he)
    | finished hx hh hw hs hf =>
      obtain ⟨quiet, hquiet, htold⟩ := hf.told hs.2.1 hs.2.2
      exact ⟨_, _, _, quiet, hx, hh, hs.2.1, hf.intact, hquiet, htold, nofun⟩
  · obtain ⟨x, hx, turns, digest, c, arrival, hh, -, -, harrival, hs, hf, count, route, rfl⟩ :=
      returned_of_ends h
    obtain ⟨quiet, hquiet, htold⟩ := hf.told harrival hs
    refine ⟨?_, fun _ =>
      ⟨x, digest, arrival, quiet, hx, hh, harrival, hf.intact, hquiet, htold, ?_⟩⟩
    · rintro report' -
      rw [htold]
      exact ⟨_, List.mem_append_right _ List.mem_cons_self, trivial⟩
    · rintro report' hreport
      exact ⟨count, route, (Except.ok.inj hreport).symm⟩

theorem one_byte_is_told_to_be_complete : ∃ (call : ReceiveCall) (a : ReceiveAnswers)
    (replay : ReplayCache) (ds : List FrameDeed) (report : TransferReport) (s : Receiving),
    Ends (call.receive_file sample a) (.start replay) ds (.ok report) s ∧
    (∃ e ∈ s.told, e.Completes) ∧ ∃ (x : Setting) (digest : Arr 32) (arrival : Arrival),
      x.Holds sample call a replay ∧ s.arrival = some arrival ∧
      Intact sample x.admitted digest arrival.recv := by
  obtain ⟨m, -, -, -, -, -, report, s, -, ds, -, -, -, -, -, hends, -, -⟩ := Meeting.exists_runs
  obtain ⟨hreport, htold⟩ := completion_is_told_only_for_an_intact_file hends
  have hcompletes := hreport report rfl
  obtain ⟨x, digest, arrival, -, hx, -, harrival, hi, -⟩ := htold hcompletes
  exact ⟨m.receive, m.received, m.replay, ds, report, s, hends, hcompletes, x, digest, arrival, hx,
    harrival, hi⟩

end ReceiveCall

end rtp2_core.transfer
