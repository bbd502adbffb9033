-- Calls of the receiver with one state path, one after the other, and crashes in between.
-- What a call does at its destination and at the state path is what an attempt does up to
-- some point. So the record stays true of the destination, whatever the other sides send.
import Reyta.SessionSafety

open byte_string crash_disk early_exit exact_parse file_region shared_record stream_party

namespace rtp2_core.transfer

open bitmap crypto events handshake identity object offer resume route Session
open control (ControlChannel)

/-- What a call has done at the destination and at the state path. -/
def Receiving.deeds (s : Receiving) : List DestDeed :=
  match s.opened, s.arrival with
  | none, _ => []
  | some _, none => [.resize]
  | some _, some arrival => .resize :: (arrival.recv.effects.map .effect ++ arrival.removed)

section Deeds

variable {s : Receiving} {admitted : Admitted} {arrival : Arrival}

theorem deeds_of_closed (h : s.opened = none) : s.deeds = [] := by
  unfold Receiving.deeds
  rw [h]

theorem deeds_of_opened (h : s.opened = some admitted) (ha : s.arrival = none) :
    s.deeds = [.resize] := by
  unfold Receiving.deeds
  rw [h, ha]

theorem deeds_of_arrival (h : s.opened = some admitted) (ha : s.arrival = some arrival) :
    s.deeds = .resize :: (arrival.recv.effects.map .effect ++ arrival.removed) := by
  unfold Receiving.deeds
  rw [h, ha]

end Deeds

/-! ## Chunks that are held were written -/

/-- Every chunk that counts as held is known to be written. -/
def Recv.Backed (k : Known UInt64) (s : Recv) : Prop :=
  ∀ i, s.held.Has i → i ∈ (k.afterAll s.effects).written

section Backed

variable {P : Primitives} {k : Known UInt64} {ctx : ObjectContext} {a : Answers} {index : UInt64}
  {p : Bytes}

/-- A chunk was written as well. -/
def Recv.Ahead (k : Known UInt64) (index : UInt64) (s : Recv) : Prop :=
  s.Backed k ∧ index ∈ (k.afterAll s.effects).written

theorem write_chunk_backed : Spec (Recv.Backed k) (write_chunk ctx a index p)
    (fun _ => Recv.Ahead k index) (fun _ _ => True) := by
  intro s hs
  unfold exec write_chunk
  rcases a.write with ⟨n, e⟩ | _
  · exact .inr ⟨_, _, rfl, trivial⟩
  · refine .inl ⟨_, _, rfl, fun i hi => ?_, ?_⟩
    · rw [afterAll_append]
      exact .inr (hs i hi)
    · rw [afterAll_append]
      exact .inl rfl

theorem mark_verified_backed : Spec (Recv.Ahead k index) (mark_verified index)
    (fun _ => Recv.Ahead k index) (fun _ _ => True) := by
  intro s hs
  unfold exec mark_verified
  split
  · exact .inl ⟨_, _, rfl, hs⟩
  · split
    · exact .inr ⟨_, _, rfl, trivial⟩
    · exact .inl ⟨_, _, rfl, hs⟩

theorem set_held_backed : Spec (Recv.Ahead k index) (set_held index)
    (fun _ => Recv.Backed k) (fun _ _ => True) := by
  intro s hs
  unfold exec set_held
  split
  · exact .inr ⟨_, _, rfl, trivial⟩
  · next held changed hset =>
    refine .inl ⟨_, _, rfl, fun i hi => ?_⟩
    rcases ((ChunkBitmap.set_eq_ok hset).has i).1 hi with rfl | hi
    · exact hs.2
    · exact hs.1 i hi

/-- A checkpoint that succeeds forgets nothing. -/
theorem chunk_written_backed : Spec (Recv.Backed k) (chunk_written index a)
    (fun _ => Recv.Backed k) (fun _ _ => True) := by
  intro s hs
  rcases chunk_written_exec index a s with ⟨-, he⟩ | ⟨db, db', effects, result, hdb, hw, he⟩
  · exact .inl ⟨_, _, he, hs⟩
  rw [he]
  cases hw with
  | refused e => exact .inr ⟨_, _, rfl, trivial⟩
  | marked hmark =>
    refine .inl ⟨_, _, rfl, ?_⟩
    rw [List.append_nil]
    exact hs
  | not_synced hmark e => exact .inr ⟨_, _, rfl, trivial⟩
  | committed hmark =>
    refine .inl ⟨_, _, rfl, fun i hi => ?_⟩
    rw [afterAll_append]
    exact hs i hi
  | not_committed hmark e => exact .inr ⟨_, _, rfl, trivial⟩

theorem accept_backed : Spec (Recv.Backed k) (accept ctx a index p) (fun _ => Recv.Backed k)
    (fun _ _ => True) := by
  have hpersist : Spec (Recv.Backed k) (persist ctx a index p) (fun _ => Recv.Backed k)
      (fun _ _ => True) :=
    Spec.bind write_chunk_backed fun _ => Spec.bind mark_verified_backed fun _ => set_held_backed
  refine accept_of_persist ?_ (fun _ _ _ => trivial) hpersist chunk_written_backed
  intro s s' _ hheld _ heffects hs i hi
  rw [heffects]
  exact hs i (hheld ▸ hi)

theorem receive_loop_backed {t : Incoming} (us : List Turn) :
    Spec (Recv.Backed k) (receive_loop P t us) (fun _ => Recv.Backed k) (fun _ _ => True) := by
  refine Spec.each fun u _ => turn_spec (fun _ _ _ => trivial) ?_
  rintro s index p hs -
  exact accept_backed.weaken (by rintro s' rfl; exact hs) (fun _ _ h => h) (fun _ _ h => h)

/-- Only the record is removed after a complete attempt. -/
theorem removed_record {f : FullAttempt} {deed : DestDeed}
    (h : deed ∈ f.clean_up (.ok .complete)) : deed = .remove_record := by
  change deed ∈ removed f.remove_record .remove_record at h
  unfold removed at h
  split at h
  · exact List.mem_singleton.1 h
  · cases h

end Backed

/-! ## The record marks what is held -/

/-- There is a record, and it marks the chunks that are held. -/
def Recv.Recorded (s : Recv) : Prop :=
  ∃ db, s.db = some db ∧ ∀ i, db.record.durable.Has i ↔ s.held.Has i

/-- The record does not mark the last chunk yet. -/
def Recv.Unmarked (index : UInt64) (s : Recv) : Prop :=
  ∃ db, s.db = some db ∧ ∀ i, s.held.Has i ↔ i = index ∨ db.record.durable.Has i

section Recorded

variable {P : Primitives} {ctx : ObjectContext} {a : Answers} {index : UInt64} {p : Bytes}

theorem persist_recorded : Spec Recv.Recorded (persist ctx a index p)
    (fun _ => Recv.Unmarked index) (fun _ _ => True) := by
  refine Spec.bind (q := fun _ => Recv.Recorded) ?write fun _ =>
    Spec.bind (q := fun _ => Recv.Recorded) ?mark fun _ => ?set
  case write =>
    intro s hs
    unfold exec write_chunk
    rcases a.write with ⟨n, e⟩ | _
    · exact .inr ⟨_, _, rfl, trivial⟩
    · exact .inl ⟨(), _, rfl, hs⟩
  case mark =>
    rintro s ⟨db, hdb, hmarks⟩
    unfold exec mark_verified
    rw [hdb]
    simp only
    split
    · exact .inr ⟨_, _, rfl, trivial⟩
    · next db' hverified =>
      refine .inl ⟨(), _, rfl, db', rfl, fun i => ?_⟩
      rw [(ResumeDb.mark_verified_eq_ok hverified).2]
      exact hmarks i
  case set =>
    rintro s ⟨db, hdb, hmarks⟩
    unfold exec set_held
    split
    · exact .inr ⟨_, _, rfl, trivial⟩
    · next held changed hset =>
      refine .inl ⟨(), _, rfl, db, hdb, fun i => ?_⟩
      rw [hmarks]
      exact (ChunkBitmap.set_eq_ok hset).has i

theorem chunk_written_recorded : Spec (Recv.Unmarked index) (chunk_written index a)
    (fun _ => Recv.Recorded) (fun _ _ => True) := by
  rintro s ⟨db, hdb, hheld⟩
  rcases chunk_written_exec index a s with
    ⟨hnone, -⟩ | ⟨db₁, db', effects, result, hdb₁, hw, he⟩
  · cases hdb.symm.trans hnone
  · obtain rfl := Option.some.inj (hdb.symm.trans hdb₁)
    have hmarked : ∀ {marked : ResumeDb}, db.mark index = .ok marked →
        ∀ i, marked.record.durable.Has i ↔ s.held.Has i := by
      intro marked hmark i
      rw [(ResumeDb.mark_eq_ok hmark).2, hheld]
    rw [he]
    cases hw with
    | refused e => exact .inr ⟨_, _, rfl, trivial⟩
    | marked hmark => exact .inl ⟨(), _, rfl, _, rfl, hmarked hmark⟩
    | not_synced hmark e => exact .inr ⟨_, _, rfl, trivial⟩
    | committed hmark =>
      have hcommitted := hmarked hmark
      exact .inl ⟨(), _, rfl, _, rfl, hcommitted⟩
    | not_committed hmark e => exact .inr ⟨_, _, rfl, trivial⟩

theorem receive_loop_recorded {t : Incoming} (us : List Turn) :
    Spec Recv.Recorded (receive_loop P t us) (fun _ => Recv.Recorded) (fun _ _ => True) := by
  refine Spec.each fun u _ => turn_spec (fun _ _ _ => trivial) ?_
  rintro s index p hs -
  have hpersist : Spec (fun s' => s' = s) (persist t.ctx u.answers index p)
      (fun _ => Recv.Unmarked index) (fun _ _ => True) :=
    persist_recorded.weaken (by rintro s' rfl; exact hs) (fun _ _ h => h) (fun _ _ h => h)
  refine accept_of_persist ?_ (fun _ _ _ => trivial) hpersist chunk_written_recorded
  rintro s s' _ hheld hdb _ ⟨db, hs, hmarks⟩
  exact ⟨db, hdb.trans hs, hheld ▸ hmarks⟩

end Recorded

namespace ReceiveCall

variable {P : Primitives} {call : ReceiveCall} {a : ReceiveAnswers} {replay : ReplayCache}
  {admitted : Admitted} {stored : Option ResumeRecord} {readable : Bool}

/-! ## A call is an attempt -/

/-- The record that the call finds. -/
def Finds (a : ReceiveAnswers) (readable : Bool) (stored : Option ResumeRecord) : Prop :=
  a.stored = if readable then stored else none

theorem open_record_eq_ok {db : Option ResumeDb} (hstate : call.resume_state = true)
    (h : call.open_record a admitted = .ok db) : ∃ d resumed, db = some d ∧
      ResumeDb.open a.stored admitted.object_identity call.dest = .ok (d, resumed) := by
  unfold open_record at h
  rw [if_pos hstate, mapError_eq_ok] at h
  rcases ho : ResumeDb.open a.stored admitted.object_identity call.dest with e | ⟨d, resumed⟩
  · rw [ho] at h
    cases h
  · rw [ho] at h
    cases h
    exact ⟨d, resumed, rfl, rfl⟩

/-- An attempt at the destination of the call, for the object of the offer. -/
structure Imitates (call : ReceiveCall) (admitted : Admitted) (readable : Bool) (f : FullAttempt) :
    Prop where
  dest : f.dest = call.dest
  identity : f.identity = admitted.object_identity
  readable : f.readable = readable

/-- An attempt that opens its record and its destination. -/
theorem deeds_of_open {f : FullAttempt} {d : ResumeDb} {resumed : Bool}
    (hopen : ResumeDb.open (if f.readable then stored else none) f.identity f.dest =
      .ok (d, resumed)) (hprepared : f.prepared = .ok ()) :
    f.deeds P stored =
      .resize :: ((f.received P d).2.effects.map .effect ++ f.clean_up (f.received P d).1) := by
  unfold FullAttempt.deeds
  rw [hopen, hprepared]

theorem open_of_finds {db : Option ResumeDb} (hstate : call.resume_state = true)
    (hfinds : Finds a readable stored) (h : call.open_record a admitted = .ok db)
    {f : FullAttempt} (hf : Imitates call admitted readable f) : ∃ d resumed, db = some d ∧
      ResumeDb.open (if f.readable then stored else none) f.identity f.dest = .ok (d, resumed) := by
  obtain ⟨d, resumed, rfl, hopen⟩ := open_record_eq_ok hstate h
  refine ⟨d, resumed, rfl, ?_⟩
  rw [hf.dest, hf.identity, hf.readable, ← hfinds, hopen]

/-- Only the length of the destination was set. -/
theorem resize_prefix {db : Option ResumeDb} (hstate : call.resume_state = true)
    (hfinds : Finds a readable stored) (hnames : Names P admitted)
    (h : call.open_record a admitted = .ok db) :
    ∃ f, Imitates call admitted readable f ∧ [Deed.resize] <+: f.deeds P stored := by
  refine ⟨{ call.full_attempt P a admitted hnames (.new .Unknown .Any 0) [] [] with
    readable := readable }, ⟨rfl, rfl, rfl⟩, ?_⟩
  obtain ⟨d, resumed, -, hopen⟩ := open_of_finds hstate hfinds h (f :=
    { call.full_attempt P a admitted hnames (.new .Unknown .Any 0) [] [] with
      readable := readable }) ⟨rfl, rfl, rfl⟩
  rw [deeds_of_open hopen rfl]
  exact ⟨_, rfl⟩

theorem Setting.Holds.held_eq {x : Setting} (hx : x.Holds P call a replay) {d : ResumeDb}
    (hdb : x.db = some d) : x.held = d.record.durable := by
  have hheld := hx.held
  rw [hdb] at hheld
  exact (Except.ok.inj hheld).symm

/-- What was done in the loop and afterwards is what the attempt does. -/
theorem Traces.deeds_prefix {x : Setting} {hx : x.Holds P call a replay} {turns : List Turn}
    {arrival : Arrival} (ht : Traces P (x.attempt hx turns) x.start arrival)
    (hstate : call.resume_state = true) (hfinds : Finds a readable stored) :
    ∃ f, Imitates call x.admitted readable f ∧
      .resize :: (arrival.recv.effects.map .effect ++ arrival.removed) <+: f.deeds P stored := by
  refine ⟨{ x.attempt hx turns with readable := readable }, ⟨rfl, rfl, rfl⟩, ?_⟩
  obtain ⟨d, resumed, hdb, hopen⟩ := open_of_finds hstate hfinds hx.record (f :=
    { x.attempt hx turns with readable := readable }) ⟨rfl, rfl, rfl⟩
  have hheld : x.held = d.record.durable := hx.held_eq hdb
  have hreceived : ({ x.attempt hx turns with readable := readable } : FullAttempt).received P d =
      exec (receive_to_end P (x.attempt hx turns)) x.start := by
    unfold FullAttempt.received Setting.start
    rw [hdb, hheld]
    rfl
  rw [deeds_of_open hopen rfl, hreceived, ht.1]
  exact (List.prefix_cons_inj _).2 ((List.prefix_append_right_inj _).2 ht.2)

/-- The end of a complete attempt only adds events. -/
theorem Finished.traces {f : FullAttempt} {s₀ : Recv} {digest : Arr 32} {arrival : Arrival}
    (hf : Finished P f s₀ digest arrival) : ∃ recv, Traces P f s₀ ⟨recv, arrival.removed⟩ ∧
      recv.effects = arrival.recv.effects := by
  obtain ⟨-, s₁, hexec, hrecv, hremoved⟩ := hf
  exact ⟨s₁, traces_of_exec hexec hremoved, by rw [hrecv]⟩

/-- A call with a state path does nothing to the disk, or it does what some attempt for the
object of an admitted offer does, up to some point. -/
theorem deeds_of_ends {ds : List FrameDeed} {r : Except Halt TransferReport} {s : Receiving}
    (h : Ends (call.receive_file P a) (.start replay) ds r s) (hstate : call.resume_state = true)
    (hfinds : Finds a readable stored) : s.deeds = [] ∨ ∃ admitted f, s.opened = some admitted ∧
      Imitates call admitted readable f ∧ s.deeds <+: f.deeds P stored := by
  cases reached_of_ends h with
  | greeting hg hs => exact .inl (deeds_of_closed hs.1)
  | talking ha hw hs => exact .inl (deeds_of_closed hs.1)
  | preparing ha ho hh hw hs hopened =>
    rcases hopened with hnone | ⟨hsome, db, hdb⟩
    · exact .inl (deeds_of_closed hnone)
    · rw [deeds_of_opened hsome hs.1]
      obtain ⟨f, hf, hp⟩ := resize_prefix hstate hfinds ho.names hdb
      exact .inr ⟨_, f, hsome, hf, hp⟩
  | requesting hx hh hw hs =>
    rw [deeds_of_opened hs.1 hs.2.1]
    obtain ⟨f, hf, hp⟩ := resize_prefix hstate hfinds hx.admits.names hx.record
    exact .inr ⟨_, f, hs.1, hf, hp⟩
  | receiving hx hh hw hs ht =>
    rw [deeds_of_arrival hs.1 hs.2.1]
    obtain ⟨f, hf, hp⟩ := ht.deeds_prefix hstate hfinds
    exact .inr ⟨_, f, hs.1, hf, hp⟩
  | finished hx hh hw hs hf =>
    obtain ⟨recv, ht, heffects⟩ := hf.traces
    rw [deeds_of_arrival hs.1 hs.2.1, ← heffects]
    obtain ⟨f, hf, hp⟩ := ht.deeds_prefix hstate hfinds
    exact .inr ⟨_, f, hs.1, hf, hp⟩

end ReceiveCall

/-! ## A stream that ends early -/

theorem run_on_recv {α : Type} (x : Act α) (s : Arrival) : run (Talk.on_recv x) s =
    .done ((exec x s.recv).1.mapError .Err, { s with recv := (exec x s.recv).2 }) :=
  rfl

/-- The object part of a call in which the stream ends early: what arrived is recorded. -/
theorem follows_incomplete {P : Primitives} (hD : P.Decrypts) (call : ReceiveCall)
    (answers : ReceiveAnswers) (admitted : Admitted) {payloads out : List Bytes} {last : Bytes}
    {a a' b : ControlChannel} (hc : ConveysAll P FRAME_CHUNK a payloads out a')
    (hend : Conveys P a' FRAME_STREAM_END [] last) (htouch : InTouch a b) {s : Arrival}
    {recv : Recv} {db : ResumeDb}
    (hrun : exec (receive_loop P (admitted.incoming P) (chunk_turns payloads answers.turns))
      s.recv = (.ok .done, recv)) (hincomplete : ¬ recv.held.is_complete = true)
    (hsync : answers.sync_all = .ok ()) (hcheckpoint : answers.checkpoint = .ok ())
    (hdb : recv.db = some db) :
    Follows frames (run (call.receive_object P answers admitted b) s)
      (out.map .recv ++ [.recv last])
      (.done (.error (.Err (.Protocol "transfer incomplete")), { s with recv := { recv with
        db := some { db with pending := 0 }
        effects := recv.effects ++ [.sync] ++ [.commit db.record] } })) := by
  obtain ⟨b', -, -, hchunks⟩ := plays_receive_chunks hD hc hend htouch hrun
  have hsettle := settle_incomplete hincomplete (show (call.attempt answers admitted
    (.new .Unknown .Any 0) [] []).sync_all = .ok () from hsync) hcheckpoint hdb
  have hfails : Follows frames (run (call.complete P answers admitted) { s with recv }) []
      (.done (.error (.Err (.Protocol "transfer incomplete")), { s with recv := { recv with
        db := some { db with pending := 0 }
        effects := recv.effects ++ [.sync] ++ [.commit db.record] } })) := by
    apply follows_early
    rw [run_on_recv, hsettle]
    exact .refl _
  rw [← List.append_nil (out.map Line.recv ++ [Line.recv last])]
  exact hchunks.follows (follows_early hfails)

/-- The file has these chunks of the source, and the record marks them. -/
structure Kept (ctx : ObjectContext) (content : Bytes) (indices : List UInt64) (r : ResumeRecord)
    (file : Bytes) : Prop where
  count : r.durable.chunk_count = ctx.chunk_count
  has : ∀ i, r.durable.Has i ↔ i ∈ indices
  length : file.length = ctx.logical_plaintext_size.toNat
  file : ∀ i ∈ indices, region ctx file i = region ctx content i

section Kept

variable {P : Primitives} {content file : Bytes} {indices : List UInt64}

theorem Kept.gaps_le {ctx : ObjectContext} {r : ResumeRecord}
    (h : Kept ctx content indices r file) : r.durable.gaps ≤ ctx.chunk_count.toNat := by
  rw [← h.count]
  exact Nat.count_le _

/-- An attempt that opens the file again finds these chunks in it. -/
theorem Kept.region {ctx : ObjectContext} {r : ResumeRecord} (h : Kept ctx content indices r file)
    {i : UInt64} (hi : r.durable.Has i) :
    region ctx (set_len 0 file ctx.logical_plaintext_size.toNat) i = region ctx content i := by
  have hsame : set_len 0 file ctx.logical_plaintext_size.toNat = file := by
    rw [← h.length]
    simp [set_len]
  rw [hsame]
  exact h.file i ((h.has i).1 hi)

/-- The loop over some of the chunks, with a new record. -/
theorem exists_kept {t : PendingTransfer} (hD : P.Decrypts) (ht : t.Source P content)
    {d : ResumeDb} (hcount : d.record.identity.chunk_count = t.ctx.chunk_count)
    (hnone : ∀ i, ¬ d.record.durable.Has i) (route_watch : RouteWatch)
    {record : UInt64 → Record} {payload : UInt64 → Bytes}
    (hsound : ∀ i ∈ indices, Sound P t content i (record i) (payload i))
    (hmissing : ∃ i < t.ctx.chunk_count, i ∉ indices) {ans : List Answers}
    (hlen : indices.length < ans.length) (hwork : ∀ a ∈ ans, a.Work route_watch.policy) :
    ∃ recv db, exec (receive_loop P t.incoming (chunk_turns (indices.map payload) ans))
        (.start t.ctx (some d) d.record.durable route_watch file) = (.ok .done, recv) ∧
      recv.db = some db ∧ home db.record = home d.record ∧ ¬ recv.held.is_complete = true ∧
      Kept t.ctx content indices db.record recv.file := by
  have hg := ht.prepared.geometry
  obtain ⟨recv, hrun, hready, hhas⟩ := chunk_loop_exec hg hsound hlen hwork
    (s := .start t.ctx (some d) d.record.durable route_watch file)
    ⟨start_inv hg (d.record.durable_count.trans hcount) (by rintro _ ⟨⟩; exact hcount), rfl⟩
  have hheld : ∀ i, recv.held.Has i ↔ i ∈ indices := fun i =>
    (hhas i).trans (or_iff_left (hnone i))
  obtain ⟨db, hdb, hmarks⟩ := (receive_loop_recorded _).of_ok ⟨d, rfl, fun _ => Iff.rfl⟩ hrun
  have hstarts : (Recv.start t.ctx (some d) d.record.durable route_watch file).AtHome
      d.record.temporary_path d.record.identity.core :=
    ⟨by rintro _ ⟨⟩; rfl, by simp [Recv.start]⟩
  have hhome := (Spec.each fun u _ => turn_atHome u).of_ok hstarts hrun
  have hplain : ∀ i ∈ indices, t.incoming.Plain P (t.ciphertexts P content) i
      (transfer.region t.ctx content i) := fun i hi => (hsound i hi).plain
  have harrived := hready.inv.2.arrived hD hplain hhas
  have hheldCount : recv.held.chunk_count = t.ctx.chunk_count := hready.inv.1.held_count
  refine ⟨recv, db, hrun, hdb, hhome.db db hdb, ?_, ?_, fun i => (hmarks i).trans (hheld i), ?_,
    fun i hi => harrived.content i hi (hnone i)⟩
  · rw [recv.held.is_complete_iff, hheldCount]
    intro hcomplete
    obtain ⟨i, hi, hout⟩ := hmissing
    exact hout ((hheld i).1 (hcomplete i hi))
  · exact db.record.durable_count.trans (hready.inv.1.db_count db hdb)
  · exact hready.inv.1.file_len.trans (congrArg UInt64.toNat hg.encoded_eq)

end Kept

namespace Meeting

variable {P : Primitives} {m : Meeting} {content : Bytes}

/-- Without a record a call starts a new one. -/
theorem Calm.new_record (h : m.Calm P content) (hg : m.send.pending.ctx.Geometry)
    (hstate : m.receive.resume_state = true) (hstored : m.received.stored = none)
    (sig_b : HybridSignature) (offer : TransferOffer) :
    ∃ d, m.receive.open_record m.received (m.admitted P sig_b offer) = .ok (some d) ∧
      d.record.identity = (m.admitted P sig_b offer).object_identity ∧
      d.record.temporary_path = m.receive.dest ∧ ∀ i, ¬ d.record.durable.Has i := by
  obtain ⟨file, hopen, -⟩ := h.destination
  obtain ⟨db, -, hdb, -⟩ := h.starts hg hopen sig_b offer
  obtain ⟨d, resumed, rfl, hd⟩ := ReceiveCall.open_record_eq_ok hstate hdb
  rw [hstored] at hd
  have hnew := (ResumeDb.open_adopts hd).resolve_left (by simp)
  obtain ⟨hidentity, hpath, hnone⟩ := ResumeRecord.new_eq_ok hnew
  exact ⟨d, hdb, hidentity, hpath, fun i => (hnone i).2⟩

/-- The other side ends the stream before the receiver has all chunks. The call fails, and
what arrived is kept. -/
theorem Calm.ends_early (hE : P.Encrypts) (hD : P.Decrypts) (hV : DeviceIdentity.Verifies P)
    (hx : P.Exchanges) (hkem : P.Decapsulates) (h : m.Calm P content)
    (hstate : m.receive.resume_state = true) (hstored : m.received.stored = none)
    (hcheckpoint : m.received.checkpoint = .ok ()) {indices : List UInt64}
    (hlt : ∀ i ∈ indices, i < m.send.pending.ctx.chunk_count)
    (hfew : indices.length ≤ m.send.pending.ctx.chunk_count.toNat)
    (hmissing : ∃ i < m.send.pending.ctx.chunk_count, i ∉ indices) :
    ∃ (ds : List FrameDeed) (e : Halt) (s : Receiving) (effects : List DiskEffect)
      (r : ResumeRecord) (arrival : Arrival),
      Ends (m.receive.receive_file P m.received) (.start m.replay) ds (.error e) s ∧ m.Opens s ∧
      s.deeds = .resize :: (effects.map .effect ++ [.effect (.commit r)]) ∧
      (∀ commitment, home r = (m.receive.dest, (m.object commitment).core)) ∧
      s.arrival = some arrival ∧
      Kept m.send.pending.ctx content indices r arrival.recv.file := by
  obtain ⟨secrets, size, hprepare⟩ := h.prepared
  have ht := PendingTransfer.prepare.source h.length hprepare
  obtain ⟨sig_a, sig_b, hpair⟩ := h.handshake
  obtain ⟨offer, -, hsize, hadmits⟩ := h.offer hE hD hV ht sig_b
  obtain ⟨file, hopen, -⟩ := h.destination
  obtain ⟨d, hdb, hidentity, hpath, hnone⟩ :=
    h.new_record ht.prepared.geometry hstate hstored sig_b offer
  obtain ⟨record, payload, out, back, chunks, last, a', hsound, hcourse⟩ :=
    h.exists_frames hE hD ht sig_b hsize d.record.durable hlt hfew
  obtain ⟨route_watch, s₀, hpolicy, hfollows⟩ :=
    h.receive_follows hD hx hkem ht hpair hadmits hopen hdb rfl hcourse
  obtain ⟨recv, db, hrun, hdb', hhome, hincomplete, hkept⟩ := exists_kept hD ht
    (show d.record.identity.chunk_count = _ by rw [hidentity]; rfl) hnone route_watch hsound
    hmissing (Nat.lt_of_le_of_lt hfew h.enough_turns) (hpolicy ▸ h.turns)
  rw [← admitted_incoming ht sig_b offer] at hrun
  have hobject := follows_incomplete hD m.receive m.received (m.admitted P sig_b offer)
    hcourse.chunks hcourse.last (((m.channels_inTouch P sig_b).next 1).symm.next 1).symm
    (s := ⟨_, []⟩) hrun hincomplete h.sync_all hcheckpoint hdb'
  obtain ⟨ds, hds, -⟩ := (hfollows hobject).does
  refine ⟨ds, _, _, recv.effects ++ [.sync], db.record, _, hds, ⟨_, rfl, rfl, fun _ => rfl⟩, ?_,
    fun _ => ?_, rfl, hkept⟩
  · rw [deeds_of_arrival rfl rfl, List.append_nil, List.map_append]
    rfl
  · rw [hhome, home, hpath, hidentity]
    rfl

end Meeting

/-! ## Histories of calls -/

/-- The record at the state path was made for the destination exactly if it is about the
object. -/
def World.Suits (w : World) (dest : String) (identity : ObjectIdentity) : Prop :=
  ∀ r ∈ w.record, r.temporary_path = dest ↔ r.identity.matches identity = true

/-- The worlds that calls with one state path and crashes lead to, from one without a
record. A call may be cut short after any deed, but no clean-up removes the destination
and leaves the record: neither is a call cut between the two removals, nor does the second
one fail. -/
inductive CallHistory (P : Primitives) : World → Prop
  | start {w : World} (hsub : ∀ d k, (w.held d k).synced ⊆ (w.held d k).written)
      (h : w.record = none) : CallHistory P w
  | call {w w' : World} (hw : CallHistory P w) {call : ReceiveCall} {a : ReceiveAnswers}
      {replay : ReplayCache} {ds : List FrameDeed} {r : Except Halt TransferReport}
      {s : Receiving} (h : Ends (call.receive_file P a) (.start replay) ds r s)
      (hstate : call.resume_state = true) {readable : Bool}
      (hfinds : ReceiveCall.Finds a readable w.record) {admitted : Admitted}
      (hopened : s.opened = some admitted) (hsuits : w.Suits call.dest admitted.object_identity)
      {deeds : List DestDeed} (hdeeds : deeds <+: s.deeds)
      (hremove : .remove_file ∈ deeds → .remove_record ∈ deeds)
      (hs : Shelf.Steps call.dest admitted.object_identity.core w deeds w') : CallHistory P w'
  | crash {w w' : World} (hw : CallHistory P w) (hc : Shelf.Crash w w') : CallHistory P w'

/-! ## A file of three chunks -/

theorem three_calm {t : PendingTransfer} (hprepare : PendingTransfer.prepare sample
      PendingTransfer.sampleSecrets (.ok (.ofNat threeContent.length)) (.ok threeContent) 65536 =
        .ok t) (hctx : t.ctx = threeChunks) {stored : Option ResumeRecord} {file : Bytes}
    {indices : List UInt64} (hkept : ∀ r ∈ stored, Kept t.ctx threeContent indices r file) :
    (Meeting.sampleMeeting t threeContent stored file).Calm sample threeContent := by
  have hcount : t.ctx.chunk_count.toNat ≤ 3 := by
    rw [hctx]
    decide
  refine Meeting.sampleMeeting_calm ?_ hprepare hcount fun r hr =>
    ⟨?_, fun _ => (hkept r hr).region⟩
  · rw [length_threeContent]
    decide
  · exact Nat.le_trans (hkept r hr).gaps_le (Nat.le_trans hcount (by decide))

/-- The second chunk arrives in a call that the other side ends early. -/
theorem exists_interrupted : ∃ (t : PendingTransfer) (r : ResumeRecord) (file : Bytes) (w : World),
    PendingTransfer.prepare sample PendingTransfer.sampleSecrets
      (.ok (.ofNat threeContent.length)) (.ok threeContent) 65536 = .ok t ∧ t.ctx = threeChunks ∧
    CallHistory sample w ∧ w.record = some r ∧
    (∀ commitment, home r = ("a.txt",
      ((Meeting.sampleMeeting t threeContent none []).object commitment).core)) ∧
    Kept t.ctx threeContent [1] r file := by
  obtain ⟨t, hprepare, hctx, -⟩ := exists_three
  have hlt : ∀ i ∈ ([1] : List UInt64), i < t.ctx.chunk_count := by
    rw [hctx]
    exact List.forall_mem_singleton.2 (by decide)
  have hfew : ([1] : List UInt64).length ≤ t.ctx.chunk_count.toNat := by
    rw [hctx]
    decide
  have hmissing : ∃ i < t.ctx.chunk_count, i ∉ ([1] : List UInt64) := by
    rw [hctx]
    exact ⟨0, by decide, by decide⟩
  have hcalm : (Meeting.sampleMeeting t threeContent none []).Calm sample threeContent :=
    three_calm hprepare hctx (show ∀ r ∈ none, Kept t.ctx threeContent [] r [] by simp)
  obtain ⟨ds, e, s, effects, r, arrival, hends, ⟨admitted, hopened, -⟩, hdeeds, hhome, -,
    hkept⟩ := hcalm.ends_early sample_encrypts sample_decrypts DeviceIdentity.sample_verifies
      sample_exchanges sample_decapsulates rfl rfl rfl hlt hfew hmissing
  let w₀ : World := ⟨fun _ _ => .none, none⟩
  have hw₀ : w₀.Sound := fun _ _ _ h => h
  obtain ⟨w, hsteps⟩ := Shelf.exists_steps hw₀ "a.txt" admitted.object_identity.core s.deeds
  refine ⟨t, r, arrival.recv.file, w, hprepare, hctx, ?_, ?_, hhome, hkept⟩
  · refine .call (.start hw₀ rfl) hends rfl (show ReceiveCall.Finds _ true _ from rfl) hopened
      (fun _ h => nomatch h) (List.prefix_refl _) (fun hmem => ?_) hsteps
    rw [hdeeds] at hmem
    simp at hmem
  · rw [hdeeds, ← List.cons_append] at hsteps
    exact hsteps.committed

/-! ## What a report means -/

section Histories

variable {P : Primitives} {w : World}

theorem World.Suits.attempt {call : ReceiveCall} {admitted : Admitted} {readable : Bool}
    {f : FullAttempt} (h : w.Suits call.dest admitted.object_identity)
    (hf : ReceiveCall.Imitates call admitted readable f) : f.Suits w := by
  intro r hr
  have hiff := h r hr
  rw [← hf.dest, ← hf.identity] at hiff
  exact ⟨fun hpath => ObjectIdentity.matches_iff.1 (hiff.1 hpath), fun _ => hiff.2⟩

/-- A history of calls is one of attempts. -/
theorem CallHistory.history (h : CallHistory P w) : History P Careful w := by
  induction h with
  | start hsub h => exact .start hsub h
  | crash hw hc ih => exact .crash ih hc
  | @call w w' hw call a replay ds r s h hstate readable hfinds admitted hopened hsuits deeds
      hdeeds hremove hs ih =>
    rcases ReceiveCall.deeds_of_ends h hstate hfinds with hnil | ⟨admitted', f, ho, hf, hp⟩
    · rw [hnil] at hdeeds
      obtain rfl := List.prefix_nil.1 hdeeds
      cases hs
      exact ih
    · obtain rfl := Option.some.inj (hopened.symm.trans ho)
      refine .attempt ih f (hdeeds.trans hp) ⟨hsuits.attempt hf, hremove⟩ ?_
      rw [hf.dest, hf.identity]
      exact hs

/-- What a call counts as held when it asks for chunks is at its destination. -/
theorem CallHistory.held (h : CallHistory P w) {call : ReceiveCall} {a : ReceiveAnswers}
    {replay : ReplayCache} {x : ReceiveCall.Setting} (hx : x.Holds P call a replay)
    (hstate : call.resume_state = true) {readable : Bool}
    (hfinds : ReceiveCall.Finds a readable w.record)
    (hsuits : w.Suits call.dest x.admitted.object_identity) {i : UInt64} (hi : x.held.Has i) :
    i ∈ (w.held call.dest x.admitted.object_identity.core).synced := by
  let f : FullAttempt := { x.attempt hx [] with readable := readable }
  have hf : ReceiveCall.Imitates call x.admitted readable f := ⟨rfl, rfl, rfl⟩
  obtain ⟨d, resumed, hdb, hopen⟩ := ReceiveCall.open_of_finds hstate hfinds hx.record hf
  have hheld : x.held = d.record.durable := hx.held_eq hdb
  rw [hheld] at hi
  apply (hsuits.attempt hf).known h.history.honest
  rw [← open_adopted] at hopen
  rcases ResumeDb.open_adopts hopen with ⟨hstored, -⟩ | hnew
  · rw [hstored]
    exact hi
  · exact absurd hi ((ResumeRecord.new_eq_ok hnew).2.2 i).2

/-- Calls with one state path and crashes, in any order and against any other sides, as long
as no call names a destination or an object that the record does not suit, and no clean-up
removes the destination and leaves the record: a call that returns a report leaves every
chunk of its object at its destination for good, those that it did not ask for as well. -/
theorem a_report_of_the_receiver_means_that_every_chunk_is_at_the_destination
    (h : CallHistory P w) {w' : World} {call : ReceiveCall} {a : ReceiveAnswers}
    {replay : ReplayCache} {ds : List FrameDeed} {report : TransferReport} {s : Receiving}
    (hends : Ends (call.receive_file P a) (.start replay) ds (.ok report) s)
    (hstate : call.resume_state = true) {readable : Bool}
    (hfinds : ReceiveCall.Finds a readable w.record) {admitted : Admitted}
    (hopened : s.opened = some admitted) (hsuits : w.Suits call.dest admitted.object_identity)
    (hs : Shelf.Steps call.dest admitted.object_identity.core w s.deeds w') :
    ∀ i < admitted.ctx.chunk_count,
      i ∈ (w'.held call.dest admitted.object_identity.core).synced := by
  intro i hi
  obtain ⟨x, hx, turns, digest, c, arrival, -, -, ho, harrival, -, hf, -⟩ :=
    ReceiveCall.returned_of_ends hends
  obtain rfl := Option.some.inj (ho.symm.trans hopened)
  rw [deeds_of_arrival ho harrival] at hs
  obtain ⟨-, s₁, hexec, hrecv, hremoved⟩ := hf
  obtain ⟨s₂, hloop, hcomplete, rfl, -⟩ := ReceiveCall.receive_to_end_eq_complete hexec
  have hsub := (h.history.honest call.dest x.admitted.object_identity.core).synced_subset
  -- what is known at the start is what the destination holds for good
  let k : Known UInt64 := ⟨(w.held call.dest x.admitted.object_identity.core).synced,
    (w.held call.dest x.admitted.object_identity.core).synced⟩
  have hbacked : s₂.Backed k :=
    (receive_loop_backed _).of_ok (fun i hi => h.held hx hstate hfinds hsuits hi) hloop
  have hhas : s₂.held.Has i := by
    have hg : (x.attempt hx turns).incoming.ctx.Geometry := hx.geometry
    have hfilled := loop_fills (start_filled hg hx.counts.1 hx.counts.2) hg hloop
    apply (ChunkBitmap.is_complete_iff _).1 hcomplete
    rw [hfilled.shape.held_count]
    exact hi
  have hsynced := hs.synced (n := k) hsub ⟨hsub, fun _ hj => hj⟩
    fun deed hdeed => removed_record (hremoved.subset hdeed)
  apply hsynced
  rw [hrecv, afterAll_append]
  exact .inr (hbacked i hhas)

/-- The next call asks for the other two chunks, and then all three are at the destination. -/
theorem a_resumed_call_leaves_all_three_chunks : ∃ (call : ReceiveCall) (a : ReceiveAnswers)
    (replay : ReplayCache) (ds : List FrameDeed) (report : TransferReport) (admitted : Admitted)
    (r : ResumeRecord) (s : Receiving) (w w' : World), CallHistory sample w ∧
    w.record = some r ∧ (∀ i, r.durable.Has i ↔ i = 1) ∧
    Ends (call.receive_file sample a) (.start replay) ds (.ok report) s ∧
    s.opened = some admitted ∧ admitted.ctx = threeChunks ∧
    Shelf.Steps call.dest admitted.object_identity.core w s.deeds w' ∧
    ∀ i < admitted.ctx.chunk_count,
      i ∈ (w'.held call.dest admitted.object_identity.core).synced := by
  obtain ⟨t, r, file, w, hprepare, hctx, hhistory, hrecord, hhome, hkept⟩ := exists_interrupted
  have hcalm : (Meeting.sampleMeeting t threeContent (some r) file).Calm sample threeContent :=
    three_calm hprepare hctx (by rintro _ ⟨⟩; exact hkept)
  obtain ⟨_, _, _, report, _, route, s, arrival, -, -, -, hplays,
    ⟨admitted, hopened, hadmitted, hcore⟩, -⟩ := hcalm.exists_plays sample_encrypts sample_decrypts
      DeviceIdentity.sample_verifies sample_exchanges sample_decapsulates
  obtain ⟨ds, hends, -⟩ := hplays.does
  have hsuits : World.Suits w "a.txt" admitted.object_identity := by
    intro r' hr'
    obtain rfl := Option.some.inj (hrecord.symm.trans hr')
    obtain ⟨hpath, hidentity⟩ := Prod.mk.inj (hhome (.replicate 32 0))
    refine iff_of_true hpath (ObjectIdentity.matches_iff.2 ?_)
    rw [hidentity, hcore (.replicate 32 0)]
    rfl
  have hw : Shelf.Sound w := fun d k => (hhistory.history.honest d k).synced_subset
  obtain ⟨w', hsteps⟩ := Shelf.exists_steps hw "a.txt" admitted.object_identity.core s.deeds
  have hhas : ∀ i, r.durable.Has i ↔ i = 1 := fun i => (hkept.has i).trans List.mem_singleton
  exact ⟨_, _, _, ds, _, admitted, r, s, w, w', hhistory, hrecord, hhas, hends, hopened,
    hadmitted.trans hctx, hsteps,
    a_report_of_the_receiver_means_that_every_chunk_is_at_the_destination hhistory hends rfl
      (show ReceiveCall.Finds _ true _ from hrecord.symm) hopened hsuits hsteps⟩

end Histories

end rtp2_core.transfer
