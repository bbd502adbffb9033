-- Attempts to receive that share a state path and may name different
-- destinations. The resume record is adopted by the identity of the object
-- alone. It is true of the destination as long as the attempts name the one
-- that it was made for, and a clean-up is not stopped halfway.
import Reyta.Attempts
import Reyta.SharedRecord

open byte_string crash_disk early_exit file_region shared_record

namespace rtp2_core.transfer

open bitmap crypto object resume route

/-! ## An attempt up to its end -/

/-- How an attempt ends that did not fail: the stream is still open, or all
chunks are there and the digest does or does not match. -/
inductive Outcome where
  | waiting
  | mismatch
  | complete
  deriving DecidableEq, Repr

/-- What the system does in an attempt, also after the file is complete. -/
structure FullAttempt extends Attempt where
  incoming : Incoming
  manifest_commitment : Arr 32
  chunk_ciphertext_size : UInt64
  identity_eq : identity = ⟨incoming.ctx.transfer_id, incoming.ctx.object_id, manifest_commitment,
    incoming.root, incoming.ctx.chunk_count, chunk_ciphertext_size,
    incoming.ctx.logical_plaintext_size⟩
  expected_plaintext_digest : Arr 32
  /-- Reading the file again. -/
  reread : Except String Unit
  remove_file : Except String Unit
  remove_record : Except String Unit

/-- The running hash if every chunk came in order, and otherwise the hash of
what was persisted. -/
def plaintext_digest (P : Primitives) (ctx : ObjectContext) (reread : Except String Unit) :
    Act (Arr 32) := fun s =>
  match s.streaming.filter fun streaming => streaming.2 = ctx.chunk_count with
  | some (hashed, _) => (.ok (P.blake3 hashed), s)
  | none =>
    match reread with
    | .error e => (.error (.Io e), s)
    | .ok () => (.ok (P.blake3 s.file), s)

def compare_digest (P : Primitives) (a : FullAttempt) : Act Outcome := do
  let digest ← plaintext_digest P a.incoming.ctx a.reread
  pure (if ct_eq digest.bytes a.expected_plaintext_digest.bytes then .complete else .mismatch)

def receive_to_end (P : Primitives) (a : FullAttempt) : Act Outcome := do
  match ← receive_loop P a.incoming a.turns with
  | .next => pure .waiting
  | .done => do
    settle a.toAttempt
    compare_digest P a

/-- What is done at the destination and at the state path. -/
abbrev DestDeed := Deed UInt64 ResumeRecord

/-- A removal that the file system refuses is ignored. -/
def removed (answer : Except String Unit) (deed : DestDeed) : List DestDeed :=
  match answer with
  | .ok () => [deed]
  | .error _ => []

/-- What is removed in the end, in this order. -/
def FullAttempt.clean_up (a : FullAttempt) : Except TransferError Outcome → List DestDeed
  | .ok .mismatch => removed a.remove_file .remove_file ++ removed a.remove_record .remove_record
  | .ok .complete => removed a.remove_record .remove_record
  | _ => []

/-- The result, and the state in the end. -/
def FullAttempt.received (P : Primitives) (a : FullAttempt) (db : ResumeDb) :
    Except TransferError Outcome × Recv :=
  exec (receive_to_end P a)
    (.start a.incoming.ctx (some db) db.record.durable a.route_watch a.file)

/-- All that an attempt does that finds the record `stored`. -/
def FullAttempt.deeds (P : Primitives) (a : FullAttempt) (stored : Option ResumeRecord) :
    List DestDeed :=
  match ResumeDb.open (if a.readable then stored else none) a.identity a.dest with
  | .error _ => []
  | .ok (db, _) =>
    match a.prepared with
    | .error _ => [.resize]
    | .ok () =>
      .resize :: ((a.received P db).2.effects.map .effect ++ a.clean_up (a.received P db).1)

/-! ## Histories -/

/-- For each destination and each object, the chunks of the object that the
destination holds with their verified plaintext, and the record at the state
path. -/
abbrev World := Shelf String ObjectIdentity UInt64 ResumeRecord

/-- The destination that a record was made for, and its object. -/
def home (r : ResumeRecord) : String × ObjectIdentity := (r.temporary_path, r.identity.core)

/-- The worlds that attempts and crashes lead to, from one without a record. An
attempt may be cut short after any deed. `allowed` says which attempts are
made, and how far they come. -/
inductive History (P : Primitives) (allowed : World → FullAttempt → List DestDeed → Prop) :
    World → Prop
  | start {w : World} (hsub : ∀ d k, (w.held d k).synced ⊆ (w.held d k).written)
      (h : w.record = none) : History P allowed w
  | attempt {w w' : World} (hw : History P allowed w) (a : FullAttempt) {ds : List DestDeed}
      (hds : ds <+: a.deeds P w.record) (hallowed : allowed w a ds)
      (hs : Shelf.Steps a.dest a.identity.core w ds w') : History P allowed w'
  | crash {w w' : World} (hw : History P allowed w) (hc : Shelf.Crash w w') : History P allowed w'

/-- A record at the state path was made for the destination of the attempt
exactly if it is about the object of the attempt. -/
def FullAttempt.Suits (a : FullAttempt) (w : World) : Prop :=
  ∀ r ∈ w.record, (r.temporary_path = a.dest → r.identity.core = a.identity.core) ∧
    (a.readable = true → r.identity.matches a.identity = true → r.temporary_path = a.dest)

/-- Besides, the destination is not removed without the record. -/
def Careful (w : World) (a : FullAttempt) (ds : List DestDeed) : Prop :=
  a.Suits w ∧ (.remove_file ∈ ds → .remove_record ∈ ds)

/-- Every chunk that is durable after `open` is held by the destination. -/
def FullAttempt.Finds (a : FullAttempt) (w : World) : Prop :=
  ∀ db resumed,
    ResumeDb.open (if a.readable then w.record else none) a.identity a.dest = .ok (db, resumed) →
    ∀ i, db.record.durable.Has i → i ∈ (w.held a.dest a.identity.core).written

/-! ## The records of an attempt -/

/-- Every record of an attempt is about one object, for one destination. -/
structure Recv.AtHome (d : String) (k : ObjectIdentity) (s : Recv) : Prop where
  db : ∀ db ∈ s.db, home db.record = (d, k)
  effects : ∀ e ∈ s.effects, Shelf.OwnRecord home d k e

section AtHome

variable {P : Primitives} {t : Incoming} {d : String} {k : ObjectIdentity} {s : Recv}
  {ctx : ObjectContext} {a : Answers} {index : UInt64} {p : Bytes}

theorem Recv.AtHome.congr {s' : Recv} (h : s.AtHome d k) (hdb : s'.db = s.db)
    (heffects : s'.effects = s.effects) : s'.AtHome d k := by
  refine ⟨?_, ?_⟩
  · rw [hdb]
    exact h.db
  · rw [heffects]
    exact h.effects

theorem Recv.AtHome.append {es : List DiskEffect} (h : s.AtHome d k)
    (hes : ∀ e ∈ es, Shelf.OwnRecord home d k e) :
    ∀ e ∈ s.effects ++ es, Shelf.OwnRecord home d k e := by
  intro e he
  rcases List.mem_append.1 he with he | he
  · exact h.effects e he
  · exact hes e he

theorem write_chunk_atHome (h : s.AtHome d k) :
    (exec (write_chunk ctx a index p) s).2.AtHome d k := by
  unfold exec write_chunk
  rcases a.write with ⟨n, e⟩ | _
  · exact ⟨h.db, h.append (by simp [Shelf.OwnRecord])⟩
  · exact ⟨h.db, h.append (by simp [Shelf.OwnRecord])⟩

theorem mark_verified_atHome (h : s.AtHome d k) :
    (exec (mark_verified index) s).2.AtHome d k := by
  unfold exec mark_verified
  split
  · exact h
  · next db hdb =>
    split
    · exact h
    · next db' hmark =>
      refine ⟨?_, h.effects⟩
      intro d' hd'
      obtain rfl := Option.some.inj hd'
      have hhome := h.db db hdb
      unfold home at hhome ⊢
      rwa [(ResumeDb.mark_verified_has hmark).1, (ResumeDb.mark_verified_eq_ok hmark).1]

theorem mark_home {db db' : ResumeDb} (h : db.mark index = .ok db') :
    home db'.record = home db.record := by
  unfold home
  rw [(ResumeDb.mark_keeps h).2, (ResumeDb.mark_eq_ok h).1]

theorem chunk_written_atHome (h : s.AtHome d k) :
    (exec (chunk_written index a) s).2.AtHome d k := by
  rcases chunk_written_exec index a s with ⟨-, he⟩ | ⟨db, db', effects, result, hdb, hw, he⟩
  · rw [he]
    exact h
  · have hhome := h.db db hdb
    rw [he]
    have hall : home db'.record = (d, k) ∧ ∀ e ∈ effects, Shelf.OwnRecord home d k e := by
      cases hw with
      | refused e => exact ⟨hhome, by simp⟩
      | marked hmark => exact ⟨(mark_home hmark).trans hhome, by simp⟩
      | not_synced hmark e => exact ⟨(mark_home hmark).trans hhome, by simp [Shelf.OwnRecord]⟩
      | committed hmark =>
        have hnew := (mark_home hmark).trans hhome
        exact ⟨hnew, by simpa [Shelf.OwnRecord] using hnew⟩
      | not_committed hmark e =>
        have hnew := (mark_home hmark).trans hhome
        exact ⟨hnew, by simpa [Shelf.OwnRecord] using hnew⟩
    refine ⟨?_, h.append hall.2⟩
    intro d' hd'
    obtain rfl := Option.some.inj hd'
    exact hall.1

theorem persist_atHome (h : s.AtHome d k) : (exec (persist ctx a index p) s).2.AtHome d k := by
  refine Spec.always_iff.1 (Spec.bind (q := fun _ => Recv.AtHome d k) ?write fun _ =>
    Spec.bind (q := fun _ => Recv.AtHome d k) ?mark fun _ => ?held) s h
  case write => exact Spec.always_iff.2 fun s hs => write_chunk_atHome hs
  case mark => exact Spec.always_iff.2 fun s hs => mark_verified_atHome hs
  case held =>
    rw [Spec.always_iff]
    intro s hs
    unfold exec set_held
    split
    · exact hs
    · exact hs.congr rfl rfl

theorem turn_atHome (u : Turn) : Spec (Recv.AtHome d k) (turn P t u)
    (fun _ => Recv.AtHome d k) (fun _ => Recv.AtHome d k) := by
  apply turn_spec (fun _ _ hs => hs)
  intro s index p hs _
  refine accept_always (fun _ _ _ _ hdb heffects hs => hs.congr hdb heffects) ?_
    (fun _ hs => chunk_written_atHome hs)
  rintro s' rfl
  exact persist_atHome hs

theorem sync_all_atHome (outcome : Except String Unit) (h : s.AtHome d k) :
    (exec (sync_all outcome) s).2.AtHome d k := by
  unfold exec sync_all
  rcases outcome with e | _
  · exact ⟨h.db, h.append (by simp [Shelf.OwnRecord])⟩
  · exact ⟨h.db, h.append (by simp [Shelf.OwnRecord])⟩

theorem checkpoint_home (db : ResumeDb) (outcome : Except String Unit) :
    (db.checkpoint outcome).1.record = db.record ∧
      ∀ e ∈ (db.checkpoint outcome).2.1,
        Shelf.OwnRecord home (home db.record).1 (home db.record).2 e := by
  rcases outcome with e | _
  · exact ⟨rfl, by simp [ResumeDb.checkpoint, Shelf.OwnRecord]⟩
  · exact ⟨rfl, by simp [ResumeDb.checkpoint, Shelf.OwnRecord]⟩

theorem keep_progress_atHome (att : Attempt) (h : s.AtHome d k) :
    (exec (keep_progress att) s).2.AtHome d k := by
  unfold keep_progress
  rw [exec]
  split
  · exact h
  · next db hdb =>
    obtain ⟨hrecord, heffects⟩ := checkpoint_home db att.checkpoint
    have hhome := h.db db hdb
    rw [hhome] at heffects
    refine (Spec.always_iff (p := Recv.AtHome d k)).1 ?_ s h
    refine Spec.bind (q := fun _ => Recv.AtHome d k) ?sync fun _ =>
      Spec.bind (q := fun _ => Recv.AtHome d k) ?commit fun _ => ?result
    case sync => exact Spec.always_iff.2 fun s hs => sync_all_atHome _ hs
    case commit =>
      refine Spec.always_iff.2 fun s hs => ⟨?_, hs.append heffects⟩
      intro d' hd'
      obtain rfl := Option.some.inj hd'
      rw [hrecord]
      exact hhome
    case result => exact Spec.always_iff.2 fun s hs => hs

theorem receive_atHome (att : Attempt) (h : s.AtHome d k) :
    (exec (receive P t att) s).2.AtHome d k :=
  receive_always (fun _ hs => hs) turn_atHome (fun _ hs => sync_all_atHome _ hs)
    (fun _ hs => keep_progress_atHome att hs) h

end AtHome

/-! ## What an attempt keeps -/

section Deeds

variable {P : Primitives} {a : FullAttempt} {stored : Option ResumeRecord} {w : World}

theorem compare_digest_state (s : Recv) : (exec (compare_digest P a) s).2 = s := by
  unfold compare_digest
  rw [exec_bind]
  unfold exec plaintext_digest
  split
  · next heq =>
    split at heq
    · cases heq
      rfl
    · split at heq <;> cases heq
      rfl
  · next heq =>
    split at heq
    · cases heq
    · split at heq <;> cases heq
      rfl

/-- The digest changes nothing. -/
theorem receive_to_end_state (s : Recv) :
    (exec (receive_to_end P a) s).2 = (exec (receive P a.incoming a.toAttempt) s).2 := by
  unfold receive_to_end receive
  rw [exec_bind, exec_bind]
  rcases exec (receive_loop P a.incoming a.turns) s with ⟨e | flow, s₁⟩
  · rfl
  · cases flow with
    | next => rfl
    | done =>
      simp only
      rw [exec_bind]
      rcases exec (settle a.toAttempt) s₁ with ⟨e | u, s₂⟩
      · rfl
      · exact compare_digest_state s₂

theorem clean_up_tidy (result : Except TransferError Outcome) {n : Known UInt64}
    {ds : List DestDeed} (hds : ds <+: a.clean_up result)
    (hremove : .remove_file ∈ ds → .remove_record ∈ ds) :
    Shelf.Tidy home ResumeRecord.chunks a.dest a.identity.core n ds := by
  have hcases : a.clean_up result = [] ∨ a.clean_up result = [.remove_file] ∨
      a.clean_up result = [.remove_record] ∨
      a.clean_up result = [.remove_file, .remove_record] := by
    unfold FullAttempt.clean_up removed
    rcases result with e | outcome
    · simp
    · cases outcome <;> rcases a.remove_file with e | _ <;>
        rcases a.remove_record with e' | _ <;> simp
  rcases ds with _ | ⟨b, _ | ⟨c, ds⟩⟩
  · trivial
  · cases b with
    | remove_file => simp at hremove
    | remove_record => rfl
    | resize => rcases hcases with h | h | h | h <;> rw [h] at hds <;> simp at hds
    | effect e => rcases hcases with h | h | h | h <;> rw [h] at hds <;> simp at hds
  · rcases hcases with h | h | h | h <;> rw [h] at hds <;> simp at hds
    obtain ⟨rfl, rfl, rfl⟩ := hds
    rfl

/-- The record that `open` adopts. -/
def FullAttempt.adopted (a : FullAttempt) (stored : Option ResumeRecord) : Option ResumeRecord :=
  (if a.readable then stored else none).filter fun r => r.identity.matches a.identity

theorem adopted_eq_some {r : ResumeRecord} (h : a.adopted stored = some r) :
    a.readable = true ∧ stored = some r ∧ r.identity.matches a.identity = true := by
  obtain ⟨hstored, hmatch⟩ := Option.filter_eq_some_iff.1 h
  split_ifs at hstored with hreadable
  exact ⟨hreadable, hstored, hmatch⟩

theorem open_adopted : ResumeDb.open (a.adopted stored) a.identity a.dest =
    ResumeDb.open (if a.readable then stored else none) a.identity a.dest :=
  ResumeDb.open_filter _ _ _

/-- The database that an attempt works with is about its object and its
destination. -/
theorem open_home (hhome : ∀ r ∈ a.adopted stored, home r = (a.dest, a.identity.core))
    {db : ResumeDb} {resumed : Bool}
    (h : ResumeDb.open (a.adopted stored) a.identity a.dest = .ok (db, resumed)) :
    home db.record = (a.dest, a.identity.core) := by
  rcases ResumeDb.open_adopts h with ⟨hstored, -⟩ | hnew
  · exact hhome _ hstored
  · obtain ⟨hid, hpath, -⟩ := ResumeRecord.new_eq_ok hnew
    rw [home, hid, hpath]

/-- An attempt that is cut short anywhere but in its clean-up is tidy, if what
it adopts was made for its destination. -/
theorem deeds_tidy (hhome : ∀ r ∈ a.adopted stored, home r = (a.dest, a.identity.core))
    {ds : List DestDeed} (hds : ds <+: a.deeds P stored)
    (hremove : .remove_file ∈ ds → .remove_record ∈ ds) :
    Shelf.Tidy home ResumeRecord.chunks a.dest a.identity.core
      ⟨claimed ResumeRecord.chunks (a.adopted stored),
        claimed ResumeRecord.chunks (a.adopted stored)⟩ ds := by
  rcases ds with _ | ⟨b, ds⟩
  · trivial
  unfold FullAttempt.deeds at hds
  split at hds
  · simp at hds
  · next db resumed hopen =>
    rw [← open_adopted] at hopen
    have hread : ResumeDb.open (if true then a.adopted stored else none) a.identity a.dest =
        .ok (db, resumed) := hopen
    have hstart := start_ordered a.incoming.ctx a.route_watch a.file hread
    have hown : (Recv.start a.incoming.ctx (some db) db.record.durable a.route_watch a.file).AtHome
        a.dest a.identity.core := by
      refine ⟨?_, by simp [Recv.start]⟩
      intro d hd
      obtain rfl := Option.some.inj hd
      exact open_home hhome hopen
    split at hds
    · simp at hds
      obtain ⟨rfl, rfl⟩ := hds
      trivial
    · obtain ⟨rfl, hrest⟩ := List.cons_prefix_cons.1 hds
      rw [Shelf.Tidy]
      refine Shelf.Tidy.of_prefix ?_ ?_ (fun n ds => clean_up_tidy _) hrest ?_
      · rw [FullAttempt.received, receive_to_end_state]
        exact receive_left a.toAttempt hstart
      · rw [FullAttempt.received, receive_to_end_state]
        exact (receive_atHome a.toAttempt hown).effects
      · intro hmem
        simpa using hremove (List.mem_cons_of_mem _ hmem)

theorem FullAttempt.Suits.fits (h : a.Suits w) : Shelf.Fits home a.dest a.identity.core w := by
  intro r hr hd
  rw [home, (h r hr).1 hd, ← show r.temporary_path = a.dest from hd]

theorem FullAttempt.Suits.adopted (h : a.Suits w) :
    ∀ r ∈ a.adopted w.record, home r = (a.dest, a.identity.core) := by
  intro r hr
  obtain ⟨hreadable, hrecord, hmatch⟩ := adopted_eq_some hr
  rw [home, (h r hrecord).2 hreadable hmatch, ObjectIdentity.matches_iff.1 hmatch]

/-- What the adopted record claims is known to be there. -/
theorem FullAttempt.Suits.known (h : a.Suits w)
    (hhonest : Shelf.Honest home ResumeRecord.chunks w) :
    claimed ResumeRecord.chunks (a.adopted w.record) ⊆ (w.held a.dest a.identity.core).synced := by
  rcases hr : a.adopted w.record with _ | r
  · exact Set.empty_subset _
  · have htruth := hhonest.truth (adopted_eq_some hr).2.1
    rw [h.adopted r hr] at htruth
    exact htruth

/-- Careful attempts keep the record true of its own destination. -/
theorem History.honest (h : History P Careful w) : Shelf.Honest home ResumeRecord.chunks w := by
  induction h with
  | start hsub hnone => exact Shelf.honest_of_no_record hsub hnone
  | @attempt w w' hw a ds hds hcareful hs ih =>
    obtain ⟨hsuits, hremove⟩ := hcareful
    have hknown := hsuits.known ih
    refine hs.honest ih hsuits.fits ⟨?_, hknown⟩ (deeds_tidy hsuits.adopted hds hremove)
    exact fun i hi => (ih a.dest a.identity.core).synced_subset (hknown hi)
  | crash hw hc ih => exact hc.honest ih

/-- A clean-up that is stopped after it removed the destination: a record that is
still there and marks a chunk is adopted by the next attempt, and the
destination has nothing. -/
theorem a_stopped_clean_up_leaves_an_untrue_record
    {allowed : World → FullAttempt → List DestDeed → Prop}
    {w w₁ w' : World} (hw : History P allowed w) {ds : List DestDeed}
    (hds : ds ++ [.remove_file] <+: a.deeds P w.record)
    (hallowed : allowed w a (ds ++ [.remove_file]))
    (hs : Shelf.Steps a.dest a.identity.core w ds w₁)
    (hremove : Shelf.Step a.dest a.identity.core w₁ .remove_file w') {r : ResumeRecord} {i : UInt64}
    (hr : w₁.record = some r) (hmatch : r.identity.matches a.identity = true)
    (hi : r.durable.Has i) (hreadable : a.readable = true) :
    History P allowed w' ∧ ¬ a.Finds w' := by
  refine ⟨hw.attempt a hds hallowed (hs.snoc hremove), fun hfinds => ?_⟩
  cases hremove with
  | remove_file hnone hfiles hrecord =>
    have hstored : (if a.readable then w'.record else none) = some r := by
      rw [if_pos hreadable, hrecord, hr]
    have hopen := ResumeDb.open_of_matches a.dest hmatch
    rw [← hstored] at hopen
    have hheld := hfinds _ _ hopen i hi
    rw [hnone] at hheld
    exact hheld

end Deeds

/-! ## The second of two chunks, for two destinations -/

/-- The attempt in which only the last chunk arrives, with a destination. -/
def lastChunkTo (dest : String) : FullAttempt where
  toAttempt := { sampleAttempt with dest }
  incoming := twoIncoming
  manifest_commitment := .replicate 32 0
  chunk_ciphertext_size := 65552
  identity_eq := rfl
  expected_plaintext_digest := .replicate 32 0
  reread := .ok ()
  remove_file := .ok ()
  remove_record := .ok ()

/-- The chunk is written, the file is synced and the record is committed, for the
destination `"file"`. -/
def keepsLastChunkAtFile : List DestDeed → Bool
  | [.resize, .effect (.write 1), .effect .sync, .effect (.commit r)] =>
    r.durable.Has 1 && r.temporary_path = "file" && r.identity = sampleAttempt.identity
  | _ => false

theorem lastChunkTo_keeps :
    keepsLastChunkAtFile ((lastChunkTo "file").deeds sample none) = true := by
  decide +kernel

/-- Only `"file"` holds something, of the object of the sample. -/
def atFile (blocks : Blocks UInt64) (record : Option ResumeRecord) : World where
  held d k := if d = "file" ∧ k = sampleAttempt.identity.core then blocks else .none
  record := record

theorem atFile_disk (blocks : Blocks UInt64) (record : Option ResumeRecord) :
    (atFile blocks record).disk "file" sampleAttempt.identity.core =
      ⟨blocks.written, blocks.synced, record⟩ := by
  simp [Shelf.disk, atFile]

theorem atFile_elsewhere (b b' : Blocks UInt64) (r r' : Option ResumeRecord) :
    Shelf.Elsewhere "file" sampleAttempt.identity.core (atFile b r) (atFile b' r') := by
  refine ⟨fun k hk => ?_, fun d hd => ?_⟩
  · simp [atFile, hk, Blocks.none]
  · funext k
    simp [atFile, hd]

theorem atFile_effect {b : Blocks UInt64} (b' : Blocks UInt64) {r r' : Option ResumeRecord}
    {e : DiskEffect}
    (h : crash_disk.Step ⟨b.written, b.synced, r⟩ e ⟨b'.written, b'.synced, r'⟩) :
    Shelf.Step "file" sampleAttempt.identity.core (atFile b r) (.effect e) (atFile b' r') := by
  apply Shelf.Step.effect
  · rw [atFile_disk, atFile_disk]
    exact h
  · exact atFile_elsewhere b b' r r'

/-- After the attempt the last chunk is at `"file"`, and the record marks it. -/
theorem history_at_file (allowed : World → FullAttempt → List DestDeed → Prop)
    (hallowed : ∀ w ds, w.record = none → .remove_file ∉ ds → allowed w (lastChunkTo "file") ds) :
    ∃ r : ResumeRecord, History sample allowed (atFile ⟨insert 1 ∅, insert 1 ∅⟩ (some r)) ∧
      r.durable.Has 1 ∧
      r.temporary_path = "file" ∧ r.identity = sampleAttempt.identity := by
  have hkeeps := lastChunkTo_keeps
  unfold keepsLastChunkAtFile at hkeeps
  split at hkeeps
  · next r hds =>
    obtain ⟨⟨hhas, hpath⟩, hid⟩ : (r.durable.Has 1 ∧ r.temporary_path = "file") ∧
        r.identity = sampleAttempt.identity := by simpa using hkeeps
    refine ⟨r, ?_, hhas, hpath, hid⟩
    have hstart : History sample allowed (atFile .none none) := by
      refine .start (fun d k => ?_) rfl
      simp [atFile, Blocks.none]
    have hprefix : [.resize, .effect (.write 1), .effect .sync, .effect (.commit r)] <+:
        (lastChunkTo "file").deeds sample none := by
      rw [hds]
    refine hstart.attempt (lastChunkTo "file") hprefix (hallowed _ _ rfl (by simp)) ?_
    refine .cons (.resize rfl (atFile_elsewhere _ _ _ _)) ?_
    refine .cons (atFile_effect ⟨insert 1 ∅, ∅⟩ (.write _ 1)) ?_
    refine .cons (atFile_effect ⟨insert 1 ∅, insert 1 ∅⟩ (.sync _)) ?_
    exact .cons (atFile_effect _ (.commit _ r)) (.nil _)
  · cases hkeeps

/-! ## What `open` adopts -/

/-- Over any history of attempts and crashes, with any destinations and any
objects: if every attempt finds no record, or finds one that was made for its
own destination exactly if it is about its own object, and no clean-up removes
the destination and leaves the record, then every chunk that is durable after
`open` is held by the destination. What counts as held is the plaintext that
passed the checks of the chunk, at its region. -/
theorem a_record_is_true_of_the_destination (P : Primitives) {w : World}
    (h : History P Careful w) (a : FullAttempt) (ha : a.Suits w) :
    a.Finds w ∧ ∀ (t : Incoming) (u : Turn) (s : Recv) (i : UInt64),
      .write i ∈ (exec (turn P t u) s).2.effects → .write i ∈ s.effects ∨
        ∃ p, u.accepts P t s.held = some (i, p) ∧ (exec (turn P t u) s).2.file =
          write_at 0 s.file (i * t.ctx.chunk_plaintext_size.toUInt64).toNat p := by
  refine ⟨?_, fun t u s i => turn_writes u s⟩
  intro db resumed hopen i hi
  have hhonest := h.honest
  apply (hhonest a.dest a.identity.core).synced_subset
  apply ha.known hhonest
  rw [← open_adopted] at hopen
  rcases ResumeDb.open_adopts hopen with ⟨hstored, -⟩ | hnew
  · rw [hstored]
    exact hi
  · exact absurd hi ((ResumeRecord.new_eq_ok hnew).2.2 i).2

/-- The next attempt with the same destination finds the chunk. -/
theorem the_last_chunk_is_found_again : ∃ w : World, History sample Careful w ∧
    (lastChunkTo "file").Suits w ∧ (∃ r ∈ w.record, r.durable.Has 1 ∧
      r.identity.matches (lastChunkTo "file").identity = true) ∧
    1 ∈ (w.held "file" (lastChunkTo "file").identity.core).written := by
  have hcareful : ∀ (w : World) (ds : List DestDeed), w.record = none → .remove_file ∉ ds →
      Careful w (lastChunkTo "file") ds := by
    intro w ds hnone hkept
    refine ⟨?_, fun hmem => absurd hmem hkept⟩
    intro r hr
    rw [hnone] at hr
    cases hr
  obtain ⟨r, hw, hhas, hpath, hid⟩ := history_at_file Careful hcareful
  have hmatch : r.identity.matches (lastChunkTo "file").identity = true := by
    rw [ObjectIdentity.matches_iff, hid]
    rfl
  have hsuits : (lastChunkTo "file").Suits (atFile ⟨insert 1 ∅, insert 1 ∅⟩ (some r)) := by
    intro r' hr'
    obtain rfl := Option.some.inj hr'
    exact ⟨fun _ => ObjectIdentity.matches_iff.1 hmatch, fun _ _ => hpath⟩
  have hopen := ResumeDb.open_of_matches "file" hmatch
  exact ⟨_, hw, hsuits, ⟨r, rfl, hhas, hmatch⟩,
    (a_record_is_true_of_the_destination sample hw _ hsuits).1 _ _ hopen 1 hhas⟩

/-- An attempt with another destination adopts the record as well, and its
destination does not have the chunk. -/
theorem another_destination_does_not_have_the_chunk : ∃ w : World,
    History sample (fun _ _ _ => True) w ∧ ¬ (lastChunkTo "other").Finds w := by
  obtain ⟨r, hw, hhas, -, hid⟩ := history_at_file (fun _ _ _ => True) (fun _ _ _ _ => trivial)
  refine ⟨_, hw, fun hfinds => ?_⟩
  have hmatch : r.identity.matches (lastChunkTo "other").identity = true := by
    rw [ObjectIdentity.matches_iff, hid]
    rfl
  have hheld := hfinds _ _ (ResumeDb.open_of_matches "other" hmatch) 1 hhas
  simp [atFile, lastChunkTo, Blocks.none] at hheld

end rtp2_core.transfer
