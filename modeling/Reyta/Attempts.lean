-- Attempts to receive a file, one after the other. An attempt may be cut short
-- by a crash or end in an error. The resume record that it leaves on the disk
-- names only chunks that the file holds for good.
import Reyta.Receiver

open byte_string crash_disk early_exit file_region

namespace rtp2_core.transfer

open bitmap crypto merkle object resume route

/-! ## One attempt -/

/-- `flush` and `sync_all`. -/
def sync_all (outcome : Except String Unit) : Act Unit := fun s =>
  match outcome with
  | .ok () => (.ok (), { s with effects := s.effects ++ [.sync] })
  | .error e => (.error (.Io e), { s with effects := s.effects ++ [.failed] })

/-- What the system does in one attempt. -/
structure Attempt where
  identity : ObjectIdentity
  dest : String
  /-- Whether the record at the state path can be read and decoded. -/
  readable : Bool
  /-- Opening the destination, and the range request. -/
  prepared : Except TransferError Unit
  route_watch : RouteWatch
  file : Bytes
  turns : List Turn
  /-- The answers after the loop. -/
  sync_all : Except String Unit
  checkpoint : Except String Unit

/-- What did arrive is kept for the next attempt. -/
def keep_progress (a : Attempt) : Act Unit := fun s =>
  match s.db with
  | none => (.ok (), s)
  | some db => exec (do
      sync_all a.sync_all
      change fun s => { s with
        db := some (db.checkpoint a.checkpoint).1
        effects := s.effects ++ (db.checkpoint a.checkpoint).2.1 }
      lift ((db.checkpoint a.checkpoint).2.2.mapError fun e => .Io e.to_string)) s

/-- After the end of the stream, up to the point where the file is complete
and synced. -/
def settle (a : Attempt) : Act Unit := do
  let s ← read
  if s.held.is_complete then sync_all a.sync_all
  else do
    keep_progress a
    throw (.Protocol "transfer incomplete")

/-- The loop, and what follows if the stream ended. -/
def receive (P : Primitives) (t : Incoming) (a : Attempt) : Act Unit := do
  match ← receive_loop P t a.turns with
  | .next => pure ()
  | .done => settle a

/-- An attempt that finds the record `stored`: its result, and what it does to
the disk. -/
def receive_file (P : Primitives) (t : Incoming) (a : Attempt) (stored : Option ResumeRecord) :
    Except TransferError Unit × List DiskEffect :=
  match ResumeDb.open (if a.readable then stored else none) a.identity a.dest with
  | .error e => (.error (.Io e.to_string), [])
  | .ok (db, _) =>
    match a.prepared with
    | .error e => (.error e, [])
    | .ok () =>
      let (result, s) :=
        exec (receive P t a) (.start t.ctx (some db) db.record.durable a.route_watch a.file)
      (result, s.effects)

/-- What the attempts to receive one object can do. -/
def attempts (P : Primitives) (t : Incoming) (stored : Option ResumeRecord) :
    Set (List DiskEffect) :=
  { es | ∃ a, (receive_file P t a stored).2 = es }

/-! ## The steps that do not touch the disk -/

/-- Neither the file nor the disk changes, nor what the record marks durable. -/
structure Recv.Quiet (s s' : Recv) : Prop where
  file : s'.file = s.file
  effects : s'.effects = s.effects
  chunks : ∀ db' ∈ s'.db, ∃ db ∈ s.db, db'.record.chunks = db.record.chunks

section Accept

variable {s : Recv} {ctx : ObjectContext} {a : Answers} {index : UInt64} {p : Bytes}

theorem Recv.Quiet.of_db {s' : Recv} (hfile : s'.file = s.file) (heffects : s'.effects = s.effects)
    (hdb : s'.db = s.db) : s.Quiet s' :=
  ⟨hfile, heffects, fun db hmem => ⟨db, hdb ▸ hmem, rfl⟩⟩

theorem mark_verified_quiet (index : UInt64) (s : Recv) :
    s.Quiet (exec (mark_verified index) s).2 := by
  unfold exec mark_verified
  split
  · exact .of_db rfl rfl rfl
  · next db hdb =>
    split
    · exact .of_db rfl rfl rfl
    · next db' hmark =>
      refine ⟨rfl, rfl, fun d hd => ⟨db, hdb, ?_⟩⟩
      obtain rfl := Option.some.inj hd
      unfold ResumeRecord.chunks
      rw [(ResumeDb.mark_verified_eq_ok hmark).2]

theorem set_held_quiet (index : UInt64) (s : Recv) : s.Quiet (exec (set_held index) s).2 := by
  unfold exec set_held
  split
  · exact .of_db rfl rfl rfl
  · exact .of_db rfl rfl rfl

/-- A chunk is written, then some steps do not touch the disk, then the
database is told. -/
theorem accept_spec {p₀ inv : Recv → Prop} {q : Unit → Recv → Prop}
    {r : TransferError → Recv → Prop}
    (hquiet : ∀ s s', s.Quiet s' → inv s → inv s') (herr : ∀ e s, inv s → r e s)
    (hwrite : Spec p₀ (write_chunk ctx a index p) (fun _ => inv) r)
    (hwritten : Spec inv (chunk_written index a) q r) : Spec p₀ (accept ctx a index p) q r := by
  have hstill : ∀ x : Act Unit, (∀ s : Recv, s.Quiet (exec x s).2) → Spec inv x (fun _ => inv) r :=
    fun x hx => (Spec.always_iff.2 fun s hs => hquiet s _ (hx s) hs).weaken
      (fun _ h => h) (fun _ _ h => h) herr
  refine accept_of_persist
    (fun s s' hfile _ hdb heffects => hquiet s s' (.of_db hfile heffects hdb)) herr ?_ hwritten
  exact Spec.bind hwrite fun _ => Spec.bind (hstill _ (mark_verified_quiet index)) fun _ =>
    hstill _ (set_held_quiet index)

end Accept

/-! ## What an attempt keeps -/

/-- The record in memory is ahead of the disk, but only by chunks that were
written. -/
structure Recv.Ordered (k : Known UInt64) (s : Recv) : Prop where
  disciplined : Disciplined ResumeRecord.chunks k s.effects
  written : ∀ db ∈ s.db, db.record.chunks ⊆ (k.afterAll s.effects).written

/-- What is left after an error. -/
def Recv.Left (k : Known UInt64) (s : Recv) : Prop :=
  Disciplined ResumeRecord.chunks k s.effects

section Attempts

variable {P : Primitives} {t : Incoming} {k : Known UInt64} {s s' : Recv} {a : Answers}
  {index : UInt64} {p : Bytes}

theorem Recv.Ordered.quiet (h : s.Ordered k) (hq : s.Quiet s') : s'.Ordered k := by
  refine ⟨?_, ?_⟩
  · rw [hq.effects]
    exact h.disciplined
  · intro db' hdb'
    obtain ⟨db, hmem, hchunks⟩ := hq.chunks db' hdb'
    rw [hchunks, hq.effects]
    exact h.written db hmem

theorem write_chunk_ordered (ctx : ObjectContext) :
    Spec (Recv.Ordered k) (write_chunk ctx a index p)
      (fun _ s => s.Ordered k ∧ index ∈ (k.afterAll s.effects).written) (fun _ => Recv.Left k) := by
  intro s hs
  unfold exec write_chunk
  rcases a.write with ⟨n, e⟩ | _
  · refine .inr ⟨_, _, rfl, ?_⟩
    exact disciplined_append.2 ⟨hs.disciplined, trivial, trivial⟩
  · refine .inl ⟨_, _, rfl, ⟨?_, ?_⟩, ?_⟩
    · exact disciplined_append.2 ⟨hs.disciplined, trivial, trivial⟩
    · intro db hdb i hi
      rw [afterAll_append]
      exact .inr (hs.written db hdb hi)
    · rw [afterAll_append]
      exact .inl rfl

theorem chunk_written_ordered :
    Spec (fun s => s.Ordered k ∧ index ∈ (k.afterAll s.effects).written) (chunk_written index a)
      (fun _ => Recv.Ordered k) (fun _ => Recv.Left k) := by
  rintro s ⟨hs, hindex⟩
  rcases chunk_written_exec index a s with ⟨-, he⟩ | ⟨db, db', effects, result, hdb, hw, he⟩
  · exact .inl ⟨_, _, he, hs⟩
  · have hmarked : ∀ d : ResumeDb, db.mark index = .ok d →
        d.record.chunks ⊆ (k.afterAll s.effects).written := by
      intro d hmark i hi
      rcases ((ResumeDb.mark_eq_ok hmark).2 i).1 hi with rfl | hold
      · exact hindex
      · exact hs.written db hdb hold
    rw [he]
    cases hw with
    | refused e =>
      refine .inr ⟨_, _, rfl, ?_⟩
      simpa [Recv.Left] using hs.disciplined
    | marked hmark =>
      refine .inl ⟨_, _, rfl, ?_, ?_⟩
      · simpa using hs.disciplined
      · intro d hd
        obtain rfl := Option.some.inj hd
        simpa using hmarked _ hmark
    | not_synced hmark e =>
      exact .inr ⟨_, _, rfl, disciplined_append.2 ⟨hs.disciplined, trivial, trivial⟩⟩
    | committed hmark =>
      have hchunks := hmarked _ hmark
      refine .inl ⟨_, _, rfl, hs.disciplined.sync_commit hchunks (.inl rfl), ?_⟩
      intro d hd
      obtain rfl := Option.some.inj hd
      rw [afterAll_append]
      exact hchunks
    | not_committed hmark e =>
      exact .inr ⟨_, _, rfl, hs.disciplined.sync_commit (hmarked _ hmark) (.inr rfl)⟩

theorem turn_ordered (u : Turn) :
    Spec (Recv.Ordered k) (turn P t u) (fun _ => Recv.Ordered k) (fun _ => Recv.Left k) := by
  apply turn_spec (fun _ _ hs => hs.disciplined)
  intro s index p hs _
  have haccept : Spec (Recv.Ordered k) (accept t.ctx u.answers index p) (fun _ => Recv.Ordered k)
      (fun _ => Recv.Left k) := by
    refine accept_spec ?_ (fun _ _ hs => hs.1.disciplined) (write_chunk_ordered t.ctx)
      chunk_written_ordered
    intro s s' hq hs
    refine ⟨hs.1.quiet hq, ?_⟩
    rw [hq.effects]
    exact hs.2
  refine haccept.weaken ?_ (fun _ _ h => h) (fun _ _ h => h)
  rintro s' rfl
  exact hs

theorem sync_all_left (outcome : Except String Unit) (hs : s.Ordered k) :
    (exec (sync_all outcome) s).2.Left k := by
  unfold exec sync_all
  rcases outcome with e | _
  · exact disciplined_append.2 ⟨hs.disciplined, trivial, trivial⟩
  · exact disciplined_append.2 ⟨hs.disciplined, trivial, trivial⟩

theorem keep_progress_left (att : Attempt) (hs : s.Ordered k) :
    (exec (keep_progress att) s).2.Left k := by
  unfold keep_progress
  rw [exec]
  split
  · exact hs.disciplined
  · next db hdb =>
    have hleft := sync_all_left att.sync_all hs
    rw [exec_bind]
    revert hleft
    unfold sync_all
    rcases att.sync_all with e | _
    · exact fun hleft => hleft
    · intro _
      have hchunks := hs.written db hdb
      have hcommit : ∀ effect, (effect = .commit db.record ∨ effect = .commit_failed db.record) →
          Disciplined ResumeRecord.chunks k ((s.effects ++ [.sync]) ++ [effect]) := by
        intro effect he
        rw [List.append_assoc]
        exact hs.disciplined.sync_commit hchunks he
      rcases hout : att.checkpoint with e | _
      · exact hcommit _ (.inr rfl)
      · exact hcommit _ (.inl rfl)

/-- What holds after the end of the stream, however it went on. -/
theorem settle_always {att : Attempt} {inv left : Recv → Prop}
    (hsync : ∀ s, inv s → left (exec (sync_all att.sync_all) s).2)
    (hkeep : ∀ s, inv s → left (exec (keep_progress att) s).2) :
    Spec inv (settle att) (fun _ => left) (fun _ => left) := by
  refine Spec.read fun s hs => ?_
  by_cases hcomplete : s.held.is_complete
  · rw [if_pos hcomplete, Spec.always_iff]
    rintro s' rfl
    exact hsync s' hs
  · rw [if_neg hcomplete]
    refine Spec.bind (q := fun _ => left) ?_ fun _ => Spec.throw (r := fun _ => left) _
    rw [Spec.always_iff]
    rintro s' rfl
    exact hkeep s' hs

/-- What every turn keeps, and what is left of it, holds in the end. -/
theorem receive_always {att : Attempt} {inv left : Recv → Prop} (hleft : ∀ s, inv s → left s)
    (hturn : ∀ u, Spec inv (turn P t u) (fun _ => inv) (fun _ => left))
    (hsync : ∀ s, inv s → left (exec (sync_all att.sync_all) s).2)
    (hkeep : ∀ s, inv s → left (exec (keep_progress att) s).2) (hs : inv s) :
    left (exec (receive P t att) s).2 := by
  have hloop : Spec inv (receive_loop P t att.turns) (fun _ => inv) (fun _ => left) :=
    Spec.each fun u _ => hturn u
  refine Spec.always_iff.1 (Spec.bind hloop fun flow => ?_) s hs
  cases flow with
  | next => exact fun s hs => .inl ⟨(), s, rfl, hleft s hs⟩
  | done => exact settle_always hsync hkeep

/-- Whatever happens in an attempt, it commits only what it synced before. -/
theorem receive_left (att : Attempt) (hs : s.Ordered k) : (exec (receive P t att) s).2.Left k :=
  receive_always (fun _ hs => hs.disciplined) turn_ordered (fun _ hs => sync_all_left _ hs)
    (fun _ hs => keep_progress_left att hs) hs

/-- A database that was opened is known to mark only chunks that are durable. -/
theorem start_ordered {stored : Option ResumeRecord} {db : ResumeDb} {readable resumed : Bool}
    {identity : ObjectIdentity} {dest : String} (ctx : ObjectContext) (route_watch : RouteWatch)
    (file : Bytes)
    (h : ResumeDb.open (if readable then stored else none) identity dest = .ok (db, resumed)) :
    (Recv.start ctx (some db) db.record.durable route_watch file).Ordered
      ⟨claimed ResumeRecord.chunks stored, claimed ResumeRecord.chunks stored⟩ := by
  refine ⟨trivial, ?_⟩
  intro d hd
  obtain rfl := Option.some.inj hd
  rcases ResumeDb.open_eq_ok h with hstored | hempty
  · split_ifs at hstored
    rw [hstored]
    exact fun i hi => hi
  · rw [hempty]
    exact Set.empty_subset _

theorem accept_writes (ctx : ObjectContext) (s : Recv) {i : UInt64}
    (h : .write i ∈ (exec (accept ctx a index p) s).2.effects) : .write i ∈ s.effects ∨
      i = index ∧ (exec (accept ctx a index p) s).2.file =
        write_at 0 s.file (index * ctx.chunk_plaintext_size.toUInt64).toNat p := by
  let file := write_at 0 s.file (index * ctx.chunk_plaintext_size.toUInt64).toNat p
  let post : Recv → Prop := fun s' =>
    .write i ∈ s'.effects → .write i ∈ s.effects ∨ i = index ∧ s'.file = file
  let inv : Recv → Prop := fun s' => s'.file = file ∧ s'.effects = s.effects ++ [.write index]
  have hpost : ∀ s', inv s' → post s' := by
    intro s' hs' hw
    rw [hs'.2, List.mem_append, List.mem_singleton] at hw
    exact hw.imp_right fun he => ⟨Effect.write.inj he, hs'.1⟩
  have hquiet : ∀ s₁ s₂ : Recv, s₁.Quiet s₂ → inv s₁ → inv s₂ := by
    intro s₁ s₂ hq hs
    exact ⟨hq.file.trans hs.1, hq.effects.trans hs.2⟩
  have hwrite : Spec (fun s' => s' = s) (write_chunk ctx a index p) (fun _ => inv)
      (fun _ => post) := by
    rintro s' rfl
    unfold exec write_chunk
    rcases a.write with ⟨n, e⟩ | _
    · refine .inr ⟨_, _, rfl, fun hw => .inl ?_⟩
      simpa using hw
    · exact .inl ⟨_, _, rfl, rfl, rfl⟩
  have hwritten : Spec inv (chunk_written index a) (fun _ => post) (fun _ => post) := by
    rw [Spec.always_iff]
    intro s' hs'
    rcases chunk_written_exec index a s' with ⟨-, he⟩ | ⟨db, db', effects, result, -, hw, he⟩
    · rw [he]
      exact hpost s' hs'
    · rw [he]
      intro hmem
      exact hpost s' hs' ((List.mem_append.1 hmem).resolve_right (hw.no_write i))
  exact Spec.always_iff.1 (accept_spec hquiet (fun _ => hpost) hwrite hwritten) s rfl h

/-- What a turn writes is the plaintext of the chunk that passed the checks,
and it goes to the region of that chunk. -/
theorem turn_writes (u : Turn) (s : Recv) {i : UInt64}
    (h : .write i ∈ (exec (turn P t u) s).2.effects) : .write i ∈ s.effects ∨
      ∃ p, u.accepts P t s.held = some (i, p) ∧ (exec (turn P t u) s).2.file =
        write_at 0 s.file (i * t.ctx.chunk_plaintext_size.toUInt64).toNat p := by
  rcases turn_exec (P := P) (t := t) u s with ⟨-, r, he⟩ | ⟨index, p, haccepts, he⟩
  · rw [he] at h
    exact .inl h
  · have hsame : (exec (turn P t u) s).2 = (exec (accept t.ctx u.answers index p) s).2 := by
      rw [he, exec_bind]
      rcases exec (accept t.ctx u.answers index p) s with ⟨_ | _, s'⟩ <;> rfl
    rw [hsame] at h ⊢
    rcases accept_writes t.ctx s h with hold | ⟨rfl, hfile⟩
    · exact .inl hold
    · exact .inr ⟨p, haccepts, hfile⟩

theorem attempts_disciplined (P : Primitives) (t : Incoming) (stored : Option ResumeRecord) :
    ∀ es ∈ attempts P t stored, Disciplined ResumeRecord.chunks
      ⟨claimed ResumeRecord.chunks stored, claimed ResumeRecord.chunks stored⟩ es := by
  rintro es ⟨a, rfl⟩
  unfold receive_file
  split
  · trivial
  · next db resumed hopen =>
    split
    · trivial
    · exact receive_left a (start_ordered t.ctx a.route_watch a.file hopen)

/-- Over any history of attempts, errors and crashes: a chunk that the record
on the disk marks durable survives a crash. What counts as written for a chunk
is the plaintext that passed its checks, at its region. -/
theorem the_record_marks_only_chunks_that_survive_a_crash (P : Primitives) (t : Incoming)
    {d : Disk UInt64 ResumeRecord} (h : Reachable (attempts P t) d) :
    (∀ r ∈ d.record, ∀ i, r.durable.Has i → i ∈ d.synced) ∧
      ∀ (u : Turn) (s : Recv) (i : UInt64), .write i ∈ (exec (turn P t u) s).2.effects →
        .write i ∈ s.effects ∨ ∃ p, u.accepts P t s.held = some (i, p) ∧
          (exec (turn P t u) s).2.file =
            write_at 0 s.file (i * t.ctx.chunk_plaintext_size.toUInt64).toNat p := by
  refine ⟨?_, fun u s i => turn_writes u s⟩
  intro r hr i hi
  have hhonest := h.honest (attempts_disciplined P t)
  apply hhonest.claims_synced
  rw [Option.mem_def.1 hr]
  exact hi

end Attempts

/-! ## The second of two chunks -/

def twoChunks : ObjectContext := ⟨.replicate 32 1, .replicate 32 2, 65537, 65537, 65536, 2, 0, 0⟩

def lastCiphertext : Bytes :=
  (encrypt_chunk sample sampleSchedule twoChunks (twoChunks.context_hash sample) 1 [7]).getD []

def twoLeaves : List (Arr 32) := [.replicate 32 9, leaf_hash sample 1 lastCiphertext]

def twoIncoming : Incoming where
  ctx := twoChunks
  ctx_hash := twoChunks.context_hash sample
  schedule := sampleSchedule
  root := merkle_root sample twoLeaves

/-- Only the last chunk arrives before the stream ends. -/
def sampleAttempt : Attempt where
  identity := ⟨.replicate 32 1, .replicate 32 2, .replicate 32 0, twoIncoming.root, 2, 65552, 65537⟩
  dest := "file"
  readable := true
  prepared := .ok ()
  route_watch := .new .Unknown .Any 0
  file := []
  turns := [⟨.ok (FRAME_CHUNK, encode_chunk_record 1
      ((build_proof sample twoLeaves 1).toOption.getD []) lastCiphertext), sampleAnswers⟩,
    ⟨.ok (FRAME_STREAM_END, []), sampleAnswers⟩]
  sync_all := .ok ()
  checkpoint := .ok ()

/-- The chunk is written, the file is synced and the record is committed. -/
def keepsLastChunk : List DiskEffect → Bool
  | [.write 1, .sync, .commit r] => r.durable.Has 1
  | _ => false

theorem sampleAttempt_keeps :
    keepsLastChunk (receive_file sample twoIncoming sampleAttempt none).2 = true := by
  decide +kernel

/-- A crash after such an attempt leaves the chunk in the file. -/
theorem the_last_chunk_survives_a_crash :
    ∃ d r, Reachable (attempts sample twoIncoming) d ∧ d.record = some r ∧ r.durable.Has 1 ∧
      1 ∈ d.synced := by
  have hkeeps := sampleAttempt_keeps
  unfold keepsLastChunk at hkeeps
  split at hkeeps
  · next r hes =>
    have hhas : r.durable.Has 1 := by simpa using hkeeps
    have hmem : [.write 1, .sync, .commit r] ++ [] ∈ attempts sample twoIncoming none :=
      ⟨sampleAttempt, hes⟩
    have hrun : Reachable (attempts sample twoIncoming) ⟨insert 1 ∅, insert 1 ∅, some r⟩ :=
      .run (.start (Set.empty_subset ∅)) hmem
        (.cons (.write _ 1) (.cons (.sync _) (.cons (.commit _ r) (.nil _))))
    have hcrash := hrun.crash ⟨insert 1 ∅, fun _ h => h, fun _ h => h, rfl⟩
    refine ⟨_, r, hcrash, rfl, hhas, ?_⟩
    exact
      (the_record_marks_only_chunks_that_survive_a_crash sample twoIncoming hcrash).1 r rfl 1 hhas
  · cases hkeeps

end rtp2_core.transfer
