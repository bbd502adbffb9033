-- The chunk loop of the receiver. Every frame is checked before anything is
-- changed. A chunk that passes is written once, to its own region of the file,
-- and is what the sender committed to.
import Reyta.ChunkRecord
import Reyta.EarlyExit
import Reyta.Object
import Reyta.Regions
import Reyta.Resume

open byte_string crash_disk early_exit exact_parse file_region hash_tree

namespace rtp2_core.transfer

open bitmap crypto events keys merkle object resume route

def FRAME_CHUNK : UInt8 := 0x21
def FRAME_STREAM_END : UInt8 := 0x23

/-! ## The loop -/

/-- What the loop works with and does not change. -/
structure Incoming where
  ctx : ObjectContext
  ctx_hash : Arr 32
  schedule : FileKeySchedule
  /-- The root of the offer. -/
  root : Arr 32

/-- The state of the loop. -/
structure Recv where
  file : Bytes
  db : Option ResumeDb
  /-- `have` in the source. -/
  held : ChunkBitmap
  received_this_attempt : UInt64
  route_watch : RouteWatch
  /-- What the running hash was given, and the index that it waits for. -/
  streaming : Option (Bytes × UInt64)
  verified_bytes : UInt64
  /-- The events that were pushed. -/
  events : List Event
  /-- What was done to the disk. -/
  effects : List DiskEffect

/-- What the system answers in one turn: to the write of a chunk, to the look
at the clock and the path, to `sync_data`, and to the checkpoint. A write that
fails has written a part. -/
structure Answers where
  write : Except (Nat × String) Unit
  now : Nat
  route : Route
  sync_data : Except String Unit
  checkpoint : Except String Unit

/-- One turn: a frame or an error from `recv_frame`, and the answers. -/
structure Turn where
  frame : Except TransferError (UInt8 × Bytes)
  answers : Answers

/-- A procedure of the loop. -/
abbrev Act := Proc Recv TransferError

variable (P : Primitives)

/-- The checks of a record before anything is changed, in their order. The result
is `none` for a chunk that is already held. -/
def check_record (t : Incoming) (held : ChunkBitmap) (record : UInt64 × List ProofStep × Bytes) :
    Except TransferError (Option (UInt64 × Bytes)) := do
  let (index, proof, ciphertext) := record
  refuse_if (index ≥ t.ctx.chunk_count) (.Protocol "chunk index out of range")
  if (held.get index).toOption.getD false then pure none
  else do
    let expected_len ← (t.ctx.chunk_ciphertext_len index).elim
      (.error (.Protocol "chunk index out of range")) pure
    refuse_if (ciphertext.length ≠ expected_len) (.Protocol "chunk length mismatch")
    let leaf := leaf_hash P index ciphertext
    (verify_proof P leaf index t.ctx.chunk_count proof t.root).mapError
      fun _ => .Crypto "merkle proof"
    let plaintext ← (decrypt_chunk P t.schedule t.ctx t.ctx_hash index ciphertext).elim
      (.error (.Crypto "chunk aead")) pure
    pure (some (index, plaintext))

/-- The checks of a frame with a chunk. -/
def check_chunk (t : Incoming) (held : ChunkBitmap) (payload : Bytes) :
    Except TransferError (Option (UInt64 × Bytes)) := do
  let record ← decode_chunk_record payload
  check_record P t held record

/-- `seek` and `write_all`. -/
def write_chunk (ctx : ObjectContext) (a : Answers) (index : UInt64) (plaintext : Bytes) :
    Act Unit := fun s =>
  let offset := (index * ctx.chunk_plaintext_size.toUInt64).toNat
  match a.write with
  | .ok () => (.ok (), { s with
      file := write_at 0 s.file offset plaintext
      effects := s.effects ++ [.write index] })
  | .error (n, e) => (.error (.Io e), { s with
      file := write_at 0 s.file offset (plaintext.take n)
      effects := s.effects ++ [.failed] })

def mark_verified (index : UInt64) : Act Unit := fun s =>
  match s.db with
  | none => (.ok (), s)
  | some db =>
    match db.mark_verified index with
    | .error e => (.error (.Io e.to_string), s)
    | .ok db => (.ok (), { s with db := some db })

def set_held (index : UInt64) : Act Unit := fun s =>
  match s.held.set index with
  | .error _ => (.error (.Protocol "bitmap"), s)
  | .ok (held, _) =>
    (.ok (), { s with held, received_this_attempt := s.received_this_attempt + 1 })

def poll (transfer_id : Arr 32) (a : Answers) : Act Unit := fun s =>
  let (route_watch, pushed, result) := s.route_watch.poll_with transfer_id a.now a.route
  (result, { s with route_watch, events := s.events ++ pushed })

/-- The running hash takes chunks in strict order only. -/
def digest (index : UInt64) (plaintext : Bytes) : Act Unit := change fun s =>
  { s with streaming := s.streaming.bind fun (hashed, next) =>
      if index = next then some (hashed ++ plaintext, next + 1) else none }

/-- The event of progress with these bytes. -/
def report (ctx : ObjectContext) (held : ChunkBitmap) (bytes : UInt64) : Event :=
  .TransferProgress ctx.transfer_id .Receiving bytes ctx.encoded_plaintext_size held.set_count
    ctx.chunk_count

def progress (ctx : ObjectContext) (plaintext : Bytes) : Act Unit := change fun s =>
  let verified_bytes := s.verified_bytes + .ofNat plaintext.length
  { s with verified_bytes, events := s.events ++ [report ctx s.held verified_bytes] }

def chunk_written (index : UInt64) (a : Answers) : Act Unit := fun s =>
  match s.db with
  | none => (.ok (), s)
  | some db =>
    let (db, effects, result) := db.chunk_written index a.sync_data a.checkpoint
    (result.mapError fun e => .Io e.to_string,
      { s with db := some db, effects := s.effects ++ effects })

/-- Up to the point where the chunk counts as held. -/
def persist (ctx : ObjectContext) (a : Answers) (index : UInt64) (plaintext : Bytes) :
    Act Unit := do
  write_chunk ctx a index plaintext
  mark_verified index
  set_held index

/-- After the checks. -/
def accept (ctx : ObjectContext) (a : Answers) (index : UInt64) (plaintext : Bytes) :
    Act Unit := do
  persist ctx a index plaintext
  poll ctx.transfer_id a
  digest index plaintext
  progress ctx plaintext
  chunk_written index a

/-- The body of the loop. -/
def turn (t : Incoming) (u : Turn) : Act Flow := do
  let (frame_type, payload) ← lift u.frame
  if frame_type = FRAME_CHUNK then do
    let s ← read
    match ← lift (check_chunk P t s.held payload) with
    | none => pure .next
    | some (index, plaintext) => do
      accept t.ctx u.answers index plaintext
      pure .next
  else if frame_type = FRAME_STREAM_END then pure .done
  else throw (.Protocol "unexpected frame type")

def receive_loop (t : Incoming) (us : List Turn) : Act Flow := each (turn P t) us

/-- The sum of the lengths of the chunks that are held. -/
def held_bytes (ctx : ObjectContext) (held : ChunkBitmap) : UInt64 :=
  (((List.range ctx.chunk_count.toNat).map UInt64.ofNat).filter fun i =>
    (held.get i).toOption.getD false).foldl (fun sum i =>
      sum + ((ctx.chunk_len i).getD 0).toUInt64) 0

/-- The state before the loop. The file was opened without truncating. -/
def Recv.start (ctx : ObjectContext) (db : Option ResumeDb) (held : ChunkBitmap)
    (route_watch : RouteWatch) (file : Bytes) : Recv where
  file := set_len 0 file ctx.logical_plaintext_size.toNat
  db := db
  held := held
  received_this_attempt := 0
  route_watch := route_watch
  streaming := some ([], 0)
  verified_bytes := held_bytes ctx held
  events := [.TransferStarted ctx.transfer_id 1 ctx.encoded_plaintext_size]
  effects := []

/-! ## What the checks establish -/

/-- The ciphertexts that the offered root commits to. -/
structure Incoming.Commits (t : Incoming) (ciphertexts : List Bytes) : Prop where
  count : t.ctx.chunk_count.toNat = ciphertexts.length
  root : t.root = merkle_root P (leaves_of P ciphertexts)

/-- What the check of a frame hashes does not collide with what was hashed for
the root. -/
def Turn.Apart (u : Turn) (ciphertexts : List Bytes) : Prop :=
  ∀ payload index proof c, u.frame = .ok (FRAME_CHUNK, payload) →
    decode_chunk_record payload = .ok (index, proof, c) →
    NoCollision P.blake3 (committed_inputs P ciphertexts) (checked_inputs P index proof c)

/-- The plaintext of a committed ciphertext. -/
def Incoming.Plain (t : Incoming) (ciphertexts : List Bytes) (index : UInt64) (p : Bytes) : Prop :=
  ∃ c, ciphertexts[index.toNat]? = some c ∧
    encrypt_chunk P t.schedule t.ctx t.ctx_hash index p = some c

variable {P} {t : Incoming} {ciphertexts : List Bytes}

theorem check_chunk_eq_some {held : ChunkBitmap} {payload plaintext : Bytes} {index : UInt64}
    (h : check_chunk P t held payload = .ok (some (index, plaintext))) :
    index < t.ctx.chunk_count ∧ ¬ held.Has index ∧
      ∃ proof c, decode_chunk_record payload = .ok (index, proof, c) ∧
        verify_proof P (leaf_hash P index c) index t.ctx.chunk_count proof t.root = .ok () ∧
        decrypt_chunk P t.schedule t.ctx t.ctx_hash index c = some plaintext := by
  unfold check_chunk at h
  obtain ⟨⟨i, proof, c⟩, hdec, h⟩ := bind_eq_ok.1 h
  unfold check_record at h
  obtain ⟨_, hle, h⟩ := bind_eq_ok.1 h
  split_ifs at h with hheld
  · cases pure_eq_ok.1 h
  obtain ⟨expected, -, h⟩ := bind_eq_ok.1 h
  obtain ⟨_, -, h⟩ := bind_eq_ok.1 h
  obtain ⟨_, hproof, h⟩ := bind_eq_ok.1 h
  obtain ⟨p, hp, h⟩ := bind_eq_ok.1 h
  cases pure_eq_ok.1 h
  refine ⟨UInt64.not_le.1 (refuse_if_eq_ok.1 hle), mt (held.get_getD index).2 hheld, proof, c, hdec,
    mapError_eq_ok.1 hproof, ?_⟩
  cases hd : decrypt_chunk P t.schedule t.ctx t.ctx_hash index c with
  | none =>
    rw [hd] at hp
    cases hp
  | some p' =>
    rw [hd] at hp
    rw [pure_eq_ok.1 hp]

/-- A chunk that passes the checks is not held and is what was committed to. -/
theorem check_chunk_accepts (hc : t.Commits P ciphertexts) (hP : P.Authentic)
    {held : ChunkBitmap} {payload plaintext : Bytes} {index : UInt64}
    (hapart : ∀ proof c, decode_chunk_record payload = .ok (index, proof, c) →
      NoCollision P.blake3 (committed_inputs P ciphertexts) (checked_inputs P index proof c))
    (h : check_chunk P t held payload = .ok (some (index, plaintext))) :
    index < t.ctx.chunk_count ∧ ¬ held.Has index ∧ t.Plain P ciphertexts index plaintext := by
  obtain ⟨hi, hheld, proof, c, hdec, hproof, hdecrypt⟩ := check_chunk_eq_some h
  rw [hc.root] at hproof
  exact ⟨hi, hheld, c, accepted_chunk_is_committed P hc.count hi (hapart proof c hdec) hproof,
    encrypt_of_decrypt_chunk P hP hdecrypt⟩

theorem Incoming.Plain.length (hg : t.ctx.Geometry) {index : UInt64} {p : Bytes}
    (h : t.Plain P ciphertexts index p) :
    index < t.ctx.chunk_count ∧ p.length = t.ctx.extent index.toNat := by
  obtain ⟨c, -, henc⟩ := h
  obtain ⟨len, hlen, hp, -⟩ := (encrypt_chunk_eq_some P).1 henc
  obtain ⟨hi, hext⟩ := (ObjectContext.chunk_len_eq_some hg).1 hlen
  exact ⟨hi, hp.trans hext⟩

/-! ## What the loop keeps -/

/-- The chunk that an effect writes. -/
def written : DiskEffect → Option UInt64
  | .write i => some i
  | _ => none

/-- The chunks that were written, in their order. -/
def Recv.accepted (s : Recv) : List UInt64 := s.effects.filterMap written

/-- What was delivered since the loop started with `held` and `file`. -/
structure Recv.Delivered (P : Primitives) (t : Incoming) (ciphertexts : List Bytes)
    (held : ChunkBitmap) (file : Bytes) (s : Recv) : Prop where
  /-- A chunk is held if it was held before or was accepted, -/
  has : ∀ i, s.held.Has i ↔ held.Has i ∨ i ∈ s.accepted
  /-- not both, -/
  fresh : ∀ i ∈ s.accepted, ¬ held.Has i
  /-- and was accepted once. -/
  once : s.accepted.Nodup
  /-- The region of an accepted chunk has the committed plaintext. -/
  content : ∀ i ∈ s.accepted,
    t.Plain P ciphertexts i (slice s.file (t.ctx.start i.toNat) (t.ctx.extent i.toNat))
  /-- No other byte was changed. -/
  other : ∀ k, (∀ i ∈ s.accepted, k < t.ctx.start i.toNat ∨
    t.ctx.start i.toNat + t.ctx.extent i.toNat ≤ k) → s.file[k]? = file[k]?

/-- What the loop keeps besides. -/
structure Recv.Shape (ctx : ObjectContext) (s : Recv) : Prop where
  file_len : s.file.length = ctx.encoded_plaintext_size.toNat
  held_count : s.held.chunk_count = ctx.chunk_count
  db_count : ∀ db ∈ s.db, db.record.identity.chunk_count = ctx.chunk_count

section Persist

variable {ctx : ObjectContext} {a : Answers} {index : UInt64} {p : Bytes} {s : Recv}

theorem mark_verified_exec (hs : ∀ d ∈ s.db, d.record.identity.chunk_count = ctx.chunk_count)
    (hi : index < ctx.chunk_count) :
    ∃ db, exec (mark_verified index) s = (.ok (), { s with db }) ∧
      ∀ d ∈ db, d.record.identity.chunk_count = ctx.chunk_count := by
  unfold exec mark_verified
  cases hdb : s.db with
  | none => exact ⟨s.db, rfl, hs⟩
  | some db =>
    have hcount := hs db hdb
    rw [← hcount] at hi
    obtain ⟨db', hmark⟩ := ResumeDb.mark_verified_of_lt hi
    simp only [hmark]
    refine ⟨some db', rfl, ?_⟩
    intro d hd
    obtain rfl := Option.some.inj hd
    rw [(ResumeDb.mark_verified_eq_ok hmark).1, hcount]

/-- The database writes no chunk itself. -/
theorem written_nil {db db' : ResumeDb} {effects : List DiskEffect}
    {result : Except ResumeError Unit} (h : ResumeDb.Written db index (db', effects, result)) :
    effects.filterMap written = [] := by
  rw [List.filterMap_eq_nil_iff]
  intro e hmem
  cases e with
  | write i => exact absurd hmem (h.no_write i)
  | _ => rfl

/-- If the write succeeds then the chunk is written and held. -/
theorem persist_exec (hs : s.Shape ctx) (hw : a.write = .ok ()) (hi : index < ctx.chunk_count) :
    ∃ held db, exec (persist ctx a index p) s = (.ok (), { s with
        file := write_at 0 s.file (index * ctx.chunk_plaintext_size.toUInt64).toNat p
        effects := s.effects ++ [.write index]
        db, held
        received_this_attempt := s.received_this_attempt + 1 }) ∧
      (∃ changed, s.held.SetTo index held changed) ∧
      ∀ d ∈ db, d.record.identity.chunk_count = ctx.chunk_count := by
  let s₁ : Recv := { s with
    file := write_at 0 s.file (index * ctx.chunk_plaintext_size.toUInt64).toNat p
    effects := s.effects ++ [.write index] }
  have hwrite : exec (write_chunk ctx a index p) s = (.ok (), s₁) := by
    unfold exec write_chunk
    rw [hw]
  obtain ⟨db, hmark, hdb⟩ := mark_verified_exec (s := s₁) hs.db_count hi
  rw [← hs.held_count] at hi
  obtain ⟨⟨held, changed⟩, hset⟩ := s.held.set_of_lt hi
  refine ⟨held, db, ?_, ⟨changed, ChunkBitmap.set_eq_ok hset⟩, hdb⟩
  rw [persist, exec_bind, hwrite]
  simp only
  rw [exec_bind, hmark]
  simp only [exec, set_held, s₁, hset]

/-- From `s` to `s'` one chunk was taken. -/
structure Recv.Took (ctx : ObjectContext) (s : Recv) (index : UInt64) (p : Bytes) (s' : Recv) :
    Prop where
  file : s'.file = write_at 0 s.file (index * ctx.chunk_plaintext_size.toUInt64).toNat p
  held : ∃ changed, s.held.SetTo index s'.held changed
  accepted : s'.accepted = s.accepted ++ [index]
  policy : s'.route_watch.policy = s.route_watch.policy
  db_count : ∀ d ∈ s'.db, d.record.identity.chunk_count = ctx.chunk_count

theorem persist_takes (hs : s.Shape ctx) (hw : a.write = .ok ()) (hi : index < ctx.chunk_count) :
    Spec (fun s' => s' = s) (persist ctx a index p) (fun _ => Recv.Took ctx s index p)
      (fun _ _ => False) := by
  rintro _ rfl
  obtain ⟨held, db, he, hset, hdb⟩ := persist_exec (p := p) hs hw hi
  refine .inl ⟨(), _, he, rfl, hset, ?_, rfl, hdb⟩
  simp [Recv.accepted, written]

theorem chunk_written_exec (index : UInt64) (a : Answers) (s : Recv) :
    (s.db = none ∧ exec (chunk_written index a) s = (.ok (), s)) ∨
      ∃ db db' effects result, s.db = some db ∧ ResumeDb.Written db index (db', effects, result) ∧
        exec (chunk_written index a) s = (result.mapError fun e => .Io e.to_string,
          { s with db := some db', effects := s.effects ++ effects }) := by
  unfold exec chunk_written
  cases hdb : s.db with
  | none => exact .inl ⟨rfl, rfl⟩
  | some db =>
    exact .inr ⟨db, _, _, _, rfl,
      ResumeDb.chunk_written.spec db index a.sync_data a.checkpoint, rfl⟩

/-- The steps between the two touch neither the file nor the chunks nor the
database. -/
theorem accept_of_persist {p₀ inv : Recv → Prop} {post : Unit → Recv → Prop}
    {r : TransferError → Recv → Prop}
    (hsame : ∀ s s' : Recv, s'.file = s.file → s'.held = s.held → s'.db = s.db →
      s'.effects = s.effects → inv s → inv s') (herr : ∀ e s, inv s → r e s)
    (hpersist : Spec p₀ (persist ctx a index p) (fun _ => inv) r)
    (hwritten : Spec inv (chunk_written index a) post r) :
    Spec p₀ (accept ctx a index p) post r := by
  have hkeeps : ∀ {x : Act Unit}, (∀ s, inv s → inv (exec x s).2) → Spec inv x (fun _ => inv) r :=
    fun h => (Spec.always_iff.2 h).weaken (fun _ hs => hs) (fun _ _ hs => hs) herr
  refine Spec.bind hpersist fun _ => Spec.bind (hkeeps ?poll) fun _ =>
    Spec.bind (hkeeps ?digest) fun _ => Spec.bind (hkeeps ?progress) fun _ => hwritten
  case poll => exact fun s hs => hsame s _ rfl rfl rfl rfl hs
  case digest => exact fun s hs => hsame s _ rfl rfl rfl rfl hs
  case progress => exact fun s hs => hsame s _ rfl rfl rfl rfl hs

theorem accept_always {p₀ inv : Recv → Prop}
    (hsame : ∀ s s' : Recv, s'.file = s.file → s'.held = s.held → s'.db = s.db →
      s'.effects = s.effects → inv s → inv s')
    (hpersist : ∀ s, p₀ s → inv (exec (persist ctx a index p) s).2)
    (hwritten : ∀ s, inv s → inv (exec (chunk_written index a) s).2) :
    Spec p₀ (accept ctx a index p) (fun _ => inv) (fun _ => inv) :=
  accept_of_persist hsame (fun _ _ hs => hs) (Spec.always_iff.2 hpersist)
    (Spec.always_iff.2 hwritten)

end Persist

section Delivered

variable {held : ChunkBitmap} {file : Bytes} {s s' : Recv}

theorem Recv.Delivered.congr (h : s.Delivered P t ciphertexts held file) (hfile : s'.file = s.file)
    (hheld : s'.held = s.held) (haccepted : s'.accepted = s.accepted) :
    s'.Delivered P t ciphertexts held file := by
  constructor
  · rw [hheld, haccepted]
    exact h.has
  · rw [haccepted]
    exact h.fresh
  · rw [haccepted]
    exact h.once
  · rw [hfile, haccepted]
    exact h.content
  · rw [hfile, haccepted]
    exact h.other

/-- Chunks at different indices do not overlap. -/
theorem regions_apart (ctx : ObjectContext) {i j : UInt64} (h : i ≠ j) :
    ctx.start i.toNat + ctx.extent i.toNat ≤ ctx.start j.toNat ∨
      ctx.start j.toNat + ctx.extent j.toNat ≤ ctx.start i.toNat := by
  have hne : i.toNat ≠ j.toNat := fun he => h (UInt64.toNat_inj.1 he)
  rcases Nat.lt_or_gt_of_ne hne with hlt | hlt
  · exact .inl (ObjectContext.end_le_start hlt)
  · exact .inr (ObjectContext.end_le_start hlt)

/-- One more chunk is delivered by a write to its region. -/
theorem Recv.Delivered.write (hg : t.ctx.Geometry) (hs : s.Shape t.ctx)
    (h : s.Delivered P t ciphertexts held file) {index : UInt64} {p : Bytes}
    (hnew : ¬ s.held.Has index) (hp : t.Plain P ciphertexts index p)
    (hfile : s'.file = write_at 0 s.file (t.ctx.start index.toNat) p)
    (hheld : ∀ i, s'.held.Has i ↔ i = index ∨ s.held.Has i)
    (haccepted : s'.accepted = s.accepted ++ [index]) :
    s'.Delivered P t ciphertexts held file := by
  obtain ⟨hi, hlen⟩ := hp.length hg
  have hroom : t.ctx.start index.toNat + p.length ≤ s.file.length := by
    rw [hlen, hs.file_len]
    exact ObjectContext.end_le_encoded hg (UInt64.lt_iff_toNat_lt.1 hi)
  have hnot : index ∉ s.accepted := fun hm => hnew ((h.has index).2 (.inr hm))
  have hmem : ∀ i, i ∈ s'.accepted ↔ i = index ∨ i ∈ s.accepted := by
    intro i
    rw [haccepted, List.mem_append, List.mem_singleton, or_comm]
  constructor
  case has =>
    intro i
    rw [hheld, hmem, h.has]
    exact or_left_comm
  case fresh =>
    intro i him
    rcases (hmem i).1 him with rfl | him
    · exact fun hh => hnew ((h.has i).2 (.inl hh))
    · exact h.fresh i him
  case once =>
    rw [haccepted, List.nodup_append]
    refine ⟨h.once, by simp, ?_⟩
    intro i him j hj he
    rw [he, List.mem_singleton.1 hj] at him
    exact hnot him
  case content =>
    intro i him
    rw [hfile]
    rcases (hmem i).1 him with rfl | him
    · rw [← hlen, slice_write_at_self 0 (by omega)]
      exact hp
    · have hne : index ≠ i := fun he => hnot (he ▸ him)
      have hapart := regions_apart t.ctx hne
      rw [slice_write_at_apart 0 hroom (by omega)]
      exact h.content i him
  case other =>
    intro k hk
    have hout := hk index ((hmem index).2 (.inl rfl))
    rw [hfile, getElem?_write_at_outside 0 hroom (by omega)]
    exact h.other k fun i him => hk i ((hmem i).2 (.inr him))

end Delivered

section Loop

variable (P) (t : Incoming) (ciphertexts : List Bytes) (held : ChunkBitmap) (file : Bytes)

/-- What holds at every point of the loop. -/
def Recv.Inv (s : Recv) : Prop := s.Shape t.ctx ∧ s.Delivered P t ciphertexts held file

variable {P t ciphertexts held file}

/-- Only a change of the file, of the bitmap, of what was accepted or of the
object of the database matters. -/
theorem Recv.Inv.congr {s s' : Recv} (h : s.Inv P t ciphertexts held file)
    (hfile : s'.file = s.file) (hheld : s'.held = s.held) (haccepted : s'.accepted = s.accepted)
    (hdb : ∀ db ∈ s'.db, db.record.identity.chunk_count = t.ctx.chunk_count) :
    s'.Inv P t ciphertexts held file :=
  ⟨⟨by rw [hfile]; exact h.1.file_len, by rw [hheld]; exact h.1.held_count, hdb⟩,
    h.2.congr hfile hheld haccepted⟩

/-- One more chunk was taken that was not held. -/
theorem Recv.Took.inv {index : UInt64} {p : Bytes} {s s' : Recv} (h : s.Took t.ctx index p s')
    (hg : t.ctx.Geometry) (hs : s.Inv P t ciphertexts held file) (hnew : ¬ s.held.Has index)
    (hp : t.Plain P ciphertexts index p) : s'.Inv P t ciphertexts held file := by
  obtain ⟨hi, hlen⟩ := hp.length hg
  obtain ⟨changed, hset⟩ := h.held
  have hroom := ObjectContext.end_le_encoded hg (UInt64.lt_iff_toNat_lt.1 hi)
  have hfile := h.file
  rw [ObjectContext.start_toNat hg hi] at hfile
  refine ⟨⟨?_, hset.chunk_count.trans hs.1.held_count, h.db_count⟩,
    hs.2.write hg hs.1 hnew hp hfile hset.has h.accepted⟩
  rw [hfile, length_write_at 0 (by rw [hs.1.file_len]; omega), hs.1.file_len]

theorem persist_keeps {a : Answers} {index : UInt64} {p : Bytes} (hg : t.ctx.Geometry)
    (hw : a.write = .ok ()) (hp : t.Plain P ciphertexts index p) {s : Recv}
    (hs : s.Inv P t ciphertexts held file) (hnew : ¬ s.held.Has index) :
    (exec (persist t.ctx a index p) s).2.Inv P t ciphertexts held file := by
  obtain ⟨_, s', he, htook⟩ := (persist_takes hs.1 hw (hp.length hg).1).returns rfl
  rw [he]
  exact htook.inv hg hs hnew hp

theorem chunk_written_keeps {index : UInt64} {a : Answers} {s : Recv}
    (hs : s.Inv P t ciphertexts held file) :
    (exec (chunk_written index a) s).2.Inv P t ciphertexts held file := by
  rcases chunk_written_exec index a s with ⟨-, he⟩ | ⟨db, db', effects, result, hdb, hw, he⟩
  · rw [he]
    exact hs
  · rw [he]
    refine hs.congr rfl rfl ?_ ?_
    · simp only [Recv.accepted, List.filterMap_append, written_nil hw, List.append_nil]
    · intro d hd
      obtain rfl := Option.some.inj hd
      rw [hw.identity]
      exact hs.1.db_count db hdb

theorem accept_keeps {a : Answers} {index : UInt64} {p : Bytes} (hg : t.ctx.Geometry)
    (hw : a.write = .ok ()) (hp : t.Plain P ciphertexts index p) :
    Spec (fun s => s.Inv P t ciphertexts held file ∧ ¬ s.held.Has index)
      (accept t.ctx a index p) (fun _ => Recv.Inv P t ciphertexts held file)
      (fun _ => Recv.Inv P t ciphertexts held file) := by
  refine accept_always ?_ (fun s hs => persist_keeps hg hw hp hs.1 hs.2)
    (fun s hs => chunk_written_keeps hs)
  intro s s' hfile hheld hdb heffects hs
  refine hs.congr hfile hheld ?_ ?_
  · rw [Recv.accepted, heffects, Recv.accepted]
  · rw [hdb]
    exact hs.1.db_count

/-- The chunk of a frame that passes the checks. -/
def Turn.accepts (P : Primitives) (t : Incoming) (held : ChunkBitmap) (u : Turn) :
    Option (UInt64 × Bytes) :=
  match u.frame with
  | .error _ => none
  | .ok (frame_type, payload) =>
    if frame_type = FRAME_CHUNK then (check_chunk P t held payload).toOption.join else none

theorem Turn.accepts_eq_some {u : Turn} {index : UInt64} {p : Bytes}
    (h : u.accepts P t held = some (index, p)) : ∃ payload, u.frame = .ok (FRAME_CHUNK, payload) ∧
      check_chunk P t held payload = .ok (some (index, p)) := by
  unfold Turn.accepts at h
  split at h
  · cases h
  · next frame_type payload hframe =>
    split_ifs at h with htype
    rw [← htype]
    refine ⟨payload, hframe, ?_⟩
    rcases hcheck : check_chunk P t held payload with e | _ | c
    · rw [hcheck] at h
      cases h
    · rw [hcheck] at h
      cases h
    · rw [hcheck] at h
      rw [Option.some.inj h]

/-- All that a turn can do: without a chunk that passes the checks it leaves
the state as it is. -/
theorem turn_exec (u : Turn) (s : Recv) :
    (u.accepts P t s.held = none ∧ ∃ r, exec (turn P t u) s = (r, s)) ∨
      ∃ index p, u.accepts P t s.held = some (index, p) ∧
        exec (turn P t u) s = exec (accept t.ctx u.answers index p >>= fun _ => pure .next) s := by
  unfold turn Turn.accepts
  rw [exec_bind]
  rcases hframe : u.frame with e | ⟨frame_type, payload⟩
  · exact .inl ⟨rfl, _, rfl⟩
  · simp only [exec, lift]
    split_ifs with hchunk hend
    · rcases hcheck : check_chunk P t s.held payload with e | _ | ⟨index, p⟩
      · refine .inl ⟨rfl, .error e, ?_⟩
        change exec (lift (check_chunk P t s.held payload) >>= _) s = _
        rw [exec_bind, hcheck]
        rfl
      · refine .inl ⟨rfl, .ok .next, ?_⟩
        change exec (lift (check_chunk P t s.held payload) >>= _) s = _
        rw [exec_bind, hcheck]
        rfl
      · refine .inr ⟨index, p, rfl, ?_⟩
        change exec (lift (check_chunk P t s.held payload) >>= _) s = _
        rw [exec_bind, hcheck]
        rfl
    · exact .inl ⟨rfl, _, rfl⟩
    · exact .inl ⟨rfl, _, rfl⟩

/-- A turn that does not fail has accepted the chunk of its frame. -/
theorem accept_of_turn {u : Turn} {s s' : Recv} {flow : Flow} {index : UInt64} {p : Bytes}
    (haccepts : u.accepts P t s.held = some (index, p))
    (hturn : exec (turn P t u) s = (.ok flow, s')) :
    exec (accept t.ctx u.answers index p) s = (.ok (), s') := by
  rcases turn_exec (P := P) (t := t) u s with ⟨hnone, -, -⟩ | ⟨index', p', hsome, he⟩
  · rw [hnone] at haccepts
    cases haccepts
  · obtain ⟨rfl, rfl⟩ := Prod.mk.inj (Option.some.inj (hsome.symm.trans haccepts))
    rw [he, exec_bind] at hturn
    rcases haccept : exec (accept t.ctx u.answers index' p') s with ⟨e | _, s₁⟩
    · rw [haccept] at hturn
      cases hturn
    · rw [haccept] at hturn
      obtain ⟨-, rfl⟩ := Prod.mk.inj hturn
      rfl

/-- What is kept when a chunk is accepted is kept by a turn. -/
theorem turn_spec {inv : Recv → Prop} {r : TransferError → Recv → Prop} {u : Turn}
    (herr : ∀ e s, inv s → r e s)
    (haccept : ∀ s index p, inv s → u.accepts P t s.held = some (index, p) →
      Spec (fun s' => s' = s) (accept t.ctx u.answers index p) (fun _ => inv) r) :
    Spec inv (turn P t u) (fun _ => inv) r := by
  intro s hs
  rcases turn_exec (P := P) (t := t) u s with ⟨-, result, he⟩ | ⟨index, p, hacc, he⟩
  · rw [he]
    rcases result with e | flow
    · exact .inr ⟨e, s, rfl, herr e s hs⟩
    · exact .inl ⟨flow, s, rfl, hs⟩
  · rw [he]
    exact Spec.bind (haccept s index p hs hacc)
      (fun _ => Spec.pure (q := fun _ => inv) Flow.next) s rfl

/-- One turn keeps what holds in the loop. -/
theorem turn_keeps {u : Turn} (hg : t.ctx.Geometry) (hc : t.Commits P ciphertexts)
    (hP : P.Authentic) (hw : u.answers.write = .ok ()) (hapart : u.Apart P ciphertexts) :
    Spec (Recv.Inv P t ciphertexts held file) (turn P t u)
      (fun _ => Recv.Inv P t ciphertexts held file)
      (fun _ => Recv.Inv P t ciphertexts held file) := by
  apply turn_spec (fun _ _ hs => hs)
  intro s index p hs haccepts
  obtain ⟨payload, hframe, hcheck⟩ := Turn.accepts_eq_some haccepts
  obtain ⟨-, hnew, hp⟩ := check_chunk_accepts hc hP
    (fun proof c hdec => hapart payload index proof c hframe hdec) hcheck
  refine (accept_keeps hg hw hp).weaken ?_ (fun _ _ h => h) (fun _ _ h => h)
  rintro s' rfl
  exact ⟨hs, hnew⟩

/-- So does the loop, on any sequence of frames. -/
theorem loop_keeps {us : List Turn} (hg : t.ctx.Geometry) (hc : t.Commits P ciphertexts)
    (hP : P.Authentic) (hw : ∀ u ∈ us, u.answers.write = .ok ())
    (hapart : ∀ u ∈ us, u.Apart P ciphertexts) {s : Recv}
    (hs : s.Inv P t ciphertexts held file) :
    (exec (receive_loop P t us) s).2.Inv P t ciphertexts held file :=
  Spec.always_iff.1 (Spec.each fun u hu => turn_keeps hg hc hP (hw u hu) (hapart u hu)) s hs

theorem start_inv {db : Option ResumeDb} {route_watch : RouteWatch} (hg : t.ctx.Geometry)
    (hheld : held.chunk_count = t.ctx.chunk_count)
    (hdb : ∀ d ∈ db, d.record.identity.chunk_count = t.ctx.chunk_count) :
    (Recv.start t.ctx db held route_watch file).Inv P t ciphertexts held
      (set_len 0 file t.ctx.logical_plaintext_size.toNat) := by
  refine ⟨⟨?_, hheld, hdb⟩, ?_⟩
  · simp [Recv.start, hg.encoded_eq]
  · constructor <;> simp [Recv.start, Recv.accepted]

/-- Whatever frames arrive, every chunk that became held was accepted once and
its region has the committed plaintext. No other byte of the file changed. A
chunk frame that fails a check or that is a duplicate changes nothing. -/
theorem every_new_chunk_was_accepted_once_and_is_the_committed_one
    {transfer_id object_id : Arr 32} {file_size : UInt64} {size : UInt32}
    (hctx : ObjectContext.for_file transfer_id object_id file_size size = some t.ctx)
    (hc : t.Commits P ciphertexts) (hP : P.Authentic) (held : ChunkBitmap) (db : Option ResumeDb)
    (route_watch : RouteWatch) (file : Bytes) (hheld : held.chunk_count = t.ctx.chunk_count)
    (hdb : ∀ d ∈ db, d.record.identity.chunk_count = t.ctx.chunk_count) (us : List Turn)
    (hw : ∀ u ∈ us, u.answers.write = .ok ()) (hapart : ∀ u ∈ us, u.Apart P ciphertexts) :
    let s := (exec (receive_loop P t us) (Recv.start t.ctx db held route_watch file)).2
    s.Delivered P t ciphertexts held (set_len 0 file t.ctx.logical_plaintext_size.toNat) ∧
      ∀ u payload, u.frame = .ok (FRAME_CHUNK, payload) →
        (∀ chunk, check_chunk P t s.held payload ≠ .ok (some chunk)) →
        (exec (turn P t u) s).2 = s := by
  intro s
  have hg := ObjectContext.for_file_geometry hctx
  constructor
  · exact (loop_keeps hg hc hP hw hapart (start_inv hg hheld hdb)).2
  · intro u payload hframe hcheck
    rcases turn_exec (P := P) (t := t) u s with ⟨-, r, he⟩ | ⟨index, p, haccepts, -⟩
    · rw [he]
    · obtain ⟨payload', hframe', hcheck'⟩ := Turn.accepts_eq_some haccepts
      cases hframe.symm.trans hframe'
      exact absurd hcheck' (hcheck _)

end Loop

/-! ## A transfer of one byte -/

def sampleSchedule : FileKeySchedule :=
  FileSecrets.key_schedule sample
    ⟨.replicate 32 1, .replicate 32 2, .replicate 32 3, .replicate 32 4⟩

def oneByte : ObjectContext := ⟨.replicate 32 1, .replicate 32 2, 1, 1, 65536, 1, 0, 0⟩

def oneByteCiphertext : Bytes :=
  (encrypt_chunk sample sampleSchedule oneByte (oneByte.context_hash sample) 0 [7]).getD []

def sampleIncoming : Incoming where
  ctx := oneByte
  ctx_hash := oneByte.context_hash sample
  schedule := sampleSchedule
  root := merkle_root sample (leaves_of sample [oneByteCiphertext])

def sampleAnswers : Answers := ⟨.ok (), 0, .Unknown, .ok (), .ok ()⟩

/-- The chunk, the chunk again, and a frame that cannot be decoded. -/
def sampleTurns : List Turn :=
  let record := encode_chunk_record 0 [] oneByteCiphertext
  [⟨.ok (FRAME_CHUNK, record), sampleAnswers⟩, ⟨.ok (FRAME_CHUNK, record), sampleAnswers⟩,
    ⟨.ok (FRAME_CHUNK, [9]), sampleAnswers⟩]

theorem sampleTurns_apart : ∀ u ∈ sampleTurns, u.Apart sample [oneByteCiphertext] := by
  have hrecord : decode_chunk_record (encode_chunk_record 0 [] oneByteCiphertext) =
      .ok (0, [], oneByteCiphertext) := by decide +kernel
  have hbad : decode_chunk_record [9] = .error (.Protocol "bad chunk record") := by decide +kernel
  have happly : ∀ payload index proof c,
      payload = encode_chunk_record 0 [] oneByteCiphertext ∨ payload = [9] →
      decode_chunk_record payload = .ok (index, proof, c) →
      NoCollision sample.blake3 (committed_inputs sample [oneByteCiphertext])
        (checked_inputs sample index proof c) := by
    rintro payload index proof c (rfl | rfl) hdec
    · cases hrecord.symm.trans hdec
      decide +kernel
    · cases hbad.symm.trans hdec
  intro u hu payload index proof c hframe
  apply happly
  simp only [sampleTurns, List.mem_cons, List.not_mem_nil, or_false] at hu
  rcases hu with rfl | rfl | rfl <;> cases hframe <;> simp

/-- No chunk of one. -/
def sampleHeld : ChunkBitmap where
  chunk_count := 1
  bits := [0]
  set_count := 0
  bounded := by decide
  length_bits := rfl
  trailing := fun i _ => bit_replicate_zero 1 i
  counted := by decide

theorem one_byte_is_delivered_once :
    let s := (exec (receive_loop sample sampleIncoming sampleTurns)
      (Recv.start oneByte none sampleHeld (.new .Unknown .Any 0) [])).2
    s.accepted = [0] ∧ s.file = [7] ∧
      s.Delivered sample sampleIncoming [oneByteCiphertext] sampleHeld [0] ∧
      ∀ u payload, u.frame = .ok (FRAME_CHUNK, payload) →
        (∀ chunk, check_chunk sample sampleIncoming s.held payload ≠ .ok (some chunk)) →
        (exec (turn sample sampleIncoming u) s).2 = s := by
  refine ⟨by decide +kernel, by decide +kernel, ?_⟩
  have hctx : ObjectContext.for_file (.replicate 32 1) (.replicate 32 2) 1 65536 =
      some sampleIncoming.ctx := by
    decide +kernel
  exact every_new_chunk_was_accepted_once_and_is_the_committed_one hctx ⟨rfl, rfl⟩
    sample_authentic sampleHeld none _ [] rfl (by simp) _ (by decide) sampleTurns_apart

/-! ## An object of three chunks -/

/-- The last chunk has one byte. -/
def threeChunks : ObjectContext :=
  ⟨.replicate 32 1, .replicate 32 2, 131073, 131073, 65536, 3, 0, 0⟩

theorem threeChunks_for_file :
    ObjectContext.for_file (.replicate 32 1) (.replicate 32 2) 131073 65536 = some threeChunks := by
  decide +kernel

def threeContent : Bytes := List.replicate 131072 0 ++ [7]

theorem length_threeContent : threeContent.length = 131073 := by
  rw [threeContent, List.length_append, List.length_replicate]
  rfl

/-- Only the second chunk of three, between two gaps. -/
def secondHeld : ChunkBitmap where
  chunk_count := 3
  bits := [0x40]
  set_count := 1
  bounded := by decide
  length_bits := rfl
  trailing := by
    intro i hi
    by_cases hlt : i < 8
    · have htail : ∀ k : Fin 8, (3 : UInt64).toNat ≤ k → bit [0x40] k = false := by decide
      exact htail ⟨i, hlt⟩ hi
    · exact bit_of_length_le (Nat.div_pos (Nat.not_lt.1 hlt) (by decide))
  counted := by decide

end rtp2_core.transfer
