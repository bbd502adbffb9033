-- The plaintext digest of a received file. The running hash is given up at a
-- gap and not at a duplicate, and counts only if it came to the end. Whenever
-- it counts it saw what reading the file again would give, and the file is all
-- chunks in their order, however they arrived.
import Reyta.Delivery
import Reyta.Destinations

open byte_string early_exit file_region

namespace rtp2_core.transfer

open bitmap crypto object resume route

/-! ## Chunks side by side -/

section Front

variable {ctx : ObjectContext} {file : Bytes} {index : UInt64} {p : Bytes}

/-- The first `n` chunks of a file. -/
def front (ctx : ObjectContext) (file : Bytes) (n : Nat) : Bytes :=
  (List.range n).flatMap fun i => region ctx file (.ofNat i)

theorem front_succ (ctx : ObjectContext) (file : Bytes) (n : Nat) :
    front ctx file (n + 1) = front ctx file n ++ region ctx file (.ofNat n) := by
  simp [front, List.range_succ]

theorem front_congr {file' : Bytes} {n : Nat}
    (h : ∀ i < n, region ctx file' (.ofNat i) = region ctx file (.ofNat i)) :
    front ctx file' n = front ctx file n := by
  unfold front
  exact List.flatMap_congr fun i hi => h i (List.mem_range.1 hi)

theorem front_eq_take (hg : ctx.Geometry) {n : Nat} (hn : n ≤ ctx.chunk_count.toNat) :
    front ctx file n = file.take (min (ctx.start n) ctx.encoded_plaintext_size.toNat) := by
  induction n with
  | zero => simp [front, ObjectContext.start]
  | succ n ih =>
    have hstart := hg.starts n hn
    rw [front_succ, ih (by omega), region, ObjectContext.toNat_index hn, slice,
      ← ObjectContext.end_eq (by omega), Nat.min_eq_left (by omega), List.take_add]

/-- All chunks of a file of the right length are the file. -/
theorem front_all (hg : ctx.Geometry) (hlen : file.length = ctx.encoded_plaintext_size.toNat) :
    front ctx file ctx.chunk_count.toNat = file := by
  rw [front_eq_take hg (Nat.le_refl _), Nat.min_eq_right hg.covers, ← hlen, List.take_length]

variable (hg : ctx.Geometry) (hlen : file.length = ctx.encoded_plaintext_size.toNat)
  (hi : index < ctx.chunk_count) (hp : p.length = ctx.extent index.toNat)
include hg hlen hi hp

/-- A chunk has room in its region. -/
theorem chunk_room : ctx.start index.toNat + p.length ≤ file.length := by
  rw [hp, hlen]
  exact ObjectContext.end_le_encoded hg (UInt64.lt_iff_toNat_lt.1 hi)

theorem region_write_self : region ctx (write_at 0 file (ctx.start index.toNat) p) index = p := by
  have hroom := chunk_room hg hlen hi hp
  rw [region, ← hp, slice_write_at_self 0 (by omega)]

theorem region_write_apart {i : UInt64} (hne : index ≠ i) :
    region ctx (write_at 0 file (ctx.start index.toNat) p) i = region ctx file i := by
  have hapart := regions_apart ctx hne
  exact slice_write_at_apart 0 (chunk_room hg hlen hi hp) (by omega)

end Front

/-! ## One chunk -/

/-- What `digest` makes of the running hash. -/
def hash_next (index : UInt64) (p : Bytes) (streaming : Option (Bytes × UInt64)) :
    Option (Bytes × UInt64) :=
  streaming.bind fun (hashed, next) =>
    if index = next then some (hashed ++ p, next + 1) else none

/-- From `s` to `s'` a chunk was put into the file, and the running hash is
`streaming`. -/
structure Recv.Put (ctx : ObjectContext) (s : Recv) (index : UInt64) (p : Bytes)
    (streaming : Option (Bytes × UInt64)) (s' : Recv) : Prop where
  file : s'.file = write_at 0 s.file (index * ctx.chunk_plaintext_size.toUInt64).toNat p
  held : ∃ changed, s.held.SetTo index s'.held changed
  db_count : ∀ d ∈ s'.db, d.record.identity.chunk_count = ctx.chunk_count
  streaming : s'.streaming = streaming

section Put

variable {ctx : ObjectContext} {a : Answers} {index : UInt64} {p : Bytes} {s : Recv}
  {streaming : Option (Bytes × UInt64)}

theorem persist_puts (hs : s.Shape ctx) (hi : index < ctx.chunk_count) :
    Spec (fun s' => s' = s) (persist ctx a index p) (fun _ => Recv.Put ctx s index p s.streaming)
      (fun _ _ => True) := by
  intro s₁ hs₁
  rw [hs₁]
  rcases hw : a.write with ⟨n, e⟩ | _
  · have hwrite : ∃ e s', exec (write_chunk ctx a index p) s = (.error e, s') := by
      unfold exec write_chunk
      rw [hw]
      exact ⟨_, _, rfl⟩
    obtain ⟨e, s', he⟩ := hwrite
    refine .inr ⟨e, s', ?_, trivial⟩
    rw [persist, exec_bind, he]
  · obtain ⟨held, db, he, hset, hdb⟩ := persist_exec (p := p) hs hw hi
    exact .inl ⟨(), _, he, rfl, hset, hdb, rfl⟩

theorem poll_puts {transfer_id : Arr 32} :
    Spec (Recv.Put ctx s index p streaming) (poll transfer_id a)
      (fun _ => Recv.Put ctx s index p streaming) (fun _ _ => True) := by
  intro s' hs'
  unfold exec poll
  rcases s'.route_watch.poll_with transfer_id a.now a.route with ⟨watch, pushed, e | _⟩
  · exact .inr ⟨e, _, rfl, trivial⟩
  · exact .inl ⟨(), _, rfl, hs'.file, hs'.held, hs'.db_count, hs'.streaming⟩

theorem chunk_written_puts :
    Spec (Recv.Put ctx s index p streaming) (chunk_written index a)
      (fun _ => Recv.Put ctx s index p streaming) (fun _ _ => True) := by
  refine (Spec.always_iff.2 ?_).weaken (fun _ h => h) (fun _ _ h => h) (fun _ _ _ => trivial)
  intro s' hs'
  rcases chunk_written_exec index a s' with ⟨-, he⟩ | ⟨db, db', effects, result, hdb, hw, he⟩
  · rw [he]
    exact hs'
  · rw [he]
    refine ⟨hs'.file, hs'.held, ?_, hs'.streaming⟩
    intro d hd
    obtain rfl := Option.some.inj hd
    rw [hw.identity]
    exact hs'.db_count db hdb

theorem accept_puts (hs : s.Shape ctx) (hi : index < ctx.chunk_count) :
    Spec (fun s' => s' = s) (accept ctx a index p)
      (fun _ => Recv.Put ctx s index p (hash_next index p s.streaming)) (fun _ _ => True) := by
  refine Spec.bind (persist_puts hs hi) fun _ => Spec.bind poll_puts fun _ =>
    Spec.bind (q := fun _ => Recv.Put ctx s index p (hash_next index p s.streaming)) ?digest
      fun _ => Spec.bind (q := fun _ => Recv.Put ctx s index p (hash_next index p s.streaming))
      ?progress fun _ => chunk_written_puts
  case digest =>
    intro s' h
    exact .inl ⟨(), _, rfl, h.file, h.held, h.db_count, congrArg (hash_next index p) h.streaming⟩
  case progress =>
    exact fun s' h => .inl ⟨(), _, rfl, h.file, h.held, h.db_count, h.streaming⟩

end Put

/-! ## The loop -/

/-- The chunks that a run of the loop takes, in their order, with the plaintexts
that passed the checks. -/
def taken (P : Primitives) (t : Incoming) : List Turn → Recv → List (UInt64 × Bytes)
  | [], _ => []
  | u :: us, s =>
    (u.accepts P t s.held).toList ++
      match exec (turn P t u) s with
      | (.ok .next, s') => taken P t us s'
      | _ => []

/-- The running hash saw all chunks up to the one that it waits for. They are held,
so that they are not written again. -/
def Hashed (ctx : ObjectContext) (held : ChunkBitmap) (file : Bytes)
    (streaming : Option (Bytes × UInt64)) : Prop :=
  ∀ hashed next, streaming = some (hashed, next) →
    (∀ i < next, held.Has i) ∧ hashed = front ctx file next.toNat

/-- The loop started with `held` and `file` and took the chunks of `log`. -/
structure Recv.Filled (ctx : ObjectContext) (held : ChunkBitmap) (file : Bytes)
    (log : List (UInt64 × Bytes)) (s : Recv) : Prop where
  shape : s.Shape ctx
  has : ∀ i, s.held.Has i ↔ held.Has i ∨ i ∈ log.map Prod.fst
  /-- The chunks that were held are as they were, -/
  kept : ∀ i, held.Has i → region ctx s.file i = region ctx file i
  /-- those that were taken are there, -/
  taken : ∀ c ∈ log, region ctx s.file c.1 = c.2
  /-- and the running hash saw the first of them. -/
  streaming : Hashed ctx s.held s.file s.streaming

section Loop

variable {P : Primitives} {t : Incoming} {held : ChunkBitmap} {file : Bytes}
  {log : List (UInt64 × Bytes)} {s s' : Recv}

/-- One more chunk is in the file, and the others that are held are as they were. -/
theorem Hashed.next {ctx : ObjectContext} {held' : ChunkBitmap} {file' : Bytes} {index : UInt64}
    {p : Bytes} {streaming : Option (Bytes × UInt64)} (h : Hashed ctx held file streaming)
    (hg : ctx.Geometry) (hi : index < ctx.chunk_count)
    (hhas : ∀ i, held'.Has i ↔ i = index ∨ held.Has i)
    (hother : ∀ i, held.Has i → region ctx file' i = region ctx file i)
    (hself : region ctx file' index = p) :
    Hashed ctx held' file' (hash_next index p streaming) := by
  intro hashed next hstreaming
  obtain ⟨⟨hashed₀, next₀⟩, hbefore, hstep⟩ := Option.bind_eq_some_iff.1 hstreaming
  obtain ⟨hall, rfl⟩ := h hashed₀ next₀ hbefore
  simp only at hstep
  -- At a gap the hash is given up, so the chunk is the one that it waits for.
  split_ifs at hstep with hnext
  obtain ⟨rfl, rfl⟩ := Prod.mk.inj (Option.some.inj hstep)
  subst hnext
  have hsucc : (index + 1).toNat = index.toNat + 1 := by
    have hlt := UInt64.lt_iff_toNat_lt.1 hi
    have hcount := hg.count_le
    have hone : (1 : UInt64).toNat = 1 := rfl
    rw [UInt64.toNat_add, hone, Nat.mod_eq_of_lt (by omega)]
  constructor
  · intro i hlt
    rw [UInt64.lt_iff_toNat_lt, hsucc] at hlt
    rw [hhas]
    by_cases heq : i = index
    · exact .inl heq
    · have hne := mt UInt64.toNat_inj.1 heq
      exact .inr (hall i (UInt64.lt_iff_toNat_lt.2 (by omega)))
  · have hfront : front ctx file' index.toNat = front ctx file index.toNat := by
      refine front_congr fun n hn => hother _ (hall _ (UInt64.lt_iff_toNat_lt.2 ?_))
      rwa [UInt64.toNat_ofNat_of_lt' (Nat.lt_trans hn index.toNat_lt)]
    rw [hsucc, front_succ, hfront, UInt64.ofNat_toNat, hself]

/-- One more chunk, which was not held. -/
theorem Recv.Filled.put (h : s.Filled t.ctx held file log) (hg : t.ctx.Geometry) {index : UInt64}
    {p : Bytes} (hi : index < t.ctx.chunk_count) (hp : p.length = t.ctx.extent index.toNat)
    (hnew : ¬ s.held.Has index)
    (hput : s.Put t.ctx index p (hash_next index p s.streaming) s') :
    s'.Filled t.ctx held file (log ++ [(index, p)]) := by
  obtain ⟨changed, hset⟩ := hput.held
  have hfile := hput.file
  rw [ObjectContext.start_toNat hg hi] at hfile
  have hself : region t.ctx s'.file index = p := by
    rw [hfile]
    exact region_write_self hg h.shape.file_len hi hp
  have hother : ∀ i, s.held.Has i → region t.ctx s'.file i = region t.ctx s.file i := by
    intro i hhas
    rw [hfile]
    refine region_write_apart hg h.shape.file_len hi hp ?_
    rintro rfl
    exact hnew hhas
  constructor
  case shape =>
    refine ⟨?_, hset.chunk_count.trans h.shape.held_count, hput.db_count⟩
    rw [hfile, length_write_at 0 (chunk_room hg h.shape.file_len hi hp), h.shape.file_len]
  case has =>
    intro i
    rw [hset.has, h.has, List.map_append, List.mem_append, List.map_singleton, List.mem_singleton]
    tauto
  case kept =>
    intro i hhas
    rw [hother i ((h.has i).2 (.inl hhas)), h.kept i hhas]
  case taken =>
    intro c hc
    rcases List.mem_append.1 hc with hc | hc
    · rw [hother c.1 ((h.has c.1).2 (.inr (List.mem_map_of_mem hc))), h.taken c hc]
    · rw [List.mem_singleton.1 hc, hself]
  case streaming =>
    rw [hput.streaming]
    exact h.streaming.next hg hi hset.has hother hself

/-- A turn that does not fail puts the chunk that it takes into the file. -/
theorem turn_puts (hs : s.Shape t.ctx) {u : Turn} {index : UInt64} {p : Bytes} {flow : Flow}
    (haccepts : u.accepts P t s.held = some (index, p))
    (hturn : exec (turn P t u) s = (.ok flow, s')) :
    s.Put t.ctx index p (hash_next index p s.streaming) s' := by
  obtain ⟨payload, -, hcheck⟩ := Turn.accepts_eq_some haccepts
  obtain ⟨hi, -⟩ := check_chunk_eq_some hcheck
  exact (accept_puts hs hi).of_ok rfl (accept_of_turn haccepts hturn)

/-- A turn that does not fail takes the chunk of its frame, if there is one. -/
theorem turn_fills (h : s.Filled t.ctx held file log) (hg : t.ctx.Geometry) {u : Turn} {flow : Flow}
    (hturn : exec (turn P t u) s = (.ok flow, s')) :
    s'.Filled t.ctx held file (log ++ (u.accepts P t s.held).toList) := by
  rcases turn_exec (P := P) (t := t) u s with ⟨hnone, r, he⟩ | ⟨index, p, hsome, he⟩
  · obtain ⟨-, rfl⟩ := Prod.mk.inj (he.symm.trans hturn)
    rw [hnone, Option.toList_none, List.append_nil]
    exact h
  · obtain ⟨payload, -, hcheck⟩ := Turn.accepts_eq_some hsome
    obtain ⟨hi, hnew, proof, c, -, -, hdec⟩ := check_chunk_eq_some hcheck
    obtain ⟨len, hlen, -, -, hp⟩ := (decrypt_chunk_eq_some P).1 hdec
    obtain ⟨-, hext⟩ := (ObjectContext.chunk_len_eq_some hg).1 hlen
    rw [hsome, Option.toList_some]
    exact h.put hg hi (hp.trans hext) hnew (turn_puts h.shape hsome hturn)

theorem loop_fills (h : s.Filled t.ctx held file log) (hg : t.ctx.Geometry) {us : List Turn}
    {flow : Flow} (hloop : exec (receive_loop P t us) s = (.ok flow, s')) :
    s'.Filled t.ctx held file (log ++ taken P t us s) := by
  induction us generalizing s log with
  | nil =>
    obtain ⟨-, rfl⟩ := Prod.mk.inj hloop
    rw [taken, List.append_nil]
    exact h
  | cons u us ih =>
    rw [receive_loop, each, exec_bind] at hloop
    rcases hturn : exec (turn P t u) s with ⟨e | flow', s₁⟩
    · rw [hturn] at hloop
      cases hloop
    · have h₁ := turn_fills h hg hturn
      rw [hturn] at hloop
      rw [taken, hturn]
      cases flow' with
      | next =>
        rw [← List.append_assoc]
        exact ih h₁ hloop
      | done =>
        obtain ⟨-, rfl⟩ := Prod.mk.inj hloop
        rw [List.append_nil]
        exact h₁

/-- The running hash went over what was taken. -/
theorem loop_hashes (h : s.Filled t.ctx held file log) (hg : t.ctx.Geometry) {us : List Turn}
    {flow : Flow} (hloop : exec (receive_loop P t us) s = (.ok flow, s')) :
    s'.streaming =
      (taken P t us s).foldl (fun streaming c => hash_next c.1 c.2 streaming) s.streaming := by
  induction us generalizing s log with
  | nil =>
    obtain ⟨-, rfl⟩ := Prod.mk.inj hloop
    rfl
  | cons u us ih =>
    rw [receive_loop, each, exec_bind] at hloop
    rcases hturn : exec (turn P t u) s with ⟨e | flow', s₁⟩
    · rw [hturn] at hloop
      cases hloop
    · have hstep : s₁.streaming = (u.accepts P t s.held).toList.foldl
          (fun streaming c => hash_next c.1 c.2 streaming) s.streaming := by
        rcases hu : u.accepts P t s.held with _ | ⟨index, p⟩
        · rcases turn_exec (P := P) (t := t) u s with ⟨-, r, he⟩ | ⟨index, p, hsome, -⟩
          · obtain ⟨-, rfl⟩ := Prod.mk.inj (he.symm.trans hturn)
            rfl
          · rw [hu] at hsome
            cases hsome
        · exact (turn_puts h.shape hu hturn).streaming
      have h₁ := turn_fills h hg hturn
      rw [hturn] at hloop
      rw [taken, hturn, List.foldl_append, ← hstep]
      cases flow' with
      | next => exact ih h₁ hloop
      | done =>
        obtain ⟨-, rfl⟩ := Prod.mk.inj hloop
        rfl

/-- Of the chunks that are sent the missing ones are taken, as they come. -/
theorem taken_chunk_turns {t : PendingTransfer} {content : Bytes} (hg : t.ctx.Geometry)
    {policy : RoutePolicy} {record : UInt64 → Record} {payload : UInt64 → Bytes}
    {indices : List UInt64}
    (hsound : ∀ i ∈ indices, Sound P t content i (record i) (payload i)) (hnodup : indices.Nodup)
    {ans : List Answers} (hlen : indices.length < ans.length) (hwork : ∀ a ∈ ans, a.Work policy)
    (hs : s.Ready P t.incoming (t.ciphertexts P content) held file policy)
    (hnew : ∀ i ∈ indices, ¬ s.held.Has i) :
    taken P t.incoming (chunk_turns (indices.map payload) ans) s =
      indices.map fun i => (i, region t.ctx content i) := by
  induction indices generalizing ans s with
  | nil =>
    cases ans with
    | nil => cases hlen
    | cons a ans => rfl
  | cons i rest ih =>
    cases ans with
    | nil => cases hlen
    | cons a ans =>
      have hi := hsound i List.mem_cons_self
      obtain ⟨hout, hrest⟩ := List.nodup_cons.1 hnodup
      obtain ⟨s₁, hturn, hs₁, hhas₁⟩ := hi.turn_exec hg (hwork a List.mem_cons_self) hs
      have hnew₁ : ∀ j ∈ rest, ¬ s₁.held.Has j := by
        intro j hj hhas
        rcases (hhas₁ j).1 hhas with rfl | hhas
        · exact hout hj
        · exact hnew j (List.mem_cons_of_mem _ hj) hhas
      rw [List.map_cons, chunk_turns, taken, hturn, hi.accepts a (hnew i List.mem_cons_self)]
      simp only
      rw [ih (fun j hj => hsound j (List.mem_cons_of_mem _ hj)) hrest
        (Nat.lt_of_succ_lt_succ hlen) (fun b hb => hwork b (List.mem_cons_of_mem _ hb)) hs₁ hnew₁]
      rfl

theorem start_filled {db : Option ResumeDb} {route_watch : RouteWatch} (hg : t.ctx.Geometry)
    (hheld : held.chunk_count = t.ctx.chunk_count)
    (hdb : ∀ d ∈ db, d.record.identity.chunk_count = t.ctx.chunk_count) :
    (Recv.start t.ctx db held route_watch file).Filled t.ctx held
      (set_len 0 file t.ctx.logical_plaintext_size.toNat) [] where
  shape := ⟨by simp [Recv.start, hg.encoded_eq], hheld, hdb⟩
  has := by simp [Recv.start]
  kept _ _ := rfl
  taken := by simp
  streaming := by
    intro hashed next hstreaming
    obtain ⟨rfl, rfl⟩ := Prod.mk.inj (Option.some.inj hstreaming)
    exact ⟨fun i hi => absurd hi (by simp), rfl⟩

/-- The digest is that of the file, whichever way it is computed. -/
theorem Recv.Filled.plaintext_digest (h : s.Filled t.ctx held file log) (hg : t.ctx.Geometry) :
    exec (transfer.plaintext_digest P t.ctx (.ok ())) s = (.ok (P.blake3 s.file), s) := by
  unfold exec transfer.plaintext_digest
  split
  · next hashed next hstreaming =>
    obtain ⟨hsome, hend⟩ := Option.filter_eq_some_iff.1 hstreaming
    obtain ⟨-, rfl⟩ := h.streaming hashed next hsome
    obtain rfl : next = t.ctx.chunk_count := of_decide_eq_true hend
    rw [front_all hg h.shape.file_len]
  · rfl

/-- For every accepted context, from any chunks that the file has and over any
frames up to the end of the stream: if all chunks are held then each was held
before or was taken, the file is their plaintexts side by side, and the digest
is that of the file. -/
theorem the_digest_is_that_of_all_chunks (P : Primitives) (t : Incoming)
    {transfer_id object_id : Arr 32} {file_size : UInt64} {size : UInt32}
    (hctx : ObjectContext.for_file transfer_id object_id file_size size = some t.ctx)
    (held : ChunkBitmap) (hheld : held.chunk_count = t.ctx.chunk_count) (db : Option ResumeDb)
    (hdb : ∀ d ∈ db, d.record.identity.chunk_count = t.ctx.chunk_count)
    (route_watch : RouteWatch) (file : Bytes) (us : List Turn) (s₀ s : Recv)
    (hstart : s₀ = .start t.ctx db held route_watch file)
    (hloop : exec (receive_loop P t us) s₀ = (.ok .done, s))
    (hcomplete : s.held.is_complete = true) :
    (∃ plain : UInt64 → Bytes,
      (∀ i, held.Has i → plain i = region t.ctx s₀.file i) ∧
      (∀ c ∈ taken P t us s₀, plain c.1 = c.2) ∧
      (∀ i < t.ctx.chunk_count, held.Has i ∨ i ∈ (taken P t us s₀).map Prod.fst) ∧
      s.file = (List.range t.ctx.chunk_count.toNat).flatMap fun n => plain (.ofNat n)) ∧
    ∀ a : Attempt, a.sync_all = .ok () →
      ∃ s', exec (settle a >>= fun _ => plaintext_digest P t.ctx (.ok ())) s =
          (.ok (P.blake3 s.file), s') ∧ s'.file = s.file := by
  subst hstart
  have hg := ObjectContext.for_file_geometry hctx
  have hstart : (Recv.start t.ctx db held route_watch file).Filled t.ctx held
      (set_len 0 file t.ctx.logical_plaintext_size.toNat) [] := start_filled hg hheld hdb
  have hfilled := loop_fills hstart hg hloop
  rw [List.nil_append] at hfilled
  refine ⟨⟨region t.ctx s.file, hfilled.kept, hfilled.taken, ?_, ?_⟩, ?_⟩
  · intro i hi
    rw [← hfilled.shape.held_count] at hi
    exact (hfilled.has i).1 ((ChunkBitmap.is_complete_iff _).1 hcomplete i hi)
  · exact (front_all hg hfilled.shape.file_len).symm
  · intro a hsync
    have hsynced : ({ s with effects := s.effects ++ [.sync] } : Recv).Filled t.ctx held
        (set_len 0 file t.ctx.logical_plaintext_size.toNat) _ :=
      ⟨⟨hfilled.shape.file_len, hfilled.shape.held_count, hfilled.shape.db_count⟩, hfilled.has,
        hfilled.kept, hfilled.taken, hfilled.streaming⟩
    refine ⟨{ s with effects := s.effects ++ [.sync] }, ?_, rfl⟩
    rw [exec_bind, settle_complete hcomplete hsync]
    exact hsynced.plaintext_digest hg

/-- The second of three chunks is held, and the other two come in the wrong order. So the
running hash is given up and the file is read again. -/
theorem the_digest_of_chunks_out_of_order_is_that_of_the_file :
    ∃ (t : Incoming) (us : List Turn) (s : Recv), t.ctx = threeChunks ∧
      let s₀ := Recv.start threeChunks none secondHeld (.new .Unknown .Any 0) []
      taken sample t us s₀ = [(2, [7]), (0, List.replicate 65536 0)] ∧
      exec (receive_loop sample t us) s₀ = (.ok .done, s) ∧ s.streaming = none ∧
      s.file = threeContent ∧ ∀ a : Attempt, a.sync_all = .ok () →
        ∃ s', exec (settle a >>= fun _ => plaintext_digest sample threeChunks (.ok ())) s =
          (.ok (sample.blake3 threeContent), s') := by
  have hlt : ∀ i ∈ ([2, 0] : List UInt64), i < threeChunks.chunk_count :=
    List.forall_mem_cons.2 ⟨by decide, List.forall_mem_singleton.2 (by decide)⟩
  have hnew : ∀ i ∈ ([2, 0] : List UInt64), ¬ secondHeld.Has i :=
    List.forall_mem_cons.2 ⟨by decide, List.forall_mem_singleton.2 (by decide)⟩
  obtain ⟨t, record, payload, s, hctx, hg, hsound, hrun, hs, hhas⟩ :=
    exists_three_run hlt (by decide)
  let us := chunk_turns ([2, 0].map payload) (List.replicate 3 sampleAnswers)
  have htaken : taken sample t.incoming us (.start t.incoming.ctx none secondHeld
      (.new .Unknown .Any 0) []) = [(2, [7]), (0, List.replicate 65536 0)] := by
    rw [← region_last, ← region_of_lt_two (show (0 : UInt64) < 2 by decide), ← hctx]
    exact taken_chunk_turns hg hsound (by decide) (by decide)
      (by simpa using sampleAnswers_work) (three_ready hg hctx) hnew
  have hcount := secondHeld_count hctx
  have hcomplete : s.held.is_complete = true := by
    rw [ChunkBitmap.is_complete_iff, hs.inv.1.held_count.trans hcount.symm]
    intro i hi
    rw [hhas]
    rcases eq_of_lt_three hi with rfl | rfl | rfl
    · exact .inl (by decide)
    · exact .inr (by decide)
    · exact .inl (by decide)
  obtain ⟨⟨plain, hheld, hplain, -, hfile⟩, hdigest⟩ :=
    the_digest_is_that_of_all_chunks sample t.incoming (hctx ▸ threeChunks_for_file) secondHeld
      hcount none (by simp) _ [] us _ s rfl hrun hcomplete
  rw [htaken] at hplain
  have hfirst : plain 0 = List.replicate 65536 0 := hplain _ (.tail _ (.head _))
  have hsecond : plain 1 = List.replicate 65536 0 := by
    rw [hheld 1 (by decide), ← region_second]
    exact congrArg (fun ctx => region ctx (set_len 0 [] ctx.logical_plaintext_size.toNat) 1) hctx
  have hlast : plain 2 = [7] := hplain _ (.head _)
  have hcontent : s.file = threeContent := by
    have hthree : t.incoming.ctx.chunk_count.toNat = 3 := congrArg (·.chunk_count.toNat) hctx
    rw [hfile, hthree]
    exact flatMap_three hfirst hsecond hlast
  have hnone : s.streaming = none := by
    rw [loop_hashes (start_filled hg hcount (by simp)) hg hrun, htaken]
    rfl
  rw [← hctx]
  refine ⟨t.incoming, us, s, rfl, htaken, hrun, hnone, hcontent, fun a hsync => ?_⟩
  obtain ⟨s', hexec, -⟩ := hdigest a hsync
  rw [hcontent] at hexec
  exact ⟨s', hexec⟩

end Loop

end rtp2_core.transfer
