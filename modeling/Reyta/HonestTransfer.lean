-- An honest sender and the receiver of its offer. What the sender makes for a
-- chunk that was asked for passes every check and decrypts to the bytes of the
-- source, so that the receiver holds what it asked for when the stream ends.
import Reyta.Receiver
import Reyta.Scheduler
import Reyta.Sender

open byte_string early_exit exact_parse file_region

namespace rtp2_core.transfer

open bitmap crypto keys merkle object resume route scheduler

/-- An index, a proof and a ciphertext. -/
abbrev Record := UInt64 × List ProofStep × Bytes

/-! ## The sender -/

/-- The loop of `send_pending` over the chunks. The next record is made after
`ahead` was sent. What was sent is returned also if a record cannot be made. -/
def send_ahead (produce : UInt64 → Except Stop Record) (ahead : Record) :
    List UInt64 → List Record × Except Stop Unit
  | [] => ([ahead], .ok ())
  | next :: rest =>
    match produce next with
    | .error e => ([ahead], .error e)
    | .ok record =>
      let (sent, result) := send_ahead produce record rest
      (ahead :: sent, result)

def send_chunks (produce : UInt64 → Except Stop Record) :
    List UInt64 → List Record × Except Stop Unit
  | [] => ([], .ok ())
  | first :: rest =>
    match produce first with
    | .error e => ([], .error e)
    | .ok record => send_ahead produce record rest

/-- What the receiver of the offer works with. -/
def PendingTransfer.incoming (t : PendingTransfer) : Incoming :=
  ⟨t.ctx, t.ctx_hash, t.schedule, t.ciphertext_root⟩

theorem send_ahead_of_ok {produce : UInt64 → Except Stop Record} {f : UInt64 → Record}
    {indices : List UInt64} (h : ∀ i ∈ indices, produce i = .ok (f i)) (ahead : Record) :
    send_ahead produce ahead indices = (ahead :: indices.map f, .ok ()) := by
  induction indices generalizing ahead with
  | nil => rfl
  | cons next rest ih =>
    have hrest := ih (fun i hi => h i (List.mem_cons_of_mem _ hi)) (f next)
    simp only [send_ahead, h next List.mem_cons_self, hrest, List.map_cons]

theorem send_chunks_of_ok {produce : UInt64 → Except Stop Record} {f : UInt64 → Record}
    {indices : List UInt64} (h : ∀ i ∈ indices, produce i = .ok (f i)) :
    send_chunks produce indices = (indices.map f, .ok ()) := by
  cases indices with
  | nil => rfl
  | cons first rest =>
    have hrest := send_ahead_of_ok (fun i hi => h i (List.mem_cons_of_mem _ hi)) (f first)
    simp only [send_chunks, h first List.mem_cons_self, hrest, List.map_cons]

/-! ## The checks pass -/

section Passes

variable {P : Primitives}

/-- The ciphertext of a chunk has the length that is expected and decrypts. -/
theorem decrypt_of_encrypt_chunk (hE : P.Encrypts) (hD : P.Decrypts) {schedule : FileKeySchedule}
    {ctx : ObjectContext} {ctx_hash : Arr 32} {index : UInt64} {p c : Bytes}
    (h : encrypt_chunk P schedule ctx ctx_hash index p = some c) :
    ctx.chunk_ciphertext_len index = some c.length ∧
      decrypt_chunk P schedule ctx ctx_hash index c = some p := by
  obtain ⟨len, hlen, hp, henc⟩ := (encrypt_chunk_eq_some P).1 h
  have hc := length_encrypt_chunk P hE h
  rw [hp] at hc
  constructor
  · rw [ObjectContext.chunk_ciphertext_len, hlen, hc]
    rfl
  · exact (decrypt_chunk_eq_some P).2 ⟨len, hlen, hc, hD _ _ _ _ _ henc, hp⟩

/-- A record with a proof that verifies and with the ciphertext of a chunk. -/
theorem check_record_of_valid {t : Incoming} {index : UInt64} {proof : List ProofStep}
    {p c : Bytes} (hE : P.Encrypts) (hD : P.Decrypts) (hi : index < t.ctx.chunk_count)
    (hproof : verify_proof P (leaf_hash P index c) index t.ctx.chunk_count proof t.root = .ok ())
    (henc : encrypt_chunk P t.schedule t.ctx t.ctx_hash index p = some c) (held : ChunkBitmap) :
    check_record P t held (index, proof, c) =
      .ok (if held.Has index then none else some (index, p)) := by
  obtain ⟨hlen, hdec⟩ := decrypt_of_encrypt_chunk hE hD henc
  refine bind_eq_ok.2 ⟨(), refuse_if_eq_ok.2 (UInt64.not_le.2 hi), ?_⟩
  by_cases hhas : held.Has index
  · rw [if_pos ((held.get_getD index).2 hhas), if_pos hhas]
    rfl
  · rw [if_neg (mt (held.get_getD index).1 hhas), if_neg hhas, hlen]
    refine bind_eq_ok.2 ⟨_, rfl, ?_⟩
    refine bind_eq_ok.2 ⟨(), refuse_if_eq_ok.2 (not_not.2 rfl), ?_⟩
    refine bind_eq_ok.2 ⟨(), mapError_eq_ok.2 hproof, ?_⟩
    refine bind_eq_ok.2 ⟨p, ?_, rfl⟩
    rw [hdec]
    rfl

variable {t : PendingTransfer} {content : Bytes}

/-- The bytes of a file for a chunk. -/
def region (ctx : ObjectContext) (content : Bytes) (index : UInt64) : Bytes :=
  slice content (ctx.start index.toNat) (ctx.extent index.toNat)

/-- A source that is long enough has every chunk. -/
theorem PendingTransfer.chunk_of_source (hg : t.ctx.Geometry)
    (hlen : t.ctx.encoded_plaintext_size.toNat ≤ content.length) {index : UInt64}
    (hi : index < t.ctx.chunk_count) :
    t.chunk_of (.ok content) index = .ok (region t.ctx content index) := by
  obtain ⟨len, hl, hext⟩ := ObjectContext.chunk_len_spec hg hi
  have hend := ObjectContext.end_le_encoded hg (UInt64.lt_iff_toNat_lt.1 hi)
  refine chunk_of_eq_ok.2 ⟨len, hl, read_exact_eq_ok.2 ⟨content, rfl, ?_, ?_⟩⟩
  · rw [ObjectContext.start_toNat hg hi, hext]
    omega
  · rw [ObjectContext.start_toNat hg hi, hext]
    rfl

/-- What the sender makes for a chunk of the unchanged source, and that it
passes. -/
theorem PendingTransfer.Prepared.record_passes (ht : t.Prepared P (.ok content))
    (hroot : t.ciphertext_root = merkle_root P t.leaves) (hE : P.Encrypts) (hD : P.Decrypts)
    (hlen : t.ctx.encoded_plaintext_size.toNat ≤ content.length) {index : UInt64}
    (hi : index < t.ctx.chunk_count) :
    ∃ c, encrypt_chunk P t.schedule t.ctx t.ctx_hash index (region t.ctx content index) =
        some c ∧
      t.record P ⟨.ok content, index⟩ =
        .ok (index, build_proof_inner P t.leaves index.toNat, c) ∧
      ∀ held : ChunkBitmap,
        check_record P t.incoming held (index, build_proof_inner P t.leaves index.toNat, c) =
          .ok (if held.Has index then none else some (index, region t.ctx content index)) := by
  obtain ⟨c, hc, hleaf, -⟩ := ht.leaf hi
  have horigin : t.origin (.ok content) ⟨.ok content, index⟩ = .ok content := ite_self _
  obtain ⟨p, hp, henc⟩ := ciphertext_of_eq_ok.1 hc
  rw [chunk_of_source ht.geometry hlen hi] at hp
  cases hp
  refine ⟨c, henc, ht.record_eq_ok.2 ⟨c, by rw [horigin, hc], rfl⟩, ?_⟩
  refine check_record_of_valid hE hD hi ?_ henc
  change verify_proof P _ index t.ctx.chunk_count _ t.ciphertext_root = .ok ()
  rw [hroot]
  exact verify_proof_of_built P ht.leaves_len.symm hi hleaf

end Passes

/-! ## The receiver -/

/-- The request that `receive_file` sends. -/
def range_request (ctx : ObjectContext) (held : ChunkBitmap) : RangeRequest :=
  (Scheduler.new ctx.transfer_id ctx.object_id ctx.chunk_count
    ctx.chunk_ciphertext_size).full_request held

/-- A frame whose payload is decoded. -/
inductive Decoded where
  | Chunk (record : Record)
  | StreamEnd

/-- The body of the loop for a frame that is decoded. -/
def decoded_turn (P : Primitives) (t : Incoming) (u : Decoded × Answers) : Act Flow :=
  match u.1 with
  | .StreamEnd => pure .done
  | .Chunk record => do
    let s ← read
    match ← lift (check_record P t s.held record) with
    | none => pure .next
    | some (index, plaintext) => do
      accept t.ctx u.2 index plaintext
      pure .next

/-- The frame of a turn decodes to `d`. -/
def Turn.Brings (u : Turn) : Decoded → Prop
  | .StreamEnd => ∃ payload, u.frame = .ok (FRAME_STREAM_END, payload)
  | .Chunk record => ∃ payload, u.frame = .ok (FRAME_CHUNK, payload) ∧
      decode_chunk_record payload = .ok record

/-- The loop does with a frame what it does with what the frame decodes to. -/
theorem turn_of_brings {P : Primitives} {t : Incoming} {u : Turn} {d : Decoded}
    (h : u.Brings d) : turn P t u = decoded_turn P t (d, u.answers) := by
  cases d with
  | StreamEnd =>
    obtain ⟨payload, hframe⟩ := h
    unfold turn
    rw [hframe]
    rfl
  | Chunk record =>
    obtain ⟨payload, hframe, hdec⟩ := h
    have hcheck : ∀ held, check_chunk P t held payload = check_record P t held record := by
      intro held
      rw [check_chunk, hdec]
      rfl
    unfold turn
    rw [hframe, lift_ok_bind]
    simp only [if_true, hcheck]
    rfl

/-- So the loop over frames is the loop over what they decode to, whatever the
codec. -/
theorem receive_loop_of_brings {P : Primitives} {t : Incoming} {us : List Turn}
    {ds : List Decoded} (h : List.Forall₂ Turn.Brings us ds) :
    receive_loop P t us = each (decoded_turn P t) (ds.zip (us.map Turn.answers)) := by
  unfold receive_loop
  induction h with
  | nil => rfl
  | @cons u d us ds hu _ ih =>
    rw [List.map_cons, List.zip_cons_cons, each, each, turn_of_brings hu, ih]

section Takes

variable {ctx : ObjectContext} {a : Answers} {index : UInt64} {p : Bytes} {s : Recv}

/-- The system answers without a fault, on a path that the policy admits. -/
structure Answers.Work (policy : RoutePolicy) (a : Answers) : Prop where
  write : a.write = .ok ()
  sync_data : a.sync_data = .ok ()
  checkpoint : a.checkpoint = .ok ()
  route : policy.admits a.route = true

theorem sampleAnswers_work : sampleAnswers.Work .Any := ⟨rfl, rfl, rfl, rfl⟩

theorem poll_takes {transfer_id : Arr 32} (ha : a.Work s.route_watch.policy) :
    Spec (Recv.Took ctx s index p) (poll transfer_id a) (fun _ => Recv.Took ctx s index p)
      (fun _ _ => False) := by
  intro s' hs'
  have hadmits : s'.route_watch.policy.admits a.route = true := by
    rw [hs'.policy]
    exact ha.route
  obtain ⟨hok, hpolicy⟩ := RouteWatch.poll_with_of_admits hadmits transfer_id a.now
  unfold exec poll
  rcases hpoll : s'.route_watch.poll_with transfer_id a.now a.route with ⟨watch, pushed, result⟩
  rw [hpoll] at hok hpolicy
  simp only at hok hpolicy
  subst hok
  exact .inl ⟨(), _, rfl, hs'.file, hs'.held, hs'.accepted, hpolicy.trans hs'.policy, hs'.db_count⟩

theorem chunk_written_takes (hi : index < ctx.chunk_count) (ha : a.Work s.route_watch.policy) :
    Spec (Recv.Took ctx s index p) (chunk_written index a) (fun _ => Recv.Took ctx s index p)
      (fun _ _ => False) := by
  intro s' hs'
  rcases hdb : s'.db with _ | db
  · exact .inl ⟨(), s', by simp only [exec, chunk_written, hdb], hs'⟩
  · have hcount := hs'.db_count db hdb
    rw [← hcount] at hi
    obtain ⟨db', effects, hw⟩ := ResumeDb.chunk_written_of_lt hi
    have hspec := ResumeDb.chunk_written.spec db index (.ok ()) (.ok ())
    rw [hw] at hspec
    have hexec : exec (chunk_written index a) s' =
        (.ok (), { s' with db := some db', effects := s'.effects ++ effects }) := by
      simp only [exec, chunk_written, hdb, ha.sync_data, ha.checkpoint, hw]
      rfl
    refine .inl ⟨(), _, hexec, hs'.file, hs'.held, ?_, hs'.policy, ?_⟩
    · rw [← hs'.accepted]
      simp only [Recv.accepted, List.filterMap_append, written_nil hspec, List.append_nil]
    · intro d hd
      obtain rfl := Option.some.inj hd
      rw [hspec.identity, hcount]

theorem accept_takes (hs : s.Shape ctx) (ha : a.Work s.route_watch.policy)
    (hi : index < ctx.chunk_count) :
    Spec (fun s' => s' = s) (accept ctx a index p) (fun _ => Recv.Took ctx s index p)
      (fun _ _ => False) := by
  refine Spec.bind (persist_takes hs ha.write hi) fun _ => Spec.bind (poll_takes ha) fun _ =>
    Spec.bind (q := fun _ => Recv.Took ctx s index p) ?digest fun _ =>
    Spec.bind (q := fun _ => Recv.Took ctx s index p) ?progress fun _ =>
    chunk_written_takes hi ha
  case digest =>
    exact fun s' h => .inl ⟨(), _, rfl, h.file, h.held, h.accepted, h.policy, h.db_count⟩
  case progress =>
    exact fun s' h => .inl ⟨(), _, rfl, h.file, h.held, h.accepted, h.policy, h.db_count⟩

end Takes

/-! ## The whole stream -/

section Stream

variable {P : Primitives} {t : Incoming} {ciphertexts : List Bytes} {held : ChunkBitmap}
  {file : Bytes} {policy : RoutePolicy}

/-- The loop is between two frames, on a path that the policy admits. -/
structure Recv.Ready (P : Primitives) (t : Incoming) (ciphertexts : List Bytes)
    (held : ChunkBitmap) (file : Bytes) (policy : RoutePolicy) (s : Recv) : Prop where
  inv : s.Inv P t ciphertexts held file
  policy : s.route_watch.policy = policy

/-- A record of the chunk with the plaintext `p` that passes. -/
structure Passes (P : Primitives) (t : Incoming) (ciphertexts : List Bytes) (record : Record)
    (p : Bytes) : Prop where
  plain : t.Plain P ciphertexts record.1 p
  check : ∀ held : ChunkBitmap, check_record P t held record =
    .ok (if held.Has record.1 then none else some (record.1, p))

/-- One record that passes: its chunk is held afterwards. -/
theorem decoded_turn_exec (hg : t.ctx.Geometry) {s : Recv}
    (hs : s.Ready P t ciphertexts held file policy) {record : Record} {p : Bytes}
    (hr : Passes P t ciphertexts record p) {a : Answers} (ha : a.Work policy) :
    ∃ s', exec (decoded_turn P t (.Chunk record, a)) s = (.ok .next, s') ∧
      s'.Ready P t ciphertexts held file policy ∧
      ∀ i, s'.held.Has i ↔ i = record.1 ∨ s.held.Has i := by
  have hread : exec (decoded_turn P t (.Chunk record, a)) s =
      exec (lift (check_record P t s.held record) >>= fun chunk => match chunk with
        | none => pure .next
        | some (index, plaintext) => do
          accept t.ctx a index plaintext
          pure .next) s := rfl
  rw [hread, hr.check]
  by_cases hhas : s.held.Has record.1
  · rw [if_pos hhas, lift_ok_bind]
    refine ⟨s, rfl, hs, fun i => ?_⟩
    constructor
    · exact .inr
    · rintro (rfl | hi)
      · exact hhas
      · exact hi
  · rw [if_neg hhas, lift_ok_bind]
    obtain ⟨hi, hlen⟩ := hr.plain.length hg
    rw [← hs.policy] at ha
    have haccept := accept_takes (p := p) hs.inv.1 ha hi
    obtain ⟨_, s', he, htook⟩ := haccept.returns rfl
    obtain ⟨changed, hset⟩ := htook.held
    refine ⟨s', ?_, ⟨htook.inv hg hs.inv hhas hr.plain, htook.policy.trans hs.policy⟩, hset.has⟩
    change exec (accept t.ctx a record.1 p >>= fun _ => pure Flow.next) s = _
    rw [exec_bind, he]
    rfl

/-- A stream of records that pass, up to its end. -/
theorem stream_exec (hg : t.ctx.Geometry) (chunk : UInt64 → Bytes) (last : Answers) {s : Recv}
    (hs : s.Ready P t ciphertexts held file policy) {rs : List (Record × Answers)}
    (hrs : ∀ r ∈ rs, Passes P t ciphertexts r.1 (chunk r.1.1) ∧ r.2.Work policy) :
    ∃ s', exec (each (decoded_turn P t)
        (rs.map (fun r => (.Chunk r.1, r.2)) ++ [(.StreamEnd, last)])) s = (.ok .done, s') ∧
      s'.Ready P t ciphertexts held file policy ∧
      ∀ i, s'.held.Has i ↔ i ∈ rs.map (fun r => r.1.1) ∨ s.held.Has i := by
  induction rs generalizing s with
  | nil => exact ⟨s, rfl, hs, by simp⟩
  | cons r rs ih =>
    obtain ⟨hr, ha⟩ := hrs r List.mem_cons_self
    obtain ⟨s₁, he, hs₁, hhas₁⟩ := decoded_turn_exec hg hs hr ha
    obtain ⟨s', he', hs', hhas⟩ := ih hs₁ fun r hr => hrs r (List.mem_cons_of_mem _ hr)
    refine ⟨s', ?_, hs', fun i => ?_⟩
    · rw [List.map_cons, List.cons_append, each, exec_bind, he]
      exact he'
    · rw [hhas, hhas₁, List.map_cons, List.mem_cons]
      tauto

/-- One plaintext was committed to for a chunk. -/
theorem Incoming.Plain.unique (hD : P.Decrypts) {i : UInt64} {p p' : Bytes}
    (h : t.Plain P ciphertexts i p) (h' : t.Plain P ciphertexts i p') : p = p' := by
  obtain ⟨c, hc, henc⟩ := h
  obtain ⟨c', hc', henc'⟩ := h'
  obtain rfl : c = c' := Option.some.inj (hc.symm.trans hc')
  exact encrypt_chunk_inj P hD henc henc'

/-- What the receiver has when the chunks `indices` were sent. -/
structure Recv.Arrived (ctx : ObjectContext) (content : Bytes) (held : ChunkBitmap) (file : Bytes)
    (indices : List UInt64) (s : Recv) : Prop where
  has : ∀ i, s.held.Has i ↔ held.Has i ∨ i ∈ indices
  /-- The chunks that were missing are those of the source, -/
  content : ∀ i ∈ indices, ¬ held.Has i → region ctx s.file i = region ctx content i
  /-- and the other chunks are as they were. -/
  other : ∀ i, held.Has i ∨ i ∉ indices → region ctx s.file i = region ctx file i

theorem Recv.Delivered.arrived {s : Recv} (h : s.Delivered P t ciphertexts held file)
    (hD : P.Decrypts) {content : Bytes} {indices : List UInt64}
    (hplain : ∀ i ∈ indices, t.Plain P ciphertexts i (region t.ctx content i))
    (hhas : ∀ i, s.held.Has i ↔ i ∈ indices ∨ held.Has i) :
    s.Arrived t.ctx content held file indices := by
  have haccepted : ∀ i, i ∈ s.accepted ↔ i ∈ indices ∧ ¬ held.Has i := by
    intro i
    have h1 := h.has i
    have h2 := h.fresh i
    have h3 := hhas i
    tauto
  constructor
  case has => exact fun i => (hhas i).trans or_comm
  case content =>
    intro i hi hnew
    exact (h.content i ((haccepted i).2 ⟨hi, hnew⟩)).unique hD (hplain i hi)
  case other =>
    intro i hi
    apply slice_congr
    intro k hlow hhigh
    apply h.other k
    intro j hj
    obtain ⟨hmem, hnew⟩ := (haccepted j).1 hj
    have hne : j ≠ i := by
      rintro rfl
      rcases hi with hi | hi
      · exact hnew hi
      · exact hi hmem
    have hapart := regions_apart t.ctx hne
    omega

end Stream

/-! ## A transfer without faults -/

section Honest

variable {P : Primitives} {t : PendingTransfer} {content : Bytes}

/-- The ciphertexts of all chunks of the source. -/
def PendingTransfer.ciphertexts (P : Primitives) (t : PendingTransfer) (content : Bytes) :
    List Bytes :=
  (List.range t.ctx.chunk_count.toNat).map fun i =>
    (encrypt_chunk P t.schedule t.ctx t.ctx_hash (.ofNat i)
      (region t.ctx content (.ofNat i))).getD []

/-- Every record that the sender makes passes the checks of the receiver. -/
theorem PendingTransfer.Prepared.passes (ht : t.Prepared P (.ok content))
    (hroot : t.ciphertext_root = merkle_root P t.leaves) (hE : P.Encrypts) (hD : P.Decrypts)
    (hlen : t.ctx.encoded_plaintext_size.toNat ≤ content.length) {index : UInt64}
    (hi : index < t.ctx.chunk_count) :
    ∃ record, t.record P ⟨.ok content, index⟩ = .ok record ∧ record.1 = index ∧
      Passes P t.incoming (t.ciphertexts P content) record (region t.ctx content index) := by
  obtain ⟨c, henc, hrecord, hcheck⟩ := ht.record_passes hroot hE hD hlen hi
  refine ⟨_, hrecord, rfl, ⟨c, ?_, henc⟩, hcheck⟩
  have hlt := UInt64.lt_iff_toNat_lt.1 hi
  have hback : UInt64.ofNat index.toNat = index := UInt64.ofNat_toNat
  rw [ciphertexts, List.getElem?_map, List.getElem?_range hlt, Option.map_some, hback, henc]
  rfl

/-- The sender of an unchanged file and the receiver of its offer, with any
bitmap to start from and any request that the sender decodes. All records are
made and sent, each passes every check while its chunk is missing and decrypts
to the source, and when the stream ends the receiver has what was asked for. -/
theorem what_was_asked_for_arrives (hE : P.Encrypts) (hD : P.Decrypts) (secrets : FileSecrets)
    (content : Bytes) (hlen : content.length < 2 ^ 64) (size : UInt32) (ctx : ObjectContext)
    (hctx : ObjectContext.for_file secrets.transfer_id secrets.object_id
      (.ofNat content.length) size = some ctx)
    (held : ChunkBitmap) (hheld : held.chunk_count = ctx.chunk_count) (bytes : Bytes)
    (request : RangeRequest) (hrequest : RangeRequest.decode bytes ctx.chunk_count = .ok request) :
    ∃ t records,
      PendingTransfer.prepare P secrets (.ok (.ofNat content.length)) (.ok content) size = .ok t ∧
      t.ctx = ctx ∧
      send_chunks (fun index => t.record P ⟨.ok content, index⟩) request.indices =
        (records, .ok ()) ∧
      records.map Prod.fst = request.indices ∧
      (∀ record ∈ records, ∀ held' : ChunkBitmap, ¬ held'.Has record.1 →
        check_record P t.incoming held' record =
          .ok (some (record.1, region ctx content record.1))) ∧
      ∀ (db : Option ResumeDb) (route_watch : RouteWatch) (file : Bytes) (answers : List Answers)
        (last : Answers), (∀ d ∈ db, d.record.identity.chunk_count = ctx.chunk_count) →
        answers.length = records.length → (∀ a ∈ answers, a.Work route_watch.policy) →
        ∃ s, exec (each (decoded_turn P t.incoming)
            ((records.zip answers).map (fun r => (.Chunk r.1, r.2)) ++ [(.StreamEnd, last)]))
            (.start ctx db held route_watch file) = (.ok .done, s) ∧
          s.Arrived ctx content held (set_len 0 file ctx.logical_plaintext_size.toNat)
            request.indices := by
  have hg := ObjectContext.for_file_geometry hctx
  have hsize : ctx.encoded_plaintext_size.toNat ≤ content.length := by
    obtain ⟨-, -, rfl⟩ := ObjectContext.for_file_eq_some.1 hctx
    exact Nat.le_of_eq (UInt64.toNat_ofNat_of_lt' hlen)
  obtain ⟨t, -, hprepare, rfl, -⟩ := PendingTransfer.prepare_ok P hE hctx hsize
  have ht := PendingTransfer.prepare.spec P hprepare
  have hroot := PendingTransfer.prepare.root P hprepare
  have hmade : ∀ i ∈ request.indices, ∃ record, t.record P ⟨.ok content, i⟩ = .ok record ∧
      record.1 = i ∧
      Passes P t.incoming (t.ciphertexts P content) record (region t.ctx content i) :=
    fun i hi => ht.passes hroot hE hD hsize (RangeRequest.index_lt hrequest hi)
  choose! f hf using hmade
  have hpasses : ∀ record ∈ request.indices.map f,
      Passes P t.incoming (t.ciphertexts P content) record (region t.ctx content record.1) := by
    intro record hrecord
    obtain ⟨i, hi, rfl⟩ := List.mem_map.1 hrecord
    rw [(hf i hi).2.1]
    exact (hf i hi).2.2
  have hfst : (request.indices.map f).map Prod.fst = request.indices := by
    rw [List.map_map]
    exact (List.map_congr_left fun i hi => (hf i hi).2.1).trans (List.map_id _)
  refine ⟨t, request.indices.map f, hprepare, rfl, send_chunks_of_ok fun i hi => (hf i hi).1, hfst,
    ?_, ?_⟩
  · intro record hrecord held' hnew
    rw [(hpasses record hrecord).check, if_neg hnew]
  · intro db route_watch file answers last hdb hanswers hwork
    have hstart : (Recv.start t.ctx db held route_watch file).Ready P t.incoming
        (t.ciphertexts P content) held (set_len 0 file t.ctx.logical_plaintext_size.toNat)
        route_watch.policy := ⟨start_inv hg hheld hdb, rfl⟩
    have hstream : ∀ r ∈ (request.indices.map f).zip answers,
        Passes P t.incoming (t.ciphertexts P content) r.1 (region t.ctx content r.1.1) ∧
          r.2.Work route_watch.policy := by
      intro r hr
      obtain ⟨hrecord, hanswer⟩ := List.of_mem_zip hr
      exact ⟨hpasses _ hrecord, hwork _ hanswer⟩
    obtain ⟨s, he, hs, hhas⟩ := stream_exec hg (region t.ctx content) last hstart hstream
    have hzip : ((request.indices.map f).zip answers).map (fun r => r.1.1) = request.indices := by
      have hall := List.map_fst_zip (Nat.le_of_eq hanswers.symm)
      calc ((request.indices.map f).zip answers).map (fun r => r.1.1)
          = (((request.indices.map f).zip answers).map Prod.fst).map Prod.fst :=
            List.map_map.symm
        _ = request.indices := by rw [hall, hfst]
    rw [hzip] at hhas
    refine ⟨s, he, hs.inv.2.arrived hD (fun i hi => ?_) hhas⟩
    have hplain := (hf i hi).2.2.plain
    rwa [(hf i hi).2.1] at hplain

/-- The second of three chunks is held. The first and the last one are sent and arrive. -/
theorem the_chunks_around_a_held_one_arrive : ∃ t records s,
    send_chunks (fun index => PendingTransfer.record sample t ⟨.ok threeContent, index⟩) [0, 2] =
      (records, .ok ()) ∧
    exec (each (decoded_turn sample t.incoming)
        ((records.zip [sampleAnswers, sampleAnswers]).map (fun r => (.Chunk r.1, r.2)) ++
          [(.StreamEnd, sampleAnswers)]))
        (.start threeChunks none secondHeld (.new .Unknown .Any 0) []) = (.ok .done, s) ∧
      s.Arrived threeChunks threeContent secondHeld (set_len 0 [] 131073) [0, 2] := by
  have hrequest : RangeRequest.decode (range_request threeChunks secondHeld).encode 3 =
      .ok (range_request threeChunks secondHeld) :=
    Scheduler.full_request_decodes _ _
  have hindices : (range_request threeChunks secondHeld).indices = [0, 2] := by decide +kernel
  have hctx : ObjectContext.for_file (.replicate 32 1) (.replicate 32 2)
      (.ofNat threeContent.length) 65536 = some threeChunks := by
    rw [length_threeContent]
    exact threeChunks_for_file
  obtain ⟨t, records, -, -, hsend, hfst, -, hrun⟩ := what_was_asked_for_arrives sample_encrypts
    sample_decrypts PendingTransfer.sampleSecrets threeContent
    (by rw [length_threeContent]; decide) 65536 threeChunks hctx secondHeld rfl _ _ hrequest
  rw [hindices] at hsend hfst hrun
  have hlen : [sampleAnswers, sampleAnswers].length = records.length := by
    simpa using (congrArg List.length hfst).symm
  have hwork : ∀ a ∈ [sampleAnswers, sampleAnswers], a.Work .Any := by
    simpa using sampleAnswers_work
  obtain ⟨s, he, harrived⟩ := hrun none (.new .Unknown .Any 0) [] [sampleAnswers, sampleAnswers]
    sampleAnswers (by simp) hlen hwork
  exact ⟨t, records, s, hsend, he, harrived⟩

end Honest

end rtp2_core.transfer
