-- The chunks of an honest sender as they are on the wire. Each is decoded, passes the
-- checks, and is taken by the loop of the receiver if it is missing.
import Reyta.FrameSizes
import Reyta.HonestTransfer

open byte_string early_exit exact_parse file_region

namespace rtp2_core.transfer

open bitmap crypto merkle object resume route scheduler

/-! ## The records -/

section Chunks

variable {P : Primitives} {t : PendingTransfer} {content : Bytes}

/-- The record of a chunk on the wire, which is read back and passes the checks. -/
structure Sound (P : Primitives) (t : PendingTransfer) (content : Bytes) (index : UInt64)
    (record : Record) (payload : Bytes) : Prop where
  produced : t.produce P ⟨.ok content, index⟩ = .ok payload
  decoded : decode_chunk_record payload = .ok record
  index_eq : record.1 = index
  passes : Passes P t.incoming (t.ciphertexts P content) record (region t.ctx content index)
  fits : payload.length + 16 ≤ body_limit FRAME_CHUNK

/-- Every chunk of an object of at most 16384 chunks has one. -/
theorem exists_sound (hE : P.Encrypts) (hD : P.Decrypts)
    (ht : t.Prepared P (.ok content)) (hroot : t.ciphertext_root = merkle_root P t.leaves)
    (hlen : t.ctx.encoded_plaintext_size.toNat ≤ content.length)
    (hsmall : t.ctx.chunk_count.toNat ≤ 2 ^ 14) {index : UInt64}
    (hi : index < t.ctx.chunk_count) :
    ∃ record payload, Sound P t content index record payload := by
  obtain ⟨c, henc, hrecord, -⟩ := ht.record_passes hroot hE hD hlen hi
  obtain ⟨record, hrecord', hindex, hpasses⟩ := ht.passes hroot hE hD hlen hi
  obtain rfl := Except.ok.inj (hrecord'.symm.trans hrecord)
  have hproof : (build_proof_inner P t.leaves index.toNat).length ≤ 14 := by
    apply length_build_proof_inner_le
    rw [ht.leaves_len]
    exact hsmall
  have hc := chunk_ciphertext_len_le ht.geometry (decrypt_of_encrypt_chunk hE hD henc).1
  refine ⟨_, encode_chunk_record index (build_proof_inner P t.leaves index.toNat) c, ?_, ?_, rfl,
    hpasses, ?_⟩
  · unfold PendingTransfer.produce produce_chunk_record
    exact bind_eq_ok.2 ⟨_, hrecord, rfl⟩
  · unfold decode_chunk_record cbor.Reader.new_unbounded
    rw [cbor.Reader.read_all_eq_ok read_chunk_record.reads]
    simp only [cbor.MAX_DEPTH, and_true]
    exact ⟨by omega, .inr (by omega), by omega⟩
  · have hle := length_encode_chunk_record_le index (build_proof_inner P t.leaves index.toNat) c
    have hlimit : body_limit FRAME_CHUNK = MAX_DATA_BODY := rfl
    rw [hlimit]
    unfold MAX_DATA_BODY
    omega

/-! ## The loop -/

/-- The turns of the loop over frames with these chunks, and the end of the stream. -/
def chunk_turns : List Bytes → List Answers → List Turn
  | payload :: payloads, a :: answers =>
    ⟨.ok (FRAME_CHUNK, payload), a⟩ :: chunk_turns payloads answers
  | [], a :: _ => [⟨.ok (FRAME_STREAM_END, []), a⟩]
  | _, [] => []

theorem Sound.plain {index : UInt64} {record : Record} {payload : Bytes}
    (h : Sound P t content index record payload) :
    t.incoming.Plain P (t.ciphertexts P content) index (region t.ctx content index) := by
  have hplain := h.passes.plain
  rwa [h.index_eq] at hplain

/-- One chunk that is sent: it is held afterwards. -/
theorem Sound.turn_exec {index : UInt64} {record : Record} {payload : Bytes}
    (h : Sound P t content index record payload) (hg : t.ctx.Geometry) {held : ChunkBitmap}
    {file : Bytes} {policy : RoutePolicy} {a : Answers} (ha : a.Work policy) {s : Recv}
    (hs : s.Ready P t.incoming (t.ciphertexts P content) held file policy) :
    ∃ s', exec (turn P t.incoming ⟨.ok (FRAME_CHUNK, payload), a⟩) s = (.ok .next, s') ∧
      s'.Ready P t.incoming (t.ciphertexts P content) held file policy ∧
      ∀ i, s'.held.Has i ↔ i = index ∨ s.held.Has i := by
  have hbrings : Turn.Brings ⟨.ok (FRAME_CHUNK, payload), a⟩ (.Chunk record) :=
    ⟨payload, rfl, h.decoded⟩
  obtain ⟨s', hturn, hs', hhas⟩ := decoded_turn_exec hg hs h.passes ha
  rw [h.index_eq] at hhas
  rw [← turn_of_brings hbrings] at hturn
  exact ⟨s', hturn, hs', hhas⟩

/-- A chunk that is missing is taken. -/
theorem Sound.accepts {index : UInt64} {record : Record} {payload : Bytes}
    (h : Sound P t content index record payload) (a : Answers) {held : ChunkBitmap}
    (hnew : ¬ held.Has index) : (Turn.mk (.ok (FRAME_CHUNK, payload)) a).accepts P t.incoming held =
      some (index, region t.ctx content index) := by
  have hcheck : check_chunk P t.incoming held payload =
      .ok (some (index, region t.ctx content index)) := by
    rw [check_chunk, h.decoded]
    refine (h.passes.check held).trans ?_
    rw [h.index_eq, if_neg hnew]
  unfold Turn.accepts
  simp only [if_true, hcheck]
  rfl

/-- The loop takes every chunk that is sent. -/
theorem chunk_loop_exec (hg : t.ctx.Geometry) {held : ChunkBitmap} {file : Bytes}
    {policy : RoutePolicy} {record : UInt64 → Record} {payload : UInt64 → Bytes}
    {indices : List UInt64} (hsound : ∀ i ∈ indices, Sound P t content i (record i) (payload i))
    {ans : List Answers} (hlen : indices.length < ans.length) (hwork : ∀ a ∈ ans, a.Work policy)
    {s : Recv}
    (hs : s.Ready P t.incoming (t.ciphertexts P content) held file policy) :
    ∃ s', exec (receive_loop P t.incoming (chunk_turns (indices.map payload) ans)) s =
        (.ok .done, s') ∧
      s'.Ready P t.incoming (t.ciphertexts P content) held file policy ∧
      ∀ i, s'.held.Has i ↔ i ∈ indices ∨ s.held.Has i := by
  induction indices generalizing ans s with
  | nil =>
    cases ans with
    | nil => cases hlen
    | cons a ans => exact ⟨s, rfl, hs, by simp⟩
  | cons i rest ih =>
    cases ans with
    | nil => cases hlen
    | cons a ans =>
      obtain ⟨s₁, hturn, hs₁, hhas₁⟩ := (hsound i List.mem_cons_self).turn_exec hg
        (hwork a List.mem_cons_self) hs
      obtain ⟨s', hrun, hs', hhas⟩ := ih (fun j hj => hsound j (List.mem_cons_of_mem _ hj))
        (Nat.lt_of_succ_lt_succ hlen) (fun b hb => hwork b (List.mem_cons_of_mem _ hb)) hs₁
      refine ⟨s', ?_, hs', fun j => ?_⟩
      · unfold receive_loop at hrun ⊢
        rw [List.map_cons, chunk_turns, each, exec_bind, hturn]
        exact hrun
      · rw [hhas, hhas₁, List.mem_cons]
        tauto

end Chunks

/-! ## A file of three chunks -/

theorem region_of_lt_two {index : UInt64} (h : index < 2) :
    region threeChunks threeContent index = List.replicate 65536 0 := by
  have hlt : index.toNat < 2 := UInt64.lt_iff_toNat_lt.1 h
  have hextent : threeChunks.extent index.toNat = 65536 := by
    change min 65536 (131073 - index.toNat * 65536) = 65536
    omega
  have hstart : threeChunks.start index.toNat + 65536 ≤ 131072 := by
    change index.toNat * 65536 + 65536 ≤ 131072
    omega
  rw [region, hextent, slice, threeContent,
    List.drop_append_of_le_length (by rw [List.length_replicate]; omega),
    List.take_append_of_le_length (by rw [List.length_drop, List.length_replicate]; omega)]
  exact PendingTransfer.slice_replicate hstart

theorem region_last : region threeChunks threeContent 2 = [7] := by
  have hextent : threeChunks.extent (2 : UInt64).toNat = 1 := rfl
  have hstart : threeChunks.start (2 : UInt64).toNat = 131072 := rfl
  rw [region, hextent, hstart, slice, threeContent, List.drop_left' List.length_replicate]
  rfl

/-- The second chunk of the file that is new. -/
theorem region_second :
    region threeChunks (set_len 0 [] 131073) 1 = List.replicate 65536 0 := by
  have hextent : threeChunks.extent (1 : UInt64).toNat = 65536 := rfl
  have hstart : threeChunks.start (1 : UInt64).toNat = 65536 := rfl
  rw [region, hextent, hstart, set_len, List.take_nil, List.nil_append]
  exact PendingTransfer.slice_replicate (by decide)

/-- The three chunks side by side. -/
theorem flatMap_three {plain : UInt64 → Bytes} (hfirst : plain 0 = List.replicate 65536 0)
    (hsecond : plain 1 = List.replicate 65536 0) (hlast : plain 2 = [7]) :
    ((List.range 3).flatMap fun n => plain (.ofNat n)) = threeContent := by
  change plain 0 ++ (plain 1 ++ (plain 2 ++ [])) = threeContent
  rw [hfirst, hsecond, hlast, ← List.append_assoc, List.replicate_append_replicate]
  rfl

theorem eq_of_lt_three {index : UInt64} (h : index < threeChunks.chunk_count) :
    index = 0 ∨ index = 1 ∨ index = 2 := by
  have hlt : index.toNat < 3 := UInt64.lt_iff_toNat_lt.1 h
  rcases (by omega : index.toNat = 0 ∨ index.toNat = 1 ∨ index.toNat = 2) with h | h | h
  · exact .inl (UInt64.toNat_inj.1 h)
  · exact .inr (.inl (UInt64.toNat_inj.1 h))
  · exact .inr (.inr (UInt64.toNat_inj.1 h))

theorem secondHeld_count {ctx : ObjectContext} (h : ctx = threeChunks) :
    secondHeld.chunk_count = ctx.chunk_count := by
  rw [h]
  rfl

/-- The loop starts with the second chunk, without a record and on a path that every policy
admits. -/
theorem three_ready {t : PendingTransfer} (hg : t.ctx.Geometry) (hctx : t.ctx = threeChunks) :
    (Recv.start t.ctx none secondHeld (.new .Unknown .Any 0) []).Ready sample t.incoming
      (t.ciphertexts sample threeContent) secondHeld
      (set_len 0 [] t.ctx.logical_plaintext_size.toNat) .Any :=
  ⟨start_inv hg (secondHeld_count hctx) (by simp), rfl⟩

/-- The file is prepared, and each of its chunks has a record. -/
theorem exists_three : ∃ t : PendingTransfer,
    PendingTransfer.prepare sample PendingTransfer.sampleSecrets (.ok (.ofNat threeContent.length))
      (.ok threeContent) 65536 = .ok t ∧ t.ctx = threeChunks ∧
    ∀ i < threeChunks.chunk_count, ∃ record payload,
      Sound sample t threeContent i record payload := by
  have hlen : threeChunks.encoded_plaintext_size.toNat ≤ threeContent.length := by
    rw [length_threeContent]
    decide
  have hctx : ObjectContext.for_file PendingTransfer.sampleSecrets.transfer_id
      PendingTransfer.sampleSecrets.object_id (.ofNat threeContent.length) 65536 =
        some threeChunks := by
    rw [length_threeContent]
    exact threeChunks_for_file
  obtain ⟨t, -, hprepare, ht, -⟩ := PendingTransfer.prepare_ok sample sample_encrypts hctx hlen
  refine ⟨t, hprepare, ht, fun i hi => ?_⟩
  rw [← ht] at hi hlen
  refine exists_sound sample_encrypts sample_decrypts (PendingTransfer.prepare.spec sample hprepare)
    (PendingTransfer.prepare.root sample hprepare) hlen ?_ hi
  rw [ht]
  decide

/-- The loop over some of its chunks. -/
theorem exists_three_run {indices : List UInt64}
    (hlt : ∀ i ∈ indices, i < threeChunks.chunk_count) (hfew : indices.length < 3) :
    ∃ (t : PendingTransfer) (record : UInt64 → Record) (payload : UInt64 → Bytes) (s : Recv),
      t.ctx = threeChunks ∧ t.ctx.Geometry ∧
      (∀ i ∈ indices, Sound sample t threeContent i (record i) (payload i)) ∧
      exec (receive_loop sample t.incoming (chunk_turns (indices.map payload)
          (List.replicate 3 sampleAnswers)))
        (.start t.ctx none secondHeld (.new .Unknown .Any 0) []) = (.ok .done, s) ∧
      s.Ready sample t.incoming (t.ciphertexts sample threeContent) secondHeld
        (set_len 0 [] t.ctx.logical_plaintext_size.toNat) .Any ∧
      ∀ i, s.held.Has i ↔ i ∈ indices ∨ secondHeld.Has i := by
  obtain ⟨t, hprepare, hctx, hsound⟩ := exists_three
  choose! record payload hsound using hsound
  have hg := (PendingTransfer.prepare.spec sample hprepare).geometry
  have hsound' : ∀ i ∈ indices, Sound sample t threeContent i (record i) (payload i) :=
    fun i hi => hsound i (hlt i hi)
  have hlen : indices.length < (List.replicate 3 sampleAnswers).length := by
    rw [List.length_replicate]
    exact hfew
  obtain ⟨s, hrun, hs, hhas⟩ := chunk_loop_exec hg hsound' hlen
    (by simpa using sampleAnswers_work) (three_ready hg hctx)
  exact ⟨t, record, payload, s, hctx, hg, hsound', hrun, hs, hhas⟩

end rtp2_core.transfer
