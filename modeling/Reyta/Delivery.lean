-- One attempt without faults: what the receiver asks for, what arrives, and
-- whether the object is complete then.
import Reyta.Attempts
import Reyta.HonestChunks

open bit_run byte_string early_exit

namespace rtp2_core.transfer

open bitmap crypto object resume route scheduler

/-! ## The chunks that are held -/

/-- The chunks that are held are those that were held before and those that were
accepted. -/
structure Recv.Counts (held : ChunkBitmap) (s : Recv) : Prop where
  count : s.held.chunk_count = held.chunk_count
  has : ∀ i, s.held.Has i ↔ held.Has i ∨ i ∈ s.accepted

/-- One more chunk was written and is not held yet. -/
structure Recv.Wrote (held : ChunkBitmap) (index : UInt64) (s : Recv) : Prop where
  count : s.held.chunk_count = held.chunk_count
  has : ∀ i, (i = index ∨ s.held.Has i) ↔ held.Has i ∨ i ∈ s.accepted

section Counts

variable {P : Primitives} {t : Incoming} {held : ChunkBitmap} {ctx : ObjectContext} {a : Answers}
  {index : UInt64} {p : Bytes}

/-- A step that leaves the bitmap and writes no chunk. -/
theorem Recv.Counts.still {x : Act Unit}
    (hx : ∀ s, (exec x s).2.held = s.held ∧ (exec x s).2.accepted = s.accepted) :
    Spec (Recv.Counts held) x (fun _ => Recv.Counts held) (fun _ _ => True) := by
  apply (Spec.always_iff.2 _).weaken (fun _ h => h) (fun _ _ h => h) (fun _ _ _ => trivial)
  intro s hs
  obtain ⟨hheld, haccepted⟩ := hx s
  exact ⟨by rw [hheld]; exact hs.count, by rw [hheld, haccepted]; exact hs.has⟩

theorem write_chunk_counts :
    Spec (Recv.Counts held) (write_chunk ctx a index p) (fun _ => Recv.Wrote held index)
      (fun _ _ => True) := by
  intro s hs
  unfold exec write_chunk
  rcases a.write with ⟨n, e⟩ | _
  · exact .inr ⟨_, _, rfl, trivial⟩
  · refine .inl ⟨(), _, rfl, hs.count, ?_⟩
    intro i
    have haccepted : (s.effects ++ [crash_disk.Effect.write index]).filterMap written =
        s.accepted ++ [index] := by
      simp [Recv.accepted, written]
    rw [Recv.accepted, haccepted, List.mem_append, List.mem_singleton, hs.has]
    tauto

theorem mark_verified_wrote :
    Spec (Recv.Wrote held index) (mark_verified index) (fun _ => Recv.Wrote held index)
      (fun _ _ => True) := by
  intro s hs
  unfold exec mark_verified
  split
  · exact .inl ⟨(), s, rfl, hs⟩
  · split
    · exact .inr ⟨_, _, rfl, trivial⟩
    · exact .inl ⟨(), _, rfl, hs.count, hs.has⟩

theorem set_held_counts :
    Spec (Recv.Wrote held index) (set_held index) (fun _ => Recv.Counts held)
      (fun _ _ => True) := by
  intro s hs
  unfold exec set_held
  split
  · exact .inr ⟨_, _, rfl, trivial⟩
  · next held' changed hset =>
    have hto := ChunkBitmap.set_eq_ok hset
    refine .inl ⟨(), _, rfl, hto.chunk_count.trans hs.count, ?_⟩
    intro i
    exact (hto.has i).trans (hs.has i)

theorem accept_counts :
    Spec (Recv.Counts held) (accept ctx a index p) (fun _ => Recv.Counts held)
      (fun _ _ => True) := by
  refine Spec.bind (Spec.bind write_chunk_counts fun _ => Spec.bind mark_verified_wrote fun _ =>
    set_held_counts) fun _ => Spec.bind (Recv.Counts.still ?poll) fun _ =>
    Spec.bind (Recv.Counts.still ?digest) fun _ => Spec.bind (Recv.Counts.still ?progress) fun _ =>
    Recv.Counts.still ?written
  case poll => exact fun s => ⟨rfl, rfl⟩
  case digest => exact fun s => ⟨rfl, rfl⟩
  case progress => exact fun s => ⟨rfl, rfl⟩
  case written =>
    intro s
    rcases chunk_written_exec index a s with ⟨-, he⟩ | ⟨db, db', effects, result, -, hw, he⟩
    · rw [he]
      exact ⟨rfl, rfl⟩
    · rw [he]
      simp only [Recv.accepted, List.filterMap_append, written_nil hw, List.append_nil, and_self]

/-- After any frames, as long as no error ended the loop. -/
theorem receive_loop_counts {us : List Turn} :
    Spec (Recv.Counts held) (receive_loop P t us) (fun _ => Recv.Counts held)
      (fun _ _ => True) := by
  apply Spec.each
  intro u _
  apply turn_spec (fun _ _ _ => trivial)
  intro s index p hs _
  apply accept_counts.weaken _ (fun _ _ h => h) (fun _ _ h => h)
  rintro s' rfl
  exact hs

end Counts

/-! ## Whether one request is enough -/

section Request

variable {P : Primitives} {t : Incoming} {held : ChunkBitmap}

theorem mem_range_request {ctx : ObjectContext} {i : UInt64} :
    i ∈ (range_request ctx held).indices ↔
      InRanges (held.missing_ranges MAX_RANGES_PER_REQUEST) i :=
  RangeRequest.mem_indices i

/-- With all that was asked for, the object is complete if there are few gaps. -/
theorem Recv.Counts.is_complete_iff {s : Recv} (hs : s.Counts held) {ctx : ObjectContext}
    (hall : ∀ i, i ∈ s.accepted ↔ i ∈ (range_request ctx held).indices) :
    s.held.is_complete = true ↔ held.gaps ≤ MAX_RANGES_PER_REQUEST := by
  rw [s.held.is_complete_iff, hs.count, ← held.missing_ranges_cover_iff]
  refine forall_congr' fun i => forall_congr' fun _ => ?_
  rw [hs.has, hall, mem_range_request]
  exact or_iff_not_imp_left

theorem settle_read (a : Attempt) (s : Recv) :
    exec (settle a) s = exec (if s.held.is_complete then sync_all a.sync_all
      else keep_progress a >>= fun _ => throw (.Protocol "transfer incomplete")) s :=
  rfl

/-- A complete file is synced and nothing else. -/
theorem settle_complete {a : Attempt} {s : Recv} (hcomplete : s.held.is_complete = true)
    (hsync : a.sync_all = .ok ()) :
    exec (settle a) s = (.ok (), { s with effects := s.effects ++ [.sync] }) := by
  rw [settle_read, if_pos hcomplete, hsync]
  rfl

/-- What is there of an incomplete file is synced and recorded. -/
theorem settle_incomplete {a : Attempt} {s : Recv} {db : ResumeDb}
    (hincomplete : ¬ s.held.is_complete = true) (hsync : a.sync_all = .ok ())
    (hcheckpoint : a.checkpoint = .ok ()) (hdb : s.db = some db) :
    exec (settle a) s = (.error (.Protocol "transfer incomplete"), { s with
      db := some { db with pending := 0 }
      effects := s.effects ++ [.sync] ++ [.commit db.record] }) := by
  have hkeep : exec (keep_progress a) s = (.ok (), { s with
      db := some { db with pending := 0 }
      effects := s.effects ++ [.sync] ++ [.commit db.record] }) := by
    unfold keep_progress
    simp only [exec, hdb]
    rw [hsync, hcheckpoint]
    rfl
  rw [settle_read, if_neg hincomplete, exec_bind, hkeep]
  rfl

/-- What `receive` does after the end of the stream, if the system does not fail. -/
theorem settle_exec {a : Attempt} (hsync : a.sync_all = .ok ())
    (hcheckpoint : a.checkpoint = .ok ())
    (s : Recv) :
    (exec (settle a) s).1 =
      if s.held.is_complete then .ok () else .error (.Protocol "transfer incomplete") := by
  split_ifs with hcomplete
  · rw [settle_complete hcomplete hsync]
  · rcases hdb : s.db with _ | db
    · have hkeep : exec (keep_progress a) s = (.ok (), s) := by
        unfold keep_progress
        simp only [exec, hdb]
      rw [settle_read, if_neg hcomplete, exec_bind, hkeep]
      rfl
    · rw [settle_incomplete hcomplete hsync hcheckpoint hdb]

/-- The loop has run to the end of the stream. -/
theorem counts_of_run {us : List Turn} {db : Option ResumeDb} {route_watch : RouteWatch}
    {file : Bytes} {s : Recv}
    (hrun : exec (receive_loop P t us) (.start t.ctx db held route_watch file) = (.ok .done, s)) :
    s.Counts held := by
  have hstart : (Recv.start t.ctx db held route_watch file).Counts held :=
    ⟨rfl, by simp [Recv.start, Recv.accepted]⟩
  exact receive_loop_counts.of_ok hstart hrun

/-- The chunks that an attempt accepts are those that were asked for, if it holds just these
and the ones before. -/
theorem mem_accepted_iff {ciphertexts : List Bytes} {file : Bytes} {ctx : ObjectContext} {s : Recv}
    (hs : s.Delivered P t ciphertexts held file)
    (hhas : ∀ i, s.held.Has i ↔ i ∈ (range_request ctx held).indices ∨ held.Has i) {i : UInt64} :
    i ∈ s.accepted ↔ i ∈ (range_request ctx held).indices := by
  constructor
  · intro hi
    exact ((hhas i).1 ((hs.has i).2 (.inr hi))).resolve_right (hs.fresh i hi)
  · intro hi
    have hnew := (held.not_has_of_inRanges (mem_range_request.1 hi)).2
    exact ((hs.has i).1 ((hhas i).2 (.inl hi))).resolve_left hnew

end Request

/-- An attempt for the object of three chunks, with these frames. -/
def threeAttempt (t : Incoming) (turns : List Turn) : Attempt where
  identity := ⟨.replicate 32 1, .replicate 32 2, .replicate 32 0, t.root, 3, 65552, 131073⟩
  dest := "file"
  readable := true
  prepared := .ok ()
  route_watch := .new .Unknown .Any 0
  file := []
  turns := turns
  sync_all := .ok ()
  checkpoint := .ok ()

/-- An attempt without faults in which the chunks that were asked for arrive and
are accepted: it completes the object if and only if the missing chunks form at
most 1024 runs. -/
theorem one_request_completes_the_object_iff_it_has_few_gaps (P : Primitives) (t : Incoming)
    (a : Attempt) (held : ChunkBitmap) (db : Option ResumeDb) (s : Recv)
    (hrun : exec (receive_loop P t a.turns) (.start t.ctx db held a.route_watch a.file) =
      (.ok .done, s))
    (hall : ∀ i, i ∈ s.accepted ↔ i ∈ (range_request t.ctx held).indices) :
    (s.held.is_complete = true ↔ held.gaps ≤ MAX_RANGES_PER_REQUEST) ∧
    (a.sync_all = .ok () → a.checkpoint = .ok () →
      (exec (receive P t a) (.start t.ctx db held a.route_watch a.file)).1 =
        if held.gaps ≤ MAX_RANGES_PER_REQUEST then .ok ()
        else .error (.Protocol "transfer incomplete")) := by
  have hcomplete := (counts_of_run hrun).is_complete_iff hall
  refine ⟨hcomplete, ?_⟩
  intro hsync hcheckpoint
  rw [receive, exec_bind, hrun]
  simp only
  rw [settle_exec hsync hcheckpoint]
  by_cases hfew : held.gaps ≤ MAX_RANGES_PER_REQUEST
  · rw [if_pos (hcomplete.2 hfew), if_pos hfew]
  · rw [if_neg (mt hcomplete.1 hfew), if_neg hfew]

/-- The second of three chunks is held, so there are two gaps. -/
theorem one_request_completes_an_object_with_two_gaps : ∃ (t : Incoming) (turns : List Turn),
    t.ctx = threeChunks ∧ secondHeld.gaps = 2 ∧
    (exec (receive sample t (threeAttempt t turns)) (.start threeChunks none secondHeld
      (.new .Unknown .Any 0) [])).1 = .ok () := by
  have hlt : ∀ i ∈ ([0, 2] : List UInt64), i < threeChunks.chunk_count :=
    List.forall_mem_cons.2 ⟨by decide, List.forall_mem_singleton.2 (by decide)⟩
  obtain ⟨t, record, payload, s, hctx, -, -, hrun, hs, hhas⟩ := exists_three_run hlt (by decide)
  have hindices : (range_request t.ctx secondHeld).indices = [0, 2] := by
    rw [hctx]
    decide +kernel
  rw [← hindices] at hhas
  let turns := chunk_turns ([0, 2].map payload) (List.replicate 3 sampleAnswers)
  have h := (one_request_completes_the_object_iff_it_has_few_gaps sample t.incoming
    (threeAttempt t.incoming turns) secondHeld none s hrun fun i =>
      mem_accepted_iff hs.inv.2 hhas).2 rfl rfl
  have hgaps : secondHeld.gaps = 2 := by decide +kernel
  refine ⟨t.incoming, turns, hctx, hgaps, ?_⟩
  rw [← hctx]
  refine h.trans (if_pos ?_)
  rw [hgaps]
  decide

/-! ## Too many gaps -/

/-- The bits of every other chunk of 2049. -/
def everyOtherBits : List UInt8 := List.replicate 256 0x55 ++ [0]

theorem bit_everyOtherBits {i : Nat} (h : i < 2056) :
    bit everyOtherBits i = (i % 2 == 1 && i < 2048) := by
  have hmask : ∀ k : Fin 8, ((0x55 : UInt8) &&& (0x80 >>> UInt8.ofNat k.val) != 0) =
      (k.val % 2 == 1) := by
    decide
  unfold bit everyOtherBits
  by_cases hlt : i < 2048
  · have hget : (List.replicate 256 0x55 ++ [0] : List UInt8).getD (i / 8) 0 = 0x55 := by
      rw [List.getD_eq_getElem?_getD, List.getElem?_append_left
        (by rw [List.length_replicate]; omega), List.getElem?_replicate_of_lt (by omega)]
      rfl
    have hk := hmask ⟨i % 8, Nat.mod_lt _ (by decide)⟩
    rw [hget, mask, hk]
    simp [hlt]
  · have hget : (List.replicate 256 0x55 ++ [0] : List UInt8).getD (i / 8) 0 = 0 := by
      rw [show i / 8 = 256 by omega]
      rfl
    rw [hget]
    simp [hlt]

def everyOther : ChunkBitmap where
  chunk_count := 2049
  bits := everyOtherBits
  set_count := 1024
  bounded := by decide
  length_bits := by decide +kernel
  trailing := by
    intro i hi
    by_cases hlt : i < 2056
    · rw [bit_everyOtherBits hlt]
      simp at hi ⊢
      omega
    · apply bit_of_length_le
      rw [everyOtherBits, List.length_append, List.length_replicate, List.length_singleton]
      omega
  counted := by
    have hcount : count_bits everyOtherBits 2049 =
        (List.range 2049).countP fun i => i % 2 == 1 && i < 2048 := by
      apply List.countP_congr
      intro i hi
      rw [bit_everyOtherBits (by simp at hi; omega)]
    exact Eq.trans (by decide +kernel) hcount.symm

theorem everyOther_gaps : everyOther.gaps = 1025 := by
  have hstarts : ∀ i < 2049, starts_zeros (bit everyOtherBits) i = true ↔ i % 2 = 0 := by
    intro i hi
    by_cases h0 : i = 0
    · simp [starts_zeros, h0, bit_everyOtherBits]
    · simp [starts_zeros, h0, bit_everyOtherBits (show i < 2056 by omega),
        bit_everyOtherBits (show i - 1 < 2056 by omega)]
      omega
  have hcount : Nat.count (fun i => i % 2 = 0) 2049 = 1025 := by decide +kernel
  have hbound : everyOther.chunk_count.toNat = 2049 := by decide
  rw [← hcount, ChunkBitmap.gaps, zero_run_count, hbound]
  apply Nat.le_antisymm
  · exact Nat.count_mono_left fun i hi => (hstarts i hi).1
  · exact Nat.count_mono_left fun i hi => (hstarts i hi).2

/-- There are 1025 gaps of one chunk each, and one is not asked for. So the
object stays incomplete when all that was asked for has arrived. -/
theorem one_of_1025_gaps_is_not_asked_for :
    (∃ i < 2049, ¬ everyOther.Has i ∧
      i ∉ (range_request { oneByte with chunk_count := 2049 } everyOther).indices) ∧
    ∀ (P : Primitives) (t : Incoming) (a : Attempt) (db : Option ResumeDb) (s : Recv),
      exec (receive_loop P t a.turns) (.start t.ctx db everyOther a.route_watch a.file) =
        (.ok .done, s) →
      (∀ i, i ∈ s.accepted ↔ i ∈ (range_request t.ctx everyOther).indices) →
      s.held.is_complete = false := by
  have hmany : ¬ everyOther.gaps ≤ MAX_RANGES_PER_REQUEST := by
    rw [everyOther_gaps]
    decide
  constructor
  · by_contra hall
    refine hmany ((everyOther.missing_ranges_cover_iff _).1 ?_)
    intro i hi hmissing
    by_contra hnot
    exact hall ⟨i, hi, hmissing, mt mem_range_request.1 hnot⟩
  · intro P t a db s hrun hall
    rw [← Bool.not_eq_true, (counts_of_run hrun).is_complete_iff hall]
    exact hmany

end rtp2_core.transfer
