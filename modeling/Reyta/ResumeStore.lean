-- The resume database and the file at its path. What a checkpoint wrote is what
-- the next `open` finds, as long as the record stays within the limit that only
-- the reader knows.
import Reyta.ResumeRecord

open byte_string crash_disk

namespace rtp2_core.resume

open bitmap cbor crypto

/-- `open` on the file at the path, which is `none` if it cannot be read. -/
def ResumeDb.open_at (P : Primitives) (file : Option Bytes) (identity : ObjectIdentity)
    (temporary_path : String) : Except ResumeError (ResumeDb × Bool) :=
  ResumeDb.open (file.bind fun bytes => (ResumeRecord.decode P bytes).toOption) identity
    temporary_path

/-- What the effects leave at the path. A checkpoint that failed has put the new
file in place or not. -/
def file_after (P : Primitives) (renamed : Bool) (file : Option Bytes) :
    List DiskEffect → Option Bytes
  | [] => file
  | .commit r :: es => file_after P renamed (some (r.encode P)) es
  | .commit_failed r :: es =>
    file_after P renamed (if renamed then some (r.encode P) else file) es
  | _ :: es => file_after P renamed file es

/-- The file at the path, and the database that was opened on it. -/
structure Store where
  file : Option Bytes
  db : ResumeDb

namespace Store

variable (P : Primitives)

/-- A call, with its effects. -/
inductive Step : Store → List DiskEffect → Store → Prop
  | open_at (s : Store) {identity : ObjectIdentity} {path : String} {db : ResumeDb}
      {resumed : Bool} (h : ResumeDb.open_at P s.file identity path = .ok (db, resumed)) :
      Step s [] { s with db }
  | mark_verified (s : Store) {index : UInt64} {db : ResumeDb}
      (h : s.db.mark_verified index = .ok db) : Step s [] { s with db }
  | chunk_written (s : Store) (renamed : Bool) {index : UInt64}
      {sync_data outcome : Except String Unit} {db : ResumeDb} {effects : List DiskEffect}
      {result : Except ResumeError Unit}
      (h : s.db.chunk_written index sync_data outcome = (db, effects, result)) :
      Step s effects ⟨file_after P renamed s.file effects, db⟩
  | checkpoint (s : Store) (renamed : Bool) {outcome : Except String Unit} {db : ResumeDb}
      {effects : List DiskEffect} {result : Except ResumeError Unit}
      (h : s.db.checkpoint outcome = (db, effects, result)) :
      Step s effects ⟨file_after P renamed s.file effects, db⟩

/-- The stores that calls lead to, from any file at the path. -/
inductive Reach : Store → Prop
  | start {file : Option Bytes} {identity : ObjectIdentity} {path : String} {db : ResumeDb}
      {resumed : Bool} (h : ResumeDb.open_at P file identity path = .ok (db, resumed)) :
      Reach ⟨file, db⟩
  | step {s s' : Store} {effects : List DiskEffect} (hs : Reach s) (h : Step P s effects s') :
      Reach s'

/-- The last call made a checkpoint, and it succeeded. -/
def Checkpointed (s : Store) : Prop :=
  ∃ s₀ effects r, Reach P s₀ ∧ Step P s₀ effects s ∧ Effect.commit r ∈ effects

/-- What the next `open` should find. -/
structure ReadBack (s : Store) : Prop where
  /-- The record is not discarded, -/
  kept : ∃ r, s.file.bind (fun bytes => (ResumeRecord.decode P bytes).toOption) = some r
  /-- the same object gets the same bitmaps, -/
  same : ∀ identity path, s.db.record.identity.matches identity = true →
    ∃ db resumed, ResumeDb.open_at P s.file identity path = .ok (db, resumed) ∧
      db.record.verified = s.db.record.verified ∧ db.record.durable = s.db.record.durable
  /-- and another object gets empty ones. -/
  other : ∀ identity path, s.db.record.identity.matches identity = false →
    identity.chunk_count ≤ MAX_CHUNK_COUNT →
    ∃ db resumed, ResumeDb.open_at P s.file identity path = .ok (db, resumed) ∧
      ∀ i, ¬ db.record.verified.Has i ∧ ¬ db.record.durable.Has i

variable {P} {s s' : Store} {effects : List DiskEffect} {r : ResumeRecord}

/-- After a checkpoint the file has the record that is in memory. -/
theorem Step.commit (h : Step P s effects s') (hc : Effect.commit r ∈ effects) :
    s'.file = some (s'.db.record.encode P) := by
  cases h with
  | open_at h => cases hc
  | mark_verified h => cases hc
  | @chunk_written renamed index sync_data outcome db effects result h =>
    have hw := ResumeDb.chunk_written.spec s.db index sync_data outcome
    rw [h] at hw
    cases hw with
    | refused e => cases hc
    | marked h => cases hc
    | not_synced h e => simp at hc
    | committed h => rfl
    | not_committed h e => simp at hc
  | @checkpoint renamed outcome db effects result h =>
    rcases outcome with e | _
    · cases h
      simp at hc
    · cases h
      rfl

/-- The file is read back exactly if it is within the limit. -/
theorem readBack_iff (hfile : s.file = some (s.db.record.encode P)) :
    s.ReadBack P ↔ (s.db.record.encode P).length ≤ MAX_RECORD_BYTES := by
  have hdecode := s.db.record.decode_encode P
  by_cases hfits : (s.db.record.encode P).length ≤ MAX_RECORD_BYTES
  · rw [if_pos hfits] at hdecode
    have hstored : s.file.bind (fun bytes => (ResumeRecord.decode P bytes).toOption) =
        some { s.db.record with last_provider := [] } := by
      rw [hfile, Option.bind_some, hdecode]
      rfl
    refine ⟨fun _ => hfits, fun _ => ⟨⟨_, hstored⟩, ?_, ?_⟩⟩
    · intro identity path hmatch
      have hopen := ResumeDb.open_of_matches (r := { s.db.record with last_provider := [] }) path
        hmatch
      rw [← hstored] at hopen
      exact ⟨_, _, hopen, rfl, rfl⟩
    · intro identity path hmatch hcount
      have hother : ∀ r ∈ s.file.bind (fun bytes => (ResumeRecord.decode P bytes).toOption),
          r.identity.matches identity = false := by
        intro r hr
        rw [← Option.some.inj (hstored.symm.trans hr)]
        exact hmatch
      obtain ⟨r, hopen, hnew⟩ := ResumeDb.open_of_unmatched path hother hcount
      exact ⟨_, _, hopen, (ResumeRecord.new_eq_ok hnew).2.2⟩
  · rw [if_neg hfits] at hdecode
    refine ⟨fun h => ?_, fun h => absurd h hfits⟩
    obtain ⟨r, hr⟩ := h.kept
    rw [hfile, Option.bind_some, hdecode] at hr
    cases hr

theorem Checkpointed.file (h : s.Checkpointed P) : s.file = some (s.db.record.encode P) := by
  obtain ⟨s₀, effects, r, -, hstep, hcommit⟩ := h
  exact hstep.commit hcommit

/-! ## Every second chunk arrives -/

/-- The chunks that a database has marked, of an object with the identity. -/
structure Marks (identity : ObjectIdentity) (marked : Set UInt64) (db : ResumeDb) : Prop where
  identity : db.record.identity = identity
  path : db.record.temporary_path = "file"
  verified : ∀ i, db.record.verified.Has i ↔ i ∈ marked
  durable : ∀ i, db.record.durable.Has i ↔ i ∈ marked

/-- A chunk that arrives is marked in both bitmaps. -/
theorem Reach.mark {identity : ObjectIdentity} {marked : Set UInt64} {index : UInt64}
    (hs : Reach P s) (hm : Marks identity marked s.db) (hi : index < identity.chunk_count) :
    ∃ s', Reach P s' ∧ Marks identity (insert index marked) s'.db := by
  rw [← hm.identity] at hi
  obtain ⟨db, hverified⟩ := ResumeDb.mark_verified_of_lt hi
  obtain ⟨hid, hdur⟩ := ResumeDb.mark_verified_eq_ok hverified
  obtain ⟨hpath, hhas⟩ := ResumeDb.mark_verified_has hverified
  rw [← hid] at hi
  obtain ⟨db', effects, hwritten⟩ := ResumeDb.chunk_written_of_lt hi
  refine ⟨_, (hs.step (.mark_verified s hverified)).step (.chunk_written _ false hwritten), ?_⟩
  have hmarks : ∀ d : ResumeDb, db.mark index = .ok d → Marks identity (insert index marked) d := by
    intro d hmark
    obtain ⟨hid', hdur'⟩ := ResumeDb.mark_eq_ok hmark
    obtain ⟨hver', hpath'⟩ := ResumeDb.mark_keeps hmark
    refine ⟨by rw [hid', hid, hm.identity], by rw [hpath', hpath, hm.path], ?_, ?_⟩
    · intro i
      rw [hver', hhas, hm.verified]
      rfl
    · intro i
      rw [hdur', hdur, hm.durable]
      rfl
  have hspec := ResumeDb.chunk_written.spec db index (.ok ()) (.ok ())
  rw [hwritten] at hspec
  cases hspec with
  | marked h => exact hmarks _ h
  | committed h =>
    obtain ⟨h1, h2, h3, h4⟩ := hmarks _ h
    exact ⟨h1, h2, h3, h4⟩

/-- The chunks with an even index below a bound. -/
def evens (n : Nat) : Set UInt64 := { i | i.toNat % 2 = 0 ∧ i.toNat < n }

theorem reach_evens (P : Primitives) {identity : ObjectIdentity}
    (hcount : identity.chunk_count ≤ MAX_CHUNK_COUNT) {k : Nat}
    (hk : 2 * k ≤ identity.chunk_count.toNat) :
    ∃ s, Reach P s ∧ Marks identity (evens (2 * k)) s.db := by
  induction k with
  | zero =>
    have hnone : ∀ r ∈ (none : Option ResumeRecord), r.identity.matches identity = false := by simp
    obtain ⟨r, hopen, hnew⟩ := ResumeDb.open_of_unmatched "file" hnone hcount
    obtain ⟨hid, hpath, hempty⟩ := ResumeRecord.new_eq_ok hnew
    refine ⟨⟨none, _⟩, .start hopen, hid, hpath, fun i => ?_, fun i => ?_⟩
    · simp [(hempty i).1, evens]
    · simp [(hempty i).2, evens]
  | succ k ih =>
    obtain ⟨s, hs, hm⟩ := ih (by omega)
    have hlt := identity.chunk_count.toNat_lt
    have hindex : (UInt64.ofNat (2 * k)).toNat = 2 * k := by
      rw [UInt64.toNat_ofNat']
      omega
    have hin : UInt64.ofNat (2 * k) < identity.chunk_count := by
      rw [UInt64.lt_iff_toNat_lt, hindex]
      omega
    obtain ⟨s', hs', hm'⟩ := hs.mark hm hin
    have hsame : insert (UInt64.ofNat (2 * k)) (evens (2 * k)) = evens (2 * (k + 1)) := by
      ext i
      simp only [evens, Set.mem_insert_iff, Set.mem_ofPred_eq, ← UInt64.toNat_inj, hindex]
      omega
    rw [hsame] at hm'
    exact ⟨s', hs', hm'⟩

/-- A checkpoint at that point. -/
theorem checkpointed_evens (P : Primitives) {identity : ObjectIdentity}
    (hcount : identity.chunk_count ≤ MAX_CHUNK_COUNT) {k : Nat}
    (hk : 2 * k ≤ identity.chunk_count.toNat) :
    ∃ s, Checkpointed P s ∧ Marks identity (evens (2 * k)) s.db := by
  obtain ⟨s, hs, hm⟩ := reach_evens P hcount hk
  have hcheckpoint : s.db.checkpoint (.ok ()) =
      ({ s.db with pending := 0 }, [.commit s.db.record], .ok ()) := rfl
  obtain ⟨h1, h2, h3, h4⟩ := hm
  exact ⟨_, ⟨s, _, s.db.record, hs, .checkpoint s false hcheckpoint, List.mem_singleton_self _⟩,
    h1, h2, h3, h4⟩

/-- The bitmaps of such a database need a byte for each chunk. -/
theorem Marks.le_length_encode {identity : ObjectIdentity} {db : ResumeDb} {k : Nat}
    (hm : Marks identity (evens (2 * k)) db) (hk : 2 * k = identity.chunk_count.toNat) :
    2 * identity.chunk_count.toNat + 32 ≤ (db.record.encode P).length := by
  have hbits : ∀ b : ChunkBitmap, b.chunk_count = identity.chunk_count →
      (∀ i, b.Has i ↔ i ∈ evens (2 * k)) → identity.chunk_count.toNat ≤ b.encode_rle.length := by
    intro b hcount hhas
    have hbound := b.toNat_count_le
    have hbit : ∀ j < b.chunk_count.toNat, bit b.bits j = true ↔ j % 2 = 0 := by
      intro j hj
      have hj64 : (UInt64.ofNat j).toNat = j := by
        rw [UInt64.toNat_ofNat']
        omega
      rw [← b.has_ofNat hj, hhas, evens, Set.mem_ofPred_eq, hj64, hk, ← hcount]
      exact and_iff_left hj
    rw [← hcount]
    apply ChunkBitmap.le_length_encode_rle
    intro j hj he
    have h1 := hbit j (by omega)
    have h2 := hbit (j + 1) hj
    rw [he, h2] at h1
    omega
  have hverified := hbits db.record.verified (by rw [db.record.verified_count, hm.identity])
    hm.verified
  have hdurable := hbits db.record.durable (by rw [db.record.durable_count, hm.identity]) hm.durable
  have hparts := db.record.stored.le_length_encode
  rw [ResumeRecord.length_encode]
  simp only [ResumeRecord.stored] at hparts ⊢
  omega

/-- An object of this many chunks. -/
def striped (chunk_count : UInt64) : ObjectIdentity :=
  ⟨.replicate 32 1, .replicate 32 2, .replicate 32 3, .replicate 32 4, chunk_count, 65552,
    chunk_count * 65536⟩

/-! ## What a checkpoint is worth -/

/-- In any run of calls, a checkpoint that succeeds is read back exactly if the
record has at most `MAX_RECORD_BYTES` bytes. -/
theorem a_checkpoint_is_read_back_iff_it_fits (P : Primitives) {s : Store}
    (h : s.Checkpointed P) :
    s.ReadBack P ↔ (s.db.record.encode P).length ≤ MAX_RECORD_BYTES :=
  readBack_iff h.file

/-- The first of two chunks is read back. -/
theorem half_of_two_chunks_is_read_back :
    ∃ s : Store, s.Checkpointed sample ∧ s.db.record.durable.Has 0 ∧ s.ReadBack sample := by
  obtain ⟨s, hs, hm⟩ := checkpointed_evens sample (show (striped 2).chunk_count ≤ _ by decide)
    (show 2 * 1 ≤ (striped 2).chunk_count.toNat by decide)
  refine ⟨s, hs, (hm.durable 0).2 (by simp [evens]), ?_⟩
  rw [a_checkpoint_is_read_back_iff_it_fits sample hs]
  refine Nat.le_trans (s.db.record.length_encode_le sample) ?_
  rw [hm.identity, hm.path]
  decide

/-- With every second of `2 ^ 22` chunks the checkpoint succeeds, and the next
`open` discards the record. -/
theorem half_of_four_million_chunks_is_lost :
    ∃ s : Store, s.Checkpointed sample ∧ s.db.record.identity.chunk_count = 0x400000 ∧
      (Writer.as_bytes s.db.record.temporary_path).length ≤ 4096 ∧ s.db.record.durable.Has 0 ∧
      s.file.bind (fun bytes => (ResumeRecord.decode sample bytes).toOption) = none ∧
      ∃ db, ResumeDb.open_at sample s.file s.db.record.identity "file" = .ok (db, false) ∧
        ¬ db.record.durable.Has 0 := by
  obtain ⟨s, hs, hm⟩ := checkpointed_evens sample
    (show (striped 0x400000).chunk_count ≤ _ by decide)
    (show 2 * 0x200000 ≤ (striped 0x400000).chunk_count.toNat by decide)
  have hlong : ¬ (s.db.record.encode sample).length ≤ MAX_RECORD_BYTES := by
    refine Nat.not_le.2 (Nat.lt_of_lt_of_le ?_ (hm.le_length_encode (by decide)))
    decide
  have hlost : s.file.bind (fun bytes => (ResumeRecord.decode sample bytes).toOption) = none := by
    rw [hs.file, Option.bind_some, s.db.record.decode_encode sample, if_neg hlong]
    rfl
  have hnone : ∀ r ∈ s.file.bind (fun bytes => (ResumeRecord.decode sample bytes).toOption),
      r.identity.matches s.db.record.identity = false := by
    rw [hlost]
    simp
  obtain ⟨r, hopen, hnew⟩ := ResumeDb.open_of_unmatched "file" hnone (by rw [hm.identity]; decide)
  refine ⟨s, hs, by rw [hm.identity]; rfl, by rw [hm.path]; decide, ?_, hlost, _, hopen, ?_⟩
  · exact (hm.durable 0).2 (by simp [evens])
  · exact ((ResumeRecord.new_eq_ok hnew).2.2 0).2

end Store

end rtp2_core.resume
