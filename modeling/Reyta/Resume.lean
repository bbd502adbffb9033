-- The resume database: which chunks of an object are verified and which are
-- durable. The bitmap of the durable chunks is committed in batches, after the
-- file that holds them was synced.
import Reyta.Bitmap
import Reyta.Bytes
import Reyta.CrashDisk

open byte_string crash_disk

namespace rtp2_core.resume

open bitmap

def DEFAULT_CHECKPOINT_CHUNKS : UInt64 := 64

inductive ResumeError where
  | Io (message : String)
  | Corrupt
  | VersionMismatch
  | ObjectMismatch
  deriving DecidableEq, Repr

def ResumeError.to_string : ResumeError → String
  | .Io e => "resume io: " ++ e
  | .Corrupt => "resume record is corrupt"
  | .VersionMismatch => "resume record version mismatch"
  | .ObjectMismatch => "resume record is for a different object"

structure ObjectIdentity where
  transfer_id : Arr 32
  object_id : Arr 32
  manifest_commitment : Arr 32
  ciphertext_root : Arr 32
  chunk_count : UInt64
  chunk_ciphertext_size : UInt64
  logical_plaintext_size : UInt64
  deriving DecidableEq

/-- The commitment is not compared: an honest new offer has another one. -/
def ObjectIdentity.matches (self other : ObjectIdentity) : Bool :=
  self.transfer_id == other.transfer_id && self.object_id == other.object_id &&
    self.ciphertext_root == other.ciphertext_root && self.chunk_count == other.chunk_count &&
    self.chunk_ciphertext_size == other.chunk_ciphertext_size &&
    self.logical_plaintext_size == other.logical_plaintext_size

/-- The fields that are compared. -/
def ObjectIdentity.core (identity : ObjectIdentity) : ObjectIdentity :=
  { identity with manifest_commitment := .replicate 32 0 }

theorem ObjectIdentity.matches_iff {a b : ObjectIdentity} :
    a.matches b = true ↔ a.core = b.core := by
  rcases a with ⟨a1, a2, a3, a4, a5, a6, a7⟩
  rcases b with ⟨b1, b2, b3, b4, b5, b6, b7⟩
  simp [«matches», core, and_assoc]

/-- Both bitmaps are over the chunks of the object. -/
structure ResumeRecord where
  identity : ObjectIdentity
  verified : ChunkBitmap
  durable : ChunkBitmap
  temporary_path : String
  last_provider : Bytes
  last_activity : UInt64
  verified_count : verified.chunk_count = identity.chunk_count
  durable_count : durable.chunk_count = identity.chunk_count

/-- The chunks that a record marks durable. -/
def ResumeRecord.chunks (r : ResumeRecord) : Set UInt64 := { i | r.durable.Has i }

def ResumeRecord.new (identity : ObjectIdentity) (temporary_path : String) :
    Except ResumeError ResumeRecord :=
  match h : ChunkBitmap.new identity.chunk_count with
  | .error _ => .error .Corrupt
  | .ok empty =>
    .ok { identity, verified := empty, durable := empty, temporary_path
          last_provider := [], last_activity := 0
          verified_count := (ChunkBitmap.new_eq_ok h).1
          durable_count := (ChunkBitmap.new_eq_ok h).1 }

/-- A new record marks no chunk. -/
theorem ResumeRecord.new_eq_ok {identity : ObjectIdentity} {path : String} {r : ResumeRecord}
    (h : ResumeRecord.new identity path = .ok r) :
    r.identity = identity ∧ r.temporary_path = path ∧
      ∀ i, ¬ r.verified.Has i ∧ ¬ r.durable.Has i := by
  unfold ResumeRecord.new at h
  split at h
  · cases h
  · next empty hnew =>
    obtain rfl := Except.ok.inj h
    have hempty := (ChunkBitmap.new_eq_ok hnew).2
    exact ⟨rfl, rfl, fun i => ⟨hempty i, hempty i⟩⟩

theorem ResumeRecord.new_of_le {identity : ObjectIdentity} (path : String)
    (h : identity.chunk_count ≤ MAX_CHUNK_COUNT) :
    ∃ r, ResumeRecord.new identity path = .ok r := by
  unfold ResumeRecord.new
  split
  · next e hnew =>
    rw [ChunkBitmap.new, dif_neg (UInt64.not_lt.2 h)] at hnew
    cases hnew
  · exact ⟨_, rfl⟩

structure ResumeDb where
  record : ResumeRecord
  /-- Chunks marked durable since the last checkpoint. -/
  pending : UInt64
  checkpoint_interval : UInt64

/-- What is done to the file and to the record. -/
abbrev DiskEffect := Effect UInt64 ResumeRecord

namespace ResumeDb

/-- `stored` is the record at the path, or `none` if it cannot be read or
decoded. The result says whether the transfer was resumed. -/
def «open» (stored : Option ResumeRecord) (identity : ObjectIdentity) (temporary_path : String) :
    Except ResumeError (ResumeDb × Bool) :=
  match stored.filter fun r => r.identity.matches identity with
  | some r => .ok (⟨r, 0, DEFAULT_CHECKPOINT_CHUNKS⟩, r.durable.set_count > 0)
  | none => (ResumeRecord.new identity temporary_path).map fun r =>
      (⟨r, 0, DEFAULT_CHECKPOINT_CHUNKS⟩, false)

def mark_verified (db : ResumeDb) (index : UInt64) : Except ResumeError ResumeDb :=
  match h : db.record.verified.set index with
  | .error _ => .error .Corrupt
  | .ok (verified, changed) =>
    .ok { db with record := { db.record with
            verified
            verified_count := by
              rw [(ChunkBitmap.set_eq_ok h).chunk_count, db.record.verified_count] } }

/-- `outcome` is what the file system answers. -/
def checkpoint (db : ResumeDb) (outcome : Except String Unit) :
    ResumeDb × List DiskEffect × Except ResumeError Unit :=
  match outcome with
  | .ok () => ({ db with pending := 0 }, [.commit db.record], .ok ())
  | .error e => (db, [.commit_failed db.record], .error (.Io e))

/-- The first half of `chunk_written`. -/
def mark (db : ResumeDb) (index : UInt64) : Except ResumeError ResumeDb :=
  match h : db.record.durable.set index with
  | .error _ => .error .Corrupt
  | .ok (durable, changed) =>
    .ok { db with
          pending := if changed then db.pending + 1 else db.pending
          record := { db.record with
            durable
            durable_count := by
              rw [(ChunkBitmap.set_eq_ok h).chunk_count, db.record.durable_count] } }

/-- `sync_data` and `outcome` are what the file system answers. -/
def chunk_written (db : ResumeDb) (index : UInt64) (sync_data outcome : Except String Unit) :
    ResumeDb × List DiskEffect × Except ResumeError Unit :=
  match db.mark index with
  | .error e => (db, [], .error e)
  | .ok db =>
    if db.pending < db.checkpoint_interval then (db, [], .ok ())
    else
      match sync_data with
      | .error e => (db, [.failed], .error (.Io e))
      | .ok () =>
        let (db, effects, result) := db.checkpoint outcome
        (db, .sync :: effects, result)

/-! ## What the operations do -/

variable {db db' : ResumeDb} {index : UInt64}

theorem open_of_matches {r : ResumeRecord} {identity : ObjectIdentity} (path : String)
    (h : r.identity.matches identity = true) :
    «open» (some r) identity path =
      .ok (⟨r, 0, DEFAULT_CHECKPOINT_CHUNKS⟩, decide (r.durable.set_count > 0)) := by
  simp only [«open», Option.filter_some, h, if_true]

/-- A record that does not fit is not used. -/
theorem open_of_unmatched {stored : Option ResumeRecord} {identity : ObjectIdentity} (path : String)
    (h : ∀ r ∈ stored, r.identity.matches identity = false)
    (hcount : identity.chunk_count ≤ MAX_CHUNK_COUNT) :
    ∃ r, «open» stored identity path = .ok (⟨r, 0, DEFAULT_CHECKPOINT_CHUNKS⟩, false) ∧
      ResumeRecord.new identity path = .ok r := by
  obtain ⟨r, hnew⟩ := ResumeRecord.new_of_le path hcount
  have hnone : stored.filter (fun r => r.identity.matches identity) = none := by
    rw [Option.filter_eq_none_iff]
    intro r hr
    simp [h r hr]
  refine ⟨r, ?_, hnew⟩
  unfold «open»
  rw [hnone, hnew]
  rfl

/-- A record that does not fit the object may as well not be there. -/
theorem open_filter (stored : Option ResumeRecord) (identity : ObjectIdentity) (path : String) :
    «open» (stored.filter fun r => r.identity.matches identity) identity path =
      «open» stored identity path := by
  unfold «open»
  rw [Option.filter_filter]
  simp only [Bool.and_self]

/-- The record that is worked on is the stored one, if it fits the object, or a
new one. -/
theorem open_adopts {stored : Option ResumeRecord} {identity : ObjectIdentity} {path : String}
    {resumed : Bool} (h : «open» stored identity path = .ok (db, resumed)) :
    stored = some db.record ∧ db.record.identity.matches identity = true ∨
      ResumeRecord.new identity path = .ok db.record := by
  unfold «open» at h
  split at h
  · next r hr =>
    cases h
    exact .inl (Option.filter_eq_some_iff.1 hr)
  · rcases hnew : ResumeRecord.new identity path with e | r
    · rw [hnew] at h
      cases h
    · rw [hnew] at h
      cases h
      exact .inr rfl

/-- The record that is worked on is the stored one, or it marks no chunk. -/
theorem open_eq_ok {stored : Option ResumeRecord} {identity : ObjectIdentity} {path : String}
    {resumed : Bool} (h : «open» stored identity path = .ok (db, resumed)) :
    stored = some db.record ∨ db.record.chunks = ∅ := by
  rcases open_adopts h with ⟨hstored, -⟩ | hnew
  · exact .inl hstored
  · refine .inr (Set.eq_empty_iff_forall_notMem.2 fun i => ?_)
    exact ((ResumeRecord.new_eq_ok hnew).2.2 i).2

theorem mark_verified_of_lt (h : index < db.record.identity.chunk_count) :
    ∃ db', db.mark_verified index = .ok db' := by
  rw [← db.record.verified_count] at h
  obtain ⟨r, hr⟩ := db.record.verified.set_of_lt h
  unfold mark_verified
  split
  · next he => cases hr.symm.trans he
  · exact ⟨_, rfl⟩

theorem mark_verified_has (h : db.mark_verified index = .ok db') :
    db'.record.temporary_path = db.record.temporary_path ∧
      ∀ i, db'.record.verified.Has i ↔ i = index ∨ db.record.verified.Has i := by
  unfold mark_verified at h
  split at h
  · cases h
  · next hset =>
    obtain rfl := Except.ok.inj h
    exact ⟨rfl, (ChunkBitmap.set_eq_ok hset).has⟩

theorem mark_verified_eq_ok (h : db.mark_verified index = .ok db') :
    db'.record.identity = db.record.identity ∧ db'.record.durable = db.record.durable := by
  unfold mark_verified at h
  split at h
  · cases h
  · obtain rfl := Except.ok.inj h
    exact ⟨rfl, rfl⟩

theorem mark_eq_ok (h : db.mark index = .ok db') :
    db'.record.identity = db.record.identity ∧
      ∀ i, db'.record.durable.Has i ↔ i = index ∨ db.record.durable.Has i := by
  unfold mark at h
  split at h
  · cases h
  · next hset =>
    obtain rfl := Except.ok.inj h
    exact ⟨rfl, (ChunkBitmap.set_eq_ok hset).has⟩

theorem mark_keeps (h : db.mark index = .ok db') :
    db'.record.verified = db.record.verified ∧
      db'.record.temporary_path = db.record.temporary_path := by
  unfold mark at h
  split at h
  · cases h
  · obtain rfl := Except.ok.inj h
    exact ⟨rfl, rfl⟩

theorem mark_of_lt (h : index < db.record.identity.chunk_count) :
    ∃ db', db.mark index = .ok db' := by
  rw [← db.record.durable_count] at h
  obtain ⟨r, hr⟩ := db.record.durable.set_of_lt h
  unfold mark
  split
  · next he => cases hr.symm.trans he
  · exact ⟨_, rfl⟩

theorem chunk_written_of_lt (h : index < db.record.identity.chunk_count) :
    ∃ db' effects, db.chunk_written index (.ok ()) (.ok ()) = (db', effects, .ok ()) := by
  obtain ⟨db', hmark⟩ := mark_of_lt h
  unfold chunk_written
  rw [hmark]
  simp only
  split_ifs
  · exact ⟨_, _, rfl⟩
  · exact ⟨_, _, rfl⟩

/-- All that `chunk_written` can do. A commit comes right after a sync. -/
inductive Written (db : ResumeDb) (index : UInt64) :
    ResumeDb × List DiskEffect × Except ResumeError Unit → Prop
  | refused (e : ResumeError) : Written db index (db, [], .error e)
  | marked {db' : ResumeDb} (h : db.mark index = .ok db') : Written db index (db', [], .ok ())
  | not_synced {db' : ResumeDb} (h : db.mark index = .ok db') (e : ResumeError) :
      Written db index (db', [.failed], .error e)
  | committed {db' : ResumeDb} (h : db.mark index = .ok db') :
      Written db index ({ db' with pending := 0 }, [.sync, .commit db'.record], .ok ())
  | not_committed {db' : ResumeDb} (h : db.mark index = .ok db') (e : ResumeError) :
      Written db index (db', [.sync, .commit_failed db'.record], .error e)

theorem Written.identity {effects : List DiskEffect} {result : Except ResumeError Unit}
    (h : Written db index (db', effects, result)) :
    db'.record.identity = db.record.identity := by
  cases h with
  | refused => rfl
  | marked h => exact (mark_eq_ok h).1
  | not_synced h => exact (mark_eq_ok h).1
  | committed h => exact (mark_eq_ok h).1
  | not_committed h => exact (mark_eq_ok h).1

theorem Written.no_write {effects : List DiskEffect} {result : Except ResumeError Unit}
    (h : Written db index (db', effects, result)) (i : UInt64) : .write i ∉ effects := by
  cases h <;> simp

theorem chunk_written.spec (db : ResumeDb) (index : UInt64)
    (sync_data outcome : Except String Unit) :
    Written db index (db.chunk_written index sync_data outcome) := by
  unfold chunk_written
  split
  · exact .refused _
  · next db' h =>
    split_ifs
    · exact .marked h
    · cases sync_data with
      | error e => exact .not_synced h _
      | ok _ =>
        cases outcome with
        | error e => exact .not_committed h _
        | ok _ => exact .committed h

end ResumeDb

end rtp2_core.resume
