-- The range scheduler: which chunks a receiver asks for, and the request on the
-- wire.
import Mathlib.Data.List.Nodup
import Mathlib.Data.UInt
import Reyta.Bitmap
import Reyta.CborExact

open byte_string exact_parse

namespace rtp2_core.scheduler

open bitmap cbor

inductive Priority where
  | CriticalMetadata
  | FirstRender
  | UserVisibleNext
  | Sequential
  | Background
  | Repair
  deriving DecidableEq, Repr

def Priority.to_u64 : Priority → UInt64
  | .CriticalMetadata => 0
  | .FirstRender => 1
  | .UserVisibleNext => 2
  | .Sequential => 3
  | .Background => 4
  | .Repair => 5

inductive ChunkOrder where
  | Sequential
  | Scattered
  deriving DecidableEq, Repr

def ChunkOrder.to_u64 : ChunkOrder → UInt64
  | .Sequential => 0
  | .Scattered => 1

inductive SchedulerError where
  | Encoding
  | TooManyRanges
  | UnsortedOrOverlapping
  | EmptyRange
  | OutOfRange
  deriving DecidableEq, Repr

def SchedulerError.from_cbor (_ : CborError) : SchedulerError := .Encoding

open SchedulerError (from_cbor)

structure RangeRequest where
  transfer_id : Arr 32
  object_id : Arr 32
  priority_class : UInt64
  /-- Chunk indices, with an end that is not included. -/
  ranges : List (UInt64 × UInt64)
  max_bytes : UInt64
  preferred_chunk_order : UInt64
  durable_ack_generation : UInt64
  deriving DecidableEq

/-! ## The request on the wire -/

namespace RangeRequest

/-- The loop of `validate` at position `i`. -/
def validate_ranges (chunk_count : UInt64) :
    Nat → UInt64 → List (UInt64 × UInt64) → Except SchedulerError Unit
  | _, _, [] => pure ()
  | i, previous_end, (start, stop) :: ranges => do
    refuse_if (stop ≤ start) .EmptyRange
    refuse_if (stop > chunk_count) .OutOfRange
    refuse_if (i > 0 ∧ start ≤ previous_end) .UnsortedOrOverlapping
    validate_ranges chunk_count (i + 1) stop ranges

def validate (self : RangeRequest) (chunk_count : UInt64) : Except SchedulerError Unit := do
  refuse_if (self.ranges.length > MAX_RANGES_PER_REQUEST) .TooManyRanges
  validate_ranges chunk_count 0 0 self.ranges

def encode_range (r : UInt64 × UInt64) : Bytes :=
  Writer.array 2 ++ Writer.uint r.1 ++ Writer.uint r.2

def encode (self : RangeRequest) : Bytes :=
  MapWriter [(0, Writer.bytes self.transfer_id.bytes), (1, Writer.bytes self.object_id.bytes),
    (2, Writer.uint self.priority_class),
    (3, Writer.array (.ofNat self.ranges.length) ++ self.ranges.flatMap encode_range),
    (4, Writer.uint self.max_bytes), (5, Writer.uint self.preferred_chunk_order),
    (6, Writer.uint self.durable_ack_generation)]

/-- One turn of the loop over the ranges. -/
def decode_range : Parse SchedulerError (UInt64 × UInt64) := do
  let n ← map_err from_cbor Reader.array
  fail_if (n ≠ 2) .Encoding
  let start ← map_err from_cbor Reader.uint
  let stop ← map_err from_cbor Reader.uint
  Reader.leave
  pure (start, stop)

def read : Parse SchedulerError RangeRequest := do
  let m ← map_err from_cbor Reader.map
  let m ← map_err from_cbor (m.expect_key 0)
  let transfer_id ← map_err from_cbor (Reader.bytes_exact 32)
  let m ← map_err from_cbor (m.expect_key 1)
  let object_id ← map_err from_cbor (Reader.bytes_exact 32)
  let m ← map_err from_cbor (m.expect_key 2)
  let priority_class ← map_err from_cbor Reader.uint
  let m ← map_err from_cbor (m.expect_key 3)
  let ranges ← Reader.array_of from_cbor (.ofNat MAX_RANGES_PER_REQUEST) .TooManyRanges decode_range
  let m ← map_err from_cbor (m.expect_key 4)
  let max_bytes ← map_err from_cbor Reader.uint
  let m ← map_err from_cbor (m.expect_key 5)
  let preferred_chunk_order ← map_err from_cbor Reader.uint
  let m ← map_err from_cbor (m.expect_key 6)
  let durable_ack_generation ← map_err from_cbor Reader.uint
  m.expect_end from_cbor .Encoding
  pure ⟨transfer_id, object_id, priority_class, ranges, max_bytes, preferred_chunk_order,
    durable_ack_generation⟩

def decode (bytes : Bytes) (chunk_count : UInt64) : Except SchedulerError RangeRequest := do
  let r ← (Reader.new bytes).mapError from_cbor
  let request ← Reader.read_all from_cbor read r
  request.validate chunk_count
  pure request

/-- The chunks that the request names, in the order in which they are sent. -/
def indices (self : RangeRequest) : List UInt64 :=
  self.ranges.flatMap fun r => (List.range' r.1.toNat (r.2.toNat - r.1.toNat)).map UInt64.ofNat

def chunk_total (self : RangeRequest) : UInt64 := (self.ranges.map fun r => r.2 - r.1).sum

end RangeRequest

/-! ## The scheduler -/

/-- A part of the object that is wanted early. -/
structure InterestRegion where
  priority : Priority
  range : UInt64 × UInt64
  deriving DecidableEq

structure Scheduler where
  transfer_id : Arr 32
  object_id : Arr 32
  chunk_count : UInt64
  chunk_ciphertext_size : UInt64
  interests : List InterestRegion
  order : ChunkOrder
  generation : UInt64

namespace Scheduler

def new (transfer_id object_id : Arr 32) (chunk_count chunk_ciphertext_size : UInt64) :
    Scheduler where
  transfer_id := transfer_id
  object_id := object_id
  chunk_count := chunk_count
  chunk_ciphertext_size := chunk_ciphertext_size
  interests := []
  order := .Sequential
  generation := 0

/-- `u64::saturating_mul` -/
def saturating_mul (a b : UInt64) : UInt64 := .ofNat (min (a.toNat * b.toNat) (2 ^ 64 - 1))

/-- Everything that is missing, up to the limit on the number of ranges. -/
def full_request (self : Scheduler) (held : ChunkBitmap) : RangeRequest :=
  let ranges := held.missing_ranges MAX_RANGES_PER_REQUEST
  let total := (ranges.map fun r => r.2 - r.1).sum
  { transfer_id := self.transfer_id
    object_id := self.object_id
    priority_class := Priority.Sequential.to_u64
    ranges
    max_bytes := saturating_mul total self.chunk_ciphertext_size
    preferred_chunk_order := self.order.to_u64
    durable_ack_generation := self.generation }

end Scheduler

/-! ## What a request names -/

namespace RangeRequest

variable {chunk_count : UInt64} {self : RangeRequest}

theorem validate_ranges_iff {i : Nat} {previous : UInt64} {ranges : List (UInt64 × UInt64)} :
    validate_ranges chunk_count i previous ranges = .ok () ↔
      Sorted ranges chunk_count ∧ (0 < i → ∀ r ∈ ranges, previous < r.1) := by
  induction ranges generalizing i previous with
  | nil =>
    simp only [validate_ranges, List.not_mem_nil, false_implies, implies_true, and_true]
    exact ⟨fun _ => ⟨.nil, by simp, by simp⟩, fun _ => rfl⟩
  | cons r ranges ih =>
    obtain ⟨start, stop⟩ := r
    simp only [validate_ranges, bind_eq_ok, refuse_if_eq_ok, ih, exists_const, UInt64.not_le,
      gt_iff_lt, UInt64.not_lt, not_and, List.forall_mem_cons]
    constructor
    · rintro ⟨hlt, hle, hprev, ⟨hapart, hnonempty, hbounded⟩, hnext⟩
      have hafter := hnext (Nat.succ_pos i)
      refine ⟨⟨List.pairwise_cons.2 ⟨hafter, hapart⟩, ?_, ?_⟩, ?_⟩
      · exact List.forall_mem_cons.2 ⟨hlt, hnonempty⟩
      · exact List.forall_mem_cons.2 ⟨hle, hbounded⟩
      · intro hi
        refine ⟨hprev hi, fun r hr => ?_⟩
        exact UInt64.lt_trans (UInt64.lt_trans (hprev hi) hlt) (hafter r hr)
    · rintro ⟨⟨hapart, hnonempty, hbounded⟩, hprev⟩
      obtain ⟨hafter, hapart⟩ := List.pairwise_cons.1 hapart
      obtain ⟨hlt, hnonempty⟩ := List.forall_mem_cons.1 hnonempty
      obtain ⟨hle, hbounded⟩ := List.forall_mem_cons.1 hbounded
      exact ⟨hlt, hle, fun hi => (hprev hi).1, ⟨hapart, hnonempty, hbounded⟩, fun _ => hafter⟩

theorem validate_iff : self.validate chunk_count = .ok () ↔
    self.ranges.length ≤ MAX_RANGES_PER_REQUEST ∧ Sorted self.ranges chunk_count := by
  simp only [validate, bind_eq_ok, refuse_if_eq_ok, validate_ranges_iff, exists_const,
    gt_iff_lt, Nat.not_lt, Nat.lt_irrefl, false_implies, and_true]

theorem mem_run {r : UInt64 × UInt64} {i : UInt64} :
    i ∈ (List.range' r.1.toNat (r.2.toNat - r.1.toNat)).map UInt64.ofNat ↔ r.1 ≤ i ∧ i < r.2 := by
  rw [List.mem_map]
  simp only [List.mem_range'_1, UInt64.le_iff_toNat_le, UInt64.lt_iff_toNat_lt]
  constructor
  · rintro ⟨k, hk, rfl⟩
    have hlt := r.2.toNat_lt
    rw [UInt64.toNat_ofNat']
    omega
  · rintro ⟨hle, hlt⟩
    exact ⟨i.toNat, by omega, UInt64.ofNat_toNat⟩

theorem run_increasing (r : UInt64 × UInt64) :
    ((List.range' r.1.toNat (r.2.toNat - r.1.toNat)).map UInt64.ofNat).Pairwise (· < ·) := by
  refine List.pairwise_map.2 ((List.pairwise_lt_range' 1 (by decide)).imp_of_mem ?_)
  intro j k hj hk hlt
  have hr := r.2.toNat_lt
  rw [List.mem_range'_1] at hj hk
  rw [UInt64.lt_iff_toNat_lt, UInt64.toNat_ofNat', UInt64.toNat_ofNat']
  omega

theorem mem_indices (i : UInt64) : i ∈ self.indices ↔ InRanges self.ranges i := by
  unfold indices InRanges
  simp only [List.mem_flatMap, mem_run]

/-- The chunks are sent in their order. -/
theorem indices_increasing (h : Sorted self.ranges chunk_count) :
    self.indices.Pairwise (· < ·) := by
  refine List.pairwise_flatMap.2 ⟨fun r _ => run_increasing r, h.apart.imp ?_⟩
  intro r r' hlt i hi j hj
  exact UInt64.lt_trans (mem_run.1 hi).2 (UInt64.lt_of_lt_of_le hlt (mem_run.1 hj).1)

/-- No chunk is named twice. -/
theorem indices_nodup (h : Sorted self.ranges chunk_count) : self.indices.Nodup :=
  (indices_increasing h).imp UInt64.ne_of_lt

theorem indices_lt (h : Sorted self.ranges chunk_count) {i : UInt64} (hi : i ∈ self.indices) :
    i < chunk_count := by
  obtain ⟨r, hr, -, hlt⟩ := (mem_indices i).1 hi
  exact UInt64.lt_of_lt_of_le hlt (h.bounded r hr)

/-! ## What is read back -/

theorem decode_range.reads :
    Reads decode_range (fun d _ => d < MAX_DEPTH) encode_range (fun d _ => d) := by
  unfold decode_range
  refine Reads.congr (Reads.bind (fun _ => 2) (Reader.array.reads.map_err _) (fun n _ =>
    Reads.fail_if _ _ (Reads.bind Prod.fst (Reader.uint.reads.map_err _) (fun start _ =>
      Reads.bind Prod.snd (Reader.uint.reads.map_err _) (fun stop _ =>
        Reads.bind (fun _ => ()) Reader.leave.reads (fun _ _ => Reads.pure _) ?_) ?_) ?_))
    ?_) ?admits ?writes ?depth
  case admits =>
    intro d r
    simp
  case writes =>
    intro d r _
    simp [encode_range]
  case depth =>
    intro d r _
    rfl
  all_goals grind

theorem read.reads :
    Reads read (fun d r => d + 1 < MAX_DEPTH ∧ r.ranges.length ≤ MAX_RANGES_PER_REQUEST ∧
      ∀ range ∈ r.ranges, d + 2 < MAX_DEPTH) encode (fun d _ => d) := by
  unfold read
  refine Reads.congr (MapBody.start (fun _ : RangeRequest => 7) (fun _ => by decide)
    fun m hm => MapBody.key (by simp [hm]) fun m hm => MapBody.value RangeRequest.transfer_id
      ((Reader.bytes_exact.reads (by decide)).map_err _) (fun _ => MapBody.key (by simp [hm])
    fun m hm => MapBody.value RangeRequest.object_id
      ((Reader.bytes_exact.reads (by decide)).map_err _) (fun _ => MapBody.key (by simp [hm])
    fun m hm => MapBody.value RangeRequest.priority_class
      (Reader.uint.reads.map_err _) (fun _ => MapBody.key (by simp [hm])
    fun m hm => MapBody.value RangeRequest.ranges
      (Reader.array_of.reads decode_range.reads) (fun _ => MapBody.key (by simp [hm])
    fun m hm => MapBody.value RangeRequest.max_bytes
      (Reader.uint.reads.map_err _) (fun _ => MapBody.key (by simp [hm])
    fun m hm => MapBody.value RangeRequest.preferred_chunk_order
      (Reader.uint.reads.map_err _) (fun _ => MapBody.key (by simp [hm])
    fun m hm => MapBody.value RangeRequest.durable_ack_generation
      (Reader.uint.reads.map_err _) (fun _ => MapBody.stop _ (Reads.pure _))
      ?_) ?_) ?_) ?_) ?_) ?_) ?_) ?admits ?writes ?depth
  case admits =>
    intro d r
    simp only [MAX_RANGES_PER_REQUEST, UInt64.toNat_ofNat', true_and, and_true]
    constructor
    · rintro ⟨-, hdepth, hlen, hranges⟩
      exact ⟨hdepth, hlen, hranges⟩
    · rintro ⟨hdepth, hlen, hranges⟩
      exact ⟨by omega, hdepth, hlen, hranges⟩
  case writes =>
    intro d r _
    simp [encode, MapWriter]
  case depth =>
    intro d r _
    rfl
  all_goals grind

/-- What is decoded is what was encoded, and it is valid. -/
theorem decode_eq_ok {bytes : Bytes} :
    decode bytes chunk_count = .ok self ↔ bytes.length ≤ MAX_CONTROL_SIZE ∧ bytes = self.encode ∧
      self.validate chunk_count = .ok () := by
  have hread : ((Reader.new bytes).mapError from_cbor >>= Reader.read_all from_cbor read) =
      .ok self ↔ _ := Reader.new_read_all_eq_ok read.reads
  constructor
  · intro h
    obtain ⟨r, hr, h⟩ := bind_eq_ok.1 h
    obtain ⟨request, hrequest, h⟩ := bind_eq_ok.1 h
    obtain ⟨_, hvalid, h⟩ := bind_eq_ok.1 h
    obtain rfl := pure_eq_ok.1 h
    obtain ⟨hlen, -, hbytes⟩ := hread.1 (bind_eq_ok.2 ⟨r, hr, hrequest⟩)
    exact ⟨hlen, hbytes, hvalid⟩
  · rintro ⟨hlen, hbytes, hvalid⟩
    have hfew := (validate_iff.1 hvalid).1
    obtain ⟨r, hr, hrequest⟩ := bind_eq_ok.1
      (hread.2 ⟨hlen, ⟨by decide, hfew, fun _ _ => by decide⟩, hbytes⟩)
    exact bind_eq_ok.2 ⟨r, hr, bind_eq_ok.2 ⟨self, hrequest, bind_eq_ok.2 ⟨(), hvalid, rfl⟩⟩⟩

/-- A request that is decoded names chunks of the object. -/
theorem index_lt {bytes : Bytes} (h : decode bytes chunk_count = .ok self) {i : UInt64}
    (hi : i ∈ self.indices) : i < chunk_count := by
  obtain ⟨-, -, hvalid⟩ := decode_eq_ok.1 h
  exact indices_lt (validate_iff.1 hvalid).2 hi

theorem length_encode_range_le (r : UInt64 × UInt64) : (encode_range r).length ≤ 27 := by
  have h0 := length_header_le MAJOR_ARRAY 2
  have h1 := length_uint_le r.1
  have h2 := length_uint_le r.2
  simp only [encode_range, List.length_append, Writer.array]
  omega

theorem length_encode_le_of_ranges (self : RangeRequest) :
    self.encode.length ≤ 200 + 27 * self.ranges.length := by
  have hranges : (Writer.array (.ofNat self.ranges.length) ++
      self.ranges.flatMap encode_range).length ≤ 9 + 27 * self.ranges.length := by
    rw [List.length_append]
    exact Nat.add_le_add (length_header_le _ _)
      (length_flatMap_le fun r _ => length_encode_range_le r)
  have hmap : self.encode.length ≤ _ := length_mapWriter_le_of (.cons (length_bytes_le _)
    (.cons (length_bytes_le _) (.cons (length_uint_le _) (.cons hranges
    (.cons (length_uint_le _) (.cons (length_uint_le _) (.cons (length_uint_le _) .nil)))))))
  simp only [Arr.length_bytes, List.map_cons, List.map_nil, List.sum_cons, List.sum_nil] at hmap
  omega

theorem length_encode_le (h : self.ranges.length ≤ MAX_RANGES_PER_REQUEST) :
    self.encode.length ≤ MAX_CONTROL_SIZE := by
  have hlen := length_encode_le_of_ranges self
  unfold MAX_RANGES_PER_REQUEST at h
  unfold MAX_CONTROL_SIZE
  omega

end RangeRequest

theorem Scheduler.length_ranges_le (self : Scheduler) (held : ChunkBitmap) :
    (self.full_request held).ranges.length ≤ MAX_RANGES_PER_REQUEST := by
  rw [full_request, held.missing_ranges_eq, List.length_map, List.length_take]
  exact Nat.min_le_left _ _

/-- The sender reads back the request for everything that is missing. -/
theorem Scheduler.full_request_decodes (self : Scheduler) (held : ChunkBitmap) :
    RangeRequest.decode (self.full_request held).encode held.chunk_count =
      .ok (self.full_request held) := by
  have hfew := self.length_ranges_le held
  refine RangeRequest.decode_eq_ok.2 ⟨RangeRequest.length_encode_le hfew, rfl, ?_⟩
  exact RangeRequest.validate_iff.2 ⟨hfew, held.missing_ranges_sorted _⟩

end rtp2_core.scheduler
