-- The chunk record: an index, an inclusion proof and a ciphertext. The decoder
-- enters one array for each proof step and leaves only the outer one, so the
-- reader's depth limit bounds the length of a proof.
import Reyta.CborExact
import Reyta.Merkle
import Reyta.Route

open byte_string exact_parse hash_tree

namespace rtp2_core.transfer

open cbor merkle

/-! ## The codec -/

def direction_code : Direction → UInt64
  | .Left => 0
  | .Right => 1

/-- `[direction, hash32]`. -/
def encode_proof_step (step : ProofStep) : Bytes :=
  Writer.array 2 ++ Writer.uint (direction_code step.direction) ++ Writer.bytes step.hash.bytes

def encode_chunk_record (index : UInt64) (proof : List ProofStep) (ciphertext : Bytes) : Bytes :=
  MapWriter [(0, Writer.uint index),
    (1, Writer.array (.ofNat proof.length) ++ proof.flatMap encode_proof_step),
    (2, Writer.bytes ciphertext)]

def bad_chunk_record (_ : CborError) : TransferError := .Protocol "bad chunk record"

def decode_direction (v : UInt64) : Parse TransferError Direction :=
  if v = 0 then pure .Left
  else if v = 1 then pure .Right
  else fail (.Protocol "bad proof direction")

/-- One turn of the loop over the proof. The array it enters is not left. -/
def decode_proof_step : Parse TransferError ProofStep := do
  let n ← map_err bad_chunk_record Reader.array
  fail_if (n ≠ 2) (.Protocol "bad proof step")
  let v ← map_err bad_chunk_record Reader.uint
  let direction ← decode_direction v
  let hash ← map_err bad_chunk_record (Reader.bytes_exact 32)
  pure ⟨direction, hash⟩

def read_chunk_record : Parse TransferError (UInt64 × List ProofStep × Bytes) := do
  let m ← map_err bad_chunk_record Reader.map
  let m ← map_err bad_chunk_record (m.expect_key 0)
  let index ← map_err bad_chunk_record Reader.uint
  let m ← map_err bad_chunk_record (m.expect_key 1)
  let n ← map_err bad_chunk_record Reader.array
  fail_if (n > 64) (.Protocol "proof too deep")
  let proof ← times decode_proof_step n.toNat
  Reader.leave
  let m ← map_err bad_chunk_record (m.expect_key 2)
  let ciphertext ← map_err bad_chunk_record Reader.bytes
  m.expect_end bad_chunk_record (.Protocol "bad chunk record")
  pure (index, proof, ciphertext)

def decode_chunk_record (bytes : Bytes) : Except TransferError (UInt64 × List ProofStep × Bytes) :=
  Reader.read_all bad_chunk_record read_chunk_record (Reader.new_unbounded bytes)

/-! ## What is read back -/

theorem decode_direction.reads (v : UInt64) :
    Reads (decode_direction v) (fun _ dir => direction_code dir = v) (fun _ => [])
      (fun d _ => d) := by
  unfold decode_direction
  split_ifs with h0 h1
  · refine (Reads.pure _).congr ?_ (fun _ _ _ => rfl) (fun _ _ _ => rfl)
    intro d dir
    rcases dir with _ | _ <;> simp [direction_code, h0]
  · refine (Reads.pure _).congr ?_ (fun _ _ _ => rfl) (fun _ _ _ => rfl)
    intro d dir
    rcases dir with _ | _ <;> simp [direction_code, h1]
  · apply Reads.fail
    intro d dir h
    rcases dir with _ | _
    · exact h0 h.symm
    · exact h1 h.symm

/-- A step is one array deeper. -/
theorem decode_proof_step.reads :
    Reads decode_proof_step (fun d _ => d < MAX_DEPTH) encode_proof_step (fun d _ => d + 1) := by
  unfold decode_proof_step
  refine Reads.congr (Reads.bind (fun _ => 2) (Reader.array.reads.map_err _) (fun n _ =>
    Reads.fail_if _ _ (Reads.bind (fun s => direction_code s.direction)
      (Reader.uint.reads.map_err _) (fun v _ => Reads.bind Step.direction (decode_direction.reads v)
        (fun dir _ => Reads.bind Step.hash ((Reader.bytes_exact.reads (by decide)).map_err _)
          (fun hash _ => Reads.pure _) ?_) ?_) ?_)) ?_) ?_ ?_ (fun _ _ _ => rfl)
  · rintro d hash s - rfl
    rfl
  · rintro d dir s - ⟨-, h⟩
    rw [h]
  · rintro d v s - ⟨h, -⟩
    exact h
  · rintro d n s - ⟨h, -⟩
    exact (not_not.1 h).symm
  · intro d s
    simp
  · intro d s _
    simp [encode_proof_step]

theorem length_encode_proof_step (step : ProofStep) : (encode_proof_step step).length = 36 := by
  rcases step with ⟨_ | _, hash⟩ <;>
    simp [encode_proof_step, direction_code, Writer.array, Writer.uint, Writer.bytes,
      Writer.header, Writer.numeral]

/-- A record has one ciphertext, whatever the length of its proof. -/
theorem encode_chunk_record_inj {index : UInt64} {proof proof' : List ProofStep} {c c' : Bytes}
    (hp : proof.length < 2 ^ 64) (hp' : proof'.length < 2 ^ 64) (hc : c.length < 2 ^ 64)
    (hc' : c'.length < 2 ^ 64)
    (h : encode_chunk_record index proof c = encode_chunk_record index proof' c') : c = c' := by
  simp only [encode_chunk_record, MapWriter, List.flatMap_cons, List.flatMap_nil, List.append_assoc,
    List.length_cons, List.append_nil, List.append_cancel_left_eq] at h
  obtain ⟨hn, h⟩ := Reader.array.reads.writes_apart (d := 0) (by decide) (by decide) h
  have hlen : proof.length = proof'.length := by
    have := congrArg UInt64.toNat hn
    rwa [UInt64.toNat_ofNat_of_lt' hp, UInt64.toNat_ofNat_of_lt' hp'] at this
  obtain ⟨-, h⟩ := append_inj_of_length
    (by simp [List.length_flatMap, length_encode_proof_step, hlen]) h
  rw [List.append_cancel_left_eq] at h
  exact Reader.bytes.reads.write_inj (d := 0) hc hc' h

/-- Arrays that are entered and not left pile up. -/
theorem each_deeper {α : Type} {l : List α} {d : Nat} :
    Each (fun d _ => d < MAX_DEPTH) (fun d _ => d + 1) d l ↔ l = [] ∨ d + l.length ≤ MAX_DEPTH := by
  induction l generalizing d with
  | nil => simp [Each]
  | cons a l ih =>
    rw [Each, ih]
    have hnil : l = [] ↔ l.length = 0 := List.length_eq_zero_iff.symm
    simp only [hnil, List.length_cons, reduceCtorEq, false_or]
    omega

theorem foldl_deeper {α : Type} (l : List α) (d : Nat) :
    l.foldl (fun d _ => d + 1) d = d + l.length := by
  induction l generalizing d with
  | nil => rfl
  | cons a l ih =>
    rw [List.foldl_cons, ih, List.length_cons]
    omega

theorem read_chunk_record.reads :
    Reads read_chunk_record
      (fun d r => d + 1 < MAX_DEPTH ∧ (r.2.1 = [] ∨ d + 2 + r.2.1.length ≤ MAX_DEPTH) ∧
        r.2.2.length < 2 ^ 64)
      (fun r => encode_chunk_record r.1 r.2.1 r.2.2) (fun d r => d + r.2.1.length) := by
  unfold read_chunk_record
  refine Reads.congr (MapBody.start (fun _ => 3) (fun _ => by decide) fun m hm =>
      MapBody.key (by simp [hm])
    fun m hm => MapBody.value (fun r : UInt64 × List ProofStep × Bytes => r.1)
      (Reader.uint.reads.map_err _) (fun index => MapBody.key (by simp [hm])
    fun m hm => MapBody.value (fun r : UInt64 × List ProofStep × Bytes => .ofNat r.2.1.length)
      (Reader.array.reads.map_err _) (fun n => MapBody.value (fun _ => ())
      (Reads.check _ _) (fun _ => MapBody.value (fun r : UInt64 × List ProofStep × Bytes => r.2.1)
      (decode_proof_step.reads.times _) (fun proof => MapBody.value (fun _ => ())
      Reader.leave.reads (fun _ => MapBody.key (by simp [hm])
    fun m hm => MapBody.value (fun r : UInt64 × List ProofStep × Bytes => r.2.2)
      (Reader.bytes.reads.map_err _) (fun ciphertext => MapBody.stop _ (Reads.pure _))
      ?_) ?_) ?_) ?_) ?_) ?_) ?admits ?writes ?depth
  case admits =>
    intro d ⟨index, proof, ciphertext⟩
    have hnil : proof = [] ↔ proof.length = 0 := List.length_eq_zero_iff.symm
    simp only [each_deeper, hnil, gt_iff_lt, UInt64.not_lt, UInt64.le_iff_toNat_le,
      UInt64.toNat_ofNat', UInt64.toNat_ofNat, Nat.reducePow, Nat.reduceMod, true_and, and_true]
    simp only [MAX_DEPTH]
    omega
  case writes =>
    intro d r _
    simp [encode_chunk_record, MapWriter]
  case depth =>
    intro d r _
    simp only [foldl_deeper]
    omega
  all_goals
    intro d a r _ h
    simp_all [Prod.ext_iff]

/-- A record is read back if and only if its proof has at most 14 steps. The
map and the proof array take two of the 16 levels, and each step keeps one. -/
theorem a_record_is_read_back_iff_its_proof_is_short (index : UInt64) (proof : List ProofStep)
    (hproof : proof.length ≤ 32) (ciphertext : Bytes) (hlen : ciphertext.length < 2 ^ 64) :
    decode_chunk_record (encode_chunk_record index proof ciphertext) =
      .ok (index, proof, ciphertext) ↔ proof.length ≤ 14 := by
  unfold decode_chunk_record Reader.new_unbounded
  rw [Reader.read_all_eq_ok read_chunk_record.reads]
  have hnil : proof = [] ↔ proof.length = 0 := List.length_eq_zero_iff.symm
  simp only [hlen, hnil, MAX_DEPTH, and_true]
  omega

theorem a_record_with_fourteen_steps_is_read_back :
    decode_chunk_record (encode_chunk_record 7 (List.replicate 14 ⟨.Right, .replicate 32 1⟩) [9]) =
      .ok (7, List.replicate 14 ⟨.Right, .replicate 32 1⟩, [9]) :=
  (a_record_is_read_back_iff_its_proof_is_short 7 _ (by decide) [9] (by decide)).2 (by decide)

/-- A proof of 15 steps, as an object of more than 16384 chunks has, enters
the arrays one level too deep. -/
theorem a_record_with_fifteen_steps_is_refused :
    decode_chunk_record (encode_chunk_record 7 (List.replicate 15 ⟨.Right, .replicate 32 1⟩) [9]) =
      .error (.Protocol "bad chunk record") := by
  decide +kernel

end rtp2_core.transfer
