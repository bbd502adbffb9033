-- The record behind a chunk bitmap: three fields with nothing that ties them, and
-- calls that index a vector and add with a check. Whatever calls have made it, the
-- record is one of a bitmap that keeps its invariant, and no call has panicked.
import Reyta.CheckedLoop
import Reyta.RunLength

open byte_string checked_loop exact_parse

namespace rtp2_core.bitmap

/-- A call that has no result: it returns an error, or it panics. -/
inductive Fault where
  | Returned (e : BitmapError)
  | Panicked
  deriving DecidableEq, Repr

/-- An index, an `expect` or a sum that panics where there is no value. -/
def expect {α : Type} : Option α → Except Fault α
  | some a => .ok a
  | none => .error .Panicked

structure RawBitmap where
  chunk_count : UInt64
  bits : Bytes
  set_count : UInt64
  deriving DecidableEq, Repr

/-! ## The calls -/

namespace RawBitmap

def new (chunk_count : UInt64) : Except Fault RawBitmap :=
  if chunk_count > MAX_CHUNK_COUNT then .error (.Returned .TooLarge)
  else .ok { chunk_count, bits := List.replicate (byte_len chunk_count) 0, set_count := 0 }

def is_complete (self : RawBitmap) : Bool := self.set_count == self.chunk_count

def get (self : RawBitmap) (index : UInt64) : Except Fault Bool :=
  if index ≥ self.chunk_count then .error (.Returned .IndexOutOfRange)
  else do
    let byte ← expect self.bits[(index / 8).toNat]?
    .ok (byte &&& (0x80 : UInt8) >>> (index % 8).toUInt8 != 0)

/-- Sets a bit. The result is true if this call changed it. -/
def set (self : RawBitmap) (index : UInt64) : Except Fault (RawBitmap × Bool) :=
  if index ≥ self.chunk_count then .error (.Returned .IndexOutOfRange)
  else do
    let mask := (0x80 : UInt8) >>> (index % 8).toUInt8
    let byte ← expect self.bits[(index / 8).toNat]?
    if byte &&& mask ≠ 0 then .ok (self, false)
    else do
      let bits := self.bits.set (index / 8).toNat (byte ||| mask)
      let set_count ← expect (checked_add self.set_count 1)
      .ok ({ chunk_count := self.chunk_count, bits, set_count }, true)

def as_bytes (self : RawBitmap) : Bytes := self.bits

/-- The bits past `chunk_count` in the last byte. -/
def check_trailing (chunk_count : UInt64) (bits : Bytes) : Except Fault Unit :=
  let used := (chunk_count % 8).toUInt32
  if used ≠ 0 then do
    let last ← expect bits.getLast?
    let trailing_mask := (0xff : UInt8) >>> used.toUInt8
    if last &&& trailing_mask ≠ 0 then .error (.Returned .TrailingBitsSet) else .ok ()
  else .ok ()

/-- `u8::count_ones` -/
def count_ones (b : UInt8) : Nat := (List.range 8).countP b.toNat.testBit

def from_bytes (chunk_count : UInt64) (bits : Bytes) : Except Fault RawBitmap :=
  if chunk_count > MAX_CHUNK_COUNT then .error (.Returned .TooLarge)
  else if bits.length ≠ byte_len chunk_count then .error (.Returned .WrongLength)
  else do
    check_trailing chunk_count bits
    let set_count ← expect (bits.foldlM (fun n b => checked_add n (.ofNat (count_ones b))) 0)
    .ok { chunk_count, bits, set_count }

/-- `for i in index..index + run` with its `set`. -/
def set_run (self : RawBitmap) (index : UInt64) : Nat → Except Fault RawBitmap
  | 0 => .ok self
  | run + 1 => do
    let (self, _) ← self.set index
    set_run self (index + 1) run

/-- The loop of `decode_rle` on the bytes from the position on. -/
def decode_rle_loop (chunk_count : UInt64) (bitmap : RawBitmap) (index : UInt64) (is_set : Bool)
    (encoded : Bytes) : Except Fault RawBitmap :=
  if encoded = [] then
    if index ≠ chunk_count then .error (.Returned .RunOverflow) else .ok bitmap
  else
    match _h : read_leb128 encoded with
    | .error e => .error (.Returned e)
    | .ok (run, rest) => do
      let left ← expect (checked_sub chunk_count index)
      if run > left then .error (.Returned .RunOverflow)
      else do
        let stop ← expect (checked_add index run)
        let bitmap ← if is_set then bitmap.set_run index run.toNat else .ok bitmap
        decode_rle_loop chunk_count bitmap stop (!is_set) rest
termination_by encoded.length
decreasing_by exact read_leb128_loop_length ‹_›

def decode_rle (chunk_count : UInt64) (encoded : Bytes) : Except Fault RawBitmap :=
  if chunk_count > MAX_CHUNK_COUNT then .error (.Returned .TooLarge)
  else do
    let bitmap ← new chunk_count
    decode_rle_loop chunk_count bitmap 0 false encoded

/-- The records that calls can make. -/
inductive Built : RawBitmap → Prop
  | new {chunk_count : UInt64} {r : RawBitmap} (h : new chunk_count = .ok r) : Built r
  | from_bytes {chunk_count : UInt64} {bits : Bytes} {r : RawBitmap}
      (h : from_bytes chunk_count bits = .ok r) : Built r
  | decode_rle {chunk_count : UInt64} {encoded : Bytes} {r : RawBitmap}
      (h : decode_rle chunk_count encoded = .ok r) : Built r
  | set {r r' : RawBitmap} {index : UInt64} {changed : Bool} (built : Built r)
      (h : r.set index = .ok (r', changed)) : Built r'

end RawBitmap

/-! ## The calls on the record of a bitmap -/

/-- The fields without what ties them. -/
def ChunkBitmap.raw (b : ChunkBitmap) : RawBitmap := ⟨b.chunk_count, b.bits, b.set_count⟩

/-- A result on bitmaps as one on records. -/
def on_raw {α β : Type} (f : α → β) : Except BitmapError α → Except Fault β
  | .ok a => .ok (f a)
  | .error e => .error (.Returned e)

namespace RawBitmap

theorem shift_index (index : UInt64) :
    (0x80 : UInt8) >>> (index % 8).toUInt8 = mask index.toNat := by
  have hshift : (index % 8).toUInt8 = UInt8.ofNat (index.toNat % 8) := by
    rw [← UInt8.toNat_inj, UInt64.toNat_toUInt8, UInt64.toNat_mod, UInt8.toNat_ofNat']
    rfl
  rw [hshift, mask]

theorem byte_of_lt {b : ChunkBitmap} {index : UInt64} (h : ¬ index ≥ b.chunk_count) :
    b.bits[(index / 8).toNat]? = some (b.bits.getD (index.toNat / 8) 0) := by
  have hbyte : (index / 8).toNat = index.toNat / 8 := UInt64.toNat_div index 8
  rw [hbyte, List.getD_eq_getElem?_getD, List.getElem?_eq_getElem (b.byte_in_range h),
    Option.getD_some]

theorem new_eq (n : UInt64) : new n = on_raw ChunkBitmap.raw (ChunkBitmap.new n) := by
  unfold new ChunkBitmap.new
  split_ifs <;> rfl

theorem get_raw (b : ChunkBitmap) (index : UInt64) : b.raw.get index = on_raw id (b.get index) := by
  simp only [get, ChunkBitmap.get, ChunkBitmap.raw, shift_index]
  by_cases h : index ≥ b.chunk_count
  · rw [if_pos h, if_pos h]
    rfl
  · rw [if_neg h, if_neg h, byte_of_lt h]
    rfl

theorem set_raw (b : ChunkBitmap) (index : UInt64) :
    b.raw.set index = on_raw (Prod.map ChunkBitmap.raw id) (b.set index) := by
  simp only [set, ChunkBitmap.set, ChunkBitmap.raw, shift_index]
  by_cases h : index ≥ b.chunk_count
  · rw [if_pos h, dif_pos h]
    rfl
  · rw [if_neg h, dif_neg h, byte_of_lt h]
    by_cases hset : bit b.bits index.toNat = true
    · have hne : b.bits.getD (index.toNat / 8) 0 &&& mask index.toNat ≠ 0 := by
        simpa [bit] using hset
      simp only [expect, bind, Except.bind, if_pos hne, dif_pos hset]
      rfl
    · have hzero : ¬ b.bits.getD (index.toNat / 8) 0 &&& mask index.toNat ≠ 0 := by
        simpa [bit] using hset
      have hcount := b.count_lt
      have hadd := (checked_add_of_lt (a := b.set_count) (b := 1)
        (by rw [UInt64.toNat_one]; omega)).1
      have hbyte : (index / 8).toNat = index.toNat / 8 := UInt64.toNat_div index 8
      simp only [expect, bind, Except.bind, if_neg hzero, dif_neg hset, hadd, hbyte]
      rfl

theorem set_run_raw (b : ChunkBitmap) (index : UInt64) (run : Nat) :
    b.raw.set_run index run = on_raw ChunkBitmap.raw (b.set_run index run) := by
  induction run generalizing b index with
  | zero => rfl
  | succ run ih =>
    rw [set_run, ChunkBitmap.set_run, set_raw]
    cases b.set index with
    | error e => rfl
    | ok r => exact ih r.1 (index + 1)

theorem run_raw (b : ChunkBitmap) (index : UInt64) (is_set : Bool) (run : Nat) :
    (if is_set then b.raw.set_run index run else .ok b.raw) =
      on_raw ChunkBitmap.raw (if is_set then b.set_run index run else .ok b) := by
  cases is_set with
  | true => exact set_run_raw b index run
  | false => rfl

theorem toNat_add_of_fits {n index run : UInt64} (hle : index ≤ n) (hfits : ¬ run > n - index) :
    index.toNat + run.toNat ≤ n.toNat := by
  have hroom := UInt64.le_iff_toNat_le.1 (UInt64.not_lt.1 hfits)
  rw [UInt64.toNat_sub_of_le _ _ hle] at hroom
  have hle' := UInt64.le_iff_toNat_le.1 hle
  omega

/-- A turn of the loop, at a position that is not past the last chunk. -/
theorem decode_rle_loop_of_read {n index run : UInt64} {r : RawBitmap} {is_set : Bool}
    {encoded rest : Bytes} (hne : encoded ≠ []) (hread : read_leb128 encoded = .ok (run, rest))
    (hle : index ≤ n) : decode_rle_loop n r index is_set encoded =
      if run > n - index then .error (.Returned .RunOverflow)
      else (if is_set then r.set_run index run.toNat else .ok r) >>= fun r =>
        decode_rle_loop n r (index + run) (!is_set) rest := by
  rw [decode_rle_loop, if_neg hne]
  split
  · next hread' => simp [hread] at hread'
  · next run' rest' hread' =>
    rw [hread] at hread'
    cases hread'
    rw [checked_sub_of_le hle]
    by_cases hover : run > n - index
    · simp [expect, bind, Except.bind, hover]
    · have hsum := toNat_add_of_fits hle hover
      have hn := n.toNat_lt
      have hadd := (checked_add_of_lt (a := index) (b := run) (by omega)).1
      simp only [expect, bind, Except.bind, if_neg hover, hadd]
      cases is_set <;> rfl

/-- The position never passes the last chunk, so neither the difference nor the sum
leaves its range. -/
theorem decode_rle_loop_raw {n index : UInt64} (hle : index ≤ n) (b : ChunkBitmap) (is_set : Bool)
    (encoded : Bytes) : decode_rle_loop n b.raw index is_set encoded =
      on_raw ChunkBitmap.raw (b.decode_rle_loop n index is_set encoded) := by
  fun_induction ChunkBitmap.decode_rle_loop n b index is_set encoded with
  | case1 b index is_set hne =>
    rw [decode_rle_loop, if_pos rfl, if_pos hne]
    rfl
  | case2 b index is_set heq =>
    rw [decode_rle_loop, if_pos rfl, if_neg heq]
    rfl
  | case3 b index is_set encoded hne e hread =>
    rw [decode_rle_loop, if_neg hne]
    split
    · next e' hread' =>
      rw [hread] at hread'
      cases hread'
      rfl
    · next hread' => simp [hread] at hread'
  | case4 b index is_set encoded hne run rest hread hover =>
    rw [decode_rle_loop_of_read hne hread hle, if_pos hover]
    rfl
  | case5 b index is_set encoded hne run rest hread hfits e hset =>
    rw [dite_eq_ite] at hset
    rw [decode_rle_loop_of_read hne hread hle, if_neg hfits, run_raw, hset]
    rfl
  | case6 b index is_set encoded hne run rest hread hfits b₁ hset ih =>
    rw [dite_eq_ite] at hset
    rw [decode_rle_loop_of_read hne hread hle, if_neg hfits, run_raw, hset]
    have hsum := toNat_add_of_fits hle hfits
    have hn := n.toNat_lt
    refine ih ?_
    rw [UInt64.le_iff_toNat_le, UInt64.toNat_add, Nat.mod_eq_of_lt (by omega)]
    exact hsum

theorem decode_rle_eq (n : UInt64) (encoded : Bytes) :
    decode_rle n encoded = on_raw ChunkBitmap.raw (ChunkBitmap.decode_rle n encoded) := by
  unfold decode_rle ChunkBitmap.decode_rle
  split_ifs with h
  · rfl
  · rw [new_eq]
    cases ChunkBitmap.new n with
    | error e => rfl
    | ok b => exact decode_rle_loop_raw (UInt64.le_iff_toNat_le.2 (Nat.zero_le _)) b false encoded

/-! ## Bytes that are read back -/

theorem trailing_mask_and_mask {used : Nat} (hused : used < 8) (i : Nat) :
    (0xff : UInt8) >>> UInt8.ofNat used &&& mask i = if used ≤ i % 8 then mask i else 0 := by
  have h : ∀ u k : Fin 8, (0xff : UInt8) >>> UInt8.ofNat u.val &&& (0x80 >>> UInt8.ofNat k.val) =
      if u.val ≤ k.val then (0x80 : UInt8) >>> UInt8.ofNat k.val else 0 := by decide
  exact h ⟨used, hused⟩ ⟨i % 8, Nat.mod_lt _ (by decide)⟩

theorem and_mask_eq_zero {bits : Bytes} {i : Nat} :
    bits.getD (i / 8) 0 &&& mask i = 0 ↔ bit bits i = false := by
  simp [bit]

/-- Below the mask, the last byte has the bits past the last chunk. -/
theorem last_byte_clear {bits : Bytes} {k used : Nat} (hused : used < 8) :
    bits.getD k 0 &&& (0xff : UInt8) >>> UInt8.ofNat used = 0 ↔
      ∀ i, 8 * k + used ≤ i → i < 8 * k + 8 → bit bits i = false := by
  constructor
  · intro h i hi hlt
    have hmask := trailing_mask_and_mask hused i
    rw [if_pos (by omega)] at hmask
    rw [← and_mask_eq_zero, ← hmask, show i / 8 = k by omega, ← UInt8.and_assoc, h]
    exact UInt8.zero_and
  · intro h
    apply byte_eq_of_bits
    intro i hi
    have hmask := trailing_mask_and_mask hused i
    rw [Nat.mod_eq_of_lt hi] at hmask
    have hbyte : (8 * k + i) / 8 = k := by omega
    rw [UInt8.and_assoc, hmask]
    split_ifs with hpast
    · have hbit := and_mask_eq_zero.2 (h (8 * k + i) (by omega) (by omega))
      rw [hbyte, mask_add] at hbit
      rw [hbit, UInt8.zero_and]
    · rw [UInt8.and_zero, UInt8.zero_and]

theorem toNat_used (n : UInt64) : (n % 8).toUInt32.toNat = n.toNat % 8 := by
  rw [UInt64.toNat_toUInt32, UInt64.toNat_mod]
  change n.toNat % 8 % 2 ^ 32 = _
  omega

theorem used_eq_zero {n : UInt64} : (n % 8).toUInt32 = 0 ↔ n.toNat % 8 = 0 := by
  rw [← UInt32.toNat_inj, toNat_used, UInt32.toNat_zero]

theorem getLast_of_used {n : UInt64} {bits : Bytes} (hlen : bits.length = byte_len n)
    (hused : n.toNat % 8 ≠ 0) : bits.getLast? = some (bits.getD (n.toNat / 8) 0) := by
  unfold byte_len at hlen
  rw [List.getLast?_eq_getElem?, show bits.length - 1 = n.toNat / 8 by omega,
    List.getD_eq_getElem?_getD, List.getElem?_eq_getElem (by omega), Option.getD_some]

theorem check_trailing_ne_panicked {n : UInt64} {bits : Bytes} (hlen : bits.length = byte_len n) :
    check_trailing n bits ≠ .error .Panicked := by
  rw [check_trailing]
  by_cases hzero : (n % 8).toUInt32 = 0
  · simp [hzero]
  · rw [if_pos hzero, getLast_of_used hlen (mt used_eq_zero.2 hzero)]
    simp only [expect, bind, Except.bind]
    split_ifs <;> simp

theorem check_trailing_eq_ok {n : UInt64} {bits : Bytes} (hlen : bits.length = byte_len n) :
    check_trailing n bits = .ok () ↔ ∀ i, n.toNat ≤ i → bit bits i = false := by
  have hlast := getLast_of_used hlen
  unfold byte_len at hlen
  rw [check_trailing]
  by_cases hzero : (n % 8).toUInt32 = 0
  · have hmod := used_eq_zero.1 hzero
    simp only [hzero, ne_eq, not_true_eq_false, if_false, true_iff]
    exact fun i hi => bit_of_length_le (by omega)
  · have hmod := mt used_eq_zero.2 hzero
    have hshift : (n % 8).toUInt32.toUInt8 = UInt8.ofNat (n.toNat % 8) := by
      rw [← UInt8.toNat_inj, UInt32.toNat_toUInt8, toNat_used, UInt8.toNat_ofNat']
    have hclear := @last_byte_clear bits (n.toNat / 8) (n.toNat % 8) (Nat.mod_lt _ (by decide))
    -- the bits past the last byte are zero whatever the bytes are
    have hpast : (∀ i, n.toNat ≤ i → bit bits i = false) ↔
        ∀ i, 8 * (n.toNat / 8) + n.toNat % 8 ≤ i → i < 8 * (n.toNat / 8) + 8 →
          bit bits i = false := by
      rw [Nat.div_add_mod]
      constructor
      · exact fun h i hi _ => h i hi
      · intro h i hi
        by_cases hlt : i < 8 * (n.toNat / 8) + 8
        · exact h i hi hlt
        · exact bit_of_length_le (by omega)
    rw [hpast, ← hclear, if_pos hzero, hlast hmod, hshift]
    simp only [expect, bind, Except.bind]
    split_ifs with h <;> simpa using h

theorem count_ones_eq (b : UInt8) :
    count_ones b = (List.range 8).countP fun i => b &&& mask i != 0 := by
  have all : ∀ x : Fin 256, count_ones (UInt8.ofFin x) =
      (List.range 8).countP fun i => UInt8.ofFin x &&& mask i != 0 := by decide +kernel
  exact all b.toFin

theorem bit_cons_add (b : UInt8) (bits : Bytes) (i : Nat) :
    bit (b :: bits) (8 + i) = bit bits i := by
  rw [bit, bit, mask_add 1 i, show (8 + i) / 8 = i / 8 + 1 by omega, List.getD_cons_succ]

theorem count_bits_cons (b : UInt8) (bits : Bytes) :
    count_bits (b :: bits) (8 * (b :: bits).length) =
      count_ones b + count_bits bits (8 * bits.length) := by
  have hfirst : (List.range 8).countP (bit (b :: bits)) = count_ones b := by
    rw [count_ones_eq]
    refine List.countP_congr fun i hi => ?_
    rw [bit, Nat.div_eq_of_lt (List.mem_range.1 hi), List.getD_cons_zero]
  have hrest : (bit (b :: bits) ∘ fun i => 8 + i) = bit bits := funext (bit_cons_add b bits)
  rw [count_bits, List.length_cons, Nat.mul_succ, Nat.add_comm, List.range_add, List.countP_append,
    List.countP_map, hfirst, hrest, count_bits]

theorem count_ones_le (b : UInt8) : count_ones b ≤ 8 := List.countP_le_length

/-- The sum of the counts of the bytes is the number of all bits that are set. -/
theorem foldlM_count_ones {bits : Bytes} {n : UInt64}
    (h : n.toNat + count_bits bits (8 * bits.length) < 2 ^ 64) :
    ∃ total, bits.foldlM (fun n b => checked_add n (.ofNat (count_ones b))) n = some total ∧
      total.toNat = n.toNat + count_bits bits (8 * bits.length) := by
  induction bits generalizing n with
  | nil => exact ⟨n, rfl, rfl⟩
  | cons b bits ih =>
    rw [count_bits_cons] at h ⊢
    have hones := count_ones_le b
    have hb : (UInt64.ofNat (count_ones b)).toNat = count_ones b := by
      rw [UInt64.toNat_ofNat']
      omega
    obtain ⟨hadd, hsum⟩ := checked_add_of_lt (a := n) (b := .ofNat (count_ones b))
      (by rw [hb]; omega)
    obtain ⟨total, hfold, htotal⟩ := ih (n := n + .ofNat (count_ones b)) (by rw [hsum, hb]; omega)
    refine ⟨total, ?_, by rw [htotal, hsum, hb, Nat.add_assoc]⟩
    rw [List.foldlM_cons, hadd]
    exact hfold

theorem count_bits_of_clear {bits : Bytes} {n m : Nat} (hle : n ≤ m)
    (hclear : ∀ i, n ≤ i → bit bits i = false) : count_bits bits m = count_bits bits n := by
  obtain ⟨k, rfl⟩ := Nat.exists_eq_add_of_le hle
  have hrest : ((List.range k).map fun i => n + i).countP (bit bits) = 0 := by
    rw [List.countP_eq_zero]
    intro i hi
    obtain ⟨j, -, rfl⟩ := List.mem_map.1 hi
    simp [hclear (n + j) (by omega)]
  rw [count_bits, List.range_add, List.countP_append, hrest, Nat.add_zero, count_bits]

theorem sum_count_ones {n : UInt64} {bits : Bytes} (hmax : n ≤ MAX_CHUNK_COUNT)
    (hlen : bits.length = byte_len n) (hclear : ∀ i, n.toNat ≤ i → bit bits i = false) :
    ∃ total, bits.foldlM (fun n b => checked_add n (.ofNat (count_ones b))) 0 = some total ∧
      total.toNat = count_bits bits n.toNat := by
  have hn : n.toNat ≤ 2 ^ 32 := UInt64.le_iff_toNat_le.1 hmax
  have hall : n.toNat ≤ 8 * bits.length := by
    rw [hlen, byte_len]
    omega
  have hcount : count_bits bits (8 * bits.length) = count_bits bits n.toNat :=
    count_bits_of_clear hall hclear
  have hle : count_bits bits n.toNat ≤ n.toNat :=
    Nat.le_trans List.countP_le_length (Nat.le_of_eq List.length_range)
  obtain ⟨total, hfold, htotal⟩ := @foldlM_count_ones bits 0
    (by rw [hcount, UInt64.toNat_zero]; omega)
  exact ⟨total, hfold, by rw [htotal, hcount, UInt64.toNat_zero, Nat.zero_add]⟩

/-- Bytes that are read are those of a bitmap, and those of every bitmap are read. -/
theorem from_bytes_eq_ok {n : UInt64} {bits : Bytes} {r : RawBitmap} :
    from_bytes n bits = .ok r ↔
      ∃ b : ChunkBitmap, b.raw = r ∧ b.chunk_count = n ∧ b.bits = bits := by
  unfold from_bytes
  constructor
  · intro h
    split_ifs at h with hmax hlen
    rw [not_not] at hlen
    obtain ⟨⟨⟩, hcheck, h⟩ := bind_eq_ok.1 h
    have hclear := (check_trailing_eq_ok hlen).1 hcheck
    obtain ⟨total, hfold, htotal⟩ := sum_count_ones (UInt64.not_lt.1 hmax) hlen hclear
    rw [hfold] at h
    exact ⟨⟨n, bits, total, UInt64.not_lt.1 hmax, hlen, hclear, htotal⟩, Except.ok.inj h, rfl, rfl⟩
  · rintro ⟨b, rfl, rfl, rfl⟩
    obtain ⟨total, hfold, htotal⟩ := sum_count_ones b.bounded b.length_bits b.trailing
    have hsame : total = b.set_count := UInt64.toNat_inj.1 (htotal.trans b.counted.symm)
    rw [if_neg (UInt64.not_lt.2 b.bounded), if_neg (not_not.2 b.length_bits),
      (check_trailing_eq_ok b.length_bits).2 b.trailing, hfold, hsame]
    rfl

/-! ## Whatever calls have made it -/

theorem on_raw_eq_ok {α β : Type} {f : α → β} {x : Except BitmapError α} {y : β} :
    on_raw f x = .ok y ↔ ∃ a, x = .ok a ∧ f a = y := by
  cases x with
  | error e => simp [on_raw]
  | ok a => simp [on_raw]

theorem Built.exists_raw {r : RawBitmap} (h : r.Built) : ∃ b : ChunkBitmap, b.raw = r := by
  induction h with
  | new h =>
    rw [new_eq] at h
    obtain ⟨b, -, hb⟩ := on_raw_eq_ok.1 h
    exact ⟨b, hb⟩
  | from_bytes h =>
    obtain ⟨b, hb, -⟩ := from_bytes_eq_ok.1 h
    exact ⟨b, hb⟩
  | decode_rle h =>
    rw [decode_rle_eq] at h
    obtain ⟨b, -, hb⟩ := on_raw_eq_ok.1 h
    exact ⟨b, hb⟩
  | set _ h ih =>
    obtain ⟨b, rfl⟩ := ih
    rw [set_raw] at h
    obtain ⟨a, -, ha⟩ := on_raw_eq_ok.1 h
    exact ⟨a.1, congrArg Prod.fst ha⟩

theorem get_raw_eq_ok {b : ChunkBitmap} {index : UInt64} {value : Bool} :
    b.raw.get index = .ok value ↔ index < b.chunk_count ∧ bit b.bits index.toNat = value := by
  rw [get_raw, on_raw_eq_ok, ← ChunkBitmap.get_eq_ok]
  simp

theorem get_raw_eq_true {b : ChunkBitmap} {index : UInt64} :
    b.raw.get index = .ok true ↔ b.Has index :=
  get_raw_eq_ok.trans ⟨And.right, fun h => ⟨h.lt, h⟩⟩

/-- The count that is kept is the number of chunks that `get` finds. -/
theorem set_count_raw (b : ChunkBitmap) : b.set_count.toNat =
    (List.range b.chunk_count.toNat).countP fun i => b.raw.get (.ofNat i) = .ok true := by
  rw [b.counted, count_bits]
  refine List.countP_congr fun i hi => ?_
  rw [decide_eq_true_iff, get_raw_eq_true, b.has_ofNat (List.mem_range.1 hi)]

theorem set_raw_of_lt (b : ChunkBitmap) {index : UInt64} (h : index < b.chunk_count) :
    ∃ b' changed, b.raw.set index = .ok (b'.raw, changed) ∧ b.SetTo index b' changed := by
  obtain ⟨⟨b', changed⟩, hset⟩ := b.set_of_lt h
  refine ⟨b', changed, ?_, ChunkBitmap.set_eq_ok hset⟩
  rw [set_raw, hset]
  rfl

/-- At the other chunks, what was there is there. -/
theorem get_raw_of_setTo {b b' : ChunkBitmap} {index j : UInt64} {changed : Bool}
    (h : b.SetTo index b' changed) (hj : j ≠ index) : b'.raw.get j = b.raw.get j := by
  have hbit : bit b'.bits j.toNat = bit b.bits j.toNat := by
    rw [Bool.eq_iff_iff]
    exact (h.has j).trans (or_iff_right hj)
  rw [get_raw, get_raw, ChunkBitmap.get, ChunkBitmap.get, h.chunk_count, hbit]

/-- Any calls of `new`, `from_bytes`, `decode_rle` and `set` lead to a record with the
length of its chunks, zero bits past them and the count that `get` finds. It is
complete exactly if `get` finds all chunks. A further `set` changes what `get` finds
at its chunk only, and tells if it did. The bytes are read back to the same record. -/
theorem every_built_bitmap_counts_its_chunks {r : RawBitmap} (h : r.Built) :
    r.bits.length = (r.chunk_count.toNat + 7) / 8 ∧
    (∀ i, r.chunk_count.toNat ≤ i → bit r.bits i = false) ∧
    (r.set_count.toNat =
      (List.range r.chunk_count.toNat).countP fun i => r.get (.ofNat i) = .ok true) ∧
    (r.is_complete = true ↔ ∀ i < r.chunk_count, r.get i = .ok true) ∧
    (∀ i < r.chunk_count, ∃ r' changed, r.set i = .ok (r', changed) ∧
      r.get i = .ok (!changed) ∧ r'.get i = .ok true ∧ r'.chunk_count = r.chunk_count ∧
      ∀ j, j ≠ i → r'.get j = r.get j) ∧
    from_bytes r.chunk_count r.as_bytes = .ok r := by
  obtain ⟨b, rfl⟩ := h.exists_raw
  refine ⟨b.length_bits, b.trailing, set_count_raw b, ?_, ?_, from_bytes_eq_ok.2 ⟨b, rfl, rfl, rfl⟩⟩
  · simp only [get_raw_eq_true]
    exact b.is_complete_iff
  · intro i hi
    obtain ⟨b', changed, hset, hto⟩ := set_raw_of_lt b hi
    refine ⟨b'.raw, changed, hset, ?_, get_raw_eq_true.2 ((hto.has i).2 (.inl rfl)),
      hto.chunk_count, fun j hj => get_raw_of_setTo hto hj⟩
    rw [get_raw_eq_ok, Bool.eq_iff_iff, Bool.not_eq_true', ← Bool.not_eq_true, hto.changed_iff,
      not_not]
    exact ⟨hi, Iff.rfl⟩

theorem two_of_twelve_chunks_are_counted :
    Built ⟨12, [0x80, 0x10], 2⟩ ∧
    ((2 : UInt64).toNat = (List.range (12 : UInt64).toNat).countP fun i =>
      get ⟨12, [0x80, 0x10], 2⟩ (.ofNat i) = .ok true) ∧
    from_bytes 12 (as_bytes ⟨12, [0x80, 0x10], 2⟩) = .ok ⟨12, [0x80, 0x10], 2⟩ := by
  have hread : from_bytes 12 [0x80, 0] = .ok ⟨12, [0x80, 0], 1⟩ := by decide
  have hset : set ⟨12, [0x80, 0], 1⟩ 11 = .ok (⟨12, [0x80, 0x10], 2⟩, true) := by decide
  have hbuilt : Built ⟨12, [0x80, 0x10], 2⟩ := .set (.from_bytes hread) hset
  obtain ⟨-, -, hcount, -, -, hsame⟩ := every_built_bitmap_counts_its_chunks hbuilt
  exact ⟨hbuilt, hcount, hsame⟩

/-! ## Panics -/

theorem on_raw_ne_panicked {α β : Type} (f : α → β) (x : Except BitmapError α) :
    on_raw f x ≠ .error .Panicked := by
  cases x <;> simp [on_raw]

theorem from_bytes_ne_panicked (n : UInt64) (bits : Bytes) :
    from_bytes n bits ≠ .error .Panicked := by
  unfold from_bytes
  split_ifs with hmax hlen
  · simp
  · simp
  · rw [not_not] at hlen
    cases hcheck : check_trailing n bits with
    | error e =>
      intro h
      rw [show e = .Panicked from Except.error.inj h] at hcheck
      exact check_trailing_ne_panicked hlen hcheck
    | ok u =>
      have hclear := (check_trailing_eq_ok hlen).1 hcheck
      obtain ⟨total, hfold, -⟩ := sum_count_ones (UInt64.not_lt.1 hmax) hlen hclear
      rw [hfold]
      simp [expect, bind, Except.bind]

/-- No call on a record that calls have made panics, and none that makes one. -/
theorem no_call_panics {r : RawBitmap} (h : r.Built) (n index : UInt64) (bytes : Bytes) :
    new n ≠ .error .Panicked ∧ from_bytes n bytes ≠ .error .Panicked ∧
    decode_rle n bytes ≠ .error .Panicked ∧ r.get index ≠ .error .Panicked ∧
    r.set index ≠ .error .Panicked := by
  obtain ⟨b, rfl⟩ := h.exists_raw
  rw [new_eq, decode_rle_eq, get_raw, set_raw]
  exact ⟨on_raw_ne_panicked _ _, from_bytes_ne_panicked n bytes, on_raw_ne_panicked _ _,
    on_raw_ne_panicked _ _, on_raw_ne_panicked _ _⟩

end RawBitmap

end rtp2_core.bitmap
