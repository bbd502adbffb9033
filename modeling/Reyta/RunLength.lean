-- The run-length encoding of a chunk bitmap: LEB128 lengths of runs that
-- alternate and start with a clear one. What is encoded is decoded to the same
-- bitmap, whatever its bits are.
import Reyta.Bitmap
import Reyta.Bytes
import Reyta.ExactParser

open bit_run byte_string exact_parse

namespace rtp2_core.bitmap

/-! ## LEB128 -/

theorem toNat_shiftRight_seven (value : UInt64) : (value >>> 7).toNat = value.toNat / 128 := by
  rw [UInt64.toNat_shiftRight]
  simp [Nat.shiftRight_eq_div_pow]

/-- Seven bits a byte, the lowest first. Every byte but the last has its high
bit set. -/
def write_leb128 (value : UInt64) : Bytes :=
  let byte := (value &&& 0x7f).toUInt8
  if value >>> 7 ≠ 0 then (byte ||| 0x80) :: write_leb128 (value >>> 7) else [byte]
termination_by value.toNat
decreasing_by
  have hne : (value >>> 7).toNat ≠ 0 := fun h => ‹value >>> 7 ≠ 0› (UInt64.toNat_inj.1 h)
  rw [toNat_shiftRight_seven] at hne ⊢
  omega

/-- The loop of `read_leb128` on the bytes from the position on. The result has
the bytes after the value. `checked_shl` cannot fail below a shift of 64. -/
def read_leb128_loop (result : UInt64) (shift : Nat) : Bytes → Except BitmapError (UInt64 × Bytes)
  | [] => .error .Truncated
  | byte :: rest =>
    if shift ≥ 64 then .error .RunOverflow
    else
      let result := result ||| (byte &&& 0x7f).toUInt64 <<< UInt64.ofNat shift
      if byte &&& 0x80 = 0 then
        -- a last byte of zero would give two encodings of one value
        if byte = 0 ∧ shift ≠ 0 then .error .RunOverflow else .ok (result, rest)
      else read_leb128_loop result (shift + 7) rest

def read_leb128 (input : Bytes) : Except BitmapError (UInt64 × Bytes) := read_leb128_loop 0 0 input

theorem read_leb128_loop_length {result v : UInt64} {shift : Nat} {input rest : Bytes}
    (h : read_leb128_loop result shift input = .ok (v, rest)) : rest.length < input.length := by
  induction input generalizing result shift with
  | nil => cases h
  | cons byte input ih =>
    rw [read_leb128_loop] at h
    rw [List.length_cons]
    split_ifs at h
    · cases h
      omega
    · have := ih h
      omega

/-! ## What a byte carries -/

theorem low_bits (value : UInt64) : ((value &&& 0x7f).toUInt8).toNat = value.toNat % 128 := by
  rw [UInt64.toNat_toUInt8, UInt64.toNat_and, show (0x7f : UInt64).toNat = 2 ^ 7 - 1 from rfl,
    Nat.and_two_pow_sub_one_eq_mod]
  omega

theorem last_byte {b : UInt8} (h : b.toNat < 128) : b &&& 0x80 = 0 ∧ b &&& 0x7f = b := by
  have all : ∀ i : Fin 128, UInt8.ofNat i.val &&& 0x80 = 0 ∧
      UInt8.ofNat i.val &&& 0x7f = UInt8.ofNat i.val := by decide
  simpa using all ⟨b.toNat, h⟩

theorem first_byte {b : UInt8} (h : b.toNat < 128) :
    (b ||| 0x80) &&& 0x80 ≠ 0 ∧ (b ||| 0x80) &&& 0x7f = b := by
  have all : ∀ i : Fin 128, (UInt8.ofNat i.val ||| 0x80) &&& 0x80 ≠ 0 ∧
      (UInt8.ofNat i.val ||| 0x80) &&& 0x7f = UInt8.ofNat i.val := by decide
  simpa using all ⟨b.toNat, h⟩

theorem toNat_low (b : UInt8) : (b &&& 0x7f).toNat = b.toNat % 128 := by
  rw [UInt8.toNat_and, show (0x7f : UInt8).toNat = 2 ^ 7 - 1 from rfl,
    Nat.and_two_pow_sub_one_eq_mod]

theorem high_eq_zero {b : UInt8} : b &&& 0x80 = 0 ↔ b.toNat < 128 := by
  have all : ∀ x : Fin 256, UInt8.ofFin x &&& 0x80 = 0 ↔ x.val < 128 := by decide +kernel
  exact all b.toFin

/-- A byte with its high bit is made from its other bits. -/
theorem or_continue {b byte : UInt8} (h : 128 ≤ byte.toNat) (hlow : b.toNat = byte.toNat % 128) :
    b ||| 0x80 = byte := by
  have all : ∀ i : Fin 128, UInt8.ofNat i.val ||| 0x80 = UInt8.ofNat (i.val + 128) := by
    decide +kernel
  have hbyte := byte.toNat_lt
  have hb := all ⟨b.toNat, by omega⟩
  rw [UInt8.ofNat_toNat] at hb
  rw [hb, ← UInt8.toNat_inj, UInt8.toNat_ofNat']
  simp only
  omega

theorem write_of_lt {value : UInt64} (h : value.toNat < 128) :
    write_leb128 value = [(value &&& 0x7f).toUInt8] := by
  have hlast : value >>> 7 = 0 := by
    rw [← UInt64.toNat_inj, toNat_shiftRight_seven, UInt64.toNat_zero]
    omega
  rw [write_leb128, if_neg (not_not.2 hlast)]

theorem write_of_ge {value : UInt64} (h : 128 ≤ value.toNat) :
    write_leb128 value = ((value &&& 0x7f).toUInt8 ||| 0x80) :: write_leb128 (value >>> 7) := by
  have hmore : value >>> 7 ≠ 0 := by
    rw [Ne, ← UInt64.toNat_inj, toNat_shiftRight_seven, UInt64.toNat_zero]
    omega
  rw [write_leb128, if_pos hmore]

theorem two_pow_add_seven (shift : Nat) : 2 ^ (shift + 7) = 128 * 2 ^ shift := by
  rw [Nat.pow_add, Nat.mul_comm]

theorem two_pow_split {shift : Nat} (hs : shift < 64) : 2 ^ 64 = 2 ^ (64 - shift) * 2 ^ shift := by
  rw [← Nat.pow_add]
  congr 1
  omega

theorem add_shifted_lt {a b shift : Nat} (hs : shift < 64) (ha : a < 2 ^ shift)
    (hb : b < 2 ^ (64 - shift)) : a + b * 2 ^ shift < 2 ^ 64 := by
  have hle := Nat.mul_le_mul_right (2 ^ shift) (Nat.succ_le_of_lt hb)
  rw [Nat.succ_mul, ← two_pow_split hs] at hle
  omega

/-- Bits are added above the ones that are there, and those that do not fit are
dropped. -/
theorem toNat_or_shiftLeft_mod {result : UInt64} {shift : Nat} (b : UInt8) (hs : shift < 64)
    (hr : result.toNat < 2 ^ shift) :
    (result ||| b.toUInt64 <<< UInt64.ofNat shift).toNat =
      (result.toNat + b.toNat * 2 ^ shift) % 2 ^ 64 := by
  have hshift : (UInt64.ofNat shift).toNat % 64 = shift := by
    rw [UInt64.toNat_ofNat']
    omega
  have hkept : b.toNat * 2 ^ shift % 2 ^ 64 = b.toNat % 2 ^ (64 - shift) * 2 ^ shift := by
    rw [two_pow_split hs, Nat.mul_mod_mul_right]
  have hfits := add_shifted_lt hs hr (Nat.mod_lt b.toNat (Nat.two_pow_pos (64 - shift)))
  rw [UInt64.toNat_or, UInt64.toNat_shiftLeft, hshift, UInt8.toNat_toUInt64, Nat.shiftLeft_eq,
    ← Nat.add_mod_mod, hkept, Nat.mod_eq_of_lt hfits, Nat.or_comm, Nat.mul_comm,
    ← Nat.two_pow_add_eq_or_of_lt hr, Nat.add_comm]

theorem toNat_or_shiftLeft {result : UInt64} {b : UInt8} {shift : Nat} (hs : shift < 64)
    (hr : result.toNat < 2 ^ shift) (hb : b.toNat * 2 ^ shift < 2 ^ 64) :
    (result ||| b.toUInt64 <<< UInt64.ofNat shift).toNat = result.toNat + b.toNat * 2 ^ shift := by
  rw [two_pow_split hs] at hb
  rw [toNat_or_shiftLeft_mod b hs hr,
    Nat.mod_eq_of_lt (add_shifted_lt hs hr (Nat.lt_of_mul_lt_mul_right hb))]

theorem read_leb128_loop_write {result value : UInt64} {shift : Nat} (rest : Bytes)
    (hs : shift < 64) (hr : result.toNat < 2 ^ shift) (hv : value.toNat * 2 ^ shift < 2 ^ 64)
    (hmin : shift ≠ 0 → value ≠ 0) :
    ∃ v, read_leb128_loop result shift (write_leb128 value ++ rest) = .ok (v, rest) ∧
      v.toNat = result.toNat + value.toNat * 2 ^ shift := by
  -- along the bytes of the value, with the bits read so far below the shift
  induction hn : value.toNat using Nat.strongRecOn generalizing value result shift with
  | ind n ih =>
    subst hn
    have hlow := low_bits value
    have hbyte : ((value &&& 0x7f).toUInt8).toNat < 128 := by omega
    have hpow : 0 < 2 ^ shift := Nat.two_pow_pos shift
    by_cases hsmall : value.toNat < 128
    · obtain ⟨hend, hsame⟩ := last_byte hbyte
      have hvalue : ((value &&& 0x7f).toUInt8).toNat = value.toNat := by omega
      have hnonzero : ¬ ((value &&& 0x7f).toUInt8 = 0 ∧ shift ≠ 0) := by
        rintro ⟨hzero, hpos⟩
        apply hmin hpos
        apply UInt64.toNat_inj.1
        rw [← hvalue, hzero]
        rfl
      have hsum := toNat_or_shiftLeft hs hr (b := (value &&& 0x7f).toUInt8) (by rwa [hvalue])
      rw [write_of_lt hsmall]
      simp only [List.singleton_append, read_leb128_loop, hsame, hend, if_true, if_neg hnonzero,
        if_neg (Nat.not_le.2 hs)]
      exact ⟨_, rfl, by rw [hsum, hvalue]⟩
    · obtain ⟨hmark, hsame⟩ := first_byte hbyte
      have hrest := toNat_shiftRight_seven value
      have hnz : 0 < value.toNat / 128 := by omega
      have hpart : ((value &&& 0x7f).toUInt8).toNat * 2 ^ shift < 2 ^ 64 := by
        refine Nat.lt_of_le_of_lt (Nat.mul_le_mul_right _ ?_) hv
        omega
      have hsum := toNat_or_shiftLeft hs hr hpart
      have hshift := two_pow_add_seven shift
      have hlast : shift + 7 < 64 := by
        refine (Nat.pow_lt_pow_iff_right (show 1 < 2 by decide)).1 (Nat.lt_of_le_of_lt ?_ hv)
        rw [hshift]
        exact Nat.mul_le_mul_right _ (by omega)
      have hbelow : ((value &&& 0x7f).toUInt8).toNat * 2 ^ shift ≤ 127 * 2 ^ shift :=
        Nat.mul_le_mul_right _ (by omega)
      have hsplit : value.toNat * 2 ^ shift =
          ((value &&& 0x7f).toUInt8).toNat * 2 ^ shift + (value >>> 7).toNat * 2 ^ (shift + 7) := by
        rw [hshift, ← Nat.mul_assoc, ← Nat.add_mul, hlow, hrest]
        congr 1
        omega
      have hmore : value >>> 7 ≠ 0 := by
        rw [Ne, ← UInt64.toNat_inj, hrest, UInt64.toNat_zero]
        omega
      obtain ⟨v, hread, hval⟩ := ih (value >>> 7).toNat (by omega) hlast
        (by rw [hsum, hshift]; omega) (by omega) (fun _ => hmore) rfl
      rw [write_of_ge (Nat.not_lt.1 hsmall)]
      simp only [List.cons_append, read_leb128_loop, hsame, hmark, if_false,
        if_neg (Nat.not_le.2 hs)]
      exact ⟨v, hread, by rw [hval, hsum, hsplit]; omega⟩

theorem read_leb128_write (value : UInt64) (rest : Bytes) :
    read_leb128 (write_leb128 value ++ rest) = .ok (value, rest) := by
  have hvalue := value.toNat_lt
  obtain ⟨v, hread, hv⟩ := @read_leb128_loop_write 0 value 0 rest (by decide) (by decide)
    (by omega) (fun h => absurd rfl h)
  have hsame : v = value := by
    apply UInt64.toNat_inj.1
    rw [hv, UInt64.toNat_zero]
    omega
  rw [read_leb128, hread, hsame]

theorem write_leb128_ne_nil (value : UInt64) : write_leb128 value ≠ [] := by
  rw [write_leb128]
  split_ifs <;> simp

/-- A number is written with no more bytes than it counts. -/
theorem length_write_leb128_le (value : UInt64) :
    (write_leb128 value).length ≤ max 1 value.toNat := by
  fun_induction write_leb128 value with
  | case1 value byte hmore ih =>
    have hne : (value >>> 7).toNat ≠ 0 := fun h => hmore (UInt64.toNat_inj.1 h)
    rw [toNat_shiftRight_seven] at hne ih
    rw [List.length_cons]
    omega
  | case2 value byte hlast => simp

namespace ChunkBitmap

/-! ## Encoding -/

/-- The loop of `encode_rle`. A turn at a bit of the other kind writes an empty
run and does not advance. -/
def encode_rle_loop (has : Nat → Bool) (chunk_count index : Nat) (expect_set : Bool) : Bytes :=
  if index < chunk_count then
    if has index ≠ expect_set then
      write_leb128 0 ++ encode_rle_loop has chunk_count index (!expect_set)
    else
      let stop := run_end has chunk_count (has index) index
      write_leb128 (.ofNat (stop - index)) ++ encode_rle_loop has chunk_count stop (!expect_set)
  else []
termination_by 2 * (chunk_count - index) + if has index = expect_set then 0 else 1
decreasing_by
  · rw [if_pos (Bool.eq_not.2 ‹_›), if_neg ‹_›]
    omega
  · have hstop := (run_end_spec (v := has index) (Nat.le_of_lt ‹index < chunk_count›)).lt
      ‹index < chunk_count› rfl
    split_ifs <;> omega

def encode_rle (b : ChunkBitmap) : Bytes :=
  encode_rle_loop (bit b.bits) b.chunk_count.toNat 0 false

/-- The bytes of the lengths of runs. -/
def write_runs (l : List Nat) : Bytes := l.flatMap fun k => write_leb128 (.ofNat k)

/-- The loop writes the lengths of runs. None of them is zero if the first bit is
of the kind that is expected, and otherwise only the first one is. -/
theorem encode_rle_loop_spells (has : Nat → Bool) (v : Bool) {n i : Nat} (hi : i ≤ n) :
    ∃ l, Spells has n i v l ∧ encode_rle_loop has n i v = write_runs l ∧
      ((i < n → has i = v) → ∀ k ∈ l, 0 < k) ∧ ∀ k ∈ l.tail, 0 < k := by
  induction i, v using encode_rle_loop.induct has n with
  | case1 i v hlt hne ih =>
    obtain ⟨l, hl, he, hpos, -⟩ := ih hi
    refine ⟨(i - i) :: l, .cons (Nat.le_refl i) (fun j _ _ => by omega) hl, ?_, ?_, ?_⟩
    · rw [encode_rle_loop, if_pos hlt]
      simp only [if_pos hne, he, Nat.sub_self]
      rfl
    · exact fun hsame => absurd (hsame hlt) hne
    · exact hpos fun _ => Bool.eq_not.2 hne
  | case2 i v hlt heq stop ih =>
    have hend : EndsAt has n (has i) i stop := run_end_spec hi
    obtain ⟨l, hl, he, hpos, -⟩ := ih hend.le_bound
    rw [not_not] at heq
    have hfirst := hend.lt hlt rfl
    -- the bit after the run is of the other kind
    have hrest : ∀ k ∈ l, 0 < k := hpos fun hstop => Bool.eq_not.2 (heq ▸ hend.stop hstop)
    refine ⟨(stop - i) :: l, .cons hend.le (fun j hj hlt => ?_) hl, ?_, ?_, hrest⟩
    · rw [← heq]
      exact hend.run j hj hlt
    · rw [encode_rle_loop, if_pos hlt]
      simp only [if_neg (not_not.2 heq)]
      rw [he]
      rfl
    · exact fun _ => List.forall_mem_cons.2 ⟨Nat.sub_pos_of_lt hfirst, hrest⟩
  | case3 i v hge =>
    obtain rfl : i = n := by omega
    refine ⟨[], .nil v, ?_, by simp, by simp⟩
    rw [encode_rle_loop, if_neg hge]
    rfl

theorem length_encode_rle_loop_le (has : Nat → Bool) (v : Bool) {n i : Nat} (hn : n < 2 ^ 64)
    (hi : i ≤ n) : (encode_rle_loop has n i v).length ≤
      n - i + if i < n ∧ has i ≠ v then 1 else 0 := by
  induction i, v using encode_rle_loop.induct has n with
  | case1 i v hlt hne ih =>
    have hrest := ih hi
    rw [if_neg fun h => h.2 (Bool.eq_not.2 hne)] at hrest
    have hzero : (write_leb128 0).length = 1 := by
      rw [write_leb128]
      rfl
    rw [encode_rle_loop, if_pos hlt, if_pos hne, if_pos ⟨hlt, hne⟩, List.length_append, hzero]
    omega
  | case2 i v hlt heq stop ih =>
    have hend : EndsAt has n (has i) i stop := run_end_spec hi
    have hpos := hend.lt hlt rfl
    have hbound := hend.le_bound
    have hrest := ih hbound
    -- the run that follows has the kind that is expected
    rw [if_neg fun h => h.2 (Bool.eq_not.2 (not_not.1 heq ▸ hend.stop h.1))] at hrest
    have hwrite := length_write_leb128_le (.ofNat (stop - i))
    rw [UInt64.toNat_ofNat', Nat.mod_eq_of_lt (by omega)] at hwrite
    rw [encode_rle_loop, if_pos hlt, if_neg heq, List.length_append]
    change (write_leb128 (.ofNat (stop - i))).length + (encode_rle_loop has n stop (!v)).length ≤ _
    omega
  | case3 i v hge =>
    rw [encode_rle_loop, if_neg hge]
    exact Nat.zero_le _

/-- A byte for each chunk is enough, and one more. -/
theorem length_encode_rle_le (b : ChunkBitmap) :
    b.encode_rle.length ≤ b.chunk_count.toNat + 1 := by
  have hloop := length_encode_rle_loop_le (bit b.bits) false b.chunk_count.toNat_lt (Nat.zero_le _)
  refine Nat.le_trans hloop ?_
  split_ifs <;> omega

/-! ## Decoding -/

/-- `for i in index..index + run` with its `set`. -/
def set_run (b : ChunkBitmap) (index : UInt64) : Nat → Except BitmapError ChunkBitmap
  | 0 => .ok b
  | run + 1 => do
    let (b, _) ← b.set index
    set_run b (index + 1) run

/-- The loop of `decode_rle` on the bytes from the position on. -/
def decode_rle_loop (chunk_count : UInt64) (bitmap : ChunkBitmap) (index : UInt64) (is_set : Bool)
    (encoded : Bytes) : Except BitmapError ChunkBitmap :=
  if encoded = [] then
    if index ≠ chunk_count then .error .RunOverflow else .ok bitmap
  else
    match _h : read_leb128 encoded with
    | .error e => .error e
    | .ok (run, rest) =>
      if run > chunk_count - index then .error .RunOverflow
      else
        match if is_set then bitmap.set_run index run.toNat else .ok bitmap with
        | .error e => .error e
        | .ok bitmap => decode_rle_loop chunk_count bitmap (index + run) (!is_set) rest
termination_by encoded.length
decreasing_by exact read_leb128_loop_length ‹_›

def decode_rle (chunk_count : UInt64) (encoded : Bytes) : Except BitmapError ChunkBitmap :=
  if chunk_count > MAX_CHUNK_COUNT then .error .TooLarge
  else
    match new chunk_count with
    | .error e => .error e
    | .ok bitmap => decode_rle_loop chunk_count bitmap 0 false encoded

theorem set_run_count {b b' : ChunkBitmap} {index : UInt64} {run : Nat}
    (h : b.set_run index run = .ok b') : b'.chunk_count = b.chunk_count := by
  induction run generalizing b index with
  | zero =>
    cases h
    rfl
  | succ run ih =>
    rw [set_run] at h
    obtain ⟨⟨b₁, changed⟩, hset, h⟩ := bind_eq_ok.1 h
    rw [ih h, (set_eq_ok hset).chunk_count]

theorem decode_rle_loop_count {n index : UInt64} {b b' : ChunkBitmap} {is_set : Bool}
    {encoded : Bytes} (h : decode_rle_loop n b index is_set encoded = .ok b') :
    b'.chunk_count = b.chunk_count := by
  fun_induction decode_rle_loop n b index is_set encoded with
  | case1 => cases h
  | case2 =>
    cases h
    rfl
  | case3 => cases h
  | case4 => cases h
  | case5 => cases h
  | case6 b index is_set encoded hne run rest hread hfits b₁ hset ih =>
    rw [ih h]
    cases is_set with
    | true => exact set_run_count hset
    | false =>
      cases hset
      rfl

theorem decode_rle_count {n : UInt64} {encoded : Bytes} {b : ChunkBitmap}
    (h : decode_rle n encoded = .ok b) : b.chunk_count = n := by
  unfold decode_rle at h
  split_ifs at h
  split at h
  · cases h
  · next hnew => rw [decode_rle_loop_count h, (new_eq_ok hnew).1]

theorem toNat_ofNat_le {n : UInt64} {i : Nat} (hi : i ≤ n.toNat) : (UInt64.ofNat i).toNat = i := by
  have hn := n.toNat_lt
  rw [UInt64.toNat_ofNat']
  omega

theorem set_run_spec {n : UInt64} {k i : Nat} {b : ChunkBitmap} (hcount : b.chunk_count = n)
    (hi : i + k ≤ n.toNat) :
    ∃ b', b.set_run (.ofNat i) k = .ok b' ∧ b'.chunk_count = n ∧
      ∀ j < n.toNat, bit b'.bits j = (decide (i ≤ j ∧ j < i + k) || bit b.bits j) := by
  induction k generalizing i b with
  | zero => exact ⟨b, rfl, hcount, fun j _ => by simp⟩
  | succ k ih =>
    have hi64 : (UInt64.ofNat i).toNat = i := toNat_ofNat_le (n := n) (by omega)
    have hlt : UInt64.ofNat i < b.chunk_count := by
      rw [hcount, UInt64.lt_iff_toNat_lt, hi64]
      omega
    obtain ⟨⟨b₁, changed⟩, hset⟩ := b.set_of_lt hlt
    have hto := set_eq_ok hset
    obtain ⟨b', hrun, hcount', hbits⟩ := ih (hto.chunk_count.trans hcount)
      (show i + 1 + k ≤ n.toNat by omega)
    refine ⟨b', ?_, hcount', ?_⟩
    · rw [set_run, hset]
      rw [UInt64.ofNat_add] at hrun
      exact hrun
    · intro j hj
      rw [hbits j hj, hto.bit j (by rw [hcount]; exact hj), hi64, Bool.eq_iff_iff]
      simp only [Bool.or_eq_true, decide_eq_true_eq]
      rw [← or_assoc]
      exact or_congr_left (by omega)

/-- Runs that spell the bits are decoded to a bitmap with these bits. -/
theorem decode_rle_loop_of_spells {has : Nat → Bool} {n : UInt64} {i : Nat} {v : Bool}
    {l : List Nat} (hl : Spells has n.toNat i v l) {b : ChunkBitmap} (hcount : b.chunk_count = n)
    (hbits : ∀ j < n.toNat, bit b.bits j = (decide (j < i) && has j)) :
    ∃ b', decode_rle_loop n b (.ofNat i) v (write_runs l) = .ok b' ∧ b'.chunk_count = n ∧
      ∀ j < n.toNat, bit b'.bits j = has j := by
  generalize hN : n.toNat = N at hl
  induction hl generalizing b with
  | nil v =>
    subst hN
    refine ⟨b, ?_, hcount, fun j hj => ?_⟩
    · rw [decode_rle_loop]
      simp [write_runs]
    · simp [hbits j hj, hj]
  | @cons i e v l hle hrun hrest ih =>
    subst hN
    have hbound := hrest.le
    have hrun64 : (UInt64.ofNat (e - i)).toNat = e - i := toNat_ofNat_le (n := n) (by omega)
    have hi64 : (UInt64.ofNat i).toNat = i := toNat_ofNat_le (n := n) (by omega)
    have hi_le : UInt64.ofNat i ≤ n := by
      rw [UInt64.le_iff_toNat_le, hi64]
      omega
    have hfits : ¬ UInt64.ofNat (e - i) > n - .ofNat i := by
      rw [gt_iff_lt, UInt64.not_lt, UInt64.le_iff_toNat_le, UInt64.toNat_sub_of_le _ _ hi_le,
        hrun64, hi64]
      omega
    have hnext : UInt64.ofNat i + .ofNat (e - i) = .ofNat e := by
      rw [← UInt64.ofNat_add, Nat.add_sub_cancel' hle]
    -- the run of set bits is set, and a run of clear bits changes nothing
    obtain ⟨b₁, hset, hcount₁, hbits₁⟩ : ∃ b₁,
        (if v then b.set_run (.ofNat i) (e - i) else .ok b) = .ok b₁ ∧ b₁.chunk_count = n ∧
          ∀ j < n.toNat, bit b₁.bits j = (decide (j < e) && has j) := by
      have hbit : ∀ j, i ≤ j ∧ j < e → has j = v := fun j hj => hrun j hj.1 hj.2
      cases v with
      | true =>
        obtain ⟨b₁, hset, hcount₁, hbits₁⟩ := set_run_spec hcount
          (show i + (e - i) ≤ n.toNat by omega)
        refine ⟨b₁, hset, hcount₁, fun j hj => ?_⟩
        rw [hbits₁ j hj, hbits j hj]
        grind
      | false =>
        refine ⟨b, rfl, hcount, fun j hj => ?_⟩
        rw [hbits j hj]
        grind
    obtain ⟨b', hloop, hcount', hbits'⟩ := ih hcount₁ hbits₁
    refine ⟨b', ?_, hcount', hbits'⟩
    have hcons : write_runs ((e - i) :: l) = write_leb128 (.ofNat (e - i)) ++ write_runs l := rfl
    have hne : write_runs ((e - i) :: l) ≠ [] := by
      rw [hcons]
      simp [write_leb128_ne_nil]
    have hread := read_leb128_write (.ofNat (e - i)) (write_runs l)
    rw [← hcons] at hread
    rw [decode_rle_loop, if_neg hne]
    split
    · next he => cases hread.symm.trans he
    · next run rest he =>
      obtain ⟨rfl, rfl⟩ := Prod.mk.inj (Except.ok.inj (hread.symm.trans he))
      rw [if_neg hfits, hrun64, hset, hnext]
      exact hloop

/-- What was encoded is decoded to the same bitmap. -/
theorem decode_rle_encode_rle (b : ChunkBitmap) :
    decode_rle b.chunk_count b.encode_rle = .ok b := by
  obtain ⟨l, hl, hwrite, -⟩ := encode_rle_loop_spells (bit b.bits) false
    (Nat.zero_le b.chunk_count.toNat)
  have hbound : ¬ b.chunk_count > MAX_CHUNK_COUNT := UInt64.not_lt.2 b.bounded
  unfold decode_rle encode_rle
  rw [if_neg hbound, hwrite]
  split
  · next hnew =>
    rw [new, dif_neg hbound] at hnew
    cases hnew
  · next empty hnew =>
    obtain ⟨hcount, hempty⟩ := new_eq_ok hnew
    obtain ⟨b', hloop, hcount', hbits⟩ := decode_rle_loop_of_spells hl hcount fun j hj => by
      have hnone := mt (empty.has_ofNat (by rw [hcount]; exact hj)).2 (hempty (.ofNat j))
      simpa using hnone
    rw [show b' = b from ext_has hcount' fun i hi => hbits i (by rw [← hcount']; exact hi)] at hloop
    exact hloop

/-- What is encoded is decoded to the same bitmap. It is the lengths of the runs of
bits, and no length but the first can be zero. -/
theorem rle_is_read_back_and_only_its_first_run_can_be_empty (b : ChunkBitmap) :
    decode_rle b.chunk_count b.encode_rle = .ok b ∧
    ∃ l : List UInt64, b.encode_rle = l.flatMap write_leb128 ∧
      Spells (bit b.bits) b.chunk_count.toNat 0 false (l.map UInt64.toNat) ∧
      ∀ k ∈ l.tail, k ≠ 0 := by
  refine ⟨b.decode_rle_encode_rle, ?_⟩
  obtain ⟨l, hl, hwrite, -, hpos⟩ := encode_rle_loop_spells (bit b.bits) false
    (Nat.zero_le b.chunk_count.toNat)
  have htoNat : ∀ k ∈ l, (UInt64.ofNat k).toNat = k := fun k hk => toNat_ofNat_le (hl.mem_le hk)
  refine ⟨l.map UInt64.ofNat, ?_, ?_, ?_⟩
  · rw [encode_rle, hwrite, write_runs, List.flatMap_map]
  · have hsame : (l.map UInt64.ofNat).map UInt64.toNat = l := by
      rw [List.map_map]
      exact (List.map_congr_left htoNat).trans (List.map_id l)
    rw [hsame]
    exact hl
  · intro k hk
    rw [← List.map_tail] at hk
    obtain ⟨j, hj, rfl⟩ := List.mem_map.1 hk
    have hj64 := htoNat j (List.mem_of_mem_tail hj)
    intro hzero
    rw [hzero, UInt64.toNat_zero] at hj64
    exact absurd (hpos j hj) (by omega)

/-- A bitmap in which every bit differs from the next takes a byte for each
chunk. -/
theorem le_length_encode_rle {b : ChunkBitmap}
    (h : ∀ j, j + 1 < b.chunk_count.toNat → bit b.bits j ≠ bit b.bits (j + 1)) :
    b.chunk_count.toNat ≤ b.encode_rle.length := by
  obtain ⟨l, hl, hwrite, -⟩ := encode_rle_loop_spells (bit b.bits) false
    (Nat.zero_le b.chunk_count.toNat)
  rw [encode_rle, hwrite]
  refine Nat.le_trans (hl.le_length h) ?_
  clear hl hwrite
  induction l with
  | nil => exact Nat.zero_le _
  | cons k l ih =>
    have hpos := List.length_pos_iff.2 (write_leb128_ne_nil (.ofNat k))
    simp only [write_runs, List.flatMap_cons, List.length_append, List.length_cons] at ih ⊢
    omega

end ChunkBitmap

end rtp2_core.bitmap
