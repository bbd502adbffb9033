-- Which bytes `read_leb128` takes for a number. Its shift drops what does not fit
-- into 64 bits, and only the tenth byte can have such bits. Apart from these, the
-- bytes are the ones that `write_leb128` writes.
import Reyta.RunLength

open byte_string

namespace rtp2_core.bitmap

/-! ## The number that bytes stand for -/

/-- Seven bits a byte, the lowest first. -/
def leb_value : Bytes → Nat
  | [] => 0
  | byte :: bytes => byte.toNat % 128 + 128 * leb_value bytes

/-- All bytes but the last have their high bit set, and the last one of several is
not zero. -/
inductive Numeral : Bytes → Prop
  | last {byte : UInt8} (h : byte.toNat < 128) : Numeral [byte]
  | more {byte : UInt8} {bytes : Bytes} (h : 128 ≤ byte.toNat) (hrest : Numeral bytes)
      (hzero : bytes ≠ [0]) : Numeral (byte :: bytes)

theorem byte_eq_zero {byte : UInt8} : byte.toNat = 0 ↔ byte = 0 := by
  rw [← UInt8.toNat_inj]
  rfl

theorem leb_value_append (l l' : Bytes) :
    leb_value (l ++ l') = leb_value l + 2 ^ (7 * l.length) * leb_value l' := by
  induction l with
  | nil => simp [leb_value]
  | cons byte l ih =>
    rw [List.cons_append, leb_value, ih, leb_value, List.length_cons, Nat.mul_succ,
      two_pow_add_seven, Nat.mul_add, ← Nat.mul_assoc, Nat.add_assoc]

theorem leb_value_lt (l : Bytes) : leb_value l < 2 ^ (7 * l.length) := by
  induction l with
  | nil => simp [leb_value]
  | cons byte l ih =>
    have hmod := Nat.mod_lt byte.toNat (show 128 > 0 by decide)
    rw [leb_value, List.length_cons, Nat.mul_succ, two_pow_add_seven]
    omega

namespace Numeral

theorem pos {l : Bytes} (h : Numeral l) (hzero : l ≠ [0]) : 0 < leb_value l := by
  induction h with
  | @last byte hlt =>
    have hne : byte.toNat ≠ 0 := fun h => hzero (by rw [byte_eq_zero.1 h])
    simp only [leb_value]
    omega
  | more hge hrest hzero' ih =>
    have := ih hzero'
    simp only [leb_value]
    omega

theorem split {l : Bytes} (h : Numeral l) :
    ∃ init last, l = init ++ [last] ∧ last.toNat < 128 ∧ (init ≠ [] → last ≠ 0) := by
  induction h with
  | last hlt => exact ⟨[], _, rfl, hlt, fun h => absurd rfl h⟩
  | @more byte bytes hge hrest hzero ih =>
    obtain ⟨init, last, rfl, hlt, hne⟩ := ih
    refine ⟨byte :: init, last, rfl, hlt, fun _ => ?_⟩
    cases init with
    | nil =>
      rintro rfl
      exact hzero rfl
    | cons b init => exact hne (List.cons_ne_nil _ _)

/-- Up to ten bytes fit into 64 bits, unless the tenth is more than one. -/
theorem value_lt_iff {l : Bytes} (h : Numeral l) (hlen : l.length ≤ 10) :
    leb_value l < 2 ^ 64 ↔ l.length ≤ 9 ∨ l[9]? = some 1 := by
  obtain ⟨init, last, rfl, hlt, hne⟩ := h.split
  rw [List.length_append, List.length_singleton] at hlen ⊢
  by_cases hshort : init.length + 1 ≤ 9
  · have hvalue := leb_value_lt (init ++ [last])
    rw [List.length_append, List.length_singleton] at hvalue
    have hpow : 2 ^ (7 * (init.length + 1)) ≤ 2 ^ 63 := Nat.pow_le_pow_right (by decide) (by omega)
    simp only [hshort, true_or, iff_true]
    omega
  · have hnine : init.length = 9 := by omega
    have hinit := leb_value_lt init
    have hlast : last.toNat ≠ 0 := mt byte_eq_zero.1 (hne (by rintro rfl; cases hnine))
    have hget : (init ++ [last])[9]? = some last := by
      rw [← hnine, List.getElem?_concat_length]
    have hone : last = 1 ↔ last.toNat = 1 := by
      rw [← UInt8.toNat_inj]
      rfl
    rw [leb_value_append, hget, Option.some.injEq, hone]
    simp only [leb_value, hnine] at hinit ⊢
    omega

/-- A number of 64 bits has no other numeral than the one that is written. -/
theorem eq_write {l : Bytes} (h : Numeral l) (hlt : leb_value l < 2 ^ 64) :
    l = write_leb128 (.ofNat (leb_value l)) := by
  induction h with
  | @last byte hbyte =>
    have hvalue : leb_value [byte] = byte.toNat := by
      simp only [leb_value]
      omega
    rw [hvalue] at hlt ⊢
    have h64 : (UInt64.ofNat byte.toNat).toNat = byte.toNat := UInt64.toNat_ofNat_of_lt' hlt
    rw [write_of_lt (by rwa [h64])]
    congr 1
    rw [← UInt8.toNat_inj, low_bits, h64]
    omega
  | @more byte bytes hge hrest hzero ih =>
    have hpos := hrest.pos hzero
    have h64 : (UInt64.ofNat (leb_value (byte :: bytes))).toNat = leb_value (byte :: bytes) :=
      UInt64.toNat_ofNat_of_lt' hlt
    rw [leb_value] at hlt h64 ⊢
    have hnext : UInt64.ofNat (byte.toNat % 128 + 128 * leb_value bytes) >>> 7 =
        .ofNat (leb_value bytes) := by
      rw [← UInt64.toNat_inj, toNat_shiftRight_seven, h64,
        UInt64.toNat_ofNat_of_lt' (by change _ < 2 ^ 64; omega)]
      omega
    rw [write_of_ge (by omega), hnext, ← ih (by omega)]
    congr 1
    refine (or_continue hge ?_).symm
    rw [low_bits, h64]
    omega

end Numeral

theorem leb_value_write (value : UInt64) : leb_value (write_leb128 value) = value.toNat := by
  fun_induction write_leb128 value with
  | case1 value byte hmore ih =>
    have hlow : byte.toNat = value.toNat % 128 := low_bits value
    have hbyte : byte.toNat < 128 := by omega
    have hpart : (byte ||| 0x80).toNat % 128 = byte.toNat := by
      rw [← toNat_low, (first_byte hbyte).2]
    rw [leb_value, ih, toNat_shiftRight_seven, hpart, hlow]
    omega
  | case2 value byte hlast =>
    have hlow : byte.toNat = value.toNat % 128 := low_bits value
    have hzero : (value >>> 7).toNat = 0 := by
      rw [not_not.1 hlast]
      rfl
    rw [toNat_shiftRight_seven] at hzero
    simp only [leb_value]
    omega

/-! ## What is read -/

/-- What the loop reads from: a numeral, and its value without the bits that do not
fit. -/
theorem read_leb128_loop_eq_ok {result v : UInt64} {shift : Nat} {input rest : Bytes}
    (h : read_leb128_loop result shift input = .ok (v, rest)) (hr : result.toNat < 2 ^ shift) :
    ∃ l, input = l ++ rest ∧ Numeral l ∧ (shift ≠ 0 → l ≠ [0]) ∧
      shift + 7 * l.length < 64 + 7 ∧
      v.toNat = (result.toNat + leb_value l * 2 ^ shift) % 2 ^ 64 := by
  induction input generalizing result shift with
  | nil => cases h
  | cons byte input ih =>
    rw [read_leb128_loop] at h
    split_ifs at h with hshift hend hzero
    · obtain ⟨rfl, rfl⟩ := Prod.mk.inj (Except.ok.inj h)
      have hbyte := high_eq_zero.1 hend
      refine ⟨[byte], rfl, .last hbyte, ?_, ?_, ?_⟩
      · intro hpos hone
        exact hzero ⟨(List.cons.inj hone).1, hpos⟩
      · rw [List.length_singleton]
        omega
      · rw [toNat_or_shiftLeft_mod _ (Nat.not_le.1 hshift) hr, toNat_low]
        simp only [leb_value, Nat.mul_zero, Nat.add_zero]
    · have hsum := toNat_or_shiftLeft_mod (byte &&& 0x7f) (Nat.not_le.1 hshift) hr
      have hnext := two_pow_add_seven shift
      have hsmall : (byte.toNat % 128) * 2 ^ shift ≤ 127 * 2 ^ shift :=
        Nat.mul_le_mul_right _ (by omega)
      rw [toNat_low] at hsum
      obtain ⟨l, rfl, hl, hmin, hlen, hvalue⟩ := ih h (by
        rw [hsum, hnext]
        exact Nat.lt_of_le_of_lt (Nat.mod_le _ _) (by omega))
      refine ⟨byte :: l, rfl, ?_, fun _ hone => ?_, ?_, ?_⟩
      · exact .more (Nat.not_lt.1 (mt high_eq_zero.2 hend)) hl (hmin (by omega))
      · cases hone
        exact hend rfl
      · rw [List.length_cons]
        omega
      · rw [hvalue, hsum, Nat.mod_add_mod, hnext, leb_value, Nat.add_mul, Nat.add_assoc]
        congr 3
        rw [Nat.mul_comm 128 (leb_value l), Nat.mul_assoc]

theorem read_leb128_eq_ok {input rest : Bytes} {v : UInt64}
    (h : read_leb128 input = .ok (v, rest)) :
    ∃ l, input = l ++ rest ∧ Numeral l ∧ l.length ≤ 10 ∧ v.toNat = leb_value l % 2 ^ 64 := by
  obtain ⟨l, hinput, hl, -, hlen, hvalue⟩ := read_leb128_loop_eq_ok h (by decide)
  refine ⟨l, hinput, hl, by omega, ?_⟩
  rw [hvalue, UInt64.toNat_zero, Nat.zero_add, Nat.pow_zero, Nat.mul_one]

/-- What is written is read back. Bytes that are read are the ones that are written
for the value exactly if there are at most nine of them or the tenth is one. With
another tenth byte the value lacks bits of the number. -/
theorem what_is_read_was_written_iff_the_tenth_byte_is_one (v : UInt64) (suffix input : Bytes) :
    read_leb128 (write_leb128 v ++ suffix) = .ok (v, suffix) ∧
    ∀ (value : UInt64) (rest : Bytes), read_leb128 input = .ok (value, rest) →
      ∃ l, input = l ++ rest ∧ value.toNat = leb_value l % 2 ^ 64 ∧
        (l = write_leb128 value ↔ l.length ≤ 9 ∨ l[9]? = some 1) := by
  refine ⟨read_leb128_write v suffix, ?_⟩
  intro value rest h
  obtain ⟨l, hinput, hl, hlen, hvalue⟩ := read_leb128_eq_ok h
  refine ⟨l, hinput, hvalue, ?_⟩
  rw [← hl.value_lt_iff hlen]
  constructor
  · intro hwritten
    rw [hwritten, leb_value_write]
    exact value.toNat_lt
  · intro hlt
    rw [Nat.mod_eq_of_lt hlt] at hvalue
    have hsame : UInt64.ofNat (leb_value l) = value := by
      rw [← hvalue, UInt64.ofNat_toNat]
    rw [← hsame]
    exact hl.eq_write hlt

/-- The tenth byte is two: 2^64 is read as zero, for which another byte is written. -/
theorem two_to_the_64_is_read_as_zero :
    read_leb128 (List.replicate 9 0x80 ++ [2]) = .ok (0, []) ∧
      read_leb128 (write_leb128 0) = .ok (0, []) ∧
      write_leb128 0 ≠ List.replicate 9 0x80 ++ [2] := by
  have hzero : write_leb128 0 = [0] := write_of_lt (by decide)
  rw [hzero]
  decide

end rtp2_core.bitmap
