-- Byte strings, byte arrays of a fixed length, the big-endian numerals that
-- `to_be_bytes` and `from_be_bytes` convert between, and saturating sums.
import Mathlib.Algebra.Ring.Nat
import Mathlib.Data.List.Induction
import Mathlib.Tactic.Common

namespace byte_string

abbrev Bytes := List UInt8

instance : LawfulBEq Bytes := inferInstance

/-- `[u8; n]`. -/
structure Arr (n : Nat) where
  bytes : Bytes
  length_eq : bytes.length = n
  deriving DecidableEq

namespace Arr

variable {n : Nat}

@[simp] theorem length_bytes (a : Arr n) : a.bytes.length = n := a.length_eq

@[ext] theorem ext {a b : Arr n} (h : a.bytes = b.bytes) : a = b := by
  cases a
  cases b
  cases h
  rfl

theorem bytes_inj {a b : Arr n} : a.bytes = b.bytes ↔ a = b := ⟨ext, congrArg bytes⟩

/-- The array with the same byte at each place. -/
def replicate (n : Nat) (b : UInt8) : Arr n := ⟨List.replicate n b, List.length_replicate⟩

/-- `try_into` from a slice. -/
def try_from (n : Nat) (l : Bytes) : Option (Arr n) :=
  if h : l.length = n then some ⟨l, h⟩ else none

theorem try_from_eq_some {l : Bytes} {a : Arr n} : try_from n l = some a ↔ a.bytes = l := by
  unfold try_from
  constructor
  · intro h
    split at h
    · cases h
      rfl
    · cases h
  · rintro rfl
    exact dif_pos a.length_eq

end Arr

/-! ## Two strings side by side -/

/-- Parts of one length can be told apart. -/
theorem append_inj_of_length {a b s t : Bytes} (hl : a.length = b.length)
    (h : a ++ s = b ++ t) : a = b ∧ s = t :=
  List.append_inj h hl

theorem arr_append_inj {n : Nat} {a b : Arr n} {s t : Bytes} (h : a.bytes ++ s = b.bytes ++ t) :
    a = b ∧ s = t := by
  obtain ⟨h1, h2⟩ := append_inj_of_length (by simp) h
  exact ⟨Arr.ext h1, h2⟩

/-! ## Big-endian numerals -/

/-- The last `n` base-256 digits of `v`, the most significant first. -/
def be_bytes : Nat → Nat → Bytes
  | 0, _ => []
  | n + 1, v => be_bytes n (v / 256) ++ [UInt8.ofNat v]

/-- The number that the digits spell. -/
def of_be (l : Bytes) : Nat := l.foldl (fun acc b => acc * 256 + b.toNat) 0

@[simp] theorem length_be_bytes (n v : Nat) : (be_bytes n v).length = n := by
  induction n generalizing v with
  | zero => rfl
  | succ n ih => simp [be_bytes, ih]

@[simp] theorem of_be_append_singleton (l : Bytes) (b : UInt8) :
    of_be (l ++ [b]) = of_be l * 256 + b.toNat := by
  simp [of_be]

theorem of_be_lt (l : Bytes) : of_be l < 256 ^ l.length := by
  induction l using List.reverseRecOn with
  | nil => simp [of_be]
  | append_singleton l b ih =>
    have hb := b.toNat_lt
    rw [of_be_append_singleton, List.length_append, List.length_singleton, Nat.pow_succ]
    omega

theorem of_be_be_bytes {n v : Nat} (h : v < 256 ^ n) : of_be (be_bytes n v) = v := by
  induction n generalizing v with
  | zero =>
    have : v = 0 := by simpa using h
    subst this
    rfl
  | succ n ih =>
    have hq : v / 256 < 256 ^ n := by
      rw [Nat.pow_succ] at h
      omega
    rw [be_bytes, of_be_append_singleton, ih hq]
    simp only [UInt8.toNat_ofNat']
    omega

theorem be_bytes_of_be (l : Bytes) : be_bytes l.length (of_be l) = l := by
  induction l using List.reverseRecOn with
  | nil => rfl
  | append_singleton l b ih =>
    have hb := b.toNat_lt
    have hdiv : (of_be l * 256 + b.toNat) / 256 = of_be l := by omega
    have hmod : UInt8.ofNat (of_be l * 256 + b.toNat) = b := by
      apply UInt8.toNat_inj.1
      simp only [UInt8.toNat_ofNat']
      omega
    rw [List.length_append, List.length_singleton, be_bytes, of_be_append_singleton, hdiv, ih, hmod]

theorem be_bytes_inj {n v v' : Nat} (h : v < 256 ^ n) (h' : v' < 256 ^ n)
    (he : be_bytes n v = be_bytes n v') : v = v' := by
  rw [← of_be_be_bytes h, he, of_be_be_bytes h']

/-- `u64::saturating_add`. -/
def saturating_add (a b : UInt64) : UInt64 :=
  if a.toNat + b.toNat < 2 ^ 64 then a + b else .ofNat (2 ^ 64 - 1)

theorem toNat_saturating_add (a b : UInt64) :
    (saturating_add a b).toNat = min (a.toNat + b.toNat) (2 ^ 64 - 1) := by
  unfold saturating_add
  split_ifs with h
  · rw [UInt64.toNat_add, Nat.mod_eq_of_lt h]
    omega
  · rw [UInt64.toNat_ofNat_of_lt' (by decide)]
    omega

theorem toUInt16_back {v : UInt64} (h : ¬ v > 0xffff) : v.toUInt16.toUInt64 = v := by
  rw [gt_iff_lt, UInt64.not_lt, UInt64.le_iff_toNat_le] at h
  rw [← UInt64.toNat_inj]
  simp only [UInt64.toNat_ofNat] at h
  simp only [UInt16.toNat_toUInt64, UInt64.toNat_toUInt16]
  omega

theorem toUInt64_not_gt (v : UInt16) : ¬ v.toUInt64 > 0xffff := by
  have hv := v.toNat_lt
  rw [gt_iff_lt, UInt64.not_lt, UInt64.le_iff_toNat_le, UInt16.toNat_toUInt64]
  simp only [UInt64.toNat_ofNat]
  omega

theorem length_flatMap_le {α : Type} {f : α → Bytes} {k : Nat} {l : List α}
    (h : ∀ a ∈ l, (f a).length ≤ k) : (l.flatMap f).length ≤ k * l.length := by
  induction l with
  | nil => simp
  | cons a l ih =>
    have ha := h a List.mem_cons_self
    have hl := ih fun b hb => h b (List.mem_cons_of_mem _ hb)
    rw [List.flatMap_cons, List.length_append, List.length_cons, Nat.mul_succ]
    omega

end byte_string
