-- Files as strings of symbols, read and written at an offset. A write changes
-- its own region and nothing else.
import Mathlib.Data.List.Basic
import Mathlib.Tactic.Common

namespace file_region

variable {α : Type}

/-- The `n` symbols at an offset, or fewer at the end of the file. -/
def slice (f : List α) (off n : Nat) : List α := (f.drop off).take n

/-- A write at an offset. A gap between the end of the file and the offset is
filled. -/
def write_at (fill : α) (f : List α) (off : Nat) (data : List α) : List α :=
  f.take off ++ List.replicate (off - f.length) fill ++ data ++ f.drop (off + data.length)

/-- The file cut or filled to a length. -/
def set_len (fill : α) (f : List α) (n : Nat) : List α :=
  f.take n ++ List.replicate (n - f.length) fill

@[simp] theorem length_slice (f : List α) (off n : Nat) :
    (slice f off n).length = min n (f.length - off) := by
  simp [slice]

@[simp] theorem length_set_len (fill : α) (f : List α) (n : Nat) :
    (set_len fill f n).length = n := by
  simp only [set_len, List.length_append, List.length_take, List.length_replicate]
  omega

theorem getElem?_slice {f : List α} {off n k : Nat} (h : k < n) :
    (slice f off n)[k]? = f[off + k]? := by
  simp [slice, List.getElem?_take_of_lt h]

/-- A slice is what its symbols are. -/
theorem slice_congr {f g : List α} {off n : Nat}
    (h : ∀ k, off ≤ k → k < off + n → f[k]? = g[k]?) : slice f off n = slice g off n := by
  apply List.ext_getElem?
  intro k
  by_cases hk : k < n
  · rw [getElem?_slice hk, getElem?_slice hk, h _ (by omega) (by omega)]
  · rw [List.getElem?_eq_none (by simp; omega), List.getElem?_eq_none (by simp; omega)]

section Write

variable (fill : α) {f data : List α} {off : Nat}

theorem write_at_eq (h : off ≤ f.length) :
    write_at fill f off data = f.take off ++ data ++ f.drop (off + data.length) := by
  simp [write_at, Nat.sub_eq_zero_of_le h]

theorem length_write_at (h : off + data.length ≤ f.length) :
    (write_at fill f off data).length = f.length := by
  rw [write_at_eq fill (by omega)]
  simp only [List.length_append, List.length_take, List.length_drop]
  omega

/-- Outside of its region a write changes nothing. -/
theorem getElem?_write_at_outside (h : off + data.length ≤ f.length) {k : Nat}
    (hk : k < off ∨ off + data.length ≤ k) : (write_at fill f off data)[k]? = f[k]? := by
  rw [write_at_eq fill (by omega)]
  rcases hk with hk | hk
  · rw [List.append_assoc, List.getElem?_append_left (by simp; omega), List.getElem?_take_of_lt hk]
  · have hlen : (f.take off ++ data).length = off + data.length := by simp; omega
    rw [List.getElem?_append_right (by omega), hlen, List.getElem?_drop, Nat.add_sub_cancel' hk]

theorem slice_write_at_self (h : off ≤ f.length) :
    slice (write_at fill f off data) off data.length = data := by
  rw [write_at_eq fill h, slice, List.append_assoc]
  have hlen : (f.take off).length = off := by simp [h]
  rw [List.drop_append_of_le_length (by omega), List.drop_of_length_le (by omega)]
  simp

theorem slice_write_at_apart (h : off + data.length ≤ f.length) {off' n : Nat}
    (hapart : off' + n ≤ off ∨ off + data.length ≤ off') :
    slice (write_at fill f off data) off' n = slice f off' n := by
  apply slice_congr
  intro k hlow hhigh
  exact getElem?_write_at_outside fill h (by omega)

end Write

end file_region
