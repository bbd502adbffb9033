-- Loops whose turns can fail, with a limit on the turns, and arithmetic on 64 bits
-- that fails instead of wrapping. A loop that has a result ends within the limit,
-- and none of its operations leaves the range of its type.
import Mathlib.Algebra.Ring.Nat
import Mathlib.Tactic.Common

namespace checked_loop

/-! ## Arithmetic -/

def checked_add (a b : UInt64) : Option UInt64 :=
  if a.toNat + b.toNat < 2 ^ 64 then some (a + b) else none

def checked_sub (a b : UInt64) : Option UInt64 := if b ≤ a then some (a - b) else none

def checked_mul (a b : UInt64) : Option UInt64 :=
  if a.toNat * b.toNat < 2 ^ 64 then some (a * b) else none

theorem checked_add_of_lt {a b : UInt64} (h : a.toNat + b.toNat < 2 ^ 64) :
    checked_add a b = some (a + b) ∧ (a + b).toNat = a.toNat + b.toNat := by
  refine ⟨if_pos h, ?_⟩
  rw [UInt64.toNat_add, Nat.mod_eq_of_lt h]

theorem checked_sub_of_le {a b : UInt64} (h : b ≤ a) : checked_sub a b = some (a - b) :=
  if_pos h

theorem checked_mul_of_lt {a b : UInt64} (h : a.toNat * b.toNat < 2 ^ 64) :
    checked_mul a b = some (a * b) :=
  if_pos h

/-! ## Loops -/

/-- A turn goes on from a state, or ends the loop with a result. -/
inductive Turn (σ ρ : Type) where
  | next (s : σ)
  | done (r : ρ)

variable {σ ρ α : Type}

/-- A loop of at most `turns` turns. There is no result if a turn fails, or if the
loop has not ended by then. -/
def run (body : σ → Option (Turn σ ρ)) : Nat → σ → Option ρ
  | 0, _ => none
  | turns + 1, s =>
    match body s with
    | none => none
    | some (.next s) => run body turns s
    | some (.done r) => some r

/-- The rule for loops: a turn keeps the invariant and makes the variant smaller, or
it ends the loop with what is to be shown. So the loop ends in time. -/
theorem run_of_variant {body : σ → Option (Turn σ ρ)} {post : ρ → Prop} (inv : σ → Prop)
    (variant : σ → Nat)
    (hbody : ∀ s, inv s → (∃ s', body s = some (.next s') ∧ inv s' ∧ variant s' < variant s) ∨
      ∃ r, body s = some (.done r) ∧ post r)
    {turns : Nat} {s : σ} (hs : inv s) (hturns : variant s < turns) :
    ∃ r, run body turns s = some r ∧ post r := by
  induction turns generalizing s with
  | zero => omega
  | succ turns ih =>
    rw [run]
    rcases hbody s hs with ⟨s', he, hs', hlt⟩ | ⟨r, he, hr⟩
    · rw [he]
      exact ih hs' (by omega)
    · rw [he]
      exact ⟨r, rfl, hr⟩

/-- `for a in l` with at most `turns` turns. -/
def fold (f : σ → α → σ) : Nat → List α → σ → Option σ
  | _, [], s => some s
  | 0, _ :: _, _ => none
  | turns + 1, a :: l, s => fold f turns l (f s a)

theorem fold_of_length_le {f : σ → α → σ} {turns : Nat} {l : List α} (h : l.length ≤ turns)
    (s : σ) : fold f turns l s = some (l.foldl f s) := by
  induction l generalizing turns s with
  | nil => rw [fold, List.foldl_nil]
  | cons a l ih =>
    obtain ⟨turns, rfl⟩ := Nat.exists_eq_succ_of_ne_zero (Nat.ne_of_gt (Nat.lt_of_lt_of_le
      (Nat.succ_pos l.length) h))
    rw [fold, List.foldl_cons]
    exact ih (Nat.le_of_succ_le_succ h) (f s a)

end checked_loop
