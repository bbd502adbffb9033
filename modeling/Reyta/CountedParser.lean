-- Parsers that count their steps, also when they fail. A loop over a declared
-- number of items is paid for by the tokens that its turns read, so its cost
-- does not depend on the number that was declared.
import Mathlib.Tactic.Linarith
import Reyta.ExactParser

namespace counted_parse

open exact_parse

/-- A parser that adds to a count of steps. -/
abbrev Counted (τ κ ε α : Type) := StateT (Input τ κ) (ExceptT ε (StateM Nat)) α

variable {τ κ ε ε' α β : Type}

/-- The result of a run from a count, and the count after it. -/
def run (p : Counted τ κ ε α) (i : Input τ κ) (n : Nat) : Except ε (α × Input τ κ) × Nat := p i n

/-- Stops with `e`. -/
def stop (e : ε) : Counted τ κ ε α := fun _ n => (.error e, n)

/-- One operation: a step, and one more for every token that is looked at.
These are the tokens that are read, and all that are left if it fails. -/
def op (p : Parser τ κ ε α) : Counted τ κ ε α := fun i n =>
  match p i with
  | .ok (a, i') => (.ok (a, i'), n + 1 + (i.rest.length - i'.rest.length))
  | .error e => (.error e, n + 1 + i.rest.length)

/-- The parser `m` times in a row. -/
def times (p : Counted τ κ ε α) : Nat → Counted τ κ ε (List α)
  | 0 => pure []
  | m + 1 => do
    let a ← p
    let l ← times p m
    pure (a :: l)

theorem run_pure (a : α) (i : Input τ κ) (n : Nat) :
    run (pure a : Counted τ κ ε α) i n = (.ok (a, i), n) := rfl

theorem run_bind (p : Counted τ κ ε α) (q : α → Counted τ κ ε β) (i : Input τ κ) (n : Nat) :
    run (p >>= q) i n = match run p i n with
      | (.ok (a, i'), n') => run (q a) i' n'
      | (.error e, n') => (.error e, n') := by
  change (ExceptT.bindCont (fun x : α × Input τ κ => q x.1 x.2) (p i n).1) (p i n).2 = _
  unfold run
  rcases p i n with ⟨_ | _, _⟩ <;> rfl

/-! ## The value -/

/-- Without its count, `p` is `q`. -/
def Tracks (f : ε → ε') (p : Counted τ κ ε α) (q : Parser τ κ ε' α) : Prop :=
  ∀ i n, (run p i n).1.mapError f = q i

namespace Tracks

variable {f : ε → ε'}

theorem pure (a : α) : Tracks f (Pure.pure a : Counted τ κ ε α) (Pure.pure a) :=
  fun _ _ => rfl

theorem stop {e : ε} {e' : ε'} (h : f e = e') :
    Tracks f (stop e : Counted τ κ ε α) (fail e') := by
  intro i n
  rw [← h]
  rfl

theorem op {p : Parser τ κ ε α} {q : Parser τ κ ε' α} (h : map_err f p = q) :
    Tracks f (op p) q := by
  intro i n
  rw [← h]
  unfold run counted_parse.op map_err
  rcases p i with e | ⟨a, i'⟩ <;> rfl

theorem bind {p : Counted τ κ ε α} {q : Parser τ κ ε' α} {p' : α → Counted τ κ ε β}
    {q' : α → Parser τ κ ε' β} (h : Tracks f p q) (h' : ∀ a, Tracks f (p' a) (q' a)) :
    Tracks f (p >>= p') (q >>= q') := by
  intro i n
  have hi := h i n
  rw [run_bind]
  rcases hp : run p i n with ⟨e | ⟨a, i'⟩, n'⟩
  · rw [hp] at hi
    exact (run_bind_of_error hi.symm).symm
  · rw [hp] at hi
    exact (h' a i' n').trans (run_bind_of_ok hi.symm).symm

theorem times {p : Counted τ κ ε α} {q : Parser τ κ ε' α} (h : Tracks f p q) (m : Nat) :
    Tracks f (times p m) (exact_parse.times q m) := by
  induction m with
  | zero => exact pure []
  | succ m ih => exact h.bind fun a => ih.bind fun l => pure (a :: l)

end Tracks

/-! ## The cost -/

/-- `p` takes `k` steps for each token that it reads, and `b` more, or less if
`b` is negative. If it fails it has taken `k` steps for each token that was
left, and `c` more. -/
structure Costs (k : Nat) (b : Int) (c : Nat) (p : Counted τ κ ε α) : Prop where
  ok : ∀ {i n a i' n'}, run p i n = (.ok (a, i'), n') →
    (n' + k * i'.rest.length : Int) ≤ n + k * i.rest.length + b
  error : ∀ {i n e n'}, run p i n = (.error e, n') → (n' : Int) ≤ n + k * i.rest.length + c

namespace Costs

variable {k : Nat} {b r : Int} {c t : Nat}

theorem pure (a : α) : Costs k 0 0 (Pure.pure a : Counted τ κ ε α) := by
  constructor
  · intro i n a i' n' h
    cases (run_pure _ i n).symm.trans h
    omega
  · intro i n e n' h
    cases (run_pure _ i n).symm.trans h

theorem stop (e : ε) : Costs k b 0 (stop e : Counted τ κ ε α) := by
  constructor
  · intro i n a i' n' h
    cases h
  · intro i n e n' h
    cases h
    have : 0 ≤ (k * i.rest.length : Int) := by positivity
    omega

theorem weaken {p : Counted τ κ ε α} (h : Costs k b c p) (hb : b ≤ r) (hc : c ≤ t) :
    Costs k r t p := by
  constructor
  · intro i n a i' n' hrun
    have := h.ok hrun
    omega
  · intro i n e n' hrun
    have := h.error hrun
    omega

/-- The second part starts with what the first one saved or overspent. -/
theorem bind {p : Counted τ κ ε α} {q : α → Counted τ κ ε β} {u : Nat} (h : Costs k b c p)
    (h' : ∀ a, Costs k r t (q a)) (hc : c ≤ u) (ht : b + t ≤ u) :
    Costs k (b + r) u (p >>= q) := by
  constructor
  · intro i n x j m hrun
    rw [run_bind] at hrun
    rcases hp : run p i n with ⟨e | ⟨a, i'⟩, n'⟩
    · rw [hp] at hrun
      cases hrun
    · rw [hp] at hrun
      have h1 := h.ok hp
      have h2 := (h' a).ok hrun
      omega
  · intro i n e m hrun
    rw [run_bind] at hrun
    rcases hp : run p i n with ⟨e' | ⟨a, i'⟩, n'⟩
    · rw [hp] at hrun
      cases hrun
      have h1 := h.error hp
      omega
    · rw [hp] at hrun
      have h1 := h.ok hp
      have h2 := (h' a).error hrun
      omega

/-- A loop whose turns pay for themselves, however often it is to run. -/
theorem times {p : Counted τ κ ε α} (h : Costs k 0 c p) (m : Nat) : Costs k 0 c (times p m) := by
  induction m with
  | zero => exact (pure []).weaken (by omega) (Nat.zero_le c)
  | succ m ih =>
    have hrest : ∀ a, Costs k 0 c (do
        let l ← counted_parse.times p m
        Pure.pure (a :: l)) :=
      fun a => ih.bind (r := 0) (fun l => pure (a :: l)) (Nat.le_refl c) (by omega)
    exact h.bind hrest (Nat.le_refl c) (by omega)

/-- An operation that leaves no more tokens than there were. -/
theorem op {p : Parser τ κ ε α} (hk : 1 ≤ k)
    (hp : ∀ i a i', p i = .ok (a, i') → i'.rest.length ≤ i.rest.length) : Costs k 1 1 (op p) := by
  constructor
  · intro i n a i' n' h
    unfold run counted_parse.op at h
    rcases hpi : p i with e | ⟨x, j⟩
    · rw [hpi] at h
      cases h
    · rw [hpi] at h
      cases h
      have hle := hp i a i' hpi
      have hmul : (1 : Int) * (i.rest.length - i'.rest.length) ≤
          k * (i.rest.length - i'.rest.length) :=
        mul_le_mul_of_nonneg_right (by omega) (by omega)
      simp only [one_mul, mul_sub] at hmul
      push_cast [hle]
      omega
  · intro i n e n' h
    unfold run counted_parse.op at h
    rcases hpi : p i with e' | ⟨x, j⟩
    · rw [hpi] at h
      cases h
      have hmul : (1 : Int) * i.rest.length ≤ k * i.rest.length :=
        mul_le_mul_of_nonneg_right (by omega) (by omega)
      push_cast
      omega
    · rw [hpi] at h
      cases h

/-- An operation that reads at least one token saves steps. -/
theorem op_of_lt {p : Parser τ κ ε α} (hk : 1 ≤ k)
    (hp : ∀ i a i', p i = .ok (a, i') → i'.rest.length < i.rest.length) :
    Costs k (2 - k) 1 (counted_parse.op p) := by
  refine ⟨?_, (op hk fun i a i' h => Nat.le_of_lt (hp i a i' h)).error⟩
  intro i n a i' n' h
  unfold run counted_parse.op at h
  rcases hpi : p i with e | ⟨x, j⟩
  · rw [hpi] at h
    cases h
  · rw [hpi] at h
    cases h
    have hlt := hp i a i' hpi
    have hmul : (k - 1 : Int) * 1 ≤ (k - 1) * (i.rest.length - i'.rest.length) :=
      mul_le_mul_of_nonneg_left (by omega) (by omega)
    simp only [sub_mul, mul_sub, one_mul, mul_one] at hmul
    push_cast [Nat.le_of_lt hlt]
    omega

theorem op_of_reads {p : Parser τ κ ε α} {S : κ → α → Prop} {w : α → List τ} {g : κ → α → κ}
    (hk : 1 ≤ k) (hp : Reads p S w g) : Costs k 1 1 (counted_parse.op p) := by
  refine op hk ?_
  rintro ⟨s, d⟩ a ⟨s', d'⟩ h
  obtain ⟨-, rfl, -⟩ := hp.sound h
  simp

/-- A parser that is exact for a writer that always writes something. -/
theorem op_of_writes {p : Parser τ κ ε α} {S : κ → α → Prop} {w : α → List τ} {g : κ → α → κ}
    (hk : 1 ≤ k) (hp : Reads p S w g) (hw : ∀ d a, S d a → w a ≠ []) :
    Costs k (2 - k) 1 (counted_parse.op p) := by
  refine op_of_lt hk ?_
  rintro ⟨s, d⟩ a ⟨s', d'⟩ h
  obtain ⟨ha, rfl, -⟩ := hp.sound h
  have := List.length_pos_iff.2 (hw d a ha)
  simp only [List.length_append]
  omega

end Costs

/-! ## The mark -/

/-- Started at the mark `d`, the parser returns at the mark `d'`, or it fails
with an error that is not `bad`. -/
def Keeps (bad : ε → Prop) (d d' : κ) (p : Counted τ κ ε α) : Prop :=
  ∀ rest n, match (run p ⟨rest, d⟩ n).1 with
    | .ok (_, i) => i.mark = d'
    | .error e => ¬ bad e

namespace Keeps

variable {bad : ε → Prop} {d d' d'' : κ}

theorem pure (a : α) : Keeps bad d d (Pure.pure a : Counted τ κ ε α) := fun _ _ => rfl

theorem stop {e : ε} (h : ¬ bad e) : Keeps bad d d' (stop e : Counted τ κ ε α) := fun _ _ => h

theorem op {p : Parser τ κ ε α} (hok : ∀ rest a i, p ⟨rest, d⟩ = .ok (a, i) → i.mark = d')
    (herror : ∀ rest e, p ⟨rest, d⟩ = .error e → ¬ bad e) : Keeps bad d d' (op p) := by
  intro rest n
  unfold run counted_parse.op
  rcases hp : p ⟨rest, d⟩ with e | ⟨a, i⟩
  · exact herror rest e hp
  · exact hok rest a i hp

theorem bind_of_ok {p : Counted τ κ ε α} {q : α → Counted τ κ ε β} (h : Keeps bad d d' p)
    (h' : ∀ rest n a i n', run p ⟨rest, d⟩ n = (.ok (a, i), n') → Keeps bad d' d'' (q a)) :
    Keeps bad d d'' (p >>= q) := by
  intro rest n
  have hi := h rest n
  rw [run_bind]
  rcases hp : run p ⟨rest, d⟩ n with ⟨e | ⟨a, ⟨rest', mark⟩⟩, n'⟩
  · rw [hp] at hi
    exact hi
  · rw [hp] at hi
    obtain rfl : mark = d' := hi
    exact h' rest n a _ n' hp rest' n'

theorem bind {p : Counted τ κ ε α} {q : α → Counted τ κ ε β} (h : Keeps bad d d' p)
    (h' : ∀ a, Keeps bad d' d'' (q a)) : Keeps bad d d'' (p >>= q) :=
  h.bind_of_ok fun _ _ a _ _ _ => h' a

theorem times {p : Counted τ κ ε α} (h : Keeps bad d d p) (m : Nat) :
    Keeps bad d d (times p m) := by
  induction m with
  | zero => exact pure []
  | succ m ih => exact h.bind fun a => ih.bind fun l => pure (a :: l)

end Keeps

end counted_parse
