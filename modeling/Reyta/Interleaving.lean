-- Programs that ask a shared system, one step at a time. A program can be cut
-- off after any of its steps, and the steps of several programs can be
-- interleaved in any order.
import Mathlib.Logic.Function.Basic
import Mathlib.Tactic.Common

namespace interleaving

/-- A program that asks questions in `Q`, with answers in `A`, and returns. -/
inductive Prog (Q : Type) (A : Q → Type) (ρ : Type) where
  | ret (r : ρ)
  | ask (q : Q) (k : A q → Prog Q A ρ)

variable {Q : Type} {A : Q → Type} {ρ ρ' ε α β σ ν ι : Type}

namespace Prog

def bind : Prog Q A ρ → (ρ → Prog Q A ρ') → Prog Q A ρ'
  | .ret r, f => f r
  | .ask q k, f => .ask q fun a => (k a).bind f

instance : Monad (Prog Q A) where
  pure := .ret
  bind := .bind

def result : Prog Q A ρ → Option ρ
  | .ret r => some r
  | .ask _ _ => none

@[simp] theorem result_ret (r : ρ) : (.ret r : Prog Q A ρ).result = some r := rfl

@[simp] theorem result_ask (q : Q) (k : A q → Prog Q A ρ) : (.ask q k : Prog Q A ρ).result = none :=
  rfl

theorem eq_ret_of_result {p : Prog Q A ρ} {r : ρ} (h : p.result = some r) : p = .ret r := by
  cases p with
  | ret r' => rw [Option.some.inj h]
  | ask q k => cases h

/-- Whatever the answers are, the program returns after at most `n` of them. -/
def Within : Nat → Prog Q A ρ → Prop
  | _, .ret _ => True
  | 0, .ask _ _ => False
  | n + 1, .ask _ k => ∀ a, (k a).Within n

theorem within_ret (n : Nat) (r : ρ) : (.ret r : Prog Q A ρ).Within n := by
  cases n <;> trivial

theorem Within.result_isSome {p : Prog Q A ρ} (h : p.Within 0) : ∃ r, p.result = some r := by
  cases p with
  | ret r => exact ⟨r, rfl⟩
  | ask q k => exact h.elim

end Prog

/-! ## Programs that may return early -/

/-- A program that returns an error or a value. -/
abbrev Task (Q : Type) (A : Q → Type) (ε α : Type) := ExceptT ε (Prog Q A) α

namespace Task

/-- `x?` of a computation without questions. -/
def of (x : Except ε α) : Task Q A ε α := ExceptT.mk (.ret x)

def ask (q : Q) : Task Q A ε (A q) := ExceptT.mk (.ask q fun a => .ret (.ok a))

theorem of_ok_bind (a : α) (f : α → Task Q A ε β) : of (.ok a) >>= f = f a := rfl

theorem of_error_bind (e : ε) (f : α → Task Q A ε β) : of (.error e) >>= f = of (.error e) := rfl

end Task

/-! ## A program that runs alone -/

variable (answer : ν → σ → (q : Q) → A q × σ)

/-- The steps go as the list says. When it is used up, the program is cut off
and returns nothing. -/
def attempt : List ν → Prog Q A ρ → σ → Option ρ × σ
  | _, .ret r, s => (some r, s)
  | [], .ask _ _, s => (none, s)
  | n :: ns, .ask q k, s => attempt ns (k (answer n s q).1) (answer n s q).2

theorem attempt_ret (steps : List ν) (r : ρ) (s : σ) :
    attempt answer steps (.ret r : Prog Q A ρ) s = (some r, s) := by
  cases steps <;> rfl

/-! ## Programs that run at the same time -/

/-- The programs as far as they have come, what they share, and the questions
that were asked. -/
structure System (ι : Type) (Q : Type) (A : Q → Type) (ρ σ : Type) where
  threads : ι → Prog Q A ρ
  shared : σ
  trace : List (ι × Q)

def start (threads : ι → Prog Q A ρ) (s : σ) : System ι Q A ρ σ := ⟨threads, s, []⟩

variable [DecidableEq ι] (reply : σ → (q : Q) → A q × σ)

/-- The next step of one of the programs. -/
def step (s : System ι Q A ρ σ) (i : ι) : System ι Q A ρ σ :=
  match s.threads i with
  | .ret _ => s
  | .ask q k => ⟨Function.update s.threads i (k (reply s.shared q).1), (reply s.shared q).2,
      s.trace ++ [(i, q)]⟩

/-- The steps in the order of a schedule. -/
def run (s : System ι Q A ρ σ) (schedule : List ι) : System ι Q A ρ σ :=
  schedule.foldl (step reply) s

variable {answer reply} {s : System ι Q A ρ σ}

theorem step_of_ret {i : ι} {r : ρ} (h : s.threads i = .ret r) : step reply s i = s := by
  simp only [step, h]

theorem step_of_ask {i : ι} {q : Q} {k : A q → Prog Q A ρ} (h : s.threads i = .ask q k) :
    step reply s i = ⟨Function.update s.threads i (k (reply s.shared q).1),
      (reply s.shared q).2, s.trace ++ [(i, q)]⟩ := by
  simp only [step, h]

/-- A step does nothing, or it asks the next question of its program. -/
theorem step_cases (reply : σ → (q : Q) → A q × σ) (s : System ι Q A ρ σ) (i : ι) :
    (∃ r, s.threads i = .ret r ∧ step reply s i = s) ∨
    ∃ q k, s.threads i = .ask q k ∧
      step reply s i = ⟨Function.update s.threads i (k (reply s.shared q).1),
        (reply s.shared q).2, s.trace ++ [(i, q)]⟩ := by
  cases h : s.threads i with
  | ret r => exact .inl ⟨r, rfl, step_of_ret h⟩
  | ask q k => exact .inr ⟨q, k, rfl, step_of_ask h⟩

theorem run_cons (s : System ι Q A ρ σ) (i : ι) (l : List ι) :
    run reply s (i :: l) = run reply (step reply s i) l := rfl

theorem run_append (s : System ι Q A ρ σ) (l l' : List ι) :
    run reply s (l ++ l') = run reply (run reply s l) l' := List.foldl_append

theorem run_concat (s : System ι Q A ρ σ) (l : List ι) (i : ι) :
    run reply s (l ++ [i]) = step reply (run reply s l) i := run_append s l [i]

theorem step_threads_of_ne (s : System ι Q A ρ σ) {i j : ι} (h : i ≠ j) :
    (step reply s j).threads i = s.threads i := by
  rcases step_cases reply s j with ⟨r, -, hs⟩ | ⟨q, k, -, hs⟩
  · rw [hs]
  · rw [hs]
    exact Function.update_of_ne h _ _

/-- Only its own steps change a program. -/
theorem run_threads_of_notMem (s : System ι Q A ρ σ) {i : ι} {l : List ι} (h : i ∉ l) :
    (run reply s l).threads i = s.threads i := by
  induction l generalizing s with
  | nil => rfl
  | cons j l ih =>
    rw [List.mem_cons, not_or] at h
    rw [run_cons, ih _ h.2, step_threads_of_ne s h.1]

theorem run_threads_of_ret {i : ι} {r : ρ} (h : s.threads i = .ret r) (l : List ι) :
    (run reply s l).threads i = .ret r := by
  induction l generalizing s with
  | nil => exact h
  | cons j l ih =>
    rw [run_cons]
    apply ih
    by_cases hj : i = j
    · subst hj
      rw [step_of_ret h, h]
    · rw [step_threads_of_ne s hj, h]

/-- A program that waits for its last answer. -/
theorem run_threads_of_last {i : ι} {q : Q} {k : A q → Prog Q A ρ} {r : ρ} {l : List ι}
    (h : s.threads i = .ask q k) (hlast : ∀ x, k (reply x q).1 = .ret r) (hi : i ∈ l) :
    (run reply s l).threads i = .ret r := by
  obtain ⟨l₁, l₂, rfl, hnot⟩ := List.eq_append_cons_of_mem hi
  rw [run_append, run_cons]
  refine run_threads_of_ret ?_ l₂
  rw [step_of_ask ((run_threads_of_notMem s hnot).trans h)]
  simp [hlast]

theorem trace_prefix_step (s : System ι Q A ρ σ) (i : ι) : s.trace <+: (step reply s i).trace := by
  rcases step_cases reply s i with ⟨r, -, h⟩ | ⟨q, k, -, h⟩
  · exact h.symm ▸ List.prefix_rfl
  · exact h.symm ▸ List.prefix_append _ _

theorem trace_prefix_run (s : System ι Q A ρ σ) (schedule : List ι) :
    s.trace <+: (run reply s schedule).trace := by
  induction schedule generalizing s with
  | nil => exact List.prefix_rfl
  | cons i schedule ih => exact (trace_prefix_step s i).trans (ih _)

/-- What every step of the schedule keeps, as long as the trace is in order, the
run keeps. -/
theorem run_inv {inv : System ι Q A ρ σ → Prop} {ok : List (ι × Q) → Prop} {schedule : List ι}
    (hok : ∀ {t t'}, t <+: t' → ok t' → ok t)
    (hstep : ∀ s, ∀ i ∈ schedule, inv s → ok (step reply s i).trace → inv (step reply s i))
    (hs : inv s) (hrun : ok (run reply s schedule).trace) : inv (run reply s schedule) := by
  induction schedule generalizing s with
  | nil => exact hs
  | cons i schedule ih =>
    have hfirst := hok (trace_prefix_run (step reply s i) schedule) hrun
    exact ih (fun s j hj => hstep s j (List.mem_cons_of_mem _ hj))
      (hstep s i List.mem_cons_self hs hfirst) hrun

/-- What every step keeps, every run keeps. -/
theorem run_keeps (inv : System ι Q A ρ σ → Prop) (hstep : ∀ s i, inv s → inv (step reply s i))
    (hs : inv s) (schedule : List ι) : inv (run reply s schedule) :=
  run_inv (fun _ (_ : True) => trivial) (fun s i _ h _ => hstep s i h) hs trivial

/-- A program that needs at most `n` steps has returned when it had `n`. -/
theorem returned_of_count {i : ι} {n : Nat} {schedule : List ι} (h : (s.threads i).Within n)
    (hcount : n ≤ schedule.count i) : ∃ r, ((run reply s schedule).threads i).result = some r := by
  induction schedule generalizing s n with
  | nil =>
    rw [List.count_nil, Nat.le_zero] at hcount
    subst hcount
    exact h.result_isSome
  | cons j schedule ih =>
    rw [run_cons]
    rcases step_cases reply s j with ⟨r, hret, hstep⟩ | ⟨q, k, hask, hstep⟩
    · rw [hstep]
      by_cases hj : j = i
      · subst hj
        refine ih (n := 0) ?_ (Nat.zero_le _)
        rw [hret]
        exact Prog.within_ret 0 r
      · rw [List.count_cons_of_ne hj] at hcount
        exact ih h hcount
    · rw [hstep]
      by_cases hj : j = i
      · subst hj
        rw [List.count_cons_self] at hcount
        rw [hask] at h
        cases n with
        | zero => exact h.elim
        | succ n =>
          refine ih (n := n) ?_ (Nat.le_of_succ_le_succ hcount)
          simpa using h _
      · rw [List.count_cons_of_ne hj] at hcount
        refine ih ?_ hcount
        simpa [Function.update_of_ne (Ne.symm hj)] using h

end interleaving
