-- Procedures that change a state and may return early with an error. The
-- changes made before an error stay. Pre- and postconditions are about both
-- ways out.
import Mathlib.Logic.Basic
import Mathlib.Tactic.Common

namespace early_exit

/-- A procedure over the state `σ` with errors `ε`. -/
abbrev Proc (σ ε α : Type) := ExceptT ε (StateM σ) α

/-- What became of a loop body: the loop goes on, or it is left. -/
inductive Flow where
  | next
  | done
  deriving DecidableEq, Repr

section Procedures

variable {σ ε α β ι : Type}

/-- The result and the state after a run from `s`. -/
def exec (x : Proc σ ε α) (s : σ) : Except ε α × σ := x s

/-- `x?` of a computation without a state. -/
def lift (x : Except ε α) : Proc σ ε α := fun s => (x, s)

def change (f : σ → σ) : Proc σ ε Unit := fun s => (.ok (), f s)

def read : Proc σ ε σ := fun s => (.ok s, s)

/-- The loop over a sequence of inputs. The result `next` means that the loop
waits for another input. -/
def each (body : ι → Proc σ ε Flow) : List ι → Proc σ ε Flow
  | [] => pure .next
  | a :: l => do
    match ← body a with
    | .next => each body l
    | .done => pure .done

theorem exec_bind (x : Proc σ ε α) (f : α → Proc σ ε β) (s : σ) :
    exec (x >>= f) s = match exec x s with
      | (.ok a, s') => exec (f a) s'
      | (.error e, s') => (.error e, s') := by
  change (ExceptT.bindCont f (x s).1) (x s).2 = _
  unfold exec
  rcases x s with ⟨_ | _, _⟩ <;> rfl

theorem lift_ok_bind (a : α) (f : α → Proc σ ε β) : (lift (.ok a) : Proc σ ε α) >>= f = f a :=
  rfl

/-- A loop that waits for an input goes on with it. -/
theorem each_concat {body : ι → Proc σ ε Flow} {l : List ι} {s s' : σ}
    (h : exec (each body l) s = (.ok .next, s')) (a : ι) :
    exec (each body (l ++ [a])) s = exec (body a) s' := by
  induction l generalizing s with
  | nil =>
    cases h
    show exec (body a >>= _) s' = _
    rw [exec_bind]
    rcases hbody : exec (body a) s' with ⟨e | flow, s₁⟩
    · rfl
    · cases flow <;> rfl
  | cons b l ih =>
    unfold each at h
    rw [exec_bind] at h
    show exec (body b >>= _) s = _
    rw [exec_bind]
    rcases hbody : exec (body b) s with ⟨e | flow, s₁⟩
    · rw [hbody] at h
      cases h
    · rw [hbody] at h
      cases flow with
      | next => exact ih h
      | done => cases h

/-! ## Pre- and postconditions -/

/-- From a state with `p`, the procedure returns with `q` or fails with `r`. -/
def Spec (p : σ → Prop) (x : Proc σ ε α) (q : α → σ → Prop) (r : ε → σ → Prop) : Prop :=
  ∀ s, p s → (∃ a s', exec x s = (.ok a, s') ∧ q a s') ∨ ∃ e s', exec x s = (.error e, s') ∧ r e s'

namespace Spec

variable {p p' : σ → Prop} {x : Proc σ ε α} {q q' : α → σ → Prop} {r r' : ε → σ → Prop}

theorem weaken (h : Spec p x q r) (hp : ∀ s, p' s → p s) (hq : ∀ a s, q a s → q' a s)
    (hr : ∀ e s, r e s → r' e s) : Spec p' x q' r' := by
  intro s hs
  rcases h s (hp s hs) with ⟨a, s', he, ha⟩ | ⟨e, s', he, hb⟩
  · exact .inl ⟨a, s', he, hq a s' ha⟩
  · exact .inr ⟨e, s', he, hr e s' hb⟩

theorem bind {f : α → Proc σ ε β} {t : β → σ → Prop} (hx : Spec p x q r)
    (hf : ∀ a, Spec (q a) (f a) t r) : Spec p (x >>= f) t r := by
  intro s hs
  rcases hx s hs with ⟨a, s', he, ha⟩ | ⟨e, s', he, hb⟩
  · rw [exec_bind, he]
    exact hf a s' ha
  · rw [exec_bind, he]
    exact .inr ⟨e, s', rfl, hb⟩

theorem pure (a : α) : Spec (q a) (Pure.pure a : Proc σ ε α) q r :=
  fun s hs => .inl ⟨a, s, rfl, hs⟩

theorem throw (e : ε) : Spec (r e) (MonadExcept.throw e : Proc σ ε α) q r :=
  fun s hs => .inr ⟨e, s, rfl, hs⟩

/-- The state that is read is the one that the rest starts from. -/
theorem read {f : σ → Proc σ ε β} {t : β → σ → Prop}
    (h : ∀ s, p s → Spec (fun s' => s' = s) (f s) t r) : Spec p (early_exit.read >>= f) t r :=
  fun s hs => h s hs s rfl

/-- An invariant of the loop body is an invariant of the loop. -/
theorem each {inv : σ → Prop} {body : ι → Proc σ ε Flow} {l : List ι}
    (h : ∀ a ∈ l, Spec inv (body a) (fun _ => inv) r) :
    Spec inv (early_exit.each body l) (fun _ => inv) r := by
  induction l with
  | nil => exact Spec.pure (q := fun _ => inv) Flow.next
  | cons a l ih =>
    refine Spec.bind (h a List.mem_cons_self) fun flow => ?_
    cases flow with
    | next => exact ih fun b hb => h b (List.mem_cons_of_mem _ hb)
    | done => exact Spec.pure (q := fun _ => inv) Flow.done

end Spec

/-- A procedure that cannot fail. -/
theorem Spec.returns {p : σ → Prop} {x : Proc σ ε α} {q : α → σ → Prop}
    (h : Spec p x q fun _ _ => False) {s : σ} (hs : p s) :
    ∃ a s', exec x s = (.ok a, s') ∧ q a s' := by
  rcases h s hs with hok | ⟨e, s', -, hfalse⟩
  · exact hok
  · exact hfalse.elim

/-- What a run that returned has established. -/
theorem Spec.of_ok {p : σ → Prop} {x : Proc σ ε α} {q : α → σ → Prop} {r : ε → σ → Prop}
    (h : Spec p x q r) {s s' : σ} {a : α} (hs : p s) (hrun : exec x s = (.ok a, s')) : q a s' := by
  rcases h s hs with ⟨a₁, s₁, he, hq⟩ | ⟨e, s₁, he, -⟩
  · obtain ⟨ha, rfl⟩ := Prod.mk.inj (he.symm.trans hrun)
    obtain rfl := Except.ok.inj ha
    exact hq
  · cases he.symm.trans hrun

/-- What holds in the state after a run, however it ended. -/
theorem Spec.always_iff {p inv : σ → Prop} {x : Proc σ ε α} :
    Spec p x (fun _ => inv) (fun _ => inv) ↔ ∀ s, p s → inv (exec x s).2 := by
  constructor
  · intro h s hs
    rcases h s hs with ⟨a, s', he, hi⟩ | ⟨e, s', he, hi⟩
    · rw [he]
      exact hi
    · rw [he]
      exact hi
  · intro h s hs
    rcases he : exec x s with ⟨e | a, s'⟩
    · exact .inr ⟨e, s', rfl, by simpa [he] using h s hs⟩
    · exact .inl ⟨a, s', rfl, by simpa [he] using h s hs⟩

end Procedures

end early_exit
