-- Steady parsers. What such a parser has decided on the tokens that are there stays
-- decided when more tokens arrive, so that it can read from a stream piece by piece.
import Reyta.ExactParser
import Reyta.StreamParties

open stream_party

namespace exact_parse

variable {τ φ κ ε α β : Type}

/-- Only the error `short` may go away when there are more tokens. -/
structure Steady (short : ε) (p : Parser τ κ ε α) : Prop where
  ok : ∀ {s : List τ} {d : κ} {a : α} {i : Input τ κ} (t : List τ), p ⟨s, d⟩ = .ok (a, i) →
    p ⟨s ++ t, d⟩ = .ok (a, ⟨i.rest ++ t, i.mark⟩)
  error : ∀ {s : List τ} {d : κ} {e : ε} (t : List τ), p ⟨s, d⟩ = .error e → e ≠ short →
    p ⟨s ++ t, d⟩ = .error e

namespace Steady

variable {short : ε}

theorem pure (a : α) : Steady short (Pure.pure a : Parser τ κ ε α) where
  ok t h := by
    cases h
    rfl
  error t h := by cases h

theorem fail_if (c : Prop) [Decidable c] (e : ε) :
    Steady short (exact_parse.fail_if c e : Parser τ κ ε Unit) where
  ok t h := by
    unfold exact_parse.fail_if at h ⊢
    by_cases hc : c
    · simp [hc] at h
    · simp only [hc, if_false] at h ⊢
      cases h
      rfl
  error t h _ := by
    unfold exact_parse.fail_if at h ⊢
    by_cases hc : c
    · simpa [hc] using h
    · simp [hc] at h

/-- A parser that wants more tokens than there are is not decided. -/
theorem take (n : Nat) : Steady short (exact_parse.take n short : Parser τ κ ε (List τ)) where
  ok {s} {d} {a} {i} t h := by
    unfold exact_parse.take at h ⊢
    by_cases hlen : s.length < n
    · simp [hlen] at h
    · simp only [hlen, if_false] at h
      cases h
      have hle : n ≤ s.length := Nat.not_lt.1 hlen
      rw [if_neg (by simp; omega), List.take_append_of_le_length hle,
        List.drop_append_of_le_length hle]
  error {s} {d} {e} t h hne := by
    unfold exact_parse.take at h
    by_cases hlen : s.length < n
    · simp only [hlen, if_true] at h
      cases h
      exact absurd rfl hne
    · simp [hlen] at h

theorem bind {p : Parser τ κ ε α} {q : α → Parser τ κ ε β} (hp : Steady short p)
    (hq : ∀ a, Steady short (q a)) : Steady short (p >>= q) where
  ok {s} {d} {b} {i} t h := by
    obtain ⟨a, j, hj, hb⟩ := run_bind_eq_ok.1 h
    exact run_bind_eq_ok.2 ⟨a, _, hp.ok t hj, (hq a).ok t hb⟩
  error {s} {d} {e} t h hne := by
    rcases hrun : p ⟨s, d⟩ with e' | ⟨a, j⟩
    · rw [run_bind_of_error hrun] at h
      cases h
      exact run_bind_of_error (hp.error t hrun hne)
    · rw [run_bind_of_ok hrun] at h
      rw [run_bind_of_ok (hp.ok t hrun)]
      exact (hq a).error t h hne

theorem ite {c : Prop} [Decidable c] {p q : Parser τ κ ε α} (hp : Steady short p)
    (hq : Steady short q) : Steady short (if c then p else q) := by
  by_cases hc : c
  · rwa [if_pos hc]
  · rwa [if_neg hc]

end Steady

/-- What a parser makes of the tokens that are there: on the error `short` it waits for
more. -/
def scan [DecidableEq ε] (short : ε) (p : Parser τ Unit ε α) (s : List τ) : Scan τ ε α :=
  match p ⟨s, ()⟩ with
  | .ok (a, i) => .got a i.rest
  | .error e => if e = short then .wait else .fail e

variable [DecidableEq ε] {short : ε} {p : Parser τ Unit ε α}

theorem scan_of_ok {s rest : List τ} {a : α} (h : p ⟨s, ()⟩ = .ok (a, ⟨rest, ()⟩)) :
    scan short p s = .got a rest := by
  unfold scan
  rw [h]

theorem scan_eq_got {s rest : List τ} {a : α} (h : scan short p s = .got a rest) :
    p ⟨s, ()⟩ = .ok (a, ⟨rest, ()⟩) := by
  unfold scan at h
  rcases hrun : p ⟨s, ()⟩ with e | ⟨b, i⟩
  · simp only [hrun] at h
    split_ifs at h
  · simp only [hrun, Scan.got.injEq] at h
    obtain ⟨rfl, rfl⟩ := h
    rfl

theorem scan_eq_fail {s : List τ} {e : ε} (h : scan short p s = .fail e) :
    p ⟨s, ()⟩ = .error e ∧ e ≠ short := by
  unfold scan at h
  rcases hrun : p ⟨s, ()⟩ with e' | ⟨b, i⟩
  · simp only [hrun] at h
    split_ifs at h with hshort
    cases h
    exact ⟨rfl, hshort⟩
  · simp [hrun] at h

/-- A steady parser for each form of message makes a reader of a stream. The stream ends
early with the error `short`. -/
def reader (short : ε) (p : φ → Parser τ Unit ε α) (hp : ∀ form, Steady short (p form)) :
    Reader τ φ ε α where
  scan form := scan short (p form)
  ended := short
  got_append t h := scan_of_ok ((hp _).ok t (scan_eq_got h))
  fail_append t h := by
    obtain ⟨herror, hne⟩ := scan_eq_fail h
    unfold scan
    simp only [(hp _).error t herror hne, if_neg hne]

end exact_parse
