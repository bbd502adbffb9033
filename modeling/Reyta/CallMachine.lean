-- State machines that are driven by calls. Each call returns an event and the
-- next state. What holds of every event of a run is shown from one call.
import Mathlib.Order.Basic
import Mathlib.Tactic.Common

namespace call_machine

variable {σ γ η κ : Type} (call : σ → γ → η × σ)

/-- The events of the calls, in their order. -/
def events : σ → List γ → List η
  | _, [] => []
  | s, c :: cs => (call s c).1 :: events (call s c).2 cs

/-- The state after the calls. -/
def after : σ → List γ → σ
  | s, [] => s
  | s, c :: cs => after (call s c).2 cs

/-- How many of the calls change what `f` sees of the state. -/
def changes [DecidableEq κ] (f : σ → κ) : σ → List γ → Nat
  | _, [] => 0
  | s, c :: cs => (if f (call s c).2 = f s then 0 else 1) + changes f (call s c).2 cs

variable {call}

theorem events_append (s : σ) (cs cs' : List γ) :
    events call s (cs ++ cs') = events call s cs ++ events call (after call s cs) cs' := by
  induction cs generalizing s with
  | nil => rfl
  | cons c cs ih => simp [events, after, ih]

theorem after_append (s : σ) (cs cs' : List γ) :
    after call s (cs ++ cs') = after call (after call s cs) cs' := by
  induction cs generalizing s with
  | nil => rfl
  | cons c cs ih => simp [after, ih]

/-- An invariant that allows only good events. -/
theorem events_good {inv : σ → Prop} {good : η → Prop}
    (h : ∀ s c, inv s → good (call s c).1 ∧ inv (call s c).2) {s : σ} (hs : inv s)
    {cs : List γ} {ev : η} (hev : ev ∈ events call s cs) : good ev := by
  induction cs generalizing s with
  | nil => cases hev
  | cons c cs ih =>
    obtain ⟨hgood, hinv⟩ := h s c hs
    rcases List.mem_cons.1 hev with rfl | hev
    · exact hgood
    · exact ih hinv hev

/-- A state that the first call leaves: its event is `first` and the ones after
it are good. -/
theorem events_first {inv : σ → Prop} {first good : η → Prop} {s : σ}
    (hfirst : ∀ c, first (call s c).1 ∧ inv (call s c).2)
    (h : ∀ s c, inv s → good (call s c).1 ∧ inv (call s c).2) {cs : List γ} {ev : η}
    (hev : ev ∈ events call s cs) : first ev ∨ good ev := by
  cases cs with
  | nil => cases hev
  | cons c cs =>
    obtain ⟨hev', hinv⟩ := hfirst c
    rcases List.mem_cons.1 hev with rfl | hev
    · exact .inl hev'
    · exact .inr (events_good h hinv hev)

/-- What one call keeps holds between any two calls of a run. `inv` may look at
the calls that are still to come. -/
theorem after_inv {inv : σ → List γ → Prop}
    (hstep : ∀ s c cs, inv s (c :: cs) → inv (call s c).2 cs) {s : σ} {cs cs' : List γ}
    (hs : inv s (cs ++ cs')) : inv (after call s cs) cs' := by
  induction cs generalizing s with
  | nil => exact hs
  | cons c cs ih => exact ih (hstep s c _ hs)

/-! ## Keys that only grow -/

/-- The keys of the events grow strictly if each key lies between the front of
the state before its call and the front of the state after it. -/
theorem keys_increase [Preorder κ] {inv : σ → List γ → Prop} (front : σ → κ) {key : η → Option κ}
    (hstep : ∀ s c cs, inv s (c :: cs) → inv (call s c).2 cs ∧ front s ≤ front (call s c).2 ∧
      ∀ k ∈ key (call s c).1, front s ≤ k ∧ k < front (call s c).2)
    {s : σ} {cs : List γ} (hs : inv s cs) :
    ((events call s cs).filterMap key).Pairwise (· < ·) ∧
      ∀ k ∈ (events call s cs).filterMap key, front s ≤ k := by
  induction cs generalizing s with
  | nil => simp [events]
  | cons c cs ih =>
    obtain ⟨hinv, hle, hkey⟩ := hstep s c cs hs
    obtain ⟨hsorted, hfront⟩ := ih hinv
    rw [events, List.filterMap_cons]
    cases hk : key (call s c).1 with
    | none => exact ⟨hsorted, fun k hmem => hle.trans (hfront k hmem)⟩
    | some k =>
      obtain ⟨hlow, hhigh⟩ := hkey k hk
      refine ⟨List.pairwise_cons.2 ⟨fun k' hmem => hhigh.trans_le (hfront k' hmem), hsorted⟩, ?_⟩
      intro k' hmem
      rcases List.mem_cons.1 hmem with rfl | hmem
      · exact hlow
      · exact hle.trans (hfront k' hmem)

end call_machine
