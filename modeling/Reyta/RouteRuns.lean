-- What the watch over the path does over any number of calls. Only the calls
-- that are due look at the path, and the watch remembers only the last of them.
import Reyta.CallMachine
import Reyta.Route

open byte_string

namespace rtp2_core.transfer.RouteWatch

open events route

/-- A time, in milliseconds, and the path at that time. -/
abbrev Look := Nat × Route

/-- A call at the time of the look. -/
def poll (transfer_id : Arr 32) (w : RouteWatch) (o : Look) :
    (List Event × Except TransferError Unit) × RouteWatch :=
  ((w.poll_with transfer_id o.1 o.2).2, (w.poll_with transfer_id o.1 o.2).1)

/-- The calls at or after the `next_check` of their watch, in their order. -/
def due (transfer_id : Arr 32) : RouteWatch → List Look → List Look
  | _, [] => []
  | w, o :: looks =>
    (if w.next_check ≤ o.1 then [o] else []) ++ due transfer_id (poll transfer_id w o).2 looks

/-- All that the watch keeps, while there is no error: the last due look. -/
def watching (initial : Route) (policy : RoutePolicy) (start : Nat) : Option Look → RouteWatch
  | none => new initial policy start
  | some o => ⟨o.2, policy, o.1 + ROUTE_WATCH_INTERVAL, if policy.admits o.2 then 0 else 1⟩

variable {initial : Route} {policy : RoutePolicy} {start : Nat}

section one_call

variable (transfer_id : Arr 32) {w : RouteWatch} {now : Nat}

theorem poll_with_early (h : now < w.next_check) (route : Route) :
    w.poll_with transfer_id now route = (w, [], .ok ()) := by
  unfold poll_with
  rw [if_pos h]

/-- A due call takes the path over. What it returns depends on the policy and on
the strikes before it. -/
theorem poll_with_due (h : w.next_check ≤ now) (route : Route) :
    (w.poll_with transfer_id now route).1 = ⟨route, w.policy, now + ROUTE_WATCH_INTERVAL,
      if w.policy.admits route then 0 else one_more w.strikes⟩ ∧
    (w.poll_with transfer_id now route).2.2 =
      if w.policy.admits route = false ∧ ROUTE_WATCH_STRIKES ≤ one_more w.strikes then
        .error (.RouteRefused route) else .ok () := by
  unfold poll_with
  rw [if_neg (Nat.not_lt.2 h)]
  by_cases hadmits : w.policy.admits route = true
  · simp [hadmits]
  · simp [hadmits]

end one_call

/-! ## The last due look -/

theorem policy_watching (previous : Option Look) :
    (watching initial policy start previous).policy = policy := by
  cases previous <;> rfl

theorem last_watching (previous : Option Look) :
    (watching initial policy start previous).last = (previous.map Prod.snd).getD initial := by
  cases previous <;> rfl

theorem next_check_watching (previous : Option Look) :
    (watching initial policy start previous).next_check =
      (previous.map Prod.fst).getD start + ROUTE_WATCH_INTERVAL := by
  cases previous <;> rfl

/-- The strike after a refused look is one too many, and no other is. -/
theorem strikes_watching (previous : Option Look) :
    ROUTE_WATCH_STRIKES ≤ one_more (watching initial policy start previous).strikes ↔
      ∃ o ∈ previous, policy.admits o.2 = false := by
  cases previous with
  | none => simp [watching, new, one_more, ROUTE_WATCH_STRIKES]
  | some o =>
    cases hadmits : policy.admits o.2 with
    | true => simp [watching, hadmits, one_more, ROUTE_WATCH_STRIKES]
    | false => simp [watching, hadmits, one_more, ROUTE_WATCH_STRIKES]

theorem strikes_eq_zero {previous : Option Look}
    (h : ¬ ∃ o ∈ previous, policy.admits o.2 = false) :
    (watching initial policy start previous).strikes = 0 := by
  cases previous with
  | none => rfl
  | some o =>
    cases hadmits : policy.admits o.2 with
    | true => simp [watching, hadmits]
    | false => exact absurd ⟨o, rfl, hadmits⟩ h

theorem poll_with_watching (transfer_id : Arr 32) {previous : Option Look} {now : Nat}
    (hdue : (watching initial policy start previous).next_check ≤ now) (route : Route) :
    let result := ((watching initial policy start previous).poll_with transfer_id now route).2.2
    (result = .ok () ∨ result = .error (.RouteRefused route)) ∧
    (result = .error (.RouteRefused route) ↔
      policy.admits route = false ∧ ∃ o ∈ previous, policy.admits o.2 = false) := by
  intro result
  have hresult : result = _ := (poll_with_due transfer_id hdue route).2
  rw [policy_watching] at hresult
  rw [← @strikes_watching initial policy start previous, hresult]
  split_ifs with hstop
  · exact ⟨.inr rfl, fun _ => hstop, fun _ => rfl⟩
  · exact ⟨.inl rfl, fun h => (by cases h), fun h => absurd h hstop⟩

/-- One call that returns no error. -/
theorem poll_watching {transfer_id : Arr 32} {previous : Option Look} {o : Look}
    (hok : (poll transfer_id (watching initial policy start previous) o).1.2 = .ok ()) :
    (poll transfer_id (watching initial policy start previous) o).2 =
      watching initial policy start
        (if (watching initial policy start previous).next_check ≤ o.1 then some o
          else previous) := by
  unfold poll at hok ⊢
  by_cases hdue : (watching initial policy start previous).next_check ≤ o.1
  · rw [if_pos hdue, (poll_with_due transfer_id hdue o.2).1, policy_watching, watching]
    cases hadmits : policy.admits o.2 with
    | true => rfl
    | false =>
      -- A strike before this one would have made it an error.
      have hfirst : ¬ ∃ o ∈ previous, policy.admits o.2 = false := by
        intro hstruck
        rw [(poll_with_watching transfer_id hdue o.2).2.2 ⟨hadmits, hstruck⟩] at hok
        cases hok
      rw [strikes_eq_zero hfirst]
      rfl
  · rw [if_neg hdue, poll_with_early transfer_id (Nat.not_le.1 hdue)]

/-- Calls that return no error. -/
theorem after_watching {transfer_id : Arr 32} (looks : List Look) {previous : Option Look}
    (hok : ∀ ev ∈ call_machine.events (poll transfer_id) (watching initial policy start previous)
      looks, ev.2 = .ok ()) :
    call_machine.after (poll transfer_id) (watching initial policy start previous) looks =
      watching initial policy start
        ((due transfer_id (watching initial policy start previous) looks).getLast?.or
          previous) := by
  induction looks generalizing previous with
  | nil => rfl
  | cons o looks ih =>
    rw [call_machine.events, List.forall_mem_cons] at hok
    obtain ⟨hfirst, hrest⟩ := hok
    rw [call_machine.after, due, List.getLast?_append]
    rw [poll_watching hfirst] at hrest ⊢
    rw [ih hrest, Option.or_assoc]
    split_ifs
    · rfl
    · rfl

/-- The calls of a watch, up to and with the first error. `before` are the calls
so far, and `previous` is the last of them that was due. A call that is not due does
not depend on the path and changes nothing. One that is due comes 500 ms after
`previous` or later, tells the path if it is another one, and ends the transfer
exactly if the policy refuses both its path and the path of `previous`. -/
theorem a_watch_ends_at_the_second_refusal_in_a_row (initial : Route) (policy : RoutePolicy)
    (start : Nat) (transfer_id : Arr 32) (before : List Look)
    (hok : ∀ ev ∈ call_machine.events (poll transfer_id) (new initial policy start) before,
      ev.2 = .ok ()) (now : Nat) :
    let w := call_machine.after (poll transfer_id) (new initial policy start) before
    let previous := (due transfer_id (new initial policy start) before).getLast?
    (now < w.next_check → ∀ route, w.poll_with transfer_id now route = (w, [], .ok ())) ∧
    (w.next_check ≤ now →
      (previous.map Prod.fst).getD start + 500 ≤ now ∧
      ∀ route,
        let result := (w.poll_with transfer_id now route).2.2
        (w.poll_with transfer_id now route).2.1 =
          (if route = (previous.map Prod.snd).getD initial then []
            else [changed transfer_id route]) ∧
        (result = .ok () ∨ result = .error (.RouteRefused route)) ∧
        (result = .error (.RouteRefused route) ↔
          policy.admits route = false ∧ ∃ o ∈ previous, policy.admits o.2 = false)) := by
  intro w previous
  have hw : w = watching initial policy start previous := by
    have hafter := @after_watching initial policy start transfer_id before none hok
    rw [Option.or_none] at hafter
    exact hafter
  refine ⟨fun hearly => poll_with_early transfer_id hearly, fun hdue => ⟨?_, fun route => ?_⟩⟩
  · rw [hw, next_check_watching] at hdue
    exact hdue
  · refine ⟨?_, ?_⟩
    · rw [poll_with_pushed, hw, last_watching, ← hw]
      simp only [hdue, true_and, ne_eq, ite_not]
    · rw [hw] at hdue ⊢
      exact poll_with_watching transfer_id hdue route

/-- A relay where only direct paths are accepted: it may stay for one look. -/
theorem a_relay_ends_the_transfer_at_the_second_look :
    let w := call_machine.after (poll (.replicate 32 0)) (new (.Direct .Private) .DirectOnly 0)
      [(499, .Relay), (500, .Relay), (999, .Direct .Private)]
    (w.poll_with (.replicate 32 0) 1000 .Relay).2.2 = .error (.RouteRefused .Relay) := by
  intro w
  have h := a_watch_ends_at_the_second_refusal_in_a_row (.Direct .Private) .DirectOnly 0
    (.replicate 32 0) [(499, .Relay), (500, .Relay), (999, .Direct .Private)] (by decide) 1000
  exact ((h.2 (by decide)).2 .Relay).2.2.2 ⟨rfl, (500, .Relay), rfl, rfl⟩

end rtp2_core.transfer.RouteWatch
