-- The path before a transfer. A path that the policy refuses gets some time to become
-- one that it admits. The path that is reported is the one that is decided on.
import Reyta.RouteRuns

open byte_string

namespace rtp2_core.route

/-- The grace period is in milliseconds. -/
structure RouteAdmission where
  policy : RoutePolicy
  grace : Nat
  deriving DecidableEq

def DEFAULT_ROUTE_GRACE : Nat := 10 * 1000

def RouteAdmission.new (policy : RoutePolicy) : RouteAdmission := ⟨policy, DEFAULT_ROUTE_GRACE⟩

end rtp2_core.route

namespace rtp2_core.transfer

open events route RouteWatch

/-- The loop of `poll_until_admissible`. A look has the time at the check of the loop and
the path after the sleep. Without a look the loop still waits. -/
def poll_loop (policy : RoutePolicy) (deadline : Nat) : Route → List Look → Option Route
  | _, [] => none
  | last, (now, route) :: looks =>
    if now < deadline then
      if policy.admits route then some route else poll_loop policy deadline route looks
    else some last

/-- `now` is the time at the start. -/
def poll_until_admissible (policy : RoutePolicy) (initial : Route) (grace now : Nat)
    (looks : List Look) : Option Route :=
  if policy.admits initial then some initial
  else poll_loop policy (now + grace) initial looks

/-- What is seen of the path before a transfer. -/
structure PathLooks where
  initial : Route
  now : Nat
  looks : List Look

/-- The event that is pushed, and the result. -/
def admit_route (transfer_id : Arr 32) (admission : RouteAdmission) (path : PathLooks) :
    Option (List Event × Except TransferError Route) :=
  (poll_until_admissible admission.policy path.initial admission.grace path.now path.looks).map
    fun route => ([changed transfer_id route],
      if admission.policy.admits route = false then .error (.RouteRefused route) else .ok route)

/-! ## How long it waits, and for what -/

/-- Every turn of the loop sleeps for 100 milliseconds at least. -/
def Paced : Nat → List Look → Prop
  | _, [] => True
  | now, o :: looks => now ≤ o.1 ∧ Paced (o.1 + 100) looks

instance decidablePaced : (now : Nat) → (looks : List Look) → Decidable (Paced now looks)
  | _, [] => isTrue trivial
  | now, o :: looks =>
    have := decidablePaced (o.1 + 100) looks
    inferInstanceAs (Decidable (now ≤ o.1 ∧ Paced (o.1 + 100) looks))

/-- The paths that are seen before the deadline. -/
def seen (deadline : Nat) (looks : List Look) : List Route :=
  (looks.takeWhile fun o => o.1 < deadline).map Prod.snd

/-- The first path that the policy admits, or the last one. -/
def chosen (policy : RoutePolicy) (first : Route) (routes : List Route) : Route :=
  ((first :: routes).find? fun route => policy.admits route).getD (routes.getLastD first)

section wait

variable {policy : RoutePolicy} {deadline now : Nat} {looks : List Look} {initial : Route}

theorem seen_cons_of_lt {o : Look} (h : o.1 < deadline) :
    seen deadline (o :: looks) = o.2 :: seen deadline looks := by
  unfold seen
  simp [h]

theorem seen_cons_of_le {o : Look} (h : deadline ≤ o.1) : seen deadline (o :: looks) = [] := by
  unfold seen
  simp [Nat.not_lt.2 h]

/-- A refused path is passed over. -/
theorem chosen_cons_of_refused {first route : Route} {routes : List Route}
    (h : policy.admits first = false) :
    chosen policy first (route :: routes) = chosen policy route routes := by
  unfold chosen
  rw [List.find?_cons_of_neg (by simp [h]), List.getLastD_cons]

theorem chosen_of_admits {first : Route} {routes : List Route}
    (h : policy.admits first = true) : chosen policy first routes = first := by
  unfold chosen
  simp [h]

/-- The path that is chosen is admitted if one of them is. -/
theorem admits_chosen_iff {first : Route} {routes : List Route} :
    policy.admits (chosen policy first routes) = true ↔
      ∃ route ∈ first :: routes, policy.admits route = true := by
  induction routes generalizing first with
  | nil =>
    by_cases h : policy.admits first = true
    · simp [chosen_of_admits h, h]
    · simp [chosen, h]
  | cons route routes ih =>
    by_cases h : policy.admits first = true
    · simp [chosen_of_admits h, h]
    · rw [chosen_cons_of_refused (by simpa using h), ih]
      simp [h]

/-- The time of a look is behind that of every look before it. -/
theorem length_seen_le (h : Paced now looks) :
    (seen deadline looks).length ≤ (deadline - now + 99) / 100 := by
  induction looks generalizing now with
  | nil => simp [seen]
  | cons o looks ih =>
    obtain ⟨hle, hpaced⟩ := h
    by_cases hlt : o.1 < deadline
    · have hrest := ih hpaced
      rw [seen_cons_of_lt hlt, List.length_cons]
      omega
    · rw [seen_cons_of_le (Nat.not_lt.1 hlt)]
      exact Nat.zero_le _

/-- With looks enough to pass the deadline the loop ends. -/
theorem poll_loop_eq (hrefused : policy.admits initial = false) (h : Paced now looks)
    (hnow : now < deadline + 100) (hlooks : deadline + 100 ≤ now + 100 * looks.length) :
    poll_loop policy deadline initial looks =
      some (chosen policy initial (seen deadline looks)) := by
  induction looks generalizing now initial with
  | nil =>
    simp only [List.length_nil] at hlooks
    omega
  | cons o looks ih =>
    obtain ⟨hle, hpaced⟩ := h
    unfold poll_loop
    by_cases hlt : o.1 < deadline
    · rw [if_pos hlt, seen_cons_of_lt hlt, chosen_cons_of_refused hrefused]
      by_cases hadmits : policy.admits o.2 = true
      · rw [if_pos hadmits, chosen_of_admits hadmits]
      · rw [if_neg hadmits]
        simp only [List.length_cons] at hlooks
        exact ih (by simpa using hadmits) hpaced (by omega) (by omega)
    · rw [if_neg hlt, seen_cons_of_le (Nat.not_lt.1 hlt)]
      simp [chosen, hrefused]

end wait

/-- Before a transfer: the call comes to a result after at most one sleep for each 100
milliseconds of the grace period that have begun. It decides on the first path that the policy
admits, or on the last one if there is none, and that is the path that it reports. -/
theorem the_first_path_that_is_admitted_in_time_is_taken (transfer_id : Arr 32)
    (admission : RouteAdmission) (path : PathLooks) (hpaced : Paced path.now path.looks)
    (hlooks : admission.grace + 100 ≤ 100 * path.looks.length) :
    let routes := seen (path.now + admission.grace) path.looks
    let route := chosen admission.policy path.initial routes
    admit_route transfer_id admission path = some ([changed transfer_id route],
        if ∃ r ∈ path.initial :: routes, admission.policy.admits r = true then .ok route
        else .error (.RouteRefused route)) ∧
      routes.length ≤ (admission.grace + 99) / 100 := by
  intro routes route
  have hlength : routes.length ≤ (path.now + admission.grace - path.now + 99) / 100 :=
    length_seen_le hpaced
  rw [Nat.add_sub_cancel_left] at hlength
  have hpoll : poll_until_admissible admission.policy path.initial admission.grace path.now
      path.looks = some route := by
    unfold poll_until_admissible
    by_cases hadmits : admission.policy.admits path.initial = true
    · rw [if_pos hadmits, ← chosen_of_admits hadmits]
    · rw [if_neg hadmits]
      exact poll_loop_eq (by simpa using hadmits) hpaced (by omega) (by omega)
  refine ⟨?_, hlength⟩
  unfold admit_route
  rw [hpoll, Option.map_some]
  have hiff : admission.policy.admits route = true ↔
      ∃ r ∈ path.initial :: routes, admission.policy.admits r = true := admits_chosen_iff
  by_cases hadmits : admission.policy.admits route = true
  · rw [if_pos (hiff.1 hadmits)]
    simp [hadmits]
  · rw [if_neg (fun h => hadmits (hiff.2 h))]
    simp [hadmits]

/-- A relay, and after two sleeps a direct path. -/
def upgrading : PathLooks :=
  ⟨.Relay, 0, [(0, .Relay), (110, .Direct .Public), (230, .Relay), (330, .Relay), (440, .Relay)]⟩

theorem an_upgrade_in_time_is_taken :
    admit_route (.replicate 32 1) ⟨.DirectOnly, 250⟩ upgrading =
      some ([changed (.replicate 32 1) (.Direct .Public)], .ok (.Direct .Public)) := by
  have h := (the_first_path_that_is_admitted_in_time_is_taken (.replicate 32 1) ⟨.DirectOnly, 250⟩
    upgrading (by decide) (by decide)).1
  rw [h, if_pos ⟨.Direct .Public, by decide, rfl⟩]
  rfl

end rtp2_core.transfer
