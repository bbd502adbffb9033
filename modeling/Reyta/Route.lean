-- The path that a transfer uses, the policy about it, and the watch over the
-- path while a transfer runs. A path that the policy refuses twice in a row
-- ends the transfer.
import Reyta.Bytes

open byte_string

namespace rtp2_core.route

/-- How far the bytes travelled on a direct path. -/
inductive AddressClass where
  | Loopback
  | Private
  | Public
  | Shared
  deriving DecidableEq, Repr

def AddressClass.as_u64 : AddressClass → UInt64
  | .Loopback => 0
  | .Private => 1
  | .Public => 2
  | .Shared => 3

/-- The path that a transfer used. -/
inductive Route where
  | Direct (class_ : AddressClass)
  | Relay
  | Unknown
  deriving DecidableEq, Repr

namespace Route

def as_u64 : Route → UInt64
  | .Direct _ => 0
  | .Relay => 1
  | .Unknown => 2

def address_class : Route → Option AddressClass
  | .Direct c => some c
  | _ => none

end Route

/-- What the application accepts. -/
inductive RoutePolicy where
  | Any
  | DirectOnly
  | LoopbackOnly
  deriving DecidableEq, Repr

def RoutePolicy.admits : RoutePolicy → Route → Bool
  | .Any, _ => true
  | .DirectOnly, .Direct _ => true
  | .LoopbackOnly, .Direct .Loopback => true
  | _, _ => false

end rtp2_core.route

namespace rtp2_core.events

open route

inductive ProgressRole where
  | Receiving
  | Sending
  deriving DecidableEq, Repr

inductive Event where
  | TransferStarted (transfer_id : Arr 32) (objects total_bytes : UInt64)
  | TransferProgress (transfer_id : Arr 32) (role : ProgressRole)
      (bytes total_bytes chunks total_chunks : UInt64)
  | ObjectCompleted (transfer_id object_id plaintext_digest : Arr 32)
  | TransferCompleted (transfer_id : Arr 32) (objects : UInt64)
  | TransferFailed (transfer_id : Arr 32) (code : UInt64)
  | TransferCancelled (transfer_id : Arr 32)
  | EventsDropped (lost : UInt64)
  | TransferRoute (transfer_id : Arr 32) (route : UInt64) (address_class : Option UInt64)
  deriving DecidableEq

end rtp2_core.events

namespace rtp2_core.transfer

open events route

inductive TransferError where
  | Io (message : String)
  | Handshake
  | Protocol (message : String)
  | Crypto (message : String)
  | Timeout
  | RouteRefused (route : Route)
  deriving DecidableEq, Repr

/-- In milliseconds. -/
def ROUTE_WATCH_INTERVAL : Nat := 500
def ROUTE_WATCH_STRIKES : UInt8 := 2

/-- Times are in milliseconds. -/
structure RouteWatch where
  last : Route
  policy : RoutePolicy
  next_check : Nat
  strikes : UInt8
  deriving DecidableEq

namespace RouteWatch

def new (initial : Route) (policy : RoutePolicy) (now : Nat) : RouteWatch :=
  ⟨initial, policy, now + ROUTE_WATCH_INTERVAL, 0⟩

/-- `u8::saturating_add(1)` -/
def one_more (strikes : UInt8) : UInt8 := if strikes = 255 then 255 else strikes + 1

/-- The event of a path, as it is pushed. -/
def changed (transfer_id : Arr 32) (route : Route) : Event :=
  .TransferRoute transfer_id route.as_u64 (route.address_class.map AddressClass.as_u64)

/-- The watch afterwards, the events that were pushed, and the result. The
path is `route` at the time of the call. -/
def poll_with (w : RouteWatch) (transfer_id : Arr 32) (now : Nat) (route : Route) :
    RouteWatch × List Event × Except TransferError Unit :=
  if now < w.next_check then (w, [], .ok ())
  else
    let pushed := if route ≠ w.last then [changed transfer_id route] else []
    let w := { w with next_check := now + ROUTE_WATCH_INTERVAL, last := route }
    if w.policy.admits route then ({ w with strikes := 0 }, pushed, .ok ())
    else
      let w := { w with strikes := one_more w.strikes }
      (w, pushed, if w.strikes ≥ ROUTE_WATCH_STRIKES then .error (.RouteRefused route) else .ok ())

/-- A change is told when it is seen, and nothing else is. -/
theorem poll_with_pushed (w : RouteWatch) (transfer_id : Arr 32) (now : Nat) (route : Route) :
    (w.poll_with transfer_id now route).2.1 =
      if w.next_check ≤ now ∧ route ≠ w.last then [changed transfer_id route] else [] := by
  unfold poll_with
  by_cases hnow : now < w.next_check
  · rw [if_pos hnow, if_neg fun h => by omega]
  · by_cases hadmits : w.policy.admits route
    · simp [hnow, hadmits, Nat.not_lt.1 hnow]
    · simp [hnow, hadmits, Nat.not_lt.1 hnow]

/-- A path that the policy admits is no reason to stop. -/
theorem poll_with_of_admits {w : RouteWatch} {route : Route} (h : w.policy.admits route = true)
    (transfer_id : Arr 32) (now : Nat) :
    (w.poll_with transfer_id now route).2.2 = .ok () ∧
      (w.poll_with transfer_id now route).1.policy = w.policy := by
  unfold poll_with
  by_cases hnow : now < w.next_check
  · simp [hnow]
  · simp [hnow, h]

end RouteWatch

end rtp2_core.transfer
