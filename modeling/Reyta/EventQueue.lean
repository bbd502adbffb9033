-- The queue of events that the application polls. It is bounded: a push may
-- take the place of the progress before it, and a full queue loses an event
-- and counts the loss. Every event that was pushed is polled, waiting,
-- superseded or counted as lost.
import Mathlib.Data.List.ReduceOption
import Reyta.CallMachine
import Reyta.LossyQueue
import Reyta.Route

open byte_string call_machine lossy_queue

namespace rtp2_core.events

def MAX_EVENTS : Nat := 1024

namespace Event

/-- The types that end a transfer. -/
def is_terminal : Event → Bool
  | .ObjectCompleted .. => true
  | .TransferCompleted .. => true
  | .TransferFailed .. => true
  | .TransferCancelled .. => true
  | _ => false

/-- Progress is collapsed within one transfer and one role. -/
def progress_key : Event → Option (Arr 32 × ProgressRole)
  | .TransferProgress transfer_id role .. => some (transfer_id, role)
  | _ => none

theorem progress_key_of_terminal {event : Event} (h : event.is_terminal = true) :
    event.progress_key = none := by
  cases event with
  | TransferProgress => cases h
  | _ => rfl

end Event

/-- What the lock protects. -/
structure Inner where
  queue : List Event
  unreported_drops : UInt64

namespace Inner

/-- `EventQueue::new` -/
def new : Inner := ⟨[], 0⟩

/-- The event that gives way: the first that is not terminal, or else the
oldest. -/
def victim (self : Inner) : Nat :=
  (self.queue.findIdx? fun e => !e.is_terminal).getD 0

def evict_one (self : Inner) : Inner where
  queue := self.queue.eraseIdx self.victim
  unreported_drops := saturating_add self.unreported_drops 1

/-- Progress at the back of the queue goes when the next progress of its
transfer and role comes. -/
def collapse (self : Inner) (event : Event) : Inner :=
  if event.progress_key.isSome ∧
      self.queue.getLast?.bind Event.progress_key = event.progress_key then
    { self with queue := self.queue.dropLast }
  else self

def push (self : Inner) (event : Event) : Inner :=
  let self := self.collapse event
  let self := if self.queue.length ≥ MAX_EVENTS then self.evict_one else self
  { self with queue := self.queue ++ [event] }

/-- A poll that does not wait. A poll that waits looks again after each wait,
and what it looked at before is unchanged by it. -/
def poll (self : Inner) : Option Event × Inner :=
  if self.unreported_drops > 0 then
    (some (.EventsDropped self.unreported_drops), { self with unreported_drops := 0 })
  else
    match self.queue with
    | [] => (none, self)
    | event :: queue => (some event, { self with queue })

theorem victim_lt {self : Inner} (h : self.queue ≠ []) : self.victim < self.queue.length := by
  unfold victim
  cases hfind : self.queue.findIdx? fun e => !e.is_terminal with
  | none => exact List.length_pos_iff.2 h
  | some index => exact (List.findIdx?_eq_some_iff_getElem.1 hfind).1

theorem collapse_cases (self : Inner) (event : Event) :
    self.collapse event = self ∨
    ∃ queue last key, self.queue = queue ++ [last] ∧ last.progress_key = some key ∧
      event.progress_key = some key ∧ self.collapse event = { self with queue } := by
  unfold collapse
  split_ifs with h
  · obtain ⟨key, hkey⟩ := Option.isSome_iff_exists.1 h.1
    obtain ⟨last, hlast, hkey'⟩ := Option.bind_eq_some_iff.1 (h.2.trans hkey)
    obtain ⟨queue, hqueue⟩ := List.getLast?_eq_some_iff.1 hlast
    exact .inr ⟨queue, last, key, hqueue, hkey', hkey, by simp [hqueue]⟩
  · exact .inl rfl

/-- A push appends the event, to a full queue after an eviction. -/
theorem push_cases (self : Inner) (event : Event) :
    (self.collapse event).queue.length < MAX_EVENTS ∧
      self.push event =
        ⟨(self.collapse event).queue ++ [event], (self.collapse event).unreported_drops⟩ ∨
    MAX_EVENTS ≤ (self.collapse event).queue.length ∧
      self.push event = ⟨(self.collapse event).evict_one.queue ++ [event],
        (self.collapse event).evict_one.unreported_drops⟩ := by
  unfold push
  by_cases hfull : (self.collapse event).queue.length ≥ MAX_EVENTS
  · exact .inr ⟨hfull, by simp only [hfull, if_true]⟩
  · exact .inl ⟨Nat.lt_of_not_le hfull, by simp only [hfull, if_false]⟩

theorem ne_nil_of_full {self : Inner} (h : MAX_EVENTS ≤ self.queue.length) : self.queue ≠ [] :=
  List.length_pos_iff.1 (Nat.lt_of_lt_of_le (by decide) h)

end Inner

/-! ## Calls on a queue -/

inductive Call where
  | push (event : Event)
  | poll

namespace Call

/-- What the caller gets. -/
def run (self : Inner) : Call → Option Event × Inner
  | .push event => (none, self.push event)
  | .poll => self.poll

def pushed_event : Call → Option Event
  | .push event => some event
  | .poll => none

end Call

/-- The queue after the calls, from a new one. -/
def after_calls (calls : List Call) : Inner := after Call.run Inner.new calls

def pushed (calls : List Call) : List Event := calls.filterMap Call.pushed_event

/-- The events that the polls returned, in their order. -/
def polled (calls : List Call) : List Event :=
  (call_machine.events Call.run Inner.new calls).reduceOption

@[simp] theorem after_calls_concat (calls : List Call) (c : Call) :
    after_calls (calls ++ [c]) = (Call.run (after_calls calls) c).2 := by
  simp [after_calls, after_append, after]

@[simp] theorem pushed_concat (calls : List Call) (c : Call) :
    pushed (calls ++ [c]) = pushed calls ++ c.pushed_event.toList := by
  cases c <;> simp [pushed, Call.pushed_event]

theorem pushed_push (calls : List Call) (event : Event) :
    pushed (calls ++ [.push event]) = pushed calls ++ [event] := pushed_concat calls _

theorem pushed_poll (calls : List Call) : pushed (calls ++ [.poll]) = pushed calls :=
  (pushed_concat calls _).trans (List.append_nil _)

@[simp] theorem polled_concat (calls : List Call) (c : Call) :
    polled (calls ++ [c]) = polled calls ++ (Call.run (after_calls calls) c).1.toList := by
  unfold polled after_calls
  rw [events_append, List.reduceOption_append]
  simp only [call_machine.events]
  cases (Call.run (after Call.run Inner.new calls) c).1 <;> simp

/-! ## Every event is accounted for -/

def Event.is_report : Event → Bool
  | .EventsDropped _ => true
  | _ => false

/-- How many lost events a polled event reports. -/
def Event.lost : Event → Nat
  | .EventsDropped lost => lost.toNat
  | _ => 0

/-- The polled events that were pushed, as opposed to reports of a loss. -/
def delivered (calls : List Call) : List Event := (polled calls).filter fun e => !e.is_report

/-- The losses that the polls reported. -/
def reported (calls : List Call) : Nat := ((polled calls).map Event.lost).sum

/-- The event that was pushed as number `i` was the last in the queue when a
progress of its transfer and role was pushed. -/
def Superseded (calls : List Call) (i : Nat) : Prop :=
  ∃ before event rest last key, calls = before ++ .push event :: rest ∧
    i + 1 = (pushed before).length ∧ (pushed before)[i]? = some last ∧
    (after_calls before).queue.getLast? = some last ∧
    last.progress_key = some key ∧ event.progress_key = some key

theorem Superseded.concat {calls : List Call} {i : Nat} (h : Superseded calls i) (c : Call) :
    Superseded (calls ++ [c]) i := by
  obtain ⟨before, event, rest, last, key, rfl, h⟩ := h
  exact ⟨before, event, rest ++ [c], last, key, by simp, h⟩

/-- `l` accounts for the calls. -/
structure Accounts (calls : List Call) (l : Ledger) : Prop where
  ledger : l.Of (pushed calls) (delivered calls) (after_calls calls).queue (Superseded calls)
    (reported calls + (after_calls calls).unreported_drops.toNat)
  newest : l.NewestAtBack (pushed calls)

/-- No more events are lost than were pushed. -/
theorem Accounts.drops_le {calls : List Call} {l : Ledger} (h : Accounts calls l) :
    (after_calls calls).unreported_drops.toNat ≤ (pushed calls).length := by
  have hlen := h.ledger.one_fate.length_eq
  have hlost := h.ledger.lost_eq
  simp only [List.length_append, List.length_range] at hlen
  omega

/-- A poll reports the losses, or takes the oldest event, or finds nothing. -/
theorem Inner.poll_cases (self : Inner) :
    self.poll = (some (.EventsDropped self.unreported_drops), { self with unreported_drops := 0 }) ∨
    self.unreported_drops = 0 ∧ (self.queue = [] ∧ self.poll = (none, self) ∨
      ∃ event queue, self.queue = event :: queue ∧
        self.poll = (some event, { self with queue })) := by
  unfold poll
  split_ifs with h
  · exact .inl rfl
  · refine .inr ⟨UInt64.le_zero_iff.1 (UInt64.not_lt.1 h), ?_⟩
    cases hq : self.queue with
    | nil => exact .inl ⟨rfl, rfl⟩
    | cons event queue => exact .inr ⟨event, queue, rfl, rfl⟩

theorem Accounts.poll {calls : List Call} {l : Ledger} (h : Accounts calls l)
    (hreal : ∀ e ∈ pushed calls, e.is_report = false) :
    ∃ l', Accounts (calls ++ [.poll]) l' := by
  have hledger := h.ledger.mono fun i hi => hi.concat .poll
  rcases (after_calls calls).poll_cases with hpoll | ⟨hzero, ⟨-, hpoll⟩ | ⟨event, queue, hq, hpoll⟩⟩
  · refine ⟨l, ?_, ?_⟩
    · rw [pushed_poll]
      simpa [delivered, reported, Call.run, hpoll, Event.is_report, Event.lost] using hledger
    · rw [pushed_poll]
      exact h.newest
  · refine ⟨l, ?_, ?_⟩
    · rw [pushed_poll]
      simpa [delivered, reported, Call.run, hpoll] using hledger
    · rw [pushed_poll]
      exact h.newest
  · have hevent : event.is_report = false := hreal event (h.ledger.mem_all (by simp [hq]))
    have hlost : event.lost = 0 := by
      cases event with
      | EventsDropped => cases hevent
      | _ => rfl
    rw [hq] at hledger
    obtain ⟨l', hl', hnewest⟩ := hledger.take h.newest
    refine ⟨l', ?_, ?_⟩
    · rw [pushed_poll]
      simpa [delivered, reported, Call.run, hpoll, hevent, hlost] using hl'
    · rw [pushed_poll]
      exact hnewest

/-- Progress at the back that goes is superseded. -/
theorem Accounts.collapse {calls : List Call} {l : Ledger} (h : Accounts calls l) (event : Event) :
    ∃ l' : Ledger, l'.Of (pushed calls) (delivered calls)
      ((after_calls calls).collapse event).queue (Superseded (calls ++ [.push event]))
      (reported calls + ((after_calls calls).collapse event).unreported_drops.toNat) := by
  have hledger := h.ledger.mono fun i hi => hi.concat (.push event)
  rcases (after_calls calls).collapse_cases event with
    heq | ⟨queue, last, key, hq, hlast, hkey, heq⟩
  · rw [heq]
    exact ⟨l, hledger⟩
  · rw [heq]
    rw [hq] at hledger
    refine hledger.replace h.newest ?_
    intro i hi hat
    exact ⟨calls, event, [], last, key, rfl, hi, hat, by simp [hq], hlast, hkey⟩

/-- An event that is evicted is counted. -/
theorem Inner.evict_one_accounts {self : Inner} {all out : List Event} {excused : Nat → Prop}
    {lost : Nat} {l : Ledger} (hne : self.queue ≠ [])
    (hdrops : self.unreported_drops.toNat + 1 < 2 ^ 64)
    (h : l.Of all out self.queue excused (lost + self.unreported_drops.toNat)) :
    ∃ l' : Ledger, l'.Of all out self.evict_one.queue excused
      (lost + self.evict_one.unreported_drops.toNat) := by
  have hcount : self.evict_one.unreported_drops.toNat = self.unreported_drops.toNat + 1 := by
    have hone : (1 : UInt64).toNat = 1 := rfl
    change (saturating_add _ 1).toNat = _
    rw [toNat_saturating_add, hone]
    omega
  rw [hcount, ← Nat.add_assoc]
  exact h.drop (victim_lt hne)

theorem Accounts.push {calls : List Call} {l : Ledger} (h : Accounts calls l) (event : Event)
    (hcount : (pushed calls).length + 1 < 2 ^ 64) :
    ∃ l', Accounts (calls ++ [.push event]) l' := by
  have hout : delivered (calls ++ [.push event]) = delivered calls := by
    simp [delivered, Call.run]
  have hreport : reported (calls ++ [.push event]) = reported calls := by
    simp [reported, Call.run]
  have hdrops : ((after_calls calls).collapse event).unreported_drops.toNat + 1 < 2 ^ 64 := by
    have hle := h.drops_le
    rcases (after_calls calls).collapse_cases event with heq | ⟨_, _, _, _, _, _, heq⟩
    · rw [heq]
      omega
    · rw [heq]
      exact Nat.lt_of_le_of_lt (Nat.add_le_add_right hle 1) hcount
  obtain ⟨l1, h1⟩ := h.collapse event
  suffices hpush : ∃ l' : Ledger, l'.Of (pushed calls ++ [event]) (delivered calls)
      ((after_calls calls).push event).queue (Superseded (calls ++ [.push event]))
      (reported calls + ((after_calls calls).push event).unreported_drops.toNat) ∧
        l'.NewestAtBack (pushed calls ++ [event]) by
    obtain ⟨l', hl', hnewest⟩ := hpush
    refine ⟨l', ?_, ?_⟩
    · rw [pushed_push, hout, hreport, after_calls_concat]
      exact hl'
    · rw [pushed_push]
      exact hnewest
  rcases (after_calls calls).push_cases event with ⟨-, heq⟩ | ⟨hfull, heq⟩
  · rw [heq]
    exact h1.put event
  · obtain ⟨l2, h2⟩ := Inner.evict_one_accounts (Inner.ne_nil_of_full hfull) hdrops h1
    rw [heq]
    exact h2.put event

/-- A push leaves room in a queue that had it. -/
theorem Inner.length_push_le {self : Inner} (h : self.queue.length ≤ MAX_EVENTS) (event : Event) :
    (self.push event).queue.length ≤ MAX_EVENTS := by
  have hcollapse : (self.collapse event).queue.length ≤ MAX_EVENTS := by
    rcases self.collapse_cases event with heq | ⟨queue, last, _, hq, _, _, heq⟩
    · rw [heq]
      exact h
    · rw [heq]
      rw [hq, List.length_append] at h
      exact Nat.le_of_add_right_le h
  rcases self.push_cases event with ⟨hroom, heq⟩ | ⟨hfull, heq⟩
  · rw [heq, List.length_append]
    exact hroom
  · have hlt := victim_lt (ne_nil_of_full hfull)
    rw [heq, List.length_append, List.length_singleton, evict_one, List.length_eraseIdx_of_lt hlt]
    omega

theorem length_queue_le (calls : List Call) : (after_calls calls).queue.length ≤ MAX_EVENTS := by
  induction calls using List.reverseRecOn with
  | nil => exact Nat.zero_le _
  | append_singleton calls c ih =>
    rw [after_calls_concat]
    cases c with
    | push event => exact Inner.length_push_le ih event
    | poll =>
      rcases (after_calls calls).poll_cases with
        hpoll | ⟨-, ⟨-, hpoll⟩ | ⟨event, queue, hq, hpoll⟩⟩
      · simpa [Call.run, hpoll] using ih
      · simpa [Call.run, hpoll] using ih
      · rw [hq, List.length_cons] at ih
        simpa [Call.run, hpoll] using Nat.le_of_succ_le ih

/-- Over any calls the queue stays bounded, and the ledger is complete: what was
polled and what waits are the pushed events in their order, except for those
that were superseded and those that are counted as lost, reported or not. -/
theorem every_event_is_accounted_for (calls : List Call)
    (hreal : ∀ e ∈ pushed calls, e.is_report = false)
    (hcount : (pushed calls).length < 2 ^ 64) :
    (after_calls calls).queue.length ≤ MAX_EVENTS ∧
    ∃ l : Ledger, l.Of (pushed calls) (delivered calls) (after_calls calls).queue
      (Superseded calls) (reported calls + (after_calls calls).unreported_drops.toNat) := by
  refine ⟨length_queue_le calls, ?_⟩
  suffices haccounts : ∃ l, Accounts calls l by
    obtain ⟨l, hl⟩ := haccounts
    exact ⟨l, hl.ledger⟩
  induction calls using List.reverseRecOn with
  | nil => exact ⟨⟨[], [], [], []⟩, Ledger.Of.nil _, by simp [Ledger.NewestAtBack]⟩
  | append_singleton calls c ih =>
    rw [pushed_concat] at hreal hcount
    have hreal' : ∀ e ∈ pushed calls, e.is_report = false :=
      fun e he => hreal e (List.mem_append_left _ he)
    obtain ⟨l, hl⟩ := ih hreal' (by simp only [List.length_append] at hcount; omega)
    cases c with
    | push event => exact hl.push event (by simpa [Call.pushed_event] using hcount)
    | poll => exact hl.poll hreal'

/-- Two progress events and a poll. -/
theorem superseded_progress_is_accounted_for :
    let progress (bytes : UInt64) : Event :=
      .TransferProgress (.replicate 32 1) .Receiving bytes 1000 1 10
    let calls : List Call := [.push (progress 100), .push (progress 200), .poll]
    delivered calls = [progress 200] ∧ Superseded calls 0 ∧
      ∃ l : Ledger, l.Of (pushed calls) (delivered calls) (after_calls calls).queue
        (Superseded calls) (reported calls + (after_calls calls).unreported_drops.toNat) := by
  intro progress calls
  refine ⟨by decide, ?_, (every_event_is_accounted_for calls ?_ ?_).2⟩
  · exact ⟨[.push (progress 100)], progress 200, [.poll], progress 100, _, rfl, rfl, rfl, rfl, rfl,
      rfl⟩
  · decide
  · decide

/-! ## Terminal events -/

/-- The terminal events among them. -/
def terminals (l : List Event) : List Event := l.filter Event.is_terminal

/-- The queue is full of terminal events. -/
def Inner.OnlyTerminals (self : Inner) : Prop :=
  self.queue.length = MAX_EVENTS ∧ ∀ e ∈ self.queue, e.is_terminal = true

/-- The terminal events that were pushed and not polled. -/
def outstanding (calls : List Call) : Nat :=
  (terminals (pushed calls)).length - (terminals (polled calls)).length

/-- Some event is pushed onto a queue that is full of terminal events. -/
def MeetsOnlyTerminals (calls : List Call) : Prop :=
  ∃ before event, before ++ [.push event] <+: calls ∧ (after_calls before).OnlyTerminals

theorem terminals_append (l l' : List Event) : terminals (l ++ l') = terminals l ++ terminals l' :=
  List.filter_append _ _

theorem terminals_eq_self {l : List Event} (h : ∀ e ∈ l, e.is_terminal = true) : terminals l = l :=
  List.filter_eq_self.2 h

theorem terminals_singleton {event : Event} (h : event.is_terminal = false) :
    terminals [event] = [] := by
  simp [terminals, h]

namespace Inner

variable {self : Inner}

theorem collapse_of_onlyTerminals (h : self.OnlyTerminals) (event : Event) :
    self.collapse event = self := by
  rcases self.collapse_cases event with heq | ⟨queue, last, key, hq, hlast, -, -⟩
  · exact heq
  · have hterminal := h.2 last (by simp [hq])
    rw [Event.progress_key_of_terminal hterminal] at hlast
    cases hlast

/-- A queue that is full of terminal events loses the oldest, whatever comes. -/
theorem push_of_onlyTerminals (h : self.OnlyTerminals) (event : Event) :
    (self.push event).queue = self.queue.tail ++ [event] := by
  have hnone : (self.queue.findIdx? fun e => !e.is_terminal) = none := by
    rw [List.findIdx?_eq_none_iff]
    intro e he
    simp [h.2 e he]
  unfold push
  rw [collapse_of_onlyTerminals h]
  simp [h.1, evict_one, victim, hnone]

theorem terminals_evict_one (h : ∃ e ∈ self.queue, e.is_terminal = false) :
    terminals self.evict_one.queue = terminals self.queue := by
  obtain ⟨index, hfind⟩ : ∃ index, (self.queue.findIdx? fun e => !e.is_terminal) = some index := by
    rw [← Option.isSome_iff_exists, List.findIdx?_isSome]
    simpa using h
  obtain ⟨hlt, hevent, -⟩ := List.findIdx?_eq_some_iff_getElem.1 hfind
  have hsplit : self.queue = self.queue.take index ++ self.queue[index] ::
      self.queue.drop (index + 1) := by
    rw [← List.drop_eq_getElem_cons hlt, List.take_append_drop]
  have hevict : self.evict_one.queue = self.queue.take index ++ self.queue.drop (index + 1) := by
    simp [evict_one, victim, hfind, List.eraseIdx_eq_take_drop_succ]
  rw [hevict, terminals_append]
  conv_rhs => rw [hsplit, terminals_append]
  congr 1
  rw [terminals, terminals, List.filter_cons_of_neg (by simpa using hevent)]

theorem terminals_collapse (self : Inner) (event : Event) :
    terminals (self.collapse event).queue = terminals self.queue := by
  rcases self.collapse_cases event with heq | ⟨queue, last, key, hq, hlast, -, heq⟩
  · rw [heq]
  · have hprogress : last.is_terminal = false := by
      cases last with
      | TransferProgress => rfl
      | _ => cases hlast
    rw [heq, hq]
    simp [terminals, hprogress]

/-- A queue with another event in it, or with room, loses no terminal event. -/
theorem terminals_push (hlen : self.queue.length ≤ MAX_EVENTS) (h : ¬ self.OnlyTerminals)
    (event : Event) :
    terminals (self.push event).queue = terminals self.queue ++ terminals [event] := by
  rw [← terminals_collapse self event]
  rcases self.push_cases event with ⟨-, heq⟩ | ⟨hfull, heq⟩
  · rw [heq, terminals_append]
  · rw [heq, terminals_append, terminals_evict_one]
    rcases self.collapse_cases event with heq' | ⟨queue, last, key, hq, -, -, heq'⟩
    · rw [heq'] at hfull ⊢
      by_contra hall
      refine h ⟨Nat.le_antisymm hlen hfull, fun e he => ?_⟩
      by_contra hne
      exact hall ⟨e, he, by simpa using hne⟩
    · rw [heq'] at hfull
      rw [hq, List.length_append, List.length_singleton] at hlen
      exact absurd hfull (Nat.not_le.2 hlen)

/-- A poll moves terminal events out, and loses none. -/
theorem terminals_poll (self : Inner) :
    terminals (self.poll.1.toList ++ self.poll.2.queue) = terminals self.queue := by
  rcases self.poll_cases with hpoll | ⟨-, ⟨-, hpoll⟩ | ⟨event, queue, hq, hpoll⟩⟩
  · rw [hpoll]
    rfl
  · simp [hpoll]
  · simp [hpoll, hq]

end Inner

theorem meetsOnlyTerminals_concat {calls : List Call} {c : Call} :
    MeetsOnlyTerminals (calls ++ [c]) ↔
      MeetsOnlyTerminals calls ∨ ∃ event, c = .push event ∧ (after_calls calls).OnlyTerminals := by
  unfold MeetsOnlyTerminals
  simp only [List.prefix_concat_iff]
  constructor
  · rintro ⟨before, event, heq | hpre, honly⟩
    · obtain ⟨rfl, hc⟩ := List.append_inj' heq rfl
      exact .inr ⟨event, (List.singleton_inj.1 hc).symm, honly⟩
    · exact .inl ⟨before, event, hpre, honly⟩
  · rintro (⟨before, event, hpre, honly⟩ | ⟨event, rfl, honly⟩)
    · exact ⟨before, event, .inr hpre, honly⟩
    · exact ⟨calls, event, .inl rfl, honly⟩

/-- The terminal events that are polled or wait. -/
def kept_terminals (calls : List Call) : List Event :=
  terminals (polled calls ++ (after_calls calls).queue)

theorem kept_terminals_poll (calls : List Call) :
    kept_terminals (calls ++ [.poll]) = kept_terminals calls := by
  unfold kept_terminals
  rw [polled_concat, after_calls_concat, List.append_assoc, terminals_append (polled calls),
    terminals_append (polled calls)]
  exact congrArg _ (Inner.terminals_poll _)

theorem kept_terminals_push {calls : List Call} (event : Event)
    (h : ¬ (after_calls calls).OnlyTerminals) :
    kept_terminals (calls ++ [.push event]) = kept_terminals calls ++ terminals [event] := by
  have hpush := Inner.terminals_push (length_queue_le calls) h event
  unfold kept_terminals
  simp [Call.run, terminals_append, hpush]

/-- One of the terminal events goes. -/
theorem length_kept_terminals_push {calls : List Call} (event : Event)
    (h : (after_calls calls).OnlyTerminals) :
    (kept_terminals (calls ++ [.push event])).length + 1 =
      (kept_terminals calls).length + (terminals [event]).length := by
  have hall := terminals_eq_self h.2
  have htail : terminals (after_calls calls).queue.tail = (after_calls calls).queue.tail :=
    terminals_eq_self fun e he => h.2 e (List.mem_of_mem_tail he)
  have hlen := h.1
  unfold kept_terminals
  simp only [polled_concat, after_calls_concat, Call.run, Inner.push_of_onlyTerminals h,
    terminals_append, hall, htail, Option.toList_none, List.append_nil, List.length_append,
    List.length_tail, hlen]
  have hpos : 0 < MAX_EVENTS := by decide
  omega

/-- Terminal events are lost just when one is pushed onto a queue full of them. -/
theorem kept_terminals_cases (calls : List Call) :
    ¬ MeetsOnlyTerminals calls ∧ kept_terminals calls = terminals (pushed calls) ∨
    MeetsOnlyTerminals calls ∧
      (kept_terminals calls).length < (terminals (pushed calls)).length := by
  induction calls using List.reverseRecOn with
  | nil =>
    refine .inl ⟨?_, rfl⟩
    rintro ⟨before, event, hpre, -⟩
    simp at hpre
  | append_singleton calls c ih =>
    rw [meetsOnlyTerminals_concat]
    cases c with
    | poll =>
      rw [kept_terminals_poll, pushed_poll]
      simpa using ih
    | push event =>
      rw [pushed_push, terminals_append]
      by_cases honly : (after_calls calls).OnlyTerminals
      · have hlen := length_kept_terminals_push event honly
        refine .inr ⟨.inr ⟨event, rfl, honly⟩, ?_⟩
        rw [List.length_append]
        rcases ih with ⟨-, heq⟩ | ⟨-, hlt⟩
        · rw [heq] at hlen
          omega
        · omega
      · rw [kept_terminals_push event honly]
        simpa [honly] using ih

/-- A terminal event that is pushed onto a queue full of them is one too many. -/
theorem outstanding_push {before : List Call} {event : Event}
    (h : (after_calls before).OnlyTerminals) (hterminal : event.is_terminal = true) :
    MAX_EVENTS < outstanding (before ++ [.push event]) := by
  have hkept : (kept_terminals before).length ≤ (terminals (pushed before)).length := by
    rcases kept_terminals_cases before with ⟨-, heq⟩ | ⟨-, hlt⟩
    · rw [heq]
    · exact Nat.le_of_lt hlt
  unfold kept_terminals at hkept
  rw [terminals_append, List.length_append, terminals_eq_self h.2, h.1] at hkept
  have hone : terminals [event] = [event] := terminals_eq_self (by simpa using hterminal)
  unfold outstanding
  simp only [pushed_concat, polled_concat, Call.pushed_event, Call.run, Option.toList_some,
    Option.toList_none, List.append_nil, terminals_append, hone, List.length_append,
    List.length_singleton]
  omega

theorem outstanding_le {before calls : List Call} (h : before <+: calls) :
    outstanding before ≤ (terminals (pushed calls)).length :=
  Nat.le_trans (Nat.sub_le _ _) ((h.filterMap _).filter _).length_le

/-- Terminal events that are pushed onto a queue with room for them wait there. -/
theorem after_pushes {l : List Event} (hterminal : ∀ e ∈ l, e.is_terminal = true)
    (hlen : l.length ≤ MAX_EVENTS) : after_calls (l.map .push) = ⟨l, 0⟩ := by
  induction l using List.reverseRecOn with
  | nil => rfl
  | append_singleton l e ih =>
    rw [List.length_append, List.length_singleton] at hlen
    have hkey := Event.progress_key_of_terminal (hterminal e (by simp))
    have hroom : ¬ l.length ≥ MAX_EVENTS := by omega
    rw [List.map_append, List.map_singleton, after_calls_concat,
      ih (fun e he => hterminal e (List.mem_append_left _ he)) (by omega)]
    simp [Call.run, Inner.push, Inner.collapse, hkey, hroom]

theorem pushed_map_push (l : List Event) : pushed (l.map .push) = l := by
  simp [pushed, Call.pushed_event, List.filterMap_map, Function.comp_def]

theorem polled_map_push (l : List Event) : polled (l.map .push) = [] := by
  induction l using List.reverseRecOn with
  | nil => rfl
  | append_singleton l e ih =>
    rw [List.map_append, List.map_singleton, polled_concat, ih]
    rfl

theorem after_pushes_poll {e : Event} {l : List Event}
    (hterminal : ∀ x ∈ e :: l, x.is_terminal = true) (hlen : (e :: l).length ≤ MAX_EVENTS) :
    after_calls ((e :: l).map .push ++ [.poll]) = ⟨l, 0⟩ := by
  rw [after_calls_concat, after_pushes hterminal hlen]
  rfl

/-- Nothing is pushed onto the queue after it is full. -/
theorem not_meetsOnlyTerminals_pushes {l : List Event}
    (hterminal : ∀ e ∈ l, e.is_terminal = true) (hlen : l.length ≤ MAX_EVENTS) :
    ¬ MeetsOnlyTerminals (l.map .push) := by
  rcases kept_terminals_cases (l.map .push) with ⟨hnot, -⟩ | ⟨-, hlt⟩
  · exact hnot
  · rw [kept_terminals, polled_map_push, after_pushes hterminal hlen, pushed_map_push] at hlt
    exact absurd hlt (Nat.lt_irrefl _)

/-- As many terminal events as the queue has room for. -/
def cancels : List Event := List.replicate MAX_EVENTS (.TransferCancelled (.replicate 32 1))

theorem length_cancels : cancels.length = MAX_EVENTS := List.length_replicate

theorem cancels_terminal : ∀ e ∈ cancels, e.is_terminal = true := by
  intro e he
  rw [List.eq_of_mem_replicate he]
  rfl

/-- The start of a transfer. -/
def startOf (id : UInt8) : Event := .TransferStarted (.replicate 32 id) 1 1

/-- With at most 1024 terminal events outstanding at any time, none is lost
exactly if whatever is pushed onto a queue of 1024 terminal events is terminal
itself. -/
theorem no_terminal_event_is_lost_iff_only_terminal_events_meet_a_queue_of_them
    (calls : List Call) (hout : ∀ before, before <+: calls → outstanding before ≤ MAX_EVENTS) :
    terminals (polled calls ++ (after_calls calls).queue) = terminals (pushed calls) ↔
      ∀ before event, before ++ [.push event] <+: calls → (after_calls before).OnlyTerminals →
        event.is_terminal = true := by
  constructor
  · intro hkept before event hpre honly
    rcases kept_terminals_cases calls with ⟨hnot, -⟩ | ⟨-, hlt⟩
    · exact absurd ⟨before, event, hpre, honly⟩ hnot
    · exact absurd (congrArg List.length hkept) (Nat.ne_of_lt hlt)
  · intro hterminal
    rcases kept_terminals_cases calls with ⟨-, heq⟩ | ⟨⟨before, event, hpre, honly⟩, -⟩
    · exact heq
    · have htoo := outstanding_push honly (hterminal before event hpre honly)
      exact absurd (hout _ hpre) (Nat.not_le.2 htoo)

/-- A queue is filled with terminal events and polled once. The first start fills it again,
and the second one takes the place of the first. -/
theorem a_queue_that_was_full_of_terminal_events_keeps_them :
    (after_calls (cancels.map .push)).OnlyTerminals ∧
    (after_calls (cancels.map .push ++ [.poll] ++ [.push (startOf 2)])).queue.length =
      MAX_EVENTS ∧
    let calls := cancels.map .push ++ [.poll] ++ [.push (startOf 2)] ++ [.push (startOf 3)]
    terminals (polled calls ++ (after_calls calls).queue) = terminals (pushed calls) := by
  have hfull := after_pushes cancels_terminal (Nat.le_of_eq length_cancels)
  have hpolled : after_calls (cancels.map .push ++ [.poll]) = ⟨cancels.tail, 0⟩ :=
    after_pushes_poll cancels_terminal (Nat.le_of_eq length_cancels)
  have htail : cancels.tail.length = 1023 := by
    rw [List.length_tail, length_cancels]
    rfl
  have hstarted : after_calls (cancels.map .push ++ [.poll] ++ [.push (startOf 2)]) =
      ⟨cancels.tail ++ [startOf 2], 0⟩ := by
    rw [after_calls_concat, hpolled]
    simp [Call.run, Inner.push, Inner.collapse, startOf, Event.progress_key, htail, MAX_EVENTS]
  refine ⟨?_, ?_, ?_⟩
  · rw [hfull]
    exact ⟨length_cancels, cancels_terminal⟩
  · rw [hstarted, List.length_append, htail]
    rfl
  intro calls
  refine (no_terminal_event_is_lost_iff_only_terminal_events_meet_a_queue_of_them calls ?_).2 ?_
  · intro before hpre
    refine Nat.le_trans (outstanding_le hpre) ?_
    simp only [calls, pushed_push, pushed_poll, pushed_map_push, terminals_append]
    rw [terminals_eq_self cancels_terminal, terminals_singleton rfl, terminals_singleton rfl,
      List.append_nil, List.append_nil, length_cancels]
  · intro before event hpre honly
    have hmeets : MeetsOnlyTerminals calls := ⟨before, event, hpre, honly⟩
    simp only [calls, meetsOnlyTerminals_concat] at hmeets
    rcases hmeets with ((hmeets | ⟨_, hpoll, -⟩) | ⟨-, -, honly⟩) | ⟨-, -, honly⟩
    · exact absurd hmeets
        (not_meetsOnlyTerminals_pushes cancels_terminal (Nat.le_of_eq length_cancels))
    · cases hpoll
    · -- after the poll there is room
      rw [hpolled] at honly
      exact absurd (htail.symm.trans honly.1) (by decide)
    · -- and the first start is no terminal event
      rw [hstarted] at honly
      exact absurd (honly.2 (startOf 2) (by simp)) (by decide)

/-! ## A queue full of terminal events -/

theorem terminals_of_pushes_then {l : List Event} (hterminal : ∀ e ∈ l, e.is_terminal = true)
    {event : Event} (hevent : event.is_terminal = false) :
    terminals (pushed (l.map .push ++ [.push event])) = l := by
  rw [pushed_push, terminals_append, pushed_map_push, terminals_singleton hevent, List.append_nil]
  exact terminals_eq_self hterminal

/-- The event that meets 1024 terminal events, and is not one, takes the place
of one of them. -/
theorem length_kept_terminals_of_pushes_then {l : List Event}
    (hterminal : ∀ e ∈ l, e.is_terminal = true) (hlen : l.length = MAX_EVENTS) {event : Event}
    (hevent : event.is_terminal = false) :
    (terminals (polled (l.map .push ++ [.push event]) ++
      (after_calls (l.map .push ++ [.push event])).queue)).length + 1 = MAX_EVENTS := by
  have hafter := after_pushes hterminal (Nat.le_of_eq hlen)
  have honly : (after_calls (l.map .push)).OnlyTerminals := by
    rw [hafter]
    exact ⟨hlen, hterminal⟩
  change (kept_terminals (l.map .push ++ [.push event])).length + 1 = MAX_EVENTS
  rw [length_kept_terminals_push event honly, terminals_singleton hevent, kept_terminals, hafter,
    polled_map_push, List.nil_append, terminals_eq_self hterminal, hlen, List.length_nil,
    Nat.add_zero]

/-- 1024 transfers are cancelled, then one is started, and nobody polls. -/
def cancelledThenStarted : List Call := cancels.map .push ++ [.push (startOf 2)]

theorem a_start_evicts_a_terminal_event :
    (∀ before, before <+: cancelledThenStarted → outstanding before ≤ MAX_EVENTS) ∧
    (terminals (pushed cancelledThenStarted)).length = MAX_EVENTS ∧
    (terminals (polled cancelledThenStarted ++
      (after_calls cancelledThenStarted).queue)).length + 1 = MAX_EVENTS := by
  have hpushed : (terminals (pushed cancelledThenStarted)).length = MAX_EVENTS := by
    unfold cancelledThenStarted
    rw [terminals_of_pushes_then cancels_terminal rfl, length_cancels]
  refine ⟨fun before hpre => ?_, hpushed, ?_⟩
  · rw [← hpushed]
    exact outstanding_le hpre
  · unfold cancelledThenStarted
    exact length_kept_terminals_of_pushes_then cancels_terminal length_cancels rfl

end rtp2_core.events
