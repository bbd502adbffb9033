-- Responders that share one replay cache. The cache remembers the last keys
-- that entered it and nothing else, and a key enters before any signature is
-- checked, so hellos that anybody can make push an accepted one out of it.
import Mathlib.Data.List.DropRight
import Mathlib.Data.List.Nodup
import Mathlib.Data.List.Pairwise
import Reyta.HandshakeRuns

open byte_string exact_parse

namespace rtp2_core.handshake

open crypto identity

/-! ## The cache and its history -/

/-- The cache after the keys `history` have entered it, the oldest first. -/
structure ReplayCache.Remembers (c : ReplayCache) (history : List Bytes) : Prop where
  order_eq : c.order = history.rtake REPLAY_CACHE_CAP
  nodup : c.order.Nodup
  mem_seen : ∀ key, key ∈ c.seen ↔ key ∈ c.order

/-- The history after `key` was shown to the cache. -/
def enter (history : List Bytes) (key : Bytes) : List Bytes :=
  if key ∈ history.rtake REPLAY_CACHE_CAP then history else history ++ [key]

/-- A full queue drops its oldest. -/
def push (order : List Bytes) (key : Bytes) : List Bytes :=
  (if order.length ≥ REPLAY_CACHE_CAP then order.tail else order) ++ [key]

theorem push_rtake {history : List Bytes} (key : Bytes) :
    push (history.rtake REPLAY_CACHE_CAP) key = (history ++ [key]).rtake REPLAY_CACHE_CAP := by
  obtain ⟨n, hn⟩ : ∃ n, REPLAY_CACHE_CAP = n + 1 := ⟨4095, rfl⟩
  unfold push
  rw [hn, List.rtake_concat_succ, List.append_left_inj]
  unfold List.rtake
  rw [List.length_drop]
  by_cases hfull : history.length ≥ n + 1
  · rw [if_pos (by omega), List.tail_drop]
    congr 1
    omega
  · rw [if_neg (by omega)]
    congr 1
    omega

theorem ReplayCache.Remembers.check_and_insert {c : ReplayCache} {history : List Bytes}
    (h : c.Remembers history) (device_id nonce : Arr 32) :
    ((c.check_and_insert device_id nonce).1 = true ↔
      device_id.bytes ++ nonce.bytes ∉ history.rtake REPLAY_CACHE_CAP) ∧
    (c.check_and_insert device_id nonce).2.Remembers
      (enter history (device_id.bytes ++ nonce.bytes)) := by
  unfold ReplayCache.check_and_insert enter
  generalize device_id.bytes ++ nonce.bytes = key
  have hkey : key ∈ c.seen ↔ key ∈ history.rtake REPLAY_CACHE_CAP := by
    rw [h.mem_seen, h.order_eq]
  by_cases hmem : key ∈ c.seen
  · simp only [if_pos hmem, if_pos (hkey.1 hmem)]
    exact ⟨by simp [hkey.1 hmem], h⟩
  · have hpush : push c.order key = (history ++ [key]).rtake REPLAY_CACHE_CAP := by
      rw [h.order_eq, push_rtake]
    have hnew : key ∉ c.order := by rwa [← h.mem_seen]
    simp only [if_neg hmem, if_neg (mt hkey.2 hmem)]
    refine ⟨by simp [mt hkey.2 hmem], ?_⟩
    by_cases hfull : c.order.length ≥ REPLAY_CACHE_CAP
    · rw [push, if_pos hfull] at hpush
      rw [if_pos hfull]
      obtain ⟨old, order, horder⟩ : ∃ old order, c.order = old :: order :=
        List.exists_cons_of_length_pos (Nat.lt_of_lt_of_le (by decide) hfull)
      have hnodup := h.nodup
      have hseen := h.mem_seen
      rw [horder] at hpush hnodup hnew hseen ⊢
      obtain ⟨hold, hnodup⟩ := List.nodup_cons.1 hnodup
      have hnew' : key ∉ order := fun hmem => hnew (List.mem_cons_of_mem _ hmem)
      refine ⟨hpush, (List.perm_append_singleton _ _).nodup_iff.2
        (List.nodup_cons.2 ⟨hnew', hnodup⟩), fun k => ?_⟩
      simp only [List.mem_cons, List.mem_filter, hseen, List.mem_append]
      have hne : k ∈ order → k ≠ old := fun hk he => hold (he ▸ hk)
      grind
    · rw [push, if_neg hfull] at hpush
      rw [if_neg hfull]
      refine ⟨hpush, (List.perm_append_singleton _ _).nodup_iff.2
        (List.nodup_cons.2 ⟨hnew, h.nodup⟩), fun k => ?_⟩
      rw [List.mem_cons, h.mem_seen, List.mem_append, List.mem_singleton, or_comm]

/-! ## The last pairs -/

/-- A device id and a nonce. -/
abbrev DeviceNonce := Arr 32 × Arr 32

/-- The key of a pair. -/
def DeviceNonce.key (p : DeviceNonce) : Bytes := p.1.bytes ++ p.2.bytes

theorem DeviceNonce.key_inj {p p' : DeviceNonce} (h : p.key = p'.key) : p = p' := by
  obtain ⟨hdevice, hnonce⟩ := arr_append_inj h
  exact Prod.ext hdevice (Arr.ext hnonce)

theorem rtake_map_key (ps : List DeviceNonce) (n : Nat) :
    (ps.map DeviceNonce.key).rtake n = (ps.rtake n).map DeviceNonce.key := by
  unfold List.rtake
  rw [List.length_map, List.map_drop]

theorem key_mem_map_key {ps : List DeviceNonce} {p : DeviceNonce} :
    p.key ∈ ps.map DeviceNonce.key ↔ p ∈ ps := by
  rw [List.mem_map]
  constructor
  · rintro ⟨p', hp', hkey⟩
    rwa [← DeviceNonce.key_inj hkey]
  · exact fun hp => ⟨p, hp, rfl⟩

namespace ReplayCache

theorem Remembers.length_order_le {c : ReplayCache} {history : List Bytes}
    (h : c.Remembers history) : c.order.length ≤ REPLAY_CACHE_CAP := by
  rw [h.order_eq]
  unfold List.rtake
  rw [List.length_drop]
  omega

def call (c : ReplayCache) (p : DeviceNonce) : Bool × ReplayCache := c.check_and_insert p.1 p.2

/-- The pairs for which the calls return true, the oldest first. -/
def accepted : ReplayCache → List DeviceNonce → List DeviceNonce
  | _, [] => []
  | c, p :: ps => (if (c.call p).1 then [p] else []) ++ accepted (c.call p).2 ps

theorem Remembers.accepted {c : ReplayCache} {pairs : List DeviceNonce}
    (h : c.Remembers (pairs.map DeviceNonce.key)) (ps : List DeviceNonce) :
    (call_machine.after call c ps).Remembers ((pairs ++ c.accepted ps).map DeviceNonce.key) := by
  induction ps generalizing c pairs with
  | nil =>
    rw [ReplayCache.accepted, List.append_nil]
    exact h
  | cons p ps ih =>
    obtain ⟨hfresh, hnext⟩ := h.check_and_insert p.1 p.2
    rw [call_machine.after, ReplayCache.accepted]
    by_cases hnew : (c.call p).1 = true
    · rw [enter, if_neg (hfresh.1 hnew)] at hnext
      rw [if_pos hnew, ← List.append_assoc]
      refine ih ?_
      rw [List.map_append]
      exact hnext
    · rw [enter, if_pos (not_not.1 (mt hfresh.2 hnew))] at hnext
      rw [if_neg hnew, List.nil_append]
      exact ih hnext

theorem call_refused {c : ReplayCache} {p : DeviceNonce} (h : (c.call p).1 = false) :
    (c.call p).2 = c := by
  unfold call check_and_insert at h ⊢
  by_cases hmem : p.1.bytes ++ p.2.bytes ∈ c.seen
  · simp only [if_pos hmem]
  · simp only [if_neg hmem] at h
    cases h

theorem seen_nodup_call {c : ReplayCache} (h : c.seen.Nodup) (p : DeviceNonce) :
    (c.call p).2.seen.Nodup := by
  unfold call check_and_insert
  generalize p.1.bytes ++ p.2.bytes = key
  by_cases hmem : key ∈ c.seen
  · simp only [if_pos hmem]
    exact h
  · simp only [if_neg hmem]
    split_ifs
    · split
      · exact List.nodup_cons.2 ⟨hmem, h⟩
      · exact List.nodup_cons.2 ⟨fun hk => hmem (List.mem_filter.1 hk).1, h.filter _⟩
    · exact List.nodup_cons.2 ⟨hmem, h⟩

theorem seen_nodup_after {c : ReplayCache} (h : c.seen.Nodup) (ps : List DeviceNonce) :
    (call_machine.after call c ps).seen.Nodup := by
  induction ps generalizing c with
  | nil => exact h
  | cons p ps ih => exact ih (seen_nodup_call h p)

/-- Over any calls on a new cache: the set and the queue have the same keys, none
of them twice and at most 4096 of them. A call returns false exactly if its pair is
one of the last 4096 for which a call returned true, and then nothing changes. -/
theorem a_pair_is_refused_iff_it_is_one_of_the_last_accepted (ps : List DeviceNonce)
    (p : DeviceNonce) :
    let c := call_machine.after call ⟨[], []⟩ ps
    (∀ key, key ∈ c.seen ↔ key ∈ c.order) ∧ c.seen.Nodup ∧ c.order.Nodup ∧
    c.seen.length ≤ REPLAY_CACHE_CAP ∧ c.order.length ≤ REPLAY_CACHE_CAP ∧
    ((c.call p).1 = false ↔
      p ∈ (accepted ⟨[], []⟩ ps).rtake REPLAY_CACHE_CAP) ∧
    ((c.call p).1 = false → (c.call p).2 = c) := by
  intro c
  have hnew : (⟨[], []⟩ : ReplayCache).Remembers (([] : List DeviceNonce).map DeviceNonce.key) :=
    ⟨rfl, List.nodup_nil, fun _ => Iff.rfl⟩
  have h : c.Remembers ((accepted ⟨[], []⟩ ps).map DeviceNonce.key) := hnew.accepted ps
  have hseen : c.seen.Nodup := seen_nodup_after List.nodup_nil ps
  have hperm : c.seen.Perm c.order := (List.perm_ext_iff_of_nodup hseen h.nodup).2 h.mem_seen
  have hlen := h.length_order_le
  have hfresh : (c.call p).1 = true ↔ p.key ∉ _ := (h.check_and_insert p.1 p.2).1
  refine ⟨h.mem_seen, hseen, h.nodup, by rwa [hperm.length_eq], hlen, ?_, call_refused⟩
  rw [← Bool.not_eq_true, hfresh, not_not, rtake_map_key, key_mem_map_key]

end ReplayCache

/-! ## Calls that share the cache -/

/-- A call of `on_client_hello` on a fresh responder. -/
structure HelloCall where
  identity : DeviceIdentity
  local_endpoint_id : Arr 32
  ch_bytes : Bytes
  observed_peer_endpoint : Arr 32
  random : HelloRandom

/-- What `check_and_insert` looks for. -/
def ClientHello.replay_key (ch : ClientHello) : Bytes := ch.cert.device_id.bytes ++ ch.nonce.bytes

namespace HelloCall

variable (P : Primitives)

def responder (x : HelloCall) : Responder := .new x.identity x.local_endpoint_id

def call (replay : ReplayCache) (x : HelloCall) : Except HandshakeError Bytes × ReplayCache :=
  let r := x.responder.on_client_hello P x.ch_bytes x.observed_peer_endpoint replay x.random
  (r.1, r.2.2)

/-- The cache after some calls on a new one. -/
def replayAfter (xs : List HelloCall) : ReplayCache := call_machine.after (call P) ⟨[], []⟩ xs

/-- The call after `before` sends a ServerHello. -/
def AcceptedAfter (before : List HelloCall) (x : HelloCall) : Prop :=
  ∃ sh_bytes, (x.call P (replayAfter P before)).1 = .ok sh_bytes

/-- All that is checked before the cache is asked. -/
def checked (x : HelloCall) : Except HandshakeError ClientHello := do
  let ch ← ClientHello.decode x.ch_bytes
  Responder.check_hello x.observed_peer_endpoint x.random.now ch
  pure ch

/-- The responder would accept this hello if the cache did not know it. -/
def Acceptable (x : HelloCall) (ch : ClientHello) : Prop :=
  x.checked = .ok ch ∧ ∃ r, x.responder.answer P x.ch_bytes ch x.random = .ok r

/-- The keys that have entered the cache, after one more call. -/
def entering (keys : List Bytes) (x : HelloCall) : List Bytes :=
  match x.checked with
  | .ok ch => enter keys ch.replay_key
  | .error _ => keys

/-- The keys that have entered a new cache, the oldest first. -/
def history (xs : List HelloCall) : List Bytes := xs.foldl entering []

variable {P}

theorem call_of_unchecked {x : HelloCall} {e : HandshakeError} (h : x.checked = .error e)
    (replay : ReplayCache) : x.call P replay = (.error e, replay) := by
  unfold checked at h
  have hstate : x.responder.state = .AwaitClientHello := rfl
  unfold call Responder.on_client_hello
  rcases hdec : ClientHello.decode x.ch_bytes with e' | ch
  · simp only [hdec, bind, Except.bind] at h
    cases h
    simp only [hstate]
  · rcases hcheck : Responder.check_hello x.observed_peer_endpoint x.random.now ch with e' | u
    · simp only [hdec, hcheck, bind, Except.bind] at h
      cases h
      simp only [hstate, hcheck]
    · simp only [hdec, hcheck, bind, Except.bind] at h
      cases h

theorem call_of_checked {x : HelloCall} {ch : ClientHello} (h : x.checked = .ok ch)
    (replay : ReplayCache) :
    x.call P replay =
      (if (replay.check_and_insert ch.cert.device_id ch.nonce).1 = true then
        (x.responder.answer P x.ch_bytes ch x.random).map Prod.fst else .error .Replay,
      (replay.check_and_insert ch.cert.device_id ch.nonce).2) := by
  obtain ⟨ch', hdec, h⟩ := bind_eq_ok.1 h
  obtain ⟨_, hcheck, h⟩ := bind_eq_ok.1 h
  cases pure_eq_ok.1 h
  unfold call Responder.on_client_hello
  have hstate : x.responder.state = .AwaitClientHello := rfl
  simp only [hstate, hdec, hcheck]
  rcases replay.check_and_insert ch.cert.device_id ch.nonce with ⟨_ | _, replay'⟩
  · rfl
  · rcases x.responder.answer P x.ch_bytes ch x.random with e | ⟨sh_full, state⟩ <;> rfl

/-- One call: the hello is accepted if it is acceptable and its key is not among
the last ones, and then the key is the last one. -/
theorem call_spec {replay : ReplayCache} {keys : List Bytes} (h : replay.Remembers keys)
    (x : HelloCall) :
    ((∃ sh_bytes, (x.call P replay).1 = .ok sh_bytes) ↔
      ∃ ch, x.Acceptable P ch ∧ ch.replay_key ∉ keys.rtake REPLAY_CACHE_CAP) ∧
    (x.call P replay).2.Remembers (entering keys x) := by
  unfold entering Acceptable
  cases hx : x.checked with
  | error e =>
    rw [call_of_unchecked hx]
    exact ⟨by simp, h⟩
  | ok ch =>
    obtain ⟨hfresh, hnext⟩ := h.check_and_insert ch.cert.device_id ch.nonce
    rw [call_of_checked hx]
    refine ⟨?_, hnext⟩
    by_cases hnew : ch.replay_key ∈ keys.rtake REPLAY_CACHE_CAP
    · rw [if_neg (mt hfresh.1 (not_not.2 hnew))]
      simp [hnew]
    · rw [if_pos (hfresh.2 hnew)]
      rcases hanswer : x.responder.answer P x.ch_bytes ch x.random with e | r
      · simp [Except.map, hanswer]
      · simp only [Except.map, Except.ok.injEq, exists_eq', true_iff]
        exact ⟨ch, ⟨rfl, r, hanswer⟩, hnew⟩

theorem replayAfter_remembers (xs : List HelloCall) :
    (replayAfter P xs).Remembers (history xs) := by
  have hrun : ∀ replay keys, replay.Remembers keys →
      (call_machine.after (call P) replay xs).Remembers (xs.foldl entering keys) := by
    induction xs with
    | nil => exact fun _ _ h => h
    | cons x xs ih => exact fun _ _ h => ih _ _ (call_spec h x).2
  exact hrun _ _ ⟨rfl, List.nodup_nil, fun _ => Iff.rfl⟩

/-- After any calls, an acceptable hello is accepted unless its key is one of
the last that entered. -/
theorem acceptedAfter_iff {before : List HelloCall} {x : HelloCall} :
    x.AcceptedAfter P before ↔
      ∃ ch, x.Acceptable P ch ∧ ch.replay_key ∉ (history before).rtake REPLAY_CACHE_CAP :=
  (call_spec (replayAfter_remembers before) x).1

/-! ## Replays -/

/-- `x` brings a hello again that was accepted before. -/
def Replays (P : Primitives) (before : List HelloCall) (x : HelloCall) : Prop :=
  ∃ pre first mid, before = pre ++ first :: mid ∧ first.AcceptedAfter P pre ∧
    x.ch_bytes = first.ch_bytes

/-- No hello of the run is accepted twice. -/
def NoneTwice (P : Primitives) (xs : List HelloCall) : Prop :=
  ∀ before x after, xs = before ++ x :: after → x.Replays P before → ¬ x.AcceptedAfter P before

/-- Every replay that the responder would answer comes while its key is one of
the last that entered the cache. -/
def RecentReplays (P : Primitives) (xs : List HelloCall) : Prop :=
  ∀ before x after, xs = before ++ x :: after → x.Replays P before →
    ∀ ch, x.Acceptable P ch → ch.replay_key ∈ (history before).rtake REPLAY_CACHE_CAP

/-- The clock does not go back. -/
def InOrder (xs : List HelloCall) : Prop := xs.Pairwise fun x y => x.random.now ≤ y.random.now

/-- The keys that enter while an accepted hello is inside the window, the hello
itself first, all fit into the cache. -/
def QuietWindows (P : Primitives) (xs : List HelloCall) : Prop :=
  ∀ pre first rest ch, xs = pre ++ first :: rest → first.AcceptedAfter P pre →
    ClientHello.decode first.ch_bytes = .ok ch →
    (history (pre ++ first :: rest.takeWhile fun x =>
      x.random.now.toNat ≤ ch.timestamp.toNat + TIMESTAMP_WINDOW_SECS.toNat)).length ≤
      (history pre).length + REPLAY_CACHE_CAP

theorem checked_eq_ok {x : HelloCall} {ch : ClientHello} : x.checked = .ok ch ↔
    ClientHello.decode x.ch_bytes = .ok ch ∧
      Responder.check_hello x.observed_peer_endpoint x.random.now ch = .ok () := by
  unfold checked
  simp only [bind_eq_ok, pure_eq_ok]
  constructor
  · rintro ⟨ch', hdec, u, hcheck, rfl⟩
    exact ⟨hdec, hcheck⟩
  · rintro ⟨hdec, hcheck⟩
    exact ⟨ch, hdec, (), hcheck, rfl⟩

theorem le_of_abs_diff_le {a b d : UInt64} (h : ¬ abs_diff a b > d) :
    b.toNat ≤ a.toNat + d.toNat := by
  rw [gt_iff_lt, UInt64.not_lt, UInt64.le_iff_toNat_le] at h
  unfold abs_diff at h
  by_cases hab : a < b
  · have hle : a ≤ b := UInt64.le_of_lt hab
    rw [if_pos hab, UInt64.toNat_sub_of_le _ _ hle] at h
    omega
  · have hle : b.toNat ≤ a.toNat := UInt64.le_iff_toNat_le.1 (UInt64.not_lt.1 hab)
    omega

theorem now_le_of_checked {x : HelloCall} {ch : ClientHello} (h : x.checked = .ok ch) :
    x.random.now.toNat ≤ ch.timestamp.toNat + TIMESTAMP_WINDOW_SECS.toNat := by
  have hcheck := (checked_eq_ok.1 h).2
  simp only [Responder.check_hello, bind_eq_ok, refuse_if_eq_ok] at hcheck
  obtain ⟨-, -, -, -, -, -, -, -, -, -, htime⟩ := hcheck
  exact le_of_abs_diff_le htime

theorem entering_eq_append (keys : List Bytes) (x : HelloCall) :
    ∃ new, entering keys x = keys ++ new := by
  unfold entering enter
  split
  · split
    · exact ⟨[], (List.append_nil _).symm⟩
    · exact ⟨_, rfl⟩
  · exact ⟨[], (List.append_nil _).symm⟩

/-- The history only grows. -/
theorem history_append (xs ys : List HelloCall) :
    ∃ new, history (xs ++ ys) = history xs ++ new := by
  unfold history
  rw [List.foldl_append]
  generalize xs.foldl entering [] = keys
  induction ys generalizing keys with
  | nil => exact ⟨[], (List.append_nil _).symm⟩
  | cons y ys ih =>
    obtain ⟨new, hnew⟩ := entering_eq_append keys y
    obtain ⟨more, hmore⟩ := ih (entering keys y)
    exact ⟨new ++ more, by rw [List.foldl_cons, hmore, hnew, List.append_assoc]⟩

/-- The key of a hello that was just accepted is the last one. -/
theorem history_of_accepted {pre : List HelloCall} {first : HelloCall}
    (h : first.AcceptedAfter P pre) : ∃ ch, first.checked = .ok ch ∧
      history (pre ++ [first]) = history pre ++ [ch.replay_key] := by
  obtain ⟨ch, hch, hnew⟩ := acceptedAfter_iff.1 h
  refine ⟨ch, hch.1, ?_⟩
  unfold history at hnew ⊢
  rw [List.foldl_append, List.foldl_cons, List.foldl_nil, entering, hch.1]
  exact if_neg hnew

theorem mem_rtake_of_few {α : Type} {l m : List α} {a : α} {n : Nat}
    (h : (l ++ a :: m).length ≤ l.length + n) : a ∈ (l ++ a :: m).rtake n := by
  unfold List.rtake
  rw [List.drop_append_of_le_length (by omega)]
  exact List.mem_append_right _ List.mem_cons_self

/-- Whatever the clocks, the endpoints and the hellos in between: no hello is
accepted twice if and only if no replay outlives its key in the cache. -/
theorem no_hello_is_accepted_twice_iff_replays_are_recent (xs : List HelloCall) :
    NoneTwice P xs ↔ RecentReplays P xs := by
  constructor
  · intro h before x after hxs hreplay ch hch
    by_contra hold
    exact h before x after hxs hreplay (acceptedAfter_iff.2 ⟨ch, hch, hold⟩)
  · intro h before x after hxs hreplay hacc
    obtain ⟨ch, hch, hold⟩ := acceptedAfter_iff.1 hacc
    exact hold (h before x after hxs hreplay ch hch)

/-- With a clock that does not go back, no hello is accepted twice if the cache
can hold all that enters while a hello is inside the window. -/
theorem none_twice_of_quietWindows {xs : List HelloCall}
    (hclock : InOrder xs) (h : QuietWindows P xs) :
    NoneTwice P xs := by
  rintro before x after rfl ⟨pre, first, mid, rfl, hfirst, hbytes⟩ hacc
  obtain ⟨ch, ⟨hx, -⟩, hold⟩ := acceptedAfter_iff.1 hacc
  obtain ⟨ch', hch', hkey⟩ := history_of_accepted hfirst
  have hdec := (checked_eq_ok.1 hx).1
  rw [hbytes, (checked_eq_ok.1 hch').1] at hdec
  cases hdec
  -- The calls up to the replay are no later than the replay, so they are counted.
  have hmid : ∀ y ∈ mid, decide (y.random.now.toNat ≤
      ch.timestamp.toNat + TIMESTAMP_WINDOW_SECS.toNat) = true := by
    intro y hy
    rw [InOrder, List.append_assoc, List.cons_append, List.pairwise_append, List.pairwise_cons,
      List.pairwise_append] at hclock
    have hle := hclock.2.1.2.2.2 y hy x List.mem_cons_self
    rw [UInt64.le_iff_toNat_le] at hle
    exact decide_eq_true (Nat.le_trans hle (now_le_of_checked hx))
  have hfew := h pre first (mid ++ x :: after) ch (by simp) hfirst (checked_eq_ok.1 hch').1
  rw [List.takeWhile_append_of_pos hmid, ← List.cons_append, ← List.append_assoc] at hfew
  obtain ⟨more, hmore⟩ := history_append (pre ++ first :: mid) ((x :: after).takeWhile _)
  obtain ⟨new, hnew⟩ := history_append (pre ++ [first]) mid
  rw [hmore, List.length_append] at hfew
  rw [List.append_assoc, List.singleton_append, hkey, List.append_assoc,
    List.singleton_append] at hnew
  rw [hnew] at hold hfew
  exact hold (mem_rtake_of_few (by omega))

/-- Hellos with different keys all enter the cache. -/
theorem history_of_distinct {κ : Type} {f : κ → HelloCall} {ch : κ → ClientHello}
    (hf : ∀ k, (f k).checked = .ok (ch k)) (ks : List κ) (keys : List Bytes)
    (hkeys : (keys ++ ks.map fun k => (ch k).replay_key).Nodup) :
    (ks.map f).foldl entering keys = keys ++ ks.map fun k => (ch k).replay_key := by
  induction ks generalizing keys with
  | nil => exact (List.append_nil _).symm
  | cons k ks ih =>
    rw [List.map_cons, List.append_cons] at hkeys
    have hnew : (ch k).replay_key ∉ keys := by
      intro hmem
      rw [List.append_assoc, List.nodup_append] at hkeys
      exact hkeys.2.2 _ hmem _ List.mem_cons_self rfl
    have henter : entering keys (f k) = keys ++ [(ch k).replay_key] := by
      rw [entering, hf]
      exact if_neg (mt List.mem_of_mem_drop hnew)
    rw [List.map_cons, List.foldl_cons, henter, ih _ hkeys, List.map_cons, List.append_assoc,
      List.singleton_append]

/-! ## A flood -/

theorem rtake_cons_of_length {α : Type} {a : α} {l : List α} {n : Nat} (h : l.length = n) :
    (a :: l).rtake n = l := by
  simp [List.rtake, h]

/-- The `k`-th hello of one device, with the nonce `k`. -/
def floodHello (k : Nat) : ClientHello :=
  Initiator.hello sample ⟨.replicate 32 1, .replicate 32 2, .replicate 32 3⟩ (.replicate 32 7)
    ⟨.replicate 32 9, .replicate 64 10, ⟨be_bytes 32 k, length_be_bytes _ _⟩, 1000⟩

/-- The hello arrives in time, at a device of its own. -/
def flood (k : Nat) : HelloCall where
  identity := ⟨.replicate 32 4, .replicate 32 5, .replicate 32 6⟩
  local_endpoint_id := .replicate 32 8
  ch_bytes := (floodHello k).encode
  observed_peer_endpoint := .replicate 32 7
  random := ⟨.replicate 32 12, .replicate 64 13, .replicate 32 14, .replicate 32 15,
    .replicate 32 16, 1000⟩

theorem flood_acceptable (k : Nat) : (flood k).Acceptable sample (floodHello k) := by
  constructor
  · refine checked_eq_ok.2 ⟨ClientHello.decode_encode (Initiator.hello_inRange _ _ _), ?_⟩
    have htime : ¬ abs_diff 1000 1000 > TIMESTAMP_WINDOW_SECS := by decide
    exact Initiator.hello_passes htime
  · have hvalid : sample.mlkem_validate (floodHello k).kem_pk = true := rfl
    exact ⟨_, bind_eq_ok.2 ⟨_, mlkem_encapsulate_of_valid hvalid _, bind_eq_ok.2 ⟨_,
      hybrid_sign_of_some (DeviceIdentity.hybrid_sign_sample _ _ _
        ⟨.replicate 64 0, .replicate _ 0⟩), rfl⟩⟩⟩

theorem floodHello_key_inj {j k : Nat} (hj : j < 256 ^ 32) (hk : k < 256 ^ 32)
    (h : (floodHello j).replay_key = (floodHello k).replay_key) : j = k := by
  have hnonce := (append_inj_of_length (by simp) h).2
  exact be_bytes_inj hj hk hnonce

theorem history_flood {n : Nat} (hn : n < 256 ^ 32) :
    history ((List.range (n + 1)).map flood) =
        (List.range (n + 1)).map (fun k => (floodHello k).replay_key) ∧
      ((List.range (n + 1)).map fun k => (floodHello k).replay_key).Nodup := by
  have hnodup : ((List.range (n + 1)).map fun k => (floodHello k).replay_key).Nodup := by
    refine List.Nodup.map_on (fun j hj k hk => ?_) List.nodup_range
    rw [List.mem_range] at hj hk
    exact floodHello_key_inj (by omega) (by omega)
  exact ⟨history_of_distinct (fun k => (flood_acceptable k).1) _ [] hnodup, hnodup⟩

/-- As many hellos as the cache can hold come after the first one. -/
theorem flood_again {n : Nat} (hn : n < 256 ^ 32) (hcap : n = REPLAY_CACHE_CAP) :
    ¬ NoneTwice sample ((List.range (n + 1) ++ [0]).map flood) := by
  intro h
  obtain ⟨hhistory, hnodup⟩ := history_flood hn
  have hfirst : (flood 0).AcceptedAfter sample [] :=
    acceptedAfter_iff.2 ⟨_, flood_acceptable 0, List.not_mem_nil⟩
  have hagain : (flood 0).AcceptedAfter sample ((List.range (n + 1)).map flood) := by
    refine acceptedAfter_iff.2 ⟨_, flood_acceptable 0, ?_⟩
    rw [List.range_succ_eq_map, List.map_cons] at hnodup
    rw [hhistory, List.range_succ_eq_map, List.map_cons, ← hcap, rtake_cons_of_length (by simp)]
    exact (List.nodup_cons.1 hnodup).1
  refine h _ (flood 0) [] (List.map_append ..) ⟨[], flood 0, ?_, ?_, hfirst, rfl⟩ hagain
  · exact ((List.range n).map Nat.succ).map flood
  · rw [List.range_succ_eq_map, List.map_cons, List.nil_append]

/-- The clock stands still and 4096 hellos come after the first one. The first
one is then accepted again. -/
theorem a_flooded_hello_is_accepted_again :
    InOrder ((List.range (REPLAY_CACHE_CAP + 1) ++ [0]).map flood) ∧
    ¬ NoneTwice sample ((List.range (REPLAY_CACHE_CAP + 1) ++ [0]).map flood) := by
  constructor
  · rw [InOrder, List.pairwise_map]
    exact List.pairwise_iff_getElem.2 fun _ _ _ _ _ => UInt64.le_refl _
  · exact flood_again (by unfold REPLAY_CACHE_CAP; omega) rfl

end HelloCall

end rtp2_core.handshake
