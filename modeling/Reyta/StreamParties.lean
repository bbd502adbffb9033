-- Parties that talk over streams. A party ends, writes, or reads a message off
-- what has arrived. Two parties that are connected by two streams come to the same
-- end, however their steps are interleaved and however the streams are cut into
-- pieces on the way.
import Mathlib.Logic.Relation
import Mathlib.Tactic.Common

namespace stream_party

/-! ## Readers -/

/-- What a reader makes of the tokens that are there. -/
inductive Scan (τ ε μ : Type) where
  | wait
  | fail (e : ε)
  | got (m : μ) (rest : List τ)

/-- A reader for messages of several forms. What it has decided stays decided when
more tokens arrive. -/
structure Reader (τ φ ε μ : Type) where
  scan : φ → List τ → Scan τ ε μ
  /-- The error at the end of a stream that breaks off. -/
  ended : ε
  got_append : ∀ {form s m rest} (t : List τ), scan form s = .got m rest →
    scan form (s ++ t) = .got m (rest ++ t)
  fail_append : ∀ {form s e} (t : List τ), scan form s = .fail e → scan form (s ++ t) = .fail e

/-! ## Parties -/

/-- A party ends with a result, or goes on with what became of a write or a read. -/
inductive Party (τ φ ε μ ρ : Type) where
  | done (r : ρ)
  | write (out : List τ) (next : Except ε Unit → Party τ φ ε μ ρ)
  | read (form : φ) (next : Except ε μ → Party τ φ ε μ ρ)

variable {τ φ ε μ ρ ρ' : Type}

namespace Party

def bind : Party τ φ ε μ ρ → (ρ → Party τ φ ε μ ρ') → Party τ φ ε μ ρ'
  | .done r, k => k r
  | .write out next, k => .write out fun w => (next w).bind k
  | .read form next, k => .read form fun m => (next m).bind k

instance : Monad (Party τ φ ε μ) where
  pure := .done
  bind := bind

end Party

/-- What a party did: it wrote, it failed to write, or it was given a message or an
error. -/
inductive Deed (τ φ ε μ : Type) where
  | wrote (out : List τ)
  | broke (out : List τ) (e : ε)
  | got (form : φ) (m : Except ε μ)

/-- The party does this and becomes that, whatever the other side and the streams
do. -/
inductive Does : Party τ φ ε μ ρ → List (Deed τ φ ε μ) → Party τ φ ε μ ρ → Prop
  | refl (p : Party τ φ ε μ ρ) : Does p [] p
  | wrote {out next ds q} (h : Does (next (.ok ())) ds q) :
      Does (.write out next) (.wrote out :: ds) q
  | broke {out next ds q} (e : ε) (h : Does (next (.error e)) ds q) :
      Does (.write out next) (.broke out e :: ds) q
  | got {form next ds q} (m : Except ε μ) (h : Does (next m) ds q) :
      Does (.read form next) (.got form m :: ds) q

/-- What may have left with a deed. A write that failed may have written something. -/
def Deed.output : Deed τ φ ε μ → Option (List τ)
  | .wrote out => some out
  | .broke out _ => some out
  | .got _ _ => none

def outputs (ds : List (Deed τ φ ε μ)) : List (List τ) := ds.filterMap Deed.output

@[simp]
theorem outputs_nil : outputs ([] : List (Deed τ φ ε μ)) = [] := rfl

@[simp]
theorem outputs_append (ds ds' : List (Deed τ φ ε μ)) :
    outputs (ds ++ ds') = outputs ds ++ outputs ds' := List.filterMap_append

theorem prefix_outputs {ds ds' : List (Deed τ φ ε μ)} (h : ds' <+: ds) :
    outputs ds' <+: outputs ds := h.filterMap Deed.output

@[simp]
theorem outputs_got (form : φ) (m : Except ε μ) :
    outputs [(.got form m : Deed τ φ ε μ)] = [] := rfl

theorem outputs_singleton {d : Deed τ φ ε μ} {out : List τ} (h : d.output = some out) :
    outputs [d] = [out] := List.filterMap_cons_some h

/-- A party that is stopped anywhere could have come to an end, so what holds of all that
was done at an end holds of the beginnings as well. -/
theorem Does.ends [Inhabited ε] {p q : Party τ φ ε μ ρ} {ds : List (Deed τ φ ε μ)}
    (h : Does p ds q) : ∃ ds' r, Does p (ds ++ ds') (.done r) := by
  induction h with
  | refl p =>
    -- every further write and read fails
    induction p with
    | done r => exact ⟨[], r, .refl _⟩
    | write out next ih =>
      obtain ⟨ds', r, h⟩ := ih (.error default)
      exact ⟨_, r, .broke default h⟩
    | read form next ih =>
      obtain ⟨ds', r, h⟩ := ih (.error default)
      exact ⟨_, r, .got _ h⟩
  | wrote _ ih =>
    obtain ⟨ds', r, h⟩ := ih
    exact ⟨ds', r, .wrote h⟩
  | broke e _ ih =>
    obtain ⟨ds', r, h⟩ := ih
    exact ⟨ds', r, .broke e h⟩
  | got m _ ih =>
    obtain ⟨ds', r, h⟩ := ih
    exact ⟨ds', r, .got m h⟩

/-- An end of a sequence is an end of its first part and then one of the rest. -/
theorem does_bind_iff {p : Party τ φ ε μ ρ} {k : ρ → Party τ φ ε μ ρ'}
    {ds : List (Deed τ φ ε μ)} {r : ρ'} :
    Does (p.bind k) ds (.done r) ↔ ∃ a ds₁ ds₂, Does p ds₁ (.done a) ∧ Does (k a) ds₂ (.done r) ∧
      ds = ds₁ ++ ds₂ := by
  constructor
  · intro h
    induction p generalizing ds with
    | done a => exact ⟨a, [], ds, .refl _, h, rfl⟩
    | write out next ih =>
      cases h with
      | wrote h =>
        obtain ⟨a, ds₁, ds₂, h₁, h₂, rfl⟩ := ih _ h
        exact ⟨a, _, ds₂, .wrote h₁, h₂, rfl⟩
      | broke e h =>
        obtain ⟨a, ds₁, ds₂, h₁, h₂, rfl⟩ := ih _ h
        exact ⟨a, _, ds₂, .broke e h₁, h₂, rfl⟩
    | read form next ih =>
      cases h with
      | got m h =>
        obtain ⟨a, ds₁, ds₂, h₁, h₂, rfl⟩ := ih _ h
        exact ⟨a, _, ds₂, .got m h₁, h₂, rfl⟩
  · rintro ⟨a, ds₁, ds₂, h₁, h₂, rfl⟩
    generalize he : Party.done a = q at h₁
    induction h₁ with
    | refl p =>
      subst he
      exact h₂
    | wrote h ih => exact .wrote (ih he)
    | broke e h ih => exact .broke e (ih he)
    | got m h ih => exact .got m (ih he)

/-! ## Relations in which steps commute -/

section Descent

variable {α : Type} {r : α → α → Prop}

/-- In `n` steps. -/
inductive Steps (r : α → α → Prop) : Nat → α → α → Prop
  | zero (a : α) : Steps r 0 a a
  | succ {n : Nat} {a b c : α} (h : r a b) (hs : Steps r n b c) : Steps r (n + 1) a c

/-- Two steps from one state lead to one state, or can be joined by one step each. -/
def Commutes (r : α → α → Prop) : Prop :=
  ∀ a b c, r a b → r a c → b = c ∨ ∃ d, r b d ∧ r c d

/-- Where steps commute, every first step brings the end one step nearer. -/
theorem Steps.descend (hr : Commutes r) {n : Nat} {a b z : α} (h : Steps r n a z)
    (hz : ∀ y, ¬ r z y) (hab : r a b) : ∃ m, n = m + 1 ∧ Steps r m b z := by
  induction h generalizing b with
  | zero a => exact absurd hab (hz b)
  | @succ n a c z hac hcz ih =>
    rcases hr a b c hab hac with rfl | ⟨d, hbd, hcd⟩
    · exact ⟨n, rfl, hcz⟩
    · obtain ⟨m, rfl, hdz⟩ := ih hz hcd
      exact ⟨m + 1, rfl, .succ hbd hdz⟩

end Descent

/-! ## Two parties and what is between them -/

/-- Two parties, and all that each of them has written and the other one has not
read. -/
structure Pair (τ φ ε μ ρ ρ' : Type) where
  left : Party τ φ ε μ ρ
  right : Party τ φ ε μ ρ'
  /-- From left to right. -/
  up : List τ
  down : List τ

namespace Pair

def swap (c : Pair τ φ ε μ ρ ρ') : Pair τ φ ε μ ρ' ρ := ⟨c.right, c.left, c.down, c.up⟩

end Pair

variable (R : Reader τ φ ε μ)

/-- A step of the left party. At the end of its stream, which comes when the right
party is done, it is told. -/
inductive LeftMove : Pair τ φ ε μ ρ ρ' → Pair τ φ ε μ ρ ρ' → Prop
  | write (out : List τ) (next : Except ε Unit → Party τ φ ε μ ρ) (right : Party τ φ ε μ ρ')
      (up down : List τ) :
      LeftMove ⟨.write out next, right, up, down⟩ ⟨next (.ok ()), right, up ++ out, down⟩
  | got {form : φ} {m : μ} {down rest : List τ} (next : Except ε μ → Party τ φ ε μ ρ)
      (right : Party τ φ ε μ ρ') (up : List τ) (h : R.scan form down = .got m rest) :
      LeftMove ⟨.read form next, right, up, down⟩ ⟨next (.ok m), right, up, rest⟩
  | fail {form : φ} {e : ε} {down : List τ} (next : Except ε μ → Party τ φ ε μ ρ)
      (right : Party τ φ ε μ ρ') (up : List τ) (h : R.scan form down = .fail e) :
      LeftMove ⟨.read form next, right, up, down⟩ ⟨next (.error e), right, up, down⟩
  | ended {form : φ} {down : List τ} (next : Except ε μ → Party τ φ ε μ ρ) (r : ρ') (up : List τ)
      (h : R.scan form down = .wait) :
      LeftMove ⟨.read form next, .done r, up, down⟩ ⟨next (.error R.ended), .done r, up, down⟩

/-- A step of either party. -/
def Move (c c' : Pair τ φ ε μ ρ ρ') : Prop := LeftMove R c c' ∨ LeftMove R c.swap c'.swap

variable {R}

theorem LeftMove.unique {c a b : Pair τ φ ε μ ρ ρ'} (ha : LeftMove R c a) (hb : LeftMove R c b) :
    a = b := by
  cases ha with
  | write => cases hb; rfl
  | got _ _ _ h =>
    cases hb with
    | got _ _ _ h' =>
      rw [h] at h'
      cases h'
      rfl
    | fail _ _ _ h' => simp [h] at h'
    | ended _ _ _ h' => simp [h] at h'
  | fail _ _ _ h =>
    cases hb with
    | got _ _ _ h' => simp [h] at h'
    | fail _ _ _ h' =>
      rw [h] at h'
      cases h'
      rfl
    | ended _ _ _ h' => simp [h] at h'
  | ended _ _ _ h =>
    cases hb with
    | got _ _ _ h' => simp [h] at h'
    | fail _ _ _ h' => simp [h] at h'
    | ended => rfl

/-- A step of the left party leaves the right one as it is, and only adds to what the
right one can read. -/
theorem LeftMove.frame {c a : Pair τ φ ε μ ρ ρ'} (h : LeftMove R c a) :
    a.right = c.right ∧ (∃ out, a.up = c.up ++ out) ∧ ∀ r, c.left ≠ .done r := by
  cases h with
  | write out => exact ⟨rfl, ⟨out, rfl⟩, by simp⟩
  | got => exact ⟨rfl, ⟨[], by simp⟩, by simp⟩
  | fail => exact ⟨rfl, ⟨[], by simp⟩, by simp⟩
  | ended => exact ⟨rfl, ⟨[], by simp⟩, by simp⟩

/-- What the left party can do it can also do later: when the right one has gone on
and more has arrived. -/
theorem LeftMove.later {c a : Pair τ φ ε μ ρ ρ'} (h : LeftMove R c a)
    (hrun : ∀ r, c.right ≠ .done r) (right : Party τ φ ε μ ρ') (up t : List τ) :
    ∃ out, a.up = c.up ++ out ∧
      LeftMove R ⟨c.left, right, up, c.down ++ t⟩ ⟨a.left, right, up ++ out, a.down ++ t⟩ := by
  cases h with
  | write out next right' up' down => exact ⟨out, rfl, .write out next right up (down ++ t)⟩
  | got next right' up' h =>
    refine ⟨[], by simp, ?_⟩
    simpa using LeftMove.got next right up (R.got_append t h)
  | fail next right' up' h =>
    refine ⟨[], by simp, ?_⟩
    simpa using LeftMove.fail next right up (R.fail_append t h)
  | ended next r up' h => exact absurd rfl (hrun r)

theorem LeftMove.join {c a b : Pair τ φ ε μ ρ ρ'} (ha : LeftMove R c a)
    (hb : LeftMove R c.swap b.swap) : ∃ d, LeftMove R b d ∧ LeftMove R a.swap d.swap := by
  obtain ⟨hright, -, hleft⟩ := ha.frame
  obtain ⟨hleft', -, hright'⟩ := hb.frame
  obtain ⟨out, hup, hlater⟩ := ha.later hright' b.right b.up (b.down.drop c.down.length)
  obtain ⟨out', hdown, hlater'⟩ := hb.later hleft a.left a.down out
  have hdrop : b.down.drop c.down.length = out' := by
    have hb' : b.down = c.down ++ out' := hdown
    rw [hb', List.drop_left]
  rw [hdrop] at hlater
  refine ⟨⟨a.left, b.right, b.up ++ out, a.down ++ out'⟩, ?_, ?_⟩
  · have hsame : b = ⟨c.left, b.right, b.up, c.down ++ out'⟩ := by
      cases b
      cases hleft'
      cases hdown
      rfl
    rw [hsame]
    exact hlater
  · have hsame : a.swap = ⟨c.right, a.left, a.down, c.up ++ out⟩ := by
      cases a
      cases hright
      cases hup
      rfl
    rw [hsame]
    exact hlater'

/-- The steps of the two parties commute. -/
theorem move_commutes : Commutes (Move R : Pair τ φ ε μ ρ ρ' → Pair τ φ ε μ ρ ρ' → Prop) := by
  intro c a b ha hb
  rcases ha with ha | ha <;> rcases hb with hb | hb
  · exact .inl (ha.unique hb)
  · obtain ⟨d, hbd, had⟩ := ha.join hb
    exact .inr ⟨d, .inr had, .inl hbd⟩
  · obtain ⟨d, had, hbd⟩ := hb.join ha
    exact .inr ⟨d, .inl had, .inr hbd⟩
  · exact .inl (congrArg Pair.swap (ha.unique hb))

/-! ## Streams that deliver piece by piece -/

/-- What was written to a stream: a part of it has arrived. -/
structure Stream (τ : Type) where
  arrived : List τ
  inflight : List τ

def Stream.content (s : Stream τ) : List τ := s.arrived ++ s.inflight

/-- Two parties that are connected by two streams. -/
structure Link (τ φ ε μ ρ ρ' : Type) where
  left : Party τ φ ε μ ρ
  right : Party τ φ ε μ ρ'
  up : Stream τ
  down : Stream τ

namespace Link

def swap (c : Link τ φ ε μ ρ ρ') : Link τ φ ε μ ρ' ρ := ⟨c.right, c.left, c.down, c.up⟩

/-- All that is on the streams, as if it had arrived. -/
def pair (c : Link τ φ ε μ ρ ρ') : Pair τ φ ε μ ρ ρ' :=
  ⟨c.left, c.right, c.up.content, c.down.content⟩

end Link

variable (R)

/-- A step of the left party, which reads what has arrived, or a delivery to it. -/
inductive LeftStep : Link τ φ ε μ ρ ρ' → Link τ φ ε μ ρ ρ' → Prop
  | write (out : List τ) (next : Except ε Unit → Party τ φ ε μ ρ) (right : Party τ φ ε μ ρ')
      (up down : Stream τ) :
      LeftStep ⟨.write out next, right, up, down⟩
        ⟨next (.ok ()), right, { up with inflight := up.inflight ++ out }, down⟩
  | got {form : φ} {m : μ} {down : Stream τ} {rest : List τ}
      (next : Except ε μ → Party τ φ ε μ ρ) (right : Party τ φ ε μ ρ') (up : Stream τ)
      (h : R.scan form down.arrived = .got m rest) :
      LeftStep ⟨.read form next, right, up, down⟩
        ⟨next (.ok m), right, up, { down with arrived := rest }⟩
  | fail {form : φ} {e : ε} {down : Stream τ} (next : Except ε μ → Party τ φ ε μ ρ)
      (right : Party τ φ ε μ ρ') (up : Stream τ) (h : R.scan form down.arrived = .fail e) :
      LeftStep ⟨.read form next, right, up, down⟩ ⟨next (.error e), right, up, down⟩
  | ended {form : φ} {arrived : List τ} (next : Except ε μ → Party τ φ ε μ ρ) (r : ρ')
      (up : Stream τ) (h : R.scan form arrived = .wait) :
      LeftStep ⟨.read form next, .done r, up, ⟨arrived, []⟩⟩
        ⟨next (.error R.ended), .done r, up, ⟨arrived, []⟩⟩
  | deliver (left : Party τ φ ε μ ρ) (right : Party τ φ ε μ ρ') (up : Stream τ)
      (arrived piece : List τ) {inflight : List τ} (h : piece ≠ []) :
      LeftStep ⟨left, right, up, ⟨arrived, piece ++ inflight⟩⟩
        ⟨left, right, up, ⟨arrived ++ piece, inflight⟩⟩

/-- A step of one of the parties or of one of the streams. -/
def Step (c c' : Link τ φ ε μ ρ ρ') : Prop := LeftStep R c c' ∨ LeftStep R c.swap c'.swap

variable {R}

/-- A step is one of the parties with all that is on the streams, or it brings something
nearer. -/
theorem LeftStep.move {c c' : Link τ φ ε μ ρ ρ'} (h : LeftStep R c c') :
    LeftMove R c.pair c'.pair ∨ c'.pair = c.pair ∧
      c'.up.inflight.length + c'.down.inflight.length <
        c.up.inflight.length + c.down.inflight.length := by
  cases h with
  | write out next right up down =>
    left
    simpa [Link.pair, Stream.content] using LeftMove.write out next right up.content down.content
  | got next right up h => exact .inl (.got next right _ (R.got_append _ h))
  | fail next right up h => exact .inl (.fail next right _ (R.fail_append _ h))
  | @ended form arrived next r up h =>
    refine .inl (.ended next r _ ?_)
    simpa [Stream.content] using h
  | deliver left right up arrived piece h =>
    refine .inr ⟨by simp [Link.pair, Stream.content], ?_⟩
    have := List.length_pos_iff.2 h
    simp
    omega

theorem Step.move {c c' : Link τ φ ε μ ρ ρ'} (h : Step R c c') :
    Move R c.pair c'.pair ∨ c'.pair = c.pair ∧
      c'.up.inflight.length + c'.down.inflight.length <
        c.up.inflight.length + c.down.inflight.length := by
  rcases h with h | h
  · rcases h.move with h | h
    · exact .inl (.inl h)
    · exact .inr h
  · rcases h.move with h | ⟨hpair, hlt⟩
    · exact .inl (.inr h)
    · refine .inr ⟨congrArg Pair.swap hpair, ?_⟩
      rw [Nat.add_comm, Nat.add_comm c.up.inflight.length]
      exact hlt

/-- Where a party could go on if all had arrived, something can happen. -/
theorem LeftMove.step {c : Link τ φ ε μ ρ ρ'} {a : Pair τ φ ε μ ρ ρ'}
    (h : LeftMove R c.pair a) : ∃ c', LeftStep R c c' := by
  rcases c with ⟨left, right, up, ⟨arrived, inflight⟩⟩
  cases inflight with
  | cons t inflight =>
    exact ⟨_, .deliver left right up arrived [t] (List.cons_ne_nil _ _)⟩
  | nil =>
    generalize hc : Link.pair ⟨left, right, up, ⟨arrived, []⟩⟩ = c at h
    cases h with
    | write out next right' up' down =>
      cases hc
      exact ⟨_, .write out next right up _⟩
    | got next right' up' h =>
      cases hc
      simp only [Stream.content, List.append_nil] at h
      exact ⟨_, .got next right up h⟩
    | fail next right' up' h =>
      cases hc
      simp only [Stream.content, List.append_nil] at h
      exact ⟨_, .fail next right up h⟩
    | ended next r up' h =>
      cases hc
      simp only [Stream.content, List.append_nil] at h
      exact ⟨_, .ended next r up h⟩

theorem Move.step {c : Link τ φ ε μ ρ ρ'} {a : Pair τ φ ε μ ρ ρ'} (h : Move R c.pair a) :
    ∃ c', Step R c c' := by
  rcases h with h | h
  · obtain ⟨c', hc⟩ := h.step
    exact ⟨c', .inl hc⟩
  · obtain ⟨c', hc⟩ := LeftMove.step (c := c.swap) h
    exact ⟨c'.swap, .inr hc⟩

/-- However the steps are interleaved and the streams are cut, it comes to an end, and
the end is this one. -/
structure Settles (R : Reader τ φ ε μ) (c : Link τ φ ε μ ρ ρ') (r : ρ) (r' : ρ') : Prop where
  finite : Acc (fun b a => Step R a b) c
  ends : ∀ c', Relation.ReflTransGen (Step R) c c' → (∀ c'', ¬ Step R c' c'') →
    c'.left = .done r ∧ c'.right = .done r'

/-- One way to the end is enough. -/
theorem settles_of_steps {n : Nat} {c : Link τ φ ε μ ρ ρ'} {up down : List τ} {r : ρ} {r' : ρ'}
    (h : Steps (Move R) n c.pair ⟨.done r, .done r', up, down⟩) : Settles R c r r' := by
  have hstuck : ∀ y, ¬ Move R (⟨.done r, .done r', up, down⟩ : Pair τ φ ε μ ρ ρ') y := by
    rintro y (h | h) <;> cases h
  constructor
  · -- by the moves that are left, and then by what is still on its way
    induction n generalizing c with
    | zero =>
      induction hk : c.up.inflight.length + c.down.inflight.length using Nat.strongRecOn
        generalizing c with
      | ind k ihk =>
        refine ⟨_, fun c' hstep => ?_⟩
        rcases Step.move hstep with hmove | ⟨hpair, hlt⟩
        · obtain ⟨m, hm, -⟩ := h.descend move_commutes hstuck hmove
          omega
        · exact ihk _ (hk ▸ hlt) (hpair ▸ h) rfl
    | succ n ih =>
      induction hk : c.up.inflight.length + c.down.inflight.length using Nat.strongRecOn
        generalizing c with
      | ind k ihk =>
        refine ⟨_, fun c' hstep => ?_⟩
        rcases Step.move hstep with hmove | ⟨hpair, hlt⟩
        · obtain ⟨m, hm, hrest⟩ := h.descend move_commutes hstuck hmove
          obtain rfl : n = m := by omega
          exact ih hrest
        · exact ihk _ (hk ▸ hlt) (hpair ▸ h) rfl
  · intro c' hreach hend
    -- from where it stands the end is still ahead, so it can only be there
    have hahead : ∃ m, Steps (Move R) m c'.pair ⟨.done r, .done r', up, down⟩ := by
      clear hend
      induction hreach with
      | refl => exact ⟨n, h⟩
      | tail _ hstep ih =>
        obtain ⟨m, hm⟩ := ih
        rcases Step.move hstep with hmove | ⟨hpair, -⟩
        · obtain ⟨k, -, hk⟩ := hm.descend move_commutes hstuck hmove
          exact ⟨k, hk⟩
        · exact ⟨m, hpair ▸ hm⟩
    obtain ⟨m, hm⟩ := hahead
    generalize hz : (⟨.done r, .done r', up, down⟩ : Pair τ φ ε μ ρ ρ') = z at hm
    generalize hp : c'.pair = p at hm
    cases hm with
    | zero =>
      subst hz
      exact ⟨congrArg Pair.left hp, congrArg Pair.right hp⟩
    | succ hmove _ =>
      subst hp
      obtain ⟨c'', hstep⟩ := hmove.step
      exact absurd hstep (hend c'')

end stream_party
