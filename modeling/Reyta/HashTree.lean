-- Binary hash trees. A leaf is opened by the hashes beside its path, leaf
-- upward. Climbing from the leaf through them gives the root, and without a
-- collision nothing else along the same path does.
import Mathlib.Data.List.Basic
import Mathlib.Tactic.Common

namespace hash_tree

/-! ## Collisions -/

/-- No input of `xs` collides with a different input of `ys`. A hash onto
short digests cannot be injective, but it can be collision-free on the inputs
that are really hashed. -/
def NoCollision {α β : Type} (f : α → β) (xs ys : List α) : Prop :=
  ∀ x ∈ xs, ∀ y ∈ ys, f x = f y → x = y

instance {α β : Type} [DecidableEq α] [DecidableEq β] (f : α → β) (xs ys : List α) :
    Decidable (NoCollision f xs ys) :=
  inferInstanceAs (Decidable (∀ x ∈ xs, ∀ y ∈ ys, f x = f y → x = y))

theorem NoCollision.mono {α β : Type} {f : α → β} {xs xs' ys ys' : List α}
    (h : NoCollision f xs ys) (hx : xs' ⊆ xs) (hy : ys' ⊆ ys) : NoCollision f xs' ys' :=
  fun x hx' y hy' he => h x (hx hx') y (hy hy') he

theorem NoCollision.symm {α β : Type} {f : α → β} {xs ys : List α} (h : NoCollision f xs ys) :
    NoCollision f ys xs :=
  fun y hy x hx he => (h x hx y hy he.symm).symm

/-! ## Trees and paths -/

/-- The side on which a sibling stands. -/
inductive Side where
  | Left
  | Right
  deriving DecidableEq, Repr

/-- A sibling on the way from a leaf to the root. -/
structure Step (D : Type) where
  direction : Side
  hash : D
  deriving DecidableEq

inductive Tree (D : Type) where
  | leaf (d : D)
  | node (l r : Tree D)

variable {D : Type} (h : D × D → D)

def Tree.root : Tree D → D
  | .leaf d => d
  | .node l r => h (l.root, r.root)

/-- The pairs that are hashed for the root. -/
def Tree.pairs : Tree D → List (D × D)
  | .leaf _ => []
  | .node l r => (l.root h, r.root h) :: (l.pairs ++ r.pairs)

/-- The leaves, from left to right. -/
def Tree.leaves : Tree D → List D
  | .leaf d => [d]
  | .node l r => l.leaves ++ r.leaves

/-- The pair that is hashed where `acc` meets its sibling. -/
def Step.meet (s : Step D) (acc : D) : D × D :=
  match s.direction with
  | .Left => (s.hash, acc)
  | .Right => (acc, s.hash)

/-- Climbs from `acc` through the siblings. -/
def climb (acc : D) (steps : List (Step D)) : D :=
  steps.foldl (fun acc s => h (s.meet acc)) acc

/-- The pairs that are hashed while climbing. -/
def climbPairs : D → List (Step D) → List (D × D)
  | _, [] => []
  | acc, s :: steps => s.meet acc :: climbPairs (h (s.meet acc)) steps

@[simp] theorem climb_append_singleton (acc : D) (steps : List (Step D)) (s : Step D) :
    climb h acc (steps ++ [s]) = h (s.meet (climb h acc steps)) := by
  simp [climb]

@[simp] theorem climbPairs_append_singleton (acc : D) (steps : List (Step D)) (s : Step D) :
    climbPairs h acc (steps ++ [s]) = climbPairs h acc steps ++ [s.meet (climb h acc steps)] := by
  induction steps generalizing acc with
  | nil => rfl
  | cons t steps ih => simp [climbPairs, ih, climb]

/-- The siblings `steps` open the leaf `d` of the tree. -/
inductive Opens : Tree D → List (Step D) → D → Prop where
  | leaf (d : D) : Opens (.leaf d) [] d
  | left {l r : Tree D} {steps : List (Step D)} {d : D} (hl : Opens l steps d) :
      Opens (.node l r) (steps ++ [⟨.Right, r.root h⟩]) d
  | right {l r : Tree D} {steps : List (Step D)} {d : D} (hr : Opens r steps d) :
      Opens (.node l r) (steps ++ [⟨.Left, l.root h⟩]) d

/-- An opening climbs to the root. -/
theorem climb_of_opens {h : D × D → D} {t : Tree D} {steps : List (Step D)} {d : D}
    (ho : Opens h t steps d) : climb h d steps = t.root h := by
  induction ho with
  | leaf d => rfl
  | left _ ih => simp [Step.meet, ih, Tree.root]
  | right _ ih => simp [Step.meet, ih, Tree.root]

/-- Steps with the directions of `steps ++ [s]` end in a step with the
direction of `s`. -/
theorem split_last {steps : List (Step D)} {s : Step D} {steps' : List (Step D)}
    (hd : steps'.map Step.direction = (steps ++ [s]).map Step.direction) :
    ∃ init last, steps' = init ++ [last] ∧ init.map Step.direction = steps.map Step.direction ∧
      last.direction = s.direction := by
  rw [List.map_append, List.map_singleton] at hd
  obtain ⟨init, tail, rfl, hi, ht⟩ := List.map_eq_append_iff.1 hd
  obtain ⟨last, rest, rfl, hl, hr⟩ := List.map_eq_cons_iff.1 ht
  obtain rfl := List.map_eq_nil_iff.1 hr
  exact ⟨init, last, rfl, hi, hl⟩

/-- Along the path of a leaf, only the leaf and its own siblings climb to the
root. -/
theorem opens_unique {h : D × D → D} {t : Tree D} {steps steps' : List (Step D)} {d d' : D}
    (ho : Opens h t steps d) (hd : steps'.map Step.direction = steps.map Step.direction)
    (hroot : climb h d' steps' = t.root h)
    (hcol : NoCollision h (t.pairs h) (climbPairs h d' steps')) : d' = d ∧ steps' = steps := by
  induction ho generalizing steps' with
  | leaf d =>
    obtain rfl := List.map_eq_nil_iff.1 hd
    exact ⟨hroot, rfl⟩
  | @left l r steps d hl ih =>
    obtain ⟨init, ⟨dir, hash⟩, rfl, hi, hdir⟩ := split_last hd
    simp only at hdir
    subst hdir
    rw [climb_append_singleton] at hroot
    -- The two pairs below the root are both hashed, so they are equal.
    have htop : (l.root h, r.root h) = (climb h d' init, hash) :=
      hcol _ List.mem_cons_self _ (by simp [Step.meet]) hroot.symm
    obtain ⟨h1, h2⟩ := Prod.mk.inj htop
    have hsub : NoCollision h (l.pairs h) (climbPairs h d' init) :=
      hcol.mono (fun x hx => by simp [Tree.pairs, hx]) (by simp)
    obtain ⟨rfl, rfl⟩ := ih hi h1.symm hsub
    exact ⟨rfl, by rw [h2]⟩
  | @right l r steps d hr ih =>
    obtain ⟨init, ⟨dir, hash⟩, rfl, hi, hdir⟩ := split_last hd
    simp only at hdir
    subst hdir
    rw [climb_append_singleton] at hroot
    have htop : (l.root h, r.root h) = (hash, climb h d' init) :=
      hcol _ List.mem_cons_self _ (by simp [Step.meet]) hroot.symm
    obtain ⟨h1, h2⟩ := Prod.mk.inj htop
    have hsub : NoCollision h (r.pairs h) (climbPairs h d' init) :=
      hcol.mono (fun x hx => by simp [Tree.pairs, hx]) (by simp)
    obtain ⟨rfl, rfl⟩ := ih hi h2.symm hsub
    exact ⟨rfl, by rw [h1]⟩

/-! ## The root -/

/-- A leaf of one tree is not the hash of a pair in the other. -/
def Tree.LeavesApart (t t' : Tree D) : Prop := ∀ d ∈ t.leaves, ∀ p ∈ t'.pairs h, d ≠ h p

/-- Without a collision, and with leaves that are told apart from nodes, the
root fixes the tree with all its leaves. -/
theorem Tree.root_inj {h : D × D → D} {t t' : Tree D}
    (hcol : NoCollision h (t.pairs h) (t'.pairs h)) (hleft : t.LeavesApart h t')
    (hright : t'.LeavesApart h t) (hroot : t.root h = t'.root h) : t = t' := by
  induction t generalizing t' with
  | leaf d =>
    cases t' with
    | leaf d' => exact congrArg Tree.leaf hroot
    | node l' r' => exact absurd hroot (hleft d (by simp [leaves]) _ (by simp [pairs]))
  | node l r ihl ihr =>
    cases t' with
    | leaf d' => exact absurd hroot.symm (hright d' (by simp [leaves]) _ (by simp [pairs]))
    | node l' r' =>
      have htop : (l.root h, r.root h) = (l'.root h, r'.root h) :=
        hcol _ (by simp [pairs]) _ (by simp [pairs]) hroot
      obtain ⟨hl, hr⟩ := Prod.mk.inj htop
      have heq : l = l' := ihl
        (hcol.mono (fun p hp => by simp [pairs, hp]) (fun p hp => by simp [pairs, hp]))
        (fun d hd p hp => hleft d (by simp [leaves, hd]) p (by simp [pairs, hp]))
        (fun d hd p hp => hright d (by simp [leaves, hd]) p (by simp [pairs, hp])) hl
      have heq' : r = r' := ihr
        (hcol.mono (fun p hp => by simp [pairs, hp]) (fun p hp => by simp [pairs, hp]))
        (fun d hd p hp => hleft d (by simp [leaves, hd]) p (by simp [pairs, hp]))
        (fun d hd p hp => hright d (by simp [leaves, hd]) p (by simp [pairs, hp])) hr
      rw [heq, heq']

end hash_tree
