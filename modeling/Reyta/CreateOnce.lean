-- Two processes that look for a file and make it if there is none. Both make it
-- as one temporary file of a fixed name, which they then rename. When both
-- succeed, they have the same content exactly if one of them looked after the
-- other had renamed.
import Reyta.Interleaving

open interleaving

namespace create_once

variable {α ε κ ρ : Type}

/-- A directory with the file and the temporary file. The names stand for the
numbers of contents, so a process that has a file open keeps its content. -/
structure Dir (α : Type) where
  content : Nat → List α
  next : Nat
  tmp : Option Nat
  file : Option Nat

def Dir.empty : Dir α := ⟨fun _ => [], 0, none, none⟩

inductive DirOp (α : Type) where
  | read
  | create
  | write (handle : Nat) (bytes : List α)
  | rename
  deriving DecidableEq

def DirOp.Answer : DirOp α → Type
  | .read => Option (List α)
  | .create => Nat
  | .write _ _ => Unit
  | .rename => Bool

namespace Dir

def read (d : Dir α) : Option (List α) := d.file.map d.content

/-- A new content, or the old one cut to length 0. -/
def create (d : Dir α) : Nat × Dir α :=
  match d.tmp with
  | some h => (h, { d with content := Function.update d.content h [] })
  | none => (d.next, { d with
      content := Function.update d.content d.next [], next := d.next + 1, tmp := some d.next })

/-- From the start of the content. -/
def write (d : Dir α) (h : Nat) (bytes : List α) : Dir α :=
  { d with content := Function.update d.content h (bytes ++ (d.content h).drop bytes.length) }

def rename (d : Dir α) : Bool × Dir α :=
  match d.tmp with
  | some h => (true, { d with tmp := none, file := some h })
  | none => (false, d)

def reply (d : Dir α) : (q : DirOp α) → q.Answer × Dir α
  | .read => (d.read, d)
  | .create => d.create
  | .write h bytes => ((), d.write h bytes)
  | .rename => d.rename

end Dir

abbrev DirTask (α ε : Type) := Task (DirOp α) DirOp.Answer ε

def read_file : DirTask α ε (Option (List α)) := Task.ask DirOp.read

/-- The file is made as the temporary file and then renamed. -/
def replace_file (bytes : List α) (gone : ε) : DirTask α ε Unit := do
  let handle : Nat ← Task.ask DirOp.create
  let _ : Unit ← Task.ask (DirOp.write handle bytes)
  let renamed : Bool ← Task.ask DirOp.rename
  if renamed then pure () else throw gone

/-- A process that looks for the file. `load` is the secret that it finds there,
`fresh` is the one that it makes, and `bytes` is the file for that. `give` is
what it returns for a secret, and if it was loaded. -/
structure Caller (α ε κ ρ : Type) where
  load : Option (List α) → Except ε (Option κ)
  fresh : κ
  bytes : Except ε (List α)
  gone : ε
  give : κ → Bool → ρ

namespace Caller

def task (c : Caller α ε κ ρ) : DirTask α ε ρ := do
  let found ← read_file
  match ← Task.of (c.load found) with
  | some secret => pure (c.give secret true)
  | none =>
    let bytes ← Task.of c.bytes
    replace_file bytes c.gone
    pure (c.give c.fresh false)

/-! ## The steps of a process -/

abbrev Steps (α ε ρ : Type) := Prog (DirOp α) DirOp.Answer (Except ε ρ)

def to_rename (c : Caller α ε κ ρ) : Steps α ε ρ :=
  .ask .rename fun (renamed : Bool) =>
    if renamed then .ret (.ok (c.give c.fresh false)) else .ret (.error c.gone)

def to_write (c : Caller α ε κ ρ) (bytes : List α) (h : Nat) : Steps α ε ρ :=
  .ask (.write h bytes) fun _ => c.to_rename

def to_create (c : Caller α ε κ ρ) (bytes : List α) : Steps α ε ρ :=
  .ask .create fun h => c.to_write bytes h

def looked (c : Caller α ε κ ρ) : Except ε (Option κ) → Steps α ε ρ
  | .error e => .ret (.error e)
  | .ok (some secret) => .ret (.ok (c.give secret true))
  | .ok none =>
    match c.bytes with
    | .error e => .ret (.error e)
    | .ok bytes => c.to_create bytes

theorem task_run (c : Caller α ε κ ρ) :
    c.task.run = .ask .read fun found => c.looked (c.load found) := by
  refine congrArg (Prog.ask DirOp.read) (funext fun found => ?_)
  change ExceptT.bindCont _ (c.load found) = _
  rcases c.load found with e | _ | secret
  · rfl
  · change ExceptT.bindCont _ c.bytes = _
    unfold looked
    cases c.bytes with
    | error e => rfl
    | ok bytes =>
      refine congrArg (Prog.ask DirOp.create) (funext fun h => ?_)
      refine congrArg (Prog.ask (DirOp.write h bytes)) (funext fun _ => ?_)
      refine congrArg (Prog.ask DirOp.rename) (funext fun renamed => ?_)
      cases renamed <;> rfl
  · rfl

end Caller

/-- How far a process has come, with the file it makes and the content that it
has open. -/
inductive Phase (α ε κ : Type) where
  | start
  | absent (bytes : List α)
  | opened (bytes : List α) (h : Nat)
  | written (bytes : List α) (h : Nat)
  | made (bytes : List α)
  | loaded (secret : κ)
  | failed (e : ε)

namespace Phase

def steps (c : Caller α ε κ ρ) : Phase α ε κ → Caller.Steps α ε ρ
  | .start => c.task.run
  | .absent bytes => c.to_create bytes
  | .opened bytes h => c.to_write bytes h
  | .written _ _ => c.to_rename
  | .made _ => .ret (.ok (c.give c.fresh false))
  | .loaded secret => .ret (.ok (c.give secret true))
  | .failed e => .ret (.error e)

/-- The content that it has open. -/
def handle : Phase α ε κ → Option Nat
  | .opened _ h => some h
  | .written _ h => some h
  | _ => none

/-- The file that it makes. -/
def bytes : Phase α ε κ → Option (List α)
  | .absent bytes => some bytes
  | .opened bytes _ => some bytes
  | .written bytes _ => some bytes
  | .made bytes => some bytes
  | _ => none

/-- The steps of a process: the question, and the phase after it. -/
inductive Step (c : Caller α ε κ ρ) (d : Dir α) : Phase α ε κ → DirOp α → Phase α ε κ → Prop
  | found {secret : κ} (h : c.load d.read = .ok (some secret)) :
    Step c d .start .read (.loaded secret)
  | missing {b : List α} (h : c.load d.read = .ok none) (hb : c.bytes = .ok b) :
    Step c d .start .read (.absent b)
  | stopped (e : ε) : Step c d .start .read (.failed e)
  | create {b : List α} : Step c d (.absent b) .create (.opened b d.create.1)
  | write {b : List α} {h : Nat} : Step c d (.opened b h) (.write h b) (.written b h)
  | rename {b : List α} {h : Nat} (hd : d.rename.1 = true) :
    Step c d (.written b h) .rename (.made b)
  | rename_fails {b : List α} {h : Nat} : Step c d (.written b h) .rename (.failed c.gone)

/-- A process is done, or it has one step. -/
theorem step_cases (c : Caller α ε κ ρ) (d : Dir α) (p : Phase α ε κ) :
    (∃ r, p.steps c = .ret r) ∨
      ∃ q k p', Step c d p q p' ∧ p.steps c = .ask q k ∧ k (d.reply q).1 = p'.steps c := by
  cases p with
  | start =>
    suffices hlooked : ∃ p', Step c d .start .read p' ∧ c.looked (c.load d.read) = p'.steps c by
      obtain ⟨p', hstep, hk⟩ := hlooked
      exact .inr ⟨_, _, p', hstep, c.task_run, hk⟩
    unfold Caller.looked
    rcases hload : c.load d.read with e | _ | secret
    · exact ⟨_, .stopped e, rfl⟩
    · cases hbytes : c.bytes with
      | error e => exact ⟨_, .stopped e, rfl⟩
      | ok b => exact ⟨_, .missing hload hbytes, rfl⟩
    · exact ⟨_, .found hload, rfl⟩
  | absent b => exact .inr ⟨_, _, _, .create, rfl, rfl⟩
  | opened b h => exact .inr ⟨_, _, _, .write, rfl, rfl⟩
  | written b h =>
    cases hrename : d.rename.1 with
    | true => exact .inr ⟨_, _, _, .rename hrename, rfl, if_pos hrename⟩
    | false =>
      have hfails : ¬ d.rename.1 = true := by simp [hrename]
      exact .inr ⟨_, _, _, .rename_fails, rfl, if_neg hfails⟩
  | made b => exact .inl ⟨_, rfl⟩
  | loaded secret => exact .inl ⟨_, rfl⟩
  | failed e => exact .inl ⟨_, rfl⟩

/-- The file that a process makes is the one it was called with. -/
theorem Step.bytes {c : Caller α ε κ ρ} {d : Dir α} {p p' : Phase α ε κ} {q : DirOp α}
    (h : Step c d p q p') (hp : ∀ b, p.bytes = some b → c.bytes = .ok b) :
    ∀ b, p'.bytes = some b → c.bytes = .ok b := by
  intro b hb
  cases h with
  | missing _ hbytes =>
    obtain rfl := Option.some.inj hb
    exact hbytes
  | create => exact hp b hb
  | write => exact hp b hb
  | rename => exact hp b hb
  | _ => cases hb

end Phase

/-! ## Two processes -/

/-- Process `j` looked after process `i` had renamed. -/
def After (trace : List (Bool × DirOp α)) (i j : Bool) : Prop :=
  [(i, DirOp.rename), (j, .read)].Sublist trace

instance [DecidableEq α] (trace : List (Bool × DirOp α)) (i j : Bool) :
    Decidable (After trace i j) :=
  inferInstanceAs (Decidable ([(i, DirOp.rename), (j, .read)].Sublist trace))

theorem after_concat {trace : List (Bool × DirOp α)} {x : Bool × DirOp α} {i j : Bool} :
    After (trace ++ [x]) i j ↔
      After trace i j ∨ (i, DirOp.rename) ∈ trace ∧ x = (j, DirOp.read) := by
  unfold After
  constructor
  · intro h
    obtain ⟨l₁, l₂, hl, h₁, h₂⟩ := List.sublist_append_iff.1 h
    rcases List.sublist_cons_iff.1 h₂ with h₂ | ⟨r, rfl, hr⟩
    · rw [List.sublist_nil.1 h₂, List.append_nil] at hl
      exact .inl (hl ▸ h₁)
    · obtain rfl := List.sublist_nil.1 hr
      obtain ⟨rfl, hx⟩ : [(i, DirOp.rename)] = l₁ ∧ [(j, DirOp.read)] = [x] :=
        List.append_inj' hl rfl
      exact .inr ⟨List.singleton_sublist.1 h₁, (List.cons.inj hx).1.symm⟩
  · rintro (h | ⟨hmem, rfl⟩)
    · exact h.trans (List.sublist_append_left _ _)
    · exact (List.singleton_sublist.2 hmem).append (.refl [_])

/-- Before anything was renamed: a process that has something open has the
temporary file open. Its content is the one it expects, unless the other has it
open as well. -/
def Holding (d : Dir α) (other : Phase α ε κ) : Phase α ε κ → Prop
  | .opened _ h => d.tmp = some h ∧ (other.handle = none → d.content h = [])
  | .written b h => d.tmp = some h ∧ (other.handle = none → d.content h = b)
  | .made _ => False
  | .loaded _ => False
  | .failed _ => False
  | _ => True

structure Fresh (ph : Bool → Phase α ε κ) (d : Dir α) (trace : List (Bool × DirOp α)) : Prop where
  no_file : d.file = none
  no_rename : ∀ i, (i, DirOp.rename) ∉ trace
  holding : ∀ i, Holding d (ph !i) (ph i)

/-- After process `i` has renamed, the other is behind. If it has something
open, then it is what was renamed, or it is new. -/
def Behind (c : Caller α ε κ ρ) (bytes : List α) (d : Dir α) : Phase α ε κ → Prop
  | .start => d.read = some bytes ∧ d.tmp = none
  | .absent _ => d.tmp = none
  | .opened _ h => d.tmp = none ∨ d.tmp = some h ∧ d.content h = []
  | .written b h => d.tmp = none ∨ d.tmp = some h ∧ d.content h = b
  | .loaded x => d.read = some bytes ∧ x = c.fresh
  | .failed _ => False
  | .made _ => False

/-- Process `i` has renamed and the other has not. -/
structure Renamed (c : Bool → Caller α ε κ ρ) (ph : Bool → Phase α ε κ) (d : Dir α)
    (trace : List (Bool × DirOp α)) (i : Bool) (bytes : List α) : Prop where
  made : ph i = .made bytes
  renamed : (i, DirOp.rename) ∈ trace
  not_renamed : (!i, DirOp.rename) ∉ trace
  behind : Behind (c i) bytes d (ph !i)
  after : (∃ x, ph (!i) = .loaded x) ↔ After trace i !i

/-- Both have renamed, first process `i`, and neither looked after the other. -/
structure Both (ph : Bool → Phase α ε κ) (d : Dir α) (trace : List (Bool × DirOp α)) (i : Bool)
    (bytes : List α) : Prop where
  first : ∃ b, ph i = .made b
  last : ph (!i) = .made bytes
  file : d.read = some bytes
  not_after : ∀ k, ¬ After trace k !k

inductive Situation (c : Bool → Caller α ε κ ρ) (ph : Bool → Phase α ε κ) (d : Dir α)
    (trace : List (Bool × DirOp α)) : Prop
  | fresh (h : Fresh ph d trace)
  | renamed (i : Bool) (bytes : List α) (h : Renamed c ph d trace i bytes)
  | both (i : Bool) (bytes : List α) (h : Both ph d trace i bytes)
  | lost (i : Bool) (e : ε) (h : ph i = .failed e)

section Steps

variable {c : Bool → Caller α ε κ ρ} {ph : Bool → Phase α ε κ} {d : Dir α}
  {trace : List (Bool × DirOp α)} {i : Bool} {b : List α} {h : Nat}

theorem eq_or_eq_not (i k : Bool) : k = i ∨ k = !i := by
  cases i <;> cases k <;> simp

theorem update_not (ph : Bool → Phase α ε κ) (i : Bool) (p : Phase α ε κ) :
    Function.update ph i p (!i) = ph !i := Function.update_of_ne (by cases i <;> simp) _ _

theorem update_of_not (ph : Bool → Phase α ε κ) (i : Bool) (p : Phase α ε κ) :
    Function.update ph (!i) p i = ph i := Function.update_of_ne (by cases i <;> simp) _ _

/-- What both have open. -/
theorem Holding.shared {d' : Dir α} {o p q : Phase α ε κ} (hq : Holding d o q)
    (htmp : ∀ n, d.tmp = some n → d'.tmp = some n) (hp : p.handle ≠ none) : Holding d' p q := by
  cases q with
  | opened b h => exact ⟨htmp h hq.1, fun hnone => absurd hnone hp⟩
  | written b h => exact ⟨htmp h hq.1, fun hnone => absurd hnone hp⟩
  | made b => exact hq
  | loaded x => exact hq
  | failed e => exact hq
  | _ => trivial

theorem Holding.apart {o p q : Phase α ε κ} (hq : Holding d o q) (ho : o.handle = none) :
    Holding d p q := by
  cases q with
  | opened b h => exact ⟨hq.1, fun _ => hq.2 ho⟩
  | written b h => exact ⟨hq.1, fun _ => hq.2 ho⟩
  | made b => exact hq
  | loaded x => exact hq
  | failed e => exact hq
  | _ => trivial

namespace Fresh

theorem update {d' : Dir α} {p : Phase α ε κ} {q : DirOp α} (hs : Fresh ph d trace)
    (hfile : d'.file = d.file) (hq : q ≠ .rename) (hi : Holding d' (ph !i) p)
    (hother : Holding d' p (ph !i)) :
    Fresh (Function.update ph i p) d' (trace ++ [(i, q)]) := by
  refine ⟨hfile.trans hs.no_file, ?_, ?_⟩
  · intro k hk
    rcases List.mem_append.1 hk with hk | hk
    · exact hs.no_rename k hk
    · exact hq (Prod.mk.inj (List.mem_singleton.1 hk)).2.symm
  · intro k
    rcases eq_or_eq_not i k with rfl | rfl
    · rwa [Function.update_self, update_not]
    · rwa [Bool.not_not, Function.update_self, update_not]

/-- A process that has looked, and has nothing open. -/
theorem looked (hs : Fresh ph d trace) (hi : ph i = .start) :
    Fresh (Function.update ph i (.absent b)) d (trace ++ [(i, .read)]) := by
  have hother := hs.holding !i
  rw [Bool.not_not, hi] at hother
  exact hs.update rfl (by simp) trivial (hother.apart rfl)

theorem created (hs : Fresh ph d trace) :
    Fresh (Function.update ph i (.opened b d.create.1)) d.create.2 (trace ++ [(i, .create)]) := by
  unfold Dir.create
  cases htmp : d.tmp with
  | some n =>
    exact hs.update rfl (by simp) ⟨rfl, fun _ => Function.update_self _ _ _⟩
      ((hs.holding !i).shared (fun _ hn => htmp.symm.trans hn) (by simp [Phase.handle]))
  | none =>
    refine hs.update rfl (by simp) ⟨rfl, fun _ => Function.update_self _ _ _⟩
      ((hs.holding !i).shared (fun n hn => ?_) (by simp [Phase.handle]))
    rw [htmp] at hn
    cases hn

theorem wrote (hs : Fresh ph d trace) (hi : ph i = .opened b h) :
    Fresh (Function.update ph i (.written b h)) (d.write h b) (trace ++ [(i, .write h b)]) := by
  have hown := hs.holding i
  rw [hi] at hown
  refine hs.update rfl (by simp) ⟨hown.1, fun hnone => ?_⟩
    ((hs.holding !i).shared (fun _ hn => hn) (by simp [Phase.handle]))
  simp [Dir.write, hown.2 hnone]

/-- The first rename. -/
theorem renamed (hs : Fresh ph d trace) (hi : ph i = .written b h) :
    Renamed c (Function.update ph i (.made b)) d.rename.2 (trace ++ [(i, .rename)]) i b := by
  have hother := hs.holding !i
  have hown := hs.holding i
  rw [hi] at hown
  have hrename : d.rename = (true, { d with tmp := none, file := some h }) := by
    simp only [Dir.rename, hown.1]
  rw [hrename]
  refine ⟨Function.update_self _ _ _, by simp, ?_, ?_, ?_⟩
  · intro hmem
    rcases List.mem_append.1 hmem with hmem | hmem
    · exact hs.no_rename _ hmem
    · have heq := (Prod.mk.inj (List.mem_singleton.1 hmem)).1
      cases i <;> simp at heq
  · rw [update_not]
    cases hph : ph !i with
    | start =>
      rw [hph] at hown
      exact ⟨congrArg some (hown.2 rfl), rfl⟩
    | absent b' => rfl
    | opened b' h' => exact .inl rfl
    | written b' h' => exact .inl rfl
    | made b' =>
      rw [hph] at hother
      exact hother.elim
    | loaded x =>
      rw [hph] at hother
      exact hother.elim
    | failed e =>
      rw [hph] at hother
      exact hother.elim
  · rw [update_not, after_concat]
    refine iff_of_false ?_ ?_
    · rintro ⟨x, hx⟩
      rw [hx] at hother
      exact hother
    · rintro (hafter | ⟨hmem, -⟩)
      · exact hs.no_rename i (hafter.subset (by simp))
      · exact hs.no_rename i hmem

end Fresh

namespace Renamed

variable {bytes : List α}

/-- A step of the other, which is not a rename. -/
theorem update {d' : Dir α} {p : Phase α ε κ} {q : DirOp α} (hs : Renamed c ph d trace i bytes)
    (hq : q ≠ .rename) (hp : Behind (c i) bytes d' p)
    (hafter : (∃ x, p = .loaded x) ↔ After (trace ++ [(!i, q)]) i !i) :
    Renamed c (Function.update ph (!i) p) d' (trace ++ [(!i, q)]) i bytes := by
  refine ⟨?_, List.mem_append_left _ hs.renamed, ?_, ?_, ?_⟩
  · rw [update_of_not]
    exact hs.made
  · intro hk
    rcases List.mem_append.1 hk with hk | hk
    · exact hs.not_renamed hk
    · exact hq (Prod.mk.inj (List.mem_singleton.1 hk)).2.symm
  · rwa [Function.update_self]
  · rwa [Function.update_self]

/-- A step of the other when it found nothing before. -/
theorem go_on {d' : Dir α} {p : Phase α ε κ} {q : DirOp α} (hs : Renamed c ph d trace i bytes)
    (hq : q ≠ .rename ∧ q ≠ .read) (hph : ∀ x, ph (!i) ≠ .loaded x) (hp : Behind (c i) bytes d' p)
    (hloaded : ∀ x, p ≠ .loaded x) :
    Renamed c (Function.update ph (!i) p) d' (trace ++ [(!i, q)]) i bytes := by
  refine hs.update hq.1 hp (iff_of_false (fun ⟨x, hx⟩ => hloaded x hx) ?_)
  rw [after_concat, ← hs.after]
  rintro (⟨x, hx⟩ | ⟨-, heq⟩)
  · exact hph x hx
  · exact hq.2 (Prod.mk.inj heq).2

theorem looked (hs : Renamed c ph d trace i bytes) (hi : ph (!i) = .start) :
    d.read = some bytes ∧ Renamed c (Function.update ph (!i) (.loaded (c i).fresh)) d
      (trace ++ [(!i, .read)]) i bytes := by
  have hbehind := hs.behind
  rw [hi] at hbehind
  refine ⟨hbehind.1, hs.update (by simp) ⟨hbehind.1, rfl⟩ (iff_of_true ⟨_, rfl⟩ ?_)⟩
  exact after_concat.2 (.inr ⟨hs.renamed, rfl⟩)

theorem created (hs : Renamed c ph d trace i bytes) (hi : ph (!i) = .absent b) :
    Renamed c (Function.update ph (!i) (.opened b d.create.1)) d.create.2
      (trace ++ [(!i, .create)]) i bytes := by
  have hbehind := hs.behind
  rw [hi] at hbehind
  have htmp : d.tmp = none := hbehind
  refine hs.go_on (by simp) (by simp [hi]) ?_ (by simp)
  unfold Dir.create
  rw [htmp]
  exact .inr ⟨rfl, Function.update_self _ _ _⟩

theorem wrote (hs : Renamed c ph d trace i bytes) (hi : ph (!i) = .opened b h) :
    Renamed c (Function.update ph (!i) (.written b h)) (d.write h b)
      (trace ++ [(!i, .write h b)]) i bytes := by
  have hbehind := hs.behind
  rw [hi] at hbehind
  refine hs.go_on (by simp) (by simp [hi]) ?_ (by simp)
  rcases hbehind with htmp | ⟨htmp, hcontent⟩
  · exact .inl htmp
  · exact .inr ⟨htmp, by simp [Dir.write, hcontent]⟩

/-- The second rename, if it does not fail. -/
theorem renamed_again (hs : Renamed c ph d trace i bytes) (hi : ph (!i) = .written b h)
    (hrename : d.rename.1 = true) :
    Both (Function.update ph (!i) (.made b)) d.rename.2 (trace ++ [(!i, .rename)]) i b := by
  have hbehind := hs.behind
  rw [hi] at hbehind
  have hnot : ∀ k, ¬ After trace k !k := by
    intro k hafter
    rcases eq_or_eq_not i k with rfl | rfl
    · obtain ⟨x, hx⟩ := hs.after.2 hafter
      rw [hi] at hx
      cases hx
    · exact hs.not_renamed (hafter.subset (by simp))
  rcases hbehind with htmp | ⟨htmp, hcontent⟩
  · simp [Dir.rename, htmp] at hrename
  · refine ⟨⟨bytes, ?_⟩, Function.update_self _ _ _, ?_, ?_⟩
    · rw [update_of_not]
      exact hs.made
    · simp [Dir.rename, Dir.read, htmp, hcontent]
    · intro k hafter
      rcases after_concat.1 hafter with hafter | ⟨-, heq⟩
      · exact hnot k hafter
      · cases (Prod.mk.inj heq).2

end Renamed

/-- What every process makes of the directory: nothing if there is no file, and
of the file that one of them made, what was made. -/
def Faithful (c : Bool → Caller α ε κ ρ) : Prop :=
  ∀ i, (c i).load none = .ok none ∧
    ∀ j b, (c j).bytes = .ok b → (c i).load (some b) = .ok (some (c j).fresh)

theorem Situation.step (hs : Situation c ph d trace) (hc : Faithful c)
    (hbytes : ∀ k b, (ph k).bytes = some b → (c k).bytes = .ok b) {q : DirOp α} {p : Phase α ε κ}
    (hstep : (ph i).Step (c i) d q p) :
    Situation c (Function.update ph i p) (d.reply q).2 (trace ++ [(i, q)]) := by
  generalize hi : ph i = p₀ at hstep
  cases hs with
  | fresh hs =>
    cases hstep with
    | found hload =>
      rw [show d.read = none by simp [Dir.read, hs.no_file], (hc i).1] at hload
      cases hload
    | missing _ _ => exact .fresh (hs.looked hi)
    | stopped e => exact .lost i e (Function.update_self _ _ _)
    | create => exact .fresh hs.created
    | write => exact .fresh (hs.wrote hi)
    | rename _ => exact .renamed i _ (hs.renamed hi)
    | rename_fails => exact .lost i _ (Function.update_self _ _ _)
  | renamed j bytes hs =>
    rcases eq_or_eq_not j i with rfl | rfl
    · rw [hs.made] at hi
      subst hi
      cases hstep
    · have hmade : (c j).bytes = .ok bytes := hbytes j bytes (by rw [hs.made]; rfl)
      cases hstep with
      | found hload =>
        obtain ⟨hread, hlooked⟩ := hs.looked hi
        rw [hread, (hc !j).2 j bytes hmade] at hload
        obtain rfl := Option.some.inj (Except.ok.inj hload)
        exact .renamed j bytes hlooked
      | missing hload _ =>
        rw [(hs.looked hi).1, (hc !j).2 j bytes hmade] at hload
        cases hload
      | stopped e => exact .lost _ e (Function.update_self _ _ _)
      | create => exact .renamed j bytes (hs.created hi)
      | write => exact .renamed j bytes (hs.wrote hi)
      | rename hrename => exact .both j _ (hs.renamed_again hi hrename)
      | rename_fails => exact .lost _ _ (Function.update_self _ _ _)
  | both j bytes hs =>
    obtain ⟨b, hfirst⟩ := hs.first
    rcases eq_or_eq_not j i with rfl | rfl
    · rw [hfirst] at hi
      subst hi
      cases hstep
    · rw [hs.last] at hi
      subst hi
      cases hstep
  | lost j e hj =>
    have hne : j ≠ i := by
      rintro rfl
      rw [hj] at hi
      subst hi
      cases hstep
    exact .lost j e (by rw [Function.update_of_ne hne, hj])

end Steps

/-! ## Runs of two processes -/

variable {c : Bool → Caller α ε κ ρ} {schedule : List Bool}

/-- Two processes and their directory. -/
abbrev Race (α ε ρ : Type) := System Bool (DirOp α) DirOp.Answer (Except ε ρ) (Dir α)

/-- The steps of two processes in the order of a schedule, from an empty
directory. -/
def race (tasks : Bool → DirTask α ε ρ) (schedule : List Bool) : Race α ε ρ :=
  run Dir.reply (start (fun i => (tasks i).run) Dir.empty) schedule

/-- Each process is in a phase, and the phases fit the directory. -/
structure Underway (c : Bool → Caller α ε κ ρ) (s : Race α ε ρ) (ph : Bool → Phase α ε κ) :
    Prop where
  threads : ∀ i, s.threads i = (ph i).steps (c i)
  bytes : ∀ i b, (ph i).bytes = some b → (c i).bytes = .ok b
  situation : Situation c ph s.shared s.trace

theorem underway_race (hc : Faithful c) (schedule : List Bool) :
    ∃ ph, Underway c (race (fun i => (c i).task) schedule) ph := by
  refine run_keeps (fun s => ∃ ph, Underway c s ph) ?_ ?_ schedule
  · rintro s i ⟨ph, hs⟩
    rcases (ph i).step_cases (c i) s.shared with ⟨r, hr⟩ | ⟨q, k, p, hstep, hask, hk⟩
    · exact ⟨ph, by rwa [step_of_ret ((hs.threads i).trans hr)]⟩
    · refine ⟨Function.update ph i p, ?_⟩
      rw [step_of_ask ((hs.threads i).trans hask), hk]
      refine ⟨fun j => ?_, fun j => ?_, hs.situation.step hc hs.bytes hstep⟩
      · by_cases hj : j = i
        · subst hj
          simp
        · simpa [hj] using hs.threads j
      · by_cases hj : j = i
        · subst hj
          simpa using hstep.bytes (hs.bytes j)
        · simpa [hj] using hs.bytes j
  · refine ⟨fun _ => .start, fun _ => rfl, ?_, .fresh ⟨rfl, ?_, fun _ => trivial⟩⟩
    · intro i b h
      cases h
    · intro i h
      cases h

/-- A process that succeeded has made the file or has loaded it. -/
theorem Underway.of_result {s : Race α ε ρ} {ph : Bool → Phase α ε κ} (hs : Underway c s ph)
    {i : Bool} {x : ρ} (hx : (s.threads i).result = some (.ok x)) :
    (∃ b, ph i = .made b ∧ x = (c i).give (c i).fresh false) ∨
      ∃ secret, ph i = .loaded secret ∧ x = (c i).give secret true := by
  rw [hs.threads i] at hx
  generalize ph i = p at hx ⊢
  cases p with
  | made b => exact .inl ⟨b, rfl, (Except.ok.inj (Option.some.inj hx)).symm⟩
  | loaded secret => exact .inr ⟨secret, rfl, (Except.ok.inj (Option.some.inj hx)).symm⟩
  | _ => cases hx

/-- When both succeeded, the file can be loaded. Both have what it holds exactly
if one of them looked after the other had renamed, or by chance they made the
same. -/
theorem both_have_the_file_iff (hc : Faithful c) {tasks : Bool → DirTask α ε ρ}
    (htasks : ∀ i, tasks i = (c i).task) {x : Bool → ρ}
    (hx : ∀ i, ((race tasks schedule).threads i).result = some (.ok (x i))) :
    ∃ (held : Bool → κ) (z : κ), (∀ i, ∃ loaded, x i = (c i).give (held i) loaded) ∧
      (∀ i, (c i).load (race tasks schedule).shared.read = .ok (some z)) ∧
      ((∀ i, held i = z) ↔
        (∃ i, After (race tasks schedule).trace i !i) ∨ (c false).fresh = (c true).fresh) := by
  obtain rfl : tasks = fun i => (c i).task := funext htasks
  obtain ⟨ph, hs⟩ := underway_race hc schedule
  have hdone := fun i => hs.of_result (hx i)
  cases hs.situation with
  | fresh hfresh =>
    have hown := hfresh.holding false
    rcases hdone false with ⟨b, hi, -⟩ | ⟨secret, hi, -⟩
    · rw [hi] at hown
      exact hown.elim
    · rw [hi] at hown
      exact hown.elim
  | renamed i bytes hrenamed =>
    have hmade : (c i).bytes = .ok bytes := hs.bytes i bytes (by rw [hrenamed.made]; rfl)
    have hbehind := hrenamed.behind
    rcases hdone !i with ⟨b, hother, -⟩ | ⟨secret, hother, hxother⟩
    · rw [hother] at hbehind
      exact hbehind.elim
    · rw [hother] at hbehind
      obtain ⟨hread, rfl⟩ := hbehind
      refine ⟨fun _ => (c i).fresh, (c i).fresh, fun k => ?_, fun k => ?_,
        iff_of_true (fun _ => rfl) (.inl ⟨i, hrenamed.after.1 ⟨_, hother⟩⟩)⟩
      · rcases eq_or_eq_not i k with rfl | rfl
        · rcases hdone k with ⟨b, -, hk⟩ | ⟨secret, hk, -⟩
          · exact ⟨false, hk⟩
          · rw [hrenamed.made] at hk
            cases hk
        · exact ⟨true, hxother⟩
      · rw [hread]
        exact (hc k).2 i bytes hmade
  | both i bytes hboth =>
    have hmade : (c !i).bytes = .ok bytes := hs.bytes _ bytes (by rw [hboth.last]; rfl)
    refine ⟨fun k => (c k).fresh, (c !i).fresh, fun k => ⟨false, ?_⟩, fun k => ?_, ?_⟩
    · rcases hdone k with ⟨b, -, hk⟩ | ⟨secret, hk, -⟩
      · exact hk
      · obtain ⟨b, hfirst⟩ := hboth.first
        rcases eq_or_eq_not i k with rfl | rfl
        · rw [hfirst] at hk
          cases hk
        · rw [hboth.last] at hk
          cases hk
    · rw [hboth.file]
      exact (hc k).2 _ bytes hmade
    · simp only [hboth.not_after, exists_false, false_or, Bool.forall_bool]
      cases i <;> simp [eq_comm]
  | lost i e hi =>
    rcases hdone i with ⟨b, hi', -⟩ | ⟨secret, hi', -⟩
    · rw [hi] at hi'
      cases hi'
    · rw [hi] at hi'
      cases hi'

end create_once
