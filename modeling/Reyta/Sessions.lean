-- Procedures of a party. They have a state, talk over the streams, and may return
-- early with an error. What such a procedure does against any other side, and what
-- it does along a script of which the other side plays its own part.
import Reyta.EarlyExit
import Reyta.StreamParties

namespace stream_party

variable {τ φ ε μ ρ ρ' σ σ' ε' α β : Type}

/-! ## Scripts -/

/-- One line of a script. -/
inductive Line (τ : Type) where
  | send (out : List τ)
  | recv (out : List τ)

/-- The same line for the other side. -/
def Line.dual : Line τ → Line τ
  | .send out => .recv out
  | .recv out => .send out

/-- The party follows the script and becomes that. A message that it reads ends where
the line ends, whatever follows. -/
inductive Follows (R : Reader τ φ ε μ) :
    Party τ φ ε μ ρ → List (Line τ) → Party τ φ ε μ ρ → Prop
  | refl (p : Party τ φ ε μ ρ) : Follows R p [] p
  | send {out next script q} (h : Follows R (next (.ok ())) script q) :
      Follows R (.write out next) (.send out :: script) q
  | recv {form next out m script q} (hscan : ∀ t, R.scan form (out ++ t) = .got m t)
      (h : Follows R (next (.ok m)) script q) :
      Follows R (.read form next) (.recv out :: script) q

variable {R : Reader τ φ ε μ}

theorem Follows.bind {p : Party τ φ ε μ ρ} {k : ρ → Party τ φ ε μ ρ'}
    {script script' : List (Line τ)}
    {a : ρ} {q : Party τ φ ε μ ρ'} (h : Follows R p script (.done a))
    (h' : Follows R (k a) script' q) : Follows R (p.bind k) (script ++ script') q := by
  generalize he : Party.done a = p' at h
  induction h with
  | refl p =>
    subst he
    exact h'
  | send _ ih => exact .send (ih he)
  | recv hscan _ ih => exact .recv hscan (ih he)

/-- These are the deeds of a party that follows the script. -/
inductive Enacts (R : Reader τ φ ε μ) : List (Line τ) → List (Deed τ φ ε μ) → Prop
  | nil : Enacts R [] []
  | send {out script ds} (h : Enacts R script ds) :
      Enacts R (.send out :: script) (.wrote out :: ds)
  | recv {form out m script ds} (hscan : ∀ t, R.scan form (out ++ t) = .got m t)
      (h : Enacts R script ds) : Enacts R (.recv out :: script) (.got form (.ok m) :: ds)

theorem Enacts.of_send {out : List τ} {script : List (Line τ)} {d : Deed τ φ ε μ}
    {ds : List (Deed τ φ ε μ)} (h : Enacts R (.send out :: script) (d :: ds)) :
    Enacts R script ds := by
  cases h with
  | send h => exact h

theorem Enacts.of_recv {out : List τ} {script : List (Line τ)} {form : φ} {m : μ}
    {ds : List (Deed τ φ ε μ)} (h : Enacts R (.recv out :: script) (.got form (.ok m) :: ds)) :
    (∀ t, R.scan form (out ++ t) = .got m t) ∧ Enacts R script ds := by
  cases h with
  | recv hscan h => exact ⟨hscan, h⟩

theorem Enacts.written {script : List (Line τ)} {ds : List (Deed τ φ ε μ)} {out : List τ}
    (h : Enacts R script ds) (hmem : .send out ∈ script) : out ∈ outputs ds := by
  induction h with
  | nil => cases hmem
  | send _ ih =>
    rcases List.mem_cons.1 hmem with he | hmem
    · cases he
      exact List.mem_cons_self
    · exact List.mem_cons_of_mem _ (ih hmem)
  | recv _ _ ih =>
    rcases List.mem_cons.1 hmem with he | hmem
    · cases he
    · exact ih hmem

/-- What a side reads along the script, the other side has written. -/
theorem Enacts.heard {script : List (Line τ)} {ds ds' : List (Deed τ φ ε μ)}
    (h : Enacts R script ds) (h' : Enacts R (script.map Line.dual) ds') {form : φ} {m : μ}
    (hm : .got form (.ok m) ∈ ds) :
    ∃ out ∈ outputs ds', ∀ t, R.scan form (out ++ t) = .got m t := by
  induction h generalizing ds' with
  | nil => cases hm
  | send _ ih =>
    cases h' with
    | recv _ h' =>
      rcases List.mem_cons.1 hm with he | hm
      · cases he
      · obtain ⟨out, ho, hscan⟩ := ih h' hm
        exact ⟨out, ho, hscan⟩
  | recv hscan _ ih =>
    cases h' with
    | send h' =>
      rcases List.mem_cons.1 hm with he | hm
      · cases he
        exact ⟨_, List.mem_cons_self, hscan⟩
      · obtain ⟨out, ho, hscan⟩ := ih h' hm
        exact ⟨out, List.mem_cons_of_mem _ ho, hscan⟩

theorem map_dual_dual (script : List (Line τ)) :
    (script.map Line.dual).map Line.dual = script := by
  rw [List.map_map]
  refine (List.map_congr_left fun l _ => ?_).trans (List.map_id script)
  cases l <;> rfl

theorem Follows.does {p q : Party τ φ ε μ ρ} {script : List (Line τ)} (h : Follows R p script q) :
    ∃ ds, Does p ds q ∧ Enacts R script ds := by
  induction h with
  | refl p => exact ⟨[], .refl p, .nil⟩
  | send _ ih =>
    obtain ⟨ds, hdoes, henacts⟩ := ih
    exact ⟨_, .wrote hdoes, .send henacts⟩
  | recv hscan _ ih =>
    obtain ⟨ds, hdoes, henacts⟩ := ih
    exact ⟨_, .got _ hdoes, .recv hscan henacts⟩

/-- Two sides that follow one script get through it. -/
theorem steps_of_follows {p : Party τ φ ε μ ρ} {q : Party τ φ ε μ ρ'} {script : List (Line τ)}
    {r : ρ} {r' : ρ'} (hp : Follows R p script (.done r))
    (hq : Follows R q (script.map Line.dual) (.done r')) :
    ∃ n, Steps (Move R) n (⟨p, q, [], []⟩ : Pair τ φ ε μ ρ ρ') ⟨.done r, .done r', [], []⟩ := by
  induction script generalizing p q with
  | nil =>
    cases hp
    cases hq
    exact ⟨0, .zero _⟩
  | cons line script ih =>
    cases line with
    | send out =>
      cases hp with
      | @send _ next _ _ hp =>
        cases hq with
        | @recv form next' _ m _ _ hscan hq =>
          obtain ⟨n, hn⟩ := ih hp hq
          have hgot : R.scan form ([] ++ out) = .got m [] := by simpa using hscan []
          exact ⟨n + 2, .succ (.inl (.write out next _ [] []))
            (.succ (.inr (.got next' _ [] hgot)) hn)⟩
    | recv out =>
      cases hp with
      | @recv form next _ m _ _ hscan hp =>
        cases hq with
        | @send _ next' _ _ hq =>
          obtain ⟨n, hn⟩ := ih hp hq
          have hgot : R.scan form ([] ++ out) = .got m [] := by simpa using hscan []
          exact ⟨n + 2, .succ (.inr (.write out next' _ [] []))
            (.succ (.inl (.got next _ [] hgot)) hn)⟩

/-- Two parties with nothing on their streams. -/
def Link.start (left : Party τ φ ε μ ρ) (right : Party τ φ ε μ ρ') : Link τ φ ε μ ρ ρ' :=
  ⟨left, right, ⟨[], []⟩, ⟨[], []⟩⟩

/-- Two sides that can follow one script do so, however their steps are interleaved and
the streams are cut. -/
theorem settles_of_follows {p : Party τ φ ε μ ρ} {q : Party τ φ ε μ ρ'} {script : List (Line τ)}
    {r : ρ} {r' : ρ'} (hp : Follows R p script (.done r))
    (hq : Follows R q (script.map Line.dual) (.done r')) : Settles R (.start p q) r r' := by
  obtain ⟨n, hn⟩ := steps_of_follows hp hq
  exact settles_of_steps hn

/-! ## Procedures -/

/-- A procedure with a state and with errors `ε'` of its own. -/
abbrev Session (τ φ ε μ σ ε' α : Type) := ExceptT ε' (StateT σ (Party τ φ ε μ)) α

namespace Session

/-- The party that runs it from the state `s`. -/
def run (x : Session τ φ ε μ σ ε' α) (s : σ) : Party τ φ ε μ (Except ε' α × σ) := x s

/-- Write, and return early if that fails. -/
def put (wrap : ε → ε') (out : List τ) : Session τ φ ε μ σ ε' Unit := fun s =>
  .write out fun w => .done (w.mapError wrap, s)

/-- Read, and return early if that fails. -/
def take (wrap : ε → ε') (form : φ) : Session τ φ ε μ σ ε' μ := fun s =>
  .read form fun m => .done (m.mapError wrap, s)

/-- A procedure that leaves the streams alone. -/
def act (x : early_exit.Proc σ ε' α) : Session τ φ ε μ σ ε' α := fun s =>
  .done (early_exit.exec x s)

/-- A part with a state of its own, which starts from `s₀`. -/
def within (s₀ : σ') (back : σ' → σ → σ) (x : Session τ φ ε μ σ' ε' α) :
    Session τ φ ε μ σ ε' α := fun s => (run x s₀).bind fun r => .done (r.1, back r.2 s)

theorem run_bind (x : Session τ φ ε μ σ ε' α) (f : α → Session τ φ ε μ σ ε' β) (s : σ) :
    run (x >>= f) s = (run x s).bind fun
      | (.ok a, s') => run (f a) s'
      | (.error e, s') => .done (.error e, s') := by
  change Party.bind (x s) _ = Party.bind (x s) _
  congr 1
  funext r
  rcases r with ⟨_ | _, _⟩ <;> rfl

theorem run_pure (a : α) (s : σ) :
    run (pure a : Session τ φ ε μ σ ε' α) s = .done (.ok a, s) := rfl

theorem run_throw (e : ε') (s : σ) :
    run (throw e : Session τ φ ε μ σ ε' α) s = .done (.error e, s) := rfl

/-! ## Along a script -/

/-- From `s` the procedure follows the script, and returns `a` in the state `s'`. -/
def Plays (R : Reader τ φ ε μ) (x : Session τ φ ε μ σ ε' α) (s : σ) (script : List (Line τ))
    (a : α) (s' : σ) : Prop :=
  Follows R (run x s) script (.done (.ok a, s'))

/-- The rest may end in any way. -/
theorem Plays.follows {x : Session τ φ ε μ σ ε' α} {f : α → Session τ φ ε μ σ ε' β} {s s' : σ}
    {script script' : List (Line τ)} {a : α} {q : Party τ φ ε μ (Except ε' β × σ)}
    (h : Plays R x s script a s') (h' : Follows R (run (f a) s') script' q) :
    Follows R (run (x >>= f) s) (script ++ script') q := by
  rw [run_bind]
  exact Follows.bind h h'

theorem Plays.bind {x : Session τ φ ε μ σ ε' α} {f : α → Session τ φ ε μ σ ε' β} {s s' s'' : σ}
    {script script' : List (Line τ)} {a : α} {b : β} (h : Plays R x s script a s')
    (h' : Plays R (f a) s' script' b s'') : Plays R (x >>= f) s (script ++ script') b s'' :=
  h.follows h'

/-- A first part that fails. -/
theorem follows_early {x : Session τ φ ε μ σ ε' α} {f : α → Session τ φ ε μ σ ε' β} {s s' : σ}
    {script : List (Line τ)} {e : ε'} (h : Follows R (run x s) script (.done (.error e, s'))) :
    Follows R (run (x >>= f) s) script (.done (.error e, s')) := by
  rw [run_bind]
  have hdone := h.bind (k := fun r => match r with
    | (.ok a, s') => run (f a) s'
    | (.error e, s') => .done (.error e, s')) (.refl _)
  rwa [List.append_nil] at hdone

/-- A first part that leaves the streams alone. -/
theorem Plays.after_quiet {x : Session τ φ ε μ σ ε' α} {f : α → Session τ φ ε μ σ ε' β}
    {s s' s'' : σ} {script : List (Line τ)} {a : α} {b : β} (h : Plays R x s [] a s')
    (h' : Plays R (f a) s' script b s'') : Plays R (x >>= f) s script b s'' := h.bind h'

/-- A second part that leaves the streams alone. -/
theorem Plays.then_quiet {x : Session τ φ ε μ σ ε' α} {f : α → Session τ φ ε μ σ ε' β}
    {s s' s'' : σ} {script : List (Line τ)} {a : α} {b : β} (h : Plays R x s script a s')
    (h' : Plays R (f a) s' [] b s'') : Plays R (x >>= f) s script b s'' := by
  have hboth := h.bind h'
  rwa [List.append_nil] at hboth

theorem plays_pure (a : α) (s : σ) : Plays R (pure a : Session τ φ ε μ σ ε' α) s [] a s := .refl _

theorem plays_act {x : early_exit.Proc σ ε' α} {s s' : σ} {a : α}
    (h : early_exit.exec x s = (.ok a, s')) :
    Plays R (act x : Session τ φ ε μ σ ε' α) s [] a s' := by
  unfold Plays run act
  rw [h]
  exact .refl _

theorem plays_read (s : σ) :
    Plays R (act early_exit.read : Session τ φ ε μ σ ε' σ) s [] s s :=
  plays_act rfl

theorem plays_change (f : σ → σ) (s : σ) :
    Plays R (act (early_exit.change f) : Session τ φ ε μ σ ε' Unit) s [] () (f s) :=
  plays_act rfl

theorem plays_put (wrap : ε → ε') (out : List τ) (s : σ) :
    Plays R (put wrap out : Session τ φ ε μ σ ε' Unit) s [.send out] () s :=
  .send (.refl _)

theorem plays_take (wrap : ε → ε') {form : φ} {out : List τ} {m : μ}
    (h : ∀ t, R.scan form (out ++ t) = .got m t) (s : σ) :
    Plays R (take wrap form : Session τ φ ε μ σ ε' μ) s [.recv out] m s :=
  .recv h (.refl _)

theorem follows_within {x : Session τ φ ε μ σ' ε' α} {s₀ s₁ : σ'} {script : List (Line τ)}
    {r : Except ε' α} (h : Follows R (run x s₀) script (.done (r, s₁))) (back : σ' → σ → σ)
    (s : σ) :
    Follows R (run (within s₀ back x) s) script (.done (r, back s₁ s)) := by
  have hdone := h.bind (k := fun r => .done (r.1, back r.2 s)) (.refl _)
  rwa [List.append_nil] at hdone

/-! ## Against any other side -/

/-- From `s` the procedure can end with this result and in this state, and it has done
this. -/
def Ends (x : Session τ φ ε μ σ ε' α) (s : σ) (ds : List (Deed τ φ ε μ)) (r : Except ε' α)
    (s' : σ) : Prop :=
  Does (run x s) ds (.done (r, s'))

theorem does_done {r r' : ρ} {ds : List (Deed τ φ ε μ)} :
    Does (.done r) ds (.done r') ↔ ds = [] ∧ r' = r := by
  constructor
  · intro h
    cases h
    exact ⟨rfl, rfl⟩
  · rintro ⟨rfl, rfl⟩
    exact .refl _

/-- A sequence ends in its second part, or early. -/
theorem ends_bind_iff {x : Session τ φ ε μ σ ε' α} {f : α → Session τ φ ε μ σ ε' β} {s s' : σ}
    {ds : List (Deed τ φ ε μ)} {r : Except ε' β} :
    Ends (x >>= f) s ds r s' ↔
      (∃ a s₁ ds₁ ds₂, Ends x s ds₁ (.ok a) s₁ ∧ Ends (f a) s₁ ds₂ r s' ∧ ds = ds₁ ++ ds₂) ∨
        ∃ e, Ends x s ds (.error e) s' ∧ r = .error e := by
  unfold Ends
  rw [run_bind, does_bind_iff]
  constructor
  · rintro ⟨⟨e | a, s₁⟩, ds₁, ds₂, h₁, h₂, rfl⟩
    · obtain ⟨rfl, he⟩ := does_done.1 h₂
      cases he
      rw [List.append_nil]
      exact .inr ⟨e, h₁, rfl⟩
    · exact .inl ⟨a, s₁, ds₁, ds₂, h₁, h₂, rfl⟩
  · rintro (⟨a, s₁, ds₁, ds₂, h₁, h₂, rfl⟩ | ⟨e, h, rfl⟩)
    · exact ⟨(.ok a, s₁), ds₁, ds₂, h₁, h₂, rfl⟩
    · exact ⟨(.error e, s'), ds, [], h, .refl _, (List.append_nil ds).symm⟩

theorem ends_pure {a : α} {s s' : σ} {ds : List (Deed τ φ ε μ)} {r : Except ε' α} :
    Ends (pure a : Session τ φ ε μ σ ε' α) s ds r s' ↔ ds = [] ∧ r = .ok a ∧ s' = s := by
  unfold Ends
  rw [run_pure, does_done, Prod.mk.injEq]

theorem ends_throw {e : ε'} {s s' : σ} {ds : List (Deed τ φ ε μ)} {r : Except ε' α} :
    Ends (throw e : Session τ φ ε μ σ ε' α) s ds r s' ↔ ds = [] ∧ r = .error e ∧ s' = s := by
  unfold Ends
  rw [run_throw, does_done, Prod.mk.injEq]

theorem ends_act {x : early_exit.Proc σ ε' α} {s s' : σ} {ds : List (Deed τ φ ε μ)}
    {r : Except ε' α} :
    Ends (act x : Session τ φ ε μ σ ε' α) s ds r s' ↔ ds = [] ∧ early_exit.exec x s = (r, s') := by
  unfold Ends run act
  rw [does_done, eq_comm (a := (r, s'))]

theorem ends_put {wrap : ε → ε'} {out : List τ} {s s' : σ} {ds : List (Deed τ φ ε μ)}
    {r : Except ε' Unit} :
    Ends (put wrap out : Session τ φ ε μ σ ε' Unit) s ds r s' ↔ s' = s ∧
      (ds = [.wrote out] ∧ r = .ok () ∨ ∃ e, ds = [.broke out e] ∧ r = .error (wrap e)) := by
  constructor
  · intro h
    cases h with
    | wrote h =>
      obtain ⟨rfl, he⟩ := does_done.1 h
      cases he
      exact ⟨rfl, .inl ⟨rfl, rfl⟩⟩
    | broke e h =>
      obtain ⟨rfl, he⟩ := does_done.1 h
      cases he
      exact ⟨rfl, .inr ⟨e, rfl, rfl⟩⟩
  · rintro ⟨rfl, ⟨rfl, rfl⟩ | ⟨e, rfl, rfl⟩⟩
    · exact .wrote (.refl _)
    · exact .broke e (.refl _)

theorem ends_take {wrap : ε → ε'} {form : φ} {s s' : σ} {ds : List (Deed τ φ ε μ)}
    {r : Except ε' μ} :
    Ends (take wrap form : Session τ φ ε μ σ ε' μ) s ds r s' ↔
      s' = s ∧ ∃ m, ds = [.got form m] ∧ r = m.mapError wrap := by
  constructor
  · intro h
    cases h with
    | got m h =>
      obtain ⟨rfl, he⟩ := does_done.1 h
      cases he
      exact ⟨rfl, m, rfl, rfl⟩
  · rintro ⟨rfl, m, rfl, rfl⟩
    exact .got m (.refl _)

theorem ends_within {s₀ : σ'} {back : σ' → σ → σ} {x : Session τ φ ε μ σ' ε' α} {s s' : σ}
    {ds : List (Deed τ φ ε μ)} {r : Except ε' α} :
    Ends (within s₀ back x) s ds r s' ↔ ∃ s₁, Ends x s₀ ds r s₁ ∧ s' = back s₁ s := by
  have hrun : run (within s₀ back x) s = (run x s₀).bind fun r => .done (r.1, back r.2 s) := rfl
  unfold Ends
  rw [hrun, does_bind_iff]
  constructor
  · rintro ⟨⟨r₁, s₁⟩, ds₁, ds₂, h₁, h₂, rfl⟩
    obtain ⟨rfl, he⟩ := does_done.1 h₂
    cases he
    rw [List.append_nil]
    exact ⟨s₁, h₁, rfl⟩
  · rintro ⟨s₁, h, rfl⟩
    exact ⟨(r, s₁), ds, [], h, .refl _, (List.append_nil ds).symm⟩

/-! ## Pre- and postconditions -/

/-- Whatever the other side does: from a state with `p`, where `p` is also about all that
was done so far, the procedure returns with `q` or fails with `r`. -/
def Meets (p : List (Deed τ φ ε μ) → σ → Prop) (x : Session τ φ ε μ σ ε' α)
    (q : α → List (Deed τ φ ε μ) → σ → Prop) (r : ε' → List (Deed τ φ ε μ) → σ → Prop) : Prop :=
  ∀ h s ds s', p h s → (∀ a, Ends x s ds (.ok a) s' → q a (h ++ ds) s') ∧
    ∀ e, Ends x s ds (.error e) s' → r e (h ++ ds) s'

namespace Meets

variable {p p' : List (Deed τ φ ε μ) → σ → Prop} {x : Session τ φ ε μ σ ε' α}
  {q q' : α → List (Deed τ φ ε μ) → σ → Prop} {r r' : ε' → List (Deed τ φ ε μ) → σ → Prop}

theorem weaken (hx : Meets p x q r) (hp : ∀ h s, p' h s → p h s) (hq : ∀ a h s, q a h s → q' a h s)
    (hr : ∀ e h s, r e h s → r' e h s) : Meets p' x q' r' := by
  intro h s ds s' hs
  obtain ⟨hok, herror⟩ := hx h s ds s' (hp h s hs)
  exact ⟨fun a ha => hq a _ _ (hok a ha), fun e he => hr e _ _ (herror e he)⟩

theorem on_error (hx : Meets p x q r) (hr : ∀ e h s, r e h s → r' e h s) : Meets p x q r' :=
  hx.weaken (fun _ _ hp => hp) (fun _ _ _ hq => hq) hr

/-- A fact that is known before. -/
theorem assuming {fact : Prop} (hx : fact → Meets p x q r) :
    Meets (fun h s => fact ∧ p h s) x q r := fun h s ds s' hs => hx hs.1 h s ds s' hs.2

theorem of_exists {ι : Type} {p : ι → List (Deed τ φ ε μ) → σ → Prop}
    (hx : ∀ i, Meets (p i) x q r) : Meets (fun h s => ∃ i, p i h s) x q r := by
  rintro h s ds s' ⟨i, hs⟩
  exact hx i h s ds s' hs

/-- A fact about what was done up to this point. -/
theorem from_here {fact : List (Deed τ φ ε μ) → Prop}
    (hx : ∀ h₀, fact h₀ → Meets (fun h s => h = h₀ ∧ p h s) x q r) :
    Meets (fun h s => fact h ∧ p h s) x q r :=
  fun h s ds s' hs => hx h hs.1 h s ds s' ⟨rfl, hs.2⟩

/-- What was done stays done. -/
theorem extending (h₁ : List (Deed τ φ ε μ)) (hx : Meets p x q r) :
    Meets (fun h s => p h s ∧ h₁ <+: h) x (fun a h s => q a h s ∧ h₁ <+: h)
      (fun e h s => r e h s ∧ h₁ <+: h) := by
  intro h s ds s' hs
  obtain ⟨hok, herror⟩ := hx h s ds s' hs.1
  have hext := hs.2.trans (List.prefix_append h ds)
  exact ⟨fun a ha => ⟨hok a ha, hext⟩, fun e he => ⟨herror e he, hext⟩⟩

theorem bind {f : α → Session τ φ ε μ σ ε' β} {t : β → List (Deed τ φ ε μ) → σ → Prop}
    (hx : Meets p x q r) (hf : ∀ a, Meets (q a) (f a) t r) : Meets p (x >>= f) t r := by
  intro h s ds s' hs
  constructor
  · intro b hb
    rcases ends_bind_iff.1 hb with ⟨a, s₁, ds₁, ds₂, h₁, h₂, rfl⟩ | ⟨e, -, he⟩
    · rw [← List.append_assoc]
      exact (hf a _ _ _ _ ((hx h s ds₁ s₁ hs).1 a h₁)).1 b h₂
    · cases he
  · intro e he
    rcases ends_bind_iff.1 he with ⟨a, s₁, ds₁, ds₂, h₁, h₂, rfl⟩ | ⟨e', h', he'⟩
    · rw [← List.append_assoc]
      exact (hf a _ _ _ _ ((hx h s ds₁ s₁ hs).1 a h₁)).2 e h₂
    · cases he'
      exact (hx h s ds s' hs).2 e h'

theorem pure (a : α) : Meets (q a) (Pure.pure a : Session τ φ ε μ σ ε' α) q r := by
  intro h s ds s' hs
  constructor
  · intro b hb
    obtain ⟨rfl, hb, rfl⟩ := ends_pure.1 hb
    cases hb
    rwa [List.append_nil]
  · intro e he
    obtain ⟨-, he, -⟩ := ends_pure.1 he
    cases he

theorem throw (e : ε') : Meets (r e) (MonadExcept.throw e : Session τ φ ε μ σ ε' α) q r := by
  intro h s ds s' hs
  constructor
  · intro b hb
    obtain ⟨-, hb, -⟩ := ends_throw.1 hb
    cases hb
  · intro e' he
    obtain ⟨rfl, he, rfl⟩ := ends_throw.1 he
    cases he
    rwa [List.append_nil]

theorem returning {a : α} (h : ∀ h s, p h s → q a h s) :
    Meets p (Pure.pure a : Session τ φ ε μ σ ε' α) q r :=
  (Meets.pure a).weaken h (fun _ _ _ hq => hq) fun _ _ _ hr => hr

theorem failing {e : ε'} (h : ∀ h s, p h s → r e h s) :
    Meets p (MonadExcept.throw e : Session τ φ ε μ σ ε' α) q r :=
  (Meets.throw e).weaken h (fun _ _ _ hq => hq) fun _ _ _ hr => hr

/-- A part that leaves the streams alone. -/
theorem act {y : early_exit.Proc σ ε' α}
    (hok : ∀ h s a s', p h s → early_exit.exec y s = (.ok a, s') → q a h s')
    (herror : ∀ h s e s', p h s → early_exit.exec y s = (.error e, s') → r e h s') :
    Meets p (Session.act y : Session τ φ ε μ σ ε' α) q r := by
  intro h s ds s' hs
  constructor
  · intro a hends
    obtain ⟨rfl, hexec⟩ := ends_act.1 hends
    rw [List.append_nil]
    exact hok h s a s' hs hexec
  · intro e hends
    obtain ⟨rfl, hexec⟩ := ends_act.1 hends
    rw [List.append_nil]
    exact herror h s e s' hs hexec

theorem put {wrap : ε → ε'} {out : List τ} {q : Unit → List (Deed τ φ ε μ) → σ → Prop}
    (hok : ∀ h s, p h s → q () (h ++ [.wrote out]) s)
    (herror : ∀ h s e, p h s → r (wrap e) (h ++ [.broke out e]) s) :
    Meets p (Session.put wrap out : Session τ φ ε μ σ ε' Unit) q r := by
  intro h s ds s' hs
  constructor
  · intro a hends
    obtain ⟨rfl, ⟨rfl, -⟩ | ⟨e, -, hres⟩⟩ := ends_put.1 hends
    · exact hok h _ hs
    · cases hres
  · intro e hends
    obtain ⟨rfl, ⟨-, hres⟩ | ⟨e', rfl, hres⟩⟩ := ends_put.1 hends
    · cases hres
    · obtain rfl := Except.error.inj hres
      exact herror h _ e' hs

theorem take {wrap : ε → ε'} {form : φ} {q : μ → List (Deed τ φ ε μ) → σ → Prop}
    (hok : ∀ h s m, p h s → q m (h ++ [.got form (.ok m)]) s)
    (herror : ∀ h s e, p h s → r (wrap e) (h ++ [.got form (.error e)]) s) :
    Meets p (Session.take wrap form : Session τ φ ε μ σ ε' μ) q r := by
  intro h s ds s' hs
  constructor
  · intro m hends
    obtain ⟨rfl, e | m', rfl, hres⟩ := ends_take.1 hends
    · cases hres
    · obtain rfl := Except.ok.inj hres
      exact hok h _ m hs
  · intro e hends
    obtain ⟨rfl, e' | m, rfl, hres⟩ := ends_take.1 hends
    · obtain rfl := Except.error.inj hres
      exact herror h _ e' hs
    · cases hres

/-- A part with a state of its own. -/
theorem within {y : Session τ φ ε μ σ' ε' α} {s₀ : σ'} {back : σ' → σ → σ} {k : σ → Prop}
    {p₀ : List (Deed τ φ ε μ) → σ' → Prop} {q₀ : α → List (Deed τ φ ε μ) → σ' → Prop}
    {r₀ : ε' → List (Deed τ φ ε μ) → σ' → Prop}
    (hp : ∀ h s, p h s → k s ∧ p₀ h s₀) (hy : Meets p₀ y q₀ r₀)
    (hq : ∀ a h s₁ s, k s → q₀ a h s₁ → q a h (back s₁ s))
    (hr : ∀ e h s₁ s, k s → r₀ e h s₁ → r e h (back s₁ s)) :
    Meets p (Session.within s₀ back y) q r := by
  intro h s ds s' hs
  obtain ⟨hk, hs₀⟩ := hp h s hs
  constructor
  · intro a hends
    obtain ⟨s₁, hinner, rfl⟩ := ends_within.1 hends
    exact hq a _ s₁ s hk ((hy h s₀ ds s₁ hs₀).1 a hinner)
  · intro e hends
    obtain ⟨s₁, hinner, rfl⟩ := ends_within.1 hends
    exact hr e _ s₁ s hk ((hy h s₀ ds s₁ hs₀).2 e hinner)

end Meets

end Session

end stream_party
