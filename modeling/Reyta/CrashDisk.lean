-- A file of blocks beside a record that claims some of them, on a disk that can
-- crash. A process that claims only what it synced leaves a record that tells
-- the truth, wherever it is stopped and however often it is started again.
import Mathlib.Data.Set.Insert
import Mathlib.Tactic.Common

namespace crash_disk

/-- What a process does to the disk: blocks are of type `ι`, records of type
`ρ`. A write or a sync can fail, and so can a commit, which may then have
happened or not. -/
inductive Effect (ι ρ : Type) where
  | write (i : ι)
  | sync
  | failed
  | commit (r : ρ)
  | commit_failed (r : ρ)

/-- The blocks that the file holds with the right content, those of them that
survive a crash, and the record. -/
structure Disk (ι ρ : Type) where
  written : Set ι
  synced : Set ι
  record : Option ρ

variable {ι ρ : Type}

/-- What an effect can do. -/
inductive Step : Disk ι ρ → Effect ι ρ → Disk ι ρ → Prop
  | write (d : Disk ι ρ) (i : ι) : Step d (.write i) { d with written := insert i d.written }
  | sync (d : Disk ι ρ) : Step d .sync { d with synced := d.written }
  /-- A failed write or sync may reach some blocks and drop others. -/
  | failed (d : Disk ι ρ) {s w : Set ι} (hs : d.synced ⊆ s) (hsw : s ⊆ w)
      (hw : w ⊆ d.written) : Step d .failed { d with synced := s, written := w }
  | commit (d : Disk ι ρ) (r : ρ) : Step d (.commit r) { d with record := some r }
  | not_committed (d : Disk ι ρ) (r : ρ) : Step d (.commit_failed r) d
  | committed (d : Disk ι ρ) (r : ρ) : Step d (.commit_failed r) { d with record := some r }

inductive Steps : Disk ι ρ → List (Effect ι ρ) → Disk ι ρ → Prop
  | nil (d : Disk ι ρ) : Steps d [] d
  | cons {d d' d'' : Disk ι ρ} {e : Effect ι ρ} {es : List (Effect ι ρ)} (h : Step d e d')
      (hs : Steps d' es d'') : Steps d (e :: es) d''

/-- Every effect can happen. -/
theorem exists_step {d : Disk ι ρ} (hsub : d.synced ⊆ d.written) (e : Effect ι ρ) :
    ∃ d', Step d e d' ∧ d'.synced ⊆ d'.written := by
  cases e with
  | write i => exact ⟨_, .write d i, fun j hj => .inr (hsub hj)⟩
  | sync => exact ⟨_, .sync d, fun _ hj => hj⟩
  | failed => exact ⟨_, .failed d (fun _ hj => hj) hsub (fun _ hj => hj), hsub⟩
  | commit r => exact ⟨_, .commit d r, hsub⟩
  | commit_failed r => exact ⟨_, .not_committed d r, hsub⟩

/-- A crash loses any of the blocks that are not synced. -/
def Crash (d d' : Disk ι ρ) : Prop :=
  ∃ kept, d.synced ⊆ kept ∧ kept ⊆ d.written ∧ d' = ⟨kept, kept, d.record⟩

/-- The disks that a history of runs leads to. `runs` has the effects that a
run can have if it finds a record. A run may be cut short at any effect. -/
inductive Reachable (runs : Option ρ → Set (List (Effect ι ρ))) : Disk ι ρ → Prop
  | start {written synced : Set ι} (h : synced ⊆ written) : Reachable runs ⟨written, synced, none⟩
  | run {d d' : Disk ι ρ} {es es' : List (Effect ι ρ)} (hd : Reachable runs d)
      (hrun : es ++ es' ∈ runs d.record) (hsteps : Steps d es d') : Reachable runs d'
  | crash {d d' : Disk ι ρ} (hd : Reachable runs d) (hc : Crash d d') : Reachable runs d'

section Discipline

variable (claims : ρ → Set ι)

/-- What the record claims. -/
def claimed : Option ρ → Set ι
  | none => ∅
  | some r => claims r

/-- The record claims only blocks that survive a crash. -/
structure Honest (d : Disk ι ρ) : Prop where
  synced_subset : d.synced ⊆ d.written
  claims_synced : claimed claims d.record ⊆ d.synced

/-- What a process knows to be written and to be synced. -/
structure Known (ι : Type) where
  written : Set ι
  synced : Set ι

def Known.Of (k : Known ι) (d : Disk ι ρ) : Prop := k.written ⊆ d.written ∧ k.synced ⊆ d.synced

def Known.after (k : Known ι) : Effect ι ρ → Known ι
  | .write i => { k with written := insert i k.written }
  | .sync => { k with synced := k.synced ∪ k.written }
  | .failed => { k with written := ∅ }
  | .commit _ => k
  | .commit_failed _ => k

/-- A record may be written if it claims only what is known to be synced. -/
def Known.Allows (k : Known ι) : Effect ι ρ → Prop
  | .commit r => claims r ⊆ k.synced
  | .commit_failed r => claims r ⊆ k.synced
  | _ => True

def Known.afterAll (k : Known ι) (es : List (Effect ι ρ)) : Known ι := es.foldl Known.after k

/-- Every effect is allowed by what is known when it happens. -/
def Disciplined (k : Known ι) : List (Effect ι ρ) → Prop
  | [] => True
  | e :: es => k.Allows claims e ∧ Disciplined (k.after e) es

variable {claims}

@[simp] theorem afterAll_nil (k : Known ι) : k.afterAll ([] : List (Effect ι ρ)) = k := rfl

@[simp] theorem afterAll_append (k : Known ι) (es es' : List (Effect ι ρ)) :
    k.afterAll (es ++ es') = (k.afterAll es).afterAll es' := by
  simp [Known.afterAll]

theorem disciplined_append {k : Known ι} {es es' : List (Effect ι ρ)} :
    Disciplined claims k (es ++ es') ↔
      Disciplined claims k es ∧ Disciplined claims (k.afterAll es) es' := by
  induction es generalizing k with
  | nil => simp [Disciplined]
  | cons e es ih =>
    simp only [List.cons_append, Disciplined, ih, and_assoc]
    rfl

/-- After a sync all that was written may be claimed. -/
theorem Disciplined.sync_commit {k : Known ι} {es : List (Effect ι ρ)} {r : ρ} {e : Effect ι ρ}
    (h : Disciplined claims k es) (hr : claims r ⊆ (k.afterAll es).written)
    (he : e = .commit r ∨ e = .commit_failed r) : Disciplined claims k (es ++ [.sync, e]) := by
  have hsynced : claims r ⊆ ((k.afterAll es).after (Effect.sync : Effect ι ρ)).synced :=
    fun i hi => .inr (hr hi)
  rcases he with rfl | rfl
  · exact disciplined_append.2 ⟨h, trivial, hsynced, trivial⟩
  · exact disciplined_append.2 ⟨h, trivial, hsynced, trivial⟩

/-- An allowed effect keeps the record honest and the knowledge true. -/
theorem Step.honest {k : Known ι} {d d' : Disk ι ρ} {e : Effect ι ρ} (h : Step d e d')
    (hd : Honest claims d) (hk : k.Of d) (ha : k.Allows claims e) :
    Honest claims d' ∧ (k.after e).Of d' := by
  obtain ⟨hsub, hclaims⟩ := hd
  obtain ⟨hw, hs⟩ := hk
  cases h with
  | write i =>
    exact ⟨⟨fun j hj => .inr (hsub hj), hclaims⟩, Set.insert_subset_insert hw, hs⟩
  | sync =>
    exact ⟨⟨fun _ hj => hj, fun j hj => hsub (hclaims hj)⟩, hw,
      Set.union_subset (fun j hj => hsub (hs hj)) hw⟩
  | failed hs' hsw _ =>
    exact ⟨⟨hsw, fun j hj => hs' (hclaims hj)⟩, Set.empty_subset _, fun j hj => hs' (hs hj)⟩
  | commit r => exact ⟨⟨hsub, fun j hj => hs (ha hj)⟩, hw, hs⟩
  | not_committed r => exact ⟨⟨hsub, hclaims⟩, hw, hs⟩
  | committed r => exact ⟨⟨hsub, fun j hj => hs (ha hj)⟩, hw, hs⟩

theorem Steps.honest {k : Known ι} {d d' : Disk ι ρ} {es : List (Effect ι ρ)} (h : Steps d es d')
    (hd : Honest claims d) (hk : k.Of d) (hes : Disciplined claims k es) : Honest claims d' := by
  induction h generalizing k with
  | nil d => exact hd
  | cons hstep _ ih =>
    obtain ⟨hd', hk'⟩ := hstep.honest hd hk hes.1
    exact ih hd' hk' hes.2

/-- Whatever the records claim, what is known stays true. -/
theorem Steps.known {k : Known ι} {d d' : Disk ι ρ} {es : List (Effect ι ρ)} (h : Steps d es d')
    (hsub : d.synced ⊆ d.written) (hk : k.Of d) :
    d'.synced ⊆ d'.written ∧ (k.afterAll es).Of d' := by
  induction h generalizing k with
  | nil d => exact ⟨hsub, hk⟩
  | @cons d d' d'' e es hstep _ ih =>
    -- records that claim nothing are honest, and every effect is allowed for them
    have hnothing : claimed (fun _ : ρ => (∅ : Set ι)) d.record ⊆ d.synced := by
      rcases d.record with _ | r <;> exact Set.empty_subset _
    have hallows : k.Allows (fun _ : ρ => (∅ : Set ι)) e := by
      cases e with
      | commit r => exact Set.empty_subset _
      | commit_failed r => exact Set.empty_subset _
      | _ => trivial
    obtain ⟨hd', hk'⟩ := hstep.honest ⟨hsub, hnothing⟩ hk hallows
    exact ih hd'.synced_subset hk'

/-- The record is honest over any history of disciplined runs and crashes. -/
theorem Reachable.honest {runs : Option ρ → Set (List (Effect ι ρ))}
    (hruns : ∀ r, ∀ es ∈ runs r, Disciplined claims ⟨claimed claims r, claimed claims r⟩ es)
    {d : Disk ι ρ} (h : Reachable runs d) : Honest claims d := by
  induction h with
  | start h => exact ⟨h, Set.empty_subset _⟩
  | run _ hrun hsteps ih =>
    have hknown := (disciplined_append.1 (hruns _ _ hrun)).1
    exact hsteps.honest ih
      ⟨fun j hj => ih.synced_subset (ih.claims_synced hj), ih.claims_synced⟩ hknown
  | crash _ hc ih =>
    obtain ⟨kept, hs, -, rfl⟩ := hc
    exact ⟨fun _ hj => hj, fun j hj => hs (ih.claims_synced hj)⟩

end Discipline

end crash_disk
