-- Several files beside one record, on a disk that can crash. A process works on
-- one file for one thing that the file is to hold, and may remove the file and
-- the record. A record tells the truth about its own file as long as no process
-- uses that file for something else, or removes it and leaves the record.
import Reyta.CrashDisk

open crash_disk

namespace shared_record

variable {δ κ ι ρ : Type}

/-- What a process does. -/
inductive Deed (ι ρ : Type) where
  /-- The file is opened, and gets the length of what it is to hold. -/
  | resize
  | effect (e : Effect ι ρ)
  | remove_file
  | remove_record

/-- The blocks of one thing that a file holds, and those of them that survive a
crash. -/
structure Blocks (ι : Type) where
  written : Set ι
  synced : Set ι

def Blocks.none : Blocks ι := ⟨∅, ∅⟩

/-- What the file `d` holds of the thing `k`, and the record. -/
structure Shelf (δ κ ι ρ : Type) where
  held : δ → κ → Blocks ι
  record : Option ρ

namespace Shelf

/-- The disk as a process sees it that works on the file `d` for `k`. -/
def disk (w : Shelf δ κ ι ρ) (d : δ) (k : κ) : Disk ι ρ :=
  ⟨(w.held d k).written, (w.held d k).synced, w.record⟩

/-- Another thing may lose any blocks in the file. No other file changes. -/
structure Elsewhere (d : δ) (k : κ) (w w' : Shelf δ κ ι ρ) : Prop where
  things : ∀ k', k' ≠ k → (w'.held d k').written ⊆ (w.held d k').written ∧
    (w'.held d k').synced ⊆ (w.held d k').synced ∧ (w'.held d k').synced ⊆ (w'.held d k').written
  files : ∀ d', d' ≠ d → w'.held d' = w.held d'

/-- What a deed of a process can do. -/
inductive Step (d : δ) (k : κ) : Shelf δ κ ι ρ → Deed ι ρ → Shelf δ κ ι ρ → Prop
  | resize {w w' : Shelf δ κ ι ρ} (h : w'.disk d k = w.disk d k) (he : Elsewhere d k w w') :
      Step d k w .resize w'
  | effect {w w' : Shelf δ κ ι ρ} {e : Effect ι ρ}
      (h : crash_disk.Step (w.disk d k) e (w'.disk d k))
      (he : Elsewhere d k w w') : Step d k w (.effect e) w'
  | remove_file {w w' : Shelf δ κ ι ρ} (h : w'.held d = fun _ => .none)
      (hfiles : ∀ d', d' ≠ d → w'.held d' = w.held d') (hrecord : w'.record = w.record) :
      Step d k w .remove_file w'
  | remove_record (w : Shelf δ κ ι ρ) : Step d k w .remove_record { w with record := none }

inductive Steps (d : δ) (k : κ) : Shelf δ κ ι ρ → List (Deed ι ρ) → Shelf δ κ ι ρ → Prop
  | nil (w : Shelf δ κ ι ρ) : Steps d k w [] w
  | cons {w w' w'' : Shelf δ κ ι ρ} {a : Deed ι ρ} {ds : List (Deed ι ρ)} (h : Step d k w a w')
      (hs : Steps d k w' ds w'') : Steps d k w (a :: ds) w''

theorem Steps.snoc {d : δ} {k : κ} {w w₁ w' : Shelf δ κ ι ρ} {ds : List (Deed ι ρ)} {a : Deed ι ρ}
    (hs : Steps d k w ds w₁) (h : Step d k w₁ a w') : Steps d k w (ds ++ [a]) w' := by
  induction hs with
  | nil w => exact .cons h (.nil _)
  | cons hstep _ ih => exact .cons hstep (ih h)

theorem Steps.split {d : δ} {k : κ} {w w' : Shelf δ κ ι ρ} {ds ds' : List (Deed ι ρ)}
    (hs : Steps d k w (ds ++ ds') w') : ∃ w₁, Steps d k w ds w₁ ∧ Steps d k w₁ ds' w' := by
  induction ds generalizing w with
  | nil => exact ⟨w, .nil w, hs⟩
  | cons a ds ih =>
    cases hs with
    | cons h hs =>
      obtain ⟨w₁, hs, hs'⟩ := ih hs
      exact ⟨w₁, .cons h hs, hs'⟩

/-- A record that was committed last is there. -/
theorem Steps.committed {d : δ} {k : κ} {w w' : Shelf δ κ ι ρ} {ds : List (Deed ι ρ)} {r : ρ}
    (hs : Steps d k w (ds ++ [.effect (.commit r)]) w') : w'.record = some r := by
  have hrecord : ∀ {a b : Disk ι ρ}, crash_disk.Step a (.commit r) b → b.record = some r := by
    rintro _ _ ⟨⟩
    rfl
  obtain ⟨w₁, -, hlast⟩ := hs.split
  cases hlast with
  | cons h hnil =>
    cases hnil
    cases h with
    | effect h he => exact hrecord h

/-- Effects act on the file as on a disk of its own. -/
theorem Steps.effects {d : δ} {k : κ} {w w' : Shelf δ κ ι ρ} {es : List (Effect ι ρ)}
    (hs : Steps d k w (es.map .effect) w') :
    crash_disk.Steps (w.disk d k) es (w'.disk d k) := by
  induction es generalizing w with
  | nil =>
    cases hs
    exact .nil _
  | cons e es ih =>
    cases hs with
    | cons h hs =>
      cases h with
      | effect h he => exact .cons h (ih hs)

theorem Steps.held_eq {d : δ} {k : κ} {w w' : Shelf δ κ ι ρ} {ds : List (Deed ι ρ)}
    (hs : Steps d k w ds w') (h : ∀ a ∈ ds, a = .remove_record) : w'.held = w.held := by
  induction hs with
  | nil => rfl
  | cons hstep _ ih =>
    obtain rfl := h _ List.mem_cons_self
    rw [ih fun a ha => h a (List.mem_cons_of_mem _ ha)]
    cases hstep
    rfl

/-- What a process knows to be synced in the end is there. -/
theorem Steps.synced {d : δ} {k : κ} {w w' : Shelf δ κ ι ρ} {n : Known ι} {es : List (Effect ι ρ)}
    {ds : List (Deed ι ρ)} (hs : Steps d k w (.resize :: (es.map .effect ++ ds)) w')
    (hsub : (w.held d k).synced ⊆ (w.held d k).written) (hn : n.Of (w.disk d k))
    (h : ∀ a ∈ ds, a = .remove_record) : (n.afterAll es).synced ⊆ (w'.held d k).synced := by
  cases hs with
  | cons hresize hs =>
    cases hresize with
    | resize hdisk _ =>
      obtain ⟨w₂, heffects, hcleaned⟩ := hs.split
      rw [← hdisk] at hn
      have hsub' : (w.disk d k).synced ⊆ (w.disk d k).written := hsub
      rw [← hdisk] at hsub'
      rw [hcleaned.held_eq h]
      exact (heffects.effects.known hsub' hn).2.2

/-- No block of a thing in a file survives a crash without being there. -/
def Sound (w : Shelf δ κ ι ρ) : Prop := ∀ d k, (w.held d k).synced ⊆ (w.held d k).written

section Run

open Classical in
/-- The file `d` gets what it holds of each thing. -/
noncomputable def put (w : Shelf δ κ ι ρ) (d : δ) (blocks : κ → Blocks ι) (record : Option ρ) :
    Shelf δ κ ι ρ where
  held d' := if d' = d then blocks else w.held d'
  record := record

variable {d : δ} {k : κ} {w : Shelf δ κ ι ρ} {blocks : κ → Blocks ι} {record : Option ρ}

theorem put_self : (w.put d blocks record).held d = blocks := if_pos rfl

theorem put_other {d' : δ} (h : d' ≠ d) : (w.put d blocks record).held d' = w.held d' := if_neg h

theorem Sound.put (hw : w.Sound) (h : ∀ k, (blocks k).synced ⊆ (blocks k).written) :
    (w.put d blocks record).Sound := by
  intro d' k
  by_cases hd : d' = d
  · rw [hd, put_self]
    exact h k
  · rw [put_other hd]
    exact hw d' k

open Classical in
/-- Every deed can happen. -/
theorem exists_step (hw : w.Sound) (d : δ) (k : κ) (a : Deed ι ρ) :
    ∃ w', Step d k w a w' ∧ w'.Sound := by
  cases a with
  | resize =>
    exact ⟨w, .resize rfl ⟨fun k' _ => ⟨fun _ h => h, fun _ h => h, hw d k'⟩, fun _ _ => rfl⟩, hw⟩
  | effect e =>
    obtain ⟨x, hx, hsub⟩ := crash_disk.exists_step (d := w.disk d k) (hw d k) e
    refine ⟨w.put d (Function.update (w.held d) k ⟨x.written, x.synced⟩) x.record,
      .effect ?_ ⟨fun k' hk => ?_, fun d' hd => put_other hd⟩, hw.put fun k' => ?_⟩
    · unfold disk
      rw [put_self, Function.update_self]
      exact hx
    · rw [put_self, Function.update_of_ne hk]
      exact ⟨fun _ h => h, fun _ h => h, hw d k'⟩
    · by_cases hk : k' = k
      · rw [hk, Function.update_self]
        exact hsub
      · rw [Function.update_of_ne hk]
        exact hw d k'
  | remove_file =>
    exact ⟨w.put d (fun _ => .none) w.record, .remove_file put_self (fun _ hd => put_other hd) rfl,
      hw.put fun _ _ h => h⟩
  | remove_record => exact ⟨_, .remove_record w, hw⟩

theorem exists_steps (hw : w.Sound) (d : δ) (k : κ) (ds : List (Deed ι ρ)) :
    ∃ w', Steps d k w ds w' := by
  induction ds generalizing w with
  | nil => exact ⟨w, .nil w⟩
  | cons a ds ih =>
    obtain ⟨w₁, hstep, hw₁⟩ := exists_step hw d k a
    obtain ⟨w', hs⟩ := ih hw₁
    exact ⟨w', .cons hstep hs⟩

end Run

/-- A crash loses any of the blocks that are not synced, in every file. -/
def Crash (w w' : Shelf δ κ ι ρ) : Prop := ∀ d k, crash_disk.Crash (w.disk d k) (w'.disk d k)

/-! ## The truth about a record -/

section Home

variable (home : ρ → δ × κ) (claims : ρ → Set ι)

/-- What a record claims about the thing `k` in the file `d`. -/
def claimsAt (d : δ) (k : κ) (r : ρ) : Set ι := { i | home r = (d, k) ∧ i ∈ claims r }

/-- A record claims only blocks that its own file holds for good. -/
def Honest (w : Shelf δ κ ι ρ) : Prop :=
  ∀ d k, crash_disk.Honest (claimsAt home claims d k) (w.disk d k)

/-- No record of another thing is about the file `d`. -/
def Fits (d : δ) (k : κ) (w : Shelf δ κ ι ρ) : Prop :=
  ∀ r ∈ w.record, (home r).1 = d → home r = (d, k)

/-- The records that a deed may leave are about the file and the thing. -/
def OwnRecord (d : δ) (k : κ) : Effect ι ρ → Prop
  | .commit r => home r = (d, k)
  | .commit_failed r => home r = (d, k)
  | _ => True

/-- Only what is synced is claimed, and a file is removed together with the
record, at the end. -/
def Tidy (d : δ) (k : κ) : Known ι → List (Deed ι ρ) → Prop
  | _, [] => True
  | n, .resize :: ds => Tidy d k n ds
  | n, .effect e :: ds => n.Allows claims e ∧ OwnRecord home d k e ∧ Tidy d k (n.after e) ds
  | _, .remove_file :: ds => ds = [.remove_record]
  | _, .remove_record :: ds => ds = []

variable {home claims} {d : δ} {k : κ} {w w' : Shelf δ κ ι ρ}

theorem Honest.truth (h : Honest home claims w) {r : ρ} (hr : w.record = some r) :
    claims r ⊆ (w.held (home r).1 (home r).2).synced := by
  intro i hi
  apply (h (home r).1 (home r).2).claims_synced
  change i ∈ claimed _ w.record
  rw [hr]
  exact ⟨rfl, hi⟩

/-- Without a record there is nothing that could be wrong. -/
theorem honest_of_no_record (hsub : ∀ d k, (w.held d k).synced ⊆ (w.held d k).written)
    (h : w.record = none) : Honest home claims w := by
  intro d k
  refine ⟨hsub d k, ?_⟩
  change claimed _ w.record ⊆ _
  rw [h]
  exact Set.empty_subset _

/-- A file or a thing that the record is not about. -/
theorem claimed_eq_empty (h : ∀ r ∈ w.record, home r ≠ (d, k)) :
    claimed (claimsAt home claims d k) w.record = ∅ := by
  rcases hr : w.record with _ | r
  · rfl
  · refine Set.eq_empty_iff_forall_notMem.2 fun i hi => ?_
    exact h r hr hi.1

/-! ## What a run keeps -/

theorem OwnRecord.record {e : Effect ι ρ} (ho : OwnRecord home d k e)
    (h : crash_disk.Step (w.disk d k) e (w'.disk d k)) :
    ∀ r ∈ w'.record, w.record = some r ∨ home r = (d, k) := by
  have hrecord : ∀ {e : Effect ι ρ} {a b : Disk ι ρ}, crash_disk.Step a e b →
      OwnRecord home d k e → ∀ r ∈ b.record, a.record = some r ∨ home r = (d, k) := by
    intro e a b h ho r hr
    cases h with
    | write i => exact .inl hr
    | sync => exact .inl hr
    | failed hs hsw hw => exact .inl hr
    | commit r' =>
      obtain rfl := Option.some.inj hr
      exact .inr ho
    | not_committed r' => exact .inl hr
    | committed r' =>
      obtain rfl := Option.some.inj hr
      exact .inr ho
  exact hrecord h ho

/-- The record stays, or becomes one about the file and the thing. -/
theorem Fits.of_record (h : Fits home d k w)
    (hrecord : ∀ r ∈ w'.record, w.record = some r ∨ home r = (d, k)) : Fits home d k w' := by
  intro r hr hd
  rcases hrecord r hr with hold | hnew
  · exact h r hold hd
  · exact hnew

/-- What is true of every other file and thing stays true. -/
theorem Elsewhere.honest (he : Elsewhere d k w w') (h : Honest home claims w)
    (hfits : Fits home d k w) (hrecord : ∀ r ∈ w'.record, w.record = some r ∨ home r = (d, k))
    (hown : crash_disk.Honest (claimsAt home claims d k) (w'.disk d k)) :
    Honest home claims w' := by
  intro d' k'
  by_cases hd : d' = d
  · subst hd
    by_cases hk : k' = k
    · subst hk
      exact hown
    · have hnone : claimed (claimsAt home claims d' k') w'.record = ∅ := by
        apply claimed_eq_empty
        intro r hr heq
        have hsame := (hfits.of_record hrecord) r hr (congrArg Prod.fst heq)
        rw [heq] at hsame
        exact hk (Prod.mk.inj hsame).2
      refine ⟨(he.things k' hk).2.2, ?_⟩
      change claimed _ w'.record ⊆ _
      rw [hnone]
      exact Set.empty_subset _
  · have hheld : w'.held d' k' = w.held d' k' := congrFun (he.files d' hd) k'
    obtain ⟨hsub, hclaims⟩ := h d' k'
    refine ⟨?_, ?_⟩
    · change (w'.held d' k').synced ⊆ (w'.held d' k').written
      rw [hheld]
      exact hsub
    · change claimed _ w'.record ⊆ (w'.held d' k').synced
      rw [hheld]
      rcases hr : w'.record with _ | r
      · exact Set.empty_subset _
      · rcases hrecord r hr with hold | hnew
        · change claimed _ w.record ⊆ _ at hclaims
          rwa [hold] at hclaims
        · intro i hi
          exact absurd (congrArg Prod.fst (hnew.symm.trans hi.1)).symm hd

theorem Allows.claimsAt {n : Known ι} {e : Effect ι ρ} (h : n.Allows claims e) :
    n.Allows (claimsAt home claims d k) e := by
  cases e with
  | commit r => exact fun i hi => h hi.2
  | commit_failed r => exact fun i hi => h hi.2
  | _ => trivial

/-- A tidy run keeps the record honest. -/
theorem Steps.honest {n : Known ι} {ds : List (Deed ι ρ)} (hs : Steps d k w ds w')
    (h : Honest home claims w) (hfits : Fits home d k w) (hn : n.Of (w.disk d k))
    (htidy : Tidy home claims d k n ds) : Honest home claims w' := by
  induction hs generalizing n with
  | nil w => exact h
  | @cons w w₁ w' a ds hstep hrest ih =>
    cases hstep with
    | resize hsame he =>
      have hrecord : ∀ r ∈ w₁.record, w.record = some r ∨ home r = (d, k) := by
        intro r hr
        left
        rw [← show w₁.record = w.record from congrArg Disk.record hsame]
        exact hr
      have h₁ := he.honest h hfits hrecord (hsame ▸ h d k)
      exact ih h₁ (hfits.of_record hrecord) (hsame ▸ hn) htidy
    | effect hstep he =>
      obtain ⟨hallows, hown, htidy⟩ := htidy
      have hrecord := hown.record hstep
      obtain ⟨hhonest, hn₁⟩ := hstep.honest (h d k) hn (Allows.claimsAt hallows)
      exact ih (he.honest h hfits hrecord hhonest) (hfits.of_record hrecord) hn₁ htidy
    | remove_file hnone hfiles hrecord =>
      -- the record goes with the file
      obtain rfl : ds = [.remove_record] := htidy
      cases hrest with
      | cons hremove hnil =>
        cases hremove
        cases hnil
        refine honest_of_no_record (fun d' k' => ?_) rfl
        by_cases hd : d' = d
        · rw [hd]
          change (w₁.held d k').synced ⊆ (w₁.held d k').written
          rw [hnone]
          exact Set.empty_subset _
        · change (w₁.held d' k').synced ⊆ (w₁.held d' k').written
          rw [hfiles d' hd]
          exact (h d' k').synced_subset
    | remove_record =>
      obtain rfl : ds = [] := htidy
      cases hrest
      exact honest_of_no_record (fun d' k' => (h d' k').synced_subset) rfl

/-- Disciplined effects and a clean-up `c`, cut short anywhere but between the
two removals. -/
theorem Tidy.of_prefix {n : Known ι} {es : List (Effect ι ρ)} {c ds : List (Deed ι ρ)}
    (hes : Disciplined claims n es) (hown : ∀ e ∈ es, OwnRecord home d k e)
    (hc : ∀ n ds, ds <+: c → (.remove_file ∈ ds → .remove_record ∈ ds) → Tidy home claims d k n ds)
    (hds : ds <+: es.map .effect ++ c) (hremove : .remove_file ∈ ds → .remove_record ∈ ds) :
    Tidy home claims d k n ds := by
  induction es generalizing n ds with
  | nil => exact hc n ds hds hremove
  | cons e es ih =>
    cases ds with
    | nil => trivial
    | cons a ds =>
      obtain ⟨rfl, hrest⟩ := List.cons_prefix_cons.1 hds
      refine ⟨hes.1, hown e List.mem_cons_self, ih hes.2 ?_ hrest ?_⟩
      · exact fun e' he' => hown e' (List.mem_cons_of_mem _ he')
      · intro hmem
        simpa using hremove (List.mem_cons_of_mem _ hmem)

theorem Crash.honest (hc : Crash w w') (h : Honest home claims w) : Honest home claims w' := by
  intro d k
  obtain ⟨kept, hs, -, heq⟩ := hc d k
  rw [heq]
  exact ⟨fun _ hi => hi, fun i hi => hs ((h d k).claims_synced hi)⟩

end Home

end Shelf

end shared_record
