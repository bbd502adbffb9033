-- A bag that calls put things into and take things out of. If no step makes a
-- thing out of nothing, then every thing that comes out went in at a call of
-- its own: what went in once comes out at most once.
import Mathlib.Data.List.Induction
import Mathlib.Data.List.Nodup
import Mathlib.Data.List.Perm.Subperm
import Mathlib.Tactic.Common

namespace one_use

variable {ι α β : Type}

/-- A list whose images are a permutation of `l'` can be put in the order of
`l'`. -/
theorem exists_perm_map_eq {f : α → β} {l : List α} {l' : List β} (h : (l.map f).Perm l') :
    ∃ m : List α, m.Perm l ∧ m.map f = l' := by
  induction l' generalizing l with
  | nil =>
    rw [List.map_eq_nil_iff.1 (List.perm_nil.1 h)]
    exact ⟨[], .nil, rfl⟩
  | cons b l' ih =>
    obtain ⟨a, ha, rfl⟩ := List.mem_map.1 (h.symm.subset List.mem_cons_self)
    obtain ⟨before, behind, rfl⟩ := List.append_of_mem ha
    have hmiddle : (before ++ a :: behind).Perm (a :: (before ++ behind)) := List.perm_middle
    obtain ⟨m, hm, hmap⟩ := ih ((hmiddle.map f).symm.trans h).cons_inv
    exact ⟨a :: m, (hm.cons a).trans hmiddle.symm, by rw [List.map_cons, hmap]⟩

/-- A thing that came out: the call that put it in, the call that took it out,
and the thing. -/
structure Link (ι α : Type) where
  origin : ι
  taker : ι
  thing : α

namespace Link

def put (l : Link ι α) : ι × α := (l.origin, l.thing)

def out (l : Link ι α) : ι × α := (l.taker, l.thing)

end Link

variable {puts outs ps os : List (ι × α)} {bag bag' : List α} {before : ι → ι → Prop}

/-- Every thing that came out and every thing still in the bag was put in, by
one call each, and what came out was put in before. -/
def Explained (before : ι → ι → Prop) (puts outs : List (ι × α)) (bag : List α) : Prop :=
  ∃ (links : List (Link ι α)) (held : List (ι × α)),
    links.map Link.out = outs ∧ held.map Prod.snd = bag ∧
    (links.map Link.put ++ held).Subperm puts ∧ ∀ l ∈ links, before l.origin l.taker

namespace Explained

theorem nil (before : ι → ι → Prop) : Explained before ([] : List (ι × α)) [] [] :=
  ⟨[], [], rfl, rfl, .refl _, by simp⟩

theorem length_bag_le (h : Explained before puts outs bag) : bag.length ≤ puts.length := by
  obtain ⟨links, held, -, rfl, hsub, -⟩ := h
  have hle := hsub.length_le
  rw [List.length_append] at hle
  rw [List.length_map]
  exact Nat.le_trans (Nat.le_add_left _ _) hle

theorem put_of_mem_bag (h : Explained before puts outs bag) {a : α} (ha : a ∈ bag) :
    ∃ i, (i, a) ∈ puts := by
  obtain ⟨links, held, -, rfl, hsub, -⟩ := h
  obtain ⟨⟨i, a⟩, hmem, rfl⟩ := List.mem_map.1 ha
  exact ⟨i, hsub.subset (List.mem_append_right _ hmem)⟩

/-- The things of `ps` go in, and those of `os` come out. -/
theorem step (h : Explained before puts outs bag)
    (hstep : (os.map Prod.snd ++ bag').Subperm (bag ++ ps.map Prod.snd))
    (hbefore : ∀ p ∈ puts ++ ps, ∀ o ∈ os, before p.1 o.1) :
    Explained before (puts ++ ps) (outs ++ os) bag' := by
  obtain ⟨links, held, rfl, rfl, hsub, hlinks⟩ := h
  -- What comes out and what stays keep the calls that put them in.
  rw [← List.map_append] at hstep
  obtain ⟨l, hl, hsublist⟩ := hstep
  obtain ⟨m, hm, rfl⟩ := List.sublist_map_iff.1 hsublist
  obtain ⟨m', hperm, hmap⟩ := exists_perm_map_eq hl
  obtain ⟨gone, held', rfl, hgone, hheld⟩ := List.map_eq_append_iff.1 hmap
  have hnew : (gone ++ held').Subperm (held ++ ps) := hperm.subperm.trans hm.subperm
  have hlen : gone.length = os.length := by
    simpa using congrArg List.length hgone
  have hfst : (gone.zipWith (fun p o => Link.mk p.1 o.1 o.2) os).map Link.put = gone := by
    refine List.ext_getElem (by simp [hlen]) fun n hn hn' => ?_
    have hthing := List.getElem_of_eq hgone (by simpa using hn')
    simp only [List.getElem_map] at hthing
    simp [Link.put, ← hthing]
  have hsnd : (gone.zipWith (fun p o => Link.mk p.1 o.1 o.2) os).map Link.out = os := by
    refine List.ext_getElem (by simp [hlen]) fun n hn hn' => ?_
    simp [Link.out]
  refine ⟨links ++ gone.zipWith (fun p o => Link.mk p.1 o.1 o.2) os, held', ?_, hheld, ?_, ?_⟩
  · rw [List.map_append, hsnd]
  · rw [List.map_append, hfst, List.append_assoc]
    refine ((List.subperm_append_left _).2 hnew).trans ?_
    rw [← List.append_assoc]
    exact (List.subperm_append_right _).2 hsub
  · intro l hl
    rcases List.mem_append.1 hl with hl | hl
    · exact hlinks l hl
    · have hput : l.put ∈ gone := hfst ▸ List.mem_map_of_mem hl
      have hout : l.out ∈ os := hsnd ▸ List.mem_map_of_mem hl
      have hfrom := (hnew.trans ((List.subperm_append_right _).2
        ((List.sublist_append_right _ _).subperm.trans hsub))).subset
        (List.mem_append_left _ hput)
      exact hbefore _ hfrom _ hout

/-- Each call that took something out took it from a call that put it in, and
no two calls took it from the same one. -/
theorem origin (h : Explained before puts outs bag) (hputs : (puts.map Prod.fst).Nodup)
    (houts : (outs.map Prod.fst).Nodup) :
    ∃ origin : ι → ι,
      (∀ o ∈ outs, (origin o.1, o.2) ∈ puts ∧ before (origin o.1) o.1) ∧
      ∀ o ∈ outs, ∀ o' ∈ outs, origin o.1 = origin o'.1 → o.1 = o'.1 := by
  classical
  obtain ⟨links, held, rfl, -, hsub, hlinks⟩ := h
  have hnodup : (links.map Link.origin).Nodup := by
    obtain ⟨l, hperm, hl⟩ := (List.sublist_append_left (links.map Link.put) held).subperm.trans hsub
    have hl' := (hperm.map Prod.fst).nodup_iff.1 (hputs.sublist (hl.map _))
    rwa [List.map_map] at hl'
  rw [List.map_map] at houts
  -- A taker has one link.
  have hone : ∀ l ∈ links, ∀ l' ∈ links, l.taker = l'.taker → l = l' :=
    fun l hl l' hl' heq => List.inj_on_of_nodup_map houts hl hl' heq
  have hone' : ∀ l ∈ links, ∀ l' ∈ links, l.origin = l'.origin → l = l' :=
    fun l hl l' hl' heq => List.inj_on_of_nodup_map hnodup hl hl' heq
  let origin : ι → ι := fun i =>
    if h : ∃ l ∈ links, l.taker = i then h.choose.origin else i
  have horigin : ∀ l ∈ links, origin l.taker = l.origin := by
    intro l hl
    have hex : ∃ l' ∈ links, l'.taker = l.taker := ⟨l, hl, rfl⟩
    have heq := hone _ hex.choose_spec.1 l hl hex.choose_spec.2
    simp only [origin, dif_pos hex, heq]
  refine ⟨origin, ?_, ?_⟩
  · intro o ho
    obtain ⟨l, hl, rfl⟩ := List.mem_map.1 ho
    have hl' := horigin l hl
    refine ⟨?_, ?_⟩
    · change (origin l.taker, l.thing) ∈ puts
      rw [hl']
      exact hsub.subset (List.mem_append_left _ (List.mem_map_of_mem hl))
    · change before (origin l.taker) l.taker
      rw [hl']
      exact hlinks l hl
  · intro o ho o' ho' heq
    obtain ⟨l, hl, rfl⟩ := List.mem_map.1 ho
    obtain ⟨l', hl', rfl⟩ := List.mem_map.1 ho'
    change origin l.taker = origin l'.taker at heq
    rw [horigin l hl, horigin l' hl'] at heq
    rw [hone' l hl l' hl' heq]

end Explained

/-! ## Calls with numbers -/

/-- What the calls have, with the number of the call. -/
def numbered (l : List (Option α)) : List (Nat × α) :=
  l.zipIdx.filterMap fun (o, i) => o.map fun a => (i, a)

theorem mem_numbered {l : List (Option α)} {i : Nat} {a : α} :
    (i, a) ∈ numbered l ↔ l[i]? = some (some a) := by
  unfold numbered
  simp only [List.mem_filterMap, Option.map_eq_some_iff, Prod.mk.injEq, Prod.exists,
    List.mem_zipIdx_iff_getElem?]
  constructor
  · rintro ⟨o, j, hj, b, rfl, rfl, rfl⟩
    exact hj
  · intro h
    exact ⟨some a, i, h, a, rfl, rfl, rfl⟩

theorem numbered_concat (l : List (Option α)) (o : Option α) :
    numbered (l ++ [o]) = numbered l ++ o.toList.map fun a => (l.length, a) := by
  unfold numbered
  rw [List.zipIdx_append, List.filterMap_append]
  cases o <;> simp

theorem lt_of_mem_numbered {l : List (Option α)} {p : Nat × α} (h : p ∈ numbered l) :
    p.1 < l.length := (List.getElem?_eq_some_iff.1 (mem_numbered.1 h)).1

theorem nodup_numbered (l : List (Option α)) : ((numbered l).map Prod.fst).Nodup := by
  induction l using List.reverseRecOn with
  | nil => exact .nil
  | append_singleton l o ih =>
    rw [numbered_concat, List.map_append]
    cases o with
    | none => simpa using ih
    | some a =>
      refine List.nodup_append.2 ⟨ih, by simp, ?_⟩
      intro n hn m hm
      obtain ⟨p, hp, rfl⟩ := List.mem_map.1 hn
      have hlt := lt_of_mem_numbered hp
      have hm' : m = l.length := by simpa using hm
      omega

end one_use
