-- Calls on the resumption secrets that run at the same time. Each reads the
-- file and then replaces it. As long as no call replaces the file between the
-- read and the replacement of another, a stored entry is handed out once, and
-- it is not lost. Two calls that read before either replaces both hand it out.
import Mathlib.Data.Fin.VecNotation
import Mathlib.Data.List.Dedup
import Reyta.ResumptionStore

open byte_string exact_parse interleaving one_use

namespace rtp2_core.store

open cbor crypto StoreError

variable {ι : Type}

/-- Calls of several processes on one state directory. -/
structure Race (ι : Type) where
  P : Primitives
  device : DeviceStore
  calls : ι → Request
  random : ι → Arr 24

/-- No call replaces the file between the read and the replacement of
another. -/
def Undisturbed (trace : List (ι × FileOp)) : Prop :=
  ∀ i j bytes bytes', i ≠ j →
    ¬ [(i, FileOp.read), (j, .replace bytes), (i, .replace bytes')].Sublist trace

theorem Undisturbed.of_prefix {t t' : List (ι × FileOp)} (hp : t <+: t') (h : Undisturbed t') :
    Undisturbed t := fun i j bytes bytes' hij hsub =>
  h i j bytes bytes' hij (hsub.trans hp.sublist)

/-! ## Entries that a request leaves -/

namespace Request

def resumption_id : Request → Arr 16
  | .store_resumption entry _ => entry.resumption_id
  | .take_resumption resumption_id .. => resumption_id

def now : Request → UInt64
  | .store_resumption _ now => now
  | .take_resumption _ _ _ _ now => now

variable {entries left : List ResumptionEntry} {e : ResumptionEntry}

/-- While there is room, nothing is pushed out. -/
theorem mem_entries_with {entry : ResumptionEntry} {now : UInt64}
    (hroom : entries.length < MAX_RESUMPTION_ENTRIES.toNat) :
    e ∈ entries_with entries entry now ↔
      e ∈ entries ∧ e.resumption_id ≠ entry.resumption_id ∧ now < e.expires_at ∨
        e = entry.clamped := by
  have hkept := List.length_filter_le
    (fun e => decide (e.resumption_id ≠ entry.resumption_id ∧ e.expires_at > now)) entries
  simp only [entries_with, others, List.length_insertionSort, List.length_append,
    List.length_singleton]
  rw [Nat.sub_eq_zero_of_le (by omega), List.drop_zero, List.mem_insertionSort, List.mem_append,
    List.mem_filter, List.mem_singleton]
  simp

theorem mem_entries_without {resumption_id : Arr 16} {now : UInt64} {candidate : ResumptionEntry}
    (h : entries_without entries resumption_id now = some (candidate, left)) (he : e ∈ entries)
    (hid : e.resumption_id ≠ resumption_id) (hnow : now < e.expires_at) : e ∈ left := by
  unfold entries_without at h
  simp only [Option.bind_eq_bind, Option.bind_eq_some_iff, Option.pure_def, Option.some.injEq,
    Prod.mk.injEq] at h
  obtain ⟨index, hindex, _, -, -, rfl⟩ := h
  obtain ⟨hlt, hmatch, -⟩ := List.findIdx?_eq_some_iff_getElem.1 hindex
  obtain ⟨n, hn, rfl⟩ := List.getElem_of_mem he
  refine List.mem_filter.2 ⟨List.mem_eraseIdx_iff_getElem.2 ⟨n, hn, ?_, rfl⟩, by simpa using hnow⟩
  rintro rfl
  exact hid (Arr.ext (ct_eq_iff.1 hmatch))

/-- An entry stays unless it is asked for, stored again or expired. -/
theorem effect_keeps {r : Request} {given : Option ResumptionEntry}
    (h : r.effect entries = some (given, left))
    (hroom : entries.length < MAX_RESUMPTION_ENTRIES.toNat) (he : e ∈ entries)
    (hid : r.resumption_id ≠ e.resumption_id) (hnow : r.now < e.expires_at) : e ∈ left := by
  cases r with
  | store_resumption entry now =>
    obtain ⟨-, rfl⟩ := effect_store_eq_some.1 h
    exact (mem_entries_with hroom).2 (.inl ⟨he, Ne.symm hid, hnow⟩)
  | take_resumption resumption_id peer_device_id suite_id protocol_major now =>
    obtain ⟨candidate, hwithout, -⟩ := effect_take_eq_some.1 h
    exact mem_entries_without hwithout he (Ne.symm hid) hnow

/-- An entry that is there, alone with its id, is found. -/
theorem effect_of_mem {now : UInt64} (he : e ∈ entries)
    (hone : ∀ e' ∈ entries, e'.resumption_id = e.resumption_id → e' = e)
    (hnow : now < e.expires_at) :
    ∃ left, (take_resumption e.resumption_id e.peer_device_id e.suite_id e.protocol_major
      now).effect entries = some (some e, left) := by
  obtain ⟨⟨candidate, left⟩, hwithout⟩ : ∃ taken, entries_without entries e.resumption_id now =
      some taken := by
    cases hindex : entries.findIdx? fun x => ct_eq x.resumption_id.bytes e.resumption_id.bytes with
    | none =>
      have hnone := List.findIdx?_eq_none_iff.1 hindex e he
      simp [ct_eq] at hnone
    | some index =>
      obtain ⟨hlt, -, -⟩ := List.findIdx?_eq_some_iff_getElem.1 hindex
      simp [entries_without, hindex, hlt]
  obtain ⟨hid, hsub⟩ := entries_without_eq_some hwithout
  have hcandidate := hone candidate (hsub.subset List.mem_cons_self) hid
  subst hcandidate
  refine ⟨left, effect_take_eq_some.2 ⟨candidate, hwithout, ?_⟩⟩
  rw [if_pos (usable_iff.2 ⟨rfl, rfl, rfl, hnow⟩)]

end Request

namespace Race

/-- The calls as far as they have come, and the file. -/
abbrev State (ι : Type) := System ι FileOp FileOp.Answer Returned (Option Bytes)

/-- The steps on the file, without errors. -/
def reply : Option Bytes → (q : FileOp) → q.Answer × Option Bytes := Luck.answer .fine

def prog (R : Race ι) (i : ι) : Prog FileOp FileOp.Answer Returned :=
  (R.calls i).prog R.P R.device (R.random i)

/-- The steps of the schedule, from no file. -/
def run [DecidableEq ι] (R : Race ι) (schedule : List ι) : State ι :=
  interleaving.run reply (start R.prog none) schedule

/-! ## What holds between the steps -/

variable {R : Race ι} {s s' : State ι} {entries left : List ResumptionEntry} {i : ι}

/-- The call, when it has loaded the entries. -/
def loaded (R : Race ι) (i : ι) (entries : List ResumptionEntry) :
    Prog FileOp FileOp.Answer Returned :=
  (R.calls i).finish R.P R.device (R.random i) ((R.calls i).effect entries)

/-- A call that has loaded entries. Either the file still has them, or another
call has replaced it since. -/
structure Loaded (R : Race ι) (s : State ι) (entries : List ResumptionEntry) (i : ι)
    (old : List ResumptionEntry) : Prop where
  thread : s.threads i = R.loaded i old
  current : old = entries ∧ (i, .read) ∈ s.trace ∨
    ∃ j bytes, i ≠ j ∧ [(i, FileOp.read), (j, .replace bytes)].Sublist s.trace

/-- The file holds the entries, and each call has not begun, has loaded
entries, or is done. -/
structure Phases (R : Race ι) (s : State ι) (entries : List ResumptionEntry) : Prop where
  holds : R.device.Holds R.P s.shared entries
  phase : ∀ i, s.threads i = R.prog i ∨ (∃ old, R.Loaded s entries i old) ∨
    ∃ given, s.threads i = .ret ((R.calls i).done given)

/-- What is assumed about the store: it seals what it is given, and reads what it
wrote. -/
structure Steady (R : Race ι) : Prop where
  seals : R.device.sealer.Seals
  opens : R.device.sealer.Opens
  level : ¬ R.device.sealer.protection < R.device.minimum_protection

theorem Steady.entries_of (hR : R.Steady) (h : R.device.Holds R.P s.shared entries) :
    R.device.entries_of R.P (.of s.shared) = .ok entries := by
  rcases h.entries_of hR.opens with hload | ⟨hlevel, -⟩
  · exact hload
  · exact absurd hlevel hR.level

/-- A call that has loaded the entries and has something to write. -/
theorem Steady.loaded_eq (hR : R.Steady) {given : Option ResumptionEntry}
    (heffect : (R.calls i).effect entries = some (given, left))
    (hfew : left.length ≤ MAX_RESUMPTION_ENTRIES.toNat) :
    ∃ bytes k, R.loaded i entries = .ask (.replace bytes) k ∧
      ∀ file, k (reply file (.replace bytes)).1 = .ret ((R.calls i).done given) := by
  have hlen := Nat.le_trans (length_encode_entries_le hfew) (show 2 ^ 14 ≤ 2 ^ 16 by decide)
  obtain ⟨bytes, hfile⟩ := exists_write_sealed R.P RESUMPTION_DOMAIN hR.seals (R.random i) hlen
  have hfile' : R.device.entries_file R.P (R.random i) left = .ok bytes := hfile
  simp only [loaded, heffect, Request.finish, hfile']
  exact ⟨bytes, _, rfl, fun _ => rfl⟩

variable {puts outs : List (ι × ResumptionEntry)}

/-- The entries that calls have stored and those that calls have handed out, and
that the one explain the others. -/
structure Accounted (R : Race ι) (s : State ι) (entries : List ResumptionEntry)
    (puts outs : List (ι × ResumptionEntry)) : Prop where
  explained : Explained (fun _ _ => True) puts outs entries
  puts_nodup : (puts.map Prod.fst).Nodup
  outs_nodup : (outs.map Prod.fst).Nodup
  stored : ∀ p ∈ puts, (s.threads p.1).result ≠ none ∧ (R.calls p.1).put = some p.2
  handed : ∀ o ∈ outs, (s.threads o.1).result ≠ none
  returned : ∀ i e, given (s.threads i).result = some e → (i, e) ∈ outs

theorem given_loaded (i : ι) (entries : List ResumptionEntry) :
    given (R.loaded i entries).result = none := by
  unfold loaded
  rcases (R.calls i).effect entries with _ | ⟨given', left⟩
  · exact (R.calls i).entry_done_none
  · simp only [Request.finish]
    cases R.device.entries_file R.P (R.random i) left with
    | error e => exact (R.calls i).entry_failed e
    | ok bytes => rfl

/-- A call with a result is not the one that takes a step. -/
theorem ne_of_result {k : ι} (hthread : (s.threads i).result = none)
    (hk : (s.threads k).result ≠ none) : k ≠ i := by
  rintro rfl
  exact hk hthread

theorem nodup_append_toList {l : List (ι × ResumptionEntry)} {o : Option ResumptionEntry}
    (h : (l.map Prod.fst).Nodup) (hi : ∀ p ∈ l, p.1 ≠ i) :
    ((l ++ o.toList.map fun e => (i, e)).map Prod.fst).Nodup := by
  cases o with
  | none => simpa using h
  | some e =>
    rw [List.map_append]
    refine List.nodup_append.2 ⟨h, by simp, ?_⟩
    intro k hk m hm
    obtain ⟨p, hp, rfl⟩ := List.mem_map.1 hk
    have hm' : m = i := by simpa using hm
    rw [hm']
    exact hi p hp

/-- What holds between the steps of an undisturbed run. -/
def Orderly (R : Race ι) (s : State ι) : Prop :=
  ∃ entries puts outs, R.Phases s entries ∧ R.Accounted s entries puts outs

theorem orderly_start (R : Race ι) : R.Orderly (start R.prog none) := by
  refine ⟨[], [], [], ⟨⟨Nat.zero_le _, .inl ⟨rfl, rfl⟩⟩, fun i => .inl rfl⟩, .nil _, .nil, .nil,
    by simp, by simp, ?_⟩
  intro i e h
  simp [start, prog, Request.prog_eq, given] at h

/-! ## The steps of an undisturbed run -/

variable [DecidableEq ι]

/-- What a step of call `i` does, and the entries that it leaves. -/
inductive Move (R : Race ι) (s s' : State ι) (entries : List ResumptionEntry) (i : ι) :
    List ResumptionEntry → Prop
  | idle (r : Returned) (hthread : s.threads i = .ret r) (hs' : s' = s) :
      Move R s s' entries i entries
  | load (hthread : s.threads i = R.prog i)
      (hs' : s' = ⟨Function.update s.threads i (R.loaded i entries), s.shared,
        s.trace ++ [(i, .read)]⟩) :
      Move R s s' entries i entries
  | replace (given : Option ResumptionEntry) (left : List ResumptionEntry) (bytes : Bytes)
      (hthread : (s.threads i).result = none)
      (heffect : (R.calls i).effect entries = some (given, left))
      (hfile : R.device.entries_file R.P (R.random i) left = .ok bytes)
      (hs' : s' = ⟨Function.update s.threads i (.ret ((R.calls i).done given)), some bytes,
        s.trace ++ [(i, .replace bytes)]⟩) :
      Move R s s' entries i left

/-- In an undisturbed run a call replaces the file that it read. -/
theorem Phases.move (h : R.Phases s entries) (hR : R.Steady)
    (hu : Undisturbed (step reply s i).trace) :
    ∃ left, R.Move s (step reply s i) entries i left := by
  rcases h.phase i with hstart | ⟨old, hthread, hcurrent⟩ | ⟨given, hdone⟩
  · have hask := hstart
    rw [prog, Request.prog_eq] at hask
    refine ⟨entries, .load hstart ?_⟩
    rw [step_of_ask hask]
    simp only [reply, Luck.answer, hR.entries_of h.holds]
    rfl
  · unfold loaded at hthread
    rcases heffect : (R.calls i).effect old with _ | ⟨given, left⟩
    · rw [heffect] at hthread
      exact ⟨entries, .idle _ hthread (step_of_ret hthread)⟩
    · rw [heffect] at hthread
      simp only [Request.finish] at hthread
      cases hfile : R.device.entries_file R.P (R.random i) left with
      | error e =>
        rw [hfile] at hthread
        exact ⟨entries, .idle _ hthread (step_of_ret hthread)⟩
      | ok bytes =>
        rw [hfile] at hthread
        rw [step_of_ask hthread] at hu ⊢
        rcases hcurrent with ⟨rfl, -⟩ | ⟨j, bytes', hij, hsub⟩
        · exact ⟨left, .replace given left bytes (by rw [hthread]; rfl) heffect hfile rfl⟩
        · exact (hu i j bytes' bytes hij (hsub.append (.refl [(i, FileOp.replace bytes)]))).elim
  · exact ⟨entries, .idle _ hdone (step_of_ret hdone)⟩

theorem Loaded.extend {old : List ResumptionEntry} {k : ι} {p : Prog FileOp FileOp.Answer Returned}
    {file : Option Bytes} {x : ι × FileOp} (h : R.Loaded s entries i old) (hne : i ≠ k) :
    R.Loaded ⟨Function.update s.threads k p, file, s.trace ++ [x]⟩ entries i old := by
  refine ⟨(Function.update_of_ne hne _ _).trans h.thread, ?_⟩
  rcases h.current with ⟨hold, hread⟩ | ⟨j, bytes, hij, hsub⟩
  · exact .inl ⟨hold, List.mem_append_left _ hread⟩
  · exact .inr ⟨j, bytes, hij, hsub.trans (List.sublist_append_left _ _)⟩

theorem Loaded.replaced {old : List ResumptionEntry} {k : ι}
    {p : Prog FileOp FileOp.Answer Returned} {file : Option Bytes} {bytes : Bytes}
    (h : R.Loaded s entries i old) (hne : i ≠ k) :
    R.Loaded ⟨Function.update s.threads k p, file, s.trace ++ [(k, .replace bytes)]⟩
      left i old := by
  refine ⟨(Function.update_of_ne hne _ _).trans h.thread, .inr ?_⟩
  rcases h.current with ⟨-, hread⟩ | ⟨j, bytes', hij, hsub⟩
  · exact ⟨k, bytes, hne, (List.singleton_sublist.2 hread).append (.refl [_])⟩
  · exact ⟨j, bytes', hij, hsub.trans (List.sublist_append_left _ _)⟩

theorem Phases.step (h : R.Phases s entries) (hmove : R.Move s s' entries i left) :
    R.Phases s' left := by
  cases hmove with
  | idle r hthread hs' => exact hs' ▸ h
  | load hthread hs' =>
    subst hs'
    refine ⟨h.holds, fun k => ?_⟩
    by_cases hk : k = i
    · subst hk
      exact .inr (.inl ⟨entries, by simp, .inl ⟨rfl, by simp⟩⟩)
    · rcases h.phase k with hstart | ⟨old, hold⟩ | ⟨given, hdone⟩
      · exact .inl (by simp [hk, hstart])
      · exact .inr (.inl ⟨old, hold.extend hk⟩)
      · exact .inr (.inr ⟨given, by simp [hk, hdone]⟩)
  | replace given left bytes hthread heffect hfile hs' =>
    subst hs'
    refine ⟨⟨Request.effect_few heffect h.holds.few, .inr ⟨R.random i, bytes, rfl, hfile⟩⟩,
      fun k => ?_⟩
    by_cases hk : k = i
    · subst hk
      exact .inr (.inr ⟨given, by simp⟩)
    · rcases h.phase k with hstart | ⟨old, hold⟩ | ⟨given', hdone⟩
      · exact .inl (by simp [hk, hstart])
      · exact .inr (.inl ⟨old, hold.replaced hk⟩)
      · exact .inr (.inr ⟨given', by simp [hk, hdone]⟩)

theorem Accounted.step (h : R.Accounted s entries puts outs) (hmove : R.Move s s' entries i left) :
    ∃ puts' outs', R.Accounted s' left puts' outs' := by
  cases hmove with
  | idle r hthread hs' => exact ⟨puts, outs, hs' ▸ h⟩
  | load hthread hs' =>
    have hnone : (s.threads i).result = none := by
      rw [hthread, prog, Request.prog_eq]
      rfl
    subst hs'
    refine ⟨puts, outs, h.explained, h.puts_nodup, h.outs_nodup, ?_, ?_, ?_⟩
    · intro p hp
      simpa [ne_of_result hnone (h.stored p hp).1] using h.stored p hp
    · intro o ho
      simpa [ne_of_result hnone (h.handed o ho)] using h.handed o ho
    · intro k e hk
      by_cases hki : k = i
      · subst hki
        simp [given_loaded] at hk
      · exact h.returned k e (by simpa [hki] using hk)
  | replace given' left bytes hnone heffect hfile hs' =>
    subst hs'
    have hputs : ∀ p ∈ puts, p.1 ≠ i := fun p hp => ne_of_result hnone (h.stored p hp).1
    have houts : ∀ o ∈ outs, o.1 ≠ i := fun o ho => ne_of_result hnone (h.handed o ho)
    refine ⟨puts ++ (R.calls i).put.toList.map fun e => (i, e),
      outs ++ given'.toList.map fun e => (i, e), ?_, nodup_append_toList h.puts_nodup hputs,
      nodup_append_toList h.outs_nodup houts, ?_, ?_, ?_⟩
    · refine h.explained.step ?_ fun _ _ _ _ => trivial
      simpa [Function.comp_def] using Request.effect_subperm heffect
    · intro p hp
      rcases List.mem_append.1 hp with hp | hp
      · simpa [hputs p hp] using h.stored p hp
      · obtain ⟨e, he, rfl⟩ := List.mem_map.1 hp
        simpa using he
    · intro o ho
      rcases List.mem_append.1 ho with ho | ho
      · simpa [houts o ho] using h.handed o ho
      · obtain ⟨e, he, rfl⟩ := List.mem_map.1 ho
        simp
    · intro k e hk
      by_cases hki : k = i
      · subst hki
        have he : given' = some e := by
          simpa [given, Request.entry_done heffect] using hk
        simp [he]
      · exact List.mem_append_left _ (h.returned k e (by simpa [hki] using hk))

theorem orderly_run (hR : R.Steady) {schedule : List ι} (hu : Undisturbed (R.run schedule).trace) :
    R.Orderly (R.run schedule) := by
  refine run_inv Undisturbed.of_prefix ?_ R.orderly_start hu
  rintro s i - ⟨entries, puts, outs, hphases, haccounted⟩ hstep
  obtain ⟨left, hmove⟩ := hphases.move hR hstep
  obtain ⟨puts', outs', haccounted'⟩ := haccounted.step hmove
  exact ⟨left, puts', outs', hphases.step hmove, haccounted'⟩

/-! ## An entry that waits for the call that takes it -/

/-- Call `i` stores the entry and call `j` asks for it. No other call of the
schedule has its id, it does not expire, and there is room. -/
structure Awaited (R : Race ι) (schedule : List ι) (i j : ι) (entry : ResumptionEntry) : Prop where
  stores : ∃ now, R.calls i = .store_resumption entry now
  takes : ∃ now, R.calls j = .take_resumption entry.resumption_id entry.peer_device_id
    entry.suite_id entry.protocol_major now
  alone : ∀ k ∈ schedule, (R.calls k).resumption_id = entry.resumption_id → k = i ∨ k = j
  unexpired : ∀ k ∈ schedule, (R.calls k).now < entry.clamped.expires_at
  room : (schedule.dedup.filter fun k => (R.calls k).put.isSome).length <
    MAX_RESUMPTION_ENTRIES.toNat

theorem run_append (R : Race ι) (l l' : List ι) :
    R.run (l ++ l') = interleaving.run reply (R.run l) l' := interleaving.run_append _ l l'

theorem run_concat (R : Race ι) (l : List ι) (k : ι) :
    R.run (l ++ [k]) = step reply (R.run l) k := R.run_append l [k]

/-- A call with a result had a step. -/
theorem mem_of_result {l : List ι} {k : ι} (h : ((R.run l).threads k).result ≠ none) : k ∈ l := by
  by_contra hk
  rw [run, run_threads_of_notMem _ hk] at h
  exact h (by simp [start, prog, Request.prog_eq])

namespace Awaited

variable {schedule l : List ι} {j : ι} {entry : ResumptionEntry}

theorem length_lt (h : R.Awaited schedule i j entry) (hl : l ⊆ schedule)
    (haccounted : R.Accounted (R.run l) entries puts outs) :
    entries.length < MAX_RESUMPTION_ENTRIES.toNat := by
  refine Nat.lt_of_le_of_lt haccounted.explained.length_bag_le (Nat.lt_of_le_of_lt ?_ h.room)
  rw [← List.length_map (f := Prod.fst)]
  refine (haccounted.puts_nodup.subperm fun k hk => ?_).length_le
  obtain ⟨p, hp, rfl⟩ := List.mem_map.1 hk
  obtain ⟨hresult, hput⟩ := haccounted.stored p hp
  refine List.mem_filter.2 ⟨List.mem_dedup.2 (hl (mem_of_result hresult)), ?_⟩
  rw [hput]
  rfl

theorem eq_of_id (h : R.Awaited schedule i j entry) (hl : l ⊆ schedule)
    (haccounted : R.Accounted (R.run l) entries puts outs) {e : ResumptionEntry} (he : e ∈ entries)
    (hid : e.resumption_id = entry.resumption_id) : e = entry.clamped := by
  obtain ⟨k, hk⟩ := haccounted.explained.put_of_mem_bag he
  obtain ⟨hresult, hput⟩ := haccounted.stored (k, e) hk
  obtain ⟨now, hstores⟩ := h.stores
  obtain ⟨now', htakes⟩ := h.takes
  have hsame : (R.calls k).resumption_id = entry.resumption_id := by
    cases hcall : R.calls k with
    | store_resumption entry' now =>
      simp only [hcall, Request.put, Option.some.injEq] at hput
      rw [← hput] at hid
      exact hid
    | take_resumption => simp [hcall, Request.put] at hput
  rcases h.alone k (hl (mem_of_result hresult)) hsame with rfl | rfl
  · simpa [hstores, Request.put] using hput.symm
  · simp [htakes, Request.put] at hput

/-- A call that stores is not done when it has only loaded the entries. -/
theorem loaded_ne (h : R.Awaited schedule i j entry) (old : List ResumptionEntry) :
    (R.loaded i old).result ≠ some (.stored (.ok ())) := by
  obtain ⟨now, hstores⟩ := h.stores
  simp only [loaded, hstores, Request.effect, Request.finish]
  cases R.device.entries_file R.P (R.random i) (entries_with old entry now) with
  | error e => simp [Request.failed]
  | ok bytes => simp

/-- From the time it is stored until it is asked for, the entry is in the
file. -/
theorem mem_entries (h : R.Awaited schedule i j entry) (hR : R.Steady) (hl : l <+: schedule)
    (hu : Undisturbed (R.run l).trace) (hj : j ∉ l)
    (hi : ((R.run l).threads i).result = some (.stored (.ok ())))
    (hentries : R.device.Holds R.P (R.run l).shared entries) : entry.clamped ∈ entries := by
  induction l using List.reverseRecOn generalizing entries with
  | nil => simp [run, interleaving.run, start, prog, Request.prog_eq] at hi
  | append_singleton l k ih =>
    have hprefix : l <+: schedule := (List.prefix_append l [k]).trans hl
    have hk : k ∈ schedule := hl.subset (by simp)
    rw [List.mem_append, not_or, List.mem_singleton] at hj
    rw [run_concat] at hu hi hentries
    have hu' : Undisturbed (R.run l).trace := hu.of_prefix (trace_prefix_step _ k)
    obtain ⟨old, puts, outs, hphases, haccounted⟩ := orderly_run hR hu'
    obtain ⟨left, hmove⟩ := hphases.move hR hu
    have hholds := (hphases.step hmove).holds
    obtain rfl : left = entries :=
      Except.ok.inj ((hR.entries_of hholds).symm.trans (hR.entries_of hentries))
    have hroom := h.length_lt hprefix.subset haccounted
    by_cases hki : i = k
    · subst hki
      cases hmove with
      | idle r hthread hs' =>
        rw [hs'] at hi
        exact ih hprefix hu' hj.1 hi hphases.holds
      | load hthread hs' =>
        simp only [hs', Function.update_self] at hi
        exact (h.loaded_ne _ hi).elim
      | replace given left bytes hthread heffect hfile hs' =>
        obtain ⟨now, hstores⟩ := h.stores
        rw [hstores] at heffect
        obtain ⟨-, rfl⟩ := Request.effect_store_eq_some.1 heffect
        exact (Request.mem_entries_with hroom).2 (.inr rfl)
    · rw [step_threads_of_ne _ hki] at hi
      have hmem := ih hprefix hu' hj.1 hi hphases.holds
      cases hmove with
      | idle r hthread hs' => exact hmem
      | load hthread hs' => exact hmem
      | replace given left bytes hthread heffect hfile hs' =>
        refine Request.effect_keeps heffect hroom hmem ?_ (h.unexpired k hk)
        intro hid
        rcases h.alone k hk hid with rfl | rfl
        · exact hki rfl
        · exact hj.2 rfl

/-- Once it has read the file, the call that takes the entry returns it. -/
theorem taken (h : R.Awaited schedule i j entry) (hR : R.Steady) {before later : List ι}
    (hschedule : schedule = before ++ later) (hu : Undisturbed (R.run schedule).trace)
    (hi : ((R.run before).threads i).result = some (.stored (.ok ()))) (hj : j ∉ before)
    (hcount : 2 ≤ later.count j) :
    ((R.run schedule).threads j).result = some (.took (.ok (some entry.clamped))) := by
  have hmem : j ∈ later := List.count_pos_iff.1 (by omega)
  obtain ⟨l₁, l₂, rfl, hnot⟩ := List.eq_append_cons_of_mem hmem
  have hl₂ : j ∈ l₂ := by
    rw [List.count_append, List.count_cons_self, List.count_eq_zero_of_not_mem hnot] at hcount
    exact List.count_pos_iff.1 (by omega)
  -- The state in which it reads the file.
  have hprefix : before ++ l₁ <+: schedule := ⟨j :: l₂, by rw [hschedule, List.append_assoc]⟩
  have hj' : j ∉ before ++ l₁ := by simp [hj, hnot]
  have hrun : R.run schedule = interleaving.run reply (R.run (before ++ l₁)) (j :: l₂) := by
    rw [hschedule, ← List.append_assoc, run_append]
  have hu' : Undisturbed (R.run (before ++ l₁)).trace := by
    rw [hrun] at hu
    exact hu.of_prefix (trace_prefix_run _ _)
  have hi' : ((R.run (before ++ l₁)).threads i).result = some (.stored (.ok ())) := by
    rw [run_append, run_threads_of_ret (Prog.eq_ret_of_result hi)]
    rfl
  obtain ⟨entries, puts, outs, hphases, haccounted⟩ := orderly_run hR hu'
  have hentry := h.mem_entries hR hprefix hu' hj' hi' hphases.holds
  obtain ⟨now, htakes⟩ := h.takes
  have hnow : now < entry.clamped.expires_at := by
    have hexpires := h.unexpired j (hschedule ▸ by simp)
    rwa [htakes] at hexpires
  obtain ⟨left, heffect⟩ := Request.effect_of_mem hentry
    (fun e he hid => h.eq_of_id hprefix.subset haccounted he hid) hnow
  have heffect' : (R.calls j).effect entries = some (some entry.clamped, left) := by
    rw [htakes]
    exact heffect
  obtain ⟨bytes, k, hloaded, hlast⟩ :=
    hR.loaded_eq heffect' (Request.effect_few heffect' hphases.holds.few)
  have hthread : (step reply (R.run (before ++ l₁)) j).threads j = .ask (.replace bytes) k := by
    have hstart : (R.run (before ++ l₁)).threads j = R.prog j := run_threads_of_notMem _ hj'
    rw [prog, Request.prog_eq] at hstart
    rw [step_of_ask hstart, ← hloaded]
    simp only [reply, Luck.answer, hR.entries_of hphases.holds, Function.update_self]
    rfl
  rw [hrun, run_cons, run_threads_of_last hthread hlast hl₂, htakes]
  rfl

end Awaited

/-- The call has returned the entry. -/
def HandsOut (R : Race ι) (schedule : List ι) (i : ι) (e : ResumptionEntry) : Prop :=
  ((R.run schedule).threads i).result = some (.took (.ok (some e)))

/-- If no call replaces the file between the read and the replacement of
another: no two calls return what one call stored. And an entry whose call was
done before the one that takes it began is returned by that one, when it has had
its two steps. -/
theorem an_entry_is_taken_once_if_no_call_is_disturbed (R : Race ι) (hR : R.Steady)
    (schedule : List ι) (hu : Undisturbed (R.run schedule).trace) :
    (∃ origin : ι → ι,
      (∀ i e, R.HandsOut schedule i e → ∃ entry now,
        R.calls (origin i) = .store_resumption entry now ∧ e = entry.clamped) ∧
      ∀ i j e e', R.HandsOut schedule i e → R.HandsOut schedule j e' → origin i = origin j →
        i = j) ∧
    ∀ before later i j entry, schedule = before ++ later → R.Awaited schedule i j entry →
      ((R.run before).threads i).result = some (.stored (.ok ())) → j ∉ before →
      2 ≤ later.count j → R.HandsOut schedule j entry.clamped := by
  refine ⟨?_, fun before later i j entry hschedule h hi hj hcount =>
    h.taken hR hschedule hu hi hj hcount⟩
  obtain ⟨entries, puts, outs, -, haccounted⟩ := orderly_run hR hu
  obtain ⟨origin, hcame, honce⟩ :=
    haccounted.explained.origin haccounted.puts_nodup haccounted.outs_nodup
  have hout : ∀ {i e}, R.HandsOut schedule i e → (i, e) ∈ outs := by
    intro i e h
    refine haccounted.returned i e ?_
    rw [h]
    rfl
  refine ⟨origin, ?_, fun i j e e' hi hj => honce (i, e) (hout hi) (j, e') (hout hj)⟩
  intro i e hi
  obtain ⟨-, hput⟩ := haccounted.stored _ (hcame (i, e) (hout hi)).1
  cases hcall : R.calls (origin i) with
  | store_resumption entry now =>
    simp only [hcall, Request.put, Option.some.injEq] at hput
    exact ⟨entry, now, rfl, hput.symm⟩
  | take_resumption => simp [hcall, Request.put] at hput

/-- Calls that run one after the other. -/
theorem undisturbed_of_pairwise {ι : Type} [PartialOrder ι] {trace : List (ι × FileOp)}
    (h : trace.Pairwise fun a b => a.1 ≤ b.1) : Undisturbed trace := by
  intro i j bytes bytes' hij hsub
  have hpairs := h.sublist hsub
  simp only [List.pairwise_cons, List.mem_cons, List.not_mem_nil, or_false, forall_eq_or_imp,
    forall_eq] at hpairs
  exact hij (le_antisymm hpairs.1.1 hpairs.2.1)

/-- One call stores the sample entry, and two ask for it. -/
def sampleRace : Race (Fin 3) :=
  ⟨sample, sampleStore, ![.store_resumption sampleEntry 1000, sampleTake 2000, sampleTake 3000],
    fun _ => .replicate 24 0⟩

theorem sampleRace_steady : sampleRace.Steady :=
  ⟨PlaintextSealer.seals, PlaintextSealer.opens, by decide⟩

theorem sampleRace_awaited : sampleRace.Awaited [0, 0, 1, 1] 0 1 sampleEntry := by
  refine ⟨⟨1000, rfl⟩, ⟨2000, rfl⟩, ?_, by decide +kernel, by decide +kernel⟩
  intro k hk _
  simpa using hk

theorem one_call_after_the_other_takes_the_entry_once :
    sampleRace.HandsOut [0, 0, 1, 1] 1 sampleEntry.clamped ∧
      ∀ i e, sampleRace.HandsOut [0, 0, 1, 1, 2, 2] i e → i = 1 := by
  have hpart := (an_entry_is_taken_once_if_no_call_is_disturbed sampleRace sampleRace_steady
    [0, 0, 1, 1] (undisturbed_of_pairwise (by decide +kernel))).2 [0, 0] [1, 1] 0 1 sampleEntry rfl
    sampleRace_awaited (by decide +kernel) (by decide) (by decide)
  have hone : sampleRace.HandsOut [0, 0, 1, 1, 2, 2] 1 sampleEntry.clamped := by
    unfold HandsOut
    decide +kernel
  obtain ⟨⟨origin, hcame, honce⟩, -⟩ := an_entry_is_taken_once_if_no_call_is_disturbed sampleRace
    sampleRace_steady [0, 0, 1, 1, 2, 2] (undisturbed_of_pairwise (by decide +kernel))
  have hstored : ∀ {k entry now}, sampleRace.calls k = .store_resumption entry now → k = 0 := by
    rintro ⟨_ | _ | _ | n, hn⟩ entry now h
    · rfl
    · cases h
    · cases h
    · omega
  obtain ⟨_, _, hput, -⟩ := hcame 1 _ hone
  refine ⟨hpart, fun i e hi => ?_⟩
  obtain ⟨_, _, hput', -⟩ := hcame i e hi
  exact honce i 1 e _ hi hone ((hstored hput').trans (hstored hput).symm)

/-- Two calls store entries with different ids, and one asks for the first. -/
def sampleStores : Race (Fin 3) :=
  ⟨sample, sampleStore, ![.store_resumption sampleEntry 1000,
    .store_resumption { sampleEntry with resumption_id := .replicate 16 9 } 1000, sampleTake 2000],
    fun _ => .replicate 24 0⟩

/-- Two calls that read before either of them replaces the file both return the
entry. And of two calls that store entries in this way both succeed, but the
entry of the first is lost. -/
theorem calls_at_the_same_time_take_an_entry_twice_and_lose_one :
    sampleRace.Steady ∧
      ((sampleRace.run [0, 0]).threads 0).result = some (.stored (.ok ())) ∧
      sampleRace.HandsOut [0, 0, 1, 2, 1, 2] 1 sampleEntry.clamped ∧
      sampleRace.HandsOut [0, 0, 1, 2, 1, 2] 2 sampleEntry.clamped ∧
      ((sampleStores.run [0, 1, 0, 1]).threads 0).result = some (.stored (.ok ())) ∧
      ((sampleStores.run [0, 1, 0, 1, 2, 2]).threads 2).result = some (.took (.ok none)) := by
  refine ⟨sampleRace_steady, ?_⟩
  unfold HandsOut
  decide +kernel

end Race

end rtp2_core.store
