-- Which resumption secrets stay in the file over any sequence of calls, and why
-- one goes: it has expired, its id was stored again or taken, or there were too
-- many and it was the oldest.
import Reyta.ResumptionStore

open byte_string call_machine interleaving oldest_out

namespace rtp2_core.store

open crypto

/-! ## What the calls leave -/

/-- What the file has after every call. -/
structure Retained (entries : List ResumptionEntry) : Prop where
  few : entries.length ≤ MAX_RESUMPTION_ENTRIES.toNat
  distinct : (entries.map ResumptionEntry.resumption_id).Nodup
  lifetime : ∀ e ∈ entries, e.expires_at ≤ saturating_add e.created_at RESUMPTION_MAX_LIFETIME_SECS

/-- What a store leaves of the entries that it finds. -/
structure Stored (entries : List ResumptionEntry) (entry : ResumptionEntry) (now : UInt64)
    (left : List ResumptionEntry) : Prop where
  sorted : left.Pairwise Older
  /-- What is gone had expired, had the id, or was the oldest of 65. -/
  gone : ∀ e ∈ entries, e ∉ left → e.expires_at ≤ now ∨ e.resumption_id = entry.resumption_id ∨
    (others entries entry now ++ [entry.clamped]).length = 65 ∧
      ∀ b ∈ others entries entry now ++ [entry.clamped], e.created_at ≤ b.created_at
  /-- The new entry is gone if 64 others are strictly younger. -/
  absent : entry.clamped ∉ left ↔ (others entries entry now).length = 64 ∧
    ∀ b ∈ others entries entry now, entry.created_at < b.created_at
  came : ∀ e ∈ left, e ∈ entries ∨ e = entry.clamped

/-- What a take leaves of the entries that it finds. -/
structure Taken (entries : List ResumptionEntry) (resumption_id : Arr 16) (now : UInt64)
    (left : List ResumptionEntry) : Prop where
  /-- What is gone had expired or had the id. -/
  gone : ∀ e ∈ entries, e ∉ left → e.expires_at ≤ now ∨ e.resumption_id = resumption_id
  came : ∀ e ∈ left, e ∈ entries

def Request.Leaves (entries left : List ResumptionEntry) : Request → Prop
  | .store_resumption entry now => Stored entries entry now left
  | .take_resumption resumption_id _ _ _ now => Taken entries resumption_id now left

section Entries

variable {entries left : List ResumptionEntry} {entry candidate : ResumptionEntry}
  {resumption_id : Arr 16} {now : UInt64}

theorem Retained.subperm (h : Retained entries) (hsub : left.Subperm entries) : Retained left :=
  ⟨Nat.le_trans hsub.length_le h.few, nodup_map_of_subperm hsub h.distinct,
    fun e he => h.lifetime e (hsub.subset he)⟩

/-- The ids are still distinct with the new entry. -/
theorem Retained.others_distinct (h : Retained entries) (entry : ResumptionEntry) (now : UInt64) :
    ((others entries entry now ++ [entry.clamped]).map ResumptionEntry.resumption_id).Nodup := by
  rw [List.map_append, List.nodup_append]
  refine ⟨(List.filter_sublist.map _).nodup h.distinct, List.nodup_singleton _, ?_⟩
  intro id hid id' hid'
  obtain ⟨e, he, rfl⟩ := List.mem_map.1 hid
  obtain rfl := List.mem_singleton.1 hid'
  exact (of_decide_eq_true (List.mem_filter.1 he).2).1

theorem clamped_lifetime (entry : ResumptionEntry) : entry.clamped.expires_at ≤
    saturating_add entry.clamped.created_at RESUMPTION_MAX_LIFETIME_SECS := by
  rw [UInt64.le_iff_toNat_le, ResumptionEntry.clamped, UInt64.toNat_min]
  exact Nat.min_le_right _ _

theorem Retained.with_entry (h : Retained entries) (entry : ResumptionEntry) (now : UInt64) :
    Retained (entries_with entries entry now) := by
  rw [entries_with_eq]
  have hsub : (keep_last Older MAX_RESUMPTION_ENTRIES.toNat
      (others entries entry now ++ [entry.clamped])).Subperm _ := keep_last_subperm _ _
  refine ⟨length_keep_last_le _ _, nodup_map_of_subperm hsub (h.others_distinct entry now), ?_⟩
  intro e he
  rcases List.mem_append.1 (hsub.subset he) with he | he
  · exact h.lifetime e (List.mem_filter.1 he).1
  · rw [List.mem_singleton.1 he]
    exact clamped_lifetime entry

theorem Retained.stored (h : Retained entries) (entry : ResumptionEntry) (now : UInt64) :
    Stored entries entry now (entries_with entries entry now) := by
  have hothers : (others entries entry now).length ≤ MAX_RESUMPTION_ENTRIES.toNat :=
    Nat.le_trans (List.length_filter_le _ _) h.few
  have hlen : (others entries entry now ++ [entry.clamped]).length ≤
      MAX_RESUMPTION_ENTRIES.toNat + 1 := by
    rw [List.length_append, List.length_singleton]
    omega
  rw [entries_with_eq]
  refine ⟨keep_last_pairwise _ _, ?_, ?_, ?_⟩
  · intro e he hnot
    by_cases hexpired : e.expires_at ≤ now
    · exact .inl hexpired
    · by_cases hid : e.resumption_id = entry.resumption_id
      · exact .inr (.inl hid)
      · have hkept : e ∈ others entries entry now :=
          List.mem_filter.2 ⟨he, decide_eq_true ⟨hid, UInt64.not_le.1 hexpired⟩⟩
        exact .inr (.inr (first_of_not_mem hlen (List.mem_append_left _ hkept) hnot))
  · rw [added_not_mem_iff hothers (h.others_distinct entry now).of_map]
    simp only [UInt64.not_le]
    rfl
  · intro e he
    rcases List.mem_append.1 ((keep_last_subperm _ _).subset he) with he | he
    · exact .inl (List.mem_filter.1 he).1
    · exact .inr (List.mem_singleton.1 he)

theorem entries_without_taken
    (h : entries_without entries resumption_id now = some (candidate, left)) :
    Taken entries resumption_id now left := by
  obtain ⟨hid, hsub⟩ := Request.entries_without_eq_some h
  refine ⟨?_, fun e he => hsub.subset (List.mem_cons_of_mem _ he)⟩
  unfold entries_without at h
  simp only [Option.bind_eq_bind, Option.bind_eq_some_iff, Option.pure_def, Option.some.injEq,
    Prod.mk.injEq] at h
  obtain ⟨index, hindex, _, hcandidate, rfl, rfl⟩ := h
  obtain ⟨hlt, -, -⟩ := List.findIdx?_eq_some_iff_getElem.1 hindex
  obtain ⟨_, hget⟩ := List.getElem?_eq_some_iff.1 hcandidate
  intro e he hnot
  by_cases hexpired : e.expires_at ≤ now
  · exact .inl hexpired
  · right
    rcases List.mem_cons.1 ((List.getElem_cons_eraseIdx_perm hlt).mem_iff.2 he) with he | he
    · rw [he, hget, hid]
    · exact absurd (List.mem_filter.2 ⟨he, decide_eq_true (UInt64.not_le.1 hexpired)⟩) hnot

/-- What a call does to the entries that it finds. -/
theorem Request.effect_leaves {r : Request} (h : Retained entries) :
    Retained (((r.effect entries).map Prod.snd).getD entries) ∧
      r.Leaves entries (((r.effect entries).map Prod.snd).getD entries) := by
  cases r with
  | store_resumption entry now => exact ⟨h.with_entry entry now, h.stored entry now⟩
  | take_resumption resumption_id peer_device_id suite_id protocol_major now =>
    rcases hwithout : entries_without entries resumption_id now with _ | ⟨candidate, left⟩
    · simp only [effect, hwithout, Option.map_none, Option.getD_none]
      exact ⟨h, fun e he hnot => absurd he hnot, fun e he => he⟩
    · simp only [effect, hwithout, Option.map_some, Option.getD_some]
      have hsub := (Request.entries_without_eq_some hwithout).2
      exact ⟨h.subperm ((List.sublist_cons_self _ _).subperm.trans hsub),
        entries_without_taken hwithout⟩

end Entries

/-! ## Sequences of calls -/

/-- The call runs to its end and the caller gets the result. -/
def Request.served (r : Request) (random : Arr 24) : Call := .request r random [.fine, .fine] false

def Returned.succeeded : Returned → Prop
  | .stored r => r = .ok ()
  | .took r => ∃ given, r = .ok given

/-- What the file decodes to, whatever protection the store insists on. -/
def DeviceStore.decoded (P : Primitives) (store : DeviceStore) (file : Option Bytes) :
    Except StoreError (List ResumptionEntry) :=
  ({ store with minimum_protection := .Plaintext } : DeviceStore).entries_of P (.of file)

section Calls

variable {P : Primitives} {store : DeviceStore} {file : Option Bytes}
  {entries : List ResumptionEntry}

theorem DeviceStore.Holds.decoded (h : store.Holds P file entries)
    (hopens : store.sealer.Opens) : store.decoded P file = .ok entries := by
  have h' : ({ store with minimum_protection := .Plaintext } : DeviceStore).Holds P file entries :=
    ⟨h.few, h.written⟩
  rcases h'.entries_of hopens with hload | ⟨hlevel, -⟩
  · exact hload
  · have hlowest : ∀ p : Protection, ¬ p < .Plaintext := by
      intro p
      cases p <;> decide
    exact absurd hlevel (hlowest _)

theorem not_succeeded_failed (r : Request) (e : StoreError) : ¬ (r.failed e).succeeded := by
  cases r with
  | store_resumption => simp [Request.failed, Returned.succeeded]
  | take_resumption => simp [Request.failed, Returned.succeeded]

/-- A call that succeeds has done to the file what it does to the entries. -/
theorem Request.served_holds {r : Request} {random : Arr 24} {returned : Returned}
    {file' : Option Bytes} (hopens : store.sealer.Opens) (h : store.Holds P file entries)
    (hrun : attempt Luck.answer [.fine, .fine] (r.prog P store random) file =
      (some returned, file'))
    (hok : returned.succeeded) :
    store.Holds P file' (((r.effect entries).map Prod.snd).getD entries) := by
  rw [Request.prog_eq] at hrun
  simp only [attempt, Luck.answer] at hrun
  rcases h.entries_of hopens with hload | ⟨-, hload⟩
  · rw [hload, Request.rest] at hrun
    rcases heffect : r.effect entries with _ | ⟨given, left⟩
    · rw [heffect, Request.finish, attempt_ret] at hrun
      obtain ⟨-, rfl⟩ := Prod.mk.inj hrun
      exact h
    · rw [heffect] at hrun
      simp only [Request.finish] at hrun
      cases hfile : store.entries_file P random left with
      | error e =>
        rw [hfile, attempt_ret] at hrun
        rw [← Option.some.inj (Prod.mk.inj hrun).1] at hok
        exact absurd hok (not_succeeded_failed r e)
      | ok bytes =>
        rw [hfile] at hrun
        simp only [attempt, Luck.answer] at hrun
        obtain ⟨-, rfl⟩ := Prod.mk.inj hrun
        exact ⟨Request.effect_few heffect h.few, .inr ⟨random, bytes, rfl, hfile⟩⟩
  · rw [hload, Request.rest, attempt_ret] at hrun
    rw [← Option.some.inj (Prod.mk.inj hrun).1] at hok
    exact absurd hok (not_succeeded_failed r _)

/-- After calls that all succeeded. -/
theorem served_retained (hopens : store.sealer.Opens) (calls : List (Request × Arr 24))
    (hok : ∀ ev ∈ events (Call.run P) ⟨store, none⟩ (calls.map fun c => c.1.served c.2),
      ∃ returned : Returned, ev = some returned ∧ returned.succeeded) :
    ∃ file entries, after (Call.run P) ⟨store, none⟩ (calls.map fun c => c.1.served c.2) =
        ⟨store, file⟩ ∧ store.Holds P file entries ∧ Retained entries := by
  induction calls using List.reverseRecOn with
  | nil =>
    refine ⟨none, [], rfl, ⟨Nat.zero_le _, .inl ⟨rfl, rfl⟩⟩, Nat.zero_le _, .nil, ?_⟩
    intro e he
    cases he
  | append_singleton calls c ih =>
    rw [List.map_append, List.map_singleton] at hok ⊢
    rw [events_append] at hok
    obtain ⟨file, entries, hafter, hholds, hretained⟩ := ih fun ev hev =>
      hok ev (List.mem_append_left _ hev)
    rw [hafter] at hok
    rw [after_append, hafter]
    obtain ⟨returned, hreturned, hsucceeded⟩ := hok _ (List.mem_append_right _ List.mem_cons_self)
    refine ⟨_, _, rfl, ?_, (Request.effect_leaves (r := c.1) hretained).1⟩
    exact Request.served_holds hopens hholds (Prod.ext hreturned rfl) hsucceeded

end Calls

/-- Over any sequence of calls from no file, as long as the writes succeed: the
file decodes to at most 64 entries with distinct ids, each with a lifetime of at
most a day, and a store leaves them sorted. An entry goes only because it has
expired, because its id is stored again or taken, or because it is the oldest of
65. A new entry is absent afterwards exactly if the 64 others are younger. -/
theorem an_entry_goes_only_for_a_reason (P : Primitives) (store : DeviceStore)
    (hopens : store.sealer.Opens) (calls : List (Request × Arr 24)) (r : Request)
    (random : Arr 24)
    (hok : ∀ ev ∈ events (Call.run P) ⟨store, none⟩
      ((calls ++ [(r, random)]).map fun c => c.1.served c.2),
      ∃ returned : Returned, ev = some returned ∧ returned.succeeded) :
    ∃ entries left,
      store.decoded P (after (Call.run P) ⟨store, none⟩
        (calls.map fun c => c.1.served c.2)).file = .ok entries ∧
      store.decoded P (after (Call.run P) ⟨store, none⟩
        ((calls ++ [(r, random)]).map fun c => c.1.served c.2)).file = .ok left ∧
      Retained entries ∧ Retained left ∧ r.Leaves entries left := by
  rw [List.map_append, List.map_singleton] at hok ⊢
  rw [events_append] at hok
  obtain ⟨file, entries, hafter, hholds, hretained⟩ := served_retained hopens calls fun ev hev =>
    hok ev (List.mem_append_left _ hev)
  rw [hafter] at hok
  rw [after_append, hafter]
  obtain ⟨returned, hreturned, hsucceeded⟩ := hok _ (List.mem_append_right _ List.mem_cons_self)
  have hleft := Request.served_holds hopens hholds (Prod.ext hreturned rfl) hsucceeded
  obtain ⟨hkept, hleaves⟩ := Request.effect_leaves (r := r) hretained
  exact ⟨entries, _, hholds.decoded hopens, hleft.decoded hopens, hretained, hkept, hleaves⟩

/-- An entry is stored, and then another id is asked for. -/
def sampleRequests : List (Request × Arr 24) :=
  [(.store_resumption sampleEntry 1000, .replicate 24 0),
    (.take_resumption (.replicate 16 9) (.replicate 32 2) 1 2 2000, .replicate 24 0)]

theorem a_take_of_another_id_leaves_the_entry :
    ∃ left, sampleStore.decoded sample (after (Call.run sample) ⟨sampleStore, none⟩
      (sampleRequests.map fun c => c.1.served c.2)).file = .ok left ∧
        sampleEntry.clamped ∈ left := by
  have hevents : events (Call.run sample) ⟨sampleStore, none⟩
      (sampleRequests.map fun c => c.1.served c.2) =
        [some (.stored (.ok ())), some (.took (.ok none))] := by
    decide +kernel
  have hstored : sampleStore.decoded sample (after (Call.run sample) ⟨sampleStore, none⟩
      ((sampleRequests.take 1).map fun c => c.1.served c.2)).file = .ok [sampleEntry.clamped] := by
    decide +kernel
  obtain ⟨entries, left, hentries, hleft, -, -, htaken⟩ := an_entry_goes_only_for_a_reason sample
    sampleStore PlaintextSealer.opens (sampleRequests.take 1)
    (.take_resumption (.replicate 16 9) (.replicate 32 2) 1 2 2000) (.replicate 24 0) (by
      intro ev hev
      rcases List.mem_cons.1 (hevents ▸ hev) with rfl | hev
      · exact ⟨_, rfl, rfl⟩
      · exact ⟨_, List.mem_singleton.1 hev, none, rfl⟩)
  obtain rfl := Except.ok.inj (hstored.symm.trans hentries)
  refine ⟨left, hleft, ?_⟩
  by_contra hnot
  rcases htaken.gone _ List.mem_cons_self hnot with hexpired | hid
  · exact absurd hexpired (by decide)
  · exact absurd hid (by decide)

end rtp2_core.store
