-- The cost of `skip_value`. Every call reads a byte or is the last one, so the
-- number of steps is linear in the bytes that are left, whatever lengths the
-- headers declare. The depth of the reader bounds the nesting of the calls.
import Reyta.CountedParser
import Reyta.SkippedValues

open byte_string exact_parse counted_parse

namespace rtp2_core.manifest

open cbor
open ManifestError (from_cbor)

/-! ## Counting -/

/-- The error `none` stands for a call past the bound on the nesting of calls. -/
abbrev CountedParse (α : Type) := Counted UInt8 Nat (Option ManifestError) α

/-- An operation of the reader. -/
def step {α : Type} (p : Parse CborError α) : CountedParse α :=
  op (map_err (fun e => some (from_cbor e)) p)

/-- The loop over the entries of a map. -/
def skip_entries_counted (p : CountedParse Value) :
    Nat → Option UInt64 → CountedParse (List (UInt64 × Value))
  | 0, last_key => do
    let _ ← step (MapReader.next_key ⟨0, last_key⟩)
    pure []
  | n + 1, last_key => do
    let (key, m) ← step (MapReader.next_key ⟨n + 1, last_key⟩)
    let v ← p
    let entries ← skip_entries_counted p n m.last_key
    pure ((key.getD 0, v) :: entries)

/-- `skip_value`, with its steps counted. -/
def skip_value_counted : Nat → CountedParse Value
  | 0 => stop none
  | calls + 1 => do
    let major ← step Reader.peek_major
    if major = 0 then
      let v ← step Reader.uint
      pure (.uint v)
    else if major = 2 then
      let v ← step Reader.bytes
      pure (.bytes v)
    else if major = 3 then
      let v ← step Reader.text
      pure (.text v)
    else if major = 4 then
      let n ← step Reader.array
      let items ← times (skip_value_counted calls) n.toNat
      step Reader.leave
      pure (.array items)
    else if major = 5 then
      let m ← step Reader.map
      let entries ← skip_entries_counted (skip_value_counted calls) m.remaining m.last_key
      pure (.map entries)
    else stop (some .Encoding)

/-- What the error of a counted run is in the source. -/
def uncounted (e : Option ManifestError) : ManifestError := e.getD .Encoding

/-! ## The value -/

theorem step.tracks {α : Type} (p : Parse CborError α) :
    Tracks uncounted (step p) (map_err from_cbor p) := by
  refine Tracks.op ?_
  funext i
  unfold map_err
  rcases p i with e | r <;> rfl

theorem skip_entries_counted.tracks {p : CountedParse Value} {q : Parse ManifestError Value}
    (h : Tracks uncounted p q) (n : Nat) (last_key : Option UInt64) :
    Tracks uncounted (skip_entries_counted p n last_key)
      (MapReader.entries from_cbor q n last_key) := by
  induction n generalizing last_key with
  | zero => exact (step.tracks _).bind fun _ => Tracks.pure []
  | succ n ih =>
    exact (step.tracks _).bind fun r => h.bind fun v => (ih _).bind fun l =>
      Tracks.pure ((r.1.getD 0, v) :: l)

/-- No number of items is past the limit of a `u64`. -/
theorem array_of_unlimited {p : Parse ManifestError Value} :
    Reader.array_of from_cbor 0xffffffffffffffff .Encoding p = (do
      let n ← map_err from_cbor Reader.array
      let items ← exact_parse.times p n.toNat
      map_err from_cbor Reader.leave
      pure items) := by
  unfold Reader.array_of Reader.array_if
  refine bind_congr fun n => ?_
  have hn : decide (n > (0xffffffffffffffff : UInt64)) = false := by
    rw [decide_eq_false_iff_not, gt_iff_lt, UInt64.not_lt, UInt64.le_iff_toNat_le]
    exact Nat.le_of_lt_succ n.toNat_lt
  funext i
  exact run_bind_of_ok (if_neg (by simp [hn]))

theorem skip_value_counted.tracks (calls : Nat) :
    Tracks uncounted (skip_value_counted calls) (skip_value calls) := by
  induction calls with
  | zero => exact Tracks.stop rfl
  | succ calls ih =>
    unfold skip_value_counted skip_value
    simp only [array_of_unlimited, skip_map, bind_assoc, pure_bind]
    refine (step.tracks _).bind fun major => ?_
    split_ifs
    · exact (step.tracks _).bind fun v => Tracks.pure _
    · exact (step.tracks _).bind fun v => Tracks.pure _
    · exact (step.tracks _).bind fun v => Tracks.pure _
    · exact (step.tracks _).bind fun n => (ih.times _).bind fun items =>
        (step.tracks _).bind fun _ => Tracks.pure _
    · exact (step.tracks _).bind fun m => (skip_entries_counted.tracks ih _ _).bind fun entries =>
        Tracks.pure _
    · exact Tracks.stop rfl

/-! ## The cost -/

section Costs

variable {α : Type} {p : Parse CborError α} {S : Nat → α → Prop} {w : α → Bytes}
  {g : Nat → α → Nat}

theorem step.costs (hp : Reads p S w g) : Costs 4 1 1 (step p) :=
  Costs.op_of_reads (by decide) (hp.map_err _)

/-- An operation that reads something pays for two more steps. -/
theorem step.saves (hp : Reads p S w g) (hw : ∀ d a, S d a → w a ≠ []) :
    Costs 4 (-2) 1 (step p) :=
  Costs.op_of_writes (by decide) (hp.map_err _) hw

/-- A value that is no array and no map. -/
theorem scalar_costs (hp : Reads p S w g) (hw : ∀ d a, S d a → w a ≠ []) (make : α → Value) :
    Costs 4 (-1) 1 (do
      let v ← step p
      pure (make v)) :=
  ((step.saves hp hw).bind (fun v => Costs.pure (make v)) (Nat.le_refl 1) (by decide)).weaken
    (by decide) (Nat.le_refl 1)

end Costs

theorem peek_major_costs : Costs 4 1 1 (step Reader.peek_major) := by
  refine Costs.op (by decide) ?_
  intro i a i' h
  rw [Reader.peek_major, map_err_peek] at h
  unfold peek at h
  split at h
  · cases h
  · cases h
    exact Nat.le_refl _

theorem header_ne_nil (major : UInt8) (v : UInt64) (l : Bytes) :
    Writer.header major v ++ l ≠ [] := by
  simp [Writer.header]

/-- The entries of a map pay for the operation that ends it. -/
theorem skip_entries_counted.costs {q : CountedParse Value} {c : Nat} (hc : 1 ≤ c)
    (h : Costs 4 0 c q) (n : Nat) (last_key : Option UInt64) :
    Costs 4 1 c (skip_entries_counted q n last_key) := by
  induction n generalizing last_key with
  | zero =>
    exact (step.costs (MapReader.next_key_of_eq rfl)).bind (r := 0)
      (fun _ => Costs.pure []) hc (by omega)
  | succ n ih =>
    have hkey : Costs 4 (-2) 1 (step (MapReader.next_key ⟨n + 1, last_key⟩)) := by
      refine step.saves (MapReader.next_key_of_ne (Nat.succ_ne_zero n)) ?_
      rintro d _ ⟨key, rfl, -⟩
      simp [Writer.uint, Writer.header]
    have hentry : ∀ r : Option UInt64 × MapReader, Costs 4 1 c (do
        let v ← q
        let entries ← skip_entries_counted q n r.2.last_key
        pure ((r.1.getD 0, v) :: entries)) := fun r =>
      h.bind (r := 1) (fun v => (ih _).bind (r := 0) (fun l => Costs.pure _)
        (Nat.le_refl c) (by omega)) (Nat.le_refl c) (by omega)
    exact (hkey.bind hentry hc (by omega)).weaken (by omega) (Nat.le_refl c)

/-- The header of an array pays for the operations that begin and end it. -/
theorem array_costs {q : CountedParse Value} (h : Costs 4 0 2 q) : Costs 4 (-1) 1 (do
    let n ← step Reader.array
    let items ← times q n.toNat
    step Reader.leave
    pure (Value.array items)) := by
  have hend : ∀ items : List Value, Costs 4 1 1 (do
      step Reader.leave
      pure (Value.array items)) := fun items =>
    (step.costs Reader.leave.reads).bind (r := 0) (fun _ => Costs.pure _) (Nat.le_refl 1)
      (by decide)
  have hitems : ∀ n : UInt64, Costs 4 1 2 (do
      let items ← times q n.toNat
      step Reader.leave
      pure (Value.array items)) := fun n =>
    (h.times _).bind hend (Nat.le_refl 2) (by decide)
  have harray : Costs 4 (-2) 1 (step Reader.array) :=
    step.saves Reader.array.reads fun _ _ _ => by simp [Writer.array, Writer.header]
  exact harray.bind hitems (Nat.le_refl 1) (by decide)

theorem map_costs {q : CountedParse Value} (h : Costs 4 0 2 q) : Costs 4 (-1) 1 (do
    let m ← step Reader.map
    let entries ← skip_entries_counted q m.remaining m.last_key
    pure (Value.map entries)) := by
  have hentries : ∀ m : MapReader, Costs 4 1 2 (do
      let entries ← skip_entries_counted q m.remaining m.last_key
      pure (Value.map entries)) := fun m =>
    (skip_entries_counted.costs (by decide) h _ _).bind (r := 0) (fun _ => Costs.pure _)
      (Nat.le_refl 2) (by decide)
  have hmap : Costs 4 (-2) 1 (step Reader.map) :=
    step.saves Reader.map.reads fun _ _ _ => by simp [Writer.map, Writer.header]
  exact hmap.bind hentries (Nat.le_refl 1) (by decide)

/-- Four steps for each byte that is read. -/
theorem skip_value_counted.costs (calls : Nat) : Costs 4 0 2 (skip_value_counted calls) := by
  induction calls with
  | zero => exact (Costs.stop (b := 0) none).weaken (Int.le_refl 0) (by decide)
  | succ calls ih =>
    unfold skip_value_counted
    refine peek_major_costs.bind (r := -1) (t := 1) (u := 2) (fun major => ?_) (by decide)
      (by decide)
    split_ifs
    · exact scalar_costs Reader.uint.reads (fun _ _ _ => by simp [Writer.uint, Writer.header]) _
    · exact scalar_costs Reader.bytes.reads (fun _ _ _ => header_ne_nil _ _ _) _
    · exact scalar_costs Reader.text.reads (fun _ _ _ => header_ne_nil _ _ _) _
    · exact array_costs ih
    · exact map_costs ih
    · exact (Costs.stop (b := -1) _).weaken (Int.le_refl _) (by decide)

/-! ## The nesting of calls -/

/-- An error that is not one of the reader, such as a call past the bound. -/
def Foreign (e : Option ManifestError) : Prop := e ≠ some .Encoding

theorem not_foreign_of_error {α : Type} {p : Parse CborError α} {i : Reader}
    {e : Option ManifestError} (h : map_err (fun e => some (from_cbor e)) p i = .error e) :
    ¬ Foreign e := by
  unfold map_err at h
  rcases hr : p i with e' | r
  · rw [hr] at h
    cases h
    exact not_not.2 rfl
  · rw [hr] at h
    cases h

theorem step.keeps {α : Type} {p : Parse CborError α} {S : Nat → α → Prop} {w : α → Bytes}
    {g : Nat → α → Nat} (hp : Reads p S w g) {d d' : Nat} (hg : ∀ a, S d a → g d a = d') :
    Keeps Foreign d d' (step p) := by
  refine Keeps.op ?_ fun _ _ h => not_foreign_of_error h
  rintro rest a ⟨rest', mark⟩ h
  obtain ⟨ha, -, hmark⟩ := hp.sound (map_err_eq_ok.1 h)
  exact hmark.trans (hg a ha)

theorem peek_major_keeps (d : Nat) : Keeps Foreign d d (step Reader.peek_major) := by
  refine Keeps.op ?_ fun _ _ h => not_foreign_of_error h
  intro rest a i h
  rw [Reader.peek_major, map_err_peek] at h
  rcases rest with _ | ⟨first, rest⟩ <;> cases h
  rfl

/-- The operation that ends a map goes back up. -/
theorem skip_entries_counted.keeps {q : CountedParse Value} {d : Nat}
    (h : Keeps Foreign (d + 1) (d + 1) q) (n : Nat) (last_key : Option UInt64) :
    Keeps Foreign (d + 1) d (skip_entries_counted q n last_key) := by
  induction n generalizing last_key with
  | zero =>
    exact (step.keeps (MapReader.next_key_of_eq rfl) fun _ _ => rfl).bind fun _ => Keeps.pure []
  | succ n ih =>
    exact (step.keeps (MapReader.next_key_of_ne (Nat.succ_ne_zero n)) fun _ _ => rfl).bind
      fun r => h.bind fun v => (ih _).bind fun l => Keeps.pure _

/-- What an operation returned was admitted. -/
theorem step.admits {α : Type} {p : Parse CborError α} {S : Nat → α → Prop} {w : α → Bytes}
    {g : Nat → α → Nat} (hp : Reads p S w g) {rest : Bytes} {d n n' : Nat} {a : α} {i : Reader}
    (h : run (step p) ⟨rest, d⟩ n = (.ok (a, i), n')) : S d a := by
  unfold run step op at h
  rcases hr : map_err (fun e => some (from_cbor e)) p ⟨rest, d⟩ with e | ⟨a', ⟨rest', mark⟩⟩
  · rw [hr] at h
    cases h
  · rw [hr] at h
    cases h
    exact (hp.sound (map_err_eq_ok.1 hr)).1

/-- At depth `d`, calls inside each other up to `MAX_DEPTH + 1 - d` are enough. -/
theorem skip_value_counted.keeps {calls d : Nat} (hd : d ≤ MAX_DEPTH)
    (hcalls : MAX_DEPTH < calls + d) : Keeps Foreign d d (skip_value_counted calls) := by
  induction calls generalizing d with
  | zero => omega
  | succ calls ih =>
    unfold skip_value_counted
    refine (peek_major_keeps d).bind fun major => ?_
    split_ifs
    · exact (step.keeps Reader.uint.reads fun _ _ => rfl).bind fun v => Keeps.pure _
    · exact (step.keeps Reader.bytes.reads fun _ _ => rfl).bind fun v => Keeps.pure _
    · exact (step.keeps Reader.text.reads fun _ _ => rfl).bind fun v => Keeps.pure _
    · -- The items are only reached if the array was entered.
      refine (step.keeps Reader.array.reads fun _ _ => rfl).bind_of_ok ?_
      intro rest n count i n' hrun
      have hroom := step.admits Reader.array.reads hrun
      exact ((ih hroom (by omega)).times _).bind fun items =>
        (step.keeps Reader.leave.reads fun _ _ => rfl).bind fun _ => Keeps.pure _
    · refine (step.keeps Reader.map.reads fun _ _ => rfl).bind_of_ok ?_
      intro rest n m i n' hrun
      have hroom := (step.admits Reader.map.reads hrun).1
      exact (skip_entries_counted.keeps (ih hroom (by omega)) _ _).bind fun entries =>
        Keeps.pure _
    · exact Keeps.stop (not_not.2 rfl)

/-! ## Together -/

theorem skip_value_counted.error {calls d n : Nat} (hd : d ≤ MAX_DEPTH)
    (hcalls : MAX_DEPTH < calls + d) {rest : Bytes} {e : Option ManifestError}
    (h : (run (skip_value_counted calls) ⟨rest, d⟩ n).1 = .error e) : e = some .Encoding := by
  have hkeeps := skip_value_counted.keeps hd hcalls rest n
  rw [h] at hkeeps
  exact not_not.1 hkeeps

theorem skip_value_error {calls d : Nat} (hd : d ≤ MAX_DEPTH) (hcalls : MAX_DEPTH < calls + d)
    {rest : Bytes} {e : ManifestError} (h : skip_value calls ⟨rest, d⟩ = .error e) :
    e = .Encoding := by
  rw [← skip_value_counted.tracks calls ⟨rest, d⟩ 0] at h
  rcases hr : (run (skip_value_counted calls) ⟨rest, d⟩ 0).1 with e' | r
  · rw [hr, skip_value_counted.error hd hcalls hr] at h
    cases h
    rfl
  · rw [hr] at h
    cases h

/-- Once there are enough calls, more of them change nothing. -/
theorem skip_value_calls {calls calls' d : Nat} (hd : d ≤ MAX_DEPTH)
    (hcalls : MAX_DEPTH < calls + d) (hcalls' : MAX_DEPTH < calls' + d) (rest : Bytes) :
    skip_value calls ⟨rest, d⟩ = skip_value calls' ⟨rest, d⟩ := by
  have hok : ∀ r, skip_value calls ⟨rest, d⟩ = .ok r ↔ skip_value calls' ⟨rest, d⟩ = .ok r := by
    rintro ⟨v, ⟨rest', mark⟩⟩
    rw [(skip_value.reads calls).iff, (skip_value.reads calls').iff,
      Value.skippable_iff hd hcalls, Value.skippable_iff hd hcalls']
  rcases hr : skip_value calls ⟨rest, d⟩ with e | r
  · rcases hr' : skip_value calls' ⟨rest, d⟩ with e' | r'
    · rw [skip_value_error hd hcalls hr, skip_value_error hd hcalls' hr']
    · cases hr.symm.trans ((hok r').2 hr')
  · exact ((hok r).1 hr).symm

/-- From any bytes and any depth, `skip_value` ends without a call past the
bound, in a number of steps that is linear in the bytes left, whether it
succeeds or fails. If it succeeds then it read the encoding of a well-formed
value without a boolean that the depth has room for, and is back at its depth. -/
theorem skip_value_is_linear_and_exact (rest : Bytes) (d : Nat) (hd : d ≤ MAX_DEPTH) :
    let counted := run (skip_value_counted (MAX_DEPTH + 1 - d)) ⟨rest, d⟩ 0
    counted.1.mapError uncounted = skip_value (MAX_DEPTH + 1) ⟨rest, d⟩ ∧
      counted.1 ≠ .error none ∧ counted.2 ≤ 4 * rest.length + 2 ∧
      ∀ v i, skip_value (MAX_DEPTH + 1) ⟨rest, d⟩ = .ok (v, i) →
        rest = v.encode ++ i.rest ∧ i.mark = d ∧ v.WellFormed ∧ v.has_boolean = false ∧
          v.nesting ≤ MAX_DEPTH - d := by
  intro counted
  have hcalls : MAX_DEPTH < MAX_DEPTH + 1 - d + d := by omega
  refine ⟨?_, ?_, ?_, ?_⟩
  · rw [skip_value_calls hd (by omega) hcalls]
    exact skip_value_counted.tracks _ _ _
  · intro h
    cases skip_value_counted.error hd hcalls h
  · have hcosts := skip_value_counted.costs (MAX_DEPTH + 1 - d)
    rcases hr : counted with ⟨e | ⟨v, i⟩, steps⟩
    · have := hcosts.error hr
      simp only at this ⊢
      omega
    · have := hcosts.ok hr
      simp only at this ⊢
      omega
  · rintro v ⟨rest', mark⟩ h
    obtain ⟨hv, hrest, hmark⟩ := (skip_value.reads _).sound h
    obtain ⟨hwell, hbool, hdeep⟩ := (Value.skippable_iff hd (by omega)).1 hv
    exact ⟨hrest, hmark, hwell, hbool, by omega⟩

/-- The header of an array that declares `2 ^ 64 - 1` items, with none of them
there. -/
theorem a_hostile_header_takes_few_steps :
    (run (skip_value_counted 17) ⟨0x9b :: List.replicate 8 255, 0⟩ 0).1.mapError uncounted =
        .error .Encoding ∧
      (run (skip_value_counted 17) ⟨0x9b :: List.replicate 8 255, 0⟩ 0).2 ≤ 38 := by
  obtain ⟨hvalue, -, hsteps, -⟩ :=
    skip_value_is_linear_and_exact (0x9b :: List.replicate 8 255) 0 (by decide)
  exact ⟨hvalue.trans rfl, hsteps⟩

end rtp2_core.manifest
