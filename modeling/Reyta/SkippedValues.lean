-- The values that `skip_value` reads past, in terms of the value alone: all that
-- `Writer` and `MapWriter` emit, nested up to the depth of the reader, except
-- those with a boolean inside.
import Reyta.SkipValue

open byte_string exact_parse

namespace rtp2_core.manifest

open cbor

namespace Value

/-! ## Nesting and booleans -/

mutual

/-- How deep arrays and maps are nested. -/
def nesting : Value → Nat
  | .array items => nesting_items items + 1
  | .map entries => nesting_entries entries + 1
  | _ => 0

def nesting_items : List Value → Nat
  | [] => 0
  | v :: items => max v.nesting (nesting_items items)

def nesting_entries : List (UInt64 × Value) → Nat
  | [] => 0
  | e :: entries => max (nesting_entry e) (nesting_entries entries)

def nesting_entry : UInt64 × Value → Nat
  | (_, v) => v.nesting

end

mutual

/-- Whether there is a boolean inside. -/
def has_boolean : Value → Bool
  | .boolean _ => true
  | .array items => boolean_in_items items
  | .map entries => boolean_in_entries entries
  | _ => false

def boolean_in_items : List Value → Bool
  | [] => false
  | v :: items => v.has_boolean || boolean_in_items items

def boolean_in_entries : List (UInt64 × Value) → Bool
  | [] => false
  | e :: entries => boolean_in_entry e || boolean_in_entries entries

def boolean_in_entry : UInt64 × Value → Bool
  | (_, v) => v.has_boolean

end

/-- The values that a writer is given: all lengths fit a header, and the keys
of a map go up. -/
inductive WellFormed : Value → Prop
  | uint (v : UInt64) : WellFormed (.uint v)
  | bytes {v : Bytes} (h : v.length < 2 ^ 64) : WellFormed (.bytes v)
  | text {v : String} (h : (Writer.as_bytes v).length < 2 ^ 64) : WellFormed (.text v)
  | boolean (v : Bool) : WellFormed (.boolean v)
  | array {items : List Value} (hlen : items.length < 2 ^ 64)
      (h : ∀ v ∈ items, WellFormed v) : WellFormed (.array items)
  | map {entries : List (UInt64 × Value)} (hlen : entries.length < 2 ^ 64)
      (hkeys : KeysAbove none entries) (h : ∀ e ∈ entries, WellFormed e.2) :
      WellFormed (.map entries)

theorem nesting_array_le {items : List Value} {n : Nat} :
    (Value.array items).nesting ≤ n + 1 ↔ ∀ v ∈ items, v.nesting ≤ n := by
  rw [nesting, Nat.add_le_add_iff_right]
  induction items with
  | nil => simp [nesting_items]
  | cons v items ih => rw [nesting_items, Nat.max_le, ih, List.forall_mem_cons]

theorem nesting_map_le {entries : List (UInt64 × Value)} {n : Nat} :
    (Value.map entries).nesting ≤ n + 1 ↔ ∀ e ∈ entries, e.2.nesting ≤ n := by
  rw [nesting, Nat.add_le_add_iff_right]
  induction entries with
  | nil => simp [nesting_entries]
  | cons e entries ih =>
    rcases e with ⟨key, v⟩
    rw [nesting_entries, nesting_entry, Nat.max_le, ih, List.forall_mem_cons]

theorem has_boolean_array {items : List Value} :
    (Value.array items).has_boolean = false ↔ ∀ v ∈ items, v.has_boolean = false := by
  rw [has_boolean]
  induction items with
  | nil => simp [boolean_in_items]
  | cons v items ih => rw [boolean_in_items, Bool.or_eq_false_iff, ih, List.forall_mem_cons]

theorem has_boolean_map {entries : List (UInt64 × Value)} :
    (Value.map entries).has_boolean = false ↔ ∀ e ∈ entries, e.2.has_boolean = false := by
  rw [has_boolean]
  induction entries with
  | nil => simp [boolean_in_entries]
  | cons e entries ih =>
    rcases e with ⟨key, v⟩
    rw [boolean_in_entries, boolean_in_entry, Bool.or_eq_false_iff, ih, List.forall_mem_cons]

theorem wellFormed_bytes {v : Bytes} : WellFormed (.bytes v) ↔ v.length < 2 ^ 64 := by
  constructor
  · rintro (_ | h)
    exact h
  · exact .bytes

theorem wellFormed_text {v : String} :
    WellFormed (.text v) ↔ (Writer.as_bytes v).length < 2 ^ 64 := by
  constructor
  · rintro (_ | _ | h)
    exact h
  · exact .text

theorem wellFormed_array {items : List Value} :
    WellFormed (.array items) ↔ items.length < 2 ^ 64 ∧ ∀ v ∈ items, WellFormed v := by
  constructor
  · rintro (_ | _ | _ | _ | ⟨hlen, h⟩)
    exact ⟨hlen, h⟩
  · rintro ⟨hlen, h⟩
    exact .array hlen h

theorem wellFormed_map {entries : List (UInt64 × Value)} :
    WellFormed (.map entries) ↔ entries.length < 2 ^ 64 ∧ KeysAbove none entries ∧
      ∀ e ∈ entries, WellFormed e.2 := by
  constructor
  · rintro (_ | _ | _ | _ | _ | ⟨hlen, hkeys, h⟩)
    exact ⟨hlen, hkeys, h⟩
  · rintro ⟨hlen, hkeys, h⟩
    exact .map hlen hkeys h

/-! ## What is skipped -/

/-- With enough calls, a call at depth `d` skips the well-formed values without
a boolean that the depth has room for. -/
theorem skippable_iff {calls d : Nat} (hd : d ≤ MAX_DEPTH) (hcalls : MAX_DEPTH < calls + d)
    {v : Value} : Skippable calls d v ↔
      v.WellFormed ∧ v.has_boolean = false ∧ d + v.nesting ≤ MAX_DEPTH := by
  induction calls generalizing d v with
  | zero => omega
  | succ calls ih =>
    -- Below an array or a map there is one call less, and one more level is used.
    have hbelow : d < MAX_DEPTH → ∀ v : Value, Skippable calls (d + 1) v ↔
        v.WellFormed ∧ v.has_boolean = false ∧ v.nesting ≤ MAX_DEPTH - d - 1 := by
      intro hroom v
      rw [ih hroom (by omega)]
      exact and_congr_right fun _ => and_congr_right fun _ => by omega
    cases v with
    | uint v => simp [Skippable, nesting, has_boolean, hd, WellFormed.uint]
    | bytes v => simp [Skippable, nesting, has_boolean, hd, wellFormed_bytes]
    | text v => simp [Skippable, nesting, has_boolean, hd, wellFormed_text]
    | boolean v => simp [Skippable, has_boolean]
    | array items =>
      have hnest : d + (Value.array items).nesting ≤ MAX_DEPTH ↔
          d < MAX_DEPTH ∧ ∀ v ∈ items, v.nesting ≤ MAX_DEPTH - d - 1 := by
        rw [← nesting_array_le, nesting]
        omega
      rw [Skippable, wellFormed_array, has_boolean_array, hnest]
      constructor
      · rintro ⟨hroom, hlen, hitems⟩
        have h := fun v hv => (hbelow hroom v).1 (hitems v hv)
        exact ⟨⟨hlen, fun v hv => (h v hv).1⟩, fun v hv => (h v hv).2.1, hroom,
          fun v hv => (h v hv).2.2⟩
      · rintro ⟨⟨hlen, hwell⟩, hbool, hroom, hdeep⟩
        exact ⟨hroom, hlen, fun v hv =>
          (hbelow hroom v).2 ⟨hwell v hv, hbool v hv, hdeep v hv⟩⟩
    | map entries =>
      have hnest : d + (Value.map entries).nesting ≤ MAX_DEPTH ↔
          d < MAX_DEPTH ∧ ∀ e ∈ entries, e.2.nesting ≤ MAX_DEPTH - d - 1 := by
        rw [← nesting_map_le, nesting]
        omega
      rw [Skippable, wellFormed_map, has_boolean_map, hnest]
      constructor
      · rintro ⟨hroom, hlen, hkeys, hentries⟩
        have h := fun e he => (hbelow hroom e.2).1 (hentries e he)
        exact ⟨⟨hlen, hkeys, fun e he => (h e he).1⟩, fun e he => (h e he).2.1, hroom,
          fun e he => (h e he).2.2⟩
      · rintro ⟨⟨hlen, hkeys, hwell⟩, hbool, hroom, hdeep⟩
        exact ⟨hroom, hlen, hkeys, fun e he =>
          (hbelow hroom e.2).2 ⟨hwell e he, hbool e he, hdeep e he⟩⟩

/-! ## What is refused -/

theorem peek_encode {v : Value} (hv : ∀ b, v ≠ .boolean b) (t : Bytes) (d : Nat) :
    map_err ManifestError.from_cbor Reader.peek_major ⟨v.encode ++ t, d⟩ =
      .ok (v.major, ⟨v.encode ++ t, d⟩) := by
  obtain ⟨first, rest, hencode, hmajor⟩ := encode_starts hv
  rw [hencode, ← hmajor]
  rfl

theorem skip_value_eq_ok {calls d : Nat} (hd : d ≤ MAX_DEPTH) (hcalls : MAX_DEPTH < calls + d)
    {v : Value} (hv : v.WellFormed) (hroom : d + v.nesting ≤ MAX_DEPTH)
    (h : v.has_boolean = false) (t : Bytes) :
    skip_value calls ⟨v.encode ++ t, d⟩ = .ok (v, ⟨t, d⟩) :=
  (skip_value.reads calls).complete t ((skippable_iff hd hcalls).2 ⟨hv, h, hroom⟩)

/-- An array is refused for an item. -/
theorem array_of_refused {p : Parse ManifestError Value} {c : Value → Prop} {items : List Value}
    {d : Nat} (hd : d < MAX_DEPTH) (hlen : items.length < 2 ^ 64)
    (hread : ∀ v ∈ items, ¬ c v → ∀ t, p ⟨v.encode ++ t, d + 1⟩ = .ok (v, ⟨t, d + 1⟩))
    (hrefused : ∀ v ∈ items, c v → ∀ t, p ⟨v.encode ++ t, d + 1⟩ = .error .Encoding)
    (hc : ∃ v ∈ items, c v) (t : Bytes) :
    Reader.array_of ManifestError.from_cbor 0xffffffffffffffff .Encoding p
      ⟨(Value.array items).encode ++ t, d⟩ = .error .Encoding := by
  have hhead := (Reader.array.reads.map_err ManifestError.from_cbor).complete
    (a := .ofNat items.length) (items.flatMap Value.encode ++ t) hd
  have hsize : (UInt64.ofNat items.length).toNat = items.length := UInt64.toNat_ofNat_of_lt' hlen
  have hfew : ¬ UInt64.ofNat items.length > 0xffffffffffffffff := by
    rw [gt_iff_lt, UInt64.not_lt, UInt64.le_iff_toNat_le, hsize]
    exact Nat.le_of_lt_succ hlen
  unfold Reader.array_of Reader.array_if
  rw [encode_array, List.append_assoc]
  refine (run_bind_of_ok hhead).trans ?_
  refine (run_bind_of_ok (if_neg (by simpa using hfew))).trans ?_
  rw [hsize]
  exact run_bind_of_error (times_of_refused hread hrefused hc t)

/-- A map is refused for a value. -/
theorem skip_map_of_refused {p : Parse ManifestError Value} {c : Value → Prop}
    {entries : List (UInt64 × Value)} {d : Nat} (hd : d < MAX_DEPTH)
    (hlen : entries.length < 2 ^ 64) (hkeys : KeysAbove none entries)
    (hread : ∀ e ∈ entries, ¬ c e.2 → ∀ t, p ⟨e.2.encode ++ t, d + 1⟩ = .ok (e.2, ⟨t, d + 1⟩))
    (hrefused : ∀ e ∈ entries, c e.2 → ∀ t, p ⟨e.2.encode ++ t, d + 1⟩ = .error .Encoding)
    (hc : ∃ e ∈ entries, c e.2) (t : Bytes) :
    skip_map p ⟨(Value.map entries).encode ++ t, d⟩ = .error .Encoding := by
  have hhead := (Reader.map.reads.map_err ManifestError.from_cbor).complete (d := d)
    (a := ⟨entries.length, none⟩)
    ((entries.flatMap fun e => Writer.uint e.1 ++ e.2.encode) ++ t) ⟨hd, hlen, rfl⟩
  unfold skip_map
  rw [encode_map, List.append_assoc]
  refine (run_bind_of_ok hhead).trans ?_
  exact MapReader.entries_of_refused hkeys hread hrefused hc t

theorem exists_boolean_item {items : List Value} (h : (Value.array items).has_boolean = true) :
    ∃ v ∈ items, v.has_boolean = true := by
  by_contra hnone
  have hfalse : (Value.array items).has_boolean = false :=
    has_boolean_array.2 fun v hv => Bool.eq_false_iff.2 fun hbool => hnone ⟨v, hv, hbool⟩
  rw [hfalse] at h
  cases h

theorem exists_boolean_entry {entries : List (UInt64 × Value)}
    (h : (Value.map entries).has_boolean = true) : ∃ e ∈ entries, e.2.has_boolean = true := by
  by_contra hnone
  have hfalse : (Value.map entries).has_boolean = false :=
    has_boolean_map.2 fun e he => Bool.eq_false_iff.2 fun hbool => hnone ⟨e, he, hbool⟩
  rw [hfalse] at h
  cases h

/-- The first boolean inside a value is where `skip_value` stops. -/
theorem skip_value_of_boolean {calls d : Nat} (hd : d ≤ MAX_DEPTH)
    (hcalls : MAX_DEPTH < calls + d) {v : Value} (hv : v.WellFormed)
    (hroom : d + v.nesting ≤ MAX_DEPTH) (h : v.has_boolean = true) (t : Bytes) :
    skip_value calls ⟨v.encode ++ t, d⟩ = .error .Encoding := by
  induction calls generalizing d v t with
  | zero => omega
  | succ calls ih =>
    -- What is inside is read one level deeper.
    have hread : d < MAX_DEPTH → ∀ v : Value, v.WellFormed → v.nesting ≤ MAX_DEPTH - d - 1 →
        ¬ v.has_boolean = true → ∀ t,
          skip_value calls ⟨v.encode ++ t, d + 1⟩ = .ok (v, ⟨t, d + 1⟩) :=
      fun hroom v hv hnest hbool => skip_value_eq_ok hroom (by omega) hv (by omega)
        (Bool.eq_false_iff.2 hbool)
    have hrefused : d < MAX_DEPTH → ∀ v : Value, v.WellFormed → v.nesting ≤ MAX_DEPTH - d - 1 →
        v.has_boolean = true → ∀ t, skip_value calls ⟨v.encode ++ t, d + 1⟩ = .error .Encoding :=
      fun hroom v hv hnest hbool => ih hroom (by omega) hv (by omega) hbool
    cases hv with
    | uint v => cases h
    | bytes hlen => cases h
    | text hlen => cases h
    | boolean b => cases b <;> rfl
    | @array items hlen hitems =>
      have hlt : d < MAX_DEPTH := by
        rw [nesting] at hroom
        omega
      have hnest := nesting_array_le.1 (show (Value.array items).nesting ≤ MAX_DEPTH - d - 1 + 1 by
        omega)
      refine (run_bind_of_ok (peek_encode (v := .array items) (by simp) t d)).trans ?_
      refine run_bind_of_error ?_
      exact array_of_refused hlt hlen (fun v hv => hread hlt v (hitems v hv) (hnest v hv))
        (fun v hv => hrefused hlt v (hitems v hv) (hnest v hv)) (exists_boolean_item h) t
    | @map entries hlen hkeys hentries =>
      have hlt : d < MAX_DEPTH := by
        rw [nesting] at hroom
        omega
      have hnest := nesting_map_le.1 (show (Value.map entries).nesting ≤ MAX_DEPTH - d - 1 + 1 by
        omega)
      refine (run_bind_of_ok (peek_encode (v := .map entries) (by simp) t d)).trans ?_
      refine run_bind_of_error ?_
      exact skip_map_of_refused (c := fun v => v.has_boolean = true) hlt hlen hkeys
        (fun e he => hread hlt e.2 (hentries e he) (hnest e he))
        (fun e he => hrefused hlt e.2 (hentries e he) (hnest e he)) (exists_boolean_entry h) t

end Value

/-- A well-formed value is skipped, whatever follows it and at every depth that
has room for it, exactly if it has no boolean inside. -/
theorem a_value_is_skipped_iff_it_has_no_boolean (v : Value) (hv : v.WellFormed) (d : Nat)
    (hd : d + v.nesting ≤ MAX_DEPTH) (suffix : Bytes) :
    (∃ value, skip_value (MAX_DEPTH + 1) ⟨v.encode ++ suffix, d⟩ = .ok (value, ⟨suffix, d⟩)) ↔
      v.has_boolean = false := by
  constructor
  · rintro ⟨value, h⟩
    by_contra hbool
    rw [Value.skip_value_of_boolean (by omega) (by omega) hv hd (by simpa using hbool)] at h
    cases h
  · intro hbool
    exact ⟨v, Value.skip_value_eq_ok (by omega) (by omega) hv hd hbool suffix⟩

/-- A map with an array in an array. -/
theorem a_nested_map_is_skipped : ∃ value,
    skip_value (MAX_DEPTH + 1)
        ⟨(Value.map [(0, .uint 1), (7, .array [.array [], .text "x"])]).encode ++ [255], 13⟩ =
      .ok (value, ⟨[255], 13⟩) := by
  refine (a_value_is_skipped_iff_it_has_no_boolean _ ?_ 13 (by decide) [255]).2 (by decide)
  refine .map (by decide) (by simp [KeysAbove]) ?_
  simp only [List.forall_mem_cons, List.not_mem_nil, false_implies, implies_true, and_true]
  refine ⟨.uint 1, .array (by decide) ?_⟩
  simp only [List.forall_mem_cons, List.not_mem_nil, false_implies, implies_true, and_true]
  exact ⟨.array (by decide) (by simp), .text (by decide)⟩

/-- `true` is what `Writer` emits for a boolean, and neither it nor an extension
map that holds it is skipped. -/
theorem a_boolean_is_not_skipped :
    (Value.boolean true).WellFormed ∧ (Value.boolean true).nesting = 0 ∧
      skip_value (MAX_DEPTH + 1) ⟨(Value.boolean true).encode, 0⟩ = .error .Encoding ∧
      skip_extension_map ⟨(Value.map [(0, .boolean true)]).encode, 0⟩ = .error .Encoding :=
  ⟨.boolean true, rfl, rfl, rfl⟩

end rtp2_core.manifest
