-- The tolerant part of the manifest decoder: `skip_value` reads past any
-- RTP-CBOR value that is built from unsigned integers, byte strings, texts,
-- arrays and maps. It drops the value, and the model returns it, so that one
-- can say what a decoder dropped.
import Reyta.CborExact

open byte_string exact_parse

namespace rtp2_core.manifest

open cbor

/-- The values that `Writer` and `MapWriter` emit. -/
inductive Value where
  | uint (v : UInt64)
  | bytes (v : Bytes)
  | text (v : String)
  | boolean (v : Bool)
  | array (items : List Value)
  | map (entries : List (UInt64 × Value))

mutual

def Value.encode : Value → Bytes
  | .uint v => Writer.uint v
  | .bytes v => Writer.bytes v
  | .text v => Writer.text v
  | .boolean v => Writer.boolean v
  | .array items => Writer.array (.ofNat items.length) ++ Value.encode_items items
  | .map entries => MapWriter (Value.encode_entries entries)

def Value.encode_items : List Value → Bytes
  | [] => []
  | v :: items => v.encode ++ Value.encode_items items

def Value.encode_entries : List (UInt64 × Value) → List (UInt64 × Bytes)
  | [] => []
  | e :: entries => Value.encode_entry e :: Value.encode_entries entries

def Value.encode_entry : UInt64 × Value → UInt64 × Bytes
  | (key, v) => (key, v.encode)

end

theorem Value.encode_array (items : List Value) :
    (Value.array items).encode =
      Writer.array (.ofNat items.length) ++ items.flatMap Value.encode := by
  have h : ∀ l : List Value, Value.encode_items l = l.flatMap Value.encode := by
    intro l
    induction l with
    | nil => rfl
    | cons v l ih => rw [Value.encode_items, ih, List.flatMap_cons]
  rw [Value.encode, h]

theorem Value.encode_map (entries : List (UInt64 × Value)) :
    (Value.map entries).encode = Writer.map (.ofNat entries.length) ++
      entries.flatMap fun e => Writer.uint e.1 ++ e.2.encode := by
  have h : ∀ l : List (UInt64 × Value),
      Value.encode_entries l = l.map fun e => (e.1, e.2.encode) := by
    intro l
    induction l with
    | nil => rfl
    | cons e l ih =>
      rcases e with ⟨key, v⟩
      rw [Value.encode_entries, Value.encode_entry, ih, List.map_cons]
  rw [Value.encode, h, MapWriter, List.length_map, List.flatMap_map]

inductive ManifestError where
  | Encoding
  | UnknownCriticalField
  | UnsupportedVersion
  | UnsupportedSuite
  | InvalidValue
  | TooManyObjects
  | TextTooLong
  | Crypto
  | CommitmentMismatch
  deriving DecidableEq, Repr

/-- `From<CborError>`. -/
def ManifestError.from_cbor (_ : CborError) : ManifestError := .Encoding

open ManifestError (from_cbor)

/-- A map whose values `p` skips. -/
def skip_map (p : Parse ManifestError Value) : Parse ManifestError (List (UInt64 × Value)) := do
  let m ← map_err from_cbor Reader.map
  MapReader.entries from_cbor p m.remaining m.last_key

/-- The first argument bounds the nesting of calls. A call is made one level
deeper than the reader is, so `MAX_DEPTH + 1` is enough. -/
def skip_value : Nat → Parse ManifestError Value
  | 0 => fail .Encoding
  | calls + 1 => do
    let major ← map_err from_cbor Reader.peek_major
    if major = 0 then
      let v ← map_err from_cbor Reader.uint
      pure (.uint v)
    else if major = 2 then
      let v ← map_err from_cbor Reader.bytes
      pure (.bytes v)
    else if major = 3 then
      let v ← map_err from_cbor Reader.text
      pure (.text v)
    else if major = 4 then
      let items ← Reader.array_of from_cbor 0xffffffffffffffff .Encoding (skip_value calls)
      pure (.array items)
    else if major = 5 then
      let entries ← skip_map (skip_value calls)
      pure (.map entries)
    else fail .Encoding

/-- The extension map at a noncritical key. -/
def skip_extension_map : Parse ManifestError (List (UInt64 × Value)) :=
  skip_map (skip_value (MAX_DEPTH + 1))

/-! ## What is skipped -/

/-- The values that a call skips at depth `d`, with the given bound on the
nesting of calls. No boolean is among them. -/
def Skippable : Nat → Nat → Value → Prop
  | 0, _, _ => False
  | _ + 1, _, .uint _ => True
  | _ + 1, _, .bytes v => v.length < 2 ^ 64
  | _ + 1, _, .text v => (Writer.as_bytes v).length < 2 ^ 64
  | _ + 1, _, .boolean _ => False
  | calls + 1, d, .array items =>
    d < MAX_DEPTH ∧ items.length < 2 ^ 64 ∧ ∀ v ∈ items, Skippable calls (d + 1) v
  | calls + 1, d, .map entries =>
    d < MAX_DEPTH ∧ entries.length < 2 ^ 64 ∧ KeysAbove none entries ∧
      ∀ e ∈ entries, Skippable calls (d + 1) e.2

/-- The major type of a value. -/
def Value.major : Value → UInt8
  | .uint _ => 0
  | .bytes _ => 2
  | .text _ => 3
  | .array _ => 4
  | .map _ => 5
  | .boolean _ => 7

theorem header_starts {major : UInt8} (h : major < 8) (v : UInt64) (l : Bytes) :
    ∃ first rest, Writer.header major v ++ l = first :: rest ∧ first >>> 5 = major :=
  ⟨_, _, rfl, (byte_of_parts h (additional_lt v)).1⟩

/-- The first byte of a value tells its kind. -/
theorem Value.encode_starts {v : Value} (hv : ∀ b, v ≠ .boolean b) :
    ∃ first rest, v.encode = first :: rest ∧ first >>> 5 = v.major := by
  cases v with
  | uint v =>
    rw [encode, Writer.uint, ← List.append_nil (Writer.header _ v)]
    exact header_starts (by decide) v []
  | bytes v =>
    rw [encode]
    exact header_starts (by decide) _ _
  | text v =>
    rw [encode]
    exact header_starts (by decide) _ _
  | boolean b => exact absurd rfl (hv b)
  | array items =>
    rw [encode_array]
    exact header_starts (by decide) _ _
  | map entries =>
    rw [encode_map]
    exact header_starts (by decide) _ _

theorem skip_map.reads {p : Parse ManifestError Value} {S : Nat → Value → Prop}
    (hp : Reads p S Value.encode (fun d _ => d)) :
    Reads (skip_map p)
      (fun d l => d < MAX_DEPTH ∧ l.length < 2 ^ 64 ∧ KeysAbove none l ∧ ∀ e ∈ l, S (d + 1) e.2)
      (fun l => (Value.map l).encode) (fun d _ => d) := by
  unfold skip_map
  refine Reads.congr (Reads.bind (fun l => ⟨l.length, none⟩) (Reader.map.reads.map_err _)
    (fun m _ => MapReader.entries.reads hp m.remaining m.last_key) ?_) ?_ ?_ ?_
  · rintro d ⟨remaining, last⟩ l ⟨-, -, rfl⟩ ⟨rfl, -⟩
    rfl
  · intro d l
    simp [and_assoc]
  · intro d l _
    rw [Value.encode_map]
  · intro d l _
    rfl

theorem skip_value.reads (calls : Nat) :
    Reads (skip_value calls) (Skippable calls) Value.encode (fun d _ => d) := by
  induction calls with
  | zero => exact Reads.fail _ (fun _ _ h => h)
  | succ calls ih =>
    unfold skip_value Reader.peek_major
    rw [map_err_peek]
    apply Reads.peek Value.major
    · intro k
      split_ifs with h0 h2 h3 h4 h5
      · subst h0
        refine (Reader.uint.reads.map_err _).wrap Value.uint ?_ (fun v => by rw [Value.encode])
          (fun _ _ => rfl)
        intro d v
        cases v <;> simp [Skippable, Value.major]
      · subst h2
        refine (Reader.bytes.reads.map_err _).wrap Value.bytes ?_ (fun v => by rw [Value.encode])
          (fun _ _ => rfl)
        intro d v
        cases v <;> simp [Skippable, Value.major]
      · subst h3
        refine (Reader.text.reads.map_err _).wrap Value.text ?_ (fun v => by rw [Value.encode])
          (fun _ _ => rfl)
        intro d v
        cases v <;> simp [Skippable, Value.major]
      · subst h4
        refine (Reader.array_of.reads ih).wrap Value.array ?_ Value.encode_array (fun _ _ => rfl)
        intro d v
        cases v <;> simp [Skippable, Value.major]
        intros
        omega
      · subst h5
        refine (skip_map.reads ih).wrap Value.map ?_ (fun v => rfl) (fun _ _ => rfl)
        intro d v
        cases v <;> simp [Skippable, Value.major]
      · apply Reads.fail
        rintro d v ⟨hv, rfl⟩
        cases v <;> simp_all [Skippable, Value.major]
    · intro d v hv
      apply Value.encode_starts
      rintro b rfl
      exact hv

end rtp2_core.manifest
