-- The events of the core as CBOR, and the decoder of the Go binding, which is
-- written on its own. It learns from the type, which is read first, what the
-- later keys mean. What it decodes is what the core encoded.
import Reyta.CborExact
import Reyta.EventQueue

open byte_string exact_parse rtp2_core.cbor

namespace rtp2_core.events

/-- `role as u64` -/
def ProgressRole.as_u64 : ProgressRole → UInt64
  | .Receiving => 0
  | .Sending => 1

namespace Event

def type_code : Event → UInt64
  | .TransferStarted .. => 1
  | .TransferProgress .. => 2
  | .ObjectCompleted .. => 3
  | .TransferCompleted .. => 4
  | .TransferFailed .. => 5
  | .TransferCancelled .. => 6
  | .EventsDropped .. => 7
  | .TransferRoute .. => 8

def encode : Event → Bytes
  | .TransferStarted transfer_id objects total_bytes =>
    MapWriter [(0, Writer.uint 1), (1, Writer.bytes transfer_id.bytes), (2, Writer.uint objects),
      (3, Writer.uint total_bytes)]
  | .TransferProgress transfer_id role bytes total_bytes chunks total_chunks =>
    MapWriter [(0, Writer.uint 2), (1, Writer.bytes transfer_id.bytes), (2, Writer.uint bytes),
      (3, Writer.uint total_bytes), (4, Writer.uint chunks), (5, Writer.uint total_chunks),
      (6, Writer.uint role.as_u64)]
  | .ObjectCompleted transfer_id object_id plaintext_digest =>
    MapWriter [(0, Writer.uint 3), (1, Writer.bytes transfer_id.bytes),
      (2, Writer.bytes object_id.bytes), (3, Writer.bytes plaintext_digest.bytes)]
  | .TransferCompleted transfer_id objects =>
    MapWriter [(0, Writer.uint 4), (1, Writer.bytes transfer_id.bytes), (2, Writer.uint objects)]
  | .TransferFailed transfer_id code =>
    MapWriter [(0, Writer.uint 5), (1, Writer.bytes transfer_id.bytes), (2, Writer.uint code)]
  | .TransferCancelled transfer_id =>
    MapWriter [(0, Writer.uint 6), (1, Writer.bytes transfer_id.bytes)]
  | .EventsDropped lost =>
    MapWriter [(0, Writer.uint 7), (1, Writer.uint lost)]
  | .TransferRoute transfer_id route address_class =>
    -- Key 3 is written only when there is a class.
    MapWriter ([(0, Writer.uint 8), (1, Writer.bytes transfer_id.bytes), (2, Writer.uint route)] ++
      (address_class.map fun cls => (3, Writer.uint cls)).toList)

end Event

end rtp2_core.events

/-! ## The binding -/

namespace rtp2

/-- `errMalformedEvent`, the one error. -/
inductive EventError where
  | errMalformedEvent
  deriving DecidableEq, Repr

/-- A `cborReader` over the bytes from `pos` on. -/
abbrev cborReader (α : Type) := Parser UInt8 Unit EventError α

namespace cborReader

/-- The loop of `take`. -/
def shift_in (v : UInt64) (b : UInt8) : UInt64 := v <<< 8 ||| b.toUInt64

def take (n : Nat) : cborReader UInt64 := do
  let raw ← exact_parse.take n .errMalformedEvent
  pure (raw.foldl shift_in 0)

/-- The value of a head with the additional information `info`. -/
def argument (info : UInt8) : cborReader UInt64 :=
  if info < 24 then pure info.toUInt64
  else if info = 24 then take 1
  else if info = 25 then take 2
  else if info = 26 then take 4
  else if info = 27 then take 8
  else fail .errMalformedEvent

def head : cborReader (UInt8 × UInt64) := do
  let b ← next .errMalformedEvent
  let major := b >>> 5
  let info := b &&& 0x1f
  let arg ← argument info
  pure (major, arg)

def mapHeader : cborReader UInt64 := do
  let (major, arg) ← head
  fail_if (major ≠ 5) .errMalformedEvent
  pure arg

def uint : cborReader UInt64 := do
  let (major, arg) ← head
  fail_if (major ≠ 0) .errMalformedEvent
  pure arg

def bytes32 : cborReader (Arr 32) := do
  let (major, arg) ← head
  fail_if (major ≠ 2 ∨ arg ≠ 32) .errMalformedEvent
  let raw ← exact_parse.take 32 .errMalformedEvent
  match Arr.try_from 32 raw with
  | some out => pure out
  | none => fail .errMalformedEvent

end cborReader

def EventTransferStarted : UInt64 := 1
def EventTransferProgress : UInt64 := 2
def EventObjectCompleted : UInt64 := 3
def EventTransferCompleted : UInt64 := 4
def EventTransferFailed : UInt64 := 5
def EventTransferCancelled : UInt64 := 6
def EventsDropped : UInt64 := 7
def EventTransferRoute : UInt64 := 8

/-- A decoded event. The type says which of the other fields carry meaning;
the rest are zero. -/
structure Event where
  type : UInt64 := 0
  TransferID : Arr 32 := .replicate 32 0
  Objects : UInt64 := 0
  Bytes : UInt64 := 0
  TotalBytes : UInt64 := 0
  Chunks : UInt64 := 0
  Total : UInt64 := 0
  Role : UInt64 := 0
  ObjectID : Arr 32 := .replicate 32 0
  PlaintextDigest : Arr 32 := .replicate 32 0
  Code : UInt64 := 0
  Lost : UInt64 := 0
  Route : UInt64 := 0
  AddressClass : UInt64 := 0
  HasAddress : Bool := false
  deriving DecidableEq

def Event.Terminal (e : Event) : Bool :=
  e.type = EventObjectCompleted ∨ e.type = EventTransferCompleted ∨
    e.type = EventTransferFailed ∨ e.type = EventTransferCancelled

/-- `into` holds the field that each key is for, as the event with that field set. -/
def assignUints (key : UInt64) (into : List (UInt64 × (UInt64 → Event))) : cborReader Event :=
  match into.lookup key with
  | none => fail .errMalformedEvent
  | some target => do
    let v ← cborReader.uint
    pure (target v)

def assignField (e : Event) (key : UInt64) : cborReader Event :=
  if key = 0 then do
    let v ← cborReader.uint
    pure { e with type := v }
  else if key = 1 ∧ e.type ≠ EventsDropped then do
    let id ← cborReader.bytes32
    pure { e with TransferID := id }
  else if e.type = EventTransferStarted then
    assignUints key [(2, fun v => { e with Objects := v }),
      (3, fun v => { e with TotalBytes := v })]
  else if e.type = EventTransferProgress then
    if key = 6 then do
      let v ← cborReader.uint
      pure { e with Role := v }
    else
      assignUints key [(2, fun v => { e with Bytes := v }),
        (3, fun v => { e with TotalBytes := v }), (4, fun v => { e with Chunks := v }),
        (5, fun v => { e with Total := v })]
  else if e.type = EventObjectCompleted then
    if key = 2 then do
      let id ← cborReader.bytes32
      pure { e with ObjectID := id }
    else if key = 3 then do
      let digest ← cborReader.bytes32
      pure { e with PlaintextDigest := digest }
    else fail .errMalformedEvent
  else if e.type = EventTransferCompleted then
    assignUints key [(2, fun v => { e with Objects := v })]
  else if e.type = EventTransferFailed then
    assignUints key [(2, fun v => { e with Code := v })]
  else if e.type = EventsDropped then
    assignUints key [(1, fun v => { e with Lost := v })]
  else if e.type = EventTransferRoute then
    if key = 2 then do
      let v ← cborReader.uint
      pure { e with Route := v }
    else if key = 3 then do
      let v ← cborReader.uint
      pure { e with AddressClass := v, HasAddress := true }
    else fail .errMalformedEvent
  else fail .errMalformedEvent

/-- The loop of `decodeEvent` over the pairs of the map. -/
def assignPairs : Nat → Event → cborReader Event
  | 0, e => pure e
  | pairs + 1, e => do
    let key ← cborReader.uint
    let e ← assignField e key
    assignPairs pairs e

def decodeEvent (raw : Bytes) : Except EventError Event := do
  let (pairs, d) ← cborReader.mapHeader ⟨raw, ()⟩
  let (e, d) ← assignPairs pairs.toNat {} d
  refuse_if (d.rest ≠ []) .errMalformedEvent
  pure e

/-! ## Reading what the core wrote -/

namespace cborReader

/-- Shifting a byte in is a digit of base 256, until the top is shifted out. -/
theorem toNat_shift_in (v : UInt64) (b : UInt8) :
    (shift_in v b).toNat = (v.toNat * 256 + b.toNat) % 2 ^ 64 := by
  have hb := b.toNat_lt
  have htop : v.toNat * 256 % 2 ^ 64 = 2 ^ 8 * (v.toNat % 2 ^ 56) := by omega
  have hshift : (v <<< 8).toNat = v.toNat * 256 % 2 ^ 64 := by
    rw [UInt64.toNat_shiftLeft, Nat.shiftLeft_eq]
    rfl
  unfold shift_in
  rw [UInt64.toNat_or, UInt8.toNat_toUInt64, hshift, htop, ← Nat.two_pow_add_eq_or_of_lt hb]
  omega

theorem foldl_shift_in (raw : Bytes) : raw.foldl shift_in 0 = .ofNat (of_be raw) := by
  induction raw using List.reverseRecOn with
  | nil => rfl
  | append_singleton raw b ih =>
    rw [List.foldl_append, List.foldl_cons, List.foldl_nil, ih, of_be_append_singleton,
      ← UInt64.toNat_inj, toNat_shift_in]
    simp only [UInt64.toNat_ofNat']
    omega

theorem take_be_bytes {width : Nat} {v : UInt64} (h : v.toNat < 256 ^ width) (rest : Bytes) :
    take width ⟨be_bytes width v.toNat ++ rest, ()⟩ = .ok (v, ⟨rest, ()⟩) := by
  unfold take
  refine (run_bind_of_ok ((Reads.take width _).complete rest (length_be_bytes width _))).trans ?_
  rw [foldl_shift_in, of_be_be_bytes h, UInt64.ofNat_toNat, run_pure]

/-- The numeral of a head of the core, which is as wide as the first byte says. -/
theorem argument_numeral (v : UInt64) (rest : Bytes) :
    argument (Writer.additional v) ⟨Writer.numeral v ++ rest, ()⟩ = .ok (v, ⟨rest, ()⟩) := by
  have hwide : ∀ ai width least, (ai, width, least) ∈ widths → Writer.additional v = ai →
      take width ⟨Writer.numeral v ++ rest, ()⟩ = .ok (v, ⟨rest, ()⟩) := by
    intro ai width least hmem hai
    have hv := (additional_iff_width hmem v).1 hai
    rw [numeral_of_width hmem hv]
    exact take_be_bytes hv.2 rest
  -- Where there is no numeral, the core's own reader says what is read.
  have hcore := (Reader.argument.reads (Writer.additional v)).complete (d := 0) rest rfl
  unfold Reader.argument at hcore
  unfold argument
  split_ifs with h1 h2 h3 h4 h5
  · rw [if_pos h1, run_pure, Except.ok.injEq, Prod.mk.injEq, Input.mk.injEq] at hcore
    rw [run_pure, hcore.1, hcore.2.1]
  · exact hwide 24 1 24 (by simp [widths]) h2
  · exact hwide 25 2 0x100 (by simp [widths]) h3
  · exact hwide 26 4 0x10000 (by simp [widths]) h4
  · exact hwide 27 8 0x100000000 (by simp [widths]) h5
  · rw [if_neg h1, if_neg h2, if_neg h3, if_neg h4, if_neg h5] at hcore
    cases hcore

theorem head_header {major : UInt8} (h : major < 8) (v : UInt64) (rest : Bytes) :
    head ⟨Writer.header major v ++ rest, ()⟩ = .ok ((major, v), ⟨rest, ()⟩) := by
  obtain ⟨hmajor, hinfo⟩ := byte_of_parts h (additional_lt v)
  have harg := argument_numeral v rest
  unfold head
  rw [Writer.header, List.cons_append]
  refine (run_bind_of_ok rfl).trans ?_
  simp only [hmajor, hinfo]
  exact run_bind_of_ok harg

theorem mapHeader_map (len : UInt64) (rest : Bytes) :
    mapHeader ⟨Writer.map len ++ rest, ()⟩ = .ok (len, ⟨rest, ()⟩) :=
  run_bind_of_ok (head_header (by decide) len rest)

theorem uint_uint (v : UInt64) (rest : Bytes) :
    uint ⟨Writer.uint v ++ rest, ()⟩ = .ok (v, ⟨rest, ()⟩) :=
  run_bind_of_ok (head_header (by decide) v rest)

theorem bytes32_bytes (a : Arr 32) (rest : Bytes) :
    bytes32 ⟨Writer.bytes a.bytes ++ rest, ()⟩ = .ok (a, ⟨rest, ()⟩) := by
  have hlen : UInt64.ofNat a.bytes.length = 32 := by rw [a.length_bytes]; rfl
  unfold bytes32 Writer.bytes
  rw [hlen, List.append_assoc]
  refine (run_bind_of_ok (head_header (by decide) 32 _)).trans ?_
  refine (run_bind_of_ok rfl).trans ?_
  refine (run_bind_of_ok ((Reads.take 32 _).complete rest a.length_bytes)).trans ?_
  rw [Arr.try_from_eq_some.2 rfl]
  rfl

end cborReader

/-- A pair of the map turns `e` into `e'`. -/
def Takes (e : Event) (key : UInt64) (value : Bytes) (e' : Event) : Prop :=
  ∀ rest, assignField e key ⟨value ++ rest, ()⟩ = .ok (e', ⟨rest, ()⟩)

/-- The pairs of a map, one after the other, turn `e` into `e'`. -/
inductive TakesAll : Event → List (UInt64 × Bytes) → Event → Prop
  | nil (e : Event) : TakesAll e [] e
  | cons {e e₁ e' : Event} {key : UInt64} {value : Bytes} {pairs : List (UInt64 × Bytes)} :
    Takes e key value e₁ → TakesAll e₁ pairs e' → TakesAll e ((key, value) :: pairs) e'

theorem assignPairs_of_takesAll {e e' : Event} {pairs : List (UInt64 × Bytes)}
    (h : TakesAll e pairs e') (rest : Bytes) :
    assignPairs pairs.length e ⟨pairs.flatMap (fun p => Writer.uint p.1 ++ p.2) ++ rest, ()⟩ =
      .ok (e', ⟨rest, ()⟩) := by
  induction h with
  | nil e => rfl
  | cons hpair hpairs ih =>
    simp only [List.flatMap_cons, List.append_assoc, List.length_cons, assignPairs]
    rw [run_bind_of_ok (cborReader.uint_uint _ _), run_bind_of_ok (hpair _)]
    exact ih

theorem decodeEvent_mapWriter {e : Event} {pairs : List (UInt64 × Bytes)}
    (h : TakesAll {} pairs e) (hlen : pairs.length < 2 ^ 64) :
    decodeEvent (MapWriter pairs) = .ok e := by
  have hpairs := assignPairs_of_takesAll h []
  rw [List.append_nil] at hpairs
  have hcount : (UInt64.ofNat pairs.length).toNat = pairs.length := UInt64.toNat_ofNat_of_lt' hlen
  unfold decodeEvent MapWriter
  rw [cborReader.mapHeader_map]
  change (assignPairs (UInt64.ofNat pairs.length).toNat {} _ >>= _) = _
  rw [hcount, hpairs]
  rfl

/-! ## The pairs -/

theorem takes_uint {e : Event} {key : UInt64} {target : UInt64 → Event}
    (h : assignField e key = cborReader.uint >>= fun v => pure (target v)) (v : UInt64) :
    Takes e key (Writer.uint v) (target v) := by
  intro rest
  rw [h]
  exact run_bind_of_ok (cborReader.uint_uint v rest)

theorem takes_bytes32 {e : Event} {key : UInt64} {target : Arr 32 → Event}
    (h : assignField e key = cborReader.bytes32 >>= fun a => pure (target a)) (a : Arr 32) :
    Takes e key (Writer.bytes a.bytes) (target a) := by
  intro rest
  rw [h]
  exact run_bind_of_ok (cborReader.bytes32_bytes a rest)

/-- The event of the core in the fields of the binding. -/
def ofCore : rtp2_core.events.Event → Event
  | .TransferStarted transfer_id objects total_bytes =>
    { type := EventTransferStarted, TransferID := transfer_id, Objects := objects,
      TotalBytes := total_bytes }
  | .TransferProgress transfer_id role bytes total_bytes chunks total_chunks =>
    { type := EventTransferProgress, TransferID := transfer_id, Bytes := bytes,
      TotalBytes := total_bytes, Chunks := chunks, Total := total_chunks, Role := role.as_u64 }
  | .ObjectCompleted transfer_id object_id plaintext_digest =>
    { type := EventObjectCompleted, TransferID := transfer_id, ObjectID := object_id,
      PlaintextDigest := plaintext_digest }
  | .TransferCompleted transfer_id objects =>
    { type := EventTransferCompleted, TransferID := transfer_id, Objects := objects }
  | .TransferFailed transfer_id code =>
    { type := EventTransferFailed, TransferID := transfer_id, Code := code }
  | .TransferCancelled transfer_id =>
    { type := EventTransferCancelled, TransferID := transfer_id }
  | .EventsDropped lost => { type := EventsDropped, Lost := lost }
  | .TransferRoute transfer_id route address_class =>
    { type := EventTransferRoute, TransferID := transfer_id, Route := route,
      AddressClass := address_class.getD 0, HasAddress := address_class.isSome }

/-- Field by field, whatever the event: the cases follow the pairs that
`encode` writes, and each pair finds its field by its key and the type. -/
theorem decodeEvent_encode (event : rtp2_core.events.Event) :
    decodeEvent event.encode = .ok (ofCore event) := by
  cases event with
  | TransferStarted transfer_id objects total_bytes =>
    refine decodeEvent_mapWriter ?_ (by simp)
    refine .cons (takes_uint rfl 1) ?_
    refine .cons (takes_bytes32 rfl transfer_id) ?_
    refine .cons (takes_uint rfl objects) ?_
    refine .cons (takes_uint rfl total_bytes) ?_
    exact .nil _
  | TransferProgress transfer_id role bytes total_bytes chunks total_chunks =>
    refine decodeEvent_mapWriter ?_ (by simp)
    refine .cons (takes_uint rfl 2) ?_
    refine .cons (takes_bytes32 rfl transfer_id) ?_
    refine .cons (takes_uint rfl bytes) ?_
    refine .cons (takes_uint rfl total_bytes) ?_
    refine .cons (takes_uint rfl chunks) ?_
    refine .cons (takes_uint rfl total_chunks) ?_
    refine .cons (takes_uint rfl role.as_u64) ?_
    exact .nil _
  | ObjectCompleted transfer_id object_id plaintext_digest =>
    refine decodeEvent_mapWriter ?_ (by simp)
    refine .cons (takes_uint rfl 3) ?_
    refine .cons (takes_bytes32 rfl transfer_id) ?_
    refine .cons (takes_bytes32 rfl object_id) ?_
    refine .cons (takes_bytes32 rfl plaintext_digest) ?_
    exact .nil _
  | TransferCompleted transfer_id objects =>
    refine decodeEvent_mapWriter ?_ (by simp)
    refine .cons (takes_uint rfl 4) ?_
    refine .cons (takes_bytes32 rfl transfer_id) ?_
    refine .cons (takes_uint rfl objects) ?_
    exact .nil _
  | TransferFailed transfer_id code =>
    refine decodeEvent_mapWriter ?_ (by simp)
    refine .cons (takes_uint rfl 5) ?_
    refine .cons (takes_bytes32 rfl transfer_id) ?_
    refine .cons (takes_uint rfl code) ?_
    exact .nil _
  | TransferCancelled transfer_id =>
    refine decodeEvent_mapWriter ?_ (by simp)
    refine .cons (takes_uint rfl 6) ?_
    refine .cons (takes_bytes32 rfl transfer_id) ?_
    exact .nil _
  | EventsDropped lost =>
    refine decodeEvent_mapWriter ?_ (by simp)
    refine .cons (takes_uint rfl 7) ?_
    -- Key 1 is the counter here, not an id.
    refine .cons (takes_uint rfl lost) ?_
    exact .nil _
  | TransferRoute transfer_id route address_class =>
    cases address_class with
    | none =>
      refine decodeEvent_mapWriter ?_ (by simp)
      refine .cons (takes_uint rfl 8) ?_
      refine .cons (takes_bytes32 rfl transfer_id) ?_
      refine .cons (takes_uint rfl route) ?_
      exact .nil _
    | some cls =>
      refine decodeEvent_mapWriter ?_ (by simp)
      refine .cons (takes_uint rfl 8) ?_
      refine .cons (takes_bytes32 rfl transfer_id) ?_
      refine .cons (takes_uint rfl route) ?_
      refine .cons (takes_uint rfl cls) ?_
      exact .nil _

theorem hasAddress_ofCore (event : rtp2_core.events.Event) :
    (ofCore event).HasAddress = true ↔
      ∃ transfer_id route cls, event = .TransferRoute transfer_id route (some cls) := by
  cases event with
  | TransferRoute transfer_id route address_class => cases address_class <;> simp [ofCore]
  | _ => simp [ofCore]

/-- The binding decodes every event of the core: to the same type code, the
same fields and zero in the others, with an address just if there is a class,
and terminal just if the core calls it so. -/
theorem the_binding_decodes_what_the_core_encodes (event : rtp2_core.events.Event) :
    decodeEvent event.encode = .ok (ofCore event) ∧
    (ofCore event).type = event.type_code ∧
    ((ofCore event).HasAddress = true ↔
      ∃ transfer_id route cls, event = .TransferRoute transfer_id route (some cls)) ∧
    (ofCore event).Terminal = event.is_terminal := by
  refine ⟨decodeEvent_encode event, ?_, hasAddress_ofCore event, ?_⟩
  · cases event <;> rfl
  · cases event <;> rfl

end rtp2
