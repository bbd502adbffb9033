-- The RTP-CBOR reader and writer: definite lengths, shortest-form integers,
-- unsigned map keys in strictly increasing order, a nesting depth of at most
-- 16. Every reader below reads just what the writer of the same name writes.
import Reyta.Bytes
import Reyta.ExactParser

open byte_string exact_parse

namespace rtp2_core.cbor

def MAX_DEPTH : Nat := 16
def MAX_CONTROL_SIZE : Nat := 1024 * 1024

def MAJOR_UINT : UInt8 := 0
def MAJOR_BYTES : UInt8 := 2
def MAJOR_TEXT : UInt8 := 3
def MAJOR_ARRAY : UInt8 := 4
def MAJOR_MAP : UInt8 := 5
def MAJOR_SIMPLE : UInt8 := 7

def SIMPLE_FALSE : UInt8 := 20
def SIMPLE_TRUE : UInt8 := 21

inductive CborError where
  | Truncated
  | NonCanonical
  | ForbiddenType
  | DepthExceeded
  | SizeExceeded
  | KeyOrder
  | UnexpectedType
  | TrailingBytes
  | MissingField (key : UInt64)
  | InvalidUtf8
  | InvalidValue
  deriving DecidableEq, Repr

/-! ## The writer -/

namespace Writer

/-- The additional information of a head: the value, or the width of the
numeral that follows. -/
def additional (value : UInt64) : UInt8 :=
  if value < 24 then value.toUInt8
  else if value ≤ 0xff then 24
  else if value ≤ 0xffff then 25
  else if value ≤ 0xffffffff then 26
  else 27

/-- The numeral that follows the first byte of a head. -/
def numeral (value : UInt64) : Bytes :=
  if value < 24 then []
  else if value ≤ 0xff then be_bytes 1 value.toNat
  else if value ≤ 0xffff then be_bytes 2 value.toNat
  else if value ≤ 0xffffffff then be_bytes 4 value.toNat
  else be_bytes 8 value.toNat

def header (major : UInt8) (value : UInt64) : Bytes :=
  (major <<< 5 ||| additional value) :: numeral value

def uint (value : UInt64) : Bytes := header MAJOR_UINT value

def bytes (value : Bytes) : Bytes := header MAJOR_BYTES (.ofNat value.length) ++ value

/-- The bytes of a text. -/
def as_bytes (value : String) : Bytes := value.toByteArray.data.toList

def text (value : String) : Bytes :=
  header MAJOR_TEXT (.ofNat (as_bytes value).length) ++ as_bytes value

def boolean (value : Bool) : Bytes :=
  [MAJOR_SIMPLE <<< 5 ||| if value then SIMPLE_TRUE else SIMPLE_FALSE]

def array (len : UInt64) : Bytes := header MAJOR_ARRAY len

def map (len : UInt64) : Bytes := header MAJOR_MAP len

end Writer

/-- `MapWriter::begin`, one call for each entry, and `end`. -/
def MapWriter (entries : List (UInt64 × Bytes)) : Bytes :=
  Writer.map (.ofNat entries.length) ++ entries.flatMap fun e => Writer.uint e.1 ++ e.2

/-! ## The reader -/

/-- A reader over the bytes left, with the nesting depth as its mark. -/
abbrev Parse (ε α : Type) := Parser UInt8 Nat ε α

/-- The bytes left and the depth at a call. -/
abbrev Reader := Input UInt8 Nat

namespace Reader

def new (buf : Bytes) : Except CborError Reader :=
  if buf.length > MAX_CONTROL_SIZE then .error .SizeExceeded else .ok ⟨buf, 0⟩

def new_unbounded (buf : Bytes) : Reader := ⟨buf, 0⟩

def finish : Parse CborError Unit := fun r =>
  if r.rest = [] then .ok ((), r) else .error .TrailingBytes

def take (n : Nat) : Parse CborError Bytes := exact_parse.take n .Truncated

/-- A numeral of `width` bytes, which may not be below `least`. -/
def wide (width : Nat) (least : UInt64) : Parse CborError UInt64 := do
  let raw ← take width
  let v : UInt64 := .ofNat (of_be raw)
  fail_if (v < least) .NonCanonical
  pure v

/-- The value of a head with the additional information `ai`. -/
def argument (ai : UInt8) : Parse CborError UInt64 :=
  if ai < 24 then pure ai.toUInt64
  else if ai = 24 then wide 1 24
  else if ai = 25 then wide 2 0x100
  else if ai = 26 then wide 4 0x10000
  else if ai = 27 then wide 8 0x100000000
  else fail .ForbiddenType

def head : Parse CborError (UInt8 × UInt64) := do
  let first ← next .Truncated
  let major := first >>> 5
  let ai := first &&& 0x1f
  let value ← argument ai
  fail_if (major = MAJOR_SIMPLE ∧ value ≠ SIMPLE_FALSE.toUInt64 ∧ value ≠ SIMPLE_TRUE.toUInt64)
    .ForbiddenType
  pure (major, value)

/-- A head whose major type has to be `wanted`. -/
def typed_head (wanted : UInt8) : Parse CborError UInt64 := do
  let (major, value) ← head
  fail_if (major ≠ wanted) .UnexpectedType
  pure value

def boolean : Parse CborError Bool := do
  let value ← typed_head MAJOR_SIMPLE
  pure (value == SIMPLE_TRUE.toUInt64)

def peek_major : Parse CborError UInt8 := peek (· >>> 5) .Truncated

def uint : Parse CborError UInt64 := typed_head MAJOR_UINT

/-- A head of the type `wanted` with a length, and as many bytes. -/
def sized (wanted : UInt8) : Parse CborError Bytes := do
  let len ← typed_head wanted
  take len.toNat

def bytes : Parse CborError Bytes := sized MAJOR_BYTES

def bytes_exact (n : Nat) : Parse CborError (Arr n) := do
  let raw ← bytes
  match Arr.try_from n raw with
  | some a => pure a
  | none => fail .InvalidValue

def text : Parse CborError String := do
  let raw ← sized MAJOR_TEXT
  match String.fromUTF8? ⟨raw.toArray⟩ with
  | some s => pure s
  | none => fail .InvalidUtf8

def enter : Parse CborError Unit := fun r =>
  if r.mark + 1 > MAX_DEPTH then .error .DepthExceeded else .ok ((), { r with mark := r.mark + 1 })

def leave {ε : Type} : Parse ε Unit := fun r => .ok ((), { r with mark := r.mark - 1 })

def array : Parse CborError UInt64 := do
  let len ← typed_head MAJOR_ARRAY
  enter
  pure len

/-- An array: its head, a check of the number of its items, the loop that reads
them with `p`, and `leave`. -/
def array_if {ε α : Type} (bad : CborError → ε) (refused : UInt64 → Bool) (e : ε) (p : Parse ε α) :
    Parse ε (List α) := do
  let n ← map_err bad array
  fail_if (refused n) e
  let l ← times p n.toNat
  leave
  pure l

/-- An array of at most `limit` items. -/
def array_of {ε α : Type} (bad : CborError → ε) (limit : UInt64) (e : ε) (p : Parse ε α) :
    Parse ε (List α) :=
  array_if bad (fun n => n > limit) e p

end Reader

/-- What a map reader keeps besides the reader it borrows. -/
structure MapReader where
  remaining : Nat
  last_key : Option UInt64

def Reader.map : Parse CborError MapReader := do
  let len ← typed_head MAJOR_MAP
  enter
  pure ⟨len.toNat, none⟩

namespace MapReader

/-- The next key, or `none` when the map is done. -/
def next_key (m : MapReader) : Parse CborError (Option UInt64 × MapReader) :=
  if m.remaining = 0 then do
    Reader.leave
    pure (none, m)
  else do
    let key ← Reader.uint
    fail_if (∃ last, m.last_key = some last ∧ key ≤ last) .KeyOrder
    pure (some key, ⟨m.remaining - 1, some key⟩)

/-- Requires the next key to be exactly `key`. -/
def expect_key (m : MapReader) (key : UInt64) : Parse CborError MapReader := do
  let (k, m) ← m.next_key
  if k = some key then pure m else fail (.MissingField key)

/-- The check that closes a map: a further key stops with `e`. -/
def expect_end {ε : Type} (bad : CborError → ε) (m : MapReader) (e : ε) : Parse ε Unit := do
  let (k, _) ← map_err bad m.next_key
  fail_if k.isSome e

/-- The loop over the entries that are left, `while next_key()?.is_some()`,
where the reader of a value is chosen by its key. -/
def entries_by {ε α : Type} (bad : CborError → ε) (p : UInt64 → Parse ε α) :
    Nat → Option UInt64 → Parse ε (List (UInt64 × α))
  | 0, last_key => do
    let _ ← map_err bad (next_key ⟨0, last_key⟩)
    pure []
  | n + 1, last_key => do
    let (key, m) ← map_err bad (next_key ⟨n + 1, last_key⟩)
    let a ← p (key.getD 0)
    let l ← entries_by bad p n m.last_key
    pure ((key.getD 0, a) :: l)

/-- The same loop, with `p` for each value. -/
def entries {ε α : Type} (bad : CborError → ε) (p : Parse ε α) :
    Nat → Option UInt64 → Parse ε (List (UInt64 × α)) :=
  entries_by bad fun _ => p

end MapReader

/-- Reads one value with `p` and requires it to end the input, as
`Reader::finish` does. -/
def Reader.read_all {ε α : Type} (bad : CborError → ε) (p : Parse ε α) (r : Reader) :
    Except ε α := do
  let (a, r) ← p r
  let _ ← map_err bad Reader.finish r
  pure a

end rtp2_core.cbor
