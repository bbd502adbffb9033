-- The resumption secrets of a device: one file of at most 64 entries, each with
-- a lifetime of at most a day. A secret is taken out of the file before it is
-- handed out, so over any history, with writes that fail and with crashes, what
-- was stored once is handed out at most once.
import Mathlib.Data.List.Sort
import Reyta.CallMachine
import Reyta.Interleaving
import Reyta.OldestOut
import Reyta.OneUse
import Reyta.SealedRecord

open byte_string call_machine exact_parse interleaving oldest_out one_use

namespace rtp2_core.store

open cbor crypto StoreError

def RESUMPTION_DOMAIN : Bytes := ascii "RTP2-RESUMPTION-v1"
def RESUMPTION_PAYLOAD_VERSION : UInt64 := 1
def RESUMPTION_MAX_LIFETIME_SECS : UInt64 := 24 * 60 * 60
def MAX_RESUMPTION_ENTRIES : UInt64 := 64

structure DeviceStore where
  dir : String
  sealer : SecretSealer
  minimum_protection : Protection

def DeviceStore.resumption_path (self : DeviceStore) : String := self.dir ++ "/resumption.rtp2"

structure ResumptionEntry where
  resumption_id : Arr 16
  peer_device_id : Arr 32
  secret : Arr 48
  suite_id : UInt16
  protocol_major : UInt16
  created_at : UInt64
  expires_at : UInt64
  deriving DecidableEq

/-! ## The file -/

namespace ResumptionEntry

def encode (e : ResumptionEntry) : Bytes :=
  MapWriter [(0, Writer.bytes e.resumption_id.bytes), (1, Writer.bytes e.peer_device_id.bytes),
    (2, Writer.bytes e.secret.bytes), (3, Writer.uint e.suite_id.toUInt64),
    (4, Writer.uint e.protocol_major.toUInt64), (5, Writer.uint e.created_at),
    (6, Writer.uint e.expires_at)]

def decode : Parse StoreError ResumptionEntry := do
  let em ← map_err from_cbor Reader.map
  let em ← map_err from_cbor (em.expect_key 0)
  let resumption_id ← map_err from_cbor (Reader.bytes_exact 16)
  let em ← map_err from_cbor (em.expect_key 1)
  let peer_device_id ← map_err from_cbor (Reader.bytes_exact 32)
  let em ← map_err from_cbor (em.expect_key 2)
  let secret ← map_err from_cbor (Reader.bytes_exact 48)
  let em ← map_err from_cbor (em.expect_key 3)
  let suite_id ← map_err from_cbor Reader.uint
  let em ← map_err from_cbor (em.expect_key 4)
  let protocol_major ← map_err from_cbor Reader.uint
  let em ← map_err from_cbor (em.expect_key 5)
  let created_at ← map_err from_cbor Reader.uint
  let em ← map_err from_cbor (em.expect_key 6)
  let expires_at ← map_err from_cbor Reader.uint
  em.expect_end from_cbor .Corrupt
  fail_if (suite_id > 0xffff ∨ protocol_major > 0xffff) .Corrupt
  pure ⟨resumption_id, peer_device_id, secret, suite_id.toUInt16, protocol_major.toUInt16,
    created_at, expires_at⟩

end ResumptionEntry

/-- The payload of the record. -/
def encode_entries (entries : List ResumptionEntry) : Bytes :=
  MapWriter [(0, Writer.uint RESUMPTION_PAYLOAD_VERSION),
    (1, Writer.array (.ofNat entries.length) ++ entries.flatMap ResumptionEntry.encode)]

def read_entries : Parse StoreError (List ResumptionEntry) := do
  let m ← map_err from_cbor Reader.map
  let m ← map_err from_cbor (m.expect_key 0)
  let version ← map_err from_cbor Reader.uint
  fail_if (version ≠ RESUMPTION_PAYLOAD_VERSION) .VersionMismatch
  let m ← map_err from_cbor (m.expect_key 1)
  let entries ← Reader.array_of from_cbor MAX_RESUMPTION_ENTRIES .Corrupt ResumptionEntry.decode
  m.expect_end from_cbor .Corrupt
  pure entries

def decode_entries (payload : Bytes) : Except StoreError (List ResumptionEntry) := do
  let r ← (Reader.new payload).mapError from_cbor
  Reader.read_all from_cbor read_entries r

/-! ## What the calls do to the entries -/

/-- The entry as it is stored, with its lifetime cut to a day. -/
def ResumptionEntry.clamped (e : ResumptionEntry) : ResumptionEntry :=
  let ceiling := saturating_add e.created_at RESUMPTION_MAX_LIFETIME_SECS
  { e with expires_at := min e.expires_at ceiling }

/-- The entries that a store of `entry` keeps beside it, before any of them has to
make room. -/
def others (entries : List ResumptionEntry) (entry : ResumptionEntry) (now : UInt64) :
    List ResumptionEntry :=
  entries.filter fun e => e.resumption_id ≠ entry.resumption_id ∧ e.expires_at > now

/-- The entries with `entry` stored: the older ones come first, and go first
when there are too many. -/
def entries_with (entries : List ResumptionEntry) (entry : ResumptionEntry) (now : UInt64) :
    List ResumptionEntry :=
  let kept := others entries entry now ++ [entry.clamped]
  let sorted := kept.insertionSort fun a b => a.created_at ≤ b.created_at
  sorted.drop (sorted.length - MAX_RESUMPTION_ENTRIES.toNat)

/-- The entry with the id, and the entries that are left without it. -/
def entries_without (entries : List ResumptionEntry) (resumption_id : Arr 16) (now : UInt64) :
    Option (ResumptionEntry × List ResumptionEntry) := do
  let index ← entries.findIdx? fun e => ct_eq e.resumption_id.bytes resumption_id.bytes
  let candidate ← entries[index]?
  pure (candidate, (entries.eraseIdx index).filter fun e => e.expires_at > now)

/-- The checks before an entry is handed out. -/
def ResumptionEntry.usable (candidate : ResumptionEntry) (peer_device_id : Arr 32)
    (suite_id protocol_major : UInt16) (now : UInt64) : Bool :=
  !(now ≥ candidate.expires_at ||
    !ct_eq candidate.peer_device_id.bytes peer_device_id.bytes ||
    candidate.suite_id != suite_id || candidate.protocol_major != protocol_major)

/-! ## The calls -/

/-- The steps on the record file that other processes can see: it is read, and
it is replaced by a rename. -/
inductive FileOp where
  | read
  | replace (bytes : Bytes)

def FileOp.Answer : FileOp → Type
  | .read => Found
  | .replace _ => Except StoreError Unit

abbrev FileTask := Task FileOp FileOp.Answer StoreError

def read_file : FileTask Found := Task.ask FileOp.read

def replace_file (bytes : Bytes) : FileTask Unit := do
  let renamed : Except StoreError Unit ← Task.ask (FileOp.replace bytes)
  Task.of renamed

variable (P : Primitives)

namespace DeviceStore

/-- The entries of the file that was found. -/
def entries_of (self : DeviceStore) (found : Found) : Except StoreError (List ResumptionEntry) := do
  let payload ← read_sealed P self.resumption_path RESUMPTION_DOMAIN self.sealer
    self.minimum_protection found
  match payload with
  | none => pure []
  | some payload => decode_entries payload

def load_resumption_entries (self : DeviceStore) : FileTask (List ResumptionEntry) := do
  let found ← read_file
  Task.of (self.entries_of P found)

/-- The file with the entries. -/
def entries_file (self : DeviceStore) (random : Arr 24) (entries : List ResumptionEntry) :
    Except StoreError Bytes :=
  write_sealed P RESUMPTION_DOMAIN self.sealer random (encode_entries entries)

def write_resumption_entries (self : DeviceStore) (random : Arr 24)
    (entries : List ResumptionEntry) : FileTask Unit := do
  let bytes ← Task.of (self.entries_file P random entries)
  replace_file bytes

def store_resumption (self : DeviceStore) (random : Arr 24) (entry : ResumptionEntry)
    (now : UInt64) : FileTask Unit := do
  let entries ← self.load_resumption_entries P
  self.write_resumption_entries P random (entries_with entries entry now)

def take_resumption (self : DeviceStore) (random : Arr 24) (resumption_id : Arr 16)
    (peer_device_id : Arr 32) (suite_id protocol_major : UInt16) (now : UInt64) :
    FileTask (Option ResumptionEntry) := do
  let entries ← self.load_resumption_entries P
  match entries_without entries resumption_id now with
  | none => pure none
  | some (candidate, rest) =>
    self.write_resumption_entries P random rest
    if candidate.usable peer_device_id suite_id protocol_major now then pure (some candidate)
    else pure none

end DeviceStore

/-- A call, with its arguments. -/
inductive Request where
  | store_resumption (entry : ResumptionEntry) (now : UInt64)
  | take_resumption (resumption_id : Arr 16) (peer_device_id : Arr 32)
      (suite_id protocol_major : UInt16) (now : UInt64)

/-- What a call returns. -/
inductive Returned where
  | stored (r : Except StoreError Unit)
  | took (r : Except StoreError (Option ResumptionEntry))
  deriving DecidableEq

def Returned.entry : Returned → Option ResumptionEntry
  | .took (.ok e) => e
  | _ => none

def Request.prog (store : DeviceStore) (random : Arr 24) :
    Request → Prog FileOp FileOp.Answer Returned
  | .store_resumption entry now => do
    let r ← (store.store_resumption P random entry now).run
    pure (.stored r)
  | .take_resumption resumption_id peer_device_id suite_id protocol_major now => do
    let r ← (store.take_resumption P random resumption_id peer_device_id suite_id protocol_major
      now).run
    pure (.took r)

/-! ## Reading back what was written -/

theorem ResumptionEntry.decode.reads :
    Reads ResumptionEntry.decode (fun d _ => d < MAX_DEPTH) ResumptionEntry.encode
      (fun d _ => d) := by
  unfold ResumptionEntry.decode
  refine Reads.congr (MapBody.start (fun _ : ResumptionEntry => 7) (fun _ => by decide)
    fun m hm => MapBody.key (by simp [hm])
    fun m hm => MapBody.value ResumptionEntry.resumption_id
      ((Reader.bytes_exact.reads (by decide)).map_err _) (fun _ => MapBody.key (by simp [hm])
    fun m hm => MapBody.value ResumptionEntry.peer_device_id
      ((Reader.bytes_exact.reads (by decide)).map_err _) (fun _ => MapBody.key (by simp [hm])
    fun m hm => MapBody.value ResumptionEntry.secret
      ((Reader.bytes_exact.reads (by decide)).map_err _) (fun _ => MapBody.key (by simp [hm])
    fun m hm => MapBody.value (fun e : ResumptionEntry => e.suite_id.toUInt64)
      (Reader.uint.reads.map_err _) (fun _ => MapBody.key (by simp [hm])
    fun m hm => MapBody.value (fun e : ResumptionEntry => e.protocol_major.toUInt64)
      (Reader.uint.reads.map_err _) (fun _ => MapBody.key (by simp [hm])
    fun m hm => MapBody.value ResumptionEntry.created_at
      (Reader.uint.reads.map_err _) (fun _ => MapBody.key (by simp [hm])
    fun m hm => MapBody.value ResumptionEntry.expires_at
      (Reader.uint.reads.map_err _) (fun _ => MapBody.stop _ (Reads.fail_if _ _ (Reads.pure _)))
      ?_) ?_) ?major) ?suite) ?_) ?_) ?_) ?admits ?writes ?depth
  case admits =>
    intro d e
    simp [-gt_iff_lt, toUInt64_not_gt]
  case writes =>
    intro d e _
    simp [ResumptionEntry.encode, MapWriter]
  case depth =>
    intro d e _
    rfl
  case major =>
    rintro d v e - ⟨-, -, hv, he⟩
    rw [he]
    exact toUInt16_back fun h => hv (.inr h)
  case suite =>
    rintro d v e - ⟨-, -, -, hv, he⟩
    rw [he]
    exact toUInt16_back fun h => hv (.inl h)
  all_goals grind

theorem read_entries.reads :
    Reads read_entries
      (fun d entries => d + 1 < MAX_DEPTH ∧ entries.length ≤ MAX_RESUMPTION_ENTRIES.toNat ∧
        ∀ e ∈ entries, d + 2 < MAX_DEPTH)
      encode_entries (fun d _ => d) := by
  unfold read_entries
  refine Reads.congr (MapBody.start (fun _ : List ResumptionEntry => 2) (fun _ => by decide)
    fun m hm => MapBody.key (by simp [hm])
    fun m hm => MapBody.value (fun _ => RESUMPTION_PAYLOAD_VERSION)
      (Reader.uint.reads.map_err _) (fun _ => MapBody.value (fun _ => ())
      (Reads.check _ _) (fun _ => MapBody.key (by simp [hm])
    fun m hm => MapBody.value id
      (Reader.array_of.reads ResumptionEntry.decode.reads)
      (fun _ => MapBody.stop _ (Reads.pure _)) ?_) ?_) ?_) ?admits ?writes ?depth
  case admits =>
    intro d entries
    have hd : d + 1 < MAX_DEPTH → d < MAX_DEPTH := Nat.lt_of_succ_lt
    constructor
    · rintro ⟨-, -, -, h, -⟩
      exact h
    · intro h
      exact ⟨hd h.1, trivial, not_not.2 rfl, h, rfl⟩
  case writes =>
    intro d e _
    simp [encode_entries, MapWriter]
  case depth =>
    intro d e _
    rfl
  all_goals grind

theorem length_encode_entries_le {entries : List ResumptionEntry}
    (h : entries.length ≤ MAX_RESUMPTION_ENTRIES.toNat) :
    (encode_entries entries).length ≤ 2 ^ 14 := by
  have hone : ∀ e ∈ entries, e.encode.length ≤ 231 := by
    intro e _
    refine Nat.le_trans (length_mapWriter_le_of (.cons (length_bytes_le _)
      (.cons (length_bytes_le _) (.cons (length_bytes_le _) (.cons (length_uint_le _)
      (.cons (length_uint_le _) (.cons (length_uint_le _) (.cons (length_uint_le _)
      .nil)))))))) ?_
    simp
  have hall : (entries.flatMap ResumptionEntry.encode).length ≤ 231 * entries.length :=
    length_flatMap_le hone
  have harray : (Writer.array (.ofNat entries.length) ++
      entries.flatMap ResumptionEntry.encode).length ≤ 9 + 231 * 64 := by
    rw [List.length_append]
    exact Nat.add_le_add (length_header_le _ _) (Nat.le_trans hall (Nat.mul_le_mul_left _ h))
  refine Nat.le_trans (length_mapWriter_le_of (.cons (length_uint_le _) (.cons harray .nil))) ?_
  simp

theorem decode_encode_entries {entries : List ResumptionEntry}
    (h : entries.length ≤ MAX_RESUMPTION_ENTRIES.toNat) :
    decode_entries (encode_entries entries) = .ok entries :=
  (Reader.new_read_all_eq_ok read_entries.reads).2
    ⟨Nat.le_trans (length_encode_entries_le h) (by decide), ⟨by decide, h, fun _ _ => by decide⟩,
      rfl⟩

/-! ## What a store keeps -/

/-- By the time they were created. -/
abbrev Older (a b : ResumptionEntry) : Prop := a.created_at ≤ b.created_at

instance : Std.Total Older where
  total a b := UInt64.le_total a.created_at b.created_at

instance : IsTrans ResumptionEntry Older where
  trans _ _ _ := UInt64.le_trans

theorem entries_with_eq {entries : List ResumptionEntry} {entry : ResumptionEntry}
    {now : UInt64} : entries_with entries entry now =
    keep_last Older MAX_RESUMPTION_ENTRIES.toNat (others entries entry now ++ [entry.clamped]) :=
  rfl

/-! ## What the calls do to the file -/

variable {P} {store : DeviceStore} {file : Option Bytes} {entries : List ResumptionEntry}

/-- What a process finds at the path. -/
def Found.of : Option Bytes → Found
  | none => .missing
  | some bytes => .private bytes

/-- The file is the one that was written for the entries. -/
structure DeviceStore.Holds (P : Primitives) (store : DeviceStore) (file : Option Bytes)
    (entries : List ResumptionEntry) : Prop where
  few : entries.length ≤ MAX_RESUMPTION_ENTRIES.toNat
  written : file = none ∧ entries = [] ∨
    ∃ random bytes, file = some bytes ∧ store.entries_file P random entries = .ok bytes

theorem DeviceStore.Holds.entries_of (h : store.Holds P file entries)
    (hopens : store.sealer.Opens) :
    store.entries_of P (.of file) = .ok entries ∨
      store.sealer.protection < store.minimum_protection ∧
        store.entries_of P (.of file) = .error .ProtectionDowngrade := by
  rcases h.written with ⟨rfl, rfl⟩ | ⟨random, bytes, rfl, hwrite⟩
  · exact .inl rfl
  · have hread := read_sealed_of_write hopens store.resumption_path store.minimum_protection hwrite
    unfold DeviceStore.entries_of Found.of
    rw [hread]
    by_cases hlevel : store.sealer.protection < store.minimum_protection
    · rw [if_pos hlevel]
      exact .inr ⟨hlevel, rfl⟩
    · rw [if_neg hlevel]
      exact .inl (decode_encode_entries h.few)

/-! ## What a request does to the entries -/

namespace Request

/-- The entry that it adds. -/
def put : Request → Option ResumptionEntry
  | .store_resumption entry _ => some entry.clamped
  | .take_resumption .. => none

/-- The entry it hands out and the entries it leaves, or nothing if it does not
write the file. -/
def effect (entries : List ResumptionEntry) :
    Request → Option (Option ResumptionEntry × List ResumptionEntry)
  | .store_resumption entry now => some (none, entries_with entries entry now)
  | .take_resumption resumption_id peer_device_id suite_id protocol_major now =>
    (entries_without entries resumption_id now).map fun (candidate, rest) =>
      (if candidate.usable peer_device_id suite_id protocol_major now then some candidate else none,
        rest)

/-- It asked for this entry, and the entry is not expired. -/
def Grants (e : ResumptionEntry) : Request → Prop
  | .store_resumption _ _ => False
  | .take_resumption resumption_id peer_device_id suite_id protocol_major now =>
    e.resumption_id = resumption_id ∧ e.peer_device_id = peer_device_id ∧
      e.suite_id = suite_id ∧ e.protocol_major = protocol_major ∧ now < e.expires_at

def done (given : Option ResumptionEntry) : Request → Returned
  | .store_resumption .. => .stored (.ok ())
  | .take_resumption .. => .took (.ok given)

def failed (e : StoreError) : Request → Returned
  | .store_resumption .. => .stored (.error e)
  | .take_resumption .. => .took (.error e)

/-- The program when it knows what to do to the entries. -/
def finish (P : Primitives) (store : DeviceStore) (random : Arr 24) (r : Request) :
    Option (Option ResumptionEntry × List ResumptionEntry) → Prog FileOp FileOp.Answer Returned
  | none => .ret (r.done none)
  | some (given, left) =>
    match store.entries_file P random left with
    | .error e => .ret (r.failed e)
    | .ok bytes => .ask (.replace bytes) fun
      | .error e => .ret (r.failed e)
      | .ok () => .ret (r.done given)

/-- The program after it has loaded the entries. -/
def rest (P : Primitives) (store : DeviceStore) (random : Arr 24) (r : Request) :
    Except StoreError (List ResumptionEntry) → Prog FileOp FileOp.Answer Returned
  | .error e => .ret (r.failed e)
  | .ok entries => r.finish P store random (r.effect entries)

/-- The file is written, and the rename has the result. -/
theorem write_bind (store : DeviceStore) (random : Arr 24) (left : List ResumptionEntry) {α : Type}
    (f : Except StoreError Unit → Prog FileOp FileOp.Answer α) :
    Prog.bind (store.write_resumption_entries P random left).run f =
      match store.entries_file P random left with
      | .error e => f (.error e)
      | .ok bytes => .ask (.replace bytes) f := by
  unfold DeviceStore.write_resumption_entries
  cases store.entries_file P random left with
  | error e => rfl
  | ok bytes =>
    refine congrArg (Prog.ask (FileOp.replace bytes)) (funext fun renamed => ?_)
    cases renamed <;> rfl

theorem prog_eq (store : DeviceStore) (random : Arr 24) (r : Request) :
    r.prog P store random =
      .ask .read fun found => r.rest P store random (store.entries_of P found) := by
  cases r with
  | store_resumption entry now =>
    refine congrArg (Prog.ask FileOp.read) (funext fun found => ?_)
    change Prog.bind (ExceptT.bindCont _ (store.entries_of P found)) _ = _
    cases store.entries_of P found with
    | error e => rfl
    | ok entries =>
      refine (write_bind store random (entries_with entries entry now) _).trans ?_
      change _ = finish P store random _ (some (none, entries_with entries entry now))
      simp only [finish]
      cases store.entries_file P random (entries_with entries entry now) with
      | error e => rfl
      | ok bytes =>
        refine congrArg (Prog.ask (FileOp.replace bytes)) (funext fun renamed => ?_)
        cases renamed <;> rfl
  | take_resumption resumption_id peer_device_id suite_id protocol_major now =>
    refine congrArg (Prog.ask FileOp.read) (funext fun found => ?_)
    change Prog.bind (ExceptT.bindCont _ (store.entries_of P found)) _ = _
    cases store.entries_of P found with
    | error e => rfl
    | ok entries =>
      change Prog.bind (ExceptT.run (match entries_without entries resumption_id now with
        | none => pure none
        | some (candidate, rest) => do
          store.write_resumption_entries P random rest
          if candidate.usable peer_device_id suite_id protocol_major now then pure (some candidate)
          else pure none)) _ = finish P store random _ ((entries_without entries resumption_id
            now).map _)
      cases entries_without entries resumption_id now with
      | none => rfl
      | some taken =>
        obtain ⟨candidate, left⟩ := taken
        change Prog.bind (Prog.bind (store.write_resumption_entries P random left).run
          (ExceptT.bindCont _)) _ = finish P store random _ (some (_, left))
        rw [write_bind]
        simp only [finish]
        cases store.entries_file P random left with
        | error e => rfl
        | ok bytes =>
          refine congrArg (Prog.ask (FileOp.replace bytes)) (funext fun renamed => ?_)
          by_cases husable : candidate.usable peer_device_id suite_id protocol_major now
          · cases renamed <;> simp [husable] <;> rfl
          · cases renamed <;> simp [husable] <;> rfl

theorem entries_with_subperm (entries : List ResumptionEntry) (entry : ResumptionEntry)
    (now : UInt64) : (entries_with entries entry now).Subperm (entries ++ [entry.clamped]) := by
  rw [entries_with_eq]
  refine (keep_last_subperm _ _).trans ?_
  exact (List.subperm_append_right _).2 List.filter_sublist.subperm

theorem length_entries_with_le (entries : List ResumptionEntry) (entry : ResumptionEntry)
    (now : UInt64) :
    (entries_with entries entry now).length ≤ MAX_RESUMPTION_ENTRIES.toNat := by
  rw [entries_with_eq]
  exact length_keep_last_le _ _

theorem entries_without_eq_some {resumption_id : Arr 16} {now : UInt64}
    {candidate : ResumptionEntry} {left : List ResumptionEntry}
    (h : entries_without entries resumption_id now = some (candidate, left)) :
    candidate.resumption_id = resumption_id ∧ (candidate :: left).Subperm entries := by
  unfold entries_without at h
  simp only [Option.bind_eq_bind, Option.bind_eq_some_iff, Option.pure_def, Option.some.injEq,
    Prod.mk.injEq] at h
  obtain ⟨index, hindex, _, hcandidate, rfl, rfl⟩ := h
  obtain ⟨hlt, hid, -⟩ := List.findIdx?_eq_some_iff_getElem.1 hindex
  obtain ⟨_, rfl⟩ := List.getElem?_eq_some_iff.1 hcandidate
  refine ⟨Arr.ext (ct_eq_iff.1 hid), ?_⟩
  exact ((List.subperm_cons _).2 List.filter_sublist.subperm).trans
    (List.getElem_cons_eraseIdx_perm hlt).subperm

theorem usable_iff {e : ResumptionEntry} {peer_device_id : Arr 32}
    {suite_id protocol_major : UInt16} {now : UInt64} :
    e.usable peer_device_id suite_id protocol_major now = true ↔
      e.peer_device_id = peer_device_id ∧ e.suite_id = suite_id ∧
        e.protocol_major = protocol_major ∧ now < e.expires_at := by
  have hpeer : e.peer_device_id.bytes = peer_device_id.bytes ↔
      e.peer_device_id = peer_device_id := ⟨Arr.ext, congrArg _⟩
  unfold ResumptionEntry.usable
  simp only [Bool.not_eq_true', Bool.or_eq_false_iff, decide_eq_false_iff_not, ge_iff_le,
    UInt64.not_le, Bool.not_eq_false', ct_eq_iff, bne_eq_false_iff_eq, hpeer]
  tauto

theorem effect_store_eq_some {entry : ResumptionEntry} {now : UInt64}
    {given : Option ResumptionEntry} {left : List ResumptionEntry} :
    (store_resumption entry now).effect entries = some (given, left) ↔
      given = none ∧ left = entries_with entries entry now := by
  simp [effect, eq_comm]

theorem effect_take_eq_some {resumption_id : Arr 16} {peer_device_id : Arr 32}
    {suite_id protocol_major : UInt16} {now : UInt64} {given : Option ResumptionEntry}
    {left : List ResumptionEntry} :
    (take_resumption resumption_id peer_device_id suite_id protocol_major now).effect entries =
        some (given, left) ↔
      ∃ candidate, entries_without entries resumption_id now = some (candidate, left) ∧
        given = if candidate.usable peer_device_id suite_id protocol_major now then some candidate
          else none := by
  simp only [effect, Option.map_eq_some_iff, Prod.mk.injEq, Prod.exists]
  constructor
  · rintro ⟨candidate, _, hwithout, rfl, rfl⟩
    exact ⟨candidate, hwithout, rfl⟩
  · rintro ⟨candidate, hwithout, rfl⟩
    exact ⟨candidate, _, hwithout, rfl, rfl⟩

theorem effect_subperm {r : Request} {given : Option ResumptionEntry} {left : List ResumptionEntry}
    (h : r.effect entries = some (given, left)) :
    (given.toList ++ left).Subperm (entries ++ r.put.toList) := by
  cases r with
  | store_resumption entry now =>
    obtain ⟨rfl, rfl⟩ := effect_store_eq_some.1 h
    exact entries_with_subperm entries entry now
  | take_resumption resumption_id peer_device_id suite_id protocol_major now =>
    obtain ⟨candidate, hwithout, rfl⟩ := effect_take_eq_some.1 h
    have hsub := (entries_without_eq_some hwithout).2
    rw [put, Option.toList_none, List.append_nil]
    split
    · exact hsub
    · exact (List.sublist_cons_self _ _).subperm.trans hsub

theorem effect_few {r : Request} {given : Option ResumptionEntry} {left : List ResumptionEntry}
    (h : r.effect entries = some (given, left))
    (hfew : entries.length ≤ MAX_RESUMPTION_ENTRIES.toNat) :
    left.length ≤ MAX_RESUMPTION_ENTRIES.toNat := by
  cases r with
  | store_resumption entry now =>
    obtain ⟨-, rfl⟩ := effect_store_eq_some.1 h
    exact length_entries_with_le entries entry now
  | take_resumption resumption_id peer_device_id suite_id protocol_major now =>
    have hle := (effect_subperm h).length_le
    simp only [put, Option.toList_none, List.append_nil, List.length_append] at hle
    omega

theorem effect_grants {r : Request} {e : ResumptionEntry} {left : List ResumptionEntry}
    (h : r.effect entries = some (some e, left)) : r.Grants e := by
  cases r with
  | store_resumption entry now => cases (effect_store_eq_some.1 h).1
  | take_resumption resumption_id peer_device_id suite_id protocol_major now =>
    obtain ⟨candidate, hwithout, hgiven⟩ := effect_take_eq_some.1 h
    split at hgiven
    · rename_i husable
      obtain rfl := Option.some.inj hgiven
      exact ⟨(entries_without_eq_some hwithout).1, usable_iff.1 husable⟩
    · cases hgiven

@[simp] theorem entry_failed (r : Request) (e : StoreError) : (r.failed e).entry = none := by
  cases r <;> rfl

theorem entry_done {r : Request} {given : Option ResumptionEntry} {left : List ResumptionEntry}
    (h : r.effect entries = some (given, left)) : (r.done given).entry = given := by
  cases r with
  | store_resumption entry now =>
    obtain ⟨rfl, -⟩ := effect_store_eq_some.1 h
    rfl
  | take_resumption resumption_id peer_device_id suite_id protocol_major now => rfl

@[simp] theorem entry_done_none (r : Request) : (r.done none).entry = none := by
  cases r <;> rfl

end Request

/-! ## Histories -/

/-- How a step on the file goes. A rename may fail before or after it took
place. -/
inductive Luck where
  | fine
  | fails (e : String) (late : Bool)

def Luck.answer : Luck → Option Bytes → (q : FileOp) → q.Answer × Option Bytes
  | .fine, file, .read => (Found.of file, file)
  | .fails e _, file, .read => (Found.failed e, file)
  | .fine, _, .replace bytes => (Except.ok (), some bytes)
  | .fails e late, file, .replace bytes =>
    (Except.error (StoreError.Io e), if late then some bytes else file)

/-- A process and the file that it finds. -/
structure Device where
  opened : DeviceStore
  file : Option Bytes

/-- What happens to a device. The steps of a request go as `steps` says; when
they are used up the process has crashed. It may also crash after the last
step, before the caller has the result. -/
inductive Call where
  | request (r : Request) (random : Arr 24) (steps : List Luck) (crash : Bool)
  | restart (minimum_protection : Protection)

namespace Call

def asked : Call → Option Request
  | .request r .. => some r
  | .restart _ => none

def put (c : Call) : Option ResumptionEntry := c.asked.bind Request.put

/-- What the caller gets, if anything, and the device after the call. -/
def run (P : Primitives) (d : Device) : Call → Option Returned × Device
  | .request r random steps crash =>
    let (returned, file) := attempt Luck.answer steps (r.prog P d.opened random) d.file
    (if crash then none else returned, { d with file := file })
  | .restart minimum_protection =>
    (none, { d with opened := { d.opened with minimum_protection := minimum_protection } })

end Call

/-- The entry that the caller gets. -/
def given (returned : Option Returned) : Option ResumptionEntry := returned.bind Returned.entry

/-- What a request may do: it hands out an entry that it was asked for, and no
entry is made out of nothing. -/
def Request.Sound (P : Primitives) (store : DeviceStore) (entries : List ResumptionEntry)
    (r : Request) (out : Option Returned × Option Bytes) : Prop :=
  ∃ left, store.Holds P out.2 left ∧
    ((given out.1).toList ++ left).Subperm (entries ++ r.put.toList) ∧
    ∀ e, given out.1 = some e → r.Grants e

namespace Request.Sound

variable {r : Request} {returned : Option Returned}

theorem unchanged (h : store.Holds P file entries) (hnone : given returned = none) :
    r.Sound P store entries (returned, file) := by
  refine ⟨entries, h, ?_, ?_⟩
  · rw [hnone]
    exact (List.sublist_append_left _ _).subperm
  · intro e he
    rw [hnone] at he
    cases he

theorem replaced {random : Arr 24} {bytes : Bytes} {given' : Option ResumptionEntry}
    {left : List ResumptionEntry} (h : store.Holds P file entries)
    (heffect : r.effect entries = some (given', left))
    (hfile : store.entries_file P random left = .ok bytes)
    (hgiven : given returned = none ∨ given returned = given') :
    r.Sound P store entries (returned, some bytes) := by
  have hsub := effect_subperm heffect
  refine ⟨left, ⟨effect_few heffect h.few, .inr ⟨random, bytes, rfl, hfile⟩⟩, ?_, ?_⟩
  · rcases hgiven with hgiven | hgiven
    · rw [hgiven]
      exact (List.sublist_append_right _ _).subperm.trans hsub
    · rw [hgiven]
      exact hsub
  · intro e he
    rcases hgiven with hgiven | hgiven
    · rw [hgiven] at he
      cases he
    · rw [hgiven] at he
      exact effect_grants (he ▸ heffect)

end Request.Sound

theorem finish_sound {r : Request} {random : Arr 24} (steps : List Luck)
    (h : store.Holds P file entries) :
    r.Sound P store entries
      (attempt Luck.answer steps (r.finish P store random (r.effect entries)) file) := by
  rcases heffect : r.effect entries with _ | ⟨given', left⟩
  · simp only [Request.finish, attempt_ret]
    exact .unchanged h r.entry_done_none
  · simp only [Request.finish]
    cases hfile : store.entries_file P random left with
    | error e =>
      simp only [attempt_ret]
      exact .unchanged h (r.entry_failed e)
    | ok bytes =>
      rcases steps with _ | ⟨luck, steps⟩
      · exact .unchanged h rfl
      · cases luck with
        | fine =>
          simp only [attempt, Luck.answer, attempt_ret]
          exact .replaced h heffect hfile (.inr (Request.entry_done heffect))
        | fails e late =>
          simp only [attempt, Luck.answer, attempt_ret]
          cases late with
          | false => exact .unchanged h (r.entry_failed _)
          | true => exact .replaced h heffect hfile (.inl (r.entry_failed _))

theorem attempt_sound (r : Request) (random : Arr 24) (steps : List Luck)
    (hopens : store.sealer.Opens) (h : store.Holds P file entries) :
    r.Sound P store entries (attempt Luck.answer steps (r.prog P store random) file) := by
  rw [Request.prog_eq]
  rcases steps with _ | ⟨luck, steps⟩
  · exact .unchanged h rfl
  · cases luck with
    | fine =>
      simp only [attempt, Luck.answer]
      rcases h.entries_of hopens with hload | ⟨-, hload⟩
      · rw [hload]
        exact finish_sound steps h
      · rw [hload, Request.rest, attempt_ret]
        exact .unchanged h (r.entry_failed _)
    | fails e late =>
      simp only [attempt, Luck.answer]
      rw [show store.entries_of P (.failed e) = .error (.Io e) from rfl, Request.rest, attempt_ret]
      exact .unchanged h (r.entry_failed _)

/-- The calls so far: the file holds the entries, and each of them, like each
entry that was handed out, was stored by a call of its own. -/
structure Tracked (P : Primitives) (sealer : SecretSealer) (calls : List Call)
    (returned : List (Option Returned)) (d : Device) : Prop where
  sealer_eq : d.opened.sealer = sealer
  length_eq : returned.length = calls.length
  explained : ∃ entries, d.opened.Holds P d.file entries ∧
    Explained (· < ·) (numbered (calls.map Call.put)) (numbered (returned.map given)) entries
  grants : ∀ (i : Nat) e, (returned.map given)[i]? = some (some e) →
    ∃ r : Request, calls[i]?.bind Call.asked = some r ∧ r.Grants e

theorem Tracked.start (P : Primitives) (store : DeviceStore) :
    Tracked P store.sealer [] [] ⟨store, none⟩ := by
  refine ⟨rfl, rfl, ⟨[], ⟨Nat.zero_le _, .inl ⟨rfl, rfl⟩⟩, .nil _⟩, ?_⟩
  intro i e h
  cases h

theorem Request.Grants.eq_take {r : Request} {e : ResumptionEntry} (h : r.Grants e) :
    ∃ now, r = .take_resumption e.resumption_id e.peer_device_id e.suite_id e.protocol_major now ∧
      now < e.expires_at := by
  cases r with
  | store_resumption entry now => exact h.elim
  | take_resumption resumption_id peer_device_id suite_id protocol_major now =>
    obtain ⟨rfl, rfl, rfl, rfl, hnow⟩ := h
    exact ⟨now, rfl, hnow⟩

theorem Call.of_put {c : Call} {e : ResumptionEntry} (h : c.put = some e) :
    ∃ entry now, c.asked = some (.store_resumption entry now) ∧ e = entry.clamped := by
  obtain ⟨r, hasked, hr⟩ := Option.bind_eq_some_iff.1 h
  cases r with
  | store_resumption entry now => exact ⟨entry, now, hasked, (Option.some.inj hr).symm⟩
  | take_resumption => cases hr

theorem Request.Grants.put_eq_none {r : Request} {e : ResumptionEntry} (h : r.Grants e) :
    r.put = none := by
  obtain ⟨now, rfl, -⟩ := h.eq_take
  rfl

theorem Call.run_sound {d : Device} (hopens : d.opened.sealer.Opens)
    (h : d.opened.Holds P d.file entries) (c : Call) :
    (c.run P d).2.opened.sealer = d.opened.sealer ∧
    (∃ left, (c.run P d).2.opened.Holds P (c.run P d).2.file left ∧
      ((given (c.run P d).1).toList ++ left).Subperm (entries ++ c.put.toList)) ∧
    ∀ e, given (c.run P d).1 = some e → ∃ r : Request, c.asked = some r ∧ r.Grants e := by
  cases c with
  | request r random steps crash =>
    obtain ⟨left, hleft, hsub, hgrants⟩ := attempt_sound r random steps hopens h
    simp only [Call.run, Call.put]
    cases crash with
    | true =>
      refine ⟨trivial, ⟨left, hleft, (List.sublist_append_right _ _).subperm.trans hsub⟩, ?_⟩
      intro e he
      cases he
    | false =>
      exact ⟨trivial, ⟨left, hleft, hsub⟩, fun e he => ⟨r, rfl, hgrants e he⟩⟩
  | restart minimum_protection =>
    refine ⟨rfl, ⟨entries, ⟨h.few, h.written⟩, (List.sublist_append_left _ _).subperm⟩, ?_⟩
    intro e he
    cases he

/-- One more call. -/
theorem Tracked.call {sealer : SecretSealer} {calls : List Call}
    {returned : List (Option Returned)} {d : Device} (h : Tracked P sealer calls returned d)
    (hopens : sealer.Opens) (c : Call) :
    Tracked P sealer (calls ++ [c]) (returned ++ [(c.run P d).1]) (c.run P d).2 := by
  obtain ⟨entries, hholds, hexplained⟩ := h.explained
  obtain ⟨hsealer, ⟨left, hleft, hsub⟩, hgrants⟩ :=
    c.run_sound (h.sealer_eq.symm ▸ hopens) hholds
  refine ⟨hsealer.trans h.sealer_eq, by simp [h.length_eq], ⟨left, hleft, ?_⟩, ?_⟩
  · rw [List.map_append, List.map_append, List.map_singleton, List.map_singleton,
      numbered_concat, numbered_concat, List.length_map, List.length_map, h.length_eq]
    refine hexplained.step (by simpa [Function.comp_def] using hsub) ?_
    intro p hp o ho
    obtain ⟨e, he, rfl⟩ := List.mem_map.1 ho
    obtain ⟨r, hasked, hr⟩ := hgrants e (by simpa using he)
    rw [Call.put, hasked, Option.bind_some, hr.put_eq_none, Option.toList_none, List.map_nil,
      List.append_nil] at hp
    simpa using lt_of_mem_numbered hp
  · intro i e hi
    rw [List.map_append, List.map_singleton] at hi
    rcases Nat.lt_trichotomy i calls.length with hlt | rfl | hgt
    · rw [List.getElem?_append_left (by simpa [h.length_eq] using hlt)] at hi
      rw [List.getElem?_append_left hlt]
      exact h.grants i e hi
    · have hlen : (returned.map given).length = calls.length := by simp [h.length_eq]
      rw [← hlen, List.getElem?_concat_length] at hi
      obtain ⟨r, hasked, hr⟩ := hgrants e (Option.some.inj hi)
      refine ⟨r, ?_, hr⟩
      rw [List.getElem?_concat_length, Option.bind_some, hasked]
    · rw [List.getElem?_eq_none (by simp [h.length_eq]; omega)] at hi
      cases hi

theorem tracked_calls (P : Primitives) (store : DeviceStore) (hopens : store.sealer.Opens)
    (calls : List Call) :
    Tracked P store.sealer calls (events (Call.run P) ⟨store, none⟩ calls)
      (after (Call.run P) ⟨store, none⟩ calls) := by
  induction calls using List.reverseRecOn with
  | nil => exact .start P store
  | append_singleton calls c ih =>
    rw [events_append, after_append]
    exact ih.call hopens c

theorem lt_lifetime {entry : ResumptionEntry} {now : UInt64} (h : now < entry.clamped.expires_at) :
    now.toNat < min entry.expires_at.toNat (entry.created_at.toNat + 86400) := by
  have hday : RESUMPTION_MAX_LIFETIME_SECS.toNat = 86400 := rfl
  rw [UInt64.lt_iff_toNat_lt, ResumptionEntry.clamped, UInt64.toNat_min, toNat_saturating_add,
    hday] at h
  omega

/-- The caller of call `i` gets the entry. -/
def HandsOut (P : Primitives) (store : DeviceStore) (calls : List Call) (i : Nat)
    (e : ResumptionEntry) : Prop :=
  (events (Call.run P) ⟨store, none⟩ calls)[i]? = some (some (.took (.ok (some e))))

/-- Over any history of calls, restarts and crashes from no file: an entry that
a call hands out was stored by an earlier call, with its lifetime cut to a day,
and is the one that was asked for, before it expires. No two calls hand out what
one call stored. -/
theorem what_was_stored_once_is_handed_out_at_most_once (P : Primitives) (store : DeviceStore)
    (hopens : store.sealer.Opens) (calls : List Call) :
    ∃ origin : Nat → Nat,
      (∀ i e, HandsOut P store calls i e → ∃ entry stored_at now,
        origin i < i ∧
        calls[origin i]?.bind Call.asked = some (.store_resumption entry stored_at) ∧
        calls[i]?.bind Call.asked = some (.take_resumption e.resumption_id e.peer_device_id
          e.suite_id e.protocol_major now) ∧
        e = entry.clamped ∧
        now.toNat < min entry.expires_at.toNat (entry.created_at.toNat + 86400)) ∧
      ∀ i j e e', HandsOut P store calls i e → HandsOut P store calls j e' →
        origin i = origin j → i = j := by
  have htracked := tracked_calls P store hopens calls
  obtain ⟨entries, -, hexplained⟩ := htracked.explained
  obtain ⟨origin, hcame, honce⟩ := hexplained.origin (nodup_numbered _) (nodup_numbered _)
  have hgiven : ∀ {i e}, HandsOut P store calls i e →
      ((events (Call.run P) ⟨store, none⟩ calls).map given)[i]? = some (some e) := by
    intro i e hi
    rw [List.getElem?_map, hi]
    rfl
  refine ⟨origin, ?_, ?_⟩
  · intro i e hi
    obtain ⟨hput, hlt⟩ := hcame (i, e) (mem_numbered.2 (hgiven hi))
    obtain ⟨r, hasked, hgrants⟩ := htracked.grants i e (hgiven hi)
    rw [mem_numbered, List.getElem?_map, Option.map_eq_some_iff] at hput
    obtain ⟨c, hc, hcput⟩ := hput
    obtain ⟨entry, stored_at, hstored, rfl⟩ := c.of_put hcput
    obtain ⟨now, rfl, hnow⟩ := hgrants.eq_take
    refine ⟨entry, stored_at, now, hlt, ?_, hasked, rfl, lt_lifetime hnow⟩
    rw [hc, Option.bind_some, hstored]
  · intro i j e e' hi hj
    exact honce (i, e) (mem_numbered.2 (hgiven hi)) (j, e') (mem_numbered.2 (hgiven hj))

def sampleStore : DeviceStore := ⟨"state", PlaintextSealer, .Plaintext⟩

/-- It asks for a lifetime of more than a day. -/
def sampleEntry : ResumptionEntry :=
  ⟨.replicate 16 1, .replicate 32 2, .replicate 48 3, 1, 2, 1000, 1000000⟩

def sampleTake (now : UInt64) : Request :=
  .take_resumption sampleEntry.resumption_id sampleEntry.peer_device_id sampleEntry.suite_id
    sampleEntry.protocol_major now

/-- An entry is stored, the first process to ask for it fails, and the second
gets it. -/
def sampleHistory : List Call :=
  [.request (.store_resumption sampleEntry 1000) (.replicate 24 0) [.fine, .fine] false,
    .request (sampleTake 2000) (.replicate 24 0) [.fine, .fails "no space" false] false,
    .restart .Plaintext,
    .request (sampleTake 3000) (.replicate 24 0) [.fine, .fine] false,
    .request (sampleTake 4000) (.replicate 24 0) [.fine, .fine] false]

theorem the_sample_entry_is_handed_out_once :
    HandsOut sample sampleStore sampleHistory 3 sampleEntry.clamped ∧
      ∀ i e, HandsOut sample sampleStore sampleHistory i e → i = 3 := by
  have hthree : HandsOut sample sampleStore sampleHistory 3 sampleEntry.clamped := by
    unfold HandsOut
    decide +kernel
  have hstored : ∀ {n entry stored_at}, sampleHistory[n]?.bind Call.asked =
      some (.store_resumption entry stored_at) → n = 0 := by
    intro n entry stored_at h
    rcases n with _ | _ | _ | _ | _ | n
    · rfl
    all_goals cases h
  obtain ⟨origin, hcame, honce⟩ := what_was_stored_once_is_handed_out_at_most_once sample
    sampleStore PlaintextSealer.opens sampleHistory
  obtain ⟨_, _, _, -, hput, -⟩ := hcame 3 _ hthree
  refine ⟨hthree, fun i e hi => ?_⟩
  obtain ⟨_, _, _, -, hput', -⟩ := hcame i e hi
  exact honce i 3 e _ hi hthree ((hstored hput').trans (hstored hput).symm)

end rtp2_core.store
