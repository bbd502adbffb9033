-- The private manifest: what the recipient needs and nobody else may see. Like
-- the public one it is read with its noncritical parts, which are then dropped:
-- the keys 3 to 5 of an object and the extension map.
import Mathlib.Data.List.Forall2
import Reyta.Manifest

open byte_string exact_parse

namespace rtp2_core.manifest

open cbor crypto object
open ManifestError (from_cbor)

def MANIFEST_AAD_DOMAIN : Bytes := ascii "RTP2-MANIFEST-AAD-v1"

structure KeyPolicy where
  mode : UInt64
  minimum_security_level : UInt64
  pqc_required : Bool
  deriving DecidableEq

structure RetentionPolicy where
  expires_at : UInt64
  view_once : Bool
  allow_local_save : Bool
  deriving DecidableEq

structure ObjectPrivate where
  object_id : Arr 32
  object_role : UInt8
  relationship_to_primary : UInt64
  deriving DecidableEq

structure PrivateManifest where
  sender_account_id : Arr 32
  sender_device_id : Arr 32
  recipient_scope : RecipientScope
  display_name : String
  original_filename : String
  mime_type : String
  logical_plaintext_size : UInt64
  plaintext_digest : Arr 32
  created_at : UInt64
  user_caption : Option String
  objects : List ObjectPrivate
  key_policy : KeyPolicy
  retention_policy : RetentionPolicy
  deriving DecidableEq

/-! ## The parts -/

namespace RecipientScope

def TYPE_DEVICE : UInt64 := 0

def device (device_id : Arr 32) : RecipientScope := ⟨TYPE_DEVICE, device_id.bytes⟩

def decode : Parse ManifestError RecipientScope := do
  let m ← map_err from_cbor Reader.map
  let m ← map_err from_cbor (m.expect_key 0)
  let scope_type ← map_err from_cbor Reader.uint
  let m ← map_err from_cbor (m.expect_key 1)
  let id ← map_err from_cbor Reader.bytes
  m.expect_end from_cbor .UnknownCriticalField
  fail_if (id.length > MAX_TEXT_LEN) .InvalidValue
  pure ⟨scope_type, id⟩

theorem decode.reads :
    Reads decode (fun d s => d < MAX_DEPTH ∧ s.id.length ≤ MAX_TEXT_LEN) encode (fun d _ => d) := by
  exact reads_tagged_bytes (by decide) (fun _ => rfl) (fun _ _ => ⟨rfl, rfl⟩)

end RecipientScope

namespace KeyPolicy

def encode (policy : KeyPolicy) : Bytes :=
  MapWriter [(0, Writer.uint policy.mode), (1, Writer.uint policy.minimum_security_level),
    (2, Writer.boolean policy.pqc_required)]

def decode : Parse ManifestError KeyPolicy := do
  let m ← map_err from_cbor Reader.map
  let m ← map_err from_cbor (m.expect_key 0)
  let mode ← map_err from_cbor Reader.uint
  let m ← map_err from_cbor (m.expect_key 1)
  let minimum_security_level ← map_err from_cbor Reader.uint
  let m ← map_err from_cbor (m.expect_key 2)
  let pqc_required ← map_err from_cbor Reader.boolean
  m.expect_end from_cbor .UnknownCriticalField
  pure ⟨mode, minimum_security_level, pqc_required⟩

theorem decode.reads : Reads decode (fun d _ => d < MAX_DEPTH) encode (fun d _ => d) := by
  unfold decode
  refine Reads.congr (MapBody.start (fun _ : KeyPolicy => 3) (fun _ => by decide)
    fun m hm => MapBody.key (by simp [hm]) fun m hm => MapBody.value KeyPolicy.mode
      (Reader.uint.reads.map_err _) (fun _ => MapBody.key (by simp [hm])
    fun m hm => MapBody.value KeyPolicy.minimum_security_level
      (Reader.uint.reads.map_err _) (fun _ => MapBody.key (by simp [hm])
    fun m hm => MapBody.value KeyPolicy.pqc_required
      (Reader.boolean.reads.map_err _) (fun _ => MapBody.stop _ (Reads.pure _))
      ?_) ?_) ?_) ?admits ?writes ?depth
  case admits =>
    intro d r
    simp
  case writes =>
    intro d r _
    simp [encode, MapWriter]
  case depth =>
    intro d r _
    rfl
  all_goals grind

end KeyPolicy

namespace RetentionPolicy

def encode (policy : RetentionPolicy) : Bytes :=
  MapWriter [(0, Writer.uint policy.expires_at), (1, Writer.boolean policy.view_once),
    (2, Writer.boolean policy.allow_local_save)]

def decode : Parse ManifestError RetentionPolicy := do
  let m ← map_err from_cbor Reader.map
  let m ← map_err from_cbor (m.expect_key 0)
  let expires_at ← map_err from_cbor Reader.uint
  let m ← map_err from_cbor (m.expect_key 1)
  let view_once ← map_err from_cbor Reader.boolean
  let m ← map_err from_cbor (m.expect_key 2)
  let allow_local_save ← map_err from_cbor Reader.boolean
  m.expect_end from_cbor .UnknownCriticalField
  pure ⟨expires_at, view_once, allow_local_save⟩

theorem decode.reads : Reads decode (fun d _ => d < MAX_DEPTH) encode (fun d _ => d) := by
  unfold decode
  refine Reads.congr (MapBody.start (fun _ : RetentionPolicy => 3) (fun _ => by decide)
    fun m hm => MapBody.key (by simp [hm]) fun m hm => MapBody.value RetentionPolicy.expires_at
      (Reader.uint.reads.map_err _) (fun _ => MapBody.key (by simp [hm])
    fun m hm => MapBody.value RetentionPolicy.view_once
      (Reader.boolean.reads.map_err _) (fun _ => MapBody.key (by simp [hm])
    fun m hm => MapBody.value RetentionPolicy.allow_local_save
      (Reader.boolean.reads.map_err _) (fun _ => MapBody.stop _ (Reads.pure _))
      ?_) ?_) ?_) ?admits ?writes ?depth
  case admits =>
    intro d r
    simp
  case writes =>
    intro d r _
    simp [encode, MapWriter]
  case depth =>
    intro d r _
    rfl
  all_goals grind

end RetentionPolicy

/-! ## Objects -/

/-- An object with the noncritical entries it came with. -/
abbrev RawPrivateObject := ObjectPrivate × List (UInt64 × Value)

namespace ObjectPrivate

def fields (o : ObjectPrivate) : List (UInt64 × Bytes) :=
  [(0, Writer.bytes o.object_id.bytes), (1, Writer.uint o.object_role.toUInt64),
    (2, Writer.uint o.relationship_to_primary)]

def encode (o : ObjectPrivate) : Bytes := MapWriter o.fields

/-- The loop over the noncritical keys 3, 4 and 5. Any other key is critical. -/
def skip_optional (m : MapReader) : Parse ManifestError (List (UInt64 × Value)) :=
  MapReader.entries_by from_cbor (fun key => do
    fail_if (key < 3 ∨ 5 < key) .UnknownCriticalField
    skip_value (MAX_DEPTH + 1)) m.remaining m.last_key

/-- An object, and the entries that the decoder drops. -/
def read : Parse ManifestError RawPrivateObject := do
  let m ← map_err from_cbor Reader.map
  let m ← map_err from_cbor (m.expect_key 0)
  let object_id ← map_err from_cbor (Reader.bytes_exact 32)
  let m ← map_err from_cbor (m.expect_key 1)
  let object_role ← map_err from_cbor Reader.uint
  let m ← map_err from_cbor (m.expect_key 2)
  let relationship_to_primary ← map_err from_cbor Reader.uint
  let optional ← skip_optional m
  fail_if (!valid_role object_role) .InvalidValue
  pure (⟨object_id, object_role.toUInt8, relationship_to_primary⟩, optional)

/-- The noncritical entries that are skipped at depth `d`. -/
def OptionalOk (d : Nat) (l : List (UInt64 × Value)) : Prop :=
  KeysAbove (some 2) l ∧ ∀ e ∈ l, (3 ≤ e.1 ∧ e.1 ≤ 5) ∧ Skippable (MAX_DEPTH + 1) d e.2

/-- The entries of the map of an object. -/
def raw_fields (r : RawPrivateObject) : List (UInt64 × Bytes) :=
  r.1.fields ++ r.2.map fun e => (e.1, e.2.encode)

theorem skip_optional.reads {m : MapReader} (hm : m.last_key = some 2) :
    MapBody m List.length (skip_optional m) OptionalOk
      (fun l => l.flatMap fun e => Writer.uint e.1 ++ e.2.encode) (fun d _ => d - 1) := by
  unfold skip_optional
  refine Reads.congr (MapReader.entries_by.reads
    (fun key => Reads.fail_if _ _ (skip_value.reads _)) m.remaining m.last_key)
    ?_ (fun _ _ _ => rfl) (fun _ _ _ => rfl)
  intro d l
  simp only [hm, OptionalOk, not_or, UInt64.not_lt, eq_comm]

theorem OptionalOk.length_le {d : Nat} {l : List (UInt64 × Value)} (h : OptionalOk d l) :
    l.length ≤ 3 :=
  h.1.length_le fun e he => (h.2 e he).1.2

theorem read.reads :
    Reads read (fun d r => d < MAX_DEPTH ∧ r.1.object_role ≤ ROLE_SIDECAR ∧ OptionalOk (d + 1) r.2)
      (fun r => MapWriter (raw_fields r)) (fun d _ => d) := by
  unfold read
  refine Reads.congr (MapBody.start_of (fun r : RawPrivateObject => r.2.length + 3)
    (fun m hm => MapBody.key (by simp [hm])
    fun m hm => MapBody.value (fun r : RawPrivateObject => r.1.object_id)
      ((Reader.bytes_exact.reads (by decide)).map_err _) (fun _ => MapBody.key (by simp [hm])
    fun m hm => MapBody.value (fun r : RawPrivateObject => r.1.object_role.toUInt64)
      (Reader.uint.reads.map_err _) (fun _ => MapBody.key (by simp [hm])
    fun m hm => MapBody.value (fun r : RawPrivateObject => r.1.relationship_to_primary)
      (Reader.uint.reads.map_err _) (fun _ => MapBody.last (fun r : RawPrivateObject => r.2)
      (skip_optional.reads hm) (fun _ => Reads.fail_if _ _ (Reads.pure _))
      ?_) ?_) ?role) ?_) ?bound) ?admits ?writes ?depth
  case admits =>
    intro d r
    simp only [valid_role, toUInt64_le, Bool.not_eq_true', decide_eq_false_iff_not, not_not,
      true_and, UInt8.toUInt8_toUInt64]
    tauto
  case writes =>
    intro d r _
    have hlen : (raw_fields r).length = r.2.length + 3 := by
      simp only [raw_fields, fields, List.length_append, List.length_map, List.length_cons,
        List.length_nil]
      omega
    rw [MapWriter, hlen]
    simp [raw_fields, fields, List.flatMap_map]
  case depth =>
    intro d r _
    rfl
  case role =>
    rintro d v r - ⟨-, -, hv, hr⟩
    simp only [valid_role, Bool.not_eq_true', decide_eq_false_iff_not, not_not] at hv
    rw [hr]
    exact toUInt8_back hv
  case bound =>
    rintro d r ⟨-, -, -, hopt, -⟩
    have := hopt.length_le
    omega
  all_goals grind

end ObjectPrivate

/-! ## The manifest -/

/-- The entry of a caption, if there is one. -/
def caption_entry (user_caption : Option String) : List (UInt64 × Bytes) :=
  user_caption.toList.map fun caption => (9, Writer.text caption)

/-- The next key, which has to be there. -/
def next_some (m : MapReader) : Parse ManifestError (UInt64 × MapReader) := do
  let (key, m) ← map_err from_cbor m.next_key
  match key with
  | some key => pure (key, m)
  | none => fail .Encoding

/-- The caption at key 9, which is optional, and key 10, which is not. -/
def read_caption (m : MapReader) : Parse ManifestError (Option String × MapReader) := do
  let (key, m) ← next_some m
  if key = 9 then
    let caption ← map_err from_cbor Reader.text
    let (key, m) ← next_some m
    fail_if (key ≠ 10) .Encoding
    pure (some caption, m)
  else
    fail_if (key ≠ 10) .Encoding
    pure (none, m)

theorem next_some.reads (m : MapReader) :
    Reads (next_some m) (fun _ r => m.remaining = r.2.remaining + 1 ∧ r.2.last_key = some r.1 ∧
      ∀ last, m.last_key = some last → last < r.1) (fun r => Writer.uint r.1) (fun d _ => d) := by
  unfold next_some
  by_cases hm : m.remaining = 0
  · constructor
    · intro s d a s' d' h
      obtain ⟨r, i, h1, h2⟩ := run_bind_eq_ok.1 h
      obtain ⟨rfl, -⟩ := ((MapReader.next_key_of_eq hm).map_err _).sound h1
      cases h2
    · rintro d a t ⟨h, -⟩
      omega
  · constructor
    · intro s d a s' d' h
      obtain ⟨r, ⟨s1, d1⟩, h1, h2⟩ := run_bind_eq_ok.1 h
      obtain ⟨⟨key, rfl, hkey⟩, rfl, rfl⟩ := ((MapReader.next_key_of_ne hm).map_err _).sound h1
      cases h2
      exact ⟨⟨by simp only; omega, rfl, hkey⟩, rfl, rfl⟩
    · rintro d ⟨key, remaining, last_key⟩ t ⟨h, hlast, hkey⟩
      simp only at h hlast
      have h1 := ((MapReader.next_key_of_ne hm).map_err from_cbor).complete (d := d) t
        ⟨key, rfl, hkey⟩
      refine (run_bind_of_ok h1).trans ?_
      simp [h, hlast]

/-- A caption that is read. -/
def CaptionOk (_ : Nat) (user_caption : Option String) : Prop :=
  ∀ caption ∈ user_caption, (Writer.as_bytes caption).length < 2 ^ 64

/-- The entry of the caption, and the key after it. -/
def encode_caption (user_caption : Option String) : Bytes :=
  ((caption_entry user_caption).flatMap fun e => Writer.uint e.1 ++ e.2) ++ Writer.uint 10

theorem read_caption.reads {m : MapReader} (hm : m.last_key = some 8) :
    Reads (read_caption m) (fun d r => m.remaining = r.2.remaining + (r.1.toList.length + 1) ∧
      r.2.last_key = some 10 ∧ CaptionOk d r.1) (fun r => encode_caption r.1) (fun d _ => d) := by
  unfold CaptionOk encode_caption
  constructor
  · intro s d r s' d' h
    obtain ⟨⟨key, m1⟩, ⟨s1, d1⟩, h1, hrest⟩ := run_bind_eq_ok.1 h
    obtain ⟨⟨hrem, hlast, -⟩, rfl, rfl⟩ := (next_some.reads m).sound h1
    by_cases hkey : key = 9
    · simp only [hkey, if_true] at hrest
      obtain ⟨caption, ⟨s2, d2⟩, h2, hrest2⟩ := run_bind_eq_ok.1 hrest
      obtain ⟨⟨key', m2⟩, ⟨s3, d3⟩, h3, hrest3⟩ := run_bind_eq_ok.1 hrest2
      obtain ⟨u, ⟨s4, d4⟩, h4, hrest4⟩ := run_bind_eq_ok.1 hrest3
      obtain ⟨hcaption, rfl, rfl⟩ := (Reader.text.reads.map_err _).sound h2
      obtain ⟨⟨hrem', hlast', -⟩, rfl, rfl⟩ := (next_some.reads m1).sound h3
      obtain ⟨hten, rfl, rfl⟩ := (Reads.check _ _).sound h4
      cases hrest4
      simp only [ne_eq, not_not] at hten hrem hrem' hlast'
      refine ⟨⟨?_, hten ▸ hlast', by simpa using hcaption⟩, ?_, rfl⟩
      · simp only [Option.toList_some, List.length_singleton]
        omega
      · simp [caption_entry, hkey, hten]
    · simp only [hkey, if_false] at hrest
      obtain ⟨u, ⟨s2, d2⟩, h2, hrest2⟩ := run_bind_eq_ok.1 hrest
      obtain ⟨hten, rfl, rfl⟩ := (Reads.check _ _).sound h2
      cases hrest2
      simp only [ne_eq, not_not] at hten hrem hlast
      exact ⟨⟨by simpa using hrem, hten ▸ hlast, by simp⟩, by simp [caption_entry, hten], rfl⟩
  · rintro d ⟨_ | caption, m'⟩ t ⟨hrem, hlast, hcaption⟩
    · have h1 := (next_some.reads m).complete (d := d) (a := (10, m')) t
        ⟨by simpa using hrem, hlast, by simp [hm]⟩
      simp only [caption_entry, Option.toList_none, List.map_nil, List.flatMap_nil, List.nil_append]
      exact run_bind_of_ok h1
    · simp only [Option.toList_some, List.length_singleton] at hrem
      have h1 := (next_some.reads m).complete (d := d) (a := (9, ⟨m'.remaining + 1, some 9⟩))
        (Writer.text caption ++ (Writer.uint 10 ++ t)) ⟨by simp only; omega, rfl, by simp [hm]⟩
      have h2 := (Reader.text.reads.map_err from_cbor).complete (d := d) (Writer.uint 10 ++ t)
        (hcaption caption rfl)
      have h3 := (next_some.reads ⟨m'.remaining + 1, some 9⟩).complete (d := d) (a := (10, m')) t
        ⟨rfl, hlast, by simp⟩
      simp only [caption_entry, Option.toList_some, List.map_singleton, List.flatMap_singleton,
        List.append_assoc]
      refine (run_bind_of_ok h1).trans ?_
      simp only [if_true]
      refine (run_bind_of_ok h2).trans ?_
      exact run_bind_of_ok h3

/-- What follows the caption. -/
structure RawTail where
  objects : List RawPrivateObject
  key_policy : KeyPolicy
  retention_policy : RetentionPolicy
  extension : Option Extension

namespace RawTail

/-- The part of the map after key 10. -/
def read (m : MapReader) : Parse ManifestError RawTail := do
  let objects ← Reader.array_of from_cbor MAX_OBJECTS .TooManyObjects ObjectPrivate.read
  let m ← map_err from_cbor (m.expect_key 11)
  let key_policy ← KeyPolicy.decode
  let m ← map_err from_cbor (m.expect_key 12)
  let retention_policy ← RetentionPolicy.decode
  let extension ← read_extension m 13
  pure ⟨objects, key_policy, retention_policy, extension⟩

def encode (t : RawTail) : Bytes :=
  Writer.array (.ofNat t.objects.length) ++
    t.objects.flatMap (fun r => MapWriter (ObjectPrivate.raw_fields r)) ++
    Writer.uint 11 ++ t.key_policy.encode ++ Writer.uint 12 ++ t.retention_policy.encode ++
    (extension_entry 13 t.extension).flatMap fun x => Writer.uint x.1 ++ x.2

/-- What the reader admits at depth `d`. -/
structure Fits (d : Nat) (t : RawTail) : Prop where
  depth : d < MAX_DEPTH
  objects_len : t.objects.length ≤ MAX_OBJECTS.toNat
  objects : ∀ r ∈ t.objects, d + 1 < MAX_DEPTH ∧ r.1.object_role ≤ ROLE_SIDECAR ∧
    ObjectPrivate.OptionalOk (d + 2) r.2
  extension : ∀ x ∈ t.extension, ExtensionOk d x

theorem read.reads {m : MapReader} (hm : m.last_key = some 10) :
    MapBody m (fun t => t.extension.toList.length + 2) (read m) Fits encode (fun d _ => d - 1) := by
  unfold read
  refine Reads.congr (MapBody.value RawTail.objects
      (Reader.array_of.reads ObjectPrivate.read.reads) (fun _ => MapBody.key (by simp [hm])
    fun m hm => MapBody.value RawTail.key_policy
      KeyPolicy.decode.reads (fun _ => MapBody.key (by simp [hm])
    fun m hm => MapBody.value RawTail.retention_policy
      RetentionPolicy.decode.reads (fun _ => MapBody.last RawTail.extension
      (read_extension.reads (by simp [hm])) (fun _ => Reads.pure _)
      ?_) ?_) ?_) ?_) ?admits ?writes ?depth
  case admits =>
    intro d t
    constructor
    · rintro ⟨hn, ⟨hd, hlen, hobjects⟩, -, -, hext, -⟩
      exact ⟨hn, hd, hlen, hobjects, hext⟩
    · rintro ⟨hn, hd, hlen, hobjects, hext⟩
      exact ⟨hn, ⟨hd, hlen, hobjects⟩, hd, hd, hext, rfl⟩
  case writes =>
    intro d t _
    simp [encode]
  case depth =>
    intro d t _
    rfl
  all_goals grind

end RawTail

/-- A manifest with the noncritical parts it came with. -/
structure RawPrivate where
  sender_account_id : Arr 32
  sender_device_id : Arr 32
  recipient_scope : RecipientScope
  display_name : String
  original_filename : String
  mime_type : String
  logical_plaintext_size : UInt64
  plaintext_digest : Arr 32
  created_at : UInt64
  user_caption : Option String
  tail : RawTail

namespace RawPrivate

/-- What the decoder returns. -/
def kept (raw : RawPrivate) : PrivateManifest where
  sender_account_id := raw.sender_account_id
  sender_device_id := raw.sender_device_id
  recipient_scope := raw.recipient_scope
  display_name := raw.display_name
  original_filename := raw.original_filename
  mime_type := raw.mime_type
  logical_plaintext_size := raw.logical_plaintext_size
  plaintext_digest := raw.plaintext_digest
  created_at := raw.created_at
  user_caption := raw.user_caption
  objects := raw.tail.objects.map Prod.fst
  key_policy := raw.tail.key_policy
  retention_policy := raw.tail.retention_policy

/-- What is written before the caption. -/
def head (raw : RawPrivate) : List (UInt64 × Bytes) :=
  [(0, Writer.bytes raw.sender_account_id.bytes), (1, Writer.bytes raw.sender_device_id.bytes),
    (2, raw.recipient_scope.encode), (3, Writer.text raw.display_name),
    (4, Writer.text raw.original_filename), (5, Writer.text raw.mime_type),
    (6, Writer.uint raw.logical_plaintext_size), (7, Writer.bytes raw.plaintext_digest.bytes),
    (8, Writer.uint raw.created_at)]

/-- The number of entries of the map. -/
def entries (raw : RawPrivate) : Nat :=
  raw.tail.extension.toList.length + 2 + (raw.user_caption.toList.length + 1) + 9

theorem entries_lt (raw : RawPrivate) : raw.entries < 2 ^ 64 := by
  unfold entries
  rcases raw.tail.extension with _ | e <;> rcases raw.user_caption with _ | c <;> simp

def encode (raw : RawPrivate) : Bytes :=
  Writer.map (.ofNat raw.entries) ++ (raw.head.flatMap fun e => Writer.uint e.1 ++ e.2) ++
    encode_caption raw.user_caption ++ raw.tail.encode

/-- What the reader admits at depth `d`. -/
structure Fits (d : Nat) (raw : RawPrivate) : Prop where
  depth : d < MAX_DEPTH
  scope : raw.recipient_scope.id.length ≤ MAX_TEXT_LEN
  display_name : (Writer.as_bytes raw.display_name).length < 2 ^ 64
  original_filename : (Writer.as_bytes raw.original_filename).length < 2 ^ 64
  mime_type : (Writer.as_bytes raw.mime_type).length < 2 ^ 64
  user_caption : CaptionOk (d + 1) raw.user_caption
  tail : raw.tail.Fits (d + 1)

end RawPrivate

namespace PrivateManifest

def read : Parse ManifestError RawPrivate := do
  let m ← map_err from_cbor Reader.map
  let m ← map_err from_cbor (m.expect_key 0)
  let sender_account_id ← map_err from_cbor (Reader.bytes_exact 32)
  let m ← map_err from_cbor (m.expect_key 1)
  let sender_device_id ← map_err from_cbor (Reader.bytes_exact 32)
  let m ← map_err from_cbor (m.expect_key 2)
  let recipient_scope ← RecipientScope.decode
  let m ← map_err from_cbor (m.expect_key 3)
  let display_name ← map_err from_cbor Reader.text
  let m ← map_err from_cbor (m.expect_key 4)
  let original_filename ← map_err from_cbor Reader.text
  let m ← map_err from_cbor (m.expect_key 5)
  let mime_type ← map_err from_cbor Reader.text
  let m ← map_err from_cbor (m.expect_key 6)
  let logical_plaintext_size ← map_err from_cbor Reader.uint
  let m ← map_err from_cbor (m.expect_key 7)
  let plaintext_digest ← map_err from_cbor (Reader.bytes_exact 32)
  let m ← map_err from_cbor (m.expect_key 8)
  let created_at ← map_err from_cbor Reader.uint
  let caption ← read_caption m
  let tail ← RawTail.read caption.2
  pure ⟨sender_account_id, sender_device_id, recipient_scope, display_name, original_filename,
    mime_type, logical_plaintext_size, plaintext_digest, created_at, caption.1, tail⟩

theorem read.reads :
    Reads read RawPrivate.Fits RawPrivate.encode (fun d _ => d) := by
  unfold read
  refine Reads.congr (MapBody.start RawPrivate.entries RawPrivate.entries_lt
    fun m hm => MapBody.key (by simp [hm])
    fun m hm => MapBody.value RawPrivate.sender_account_id
      ((Reader.bytes_exact.reads (by decide)).map_err _) (fun account => MapBody.key (by simp [hm])
    fun m hm => MapBody.value RawPrivate.sender_device_id
      ((Reader.bytes_exact.reads (by decide)).map_err _) (fun device => MapBody.key (by simp [hm])
    fun m hm => MapBody.value RawPrivate.recipient_scope
      RecipientScope.decode.reads (fun scope => MapBody.key (by simp [hm])
    fun m hm => MapBody.value RawPrivate.display_name
      (Reader.text.reads.map_err _) (fun name => MapBody.key (by simp [hm])
    fun m hm => MapBody.value RawPrivate.original_filename
      (Reader.text.reads.map_err _) (fun filename => MapBody.key (by simp [hm])
    fun m hm => MapBody.value RawPrivate.mime_type
      (Reader.text.reads.map_err _) (fun mime => MapBody.key (by simp [hm])
    fun m hm => MapBody.value RawPrivate.logical_plaintext_size
      (Reader.uint.reads.map_err _) (fun size => MapBody.key (by simp [hm])
    fun m hm => MapBody.value RawPrivate.plaintext_digest
      ((Reader.bytes_exact.reads (by decide)).map_err _) (fun digest => MapBody.key (by simp [hm])
    fun m hm => MapBody.value RawPrivate.created_at
      (Reader.uint.reads.map_err _) (fun created => MapBody.keys (k := fun c => c.toList.length + 1)
      (S := CaptionOk) (w := encode_caption) RawPrivate.user_caption
      (read_caption.reads hm) (fun caption m hm => MapBody.last RawPrivate.tail
      (RawTail.read.reads hm) (fun tail => Reads.pure (RawPrivate.mk account device scope name
      filename mime size digest created caption tail))
      ?_) ?_) ?_) ?_) ?_) ?_) ?_) ?_) ?_) ?_) ?_) ?admits ?writes ?depth
  case admits =>
    intro d raw
    constructor
    · rintro ⟨hd, -, -, ⟨-, hscope⟩, hname, hfile, hmime, -, -, -, hcaption, htail, -⟩
      exact ⟨hd, hscope, hname, hfile, hmime, hcaption, htail⟩
    · rintro ⟨hd, hscope, hname, hfile, hmime, hcaption, htail⟩
      exact ⟨hd, trivial, trivial, ⟨htail.depth, hscope⟩, hname, hfile, hmime, trivial, trivial,
        trivial, hcaption, htail, rfl⟩
  case writes =>
    intro d raw _
    simp [RawPrivate.encode, RawPrivate.head]
  case depth =>
    intro d raw _
    rfl
  all_goals grind

/-- What `encode` writes when no limit is passed. -/
def body (m : PrivateManifest) : Bytes :=
  MapWriter ([(0, Writer.bytes m.sender_account_id.bytes),
    (1, Writer.bytes m.sender_device_id.bytes), (2, m.recipient_scope.encode),
    (3, Writer.text m.display_name),
    (4, Writer.text m.original_filename), (5, Writer.text m.mime_type),
    (6, Writer.uint m.logical_plaintext_size), (7, Writer.bytes m.plaintext_digest.bytes),
    (8, Writer.uint m.created_at)] ++ caption_entry m.user_caption ++
    [(10, Writer.array (.ofNat m.objects.length) ++ m.objects.flatMap ObjectPrivate.encode),
      (11, m.key_policy.encode), (12, m.retention_policy.encode)])

/-- The length of a text, in bytes. -/
def text_len (text : String) : Nat := (Writer.as_bytes text).length

def encode (m : PrivateManifest) : Except ManifestError Bytes := do
  refuse_if (∃ text ∈ [m.display_name, m.original_filename, m.mime_type],
    text_len text > MAX_TEXT_LEN) .TextTooLong
  refuse_if (∃ caption ∈ m.user_caption, text_len caption > MAX_TEXT_LEN) .TextTooLong
  refuse_if (m.objects.length > MAX_OBJECTS.toNat) .TooManyObjects
  pure m.body

def validate (m : PrivateManifest) : Except ManifestError Unit :=
  if m.objects = [] then .error .InvalidValue
  else if (m.objects.filter fun o => o.object_role = ROLE_PRIMARY).length ≠ 1 then
    .error .InvalidValue
  -- A manifest that permits classical keys only is refused.
  else if !m.key_policy.pqc_required || m.key_policy.minimum_security_level = 0 then
    .error .InvalidValue
  else .ok ()

def decode (bytes : Bytes) : Except ManifestError PrivateManifest := do
  let r ← (Reader.new bytes).mapError from_cbor
  let raw ← Reader.read_all from_cbor read r
  raw.kept.validate
  pure raw.kept

/-- The manifest with no noncritical parts. -/
def bare (m : PrivateManifest) : RawPrivate where
  sender_account_id := m.sender_account_id
  sender_device_id := m.sender_device_id
  recipient_scope := m.recipient_scope
  display_name := m.display_name
  original_filename := m.original_filename
  mime_type := m.mime_type
  logical_plaintext_size := m.logical_plaintext_size
  plaintext_digest := m.plaintext_digest
  created_at := m.created_at
  user_caption := m.user_caption
  tail := ⟨m.objects.map fun o => (o, []), m.key_policy, m.retention_policy, none⟩

@[simp] theorem kept_bare (m : PrivateManifest) : m.bare.kept = m := by
  simp [RawPrivate.kept, bare, Function.comp_def]

theorem encode_bare (m : PrivateManifest) : m.bare.encode = m.body := by
  have hobject : (fun o : ObjectPrivate => MapWriter (ObjectPrivate.raw_fields (o, []))) =
      ObjectPrivate.encode := by
    funext o
    simp [ObjectPrivate.raw_fields, ObjectPrivate.encode]
  have hlen : ∀ l : List (UInt64 × Bytes), l.length = m.bare.entries →
      MapWriter l = Writer.map (.ofNat m.bare.entries) ++
        l.flatMap fun e => Writer.uint e.1 ++ e.2 := by
    intro l hl
    rw [MapWriter, hl]
  rw [body, hlen]
  · simp [RawPrivate.encode, RawPrivate.head, RawTail.encode, bare, encode_caption,
      extension_entry, List.flatMap_map, hobject]
  · simp only [caption_entry, RawPrivate.entries, bare, List.length_append, List.length_map,
      List.length_cons, List.length_nil, Option.toList_none]
    omega

/-- No text and no caption is longer than the writer allows. -/
def TextsFit (m : PrivateManifest) : Prop :=
  (∀ text ∈ [m.display_name, m.original_filename, m.mime_type], text_len text ≤ MAX_TEXT_LEN) ∧
    ∀ caption ∈ m.user_caption, text_len caption ≤ MAX_TEXT_LEN

theorem encode_eq_ok {m : PrivateManifest} {bytes : Bytes} : m.encode = .ok bytes ↔
    m.TextsFit ∧ m.objects.length ≤ MAX_OBJECTS.toNat ∧ m.body = bytes := by
  unfold encode
  simp only [bind_eq_ok, refuse_if_eq_ok, pure_eq_ok, not_exists, not_and, gt_iff_lt, Nat.not_lt]
  constructor
  · rintro ⟨-, htexts, -, hcaption, -, hobjects, hbody⟩
    exact ⟨⟨htexts, hcaption⟩, hobjects, hbody⟩
  · rintro ⟨⟨htexts, hcaption⟩, hobjects, hbody⟩
    exact ⟨(), htexts, (), hcaption, (), hobjects, hbody⟩

/-- The length of a caption, in bytes. -/
def caption_len (user_caption : Option String) : Nat := (user_caption.map text_len).getD 0

theorem caption_entry_le (user_caption : Option String) :
    List.Forall₂ (fun e k => e.2.length ≤ k) (caption_entry user_caption)
      (user_caption.toList.map fun caption => 9 + text_len caption) := by
  rcases user_caption with _ | caption
  · exact .nil
  · exact .cons (length_text_le _) .nil

theorem length_body_le (m : PrivateManifest) :
    m.body.length ≤ 600 + m.recipient_scope.id.length + text_len m.display_name +
      text_len m.original_filename + text_len m.mime_type + caption_len m.user_caption +
      100 * m.objects.length := by
  have hscope : m.recipient_scope.encode.length ≤ _ :=
    length_mapWriter_le_of (.cons (length_uint_le _) (.cons (length_bytes_le _) .nil))
  have hobject : ∀ o : ObjectPrivate, o.encode.length ≤ 100 := by
    intro o
    have hmap : o.encode.length ≤ _ := length_mapWriter_le_of (.cons (length_bytes_le _)
      (.cons (length_uint_le _) (.cons (length_uint_le _) .nil)))
    simp only [Arr.length_bytes, List.map_cons, List.map_nil, List.sum_cons, List.sum_nil] at hmap
    omega
  have hobjects : (Writer.array (.ofNat m.objects.length) ++
      m.objects.flatMap ObjectPrivate.encode).length ≤ 9 + 100 * m.objects.length := by
    rw [List.length_append]
    exact Nat.add_le_add (length_header_le _ _) (length_flatMap_le fun o _ => hobject o)
  have hkey : m.key_policy.encode.length ≤ _ := length_mapWriter_le_of
    (.cons (length_uint_le _) (.cons (length_uint_le _) (.cons (Nat.le_refl 1) .nil)))
  have hretention : m.retention_policy.encode.length ≤ _ := length_mapWriter_le_of
    (.cons (length_uint_le _) (.cons (Nat.le_refl 1) (.cons (Nat.le_refl 1) .nil)))
  have hcaption : ((m.user_caption.toList.map fun caption => 9 + text_len caption).map
      (9 + ·)).sum ≤ 18 + caption_len m.user_caption := by
    rcases m.user_caption with _ | caption
    · exact Nat.zero_le _
    · simp only [caption_len, Option.toList_some, List.map_cons, List.map_nil, List.sum_cons,
        List.sum_nil, Option.map_some, Option.getD_some]
      omega
  have happend {l l' : List (UInt64 × Bytes)} {k k' : List Nat}
      (h : List.Forall₂ (fun e k => e.2.length ≤ k) l k)
      (h' : List.Forall₂ (fun e k => e.2.length ≤ k) l' k') :
      List.Forall₂ (fun e k => e.2.length ≤ k) (l ++ l') (k ++ k') := List.rel_append h h'
  refine Nat.le_trans (length_mapWriter_le_of (happend (happend (.cons (length_bytes_le _)
    (.cons (length_bytes_le _) (.cons hscope (.cons (length_text_le _) (.cons (length_text_le _)
    (.cons (length_text_le _) (.cons (length_uint_le _) (.cons (length_bytes_le _)
    (.cons (length_uint_le _) .nil))))))))) (caption_entry_le m.user_caption))
    (.cons hobjects (.cons hkey (.cons hretention .nil))))) ?_
  simp only [Arr.length_bytes, List.map_append, List.sum_append, List.map_cons, List.map_nil,
    List.sum_cons, List.sum_nil]
  unfold text_len at *
  clear hscope hobject hobjects hkey hretention
  omega

theorem decode_eq_ok {bytes : Bytes} {m : PrivateManifest} : decode bytes = .ok m ↔
    ∃ raw : RawPrivate, bytes.length ≤ MAX_CONTROL_SIZE ∧ raw.Fits 0 ∧ bytes = raw.encode ∧
      raw.kept = m ∧ m.validate = .ok () := by
  have hread : ∀ raw, ((Reader.new bytes).mapError from_cbor >>= Reader.read_all from_cbor read) =
      .ok raw ↔ _ := fun raw => Reader.new_read_all_eq_ok read.reads
  simp only [bind_eq_ok] at hread
  unfold decode
  simp only [bind_eq_ok, pure_eq_ok]
  constructor
  · rintro ⟨r, hr, raw, hraw, u, hvalid, rfl⟩
    obtain ⟨hlen, hfits, hbytes⟩ := (hread raw).1 ⟨r, hr, hraw⟩
    exact ⟨raw, hlen, hfits, hbytes, rfl, hvalid⟩
  · rintro ⟨raw, hlen, hfits, hbytes, rfl, hvalid⟩
    obtain ⟨r, hr, hraw⟩ := (hread raw).2 ⟨hlen, hfits, hbytes⟩
    exact ⟨r, hr, raw, hraw, (), hvalid, rfl⟩

/-- A valid manifest that the reader admits is read back. -/
theorem decode_body {m : PrivateManifest} (hvalid : m.validate = .ok ())
    (hsize : m.body.length ≤ MAX_CONTROL_SIZE) (hfits : m.bare.Fits 0) :
    decode m.body = .ok m :=
  decode_eq_ok.2 ⟨m.bare, hsize, hfits, (encode_bare m).symm, kept_bare m, hvalid⟩

/-- The limits of the reader that `encode` and `validate` do not check. -/
structure Readable (m : PrivateManifest) : Prop where
  size : m.body.length ≤ MAX_CONTROL_SIZE
  scope : m.recipient_scope.id.length ≤ MAX_TEXT_LEN
  roles : ∀ o ∈ m.objects, o.object_role ≤ ROLE_SIDECAR

theorem bare_fits {m : PrivateManifest} (hscope : m.recipient_scope.id.length ≤ MAX_TEXT_LEN)
    (htexts : ∀ text ∈ [m.display_name, m.original_filename, m.mime_type], text_len text < 2 ^ 64)
    (hcaption : ∀ caption ∈ m.user_caption, text_len caption < 2 ^ 64)
    (hobjects : m.objects.length ≤ MAX_OBJECTS.toNat)
    (hroles : ∀ o ∈ m.objects, o.object_role ≤ ROLE_SIDECAR) : m.bare.Fits 0 where
  depth := by decide
  scope := hscope
  display_name := htexts _ (by simp [bare])
  original_filename := htexts _ (by simp [bare])
  mime_type := htexts _ (by simp [bare])
  user_caption := hcaption
  tail := {
    depth := by decide
    objects_len := by simpa [bare] using hobjects
    objects := by
      intro r h
      obtain ⟨o, ho, rfl⟩ := List.mem_map.1 h
      exact ⟨by decide, hroles o ho, trivial, by simp⟩
    extension := by simp [bare] }

/-- A valid manifest within the limits is read back. -/
theorem decode_encode {m : PrivateManifest} {bytes : Bytes} (hvalid : m.validate = .ok ())
    (hencode : m.encode = .ok bytes) (hr : m.Readable) : decode bytes = .ok m := by
  have hmax : MAX_TEXT_LEN < 2 ^ 64 := by decide
  obtain ⟨⟨htexts, hcaption⟩, hobjects, rfl⟩ := encode_eq_ok.1 hencode
  exact decode_body hvalid hr.size (bare_fits hr.scope
    (fun text h => Nat.lt_of_le_of_lt (htexts text h) hmax)
    (fun caption h => Nat.lt_of_le_of_lt (hcaption caption h) hmax) hobjects hr.roles)

end PrivateManifest

/-! ## Sealing -/

section Sealing

variable (P : Primitives)

def manifest_aad (transfer_id primary_object_id sender_device_id : Arr 32)
    (recipient_scope : RecipientScope) : Bytes :=
  MANIFEST_AAD_DOMAIN ++ transfer_id.bytes ++ primary_object_id.bytes ++
    be_bytes 2 SUITE_ID.toNat ++ sender_device_id.bytes ++ (recipient_scope.hash P).bytes

/-- `nonce` is what is drawn. -/
def seal_private_manifest (manifest : PrivateManifest) (manifest_key : Arr 32)
    (transfer_id primary_object_id : Arr 32) (nonce : Arr 24) :
    Except ManifestError SealedManifest := do
  manifest.validate
  let plaintext ← manifest.encode
  let aad := manifest_aad P transfer_id primary_object_id manifest.sender_device_id
    manifest.recipient_scope
  let ciphertext ← some_or .Crypto (P.encrypt manifest_key nonce aad plaintext)
  pure ⟨nonce, ciphertext⟩

def open_private_manifest (sealed : SealedManifest) (manifest_key : Arr 32)
    (transfer_id primary_object_id sender_device_id : Arr 32) (recipient_scope : RecipientScope) :
    Except ManifestError PrivateManifest := do
  let aad := manifest_aad P transfer_id primary_object_id sender_device_id recipient_scope
  let plaintext ← some_or .Crypto (P.decrypt manifest_key sealed.nonce aad sealed.ciphertext)
  let manifest ← PrivateManifest.decode plaintext
  refuse_if (manifest.sender_device_id ≠ sender_device_id ∨
    manifest.recipient_scope ≠ recipient_scope) .InvalidValue
  pure manifest

variable {P} {sealed : SealedManifest} {manifest_key transfer_id object_id sender : Arr 32}
  {scope : RecipientScope} {manifest : PrivateManifest}

theorem open_private_manifest_eq_ok :
    open_private_manifest P sealed manifest_key transfer_id object_id sender scope =
        .ok manifest ↔
      ∃ plaintext, P.decrypt manifest_key sealed.nonce
          (manifest_aad P transfer_id object_id sender scope) sealed.ciphertext = some plaintext ∧
        PrivateManifest.decode plaintext = .ok manifest ∧ manifest.sender_device_id = sender ∧
        manifest.recipient_scope = scope := by
  unfold open_private_manifest
  simp only [bind_eq_ok, some_or_eq_ok, refuse_if_eq_ok, pure_eq_ok, not_or, not_not]
  constructor
  · rintro ⟨plaintext, hdec, m, hm, -, hchecks, rfl⟩
    exact ⟨plaintext, hdec, hm, hchecks⟩
  · rintro ⟨plaintext, hdec, hm, hchecks⟩
    exact ⟨plaintext, hdec, manifest, hm, (), hchecks, rfl⟩

theorem seal_private_manifest_eq_ok {nonce : Arr 24} :
    seal_private_manifest P manifest manifest_key transfer_id object_id nonce = .ok sealed ↔
      manifest.validate = .ok () ∧ ∃ plaintext ciphertext, manifest.encode = .ok plaintext ∧
        P.encrypt manifest_key nonce (manifest_aad P transfer_id object_id
          manifest.sender_device_id manifest.recipient_scope) plaintext = some ciphertext ∧
        (⟨nonce, ciphertext⟩ : SealedManifest) = sealed := by
  unfold seal_private_manifest
  simp only [bind_eq_ok, some_or_eq_ok, pure_eq_ok]
  constructor
  · rintro ⟨u, hvalid, plaintext, hencode, c, hc, rfl⟩
    exact ⟨hvalid, plaintext, c, hencode, hc, rfl⟩
  · rintro ⟨hvalid, plaintext, c, hencode, hc, rfl⟩
    exact ⟨(), hvalid, plaintext, hencode, c, hc, rfl⟩

/-- What was sealed is opened under the same names. -/
theorem open_seal_private_manifest (hP : P.Decrypts) (hr : manifest.Readable) {nonce : Arr 24}
    (h : seal_private_manifest P manifest manifest_key transfer_id object_id nonce = .ok sealed) :
    open_private_manifest P sealed manifest_key transfer_id object_id manifest.sender_device_id
      manifest.recipient_scope = .ok manifest := by
  obtain ⟨hvalid, plaintext, c, hencode, hc, rfl⟩ := seal_private_manifest_eq_ok.1 h
  exact open_private_manifest_eq_ok.2 ⟨plaintext, hP _ _ _ _ _ hc,
    PrivateManifest.decode_encode hvalid hencode hr, rfl, rfl⟩

end Sealing

end rtp2_core.manifest
