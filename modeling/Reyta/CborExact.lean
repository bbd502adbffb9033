-- Every RTP-CBOR reader reads just what the writer of the same name writes, so
-- there is one encoding of each value and it is read back whatever follows it.
import Reyta.Cbor

open byte_string exact_parse

namespace rtp2_core.cbor

/-! ## A head -/

theorem byte_parts (b : UInt8) :
    b >>> 5 < 8 ∧ b &&& 31 < 32 ∧ (b >>> 5) <<< 5 ||| (b &&& 31) = b := by
  have all : ∀ i : Fin 256, UInt8.ofFin i >>> 5 < 8 ∧ UInt8.ofFin i &&& 31 < 32 ∧
      (UInt8.ofFin i >>> 5) <<< 5 ||| (UInt8.ofFin i &&& 31) = UInt8.ofFin i := by
    decide +kernel
  exact all b.toFin

theorem byte_of_parts {m a : UInt8} (hm : m < 8) (ha : a < 32) :
    (m <<< 5 ||| a) >>> 5 = m ∧ (m <<< 5 ||| a) &&& 31 = a := by
  have all : ∀ i : Fin 8, ∀ j : Fin 32,
      (UInt8.ofNat i <<< 5 ||| UInt8.ofNat j) >>> 5 = UInt8.ofNat i ∧
        (UInt8.ofNat i <<< 5 ||| UInt8.ofNat j) &&& 31 = UInt8.ofNat j := by
    decide +kernel
  simpa using all ⟨m.toNat, UInt8.lt_iff_toNat_lt.1 hm⟩ ⟨a.toNat, UInt8.lt_iff_toNat_lt.1 ha⟩

theorem toNat_additional (v : UInt64) :
    (Writer.additional v).toNat = if v.toNat < 24 then v.toNat else if v.toNat ≤ 0xff then 24
      else if v.toNat ≤ 0xffff then 25 else if v.toNat ≤ 0xffffffff then 26 else 27 := by
  simp only [Writer.additional, apply_ite UInt8.toNat, UInt64.lt_iff_toNat_lt,
    UInt64.le_iff_toNat_le, UInt64.toNat_toUInt8]
  by_cases h : v.toNat < 24
  · simp [h]
    omega
  · simp [h]

theorem additional_lt (v : UInt64) : Writer.additional v < 32 := by
  rw [UInt8.lt_iff_toNat_lt, toNat_additional]
  simp only [UInt8.toNat_ofNat]
  split_ifs <;> omega

theorem Reader.wide.reads {width : Nat} (hw : width ≤ 8) (least : UInt64) :
    Reads (Reader.wide width least) (fun _ v => least ≤ v ∧ v.toNat < 256 ^ width)
      (fun v => be_bytes width v.toNat) (fun d _ => d) := by
  have hpow : 256 ^ width ≤ 2 ^ 64 := Nat.pow_le_pow_right (n := 256) (by decide) hw
  have back : ∀ raw : Bytes, raw.length = width → (UInt64.ofNat (of_be raw)).toNat = of_be raw := by
    rintro raw rfl
    exact UInt64.toNat_ofNat_of_lt' (Nat.lt_of_lt_of_le (of_be_lt raw) hpow)
  unfold Reader.wide
  refine Reads.congr (Reads.bind (fun v => be_bytes width v.toNat) (Reads.take width _)
    (fun raw _ => Reads.fail_if _ _ (Reads.pure _)) ?_) ?_ ?_ ?_
  · rintro d raw v hraw ⟨-, rfl⟩
    rw [back raw hraw, ← hraw, be_bytes_of_be]
  · intro d v
    simp only [length_be_bytes, true_and, UInt64.not_lt]
    constructor
    · rintro ⟨hle, hv⟩
      have hlt := of_be_lt (be_bytes width v.toNat)
      rw [length_be_bytes, ← back _ (length_be_bytes _ _), ← hv] at hlt
      exact ⟨hv ▸ hle, hlt⟩
    · rintro ⟨hle, hlt⟩
      rw [of_be_be_bytes hlt, UInt64.ofNat_toNat]
      exact ⟨hle, rfl⟩
  · intro d v _
    simp
  · intro d v _
    rfl

theorem numeral_eq (v : UInt64) :
    Writer.numeral v = if v.toNat < 24 then [] else if v.toNat ≤ 0xff then be_bytes 1 v.toNat
      else if v.toNat ≤ 0xffff then be_bytes 2 v.toNat
      else if v.toNat ≤ 0xffffffff then be_bytes 4 v.toNat else be_bytes 8 v.toNat := by
  simp [Writer.numeral, UInt64.lt_iff_toNat_lt, UInt64.le_iff_toNat_le]

/-- The numerals that follow a first byte: its additional information, their
width and the least value that needs them. -/
def widths : List (UInt8 × Nat × UInt64) :=
  [(24, 1, 24), (25, 2, 0x100), (26, 4, 0x10000), (27, 8, 0x100000000)]

theorem additional_iff_width {ai : UInt8} {width : Nat} {least : UInt64}
    (h : (ai, width, least) ∈ widths) (v : UInt64) :
    Writer.additional v = ai ↔ least ≤ v ∧ v.toNat < 256 ^ width := by
  have hv := v.toNat_lt
  rw [← UInt8.toNat_inj, toNat_additional, UInt64.le_iff_toNat_le]
  simp only [widths, List.mem_cons, List.not_mem_nil, or_false, Prod.mk.injEq] at h
  rcases h with ⟨rfl, rfl, rfl⟩ | ⟨rfl, rfl, rfl⟩ | ⟨rfl, rfl, rfl⟩ | ⟨rfl, rfl, rfl⟩ <;>
    simp only [UInt8.toNat_ofNat, UInt64.toNat_ofNat] <;> split_ifs <;> omega

theorem numeral_of_width {ai : UInt8} {width : Nat} {least v : UInt64}
    (h : (ai, width, least) ∈ widths) (hv : least ≤ v ∧ v.toNat < 256 ^ width) :
    Writer.numeral v = be_bytes width v.toNat := by
  rw [UInt64.le_iff_toNat_le] at hv
  rw [numeral_eq]
  simp only [widths, List.mem_cons, List.not_mem_nil, or_false, Prod.mk.injEq] at h
  rcases h with ⟨rfl, rfl, rfl⟩ | ⟨rfl, rfl, rfl⟩ | ⟨rfl, rfl, rfl⟩ | ⟨rfl, rfl, rfl⟩ <;>
    simp only [UInt64.toNat_ofNat] at hv <;> split_ifs <;> first | omega | rfl

theorem Reader.wide.reads_width {ai : UInt8} {width : Nat} {least : UInt64}
    (h : (ai, width, least) ∈ widths) (hw : width ≤ 8) :
    Reads (Reader.wide width least) (fun _ v => Writer.additional v = ai) Writer.numeral
      (fun d _ => d) :=
  (Reader.wide.reads hw least).congr (fun _ v => (additional_iff_width h v).symm)
    (fun _ _ hv => (numeral_of_width h hv).symm) (fun _ _ _ => rfl)

theorem Reader.argument.reads (ai : UInt8) :
    Reads (Reader.argument ai) (fun _ v => Writer.additional v = ai) Writer.numeral
      (fun d _ => d) := by
  unfold Reader.argument
  split_ifs with h1 h2 h3 h4 h5
  · have hai : ai.toNat < 24 := UInt8.lt_iff_toNat_lt.1 h1
    refine (Reads.pure ai.toUInt64).congr ?_ ?_ ?_
    · intro d v
      rw [← UInt64.toNat_inj, UInt8.toNat_toUInt64, ← UInt8.toNat_inj, toNat_additional]
      split_ifs <;> omega
    · rintro d v rfl
      rw [numeral_eq, UInt8.toNat_toUInt64, if_pos hai]
    · intro d v _
      rfl
  · exact Reader.wide.reads_width (by simp [widths, h2]) (by decide)
  · exact Reader.wide.reads_width (by simp [widths, h3]) (by decide)
  · exact Reader.wide.reads_width (by simp [widths, h4]) (by decide)
  · exact Reader.wide.reads_width (by simp [widths, h5]) (by decide)
  · apply Reads.fail
    rintro d v rfl
    rw [UInt8.lt_iff_toNat_lt, toNat_additional] at h1
    simp only [← UInt8.toNat_inj, toNat_additional] at h2 h3 h4 h5
    simp at h1 h2 h3 h4 h5
    split_ifs at h1 h2 h3 h4 h5 <;> omega

/-- The heads that RTP-CBOR admits. -/
def HeadOk (h : UInt8 × UInt64) : Prop :=
  h.1 < 8 ∧ (h.1 = MAJOR_SIMPLE → h.2 = SIMPLE_FALSE.toUInt64 ∨ h.2 = SIMPLE_TRUE.toUInt64)

instance (h : UInt8 × UInt64) : Decidable (HeadOk h) := inferInstanceAs (Decidable (_ ∧ _))

theorem Reader.head.reads :
    Reads Reader.head (fun _ h => HeadOk h) (fun h => Writer.header h.1 h.2) (fun d _ => d) := by
  unfold Reader.head
  refine Reads.congr (Reads.bind
      (fun h : UInt8 × UInt64 => h.1 <<< 5 ||| Writer.additional h.2) (Reads.next _)
    (fun first _ => Reads.bind (fun h : UInt8 × UInt64 => h.2) (Reader.argument.reads _)
      (fun value _ => Reads.fail_if _ _ (Reads.pure _)) ?_) ?_) ?_ ?_ ?_
  · rintro d value h - ⟨-, rfl⟩
    rfl
  · rintro d first h - ⟨hai, -, hh⟩
    rw [hai, hh]
    exact (byte_parts first).2.2
  · rintro d ⟨major, value⟩
    simp only [true_and, HeadOk]
    constructor
    · rintro ⟨hai, hs, hm⟩
      have hmaj := congrArg Prod.fst hm
      simp only at hmaj
      rw [hmaj]
      refine ⟨(byte_parts _).1, ?_⟩
      intro h
      simp only [h, true_and, not_and_or, not_not] at hs
      exact hs
    · rintro ⟨hm, hs⟩
      obtain ⟨h1, h2⟩ := byte_of_parts hm (additional_lt value)
      refine ⟨h2.symm, ?_, by simp [h1]⟩
      rintro ⟨h, h3, h4⟩
      rw [h1] at h
      rcases hs h with h5 | h5
      · exact h3 h5
      · exact h4 h5
  · rintro d ⟨major, value⟩ -
    simp [Writer.header]
  · intros
    rfl

/-! ## The values -/

theorem Reader.typed_head.reads (wanted : UInt8) :
    Reads (Reader.typed_head wanted) (fun _ v => HeadOk (wanted, v))
      (fun v => Writer.header wanted v) (fun d _ => d) := by
  unfold Reader.typed_head
  refine Reads.congr (Reads.bind (fun v => (wanted, v)) Reader.head.reads
    (fun h _ => Reads.fail_if _ _ (Reads.pure _)) ?_) ?_ ?_ ?_
  · rintro d ⟨major, value⟩ v - ⟨hm, rfl⟩
    rw [show major = wanted from not_not.1 hm]
  · intro d v
    simp
  · intro d v _
    simp
  · intro d v _
    rfl

theorem headOk_of_lt {wanted : UInt8} (h : wanted < 7) (v : UInt64) : HeadOk (wanted, v) := by
  rw [UInt8.lt_iff_toNat_lt] at h
  refine ⟨UInt8.lt_iff_toNat_lt.2 (Nat.lt_succ_of_lt h), ?_⟩
  rintro rfl
  exact absurd h (by decide)

theorem Reader.uint.reads :
    Reads Reader.uint (fun _ _ => True) Writer.uint (fun d _ => d) :=
  (Reader.typed_head.reads MAJOR_UINT).congr
    (fun _ v => iff_true_intro (headOk_of_lt (by decide) v)) (fun _ _ _ => rfl) (fun _ _ _ => rfl)

theorem Reader.sized.reads {wanted : UInt8} (h : wanted < 7) :
    Reads (Reader.sized wanted) (fun _ l => l.length < 2 ^ 64)
      (fun l => Writer.header wanted (.ofNat l.length) ++ l) (fun d _ => d) := by
  unfold Reader.sized
  refine Reads.congr (Reads.bind (fun l : Bytes => .ofNat l.length) (Reader.typed_head.reads wanted)
    (fun len _ => Reads.take len.toNat _) ?_) ?_ ?_ ?_
  · rintro d len l - hl
    rw [hl, UInt64.ofNat_toNat]
  · intro d l
    simp only [headOk_of_lt h, true_and, UInt64.toNat_ofNat']
    omega
  · intro d l _
    rfl
  · intro d l _
    rfl

theorem Reader.bytes.reads :
    Reads Reader.bytes (fun _ l => l.length < 2 ^ 64) Writer.bytes (fun d _ => d) :=
  Reader.sized.reads (by decide)

theorem Reader.bytes_exact.reads {n : Nat} (hn : n < 2 ^ 64) :
    Reads (Reader.bytes_exact n) (fun _ _ => True) (fun a => Writer.bytes a.bytes)
      (fun d _ => d) := by
  unfold Reader.bytes_exact
  constructor
  · intro s d a s' d' h
    obtain ⟨raw, ⟨s1, d1⟩, h1, h2⟩ := run_bind_eq_ok.1 h
    obtain ⟨-, rfl, rfl⟩ := Reader.bytes.reads.sound h1
    rcases hraw : Arr.try_from n raw with _ | b
    · rw [hraw] at h2
      cases h2
    · rw [hraw] at h2
      cases h2
      rw [Arr.try_from_eq_some.1 hraw]
      exact ⟨trivial, rfl, rfl⟩
  · intro d a t _
    rw [run_bind_of_ok (Reader.bytes.reads.complete t (by rw [a.length_bytes]; exact hn))]
    rw [Arr.try_from_eq_some.2 rfl]
    rfl

theorem uint_append_inj {v v' : UInt64} {s t : Bytes}
    (h : Writer.uint v ++ s = Writer.uint v' ++ t) : v = v' ∧ s = t :=
  Reader.uint.reads.writes_apart (d := 0) trivial trivial h

theorem bytes_append_inj {n : Nat} (hn : n < 2 ^ 64) {a a' : Arr n} {s t : Bytes}
    (h : Writer.bytes a.bytes ++ s = Writer.bytes a'.bytes ++ t) : a = a' ∧ s = t :=
  (Reader.bytes_exact.reads hn).writes_apart (d := 0) trivial trivial h

theorem Reader.boolean.reads :
    Reads Reader.boolean (fun _ _ => True) Writer.boolean (fun d _ => d) := by
  have hw : ∀ b : Bool, Writer.boolean b =
      Writer.header MAJOR_SIMPLE (if b then SIMPLE_TRUE else SIMPLE_FALSE).toUInt64 := by decide
  unfold Reader.boolean
  refine Reads.congr (Reads.bind
      (fun b : Bool => (if b then SIMPLE_TRUE else SIMPLE_FALSE).toUInt64)
    (Reader.typed_head.reads _) (fun _ _ => Reads.pure _) ?_) ?_ ?_ ?_
  · rintro d v b ⟨-, hv⟩ rfl
    rcases hv rfl with rfl | rfl <;> rfl
  · intro d b
    rcases b with _ | _ <;> simp <;> decide
  · intro d b _
    simp [hw b]
  · intro d b _
    rfl

theorem fromUTF8_eq_some {raw : Bytes} {s : String} :
    String.fromUTF8? ⟨raw.toArray⟩ = some s ↔ Writer.as_bytes s = raw := by
  unfold String.fromUTF8?
  constructor
  · intro h
    split at h
    · cases h
      rfl
    · cases h
  · rintro rfl
    exact dif_pos s.isValidUTF8

theorem Reader.text.reads :
    Reads Reader.text (fun _ s => (Writer.as_bytes s).length < 2 ^ 64) Writer.text
      (fun d _ => d) := by
  have hraw : Reads (Reader.sized MAJOR_TEXT) _ _ _ := Reader.sized.reads (by decide)
  constructor
  · intro s d a s' d' h
    obtain ⟨raw, ⟨s1, d1⟩, h1, h2⟩ := run_bind_eq_ok.1 h
    obtain ⟨hlen, rfl, rfl⟩ := hraw.sound h1
    rcases hs : String.fromUTF8? ⟨raw.toArray⟩ with _ | b
    · rw [hs] at h2
      cases h2
    · rw [hs] at h2
      cases h2
      obtain rfl := fromUTF8_eq_some.1 hs
      exact ⟨hlen, rfl, rfl⟩
  · intro d a t ha
    refine (run_bind_of_ok (hraw.complete t ha)).trans ?_
    rw [fromUTF8_eq_some.2 rfl]
    rfl

theorem Reader.enter.reads :
    Reads Reader.enter (fun d _ => d < MAX_DEPTH) (fun _ => []) (fun d _ => d + 1) := by
  constructor
  · intro s d a s' d' h
    unfold Reader.enter at h
    split at h
    · cases h
    · rename_i hd
      cases h
      exact ⟨Nat.lt_of_succ_le (Nat.not_lt.1 hd), rfl, rfl⟩
  · intro d a t hd
    exact if_neg (Nat.not_lt.2 hd)

theorem Reader.leave.reads {ε : Type} :
    Reads (Reader.leave : Parse ε Unit) (fun _ _ => True) (fun _ => []) (fun d _ => d - 1) := by
  constructor
  · intro s d a s' d' h
    cases h
    exact ⟨trivial, rfl, rfl⟩
  · intro d a t _
    rfl

theorem Reader.array.reads :
    Reads Reader.array (fun d _ => d < MAX_DEPTH) Writer.array (fun d _ => d + 1) := by
  unfold Reader.array
  refine Reads.congr (Reads.bind id (Reader.typed_head.reads _) (fun len _ => Reads.bind
    (fun _ => ()) Reader.enter.reads (fun _ _ => Reads.pure len) ?_) ?_) ?_ ?_ ?_
  · intros
    rfl
  · rintro d len v - ⟨-, rfl⟩
    rfl
  · intro d v
    simp [headOk_of_lt (show MAJOR_ARRAY < 7 by decide)]
  · intro d v _
    simp [Writer.array]
  · intro d v _
    rfl

theorem Reader.array_if.reads {ε α : Type} {bad : CborError → ε} {refused : UInt64 → Bool} {e : ε}
    {p : Parse ε α} {S : Nat → α → Prop} {w : α → Bytes} (hp : Reads p S w (fun d _ => d)) :
    Reads (Reader.array_if bad refused e p)
      (fun d l => d < MAX_DEPTH ∧ l.length < 2 ^ 64 ∧ refused (.ofNat l.length) = false ∧
        ∀ a ∈ l, S (d + 1) a)
      (fun l => Writer.array (.ofNat l.length) ++ l.flatMap w) (fun d _ => d) := by
  unfold Reader.array_if
  refine Reads.congr (Reads.bind (fun l : List α => .ofNat l.length)
    (Reader.array.reads.map_err bad) (fun n _ => Reads.fail_if _ e (Reads.bind id
      (hp.times n.toNat) (fun l _ => Reads.bind (fun _ => ()) Reader.leave.reads
        (fun _ _ => Reads.pure l) ?_) ?_)) ?_) ?admits ?writes ?depth
  case admits =>
    intro d l
    simp only [each_of_fixed, UInt64.toNat_ofNat', id, and_true, Bool.not_eq_true]
    constructor
    · rintro ⟨hd, hok, hlen, hl⟩
      exact ⟨hd, by omega, hok, hl⟩
    · rintro ⟨hd, hlt, hok, hl⟩
      exact ⟨hd, hok, by omega, hl⟩
  case writes =>
    intro d l _
    simp
  case depth =>
    intro d l _
    simp
  · intro d u l _ _
    rfl
  · rintro d l l' - ⟨-, rfl⟩
    rfl
  · rintro d n l - ⟨-, ⟨hlen, -⟩, -⟩
    simp only [id] at hlen
    rw [hlen, UInt64.ofNat_toNat]

theorem Reader.array_of.reads {ε α : Type} {bad : CborError → ε} {limit : UInt64} {e : ε}
    {p : Parse ε α} {S : Nat → α → Prop} {w : α → Bytes} (hp : Reads p S w (fun d _ => d)) :
    Reads (Reader.array_of bad limit e p)
      (fun d l => d < MAX_DEPTH ∧ l.length ≤ limit.toNat ∧ ∀ a ∈ l, S (d + 1) a)
      (fun l => Writer.array (.ofNat l.length) ++ l.flatMap w) (fun d _ => d) := by
  have hlimit := limit.toNat_lt
  refine (Reader.array_if.reads hp).congr ?_ (fun _ _ _ => rfl) (fun _ _ _ => rfl)
  intro d l
  simp only [gt_iff_lt, decide_eq_false_iff_not, UInt64.not_lt, UInt64.le_iff_toNat_le,
    UInt64.toNat_ofNat']
  constructor
  · rintro ⟨hd, hlt, hle, hl⟩
    exact ⟨hd, by omega, hl⟩
  · rintro ⟨hd, hle, hl⟩
    exact ⟨hd, by omega, by omega, hl⟩

/-! ## A map -/

theorem Reader.map.reads :
    Reads Reader.map (fun d m => d < MAX_DEPTH ∧ m.remaining < 2 ^ 64 ∧ m.last_key = none)
      (fun m => Writer.map (.ofNat m.remaining)) (fun d _ => d + 1) := by
  unfold Reader.map
  refine Reads.congr (Reads.bind (fun m : MapReader => .ofNat m.remaining)
    (Reader.typed_head.reads _) (fun len _ => Reads.bind (fun _ => ()) Reader.enter.reads
      (fun _ _ => Reads.pure _) ?_) ?_) ?_ ?_ ?_
  · intros
    rfl
  · rintro d len m - ⟨-, rfl⟩
    exact UInt64.ofNat_toNat
  · rintro d ⟨remaining, last_key⟩
    simp only [headOk_of_lt (show MAJOR_MAP < 7 by decide), true_and, MapReader.mk.injEq,
      UInt64.toNat_ofNat']
    exact and_congr_right fun _ => and_congr_left fun _ => by omega
  · intro d m _
    simp [Writer.map]
  · intro d m _
    rfl

theorem MapReader.next_key_of_ne {m : MapReader} (h : m.remaining ≠ 0) :
    Reads m.next_key
      (fun _ r => ∃ key, r = (some key, ⟨m.remaining - 1, some key⟩) ∧
        ∀ last, m.last_key = some last → last < key)
      (fun r => r.1.elim [] Writer.uint) (fun d _ => d) := by
  unfold MapReader.next_key
  rw [if_neg h]
  refine Reads.congr (Reads.bind (fun r => r.1.getD 0) Reader.uint.reads
    (fun key _ => Reads.fail_if _ _ (Reads.pure _)) ?_) ?_ ?_ ?_
  · rintro d key r - ⟨-, rfl⟩
    rfl
  · intro d r
    constructor
    · rintro ⟨-, hk, hr⟩
      refine ⟨r.1.getD 0, hr, ?_⟩
      intro last hlast
      by_contra hlt
      exact hk ⟨last, hlast, UInt64.not_lt.1 hlt⟩
    · rintro ⟨key, rfl, hk⟩
      refine ⟨trivial, ?_, rfl⟩
      rintro ⟨last, hlast, hle⟩
      exact absurd (hk last hlast) (UInt64.not_lt.2 hle)
  · rintro d r ⟨-, -, hr⟩
    rw [hr]
    simp
  · intro d r _
    rfl

theorem MapReader.next_key_of_eq {m : MapReader} (h : m.remaining = 0) :
    Reads m.next_key (fun _ r => r = (none, m)) (fun _ => []) (fun d _ => d - 1) := by
  unfold MapReader.next_key
  rw [if_pos h]
  refine Reads.congr (Reads.bind (fun _ => ()) Reader.leave.reads (fun _ _ => Reads.pure _) ?_)
    ?_ ?_ ?_
  · intros
    rfl
  · intro d r
    simp
  · intro d r _
    rfl
  · intro d r _
    rfl

theorem MapReader.expect_key.reads (m : MapReader) (k : UInt64)
    (hk : ∀ last, m.last_key = some last → last < k) :
    Reads (m.expect_key k) (fun _ m' => m.remaining = m'.remaining + 1 ∧ m'.last_key = some k)
      (fun _ => Writer.uint k) (fun d _ => d) := by
  unfold MapReader.expect_key
  by_cases hm : m.remaining = 0
  · constructor
    · intro s d a s' d' h
      obtain ⟨r, i, h1, h2⟩ := run_bind_eq_ok.1 h
      obtain ⟨rfl, -⟩ := (MapReader.next_key_of_eq hm).sound h1
      cases h2
    · rintro d a t ⟨h, -⟩
      omega
  · constructor
    · intro s d a s' d' h
      obtain ⟨r, ⟨s1, d1⟩, h1, h2⟩ := run_bind_eq_ok.1 h
      obtain ⟨⟨key, rfl, -⟩, rfl, rfl⟩ := (MapReader.next_key_of_ne hm).sound h1
      dsimp only at h2
      split at h2
      · rename_i heq
        cases heq
        cases h2
        exact ⟨⟨by simp only; omega, rfl⟩, rfl, rfl⟩
      · cases h2
    · rintro d ⟨remaining, last_key⟩ t ⟨h, rfl⟩
      have h1 := (MapReader.next_key_of_ne hm).complete (d := d) t ⟨k, rfl, hk⟩
      refine (run_bind_of_ok h1).trans ?_
      simp only at h
      simp [h]

theorem MapReader.expect_end.reads {ε : Type} (bad : CborError → ε) (m : MapReader) (e : ε) :
    Reads (m.expect_end bad e) (fun _ _ => m.remaining = 0) (fun _ => []) (fun d _ => d - 1) := by
  unfold MapReader.expect_end
  by_cases hm : m.remaining = 0
  · refine Reads.congr (Reads.bind (fun _ => (none, m)) ((next_key_of_eq hm).map_err bad)
      (fun r _ => Reads.check _ e) ?_) ?_ ?_ ?_
    · rintro d r b rfl -
      rfl
    · intro d b
      simp [hm]
    · intro d b _
      rfl
    · intro d b _
      rfl
  · constructor
    · intro s d a s' d' h
      obtain ⟨r, ⟨s1, d1⟩, h1, h2⟩ := run_bind_eq_ok.1 h
      obtain ⟨⟨key, rfl, -⟩, -⟩ := ((next_key_of_ne hm).map_err bad).sound h1
      cases h2
    · intro d a t h
      exact absurd h hm

/-- The rest of a map: it succeeds only with as many entries left as the
result says. -/
def MapBody {ε β : Type} (m : MapReader) (n : β → Nat) (q : Parse ε β) (T : Nat → β → Prop)
    (v : β → Bytes) (h : Nat → β → Nat) : Prop :=
  Reads q (fun d b => m.remaining = n b ∧ T d b) v h

namespace MapBody

variable {ε α β : Type} {m : MapReader} {n : β → Nat} {bad : CborError → ε} {T : Nat → β → Prop}
  {v : β → Bytes} {h : Nat → β → Nat}

/-- A map whose number of entries is `n`, which is small for what is read. -/
theorem start_of {q : MapReader → Parse ε β} (n : β → Nat)
    (hq : ∀ m, m.last_key = none → MapBody m n (q m) T v h)
    (hn : ∀ d b, T d b → n b < 2 ^ 64) :
    Reads (map_err bad Reader.map >>= q) (fun d b => d < MAX_DEPTH ∧ T (d + 1) b)
      (fun b => Writer.map (.ofNat (n b)) ++ v b) (fun d b => h (d + 1) b) := by
  refine Reads.congr (Reads.bind (fun b => ⟨n b, none⟩) (Reader.map.reads.map_err bad)
    (fun m hm => hq m hm.choose_spec.2.2) ?_) ?_ ?_ ?_
  · rintro d ⟨remaining, last_key⟩ b ⟨-, -, rfl⟩ ⟨rfl, -⟩
    rfl
  · intro d b
    constructor
    · rintro ⟨⟨hd, -⟩, -, hT⟩
      exact ⟨hd, hT⟩
    · rintro ⟨hd, hT⟩
      exact ⟨⟨hd, hn _ b hT, rfl⟩, rfl, hT⟩
  · intro d b _
    rfl
  · intro d b _
    rfl

/-- A map whose number of entries is `n`. -/
theorem start {q : MapReader → Parse ε β} (n : β → Nat) (hn : ∀ b, n b < 2 ^ 64)
    (hq : ∀ m, m.last_key = none → MapBody m n (q m) T v h) :
    Reads (map_err bad Reader.map >>= q) (fun d b => d < MAX_DEPTH ∧ T (d + 1) b)
      (fun b => Writer.map (.ofNat (n b)) ++ v b) (fun d b => h (d + 1) b) :=
  start_of n hq fun _ b _ => hn b

/-- An entry with the key `k`, which is above the last one. -/
theorem key {q : MapReader → Parse ε β} {k : UInt64}
    (hk : ∀ last, m.last_key = some last → last < k)
    (hq : ∀ m', m'.last_key = some k → MapBody m' n (q m') T v h) :
    MapBody m (fun b => n b + 1) (map_err bad (m.expect_key k) >>= q) T
      (fun b => Writer.uint k ++ v b) h := by
  refine Reads.congr (Reads.bind (fun b => ⟨n b, some k⟩)
    ((MapReader.expect_key.reads m k hk).map_err bad)
    (fun m hm => hq m hm.choose_spec.2) ?_) ?_ (fun _ _ _ => rfl) (fun _ _ _ => rfl)
  · rintro d ⟨remaining, last_key⟩ b ⟨-, rfl⟩ ⟨rfl, -⟩
    rfl
  · intro d b
    simp

/-- A part of the map that reads no key. `f` finds its value in the result. -/
theorem value {p : Parse ε α} {S : Nat → α → Prop} {w : α → Bytes} {g : Nat → α → Nat}
    {q : α → Parse ε β} {T : α → Nat → β → Prop} {v : α → β → Bytes} {h : α → Nat → β → Nat}
    (f : β → α) (hp : Reads p S w g) (hq : ∀ a, MapBody m n (q a) (T a) (v a) (h a))
    (hf : ∀ d a b, S d a → T a (g d a) b → f b = a) :
    MapBody m n (p >>= q) (fun d b => S d (f b) ∧ T (f b) (g d (f b)) b)
      (fun b => w (f b) ++ v (f b) b) (fun d b => h (f b) (g d (f b)) b) := by
  refine Reads.congr (Reads.bind f hp (fun a _ => hq a) ?_) ?_ (fun _ _ _ => rfl)
    (fun _ _ _ => rfl)
  · rintro d a b ha ⟨-, hb⟩
    exact hf d a b ha hb
  · intro d b
    exact and_left_comm

/-- A part that reads `k` keys, the last of them `last`, and hands on the map
reader. -/
theorem keys {p : Parse ε (α × MapReader)} {k : α → Nat} {last : UInt64} {S : Nat → α → Prop}
    {w : α → Bytes} {q : α × MapReader → Parse ε β} {T : α → Nat → β → Prop} {v : α → β → Bytes}
    {h : α → Nat → β → Nat} (f : β → α)
    (hp : Reads p (fun d r => m.remaining = r.2.remaining + k r.1 ∧ r.2.last_key = some last ∧
      S d r.1) (fun r => w r.1) (fun d _ => d))
    (hq : ∀ a m', m'.last_key = some last → MapBody m' n (q (a, m')) (T a) (v a) (h a))
    (hf : ∀ d a b, S d a → T a d b → f b = a) :
    MapBody m (fun b => n b + k (f b)) (p >>= q) (fun d b => S d (f b) ∧ T (f b) d b)
      (fun b => w (f b) ++ v (f b) b) (fun d b => h (f b) d b) := by
  refine Reads.congr (Reads.bind (fun b => (f b, ⟨n b, some last⟩)) hp
    (fun r hr => hq r.1 r.2 hr.choose_spec.2.1) ?_) ?_ (fun _ _ _ => rfl) (fun _ _ _ => rfl)
  · rintro d ⟨a, remaining, last_key⟩ b ⟨-, rfl, ha⟩ ⟨rfl, hb⟩
    rw [hf d a b ha hb]
  · intro d b
    simp only [true_and, and_assoc]

/-- The last part of the map, which reads the entries left. -/
theorem last {p : Parse ε α} {n : α → Nat} {S : Nat → α → Prop} {w : α → Bytes}
    {g : Nat → α → Nat} {q : α → Parse ε β} {T : α → Nat → β → Prop} {v : α → β → Bytes}
    {h : α → Nat → β → Nat} (f : β → α) (hp : MapBody m n p S w g)
    (hq : ∀ a, Reads (q a) (T a) (v a) (h a)) (hf : ∀ d a b, S d a → T a (g d a) b → f b = a) :
    MapBody m (fun b => n (f b)) (p >>= q) (fun d b => S d (f b) ∧ T (f b) (g d (f b)) b)
      (fun b => w (f b) ++ v (f b) b) (fun d b => h (f b) (g d (f b)) b) := by
  refine Reads.congr (Reads.bind f hp (fun a _ => hq a) ?_) ?_ (fun _ _ _ => rfl)
    (fun _ _ _ => rfl)
  · rintro d a b ⟨-, ha⟩ hb
    exact hf d a b ha hb
  · intro d b
    exact and_assoc

/-- The end of the map. -/
theorem stop {q : Unit → Parse ε β} (e : ε) (hq : Reads (q ()) T v h) :
    MapBody m (fun _ => 0) (m.expect_end bad e >>= q) (fun d b => T (d - 1) b) v
      (fun d b => h (d - 1) b) :=
  Reads.bind (fun _ => ()) (MapReader.expect_end.reads bad m e) (fun _ _ => hq)
    (fun _ _ _ _ _ => rfl)

end MapBody

/-- A map of a number and of bytes up to a limit. -/
theorem reads_tagged_bytes {ε α : Type} {bad : CborError → ε} {unknown long : ε} {limit : Nat}
    (hlimit : limit < 2 ^ 64) {tag : α → UInt64} {content : α → Bytes} {mk : UInt64 → Bytes → α}
    (hmk : ∀ a, mk (tag a) (content a) = a)
    (hparts : ∀ k l, tag (mk k l) = k ∧ content (mk k l) = l) :
    Reads (do
        let m ← map_err bad Reader.map
        let m ← map_err bad (m.expect_key 0)
        let k ← map_err bad Reader.uint
        let m ← map_err bad (m.expect_key 1)
        let l ← map_err bad Reader.bytes
        m.expect_end bad unknown
        fail_if (l.length > limit) long
        pure (mk k l))
      (fun d a => d < MAX_DEPTH ∧ (content a).length ≤ limit)
      (fun a => MapWriter [(0, Writer.uint (tag a)), (1, Writer.bytes (content a))])
      (fun d _ => d) := by
  refine Reads.congr (MapBody.start (fun _ : α => 2) (fun _ => by decide)
    fun m hm => MapBody.key (by simp [hm]) fun m hm => MapBody.value tag
      (Reader.uint.reads.map_err _) (fun _ => MapBody.key (by simp [hm])
    fun m hm => MapBody.value content
      (Reader.bytes.reads.map_err _) (fun _ => MapBody.stop _ (Reads.fail_if _ _ (Reads.pure _)))
      ?_) ?_) ?admits ?writes ?depth
  case admits =>
    intro d a
    simp only [hmk, gt_iff_lt, Nat.not_lt, true_and, and_true]
    omega
  case writes =>
    intro d a _
    simp [MapWriter]
  case depth =>
    intro d a _
    rfl
  all_goals grind

/-! ## All entries of a map -/

/-- The keys increase strictly, from above `last`. -/
def KeysAbove {α : Type} : Option UInt64 → List (UInt64 × α) → Prop
  | _, [] => True
  | last, e :: l => (∀ k, last = some k → k < e.1) ∧ KeysAbove (some e.1) l

/-- There are no more keys than there is room for them. -/
theorem KeysAbove.length_le {α : Type} {last bound : UInt64} {l : List (UInt64 × α)}
    (h : KeysAbove (some last) l) (hb : ∀ e ∈ l, e.1 ≤ bound) :
    l.length ≤ bound.toNat - last.toNat := by
  induction l generalizing last with
  | nil => simp
  | cons e l ih =>
    have hlt := UInt64.lt_iff_toNat_lt.1 (h.1 last rfl)
    have hle := UInt64.le_iff_toNat_le.1 (hb e List.mem_cons_self)
    have hrest := ih h.2 fun e' he' => hb e' (List.mem_cons_of_mem _ he')
    rw [List.length_cons]
    omega

theorem MapReader.entries_by.reads {ε α : Type} {bad : CborError → ε} {p : UInt64 → Parse ε α}
    {S : UInt64 → Nat → α → Prop} {w : α → Bytes}
    (hp : ∀ key, Reads (p key) (S key) w (fun d _ => d)) (n : Nat) (last : Option UInt64) :
    Reads (MapReader.entries_by bad p n last)
      (fun d l => l.length = n ∧ KeysAbove last l ∧ ∀ e ∈ l, S e.1 d e.2)
      (fun l => l.flatMap fun e => Writer.uint e.1 ++ w e.2) (fun d _ => d - 1) := by
  induction n generalizing last with
  | zero =>
    unfold MapReader.entries_by
    refine Reads.congr (Reads.bind (fun _ => (none, ⟨0, last⟩))
      ((MapReader.next_key_of_eq rfl).map_err bad) (fun _ _ => Reads.pure []) ?_) ?_ ?_ ?_
    · rintro d a b rfl -
      rfl
    · intro d l
      rw [List.length_eq_zero_iff]
      constructor
      · rintro ⟨-, rfl⟩
        simp [KeysAbove]
      · rintro ⟨rfl, -⟩
        simp
    · rintro d l ⟨-, rfl⟩
      rfl
    · intro d l _
      rfl
  | succ n ih =>
    have hnext := (MapReader.next_key_of_ne (m := ⟨n + 1, last⟩) (Nat.succ_ne_zero n)).map_err bad
    constructor
    · intro s d l s' d' h
      obtain ⟨r, ⟨s1, d1⟩, h1, h⟩ := run_bind_eq_ok.1 h
      obtain ⟨a, ⟨s2, d2⟩, h2, h⟩ := run_bind_eq_ok.1 h
      obtain ⟨l', ⟨s3, d3⟩, h3, h⟩ := run_bind_eq_ok.1 h
      obtain ⟨⟨key, rfl, hkey⟩, rfl, rfl⟩ := hnext.sound h1
      obtain ⟨ha, rfl, rfl⟩ := (hp key).sound h2
      obtain ⟨⟨hlen, hkeys, hl⟩, rfl, rfl⟩ := (ih _).sound h3
      cases h
      refine ⟨⟨by simp [hlen], ⟨hkey, hkeys⟩, ?_⟩, by simp, rfl⟩
      simpa [ha] using hl
    · rintro d l t ⟨hlen, hkeys, hl⟩
      rcases l with _ | ⟨⟨key, a⟩, l⟩
      · cases hlen
      · have h1 := hnext.complete (d := d) (a := (some key, ⟨n, some key⟩))
          (w a ++ (l.flatMap (fun e => Writer.uint e.1 ++ w e.2) ++ t)) ⟨key, rfl, hkeys.1⟩
        have h2 := (hp key).complete (l.flatMap (fun e => Writer.uint e.1 ++ w e.2) ++ t)
          (hl (key, a) List.mem_cons_self)
        have h3 := (ih (some key)).complete t
          ⟨Nat.succ.inj hlen, hkeys.2, fun e he => hl e (List.mem_cons_of_mem _ he)⟩
        simp only [List.flatMap_cons, List.append_assoc]
        refine (run_bind_of_ok h1).trans ?_
        refine (run_bind_of_ok h2).trans ?_
        exact run_bind_of_ok h3

theorem MapReader.entries.reads {ε α : Type} {bad : CborError → ε} {p : Parse ε α}
    {S : Nat → α → Prop} {w : α → Bytes} (hp : Reads p S w (fun d _ => d)) (n : Nat)
    (last : Option UInt64) :
    Reads (MapReader.entries bad p n last)
      (fun d l => l.length = n ∧ KeysAbove last l ∧ ∀ e ∈ l, S d e.2)
      (fun l => l.flatMap fun e => Writer.uint e.1 ++ w e.2) (fun d _ => d - 1) :=
  MapReader.entries_by.reads (fun _ => hp) n last

/-- One value that is refused, behind values that are read, stops the loop. -/
theorem MapReader.entries_of_refused {ε α : Type} {bad : CborError → ε} {p : Parse ε α}
    {w : α → Bytes} {d : Nat} {e : ε} {c : α → Prop} {l : List (UInt64 × α)}
    {last : Option UInt64} (hkeys : KeysAbove last l)
    (hread : ∀ x ∈ l, ¬ c x.2 → ∀ t, p ⟨w x.2 ++ t, d⟩ = .ok (x.2, ⟨t, d⟩))
    (hrefused : ∀ x ∈ l, c x.2 → ∀ t, p ⟨w x.2 ++ t, d⟩ = .error e) (hc : ∃ x ∈ l, c x.2)
    (t : Bytes) : MapReader.entries bad p l.length last
      ⟨(l.flatMap fun x => Writer.uint x.1 ++ w x.2) ++ t, d⟩ = .error e := by
  induction l generalizing last with
  | nil =>
    obtain ⟨x, hx, -⟩ := hc
    cases hx
  | cons x l ih =>
    have hnext := (MapReader.next_key_of_ne (m := ⟨l.length + 1, last⟩)
      (Nat.succ_ne_zero _)).map_err bad
    have hkey := hnext.complete (d := d) (a := (some x.1, ⟨l.length, some x.1⟩))
      (w x.2 ++ ((l.flatMap fun x => Writer.uint x.1 ++ w x.2) ++ t)) ⟨x.1, rfl, hkeys.1⟩
    rw [List.flatMap_cons, List.append_assoc, List.append_assoc]
    refine (run_bind_of_ok hkey).trans ?_
    by_cases hx : c x.2
    · exact run_bind_of_error (hrefused x List.mem_cons_self hx _)
    · have hrest : ∃ y ∈ l, c y.2 := by
        obtain ⟨y, hy, hcy⟩ := hc
        rcases List.mem_cons.1 hy with rfl | hy
        · exact absurd hcy hx
        · exact ⟨y, hy, hcy⟩
      refine (run_bind_of_ok (hread x List.mem_cons_self hx _)).trans ?_
      exact run_bind_of_error (ih hkeys.2 (fun y hy => hread y (List.mem_cons_of_mem _ hy))
        (fun y hy => hrefused y (List.mem_cons_of_mem _ hy)) hrest)

/-! ## How long a writing is -/

theorem length_header_le (major : UInt8) (v : UInt64) : (Writer.header major v).length ≤ 9 := by
  rw [Writer.header, List.length_cons, numeral_eq]
  split_ifs <;> simp

theorem length_uint_le (v : UInt64) : (Writer.uint v).length ≤ 9 := length_header_le _ v

theorem length_bytes_le (l : Bytes) : (Writer.bytes l).length ≤ 9 + l.length := by
  have h := length_header_le MAJOR_BYTES (.ofNat l.length)
  rw [Writer.bytes, List.length_append]
  omega

theorem length_mapWriter_le (entries : List (UInt64 × Bytes)) :
    (MapWriter entries).length ≤ 9 + (entries.map fun e => 9 + e.2.length).sum := by
  have hentries : (entries.flatMap fun e => Writer.uint e.1 ++ e.2).length ≤
      (entries.map fun e => 9 + e.2.length).sum := by
    induction entries with
    | nil => simp
    | cons e entries ih =>
      have h := length_uint_le e.1
      simp only [List.flatMap_cons, List.length_append, List.map_cons, List.sum_cons]
      omega
  have h := length_header_le MAJOR_MAP (.ofNat entries.length)
  rw [MapWriter, List.length_append, Writer.map]
  omega

theorem length_text_le (s : String) :
    (Writer.text s).length ≤ 9 + (Writer.as_bytes s).length := by
  have h := length_header_le MAJOR_TEXT (.ofNat (Writer.as_bytes s).length)
  rw [Writer.text, List.length_append]
  omega

/-- A bound for a map from a bound for each of its values. -/
theorem length_mapWriter_le_of {entries : List (UInt64 × Bytes)} {bounds : List Nat}
    (h : List.Forall₂ (fun e k => e.2.length ≤ k) entries bounds) :
    (MapWriter entries).length ≤ 9 + (bounds.map (9 + ·)).sum := by
  have hsum : (entries.map fun e => 9 + e.2.length).sum ≤ (bounds.map (9 + ·)).sum := by
    induction h with
    | nil => simp
    | cons he _ ih =>
      simp only [List.map_cons, List.sum_cons]
      omega
  exact Nat.le_trans (length_mapWriter_le entries) (Nat.add_le_add_left hsum 9)

theorem length_le_bytes (l : Bytes) : l.length ≤ (Writer.bytes l).length := by
  simp [Writer.bytes]

theorem length_le_text (s : String) : (Writer.as_bytes s).length ≤ (Writer.text s).length := by
  simp [Writer.text]

/-- A map is at least as long as its values together. -/
theorem sum_le_length_mapWriter (entries : List (UInt64 × Bytes)) :
    (entries.map fun e => e.2.length).sum ≤ (MapWriter entries).length := by
  have hentries : (entries.map fun e => e.2.length).sum ≤
      (entries.flatMap fun e => Writer.uint e.1 ++ e.2).length := by
    induction entries with
    | nil => simp
    | cons e entries ih =>
      simp only [List.flatMap_cons, List.length_append, List.map_cons, List.sum_cons]
      omega
  rw [MapWriter, List.length_append]
  omega

/-- A map is at least as long as each of its values. -/
theorem length_le_mapWriter {entries : List (UInt64 × Bytes)} {e : UInt64 × Bytes}
    (h : e ∈ entries) : e.2.length ≤ (MapWriter entries).length := by
  have hsub := (List.sublist_flatten_of_mem (List.mem_map_of_mem (f := fun e : UInt64 × Bytes =>
    Writer.uint e.1 ++ e.2) h)).length_le
  simp only [MapWriter, List.flatMap, List.length_append] at hsub ⊢
  omega

/-! ## A whole input -/

theorem Reader.read_all_eq_ok {ε α : Type} {bad : CborError → ε} {p : Parse ε α}
    {S : Nat → α → Prop} {w : α → Bytes} {g : Nat → α → Nat} (hp : Reads p S w g)
    {buf : Bytes} {a : α} {d : Nat} :
    Reader.read_all bad p ⟨buf, d⟩ = .ok a ↔ S d a ∧ buf = w a := by
  rw [← hp.whole]
  unfold Reader.read_all
  rcases hr : p ⟨buf, d⟩ with e | ⟨b, rest, d'⟩
  · simp [bind, Except.bind]
  · rcases rest with _ | ⟨x, rest⟩
    · simp [bind, Except.bind, map_err, Reader.finish, Except.mapError, pure, Except.pure]
    · simp [bind, Except.bind, map_err, Reader.finish, Except.mapError]

/-- A decoder accepts an input of at most the control size just if it is what
is written for the value. -/
theorem Reader.new_read_all_eq_ok {ε α : Type} {bad : CborError → ε} {p : Parse ε α}
    {S : Nat → α → Prop} {w : α → Bytes} {g : Nat → α → Nat} (hp : Reads p S w g)
    {buf : Bytes} {a : α} :
    ((Reader.new buf).mapError bad >>= Reader.read_all bad p) = .ok a ↔
      buf.length ≤ MAX_CONTROL_SIZE ∧ S 0 a ∧ buf = w a := by
  unfold Reader.new
  by_cases hlen : buf.length > MAX_CONTROL_SIZE
  · rw [if_pos hlen]
    simp [Nat.not_le.2 hlen, Except.mapError, bind, Except.bind]
  · rw [if_neg hlen]
    refine (Reader.read_all_eq_ok hp).trans ?_
    exact ⟨fun h => ⟨Nat.not_lt.1 hlen, h⟩, fun h => h.2⟩

end rtp2_core.cbor
