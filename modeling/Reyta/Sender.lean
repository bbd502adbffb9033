-- The sender: one pass over the file that fixes the ciphertext root and keeps
-- what it can of the ciphertext, then the records of the chunks that were asked
-- for. A chunk that was not kept is read and encrypted again.
import Reyta.ChunkRecord
import Reyta.Object
import Reyta.Regions

open byte_string exact_parse file_region

namespace rtp2_core.transfer

open cbor crypto keys merkle object

/-! ## The ciphertext cache -/

structure CiphertextCache where
  /-- `some` where a chunk is cached. -/
  entries : List (Option Bytes)
  budget_remaining : Nat

namespace CiphertextCache

def DEFAULT_BUDGET : Nat := 64 * 1024 * 1024

def new (chunk_count : UInt64) (budget : Nat) : CiphertextCache :=
  ⟨List.replicate chunk_count.toNat none, budget⟩

def insert (cache : CiphertextCache) (index : UInt64) (ciphertext : Bytes) : CiphertextCache :=
  if ciphertext.length > cache.budget_remaining then cache
  else if index.toNat < cache.entries.length then
    ⟨cache.entries.set index.toNat (some ciphertext), cache.budget_remaining - ciphertext.length⟩
  else cache

def get (cache : CiphertextCache) (index : UInt64) : Option Bytes :=
  (cache.entries[index.toNat]?).join

theorem get_new (chunk_count : UInt64) (budget : Nat) (index : UInt64) :
    (new chunk_count budget).get index = none := by
  unfold get new
  rw [List.getElem?_replicate]
  split_ifs <;> rfl

theorem get_insert_of_ne {cache : CiphertextCache} {i j : UInt64} (c : Bytes) (h : i ≠ j) :
    (cache.insert i c).get j = cache.get j := by
  have hne : i.toNat ≠ j.toNat := fun he => h (UInt64.toNat_inj.1 he)
  unfold insert get
  split_ifs
  · rfl
  · simp [List.getElem?_set_ne hne]
  · rfl

theorem get_insert_self {cache : CiphertextCache} {i : UInt64} {c c' : Bytes}
    (h : (cache.insert i c).get i = some c') : c' = c ∨ cache.get i = some c' := by
  unfold insert get at *
  split_ifs at h with _ hlt
  · exact .inr h
  · simp only [List.getElem?_set_self hlt, Option.join_some, Option.some.injEq] at h
    exact .inl h.symm
  · exact .inr h

end CiphertextCache

/-! ## Preparing -/

/-- An error that a function returned, or a panic. -/
inductive Stop where
  | Err (e : TransferError)
  | Panic
  deriving DecidableEq, Repr

def unwrap {α : Type} : Option α → Except Stop α
  | some a => .ok a
  | none => .error .Panic

/-- `.map_err(|_| e)?` -/
def ok_or {α : Type} (e : TransferError) : Option α → Except Stop α
  | some a => .ok a
  | none => .error (.Err e)

/-- What a reader of a file sees: its content, or the error that it meets. -/
abbrev File := Except String Bytes

/-- A seek and a `read_exact`. -/
def read_exact (file : File) (offset len : Nat) : Except Stop Bytes := do
  let content ← file.mapError (fun e => .Err (.Io e))
  refuse_if (content.length < offset + len) (.Err (.Io "early eof"))
  pure (slice content offset len)

structure PendingTransfer where
  secrets : FileSecrets
  ctx : ObjectContext
  ctx_hash : Arr 32
  schedule : FileKeySchedule
  leaves : List (Arr 32)
  ciphertext_root : Arr 32
  plaintext_digest : Arr 32
  cache : CiphertextCache

/-- The state of the pass over the file. -/
structure Pass where
  /-- Where the next read starts. -/
  position : Nat
  /-- What `plain_hasher` was given. -/
  hashed : Bytes
  leaves : List (Arr 32)
  cache : CiphertextCache

variable (P : Primitives)

section Pass

variable (schedule : FileKeySchedule) (ctx : ObjectContext) (ctx_hash : Arr 32) (file : File)

/-- One turn of the loop over the chunks. -/
def Pass.next (s : Pass) (index : UInt64) : Except Stop Pass := do
  let len ← unwrap (ctx.chunk_len index)
  let plaintext ← read_exact file s.position len.toNat
  let ciphertext ← ok_or (.Crypto "chunk encryption")
    (encrypt_chunk P schedule ctx ctx_hash index plaintext)
  pure { position := s.position + len.toNat
         hashed := s.hashed ++ plaintext
         leaves := s.leaves ++ [leaf_hash P index ciphertext]
         cache := s.cache.insert index ciphertext }

/-- The loop `for index in 0..n`. -/
def Pass.run : Nat → Except Stop Pass
  | 0 => pure ⟨0, [], [], .new ctx.chunk_count CiphertextCache.DEFAULT_BUDGET⟩
  | n + 1 => do
    let s ← Pass.run n
    s.next P schedule ctx ctx_hash file (.ofNat n)

end Pass

/-- `metadata` is the length that the file system reports. -/
def PendingTransfer.prepare (secrets : FileSecrets) (metadata : Except String UInt64) (file : File)
    (chunk_size : UInt32) : Except Stop PendingTransfer := do
  let file_len ← metadata.mapError (fun e => Stop.Err (.Io e))
  let ctx ← ok_or (.Crypto "object context")
    (ObjectContext.for_file secrets.transfer_id secrets.object_id file_len chunk_size)
  let ctx_hash := ctx.context_hash P
  let schedule := secrets.key_schedule P
  let _ ← file.mapError (fun e => Stop.Err (.Io e))
  let s ← Pass.run P schedule ctx ctx_hash file ctx.chunk_count.toNat
  pure { secrets, ctx, ctx_hash, schedule, leaves := s.leaves, cache := s.cache
         ciphertext_root := merkle_root P s.leaves, plaintext_digest := P.blake3 s.hashed }

/-! ## Records -/

/-- The ciphertext of a chunk that is not cached. -/
def recompute (file : File) (ctx : ObjectContext) (ctx_hash : Arr 32) (schedule : FileKeySchedule)
    (index : UInt64) (len : UInt32) : Except Stop Bytes := do
  let plaintext ← read_exact file (index * ctx.chunk_plaintext_size.toUInt64).toNat len.toNat
  ok_or (.Crypto "chunk encryption") (encrypt_chunk P schedule ctx ctx_hash index plaintext)

/-- A cached chunk is neither read nor encrypted again. -/
def chunk_ciphertext (file : File) (cache : CiphertextCache) (ctx : ObjectContext)
    (ctx_hash : Arr 32) (schedule : FileKeySchedule) (index : UInt64) (len : UInt32) :
    Except Stop Bytes :=
  match cache.get index with
  | some bytes => pure bytes
  | none => recompute P file ctx ctx_hash schedule index len

/-- What a record is made of. -/
def chunk_record (file : File) (cache : CiphertextCache) (ctx : ObjectContext)
    (ctx_hash : Arr 32) (schedule : FileKeySchedule) (leaves : List (Arr 32)) (index : UInt64) :
    Except Stop (UInt64 × List ProofStep × Bytes) := do
  let len ← unwrap (ctx.chunk_len index)
  let ciphertext ← chunk_ciphertext P file cache ctx ctx_hash schedule index len
  let proof ← (build_proof P leaves index.toNat).mapError fun _ => .Err (.Crypto "proof")
  pure (index, proof, ciphertext)

def produce_chunk_record (file : File) (cache : CiphertextCache) (ctx : ObjectContext)
    (ctx_hash : Arr 32) (schedule : FileKeySchedule) (leaves : List (Arr 32)) (index : UInt64) :
    Except Stop Bytes := do
  let (index, proof, ciphertext) ← chunk_record P file cache ctx ctx_hash schedule leaves index
  pure (encode_chunk_record index proof ciphertext)

theorem unwrap_eq_ok {α : Type} {o : Option α} {a : α} : unwrap o = .ok a ↔ o = some a := by
  cases o <;> simp [unwrap]

theorem ok_or_eq_ok {α : Type} {e : TransferError} {o : Option α} {a : α} :
    ok_or e o = .ok a ↔ o = some a := by
  cases o <;> simp [ok_or]

theorem read_exact_eq_ok {file : File} {offset len : Nat} {p : Bytes} :
    read_exact file offset len = .ok p ↔
      ∃ content, file = .ok content ∧ offset + len ≤ content.length ∧
        p = slice content offset len := by
  unfold read_exact
  simp only [bind_eq_ok, mapError_eq_ok, refuse_if_eq_ok, pure_eq_ok, Nat.not_lt]
  constructor
  · intro ⟨content, hfile, _, hlen, hp⟩
    exact ⟨content, hfile, hlen, hp.symm⟩
  · intro ⟨content, hfile, hlen, hp⟩
    exact ⟨content, hfile, (), hlen, hp.symm⟩

/-! ## What preparing commits to -/

section Committed

variable (schedule : FileKeySchedule) (ctx : ObjectContext) (ctx_hash : Arr 32) (file : File)

/-- The leaf of a chunk is that of its ciphertext in the file, and the cache
has no other ciphertext for it. -/
def Committed (leaves : List (Arr 32)) (cache : CiphertextCache) (index : UInt64) : Prop :=
  ∃ len c, ctx.chunk_len index = some len ∧
    recompute P file ctx ctx_hash schedule index len = .ok c ∧
    leaves[index.toNat]? = some (leaf_hash P index c) ∧ ∀ c', cache.get index = some c' → c' = c

/-- What holds after `n` chunks. -/
structure Pass.Inv (n : Nat) (s : Pass) : Prop where
  position : s.position = min (ctx.start n) ctx.encoded_plaintext_size.toNat
  leaves_len : s.leaves.length = n
  fresh : ∀ index : UInt64, n ≤ index.toNat → s.cache.get index = none
  committed : ∀ index : UInt64, index.toNat < n →
    Committed P schedule ctx ctx_hash file s.leaves s.cache index

variable {schedule ctx ctx_hash file}

theorem Pass.next_eq_ok {s s' : Pass} {index : UInt64} :
    s.next P schedule ctx ctx_hash file index = .ok s' ↔
      ∃ len p c, ctx.chunk_len index = some len ∧
        read_exact file s.position len.toNat = .ok p ∧
        encrypt_chunk P schedule ctx ctx_hash index p = some c ∧
        s' = ⟨s.position + len.toNat, s.hashed ++ p, s.leaves ++ [leaf_hash P index c],
          s.cache.insert index c⟩ := by
  unfold Pass.next
  simp only [bind_eq_ok, unwrap_eq_ok, ok_or_eq_ok, pure_eq_ok]
  constructor
  · intro ⟨len, hlen, p, hread, c, henc, hs⟩
    exact ⟨len, p, c, hlen, hread, henc, hs.symm⟩
  · intro ⟨len, p, c, hlen, hread, henc, hs⟩
    exact ⟨len, hlen, p, hread, c, henc, hs.symm⟩

theorem Pass.next_inv {n : Nat} {s s' : Pass} (hg : ctx.Geometry) (hn : n < ctx.chunk_count.toNat)
    (hs : s.Inv P schedule ctx ctx_hash file n)
    (h : s.next P schedule ctx ctx_hash file (.ofNat n) = .ok s') :
    s'.Inv P schedule ctx ctx_hash file (n + 1) := by
  have hidx := ObjectContext.toNat_index hn
  have hi : UInt64.ofNat n < ctx.chunk_count := UInt64.lt_iff_toNat_lt.2 (by omega)
  obtain ⟨len, p, c, hlen, hread, henc, rfl⟩ := (Pass.next_eq_ok P).1 h
  have hext := ((ObjectContext.chunk_len_eq_some hg).1 hlen).2
  rw [hidx] at hext
  have hstart := hg.starts n hn
  have hpos : s.position = ctx.start n := by
    rw [hs.position]
    omega
  constructor
  case position =>
    simp only [hpos, hext]
    exact ObjectContext.end_eq (by omega)
  case leaves_len => simp [hs.leaves_len]
  case fresh =>
    intro index hle
    rw [CiphertextCache.get_insert_of_ne _ (fun he => by rw [← he] at hle; omega)]
    exact hs.fresh index (by omega)
  case committed =>
    intro index hle
    by_cases he : index = UInt64.ofNat n
    · subst he
      refine ⟨len, c, hlen, ?_, ?_, ?_⟩
      · rw [recompute, ObjectContext.start_toNat hg hi, hidx, ← hpos]
        simp only [bind_eq_ok, ok_or_eq_ok]
        exact ⟨p, hread, henc⟩
      · rw [hidx, ← hs.leaves_len]
        simp
      · intro c' hc'
        have := CiphertextCache.get_insert_self hc'
        simpa [hs.fresh _ (Nat.le_of_eq hidx.symm)] using this
    · have hne : index.toNat ≠ n := fun h => he (UInt64.toNat_inj.1 (h.trans hidx.symm))
      obtain ⟨len', c', hlen', hrec, hleaf, hcache⟩ := hs.committed index (by omega)
      refine ⟨len', c', hlen', hrec, ?_, ?_⟩
      · rw [List.getElem?_append_left (by rw [hs.leaves_len]; omega)]
        exact hleaf
      · intro d hd
        rw [CiphertextCache.get_insert_of_ne _ (Ne.symm he)] at hd
        exact hcache d hd

theorem Pass.run_inv {n : Nat} {s : Pass} (hg : ctx.Geometry) (hn : n ≤ ctx.chunk_count.toNat)
    (h : Pass.run P schedule ctx ctx_hash file n = .ok s) :
    s.Inv P schedule ctx ctx_hash file n := by
  induction n generalizing s with
  | zero =>
    obtain rfl := pure_eq_ok.1 h
    exact ⟨by simp [ObjectContext.start], rfl, fun i _ => CiphertextCache.get_new _ _ i,
      fun _ hlt => absurd hlt (Nat.not_lt_zero _)⟩
  | succ n ih =>
    rw [Pass.run, bind_eq_ok] at h
    obtain ⟨t, ht, hnext⟩ := h
    exact Pass.next_inv P hg hn (ih (by omega) ht) hnext

/-- The pass gets through a file that is long enough. -/
theorem Pass.run_ok {content : Bytes} {n : Nat} (hg : ctx.Geometry) (hP : P.Encrypts)
    (hlen : ctx.encoded_plaintext_size.toNat ≤ content.length) (hn : n ≤ ctx.chunk_count.toNat) :
    ∃ s, Pass.run P schedule ctx ctx_hash (.ok content) n = .ok s := by
  induction n with
  | zero => exact ⟨_, rfl⟩
  | succ n ih =>
    obtain ⟨s, hs⟩ := ih (by omega)
    have hinv := Pass.run_inv P hg (by omega) hs
    have hidx := ObjectContext.toNat_index hn
    have hi : UInt64.ofNat n < ctx.chunk_count := UInt64.lt_iff_toNat_lt.2 (by omega)
    obtain ⟨len, hl, hext⟩ := ObjectContext.chunk_len_spec hg hi
    have hend := ObjectContext.end_le_encoded hg hn
    have hstart := hg.starts n hn
    have hpos := hinv.position
    rw [hidx] at hext
    have henc : ∃ c, encrypt_chunk P schedule ctx ctx_hash (.ofNat n)
        (slice content s.position len.toNat) = some c :=
      encrypt_chunk_of_length P hP hl (by rw [length_slice]; omega)
    obtain ⟨c, hc⟩ := henc
    have hnext := (Pass.next_eq_ok P (s := s)).2
      ⟨len, _, c, hl, read_exact_eq_ok.2 ⟨content, rfl, by omega, rfl⟩, hc, rfl⟩
    exact ⟨_, bind_eq_ok.2 ⟨s, hs, hnext⟩⟩

/-- A whole chunk is offered to the cache with its tag. -/
theorem Pass.next_whole {n : Nat} {s s' : Pass} (hg : ctx.Geometry) (hP : P.Encrypts)
    (hn : n < ctx.chunk_count.toNat)
    (hwhole : ctx.start (n + 1) ≤ ctx.encoded_plaintext_size.toNat)
    (h : s.next P schedule ctx ctx_hash file (.ofNat n) = .ok s') :
    ∃ c : Bytes, c.length = ctx.chunk_plaintext_size.toNat + AEAD_TAG_LEN ∧
      s'.cache = s.cache.insert (.ofNat n) c := by
  obtain ⟨len, p, c, hlen, hread, henc, rfl⟩ := (Pass.next_eq_ok P).1 h
  obtain ⟨content, -, hle, hp⟩ := read_exact_eq_ok.1 hread
  have hext := ((ObjectContext.chunk_len_eq_some hg).1 hlen).2
  rw [ObjectContext.toNat_index hn] at hext
  have hend := ObjectContext.end_eq (Nat.le_of_lt (hg.starts n hn))
  have hs : ctx.start (n + 1) = ctx.start n + ctx.chunk_plaintext_size.toNat := Nat.succ_mul _ _
  have hpl : p.length = len.toNat := by
    rw [hp, length_slice]
    omega
  refine ⟨c, ?_, rfl⟩
  rw [length_encrypt_chunk P hP henc]
  omega

/-- As long as whole chunks fit into the budget they are cached. -/
theorem Pass.run_budget {n : Nat} {s : Pass} (hg : ctx.Geometry) (hP : P.Encrypts)
    (hn : n ≤ ctx.chunk_count.toNat) (hwhole : ctx.start n ≤ ctx.encoded_plaintext_size.toNat)
    (hfit : n * (ctx.chunk_plaintext_size.toNat + AEAD_TAG_LEN) ≤ CiphertextCache.DEFAULT_BUDGET)
    (h : Pass.run P schedule ctx ctx_hash file n = .ok s) :
    s.cache.entries.length = ctx.chunk_count.toNat ∧
      s.cache.budget_remaining + n * (ctx.chunk_plaintext_size.toNat + AEAD_TAG_LEN) =
        CiphertextCache.DEFAULT_BUDGET := by
  induction n generalizing s with
  | zero =>
    obtain rfl := pure_eq_ok.1 h
    simp [CiphertextCache.new]
  | succ n ih =>
    obtain ⟨t, ht, hnext⟩ := bind_eq_ok.1 h
    rw [Nat.succ_mul] at hfit ⊢
    obtain ⟨hentries, hbudget⟩ := ih (by omega) (Nat.le_of_lt (hg.starts n hn)) (by omega) ht
    obtain ⟨c, hc, hcache⟩ := Pass.next_whole P hg hP hn hwhole hnext
    have hidx := ObjectContext.toNat_index hn
    rw [hcache, CiphertextCache.insert, if_neg (by omega), if_pos (by omega)]
    simp only [List.length_set]
    omega

/-- The first whole chunk that exceeds the budget is not cached. -/
theorem Pass.run_uncached {n : Nat} {s : Pass} (hg : ctx.Geometry) (hP : P.Encrypts)
    (hn : n < ctx.chunk_count.toNat)
    (hwhole : ctx.start (n + 1) ≤ ctx.encoded_plaintext_size.toNat)
    (hfit : n * (ctx.chunk_plaintext_size.toNat + AEAD_TAG_LEN) ≤ CiphertextCache.DEFAULT_BUDGET)
    (hover : CiphertextCache.DEFAULT_BUDGET <
      (n + 1) * (ctx.chunk_plaintext_size.toNat + AEAD_TAG_LEN))
    (h : Pass.run P schedule ctx ctx_hash file (n + 1) = .ok s) :
    s.cache.get (.ofNat n) = none := by
  obtain ⟨t, ht, hnext⟩ := bind_eq_ok.1 h
  rw [Nat.succ_mul] at hover
  have hbudget := (Pass.run_budget P hg hP (by omega) (Nat.le_of_lt (hg.starts n hn)) hfit ht).2
  obtain ⟨c, hc, hcache⟩ := Pass.next_whole P hg hP hn hwhole hnext
  have hidx := ObjectContext.toNat_index hn
  rw [hcache, CiphertextCache.insert, if_pos (by omega)]
  exact (Pass.run_inv P hg (by omega) ht).fresh _ (by omega)

end Committed

namespace PendingTransfer

/-- What `prepare` leaves behind for the file that it read. -/
structure Prepared (t : PendingTransfer) (source : File) : Prop where
  geometry : t.ctx.Geometry
  leaves_len : t.leaves.length = t.ctx.chunk_count.toNat
  committed : ∀ index < t.ctx.chunk_count,
    Committed P t.schedule t.ctx t.ctx_hash source t.leaves t.cache index

theorem prepare.spec {secrets : FileSecrets} {metadata : Except String UInt64} {source : File}
    {size : UInt32} {t : PendingTransfer} (h : prepare P secrets metadata source size = .ok t) :
    t.Prepared P source := by
  unfold prepare at h
  simp only [bind_eq_ok, ok_or_eq_ok, pure_eq_ok] at h
  obtain ⟨file_len, -, ctx, hctx, _, -, s, hs, rfl⟩ := h
  have hg := ObjectContext.for_file_geometry hctx
  have hinv := Pass.run_inv P hg (Nat.le_refl _) hs
  exact ⟨hg, hinv.leaves_len, fun index hi => hinv.committed index (UInt64.lt_iff_toNat_lt.1 hi)⟩

theorem prepare.root {secrets : FileSecrets} {metadata : Except String UInt64} {source : File}
    {size : UInt32} {t : PendingTransfer} (h : prepare P secrets metadata source size = .ok t) :
    t.ciphertext_root = merkle_root P t.leaves := by
  unfold prepare at h
  simp only [bind_eq_ok, pure_eq_ok] at h
  obtain ⟨_, -, _, -, _, -, _, -, rfl⟩ := h
  rfl

theorem prepare_ok {secrets : FileSecrets} {file_len : UInt64} {content : Bytes} {size : UInt32}
    {ctx : ObjectContext} (hP : P.Encrypts)
    (hctx : ObjectContext.for_file secrets.transfer_id secrets.object_id file_len size = some ctx)
    (hlen : ctx.encoded_plaintext_size.toNat ≤ content.length) :
    ∃ t s, prepare P secrets (.ok file_len) (.ok content) size = .ok t ∧ t.ctx = ctx ∧
      Pass.run P (secrets.key_schedule P) ctx (ctx.context_hash P) (.ok content)
        ctx.chunk_count.toNat = .ok s ∧ t.cache = s.cache := by
  have hrun : ∃ s, Pass.run P (secrets.key_schedule P) ctx (ctx.context_hash P) (.ok content)
      ctx.chunk_count.toNat = .ok s :=
    Pass.run_ok P (ObjectContext.for_file_geometry hctx) hP hlen (Nat.le_refl _)
  obtain ⟨s, hs⟩ := hrun
  refine ⟨⟨secrets, ctx, ctx.context_hash P, secrets.key_schedule P, s.leaves,
    merkle_root P s.leaves, P.blake3 s.hashed, s.cache⟩, s, ?_, rfl, hs, rfl⟩
  unfold prepare
  simp only [bind_eq_ok, ok_or_eq_ok, pure_eq_ok]
  exact ⟨file_len, rfl, ctx, hctx, content, rfl, s, hs, rfl⟩

/-- A call of `produce_chunk_record`: the file as it is then, and a chunk. -/
structure Call where
  file : File
  index : UInt64

/-- The record for a call. -/
def produce (t : PendingTransfer) (call : Call) : Except Stop Bytes :=
  produce_chunk_record P call.file t.cache t.ctx t.ctx_hash t.schedule t.leaves call.index

/-- What the record for a call is made of. -/
def record (t : PendingTransfer) (call : Call) : Except Stop (UInt64 × List ProofStep × Bytes) :=
  chunk_record P call.file t.cache t.ctx t.ctx_hash t.schedule t.leaves call.index

/-- The plaintext that a file holds for a chunk. -/
def chunk_of (t : PendingTransfer) (file : File) (index : UInt64) : Except Stop Bytes := do
  let len ← unwrap (t.ctx.chunk_len index)
  read_exact file (index * t.ctx.chunk_plaintext_size.toUInt64).toNat len.toNat

/-- The record is for the chunk and has this ciphertext. -/
def Carries (record : Bytes) (index : UInt64) (c : Bytes) : Prop :=
  c.length < 2 ^ 64 ∧ ∃ proof : List ProofStep, proof.length < 2 ^ 64 ∧
    record = encode_chunk_record index proof c

/-- The record puts this plaintext on the wire, under the key and the nonce of
the chunk. -/
def Seals (t : PendingTransfer) (record : Bytes) (index : UInt64) (p : Bytes) : Prop :=
  ∃ c, Carries record index c ∧ encrypt_chunk P t.schedule t.ctx t.ctx_hash index p = some c

theorem Carries.unique {record : Bytes} {index : UInt64} {c c' : Bytes}
    (h : Carries record index c) (h' : Carries record index c') : c = c' := by
  obtain ⟨hc, proof, hp, rfl⟩ := h
  obtain ⟨hc', proof', hp', he⟩ := h'
  exact encode_chunk_record_inj hp hp' hc hc' he

/-! ## What a record carries -/

/-- The ciphertext of a chunk of a file. -/
def ciphertext_of (t : PendingTransfer) (file : File) (index : UInt64) : Except Stop Bytes := do
  let p ← t.chunk_of file index
  ok_or (.Crypto "chunk encryption") (encrypt_chunk P t.schedule t.ctx t.ctx_hash index p)

/-- The file that the ciphertext in a record comes from: the one that was
prepared if the chunk is cached, and else the one at the time of the call. -/
def origin (t : PendingTransfer) (source : File) (call : Call) : File :=
  if t.cache.get call.index = none then call.file else source

variable {P} {t : PendingTransfer} {source : File}

theorem ciphertext_of_eq_ok {file : File} {index : UInt64} {c : Bytes} :
    t.ciphertext_of P file index = .ok c ↔ ∃ p, t.chunk_of file index = .ok p ∧
      encrypt_chunk P t.schedule t.ctx t.ctx_hash index p = some c := by
  simp only [ciphertext_of, bind_eq_ok, ok_or_eq_ok]

theorem chunk_of_eq_ok {file : File} {index : UInt64} {p : Bytes} :
    t.chunk_of file index = .ok p ↔ ∃ len, t.ctx.chunk_len index = some len ∧
      read_exact file (index * t.ctx.chunk_plaintext_size.toUInt64).toNat len.toNat = .ok p := by
  simp only [chunk_of, bind_eq_ok, unwrap_eq_ok]

theorem recompute_eq {file : File} {index : UInt64} {len : UInt32}
    (hlen : t.ctx.chunk_len index = some len) :
    recompute P file t.ctx t.ctx_hash t.schedule index len = t.ciphertext_of P file index := by
  unfold recompute ciphertext_of chunk_of
  rw [hlen]
  rfl

theorem index_lt {index : UInt64} {len : UInt32} (hlen : t.ctx.chunk_len index = some len) :
    index < t.ctx.chunk_count := by
  unfold ObjectContext.chunk_len at hlen
  split_ifs at hlen with h
  exact UInt64.not_le.1 h

/-- A chunk that can be read can be encrypted. -/
theorem ciphertext_of_chunk (hP : P.Encrypts) {file : File} {index : UInt64} {p : Bytes}
    (h : t.chunk_of file index = .ok p) :
    ∃ c, t.ciphertext_of P file index = .ok c ∧ c.length < 2 ^ 64 := by
  obtain ⟨len, hlen, hread⟩ := chunk_of_eq_ok.1 h
  obtain ⟨content, -, hle, hp⟩ := read_exact_eq_ok.1 hread
  have hpl : p.length = len.toNat := by
    rw [hp, length_slice]
    omega
  obtain ⟨c, hc⟩ := encrypt_chunk_of_length P hP hlen hpl
  have hlt := len.toNat_lt
  refine ⟨c, ciphertext_of_eq_ok.2 ⟨p, h, hc⟩, ?_⟩
  rw [length_encrypt_chunk P hP hc, AEAD_TAG_LEN]
  omega

namespace Prepared

theorem leaf (ht : t.Prepared P source) {index : UInt64} (hi : index < t.ctx.chunk_count) :
    ∃ c, t.ciphertext_of P source index = .ok c ∧
      t.leaves[index.toNat]? = some (leaf_hash P index c) ∧
      ∀ c', t.cache.get index = some c' → c' = c := by
  obtain ⟨len, c, hlen, hc, hleaf, hcache⟩ := ht.committed index hi
  exact ⟨c, by rw [← recompute_eq hlen, hc], hleaf, hcache⟩

theorem chunk_ciphertext_eq (ht : t.Prepared P source) {call : Call} {len : UInt32}
    (hlen : t.ctx.chunk_len call.index = some len) :
    chunk_ciphertext P call.file t.cache t.ctx t.ctx_hash t.schedule call.index len =
      t.ciphertext_of P (t.origin source call) call.index := by
  obtain ⟨c, hc, -, hcache⟩ := ht.leaf (index_lt hlen)
  unfold chunk_ciphertext origin
  cases hget : t.cache.get call.index with
  | none => rw [if_pos rfl, ← recompute_eq hlen]
  | some c' => rw [if_neg (Option.some_ne_none c'), hc, hcache c' hget, pure_eq_ok]

theorem record_eq_ok (ht : t.Prepared P source) {call : Call}
    {r : UInt64 × List ProofStep × Bytes} :
    t.record P call = .ok r ↔
      ∃ c, t.ciphertext_of P (t.origin source call) call.index = .ok c ∧
        r = (call.index, build_proof_inner P t.leaves call.index.toNat, c) := by
  unfold record chunk_record build_proof
  simp only [bind_eq_ok, unwrap_eq_ok, mapError_eq_ok, pure_eq_ok, ht.leaves_len]
  constructor
  · rintro ⟨len, hlen, c, hc, proof, hproof, rfl⟩
    have hi := UInt64.lt_iff_toNat_lt.1 (index_lt hlen)
    rw [if_neg (by omega)] at hproof
    rw [ht.chunk_ciphertext_eq hlen] at hc
    exact ⟨c, hc, by rw [Except.ok.inj hproof]⟩
  · rintro ⟨c, hc, rfl⟩
    obtain ⟨p, hp, -⟩ := ciphertext_of_eq_ok.1 hc
    obtain ⟨len, hlen, -⟩ := chunk_of_eq_ok.1 hp
    have hi := UInt64.lt_iff_toNat_lt.1 (index_lt hlen)
    refine ⟨len, hlen, c, ?_, _, if_neg (by omega), rfl⟩
    rw [ht.chunk_ciphertext_eq hlen, hc]

theorem produce_eq_ok (ht : t.Prepared P source) {call : Call} {record : Bytes} :
    t.produce P call = .ok record ↔
      ∃ c, t.ciphertext_of P (t.origin source call) call.index = .ok c ∧
      record =
        encode_chunk_record call.index (build_proof_inner P t.leaves call.index.toNat) c := by
  unfold produce produce_chunk_record
  rw [bind_eq_ok]
  constructor
  · rintro ⟨r, hr, h⟩
    obtain ⟨c, hc, rfl⟩ := ht.record_eq_ok.1 hr
    exact ⟨c, hc, (pure_eq_ok.1 h).symm⟩
  · rintro ⟨c, hc, rfl⟩
    exact ⟨_, ht.record_eq_ok.2 ⟨c, hc, rfl⟩, rfl⟩

/-- Every record carries the ciphertext of its chunk in the file it comes
from. -/
theorem carries (ht : t.Prepared P source) (hP : P.Encrypts) {call : Call} {record : Bytes}
    (h : t.produce P call = .ok record) :
    ∃ c, t.ciphertext_of P (t.origin source call) call.index = .ok c ∧
      Carries record call.index c := by
  obtain ⟨c, hc, rfl⟩ := ht.produce_eq_ok.1 h
  obtain ⟨p, hp, -⟩ := ciphertext_of_eq_ok.1 hc
  obtain ⟨c', hc', hlt⟩ := ciphertext_of_chunk hP hp
  obtain rfl : c = c' := Except.ok.inj (hc.symm.trans hc')
  have hlen := build_proof_inner_length P t.leaves call.index.toNat
  have hcount := t.ctx.chunk_count.toNat_lt
  rw [ht.leaves_len] at hlen
  exact ⟨c, hc, hlt, _, by omega, rfl⟩

end Prepared

/-- If the chunk is not cached then its file still has what was prepared, or
cannot be read. -/
def Kept (t : PendingTransfer) (source : File) (call : Call) : Prop :=
  t.cache.get call.index = none →
    ∀ p, t.chunk_of call.file call.index = .ok p → t.chunk_of source call.index = .ok p

/-- What the records of a sequence of calls should be, over any number of
attempts. -/
structure Faithful (P : Primitives) (t : PendingTransfer) (source : File) (calls : List Call) :
    Prop where
  /-- Every record carries the ciphertext that was committed to. -/
  committed : ∀ call ∈ calls, ∀ record, t.produce P call = .ok record →
    ∃ c, Carries record call.index c ∧
      t.leaves[call.index.toNat]? = some (leaf_hash P call.index c)
  /-- One plaintext is put on the wire for a chunk. -/
  one_plaintext : ∀ call ∈ calls, ∀ call' ∈ calls, ∀ record record' p p',
    call.index = call'.index → t.produce P call = .ok record → t.produce P call' = .ok record' →
    t.Seals P record call.index p → t.Seals P record' call'.index p' → p = p'
  /-- A file that no longer has the plaintext is an error. -/
  refused : ∀ call ∈ calls, t.cache.get call.index = none →
    t.chunk_of call.file call.index ≠ t.chunk_of source call.index →
    ∃ e, t.produce P call = .error e

/-- What is kept is sent as it was committed to. -/
theorem Kept.carries {call : Call} (hk : t.Kept source call) (ht : t.Prepared P source)
    (hP : P.Encrypts) {record : Bytes} (h : t.produce P call = .ok record) :
    ∃ c, t.ciphertext_of P source call.index = .ok c ∧ Carries record call.index c := by
  obtain ⟨c, hc, hcarries⟩ := ht.carries hP h
  unfold origin at hc
  split_ifs at hc with hget
  · obtain ⟨p, hp, henc⟩ := ciphertext_of_eq_ok.1 hc
    exact ⟨c, ciphertext_of_eq_ok.2 ⟨p, hk hget p hp, henc⟩, hcarries⟩
  · exact ⟨c, hc, hcarries⟩

/-- A record that carries what was committed to was made from what was
prepared. -/
theorem Kept.of_committed (ht : t.Prepared P source) (hP : P.Encrypts) (hdec : P.Decrypts)
    {call : Call}
    (hleaf : ∀ c c', t.ciphertext_of P source call.index = .ok c →
      t.ciphertext_of P call.file call.index = .ok c' →
      leaf_hash P call.index c = leaf_hash P call.index c' → c = c')
    (h : ∀ record, t.produce P call = .ok record → ∃ c, Carries record call.index c ∧
      t.leaves[call.index.toNat]? = some (leaf_hash P call.index c)) : t.Kept source call := by
  intro hget p hp
  obtain ⟨c, hc, -⟩ := ciphertext_of_chunk hP hp
  have horigin : t.origin source call = call.file := if_pos hget
  have hrecord := ht.produce_eq_ok.2 ⟨c, by rw [horigin, hc], rfl⟩
  obtain ⟨c', hcarries', hleaf'⟩ := h _ hrecord
  obtain ⟨c'', hc'', hcarries⟩ := ht.carries hP hrecord
  obtain rfl := hcarries.unique hcarries'
  rw [horigin] at hc''
  obtain ⟨len, hlen, -⟩ := chunk_of_eq_ok.1 hp
  obtain ⟨c₀, hc₀, hleaf₀, -⟩ := ht.leaf (index_lt hlen)
  obtain rfl := hleaf c₀ c'' hc₀ hc'' (Option.some.inj (hleaf₀.symm.trans hleaf'))
  obtain ⟨p₀, hp₀, henc₀⟩ := ciphertext_of_eq_ok.1 hc₀
  obtain ⟨p', hp', henc'⟩ := ciphertext_of_eq_ok.1 hc''
  rw [hp₀, encrypt_chunk_inj P hdec henc₀ henc', ← hp', hp]

/-- Over any calls with any files, the records are what was committed to if and
only if every chunk that is read again is still what was prepared. -/
theorem records_are_committed_iff_every_uncached_chunk_is_kept {secrets : FileSecrets}
    {metadata : Except String UInt64} {size : UInt32} {calls : List Call}
    (hprepare : prepare P secrets metadata source size = .ok t) (hP : P.Encrypts)
    (hdec : P.Decrypts)
    (hleaf : ∀ call ∈ calls, ∀ c c', t.ciphertext_of P source call.index = .ok c →
      t.ciphertext_of P call.file call.index = .ok c' →
      leaf_hash P call.index c = leaf_hash P call.index c' → c = c') :
    Faithful P t source calls ↔ ∀ call ∈ calls, t.Kept source call := by
  have ht := prepare.spec P hprepare
  constructor
  · intro hf call hcall
    exact Kept.of_committed ht hP hdec (hleaf call hcall) (hf.committed call hcall)
  · intro hk
    refine ⟨?committed, ?one, ?refused⟩
    case committed =>
      intro call hcall record h
      obtain ⟨c, hc, hcarries⟩ := (hk call hcall).carries ht hP h
      obtain ⟨p, hp, -⟩ := ciphertext_of_eq_ok.1 hc
      obtain ⟨len, hlen, -⟩ := chunk_of_eq_ok.1 hp
      obtain ⟨c₀, hc₀, hleaf₀, -⟩ := ht.leaf (index_lt hlen)
      obtain rfl : c = c₀ := Except.ok.inj (hc.symm.trans hc₀)
      exact ⟨c, hcarries, hleaf₀⟩
    case one =>
      intro call hcall call' hcall' record record' p p' hindex h h' hs hs'
      obtain ⟨c, hc, hcarries⟩ := (hk call hcall).carries ht hP h
      obtain ⟨c', hc', hcarries'⟩ := (hk call' hcall').carries ht hP h'
      rw [hindex] at hc
      obtain rfl : c = c' := Except.ok.inj (hc.symm.trans hc')
      obtain ⟨d, hd, henc⟩ := hs
      obtain ⟨d', hd', henc'⟩ := hs'
      obtain rfl := hcarries.unique hd
      obtain rfl := hcarries'.unique hd'
      rw [hindex] at henc
      exact encrypt_chunk_inj P hdec henc henc'
    case refused =>
      intro call hcall hget hne
      cases h : t.produce P call with
      | error e => exact ⟨e, rfl⟩
      | ok record =>
        obtain ⟨c, hc, -⟩ := ht.carries hP h
        rw [origin, if_pos hget] at hc
        obtain ⟨p, hp, -⟩ := ciphertext_of_eq_ok.1 hc
        exact absurd (hp.trans (hk call hcall hget p hp).symm) hne

/-! ## A chunk that changed -/

/-- `sample` with a hash that shows the first bytes of a leaf's ciphertext. -/
def windowed : Primitives :=
  { sample with blake3 := fun l => ⟨((l.drop 32).take 32 ++ List.replicate 32 0).take 32, by simp⟩ }

theorem windowed_encrypts : windowed.Encrypts := fun key nonce aad msg h =>
  sample_encrypts key nonce aad msg h

theorem windowed_decrypts : windowed.Decrypts := fun key nonce aad msg c h =>
  sample_decrypts key nonce aad msg c h

theorem head_leaf_hash_windowed {index : UInt64} {c : Bytes} {b : UInt8} (h : c.head? = some b) :
    (leaf_hash windowed index c).bytes.head? = some b := by
  obtain ⟨l, rfl⟩ := List.head?_eq_some_iff.1 h
  have hdomain :
      (LEAF_DOMAIN ++ be_bytes 8 index.toNat ++ be_bytes 4 (b :: l).length).length = 32 := by
    simp [LEAF_DOMAIN, ascii]
  change ((((LEAF_DOMAIN ++ be_bytes 8 index.toNat ++ be_bytes 4 (b :: l).length ++
    b :: l).drop 32).take 32 ++ List.replicate 32 0).take 32).head? = some b
  rw [List.drop_append_of_le_length (by omega), List.drop_of_length_le (by omega)]
  simp

theorem slice_replicate {b : UInt8} {total off n : Nat} (h : off + n ≤ total) :
    slice (List.replicate total b) off n = List.replicate n b := by
  rw [slice, List.drop_replicate, List.take_replicate, Nat.min_eq_left (by omega)]

def sampleSecrets : FileSecrets :=
  ⟨.replicate 32 1, .replicate 32 2, .replicate 32 3, .replicate 32 4⟩

/-- Sixteen chunks of 4 MiB. With their tags they exceed the budget. -/
def sampleContext : ObjectContext :=
  ⟨.replicate 32 1, .replicate 32 2, 67108864, 67108864, 4194304, 16, 0, 0⟩

theorem sampleContext_for_file : ObjectContext.for_file sampleSecrets.transfer_id
    sampleSecrets.object_id 67108864 4194304 = some sampleContext := by
  decide +kernel

/-- The last chunk of a file of one byte. -/
theorem chunk_of_constant {t : PendingTransfer} (hctx : t.ctx = sampleContext) (b : UInt8) :
    t.chunk_of (.ok (List.replicate 67108864 b)) 15 = .ok (List.replicate 4194304 b) := by
  have hlen : t.ctx.chunk_len 15 = some 4194304 := by
    rw [hctx]
    decide +kernel
  refine chunk_of_eq_ok.2 ⟨_, hlen, read_exact_eq_ok.2 ⟨_, rfl, ?_, ?_⟩⟩
  · rw [hctx, List.length_replicate]
    decide +kernel
  · rw [hctx]
    exact (slice_replicate (by decide +kernel)).symm

theorem sampleTransfer (b : UInt8) :
    ∃ t, prepare windowed sampleSecrets (.ok 67108864) (.ok (List.replicate 67108864 b)) 4194304 =
      .ok t ∧ t.ctx = sampleContext ∧ t.cache.get 15 = none := by
  have hlen : sampleContext.encoded_plaintext_size.toNat ≤ (List.replicate 67108864 b).length := by
    rw [List.length_replicate]
    decide
  obtain ⟨t, s, ht, hctx, hs, hcache⟩ :=
    prepare_ok windowed windowed_encrypts sampleContext_for_file hlen
  have hcount : sampleContext.chunk_count.toNat = 15 + 1 := rfl
  rw [hcount] at hs
  refine ⟨t, ht, hctx, ?_⟩
  rw [hcache]
  exact Pass.run_uncached windowed (ObjectContext.for_file_geometry sampleContext_for_file)
    windowed_encrypts (by decide) (by decide) (by decide) (by decide) hs

theorem leaf_of_constant {t : PendingTransfer} (hctx : t.ctx = sampleContext) {b : UInt8}
    {c : Bytes} (h : t.ciphertext_of windowed (.ok (List.replicate 67108864 b)) 15 = .ok c) :
    (leaf_hash windowed 15 c).bytes.head? = some b := by
  obtain ⟨p, hp, henc⟩ := ciphertext_of_eq_ok.1 h
  obtain rfl := Except.ok.inj ((chunk_of_constant hctx b).symm.trans hp)
  obtain ⟨len, -, -, hc⟩ := (encrypt_chunk_eq_some windowed).1 henc
  apply head_leaf_hash_windowed
  rw [← Option.some.inj hc, List.head?_append, List.head?_replicate]
  rfl

theorem the_last_chunk_of_64_MiB_has_to_be_kept :
    ∃ t, prepare windowed sampleSecrets (.ok 67108864) (.ok (List.replicate 67108864 0)) 4194304 =
      .ok t ∧
      Faithful windowed t (.ok (List.replicate 67108864 0))
        [⟨.ok (List.replicate 67108864 0), 15⟩] ∧
      ¬ Faithful windowed t (.ok (List.replicate 67108864 0))
        [⟨.ok (List.replicate 67108864 0), 15⟩, ⟨.ok (List.replicate 67108864 1), 15⟩] := by
  obtain ⟨t, hprepare, hctx, hget⟩ := sampleTransfer 0
  have hiff : ∀ calls ⊆ [⟨.ok (List.replicate 67108864 0), 15⟩,
        ⟨.ok (List.replicate 67108864 1), 15⟩],
      Faithful windowed t (.ok (List.replicate 67108864 0)) calls ↔
        ∀ call ∈ calls, t.Kept (.ok (List.replicate 67108864 0)) call := by
    intro calls hcalls
    refine records_are_committed_iff_every_uncached_chunk_is_kept hprepare windowed_encrypts
      windowed_decrypts ?_
    intro call hcall c c' hc hc' he
    rcases List.mem_pair.1 (hcalls hcall) with rfl | rfl
    · exact Except.ok.inj (hc.symm.trans hc')
    · have hhead := leaf_of_constant hctx hc
      rw [he, leaf_of_constant hctx hc'] at hhead
      cases hhead
  refine ⟨t, hprepare, (hiff _ ?_).2 ?_, ?_⟩
  · intro call hcall
    exact List.mem_cons.2 (.inl (List.mem_singleton.1 hcall))
  · intro call hcall
    rw [List.mem_singleton.1 hcall]
    exact fun _ p hp => hp
  · -- the chunk is not cached, and it is another one
    intro hfaithful
    have hkept := (hiff _ (List.Subset.refl _)).1 hfaithful _ (List.mem_cons_of_mem _
      List.mem_cons_self) hget _ (chunk_of_constant hctx 1)
    rw [chunk_of_constant hctx 0] at hkept
    have hhead := congrArg List.head? (Except.ok.inj hkept)
    rw [List.head?_replicate, List.head?_replicate, if_neg (by decide), if_neg (by decide)] at hhead
    cases hhead

/-- The last chunk of 64 MiB is not cached. If the file changes, its record
carries a ciphertext that was not committed to, and both plaintexts go out
under one key and one nonce. -/
theorem a_changed_chunk_is_sent_under_the_same_key_and_nonce :
    ∃ t record record',
      prepare windowed sampleSecrets (.ok 67108864) (.ok (List.replicate 67108864 0)) 4194304 =
        .ok t ∧
      t.produce windowed ⟨.ok (List.replicate 67108864 0), 15⟩ = .ok record ∧
      t.Seals windowed record 15 (List.replicate 4194304 0) ∧
      t.produce windowed ⟨.ok (List.replicate 67108864 1), 15⟩ = .ok record' ∧
      t.Seals windowed record' 15 (List.replicate 4194304 1) ∧
      ¬ ∃ c, Carries record' 15 c ∧ t.leaves[15]? = some (leaf_hash windowed 15 c) := by
  obtain ⟨t, hprepare, hctx, hget⟩ := sampleTransfer 0
  have ht := prepare.spec windowed hprepare
  -- Both files are read, encrypted and sent.
  have hsent : ∀ b, ∃ record, t.produce windowed ⟨.ok (List.replicate 67108864 b), 15⟩ =
      .ok record ∧
      t.Seals windowed record 15 (List.replicate 4194304 b) := by
    intro b
    obtain ⟨c, hc, -⟩ := ciphertext_of_chunk (P := windowed) windowed_encrypts
      (chunk_of_constant hctx b)
    have horigin : t.origin (.ok (List.replicate 67108864 0))
        ⟨.ok (List.replicate 67108864 b), 15⟩ = .ok (List.replicate 67108864 b) := if_pos hget
    have hrecord := ht.produce_eq_ok.2 ⟨c, by rw [horigin, hc], rfl⟩
    obtain ⟨c', hc', hcarries⟩ := ht.carries windowed_encrypts hrecord
    rw [horigin] at hc'
    obtain ⟨p, hp, henc⟩ := ciphertext_of_eq_ok.1 hc'
    obtain rfl := Except.ok.inj ((chunk_of_constant hctx b).symm.trans hp)
    exact ⟨_, hrecord, c', hcarries, henc⟩
  obtain ⟨record, hrecord, hseals⟩ := hsent 0
  obtain ⟨record', hrecord', hseals'⟩ := hsent 1
  refine ⟨t, record, record', hprepare, hrecord, hseals, hrecord', hseals', ?_⟩
  intro hcommitted
  have hkept : t.Kept (.ok (List.replicate 67108864 0)) ⟨.ok (List.replicate 67108864 1), 15⟩ := by
    refine Kept.of_committed ht windowed_encrypts windowed_decrypts ?_ ?_
    · intro c c' hc hc' he
      have := leaf_of_constant hctx hc
      rw [he, leaf_of_constant hctx hc'] at this
      cases this
    · intro r hr
      rw [Except.ok.inj (hr.symm.trans hrecord')]
      exact hcommitted
  have hsame := hkept hget _ (chunk_of_constant hctx 1)
  rw [chunk_of_constant hctx 0] at hsame
  have := congrArg List.head? (Except.ok.inj hsame)
  rw [List.head?_replicate, List.head?_replicate] at this
  cases this

end PendingTransfer

end rtp2_core.transfer
