-- What the receiver reports while chunks arrive: the bytes of the chunks that it
-- holds, which grow with every report and reach the size of the file with the
-- last chunk.
import Reyta.ChunkLayout
import Reyta.HonestChunks

open byte_string early_exit

namespace rtp2_core.transfer

open bitmap crypto events object resume route

/-! ## The bytes of the chunks that are held -/

/-- The sum of the lengths of the chunks that are held. -/
def held_len (ctx : ObjectContext) (held : ChunkBitmap) : Nat :=
  (((ChunkBitmap.chunks ctx.chunk_count).filter fun i => held.Has i).map ctx.len).sum

section HeldLen

variable {ctx : ObjectContext} {held held' : ChunkBitmap} {index : UInt64}

/-- What is held and what is missing are the file. -/
theorem held_len_add_missing (hg : ctx.Geometry) (hcount : held.chunk_count = ctx.chunk_count) :
    held_len ctx held + (held.missing.map ctx.len).sum = ctx.encoded_plaintext_size.toNat := by
  have hsplit := (List.filter_append_perm (fun i => decide (held.Has i))
    (ChunkBitmap.chunks ctx.chunk_count)).map ctx.len
  rw [← ObjectContext.sum_len hg, ← hsplit.sum_eq, List.map_append, List.sum_append, held_len,
    ChunkBitmap.missing, hcount]
  simp only [decide_not]

theorem held_len_le (hg : ctx.Geometry) (hcount : held.chunk_count = ctx.chunk_count) :
    held_len ctx held ≤ ctx.encoded_plaintext_size.toNat := by
  have hsum := held_len_add_missing hg hcount
  omega

theorem len_pos (hg : ctx.Geometry) (hi : index < ctx.chunk_count) : 0 < ctx.len index := by
  rw [ObjectContext.len_eq hg hi]
  exact ObjectContext.extent_pos hg (UInt64.lt_iff_toNat_lt.1 hi)

theorem held_len_eq_iff (hg : ctx.Geometry) (hcount : held.chunk_count = ctx.chunk_count) :
    held_len ctx held = ctx.encoded_plaintext_size.toNat ↔ held.is_complete = true := by
  have hsum := held_len_add_missing hg hcount
  rw [← ChunkBitmap.missing_eq_nil]
  constructor
  · intro he
    rcases hmissing : held.missing with _ | ⟨i, l⟩
    · rfl
    · have hi := (ChunkBitmap.mem_missing.1 (hmissing ▸ List.mem_cons_self)).1
      have hpos := len_pos hg (hcount ▸ hi)
      rw [hmissing, List.map_cons, List.sum_cons] at hsum
      omega
  · intro hmissing
    rw [hmissing] at hsum
    exact hsum

/-- One more chunk adds its length. -/
theorem held_len_set {changed : Bool} (hg : ctx.Geometry)
    (hcount : held.chunk_count = ctx.chunk_count) (hi : index < ctx.chunk_count)
    (hnew : ¬ held.Has index) (hset : held.SetTo index held' changed) :
    held_len ctx held' = held_len ctx held + ctx.len index := by
  have hcount' := hset.chunk_count.trans hcount
  have hnodup : ∀ b : ChunkBitmap, b.missing.Nodup := fun b =>
    b.missing_increasing.imp UInt64.ne_of_lt
  have hperm : held.missing.Perm (index :: held'.missing) := by
    have hout : index ∉ held'.missing := fun h =>
      (ChunkBitmap.mem_missing.1 h).2 ((hset.has index).2 (.inl rfl))
    refine (List.perm_ext_iff_of_nodup (hnodup _)
      (List.nodup_cons.2 ⟨hout, hnodup _⟩)).2 fun i => ?_
    rw [List.mem_cons, ChunkBitmap.mem_missing, ChunkBitmap.mem_missing, hset.has, hcount, hcount']
    by_cases he : i = index
    · rw [he]
      simp [hi, hnew]
    · simp [he]
  have hsum := held_len_add_missing hg hcount
  have hsum' := held_len_add_missing hg hcount'
  rw [(hperm.map ctx.len).sum_eq, List.map_cons, List.sum_cons] at hsum
  omega

theorem toNat_foldl_len (ctx : ObjectContext) (l : List UInt64) (sum : UInt64) :
    (l.foldl (fun sum i => sum + ((ctx.chunk_len i).getD 0).toUInt64) sum).toNat =
      (sum.toNat + (l.map ctx.len).sum) % 2 ^ 64 := by
  induction l generalizing sum with
  | nil => exact (Nat.mod_eq_of_lt sum.toNat_lt).symm
  | cons i l ih =>
    rw [List.foldl_cons, ih, UInt64.toNat_add, UInt32.toNat_toUInt64, List.map_cons, List.sum_cons,
      Nat.mod_add_mod, Nat.add_assoc]
    rfl

/-- The counter starts with what is held. -/
theorem toNat_held_bytes (hg : ctx.Geometry) (hcount : held.chunk_count = ctx.chunk_count) :
    (held_bytes ctx held).toNat = held_len ctx held := by
  have hfilter : ((List.range ctx.chunk_count.toNat).map UInt64.ofNat).filter (fun i =>
      (held.get i).toOption.getD false) =
      (ChunkBitmap.chunks ctx.chunk_count).filter fun i => held.Has i := by
    refine List.filter_congr fun i _ => ?_
    rw [Bool.eq_iff_iff, held.get_getD, decide_eq_true_eq]
  have hle := held_len_le hg hcount
  have hlt := ctx.encoded_plaintext_size.toNat_lt
  rw [held_bytes, hfilter, toNat_foldl_len, UInt64.toNat_zero, Nat.zero_add]
  exact Nat.mod_eq_of_lt (Nat.lt_of_le_of_lt hle hlt)

end HeldLen

/-! ## Reports -/

/-- The bytes that an event of progress tells. -/
def progress_bytes : Event → Option UInt64
  | .TransferProgress _ _ bytes _ _ _ => some bytes
  | _ => none

/-- Nothing was reported from `s` to `s'`. -/
def Recv.Silent (s s' : Recv) : Prop :=
  ∃ pushed, s'.events = s.events ++ pushed ∧ ∀ e ∈ pushed, progress_bytes e = none

/-- The chunk is held, and neither the counter nor the events tell it yet. -/
structure Recv.Holds (s : Recv) (index : UInt64) (s' : Recv) : Prop where
  held : ∃ changed, s.held.SetTo index s'.held changed
  verified_bytes : s'.verified_bytes = s.verified_bytes
  quiet : s.Silent s'

/-- From `s` to `s'` one chunk was taken and reported. -/
structure Recv.Reported (ctx : ObjectContext) (s : Recv) (index : UInt64) (p : Bytes)
    (s' : Recv) : Prop where
  held : ∃ changed, s.held.SetTo index s'.held changed
  verified_bytes : s'.verified_bytes = s.verified_bytes + .ofNat p.length
  events : ∃ pushed, s'.events = s.events ++ pushed ++ [report ctx s'.held s'.verified_bytes] ∧
    ∀ e ∈ pushed, progress_bytes e = none

section Reports

variable {ctx : ObjectContext} {a : Answers} {index : UInt64} {p : Bytes} {s : Recv}

theorem Recv.Silent.of_eq {s' : Recv} (h : s'.events = s.events) : s.Silent s' :=
  ⟨[], by rw [h, List.append_nil], by simp⟩

theorem persist_holds :
    Spec (fun s' => s' = s) (persist ctx a index p) (fun _ => s.Holds index)
      (fun _ => s.Silent) := by
  refine Spec.bind (q := fun _ s' => s'.held = s.held ∧ s'.verified_bytes = s.verified_bytes ∧
    s'.events = s.events) ?write fun _ => Spec.bind (q := fun _ s' => s'.held = s.held ∧
    s'.verified_bytes = s.verified_bytes ∧ s'.events = s.events) ?mark fun _ => ?set
  case write =>
    intro s₁ h
    rw [h]
    unfold exec write_chunk
    rcases a.write with ⟨n, e⟩ | _
    · exact .inr ⟨_, _, rfl, .of_eq rfl⟩
    · exact .inl ⟨(), _, rfl, rfl, rfl, rfl⟩
  case mark =>
    intro s₁ h
    unfold exec mark_verified
    split
    · exact .inl ⟨(), s₁, rfl, h⟩
    · split
      · exact .inr ⟨_, _, rfl, .of_eq h.2.2⟩
      · exact .inl ⟨(), _, rfl, h⟩
  case set =>
    rintro s₁ ⟨hheld, hbytes, hevents⟩
    unfold exec set_held
    split
    · exact .inr ⟨_, _, rfl, .of_eq hevents⟩
    · next held changed hset =>
      rw [hheld] at hset
      exact .inl ⟨(), _, rfl, ⟨changed, ChunkBitmap.set_eq_ok hset⟩, hbytes, .of_eq hevents⟩

/-- The watch over the path pushes no event of progress. -/
theorem poll_with_quiet (w : RouteWatch) (transfer_id : Arr 32) (now : Nat) (route : Route) :
    ∀ e ∈ (w.poll_with transfer_id now route).2.1, progress_bytes e = none := by
  rw [w.poll_with_pushed]
  intro e he
  split_ifs at he
  · rw [List.mem_singleton.1 he]
    rfl
  · cases he

theorem poll_holds {transfer_id : Arr 32} :
    Spec (s.Holds index) (poll transfer_id a) (fun _ => s.Holds index) (fun _ => s.Silent) := by
  intro s₁ h
  have hpushed := poll_with_quiet s₁.route_watch transfer_id a.now a.route
  unfold exec poll
  rcases hpoll : s₁.route_watch.poll_with transfer_id a.now a.route with ⟨watch, more, result⟩
  rw [hpoll] at hpushed
  obtain ⟨pushed, hevents, hquiet⟩ := h.quiet
  have hquiet' : ∀ e ∈ pushed ++ more, progress_bytes e = none := fun e he =>
    (List.mem_append.1 he).elim (hquiet e) (hpushed e)
  have hevents' : s₁.events ++ more = s.events ++ (pushed ++ more) := by
    rw [hevents, List.append_assoc]
  rcases result with e | _
  · exact .inr ⟨e, _, rfl, pushed ++ more, hevents', hquiet'⟩
  · exact .inl ⟨(), _, rfl, h.held, h.verified_bytes, pushed ++ more, hevents', hquiet'⟩

theorem chunk_written_reported :
    Spec (s.Reported ctx index p) (chunk_written index a) (fun _ => s.Reported ctx index p)
      (fun _ => s.Reported ctx index p) := by
  refine Spec.always_iff.2 fun s₁ h => ?_
  rcases chunk_written_exec index a s₁ with ⟨-, he⟩ | ⟨db, db', effects, result, -, -, he⟩
  · rw [he]
    exact h
  · rw [he]
    exact ⟨h.held, h.verified_bytes, h.events⟩

/-- A report is one more in the list. -/
theorem Recv.Reported.told {s' : Recv} (h : s.Reported ctx index p s') :
    s'.events.filterMap progress_bytes =
      s.events.filterMap progress_bytes ++ [s'.verified_bytes] := by
  obtain ⟨pushed, hevents, hpushed⟩ := h.events
  rw [hevents, List.filterMap_append, List.filterMap_append,
    List.filterMap_eq_nil_iff.2 hpushed, List.append_nil]
  rfl

/-- A chunk that passed the checks is reported, unless an error comes before. -/
theorem accept_reports :
    Spec (fun s' => s' = s) (accept ctx a index p) (fun _ => s.Reported ctx index p)
      (fun _ s' => s.Silent s' ∨ s.Reported ctx index p s') := by
  have hquiet : ∀ {α : Type} {pre : Recv → Prop} {x : Act α} {post : α → Recv → Prop},
      Spec pre x post (fun _ => s.Silent) →
        Spec pre x post (fun _ s' => s.Silent s' ∨ s.Reported ctx index p s') :=
    fun h => h.weaken (fun _ h => h) (fun _ _ h => h) (fun _ _ h => .inl h)
  refine Spec.bind (hquiet persist_holds) fun _ => Spec.bind (hquiet poll_holds) fun _ =>
    Spec.bind (q := fun _ => s.Holds index) ?digest fun _ =>
    Spec.bind (q := fun _ => s.Reported ctx index p) ?progress fun _ => ?written
  case digest =>
    intro s₁ h
    exact .inl ⟨(), _, rfl, h.held, h.verified_bytes, h.quiet⟩
  case progress =>
    intro s₁ h
    obtain ⟨pushed, hevents, hpushed⟩ := h.quiet
    refine .inl ⟨(), _, rfl, h.held, ?_, pushed, ?_, hpushed⟩
    · change s₁.verified_bytes + _ = _
      rw [h.verified_bytes]
    · change s₁.events ++ _ = _
      rw [hevents]
  case written =>
    exact chunk_written_reported.weaken (fun _ h => h) (fun _ _ h => h) (fun _ _ h => .inr h)

end Reports

/-! ## The loop -/

/-- The bytes of a report that was pushed between `s` and `s'`. -/
structure Exact (ctx : ObjectContext) (s s' : Recv) (bytes : UInt64) : Prop where
  sum : bytes.toNat = held_len ctx s'.held
  /-- Every report before had fewer. -/
  grows : ∀ e ∈ s.events, ∀ before, progress_bytes e = some before → before < bytes
  le : bytes ≤ ctx.encoded_plaintext_size
  complete : bytes = ctx.encoded_plaintext_size ↔ s'.held.is_complete = true

/-- From `s` to `s'` there was one report at most, and what it told is right. -/
def Recv.Tells (ctx : ObjectContext) (s s' : Recv) : Prop :=
  ∃ pushed, s'.events = s.events ++ pushed ∧ (pushed.filterMap progress_bytes).length ≤ 1 ∧
    ∀ e ∈ pushed, ∀ bytes, progress_bytes e = some bytes →
      e = report ctx s'.held bytes ∧ bytes = s'.verified_bytes ∧ Exact ctx s s' bytes

/-- The counter has the bytes of the chunks that are held, and no report was
larger. -/
structure Recv.Progressed (ctx : ObjectContext) (s : Recv) : Prop where
  count : s.held.chunk_count = ctx.chunk_count
  bytes : s.verified_bytes.toNat = held_len ctx s.held
  past : ∀ e ∈ s.events, ∀ b, progress_bytes e = some b → b.toNat ≤ held_len ctx s.held

section Loop

variable {P : Primitives} {t : Incoming} {s s' : Recv} {index : UInt64} {p : Bytes}

/-- What a report tells, and that it tells more than what was known before. -/
theorem Recv.Reported.bytes (h : s.Reported t.ctx index p s') (hs : s.Progressed t.ctx)
    (hg : t.ctx.Geometry) {u : Turn} (haccepts : u.accepts P t s.held = some (index, p)) :
    s'.held.chunk_count = t.ctx.chunk_count ∧
      s'.verified_bytes.toNat = held_len t.ctx s'.held ∧
      held_len t.ctx s.held < held_len t.ctx s'.held := by
  obtain ⟨payload, -, hcheck⟩ := Turn.accepts_eq_some haccepts
  obtain ⟨hi, hnew, proof, c, -, -, hdec⟩ := check_chunk_eq_some hcheck
  obtain ⟨len, hlen, -, -, hp⟩ := (decrypt_chunk_eq_some P).1 hdec
  obtain ⟨changed, hset⟩ := h.held
  have hcount := hset.chunk_count.trans hs.count
  have hsum := held_len_set hg hs.count hi hnew hset
  have hle := held_len_le hg hcount
  have hlt := t.ctx.encoded_plaintext_size.toNat_lt
  have hpos := len_pos hg hi
  have hp' : p.length = t.ctx.len index := by rw [ObjectContext.len, hlen, Option.getD_some, hp]
  refine ⟨hcount, ?_, by omega⟩
  rw [h.verified_bytes, UInt64.toNat_add, UInt64.toNat_ofNat', hs.bytes, hp', Nat.add_mod_mod,
    Nat.mod_eq_of_lt (by omega), hsum]

theorem Recv.Reported.progressed (h : s.Reported t.ctx index p s') (hs : s.Progressed t.ctx)
    (hg : t.ctx.Geometry) {u : Turn} (haccepts : u.accepts P t s.held = some (index, p)) :
    s'.Progressed t.ctx := by
  obtain ⟨hcount, hbytes, hmore⟩ := h.bytes hs hg haccepts
  refine ⟨hcount, hbytes, ?_⟩
  obtain ⟨pushed, hevents, hpushed⟩ := h.events
  intro e he b hb
  rw [hevents, List.mem_append, List.mem_append, List.mem_singleton] at he
  rcases he with (he | he) | rfl
  · exact Nat.le_of_lt (Nat.lt_of_le_of_lt (hs.past e he b hb) hmore)
  · rw [hpushed e he] at hb
    cases hb
  · obtain rfl := Option.some.inj hb
    exact Nat.le_of_eq hbytes

theorem Recv.Silent.tells (h : s.Silent s') : s.Tells t.ctx s' := by
  obtain ⟨pushed, hevents, hpushed⟩ := h
  refine ⟨pushed, hevents, ?_, ?_⟩
  · rw [List.filterMap_eq_nil_iff.2 hpushed]
    exact Nat.zero_le _
  · intro e he bytes hb
    rw [hpushed e he] at hb
    cases hb

theorem Recv.Reported.tells (h : s.Reported t.ctx index p s') (hs : s.Progressed t.ctx)
    (hg : t.ctx.Geometry) {u : Turn} (haccepts : u.accepts P t s.held = some (index, p)) :
    s.Tells t.ctx s' := by
  obtain ⟨hcount, hbytes, hmore⟩ := h.bytes hs hg haccepts
  obtain ⟨pushed, hevents, hpushed⟩ := h.events
  refine ⟨pushed ++ [report t.ctx s'.held s'.verified_bytes], ?_, ?_, ?_⟩
  · rw [hevents, List.append_assoc]
  · rw [List.filterMap_append, List.filterMap_eq_nil_iff.2 hpushed, List.nil_append]
    exact List.length_filterMap_le _ _
  · intro e he bytes hb
    rcases List.mem_append.1 he with he | he
    · rw [hpushed e he] at hb
      cases hb
    · obtain rfl := List.mem_singleton.1 he
      obtain rfl := Option.some.inj hb
      refine ⟨rfl, rfl, hbytes, ?_, ?_, ?_⟩
      · intro e he before hbefore
        rw [UInt64.lt_iff_toNat_lt, hbytes]
        exact Nat.lt_of_le_of_lt (hs.past e he before hbefore) hmore
      · rw [UInt64.le_iff_toNat_le, hbytes]
        exact held_len_le hg hcount
      · rw [← UInt64.toNat_inj, hbytes]
        exact held_len_eq_iff hg hcount

/-- A turn that does not fail reports the chunk that it takes. -/
theorem turn_reports {u : Turn} {flow : Flow} (haccepts : u.accepts P t s.held = some (index, p))
    (hturn : exec (turn P t u) s = (.ok flow, s')) : s.Reported t.ctx index p s' :=
  accept_reports.of_ok rfl (accept_of_turn haccepts hturn)

theorem start_progressed {held : ChunkBitmap} {db : Option ResumeDb} {route_watch : RouteWatch}
    {file : Bytes} (hg : t.ctx.Geometry) (hheld : held.chunk_count = t.ctx.chunk_count) :
    (Recv.start t.ctx db held route_watch file).Progressed t.ctx := by
  refine ⟨hheld, toNat_held_bytes hg hheld, ?_⟩
  intro e he b hb
  rw [List.mem_singleton.1 he] at hb
  cases hb

/-- While the loop goes on. -/
theorem receive_loop_progresses (hg : t.ctx.Geometry) (us : List Turn) :
    Spec (Recv.Progressed t.ctx) (receive_loop P t us) (fun _ => Recv.Progressed t.ctx)
      (fun _ _ => True) := by
  apply Spec.each
  intro u _
  apply turn_spec (fun _ _ _ => trivial)
  intro s index p hs haccepts
  exact accept_reports.weaken (fun _ h => h) (fun _ _ h => h.progressed hs hg haccepts)
    (fun _ _ _ => trivial)

/-- For every accepted context, from any chunks that are held and after any frames:
the counter has the bytes of the chunks that are held. The next frame leads to one
report at most. A report has the bytes of the chunks that are held then and their
number; it has more bytes than every report before and at most those of the file,
and those of the file exactly if all chunks are held. -/
theorem every_report_has_the_bytes_of_the_held_chunks (P : Primitives) (t : Incoming)
    {transfer_id object_id : Arr 32} {file_size : UInt64} {size : UInt32}
    (hctx : ObjectContext.for_file transfer_id object_id file_size size = some t.ctx)
    (held : ChunkBitmap) (hheld : held.chunk_count = t.ctx.chunk_count) (db : Option ResumeDb)
    (route_watch : RouteWatch) (file : Bytes) (us : List Turn) (s : Recv)
    (hrun : exec (receive_loop P t us) (.start t.ctx db held route_watch file) = (.ok .next, s)) :
    s.verified_bytes.toNat = held_len t.ctx s.held ∧
    ∀ u : Turn, s.Tells t.ctx (exec (turn P t u) s).2 := by
  have hg := ObjectContext.for_file_geometry hctx
  have hs : s.Progressed t.ctx :=
    (receive_loop_progresses hg us).of_ok (start_progressed hg hheld) hrun
  refine ⟨hs.bytes, ?_⟩
  intro u
  rcases turn_exec (P := P) (t := t) u s with ⟨-, r, he⟩ | ⟨index, p, haccepts, he⟩
  · rw [he]
    exact (Recv.Silent.of_eq rfl).tells
  · rw [he]
    rcases Spec.bind accept_reports (fun _ => Spec.pure (q := fun _ => s.Reported t.ctx index p)
      Flow.next) s rfl with ⟨flow, s', he', h⟩ | ⟨e, s', he', h | h⟩
    · rw [he']
      exact h.tells hs hg haccepts
    · rw [he']
      exact h.tells
    · rw [he']
      exact h.tells hs hg haccepts

end Loop

/-- The second of three chunks is held. The first one is reported, and then the last one, with
the bytes of the file. -/
theorem the_last_of_three_chunks_is_reported_after_the_first :
    ∃ (t : Incoming) (first last : Turn) (s : Recv), t.ctx = threeChunks ∧
      exec (receive_loop sample t [first]) (.start threeChunks none secondHeld
        (.new .Unknown .Any 0) []) = (.ok .next, s) ∧
      s.events.filterMap progress_bytes = [131072] ∧
      let s' := (exec (turn sample t last) s).2
      s'.events.filterMap progress_bytes = [131072, 131073] ∧ s.Tells threeChunks s' := by
  obtain ⟨t, hprepare, hctx, hsound⟩ := exists_three
  have hg := (PendingTransfer.prepare.spec sample hprepare).geometry
  obtain ⟨_, first, hfirst⟩ := hsound 0 (by decide)
  obtain ⟨_, last, hlast⟩ := hsound 2 (by decide)
  -- the first chunk
  obtain ⟨s, hturn, hs, hhas⟩ := hfirst.turn_exec hg sampleAnswers_work (three_ready hg hctx)
  have hreport := turn_reports (hfirst.accepts sampleAnswers
    (show ¬ secondHeld.Has 0 by decide)) hturn
  have hbytes : s.verified_bytes = 131072 := by
    have hstart : held_bytes threeChunks secondHeld = 65536 := by decide +kernel
    rw [hreport.verified_bytes, hctx, region_of_lt_two (by decide), List.length_replicate]
    change held_bytes threeChunks secondHeld + _ = _
    rw [hstart]
    rfl
  -- the last chunk
  have hnew : ¬ s.held.Has 2 := by
    rw [hhas]
    change ¬ (2 = 0 ∨ secondHeld.Has 2)
    decide
  obtain ⟨s', hturn', -⟩ := hlast.turn_exec hg sampleAnswers_work hs
  have hreport' := turn_reports (hlast.accepts sampleAnswers hnew) hturn'
  have hbytes' : s'.verified_bytes = 131073 := by
    rw [hreport'.verified_bytes, hbytes, hctx, region_last]
    rfl
  have hrun : exec (receive_loop sample t.incoming [⟨.ok (FRAME_CHUNK, first), sampleAnswers⟩])
      (.start t.ctx none secondHeld (.new .Unknown .Any 0) []) = (.ok .next, s) := by
    rw [receive_loop, each, exec_bind, hturn]
    rfl
  have htells := (every_report_has_the_bytes_of_the_held_chunks sample t.incoming
    (hctx ▸ threeChunks_for_file) secondHeld (secondHeld_count hctx) none _ [] _ s hrun).2
      ⟨.ok (FRAME_CHUNK, last), sampleAnswers⟩
  have htold : s.events.filterMap progress_bytes = [131072] := by
    rw [hreport.told, hbytes]
    rfl
  rw [← hctx]
  refine ⟨t.incoming, _, _, s, rfl, hrun, htold, ?_, htells⟩
  rw [hturn', hreport'.told, htold, hbytes']
  rfl

end rtp2_core.transfer
