-- Exact parsers. A parser is exact for a writer when it reads a value just
-- from the tokens that the writer puts down for it, whatever comes after.
-- The rules build an exact parser from exact parts, so a decoder that follows
-- them is at once a round trip and canonical.
import Mathlib.Data.List.Basic
import Mathlib.Tactic.Common

namespace exact_parse

/-- The tokens still to read, and a mark that the parser carries along,
such as a nesting depth. -/
@[ext]
structure Input (τ κ : Type) where
  rest : List τ
  mark : κ

/-- A parser fails with an error, or returns a value and the input left. -/
abbrev Parser (τ κ ε α : Type) := StateT (Input τ κ) (Except ε) α

variable {τ κ ε ε' α β : Type}

/-! ## The actions -/

/-- Stops with `e` if `c` holds. -/
def fail_if (c : Prop) [Decidable c] (e : ε) : Parser τ κ ε Unit :=
  fun i => if c then .error e else .ok ((), i)

/-- Stops with `e`. -/
def fail (e : ε) : Parser τ κ ε α := fun _ => .error e

/-- The next `n` tokens. -/
def take (n : Nat) (e : ε) : Parser τ κ ε (List τ) := fun i =>
  if i.rest.length < n then .error e
  else .ok (i.rest.take n, { i with rest := i.rest.drop n })

/-- The next token. -/
def next (e : ε) : Parser τ κ ε τ := fun i =>
  match i.rest with
  | [] => .error e
  | t :: rest => .ok (t, { i with rest := rest })

/-- Looks at the next token and leaves it there. -/
def peek (f : τ → α) (e : ε) : Parser τ κ ε α := fun i =>
  match i.rest with
  | [] => .error e
  | t :: _ => .ok (f t, i)

/-- The same parser with its errors translated. -/
def map_err (f : ε → ε') (p : Parser τ κ ε α) : Parser τ κ ε' α := fun i => (p i).mapError f

/-- The parser `n` times in a row. -/
def times (p : Parser τ κ ε α) : Nat → Parser τ κ ε (List α)
  | 0 => pure []
  | n + 1 => do
    let a ← p
    let l ← times p n
    pure (a :: l)

/-! ## How an action runs -/

theorem run_bind_eq_ok {p : Parser τ κ ε α} {q : α → Parser τ κ ε β} {i : Input τ κ}
    {r : β × Input τ κ} :
    (p >>= q) i = .ok r ↔ ∃ a i', p i = .ok (a, i') ∧ q a i' = .ok r := by
  change (p i).bind (fun x => q x.1 x.2) = .ok r ↔ _
  rcases p i with e | ⟨a, i'⟩ <;> simp [Except.bind]

theorem run_bind_of_ok {p : Parser τ κ ε α} {q : α → Parser τ κ ε β} {i i' : Input τ κ} {a : α}
    (h : p i = .ok (a, i')) : (p >>= q) i = q a i' := by
  change (p i).bind (fun x => q x.1 x.2) = _
  rw [h]
  rfl

theorem run_bind_of_error {p : Parser τ κ ε α} {q : α → Parser τ κ ε β} {i : Input τ κ} {e : ε}
    (h : p i = .error e) : (p >>= q) i = .error e := by
  change (p i).bind (fun x => q x.1 x.2) = _
  rw [h]
  rfl

@[simp] theorem run_pure (a : α) (i : Input τ κ) : (pure a : Parser τ κ ε α) i = .ok (a, i) := rfl

theorem map_err_eq_ok {f : ε → ε'} {p : Parser τ κ ε α} {i : Input τ κ} {r : α × Input τ κ} :
    map_err f p i = .ok r ↔ p i = .ok r := by
  unfold map_err
  rcases p i with e | a <;> simp [Except.mapError]

theorem map_err_peek (f : ε → ε') (k : τ → α) (e : ε) :
    map_err f (peek k e : Parser τ κ ε α) = peek k (f e) := by
  funext i
  unfold map_err peek
  rcases i.rest with _ | ⟨t, l⟩ <;> rfl

/-! ## Exactness -/

/-- `p` reads the values that `S` admits, each from just what `w` writes for
it, and moves the mark as `g` says. -/
structure Reads (p : Parser τ κ ε α) (S : κ → α → Prop) (w : α → List τ) (g : κ → α → κ) :
    Prop where
  sound : ∀ {s d a s' d'}, p ⟨s, d⟩ = .ok (a, ⟨s', d'⟩) → S d a ∧ s = w a ++ s' ∧ d' = g d a
  complete : ∀ {d a} t, S d a → p ⟨w a ++ t, d⟩ = .ok (a, ⟨t, g d a⟩)

namespace Reads

variable {p : Parser τ κ ε α} {S : κ → α → Prop} {w : α → List τ} {g : κ → α → κ}

/-- What a parser does on some input is what it does on the text it reads. -/
theorem iff (hp : Reads p S w g) {s s' : List τ} {d d' : κ} {a : α} :
    p ⟨s, d⟩ = .ok (a, ⟨s', d'⟩) ↔ S d a ∧ s = w a ++ s' ∧ d' = g d a := by
  refine ⟨hp.sound, ?_⟩
  rintro ⟨ha, rfl, rfl⟩
  exact hp.complete s' ha

/-- A parser that reads all of its input. -/
theorem whole (hp : Reads p S w g) {s : List τ} {d : κ} {a : α} :
    (∃ d', p ⟨s, d⟩ = .ok (a, ⟨[], d'⟩)) ↔ S d a ∧ s = w a := by
  simp [hp.iff]

/-- No writing is the start of another one. -/
theorem writes_apart (hp : Reads p S w g) {d : κ} {a b : α} {s t : List τ} (ha : S d a)
    (hb : S d b) (h : w a ++ s = w b ++ t) : a = b ∧ s = t := by
  have h1 := hp.complete s ha
  rw [h, hp.complete t hb] at h1
  cases h1
  exact ⟨rfl, rfl⟩

theorem write_inj (hp : Reads p S w g) {d : κ} {a b : α} (ha : S d a) (hb : S d b)
    (h : w a = w b) : a = b :=
  (hp.writes_apart (s := []) (t := []) ha hb (by simpa using h)).1

theorem congr {S' : κ → α → Prop} {w' : α → List τ} {g' : κ → α → κ} (hp : Reads p S w g)
    (hS : ∀ d a, S d a ↔ S' d a) (hw : ∀ d a, S d a → w a = w' a)
    (hg : ∀ d a, S d a → g d a = g' d a) : Reads p S' w' g' := by
  constructor
  · intro s d a s' d' h
    obtain ⟨ha, hs, hd⟩ := hp.sound h
    exact ⟨(hS d a).1 ha, by rw [hs, hw d a ha], by rw [hd, hg d a ha]⟩
  · intro d a t ha
    have ha' := (hS d a).2 ha
    rw [← hw d a ha', ← hg d a ha']
    exact hp.complete t ha'

/-! ## The rules -/

/-- One parser after the other. `f` finds the first value in the second. -/
theorem bind {q : α → Parser τ κ ε β} {T : α → κ → β → Prop} {v : α → β → List τ}
    {h : α → κ → β → κ} (f : β → α) (hp : Reads p S w g)
    (hq : ∀ a, (∃ d, S d a) → Reads (q a) (T a) (v a) (h a))
    (hf : ∀ d a b, S d a → T a (g d a) b → f b = a) :
    Reads (p >>= q) (fun d b => S d (f b) ∧ T (f b) (g d (f b)) b)
      (fun b => w (f b) ++ v (f b) b) (fun d b => h (f b) (g d (f b)) b) := by
  constructor
  · intro s d b s' d' hr
    obtain ⟨a, ⟨s1, d1⟩, h1, h2⟩ := run_bind_eq_ok.1 hr
    obtain ⟨ha, rfl, rfl⟩ := hp.sound h1
    obtain ⟨hb, rfl, rfl⟩ := (hq a ⟨d, ha⟩).sound h2
    obtain rfl := hf _ _ _ ha hb
    exact ⟨⟨ha, hb⟩, by rw [List.append_assoc], rfl⟩
  · rintro d b t ⟨ha, hb⟩
    rw [List.append_assoc, run_bind_of_ok (hp.complete _ ha)]
    exact (hq _ ⟨d, ha⟩).complete t hb

theorem pure (a : α) :
    Reads (pure a : Parser τ κ ε α) (fun _ b => b = a) (fun _ => []) (fun d _ => d) := by
  constructor
  · intro s d b s' d' h
    cases h
    exact ⟨rfl, rfl, rfl⟩
  · rintro d b t rfl
    rfl

theorem fail (e : ε) (hS : ∀ d a, ¬ S d a) : Reads (fail e : Parser τ κ ε α) S w g := by
  constructor
  · intro s d a s' d' h
    cases h
  · intro d a t h
    exact absurd h (hS d a)

theorem map_err (f : ε → ε') (hp : Reads p S w g) : Reads (map_err f p) S w g :=
  ⟨fun h => hp.sound (map_err_eq_ok.1 h), fun t h => map_err_eq_ok.2 (hp.complete t h)⟩

theorem check (c : Prop) [Decidable c] (e : ε) :
    Reads (fail_if c e : Parser τ κ ε Unit) (fun _ _ => ¬ c) (fun _ => []) (fun d _ => d) := by
  constructor
  · intro s d a s' d' h
    unfold exact_parse.fail_if at h
    split at h
    · cases h
    · rename_i hc
      cases h
      exact ⟨hc, rfl, rfl⟩
  · intro d a t hc
    exact if_neg hc

/-- A check before the rest. -/
theorem fail_if {q : Unit → Parser τ κ ε α} (c : Prop) [Decidable c] (e : ε)
    (hq : Reads (q ()) S w g) :
    Reads (fail_if c e >>= q) (fun d a => ¬ c ∧ S d a) w g :=
  bind (fun _ => ()) (check c e) (fun _ _ => hq) (fun _ _ _ _ _ => rfl)

theorem take (n : Nat) (e : ε) :
    Reads (take n e : Parser τ κ ε (List τ)) (fun _ l => l.length = n) id (fun d _ => d) := by
  constructor
  · intro s d l s' d' h
    unfold exact_parse.take at h
    split at h
    · cases h
    · rename_i hn
      have hle : n ≤ s.length := Nat.not_lt.1 hn
      cases h
      exact ⟨List.length_take_of_le hle, (List.take_append_drop n s).symm, rfl⟩
  · rintro d l t rfl
    simp [exact_parse.take]

theorem next (e : ε) :
    Reads (next e : Parser τ κ ε τ) (fun _ _ => True) (fun t => [t]) (fun d _ => d) := by
  constructor
  · intro s d b s' d' h
    rcases s with _ | ⟨x, s⟩
    · cases h
    · cases h
      exact ⟨trivial, rfl, rfl⟩
  · intro d b t _
    rfl

/-- A look ahead that says which kind of value follows. -/
theorem peek {f : τ → β} {e : ε} {q : β → Parser τ κ ε α} (kind : α → β)
    (hq : ∀ k, Reads (q k) (fun d a => S d a ∧ kind a = k) w g)
    (hw : ∀ d a, S d a → ∃ t l, w a = t :: l ∧ f t = kind a) :
    Reads (peek f e >>= q) S w g := by
  constructor
  · intro s d a s' d' h
    obtain ⟨k, i, h1, h2⟩ := run_bind_eq_ok.1 h
    rcases s with _ | ⟨x, s⟩
    · cases h1
    · cases h1
      obtain ⟨⟨ha, -⟩, h3⟩ := (hq _).sound h2
      exact ⟨ha, h3⟩
  · intro d a t ha
    obtain ⟨x, l, hx, hk⟩ := hw d a ha
    have hp : exact_parse.peek (κ := κ) f e ⟨w a ++ t, d⟩ = .ok (kind a, ⟨w a ++ t, d⟩) := by
      rw [hx, ← hk]
      rfl
    rw [run_bind_of_ok hp]
    exact (hq _).complete t ⟨ha, rfl⟩

/-- A value read and wrapped. -/
theorem wrap (c : α → β) (hp : Reads p S w g) {S' : κ → β → Prop} {w' : β → List τ}
    {g' : κ → β → κ} (hS : ∀ d b, S' d b ↔ ∃ a, b = c a ∧ S d a) (hw : ∀ a, w' (c a) = w a)
    (hg : ∀ d a, g' d (c a) = g d a) :
    Reads (p >>= fun a => Pure.pure (c a)) S' w' g' := by
  constructor
  · intro s d b s' d' h
    obtain ⟨a, ⟨s1, d1⟩, h1, h2⟩ := run_bind_eq_ok.1 h
    obtain ⟨ha, rfl, rfl⟩ := hp.sound h1
    cases h2
    exact ⟨(hS d _).2 ⟨a, rfl, ha⟩, by rw [hw], (hg d a).symm⟩
  · intro d b t hb
    obtain ⟨a, rfl, ha⟩ := (hS d b).1 hb
    rw [hw, hg]
    exact run_bind_of_ok (hp.complete t ha)

end Reads

/-! ## A parser repeated -/

/-- Each value of the list is admitted at the mark that the ones before it
leave. -/
def Each (S : κ → α → Prop) (g : κ → α → κ) : κ → List α → Prop
  | _, [] => True
  | d, a :: l => S d a ∧ Each S g (g d a) l

theorem Reads.times {p : Parser τ κ ε α} {S : κ → α → Prop} {w : α → List τ} {g : κ → α → κ}
    (hp : Reads p S w g) (n : Nat) :
    Reads (times p n) (fun d l => l.length = n ∧ Each S g d l) (fun l => l.flatMap w)
      (fun d l => l.foldl g d) := by
  induction n with
  | zero =>
    refine (Reads.pure []).congr ?_ ?_ ?_
    · intro d l
      rw [List.length_eq_zero_iff]
      exact ⟨fun h => ⟨h, by subst h; trivial⟩, fun h => h.1⟩
    · rintro d l rfl
      rfl
    · rintro d l rfl
      rfl
  | succ n ih =>
    constructor
    · intro s d l s' d' h
      obtain ⟨a, ⟨s1, d1⟩, h1, h⟩ := run_bind_eq_ok.1 h
      obtain ⟨l', ⟨s2, d2⟩, h2, h⟩ := run_bind_eq_ok.1 h
      obtain ⟨ha, rfl, rfl⟩ := hp.sound h1
      obtain ⟨⟨hn, hl⟩, rfl, rfl⟩ := ih.sound h2
      cases h
      exact ⟨⟨by simp [hn], ha, hl⟩, by simp, rfl⟩
    · rintro d l t ⟨hn, hl⟩
      rcases l with _ | ⟨a, l⟩
      · cases hn
      · rw [List.flatMap_cons, List.append_assoc]
        refine (run_bind_of_ok (hp.complete _ hl.1)).trans ?_
        exact run_bind_of_ok (ih.complete t ⟨Nat.succ.inj hn, hl.2⟩)

/-- A part that leaves the mark alone is repeated at one mark. -/
theorem each_of_fixed {S : κ → α → Prop} {d : κ} {l : List α} :
    Each S (fun d _ => d) d l ↔ ∀ a ∈ l, S d a := by
  induction l with
  | nil => simp [Each]
  | cons a l ih => simp [Each, ih]

/-- One value that is refused, behind values that are read, stops the loop. -/
theorem times_of_refused {p : Parser τ κ ε α} {w : α → List τ} {d : κ} {e : ε} {c : α → Prop}
    {l : List α} (hread : ∀ a ∈ l, ¬ c a → ∀ t, p ⟨w a ++ t, d⟩ = .ok (a, ⟨t, d⟩))
    (hrefused : ∀ a ∈ l, c a → ∀ t, p ⟨w a ++ t, d⟩ = .error e) (hc : ∃ a ∈ l, c a)
    (t : List τ) : times p l.length ⟨l.flatMap w ++ t, d⟩ = .error e := by
  induction l with
  | nil =>
    obtain ⟨a, ha, -⟩ := hc
    cases ha
  | cons a l ih =>
    rw [List.flatMap_cons, List.append_assoc]
    by_cases ha : c a
    · exact run_bind_of_error (hrefused a List.mem_cons_self ha _)
    · have hrest : ∃ b ∈ l, c b := by
        obtain ⟨b, hb, hcb⟩ := hc
        rcases List.mem_cons.1 hb with rfl | hb
        · exact absurd hcb ha
        · exact ⟨b, hb, hcb⟩
      refine (run_bind_of_ok (hread a List.mem_cons_self ha _)).trans ?_
      exact run_bind_of_error (ih (fun b hb => hread b (List.mem_cons_of_mem _ hb))
        (fun b hb => hrefused b (List.mem_cons_of_mem _ hb)) hrest)

/-! ## Checks outside a parser -/

/-- `if c { return Err(e) }`. -/
def refuse_if (c : Prop) [Decidable c] (e : ε) : Except ε Unit := if c then .error e else .ok ()

theorem refuse_if_eq_ok {c : Prop} [Decidable c] {e : ε} {u : Unit} :
    refuse_if c e = .ok u ↔ ¬ c := by
  unfold refuse_if
  by_cases h : c <;> simp [h]

/-- `Option::ok_or`. -/
def some_or (e : ε) : Option α → Except ε α
  | some a => .ok a
  | none => .error e

theorem some_or_eq_ok {e : ε} {o : Option α} {a : α} : some_or e o = .ok a ↔ o = some a := by
  rcases o with _ | b <;> simp [some_or]

theorem bind_eq_ok {x : Except ε α} {f : α → Except ε β} {b : β} :
    (x >>= f) = .ok b ↔ ∃ a, x = .ok a ∧ f a = .ok b := by
  rcases x with e | a <;> simp [bind, Except.bind]

theorem ok_bind (a : α) (f : α → Except ε β) : (Except.ok a >>= f) = f a := rfl

theorem pure_eq_ok {a b : α} : (pure a : Except ε α) = .ok b ↔ a = b := by
  change Except.ok a = Except.ok b ↔ a = b
  rw [Except.ok.injEq]

theorem mapError_eq_ok {x : Except ε α} {f : ε → ε'} {a : α} :
    x.mapError f = .ok a ↔ x = .ok a := by
  rcases x with e | a <;> simp [Except.mapError]

/-! ## A codec of whole inputs -/

/-- A decoder and an encoder of the values in `Fits`, with one encoding of
each. -/
structure Canonical (decode : List τ → Except ε α) (encode : α → List τ) (Fits : α → Prop) :
    Prop where
  decode_encode : ∀ a, Fits a → decode (encode a) = .ok a
  encode_decode : ∀ s a, decode s = .ok a → encode a = s ∧ Fits a
  one_encoding : ∀ s t a, decode s = .ok a → decode t = .ok a → s = t

/-- A decoder that accepts an encoding of at most `limit` tokens and nothing
else, where every value that fits stays below the limit. -/
theorem Canonical.of_decode_eq_ok {decode : List τ → Except ε α} {encode : α → List τ}
    {Fits : α → Prop} {limit : Nat}
    (hdecode : ∀ {s a}, decode s = .ok a ↔ s.length ≤ limit ∧ Fits a ∧ s = encode a)
    (hlen : ∀ a, Fits a → (encode a).length ≤ limit) : Canonical decode encode Fits where
  decode_encode a ha := hdecode.2 ⟨hlen a ha, ha, rfl⟩
  encode_decode s a h := by
    obtain ⟨-, ha, hs⟩ := hdecode.1 h
    exact ⟨hs.symm, ha⟩
  one_encoding s t a hs ht := by
    rw [(hdecode.1 hs).2.2, (hdecode.1 ht).2.2]

end exact_parse
