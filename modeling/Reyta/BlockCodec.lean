-- Lists that are coded block by block: a full block of `a` items is coded as
-- a full block of `b`, and what is left at the end as something shorter. A
-- coder that is right on every block is right on every list.
import Reyta.ExactParser

open exact_parse

namespace block_codec

variable {α β ε : Type}

/-! ## Blocks -/

def cut (k : Nat) : Nat → List α → List (List α)
  | 0, _ => []
  | _ + 1, [] => []
  | fuel + 1, a :: l => (a :: l).take k :: cut k fuel ((a :: l).drop k)

/-- `chunks`: blocks of `k` items, the last one perhaps shorter. -/
def chunks (k : Nat) (l : List α) : List (List α) := cut k l.length l

@[simp] theorem chunks_nil (k : Nat) : chunks k ([] : List α) = [] := rfl

theorem cut_eq_cut {k : Nat} (hk : 0 < k) {fuel fuel' : Nat} {l : List α} (h : l.length ≤ fuel)
    (h' : l.length ≤ fuel') : cut k fuel l = cut k fuel' l := by
  induction fuel generalizing fuel' l with
  | zero =>
    obtain rfl := List.eq_nil_of_length_eq_zero (Nat.le_zero.1 h)
    cases fuel' <;> rfl
  | succ fuel ih =>
    cases l with
    | nil => cases fuel' <;> rfl
    | cons a l =>
      cases fuel' with
      | zero => cases h'
      | succ fuel' =>
        have hdrop : ((a :: l).drop k).length ≤ l.length := by
          rw [List.length_drop, List.length_cons]
          omega
        simp only [List.length_cons, Nat.add_le_add_iff_right] at h h'
        simp only [cut]
        rw [ih (Nat.le_trans hdrop h) (Nat.le_trans hdrop h')]

theorem chunks_of_ne_nil {k : Nat} (hk : 0 < k) {l : List α} (h : l ≠ []) :
    chunks k l = l.take k :: chunks k (l.drop k) := by
  cases l with
  | nil => exact absurd rfl h
  | cons a l =>
    have hdrop : ((a :: l).drop k).length ≤ l.length := by
      rw [List.length_drop, List.length_cons]
      omega
    unfold chunks
    rw [List.length_cons, cut, cut_eq_cut hk hdrop (Nat.le_refl _)]

theorem chunks_append {k : Nat} (hk : 0 < k) {x : List α} (h : x.length = k) (l : List α) :
    chunks k (x ++ l) = x :: chunks k l := by
  have hne : x ++ l ≠ [] := by
    intro hnil
    rw [(List.append_eq_nil_iff.1 hnil).1] at h
    exact absurd h (Nat.ne_of_lt hk)
  rw [chunks_of_ne_nil hk hne, List.take_left' h, List.drop_left' h]

theorem chunks_of_length_lt {k : Nat} {x : List α} (hne : x ≠ []) (h : x.length < k) :
    chunks k x = [x] := by
  rw [chunks_of_ne_nil (Nat.lt_of_le_of_lt (Nat.zero_le _) h) hne,
    List.take_of_length_le (Nat.le_of_lt h), List.drop_of_length_le (Nat.le_of_lt h), chunks_nil]

/-- A list is empty, a part of a block, or a block with a list after it. -/
theorem blocks_induction {k : Nat} (hk : 0 < k) {P : List α → Prop} (nil : P [])
    (short : ∀ x, x ≠ [] → x.length < k → P x) (full : ∀ x l, x.length = k → P l → P (x ++ l))
    (l : List α) : P l := by
  induction hn : l.length using Nat.strongRecOn generalizing l with
  | ind n ih =>
    by_cases hlt : l.length < k
    · by_cases hnil : l = []
      · rw [hnil]
        exact nil
      · exact short l hnil hlt
    · have hle : k ≤ l.length := Nat.not_lt.1 hlt
      rw [← List.take_append_drop k l]
      refine full _ _ (List.length_take_of_le hle) (ih _ ?_ _ rfl)
      rw [List.length_drop]
      omega

/-! ## A coder of blocks -/

/-- `enc` and `dec` are inverse on blocks of up to `a` and up to `b` items. A
short block of code has one of the lengths in `Short`. -/
structure BlockCodec (a b : Nat) (enc : List α → List β) (dec : List β → Except ε (List α))
    (Short : Nat → Prop) : Prop where
  a_pos : 0 < a
  b_pos : 0 < b
  dec_enc : ∀ x, x ≠ [] → x.length ≤ a → dec (enc x) = .ok x
  full_enc : ∀ x, x.length = a → (enc x).length = b
  short_enc : ∀ x, x ≠ [] → x.length < a → enc x ≠ [] ∧ (enc x).length < b ∧ Short (enc x).length
  full_dec : ∀ y x, y.length = b → dec y = .ok x → enc x = y ∧ x.length = a
  short_dec : ∀ y x, y ≠ [] → y.length < b → Short y.length → dec y = .ok x →
    enc x = y ∧ x ≠ [] ∧ x.length < a

def encode (a : Nat) (enc : List α → List β) (l : List α) : List β := (chunks a l).flatMap enc

def decode (b : Nat) (dec : List β → Except ε (List α)) (s : List β) : Except ε (List α) := do
  let parts ← (chunks b s).mapM dec
  pure parts.flatten

namespace BlockCodec

variable {a b : Nat} {enc : List α → List β} {dec : List β → Except ε (List α)}
  {Short : Nat → Prop}

theorem encode_append (hc : BlockCodec a b enc dec Short) {x : List α} (h : x.length = a)
    (l : List α) : encode a enc (x ++ l) = enc x ++ encode a enc l := by
  unfold encode
  rw [chunks_append hc.a_pos h, List.flatMap_cons]

theorem encode_of_length_lt {x : List α} (hne : x ≠ []) (h : x.length < a) :
    encode a enc x = enc x := by
  unfold encode
  rw [chunks_of_length_lt hne h, List.flatMap_singleton]

theorem decode_append (hc : BlockCodec a b enc dec Short) {y : List β} (h : y.length = b)
    (s : List β) : decode b dec (y ++ s) = (do
      let x ← dec y
      let l ← decode b dec s
      pure (x ++ l)) := by
  unfold decode
  rw [chunks_append hc.b_pos h, List.mapM_cons]
  cases dec y with
  | error e => rfl
  | ok x =>
    cases (chunks b s).mapM dec with
    | error e => rfl
    | ok parts => rfl

theorem decode_of_length_lt {y : List β} (hne : y ≠ []) (h : y.length < b) :
    decode b dec y = dec y := by
  unfold decode
  rw [chunks_of_length_lt hne h, List.mapM_cons, List.mapM_nil]
  cases dec y with
  | error e => rfl
  | ok x => exact congrArg Except.ok (List.append_nil x)

theorem decode_encode (hc : BlockCodec a b enc dec Short) (l : List α) :
    decode b dec (encode a enc l) = .ok l := by
  induction l using blocks_induction hc.a_pos with
  | nil => rfl
  | short x hne hlt =>
    obtain ⟨hne', hlt', -⟩ := hc.short_enc x hne hlt
    rw [encode_of_length_lt hne hlt, decode_of_length_lt hne' hlt']
    exact hc.dec_enc x hne (Nat.le_of_lt hlt)
  | full x l hx ih =>
    have hne : x ≠ [] := List.ne_nil_of_length_pos (hx ▸ hc.a_pos)
    rw [hc.encode_append hx, hc.decode_append (hc.full_enc x hx), ih,
      hc.dec_enc x hne (Nat.le_of_eq hx)]
    rfl

/-- What is left after the last full block of code. -/
theorem length_encode_mod (hc : BlockCodec a b enc dec Short) (l : List α) :
    (encode a enc l).length % b = 0 ∨ Short ((encode a enc l).length % b) := by
  induction l using blocks_induction hc.a_pos with
  | nil => exact .inl (Nat.zero_mod b)
  | short x hne hlt =>
    obtain ⟨-, hlt', hshort⟩ := hc.short_enc x hne hlt
    rw [encode_of_length_lt hne hlt, Nat.mod_eq_of_lt hlt']
    exact .inr hshort
  | full x l hx ih =>
    rw [hc.encode_append hx, List.length_append, hc.full_enc x hx, Nat.add_mod_left]
    exact ih

/-- A code that makes no block shorter makes no list shorter. -/
theorem length_le_encode (hc : BlockCodec a b enc dec Short)
    (h : ∀ x, x ≠ [] → x.length ≤ a → x.length ≤ (enc x).length) (l : List α) :
    l.length ≤ (encode a enc l).length := by
  induction l using blocks_induction hc.a_pos with
  | nil => exact Nat.zero_le _
  | short x hne hlt =>
    rw [encode_of_length_lt hne hlt]
    exact h x hne (Nat.le_of_lt hlt)
  | full x l hx ih =>
    have hne : x ≠ [] := List.ne_nil_of_length_pos (hx ▸ hc.a_pos)
    rw [hc.encode_append hx, List.length_append, List.length_append]
    exact Nat.add_le_add (h x hne (Nat.le_of_eq hx)) ih

theorem encode_decode (hc : BlockCodec a b enc dec Short) {s : List β} {l : List α}
    (hs : s.length % b = 0 ∨ Short (s.length % b)) (h : decode b dec s = .ok l) :
    encode a enc l = s := by
  induction s using blocks_induction hc.b_pos generalizing l with
  | nil =>
    cases h
    rfl
  | short y hne hlt =>
    have hpos := List.length_pos_iff.2 hne
    rw [Nat.mod_eq_of_lt hlt] at hs
    rw [decode_of_length_lt hne hlt] at h
    have hshort := hs.resolve_left (Nat.ne_of_gt hpos)
    obtain ⟨hy, hne', hlt'⟩ := hc.short_dec y l hne hlt hshort h
    rw [encode_of_length_lt hne' hlt', hy]
  | full y s hy ih =>
    rw [List.length_append, hy, Nat.add_mod_left] at hs
    rw [hc.decode_append hy] at h
    obtain ⟨x, hx, h⟩ := bind_eq_ok.1 h
    obtain ⟨l', hl', h⟩ := bind_eq_ok.1 h
    cases h
    obtain ⟨hxy, hlen⟩ := hc.full_dec y x hy hx
    rw [hc.encode_append hlen, hxy, ih hs hl']

end BlockCodec

end block_codec
