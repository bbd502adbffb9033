-- The wrapping key of the platform keystore. It is looked up, made if there is
-- none, and looked up again if another call was faster. However many calls do
-- that at the same time, each ends up with the key that is stored.
import Reyta.Crypto
import Reyta.ExactParser
import Reyta.Interleaving

open byte_string exact_parse interleaving

namespace rtp2_core.keystore

def WRAPPING_KEY_LEN : Nat := 32
def MAX_LABEL_BYTES : Nat := 256
def ITEM_NOT_FOUND : Int := -25300
def DUPLICATE_ITEM : Int := -25299

inductive KeystoreError where
  | Unavailable (what : String)
  | Platform (op : String) (status : Int)
  | MalformedKey
  | InvalidLabel
  deriving DecidableEq, Repr

def check_label (label : String) : Except KeystoreError Unit :=
  refuse_if (label.isEmpty ∨ label.utf8ByteSize > MAX_LABEL_BYTES) .InvalidLabel

/-- The calls of the backend. -/
inductive BackendOp where
  | find (service account : String)
  | add (service account : String) (key : Arr WRAPPING_KEY_LEN)

def BackendOp.Answer : BackendOp → Type
  | .find _ _ => Except KeystoreError (Option (Arr WRAPPING_KEY_LEN))
  | .add _ _ _ => Except KeystoreError Unit

abbrev KeystoreTask := Task BackendOp BackendOp.Answer KeystoreError

namespace Keystore

def find (service account : String) : KeystoreTask (Option (Arr WRAPPING_KEY_LEN)) := do
  let r : Except KeystoreError (Option (Arr WRAPPING_KEY_LEN)) ←
    Task.ask (BackendOp.find service account)
  Task.of r

def add (service account : String) (key : Arr WRAPPING_KEY_LEN) :
    KeystoreTask (Except KeystoreError Unit) :=
  Task.ask (BackendOp.add service account key)

/-- `fresh` is the key that the call draws if it finds none. -/
def wrapping_key (service account : String) (fresh : Arr WRAPPING_KEY_LEN) :
    KeystoreTask (Arr WRAPPING_KEY_LEN) := do
  Task.of (check_label service)
  Task.of (check_label account)
  match ← find service account with
  | some key => pure key
  | none =>
    match ← add service account fresh with
    | .ok () => pure fresh
    | .error (.Platform op status) =>
      if status = DUPLICATE_ITEM then do
        let key ← find service account
        Task.of (some_or (.Platform "find-after-duplicate" ITEM_NOT_FOUND) key)
      else throw (.Platform op status)
    | .error e => throw e

/-! ## The backend -/

/-- The items, by service and account. -/
abbrev Items := String × String → Option (Arr WRAPPING_KEY_LEN)

/-- An item is added if there is none. Nobody deletes. -/
def reply (items : Items) : (q : BackendOp) → q.Answer × Items
  | .find service account => (Except.ok (items (service, account)), items)
  | .add service account key =>
    match items (service, account) with
    | some _ => (Except.error (KeystoreError.Platform "SecItemAdd" DUPLICATE_ITEM), items)
    | none => (Except.ok (), Function.update items (service, account) (some key))

/-! ## The steps of a call -/

/-- The second look. -/
def find_again (service account : String) :
    Prog BackendOp BackendOp.Answer (Except KeystoreError (Arr WRAPPING_KEY_LEN)) :=
  (do
    let key ← find service account
    Task.of (some_or (.Platform "find-after-duplicate" ITEM_NOT_FOUND) key) : KeystoreTask _).run

/-- The call when it has found nothing. -/
def mint (service account : String) (fresh : Arr WRAPPING_KEY_LEN) :
    Prog BackendOp BackendOp.Answer (Except KeystoreError (Arr WRAPPING_KEY_LEN)) :=
  .ask (.add service account fresh) fun
    | .ok () => .ret (.ok fresh)
    | .error (.Platform op status) =>
      if status = DUPLICATE_ITEM then find_again service account
      else .ret (.error (.Platform op status))
    | .error e => .ret (.error e)

def Valid (label : String) : Prop := check_label label = .ok ()

theorem wrapping_key_run {service account : String} (hservice : Valid service)
    (haccount : Valid account) (fresh : Arr WRAPPING_KEY_LEN) :
    (wrapping_key service account fresh).run = .ask (.find service account) fun
      | .error e => .ret (.error e)
      | .ok (some key) => .ret (.ok key)
      | .ok none => mint service account fresh := by
  unfold wrapping_key
  rw [hservice, haccount]
  refine congrArg (Prog.ask (BackendOp.find service account)) (funext fun r => ?_)
  rcases r with e | _ | key
  · rfl
  · refine congrArg (Prog.ask (BackendOp.add service account fresh)) (funext fun r => ?_)
    rcases r with e | _
    · cases e with
      | Platform op status =>
        change ExceptT.run (if status = DUPLICATE_ITEM then (do
          let key ← find service account
          Task.of (some_or (.Platform "find-after-duplicate" ITEM_NOT_FOUND) key) : KeystoreTask _)
          else throw (.Platform op status)) = if status = DUPLICATE_ITEM then _ else _
        by_cases hstatus : status = DUPLICATE_ITEM
        · rw [if_pos hstatus, if_pos hstatus]
          rfl
        · rw [if_neg hstatus, if_neg hstatus]
          rfl
      | _ => rfl
    · rfl
  · rfl

/-- How far a call with valid labels has come. If it looks again or is done,
there is an item. -/
inductive Phase (items : Items) (service account : String) (fresh : Arr WRAPPING_KEY_LEN) :
    Prog BackendOp BackendOp.Answer (Except KeystoreError (Arr WRAPPING_KEY_LEN)) → Prop
  | start : Phase items service account fresh (wrapping_key service account fresh).run
  | minting : Phase items service account fresh (mint service account fresh)
  | again {key : Arr WRAPPING_KEY_LEN} (h : items (service, account) = some key) :
      Phase items service account fresh (find_again service account)
  | done {key : Arr WRAPPING_KEY_LEN} (h : items (service, account) = some key) :
      Phase items service account fresh (.ret (.ok key))

variable {service account : String} {fresh : Arr WRAPPING_KEY_LEN} {items items' : Items}
  {p : Prog BackendOp BackendOp.Answer (Except KeystoreError (Arr WRAPPING_KEY_LEN))}

/-- An item is never replaced. -/
theorem reply_grows (items : Items) (q : BackendOp) {label : String × String}
    {key : Arr WRAPPING_KEY_LEN} (h : items label = some key) :
    (reply items q).2 label = some key := by
  cases q with
  | find service account => exact h
  | add service account key' =>
    simp only [reply]
    cases hitem : items (service, account) with
    | some _ => exact h
    | none =>
      have hne : label ≠ (service, account) := by
        rintro rfl
        rw [hitem] at h
        cases h
      exact (Function.update_of_ne hne _ _).trans h

theorem Phase.grows (h : Phase items service account fresh p)
    (hgrows : ∀ key, items (service, account) = some key → items' (service, account) = some key) :
    Phase items' service account fresh p := by
  cases h with
  | start => exact .start
  | minting => exact .minting
  | again hkey => exact .again (hgrows _ hkey)
  | done hkey => exact .done (hgrows _ hkey)

/-- The next step of a call. -/
theorem Phase.step (hservice : Valid service) (haccount : Valid account)
    {q : BackendOp} {k : q.Answer → Prog BackendOp BackendOp.Answer _}
    (h : Phase items service account fresh (.ask q k)) :
    Phase (reply items q).2 service account fresh (k (reply items q).1) := by
  generalize hp : Prog.ask q k = p at h
  cases h with
  | start =>
    rw [wrapping_key_run hservice haccount] at hp
    cases hp
    simp only [reply]
    cases hitem : items (service, account) with
    | none => exact .minting
    | some key => exact .done hitem
  | minting =>
    cases hp
    simp only [reply]
    cases hitem : items (service, account) with
    | none => exact .done (by simp)
    | some key => exact .again hitem
  | again hkey =>
    cases hp
    simp only [reply, hkey]
    exact .done hkey
  | done hkey => cases hp

theorem Phase.of_ret {r : Except KeystoreError (Arr WRAPPING_KEY_LEN)} (hservice : Valid service)
    (haccount : Valid account) (h : Phase items service account fresh (.ret r)) :
    ∃ key, r = .ok key ∧ items (service, account) = some key := by
  generalize hp : Prog.ret r = p at h
  cases h with
  | start =>
    rw [wrapping_key_run hservice haccount] at hp
    cases hp
  | minting => cases hp
  | again hkey => cases hp
  | done hkey =>
    cases hp
    exact ⟨_, rfl, hkey⟩

theorem check_label_cases (label : String) :
    Valid label ∨ check_label label = .error .InvalidLabel := by
  unfold Valid check_label refuse_if
  split
  · exact .inr rfl
  · exact .inl rfl

/-! ## Calls at the same time -/

variable {ι : Type} [DecidableEq ι]

/-- Each call is for a service and an account, and draws a key of its own. -/
structure Caller where
  service : String
  account : String
  fresh : Arr WRAPPING_KEY_LEN

namespace Caller

def label (c : Caller) : String × String := (c.service, c.account)

def prog (c : Caller) :
    Prog BackendOp BackendOp.Answer (Except KeystoreError (Arr WRAPPING_KEY_LEN)) :=
  (wrapping_key c.service c.account c.fresh).run

def Valid (c : Caller) : Prop := Keystore.Valid c.service ∧ Keystore.Valid c.account

end Caller

/-- The calls with the steps of the schedule, from a keychain that may have
items. -/
def race (callers : ι → Caller) (items : Items) (schedule : List ι) :
    System ι BackendOp BackendOp.Answer (Except KeystoreError (Arr WRAPPING_KEY_LEN)) Items :=
  run reply (start (fun i => (callers i).prog) items) schedule

/-- Every call with valid labels is in one of its phases. -/
def Underway (callers : ι → Caller)
    (s : System ι BackendOp BackendOp.Answer (Except KeystoreError (Arr WRAPPING_KEY_LEN)) Items) :
    Prop :=
  ∀ i, (callers i).Valid →
    Phase s.shared (callers i).service (callers i).account (callers i).fresh (s.threads i)

theorem underway_race (callers : ι → Caller) (items : Items) (schedule : List ι) :
    Underway callers (race callers items schedule) := by
  refine run_keeps (Underway callers) ?_ (fun i _ => .start) schedule
  intro s i h j hvalid
  rcases step_cases reply s i with ⟨r, -, hs⟩ | ⟨q, k, hask, hs⟩
  · rw [hs]
    exact h j hvalid
  · rw [hs]
    by_cases hij : j = i
    · subst hij
      have hphase := h j hvalid
      rw [hask] at hphase
      simpa using hphase.step hvalid.1 hvalid.2
    · simpa [hij] using (h j hvalid).grows fun key => reply_grows s.shared q

theorem prog_within {c : Caller} (h : c.Valid) : c.prog.Within 3 := by
  rw [Caller.prog, wrapping_key_run h.1 h.2]
  intro r
  rcases r with e | _ | key
  · trivial
  · intro r
    rcases r with e | _
    · cases e with
      | Platform op status =>
        change Prog.Within 1 (if status = DUPLICATE_ITEM then _ else _)
        by_cases hstatus : status = DUPLICATE_ITEM
        · rw [if_pos hstatus]
          intro r
          rcases r with e | key
          · trivial
          · trivial
        · rw [if_neg hstatus]
          trivial
      | _ => trivial
    · trivial
  · trivial

theorem prog_of_not_valid {c : Caller} (h : ¬ c.Valid) : c.prog = .ret (.error .InvalidLabel) := by
  unfold Caller.prog wrapping_key
  rcases check_label_cases c.service with hservice | hservice
  · rcases check_label_cases c.account with haccount | haccount
    · exact absurd ⟨hservice, haccount⟩ h
    · rw [hservice, haccount]
      rfl
  · rw [hservice]
    rfl

/-- Any number of calls at the same time, in any interleaving. A call with valid
labels that has returned has returned the item that is stored under its labels,
and it has returned when it has had three steps. A call with another label is
refused. -/
theorem every_call_returns_the_stored_key (callers : ι → Caller) (items : Items)
    (schedule : List ι) (i : ι) :
    ((callers i).Valid →
      (∀ r, ((race callers items schedule).threads i).result = some r →
        ∃ key, r = .ok key ∧ (race callers items schedule).shared (callers i).label = some key) ∧
      (3 ≤ schedule.count i →
        ∃ r, ((race callers items schedule).threads i).result = some r)) ∧
    (¬ (callers i).Valid →
      ((race callers items schedule).threads i).result = some (.error .InvalidLabel)) := by
  refine ⟨fun hvalid => ⟨?_, returned_of_count (prog_within hvalid)⟩, ?_⟩
  · intro r hr
    have hphase := underway_race callers items schedule i hvalid
    rw [Prog.eq_ret_of_result hr] at hphase
    exact hphase.of_ret hvalid.1 hvalid.2
  · intro hinvalid
    have hthread : (start (fun i => (callers i).prog) items).threads i =
        .ret (.error .InvalidLabel) := prog_of_not_valid hinvalid
    rw [race, run_threads_of_ret hthread]
    rfl

/-- Two calls for one item that find nothing and draw different keys. -/
def sampleCallers (i : Fin 2) : Caller :=
  ⟨"com.reyta.rtp2", "device-identity", .replicate 32 i.val.toUInt8⟩

theorem sampleCallers_valid (i : Fin 2) : (sampleCallers i).Valid :=
  ⟨show check_label "com.reyta.rtp2" = .ok () by decide +kernel,
    show check_label "device-identity" = .ok () by decide +kernel⟩

theorem two_callers_return_one_key :
    ∃ key, ((race sampleCallers (fun _ => none) [0, 1, 1, 0, 0, 1]).threads 0).result =
        some (.ok key) ∧
      ((race sampleCallers (fun _ => none) [0, 1, 1, 0, 0, 1]).threads 1).result =
        some (.ok key) := by
  obtain ⟨hzero, hzero'⟩ := (every_call_returns_the_stored_key sampleCallers (fun _ => none)
    [0, 1, 1, 0, 0, 1] 0).1 (sampleCallers_valid 0)
  obtain ⟨hone, hone'⟩ := (every_call_returns_the_stored_key sampleCallers (fun _ => none)
    [0, 1, 1, 0, 0, 1] 1).1 (sampleCallers_valid 1)
  obtain ⟨r, hr⟩ := hzero' (by decide)
  obtain ⟨r', hr'⟩ := hone' (by decide)
  obtain ⟨key, rfl, hkey⟩ := hzero r hr
  obtain ⟨key', rfl, hkey'⟩ := hone r' hr'
  have hsame : key = key' := Option.some.inj (hkey.symm.trans hkey')
  exact ⟨key, hr, hsame ▸ hr'⟩

/-- With an empty service name a call fails, without any race. -/
theorem an_empty_service_name_is_refused :
    ((race (fun _ : Fin 2 => ⟨"", "device-identity", .replicate 32 0⟩) (fun _ => none)
      [0, 0, 0]).threads 0).result = some (.error .InvalidLabel) := by
  rfl

end Keystore

end rtp2_core.keystore
