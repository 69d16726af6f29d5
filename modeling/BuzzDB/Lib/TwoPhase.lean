import Mathlib.Data.List.Basic
import Mathlib.Logic.Function.Basic

/-!
# Strict two-phase locking

Transactions read and write the items of a store.  What a running transaction has done is in
its log, and takes effect when it commits; until then it sees the store behind its own log.
Locks are on granules, each of which has any number of items.

If every access is made under a lock that lasts until the transaction ends, the reads of all
transactions are those of a serial execution: one committed transaction after the other, in
the order of their commits.
-/

namespace TwoPhase

/-- What a transaction has read or written. -/
inductive Access (ι ν : Type*)
  | read (item : ι) (value : ν)
  | write (item : ι) (value : ν)
  deriving DecidableEq

variable {ι ν τ γ : Type*}

/-- The item of an access. -/
def Access.item : Access ι ν → ι
  | .read item _ => item
  | .write item _ => item

/-- A read finds its value. -/
def Access.Finds (store : ι → ν) : Access ι ν → Prop
  | .read item value => store item = value
  | .write _ _ => True

variable [DecidableEq ι]

/-- The store behind an access. -/
def Access.apply (store : ι → ν) : Access ι ν → ι → ν
  | .read _ _ => store
  | .write item value => Function.update store item value

/-- The store behind some accesses. -/
def effect (store : ι → ν) (accesses : List (Access ι ν)) : ι → ν :=
  accesses.foldl Access.apply store

/-- Every read finds its value in the store that the accesses before it have left. -/
def Legal : (ι → ν) → List (Access ι ν) → Prop
  | _, [] => True
  | store, access :: rest => access.Finds store ∧ Legal (access.apply store) rest

variable {store store' : ι → ν} {accesses more : List (Access ι ν)} {i : ι}
  {v : ν}

@[simp] theorem effect_append (store : ι → ν) (accesses more : List (Access ι ν)) :
    effect store (accesses ++ more) = effect (effect store accesses) more :=
  List.foldl_append

theorem legal_append :
    Legal store (accesses ++ more) ↔ Legal store accesses ∧ Legal (effect store accesses) more := by
  induction accesses generalizing store with
  | nil => exact ⟨fun legal => ⟨trivial, legal⟩, And.right⟩
  | cons access accesses ih =>
    rw [List.cons_append, Legal, Legal, ih, and_assoc]
    rfl

/-- What is in an item depends on what was there before, and on nothing else in the store. -/
theorem Access.apply_congr (access : Access ι ν) (same : store i = store' i) :
    access.apply store i = access.apply store' i := by
  cases access with
  | read item value => exact same
  | write item value =>
    rcases eq_or_ne i item with rfl | different
    · rw [Access.apply, Access.apply, Function.update_self, Function.update_self]
    · rw [Access.apply, Access.apply, Function.update_of_ne different,
        Function.update_of_ne different, same]

theorem effect_congr (same : store i = store' i) : effect store accesses i = effect store' accesses i := by
  induction accesses generalizing store store' with
  | nil => exact same
  | cons access accesses ih => exact ih (access.apply_congr same)

/-- An item that is not written. -/
theorem effect_of_unwritten (unwritten : ∀ v, Access.write i v ∉ accesses) :
    effect store accesses i = store i := by
  induction accesses generalizing store with
  | nil => rfl
  | cons access accesses ih =>
    refine (ih fun v member => unwritten v (List.mem_cons_of_mem _ member)).trans ?_
    cases access with
    | read item value => rfl
    | write item value =>
      refine Function.update_of_ne (fun same => ?_) _ _
      exact unwritten value (same ▸ List.mem_cons_self)

/-- The reads depend on the items that are read. -/
theorem Legal.congr (legal : Legal store accesses)
    (same : ∀ access ∈ accesses, store access.item = store' access.item) : Legal store' accesses := by
  induction accesses generalizing store store' with
  | nil => trivial
  | cons access accesses ih =>
    refine ⟨?_, ih legal.2 fun later member => ?_⟩
    · have here := same access List.mem_cons_self
      cases access with
      | read item value => exact here.symm.trans legal.1
      | write item value => trivial
    · exact access.apply_congr (same later (List.mem_cons_of_mem _ member))

/-! ## Schedules -/

/-- The locks that transactions have on granules.  Whoever may write a granule is alone with it. -/
structure Locks (τ γ : Type*) where
  reads : τ → γ → Prop
  writes : τ → γ → Prop
  reads_of_writes : ∀ {t g}, writes t g → reads t g
  excludes : ∀ {t u g}, writes t g → reads u g → u = t

/-- The committed store, what the running transactions have done, and what the committed ones did, in
the order of their commits. -/
structure Schedule (τ ι ν : Type*) where
  store : ι → ν
  log : τ → List (Access ι ν)
  history : List (List (Access ι ν))

namespace Schedule

/-- Nothing has happened. -/
def new (store : ι → ν) : Schedule τ ι ν := ⟨store, fun _ => [], []⟩

variable (s : Schedule τ ι ν)

/-- What a transaction sees. -/
def view (t : τ) : ι → ν := effect s.store (s.log t)

variable [DecidableEq τ]

/-- A transaction reads or writes. -/
def record (t : τ) (a : Access ι ν) : Schedule τ ι ν :=
  { s with log := Function.update s.log t (s.log t ++ [a]) }

/-- What a transaction has done takes effect. -/
def commit (t : τ) : Schedule τ ι ν where
  store := s.view t
  log := Function.update s.log t []
  history := s.history ++ [s.log t]

/-- What a transaction has done is forgotten. -/
def abort (t : τ) : Schedule τ ι ν := { s with log := Function.update s.log t [] }

/-- The committed transactions are a serial execution that has led to the store. -/
structure Serial (initial : ι → ν) : Prop where
  legal : Legal initial s.history.flatten
  store : s.store = effect initial s.history.flatten

/-- Running transactions have the locks for what they have done, and have read what they see. -/
structure Covered (granule : ι → γ) (locks : Locks τ γ) : Prop where
  reads : ∀ t, ∀ a ∈ s.log t, locks.reads t (granule a.item)
  writes : ∀ t i v, Access.write i v ∈ s.log t → locks.writes t (granule i)
  legal : ∀ t, Legal s.store (s.log t)

variable {s} {granule : ι → γ} {locks locks' : Locks τ γ} {initial : ι → ν} {t u : τ} {a : Access ι ν}

omit [DecidableEq τ] in
theorem Serial.new (store : ι → ν) : (new store : Schedule τ ι ν).Serial store := ⟨trivial, rfl⟩

omit [DecidableEq τ] in
theorem Covered.new (store : ι → ν) : (new store : Schedule τ ι ν).Covered granule locks :=
  ⟨fun _ _ member => (List.not_mem_nil member).elim,
    fun _ _ _ member => (List.not_mem_nil member).elim, fun _ => trivial⟩

omit [DecidableEq τ] in
/-- Transactions see the store where they may not write. -/
theorem Covered.view_of_unlocked (covered : s.Covered granule locks)
    (unlocked : ¬ locks.writes t (granule i)) : s.view t i = s.store i :=
  effect_of_unwritten fun v member => unlocked (covered.writes t i v member)

omit [DecidableEq τ] in
/-- Locks may change where no running transaction has used them. -/
theorem Covered.relock (covered : s.Covered granule locks)
    (reads : ∀ t g, s.log t ≠ [] → locks.reads t g → locks'.reads t g)
    (writes : ∀ t g, s.log t ≠ [] → locks.writes t g → locks'.writes t g) :
    s.Covered granule locks' where
  reads t a member := reads t _ (List.ne_nil_of_mem member) (covered.reads t a member)
  writes t i v member := writes t _ (List.ne_nil_of_mem member) (covered.writes t i v member)
  legal := covered.legal

omit [DecidableEq ι] in
theorem log_record_self : (s.record t a).log t = s.log t ++ [a] := Function.update_self _ _ _

omit [DecidableEq ι] in
theorem log_record_of_ne (different : u ≠ t) : (s.record t a).log u = s.log u :=
  Function.update_of_ne different _ _

theorem view_record_of_ne (different : u ≠ t) : (s.record t a).view u = s.view u := by
  rw [view, log_record_of_ne different]
  rfl

theorem view_record_self : (s.record t a).view t = a.apply (s.view t) := by
  rw [view, log_record_self]
  exact effect_append _ _ _

/-- An access under a lock; what is read is what the transaction sees. -/
theorem Covered.record (covered : s.Covered granule locks) (finds : a.Finds (s.view t))
    (reads : locks.reads t (granule a.item))
    (writes : ∀ i v, a = .write i v → locks.writes t (granule i)) :
    (s.record t a).Covered granule locks := by
  refine ⟨fun u b member => ?_, fun u i v member => ?_, fun u => ?_⟩
  · rcases eq_or_ne u t with rfl | different
    · rw [log_record_self] at member
      rcases List.mem_append.mp member with before | new
      · exact covered.reads u b before
      · exact List.mem_singleton.mp new ▸ reads
    · exact covered.reads u b (log_record_of_ne different ▸ member)
  · rcases eq_or_ne u t with rfl | different
    · rw [log_record_self] at member
      rcases List.mem_append.mp member with before | new
      · exact covered.writes u i v before
      · exact writes i v (List.mem_singleton.mp new).symm
    · exact covered.writes u i v (log_record_of_ne different ▸ member)
  · rcases eq_or_ne u t with rfl | different
    · rw [log_record_self]
      have legal : Legal (s.view u) [a] := ⟨finds, trivial⟩
      exact legal_append.mpr ⟨covered.legal u, legal⟩
    · rw [log_record_of_ne different]
      exact covered.legal u

omit [DecidableEq ι] in
theorem log_abort_self : (s.abort t).log t = [] := Function.update_self _ _ _

omit [DecidableEq ι] in
theorem log_abort_of_ne (different : u ≠ t) : (s.abort t).log u = s.log u :=
  Function.update_of_ne different _ _

omit [DecidableEq ι] in
theorem mem_log_abort (member : a ∈ (s.abort t).log u) : a ∈ s.log u := by
  rcases eq_or_ne u t with rfl | different
  · rw [log_abort_self] at member
    exact (List.not_mem_nil member).elim
  · rwa [log_abort_of_ne different] at member

omit [DecidableEq τ] in
theorem Serial.of_same {s' : Schedule τ ι ν} (serial : s.Serial initial) (store : s'.store = s.store)
    (history : s'.history = s.history) : s'.Serial initial where
  legal := history ▸ serial.legal
  store := by rw [store, history, serial.store]

/-- Without an entry in its log a transaction sees the store. -/
theorem view_abort_self : (s.abort t).view t = s.store := by
  rw [view, log_abort_self]
  rfl

theorem view_abort_of_ne (different : u ≠ t) : (s.abort t).view u = s.view u := by
  rw [view, log_abort_of_ne different]
  rfl

theorem Covered.abort (covered : s.Covered granule locks) (t : τ) :
    (s.abort t).Covered granule locks := by
  refine ⟨fun u b member => covered.reads u b (mem_log_abort member),
    fun u i v member => covered.writes u i v (mem_log_abort member), fun u => ?_⟩
  rcases eq_or_ne u t with rfl | different
  · rw [log_abort_self]
    trivial
  · rw [log_abort_of_ne different]
    exact covered.legal u

theorem log_commit : (s.commit t).log = (s.abort t).log := rfl

theorem view_commit_self : (s.commit t).view t = s.view t := by
  rw [view, log_commit, log_abort_self]
  rfl

/-- What the others see behind a commit. -/
theorem view_commit_of_ne (different : u ≠ t) : (s.commit t).view u = effect (s.view t) (s.log u) := by
  rw [view, log_commit, log_abort_of_ne different]
  rfl

/-- A commit goes unnoticed by those who have locks. -/
theorem Covered.commit (covered : s.Covered granule locks) (t : τ) :
    (s.commit t).Covered granule locks := by
  refine ⟨fun u b member => covered.reads u b (mem_log_abort member),
    fun u i v member => covered.writes u i v (mem_log_abort member), fun u => ?_⟩
  rcases eq_or_ne u t with rfl | different
  · rw [log_commit, log_abort_self]
    trivial
  · rw [log_commit, log_abort_of_ne different]
    refine (covered.legal u).congr fun b member => ?_
    exact (covered.view_of_unlocked fun writes =>
      different (locks.excludes writes (covered.reads u b member))).symm

theorem Serial.commit (serial : s.Serial initial) (covered : s.Covered granule locks) (t : τ) :
    (s.commit t).Serial initial := by
  have history : (s.commit t).history.flatten = s.history.flatten ++ s.log t := by
    rw [Schedule.commit, List.flatten_append, List.flatten_singleton]
  refine ⟨?_, ?_⟩
  · rw [history, legal_append]
    exact ⟨serial.legal, serial.store ▸ covered.legal t⟩
  · rw [history, effect_append, ← serial.store]
    rfl

end Schedule

end TwoPhase
