import Mathlib.Logic.Function.Basic
import Mathlib.Data.List.Basic

/-!
# Write-back caches

A cache over a durable store, as what it says of each key: the contents that are resident,
with a mark for those that were modified since they were last in agreement with the store,
and the contents that are durable.  There is no capacity: `loads` only counts how many
contents have been brought in.

Readers see the resident contents of a key and, where it has none, the durable ones.
`view` is that, and it is what all operations can be described by.
-/

/-- The resident contents of a key. -/
structure Cache.Entry (β : Type*) where
  contents : β
  modified : Bool

/-- A cache over a store. -/
structure Cache (κ β : Type*) where
  resident : κ → Option (Cache.Entry β)
  durable : κ → β
  loads : Nat

namespace Cache

variable {κ β : Type*} [DecidableEq κ]

/-- The operations: `flush` and `discard` are of the keys that they cover. -/
inductive Op (κ β : Type*)
  | fix (key : κ)
  | modify (key : κ) (change : β → β)
  | flush (covers : κ → Bool)
  | discard (covers : κ → Bool)

/-- Nothing resident. -/
def new (durable : κ → β) : Cache κ β := ⟨fun _ => none, durable, 0⟩

/-- What a reader of a key sees. -/
def view (c : Cache κ β) (key : κ) : β :=
  match c.resident key with
  | some entry => entry.contents
  | none => c.durable key

/-- Bring the durable contents of a key in, unless it has resident ones. -/
def fix (c : Cache κ β) (key : κ) : Cache κ β :=
  match c.resident key with
  | some _ => c
  | none =>
    { c with
      resident := Function.update c.resident key (some ⟨c.durable key, false⟩)
      loads := c.loads + 1 }

/-- Change the resident contents of a key. -/
def modify (c : Cache κ β) (key : κ) (change : β → β) : Cache κ β :=
  { c with
    resident := Function.update c.resident key
      ((c.resident key).map fun entry => ⟨change entry.contents, true⟩) }

/-- Make the modified contents of the covered keys durable. -/
def flush (c : Cache κ β) (covers : κ → Bool) : Cache κ β where
  resident key :=
    if covers key then (c.resident key).map fun entry => { entry with modified := false }
    else c.resident key
  durable key :=
    match c.resident key with
    | some ⟨contents, true⟩ => if covers key then contents else c.durable key
    | _ => c.durable key
  loads := c.loads

/-- Drop the resident contents of the covered keys. -/
def discard (c : Cache κ β) (covers : κ → Bool) : Cache κ β :=
  { c with resident := fun key => if covers key then none else c.resident key }

/-- One operation. -/
def step (c : Cache κ β) : Op κ β → Cache κ β
  | .fix key => c.fix key
  | .modify key change => c.modify key change
  | .flush covers => c.flush covers
  | .discard covers => c.discard covers

/-- Contents without the mark are the durable ones. -/
def Coherent (c : Cache κ β) : Prop :=
  ∀ key entry, c.resident key = some entry → entry.modified = false → entry.contents = c.durable key

variable {c : Cache κ β} {key other : κ} {change : β → β} {covers : κ → Bool} {entry : Entry β}

omit [DecidableEq κ] in
theorem view_of_resident (found : c.resident key = some entry) : c.view key = entry.contents := by
  rw [view, found]

omit [DecidableEq κ] in
theorem view_of_missing (missing : c.resident key = none) : c.view key = c.durable key := by
  rw [view, missing]

omit [DecidableEq κ] in
theorem Coherent.new (durable : κ → β) : (Cache.new durable).Coherent :=
  fun _ _ impossible => by cases impossible

/-! ## Bringing in -/

theorem fix_resident (found : c.resident key = some entry) : c.fix key = c := by
  rw [fix, found]

theorem resident_fix_self (missing : c.resident key = none) :
    (c.fix key).resident key = some ⟨c.durable key, false⟩ := by
  rw [fix, missing]
  exact Function.update_self _ _ _

theorem resident_fix_of_ne (different : other ≠ key) :
    (c.fix key).resident other = c.resident other := by
  unfold fix
  split
  · rfl
  · exact Function.update_of_ne different _ _

theorem durable_fix (c : Cache κ β) (key : κ) : (c.fix key).durable = c.durable := by
  unfold fix
  split <;> rfl

theorem isSome_fix : ((c.fix key).resident other).isSome ↔ (c.resident other).isSome ∨ other = key := by
  rcases eq_or_ne other key with rfl | different
  · cases found : c.resident other with
    | some entry =>
      rw [fix_resident found, found]
      simp
    | none =>
      rw [resident_fix_self found]
      simp
  · rw [resident_fix_of_ne different]
    simp [different]

/-- Bringing a key in changes nothing for a reader. -/
theorem view_fix (c : Cache κ β) (key other : κ) : (c.fix key).view other = c.view other := by
  cases found : c.resident key with
  | some entry => rw [fix_resident found]
  | none =>
    rcases eq_or_ne other key with rfl | different
    · rw [view_of_resident (resident_fix_self found), view_of_missing found]
    · rw [view, view, resident_fix_of_ne different, durable_fix]

theorem Coherent.fix (coherent : c.Coherent) (key : κ) : (c.fix key).Coherent := by
  intro other entry found unmodified
  rw [durable_fix]
  cases before : c.resident key with
  | some old =>
    rw [fix_resident before] at found
    exact coherent other entry found unmodified
  | none =>
    rcases eq_or_ne other key with rfl | different
    · rw [resident_fix_self before, Option.some.injEq] at found
      rw [← found]
    · rw [resident_fix_of_ne different] at found
      exact coherent other entry found unmodified

/-! ## Changing -/

theorem isSome_modify :
    ((c.modify key change).resident other).isSome = (c.resident other).isSome := by
  change (Function.update c.resident key _ other).isSome = _
  rcases eq_or_ne other key with rfl | different
  · rw [Function.update_self, Option.isSome_map]
  · rw [Function.update_of_ne different]

/-- A change of resident contents. -/
theorem view_modify (found : c.resident key = some entry) (change : β → β) (other : κ) :
    (c.modify key change).view other = if other = key then change (c.view key) else c.view other := by
  rcases eq_or_ne other key with rfl | different
  · have changed : (c.modify other change).resident other = some ⟨change entry.contents, true⟩ := by
      change Function.update c.resident other _ other = _
      rw [Function.update_self, found, Option.map_some]
    rw [if_pos rfl, view_of_resident changed, view_of_resident found]
  · have same : (c.modify key change).resident other = c.resident other :=
      Function.update_of_ne different _ _
    rw [if_neg different, view, view, same]
    rfl

theorem Coherent.modify (coherent : c.Coherent) (key : κ) (change : β → β) :
    (c.modify key change).Coherent := by
  intro other entry found unmodified
  change Function.update c.resident key _ other = some entry at found
  rcases eq_or_ne other key with rfl | different
  · rw [Function.update_self] at found
    obtain ⟨old, _, rfl⟩ := Option.map_eq_some_iff.mp found
    cases unmodified
  · rw [Function.update_of_ne different] at found
    exact coherent other entry found unmodified

/-! ## Flushing -/

omit [DecidableEq κ] in
theorem isSome_flush (c : Cache κ β) (covers : κ → Bool) (key : κ) :
    ((c.flush covers).resident key).isSome = (c.resident key).isSome := by
  change (if covers key then _ else _ : Option (Entry β)).isSome = _
  split
  · rw [Option.isSome_map]
  · rfl

omit [DecidableEq κ] in
/-- Behind a flush the store has of the covered keys what readers see. -/
theorem durable_flush (coherent : c.Coherent) (covers : κ → Bool) (key : κ) :
    (c.flush covers).durable key = if covers key then c.view key else c.durable key := by
  cases found : c.resident key with
  | none =>
    have same : (c.flush covers).durable key = c.durable key := by simp only [flush, found]
    rw [same, view_of_missing found, ite_self]
  | some entry =>
    obtain ⟨contents, modified⟩ := entry
    rw [view_of_resident found]
    cases modified with
    | true => simp only [flush, found]
    | false =>
      have same : (c.flush covers).durable key = c.durable key := by simp only [flush, found]
      rw [same, ← coherent key _ found rfl, ite_self]

omit [DecidableEq κ] in
/-- A flush changes nothing for a reader. -/
theorem view_flush (c : Cache κ β) (covers : κ → Bool) (key : κ) :
    (c.flush covers).view key = c.view key := by
  cases found : c.resident key with
  | none =>
    have missing : (c.flush covers).resident key = none := by
      change (if covers key then _ else _ : Option (Entry β)) = none
      rw [found, Option.map_none, ite_self]
    rw [view_of_missing missing, view_of_missing found]
    simp only [flush, found]
  | some entry =>
    rw [view_of_resident found]
    by_cases covered : covers key = true
    · have unmarked : (c.flush covers).resident key = some { entry with modified := false } := by
        change (if covers key then _ else _ : Option (Entry β)) = _
        rw [if_pos covered, found, Option.map_some]
      rw [view_of_resident unmarked]
    · apply view_of_resident
      change (if covers key then _ else _ : Option (Entry β)) = _
      rw [if_neg covered, found]

omit [DecidableEq κ] in
theorem Coherent.flush (coherent : c.Coherent) (covers : κ → Bool) : (c.flush covers).Coherent := by
  intro key entry found unmodified
  rw [← view_of_resident found, view_flush, durable_flush coherent]
  split
  · rfl
  · rename_i uncovered
    change (if covers key then _ else _ : Option (Entry β)) = some entry at found
    rw [if_neg uncovered] at found
    rw [view_of_resident found]
    exact coherent key entry found unmodified

/-! ## Discarding -/

omit [DecidableEq κ] in
theorem isSome_discard (c : Cache κ β) (covers : κ → Bool) (key : κ) :
    ((c.discard covers).resident key).isSome ↔ (c.resident key).isSome ∧ ¬ covers key = true := by
  change (if covers key then none else c.resident key).isSome ↔ _
  split
  · rename_i covered
    simp [covered]
  · rename_i uncovered
    simp [uncovered]

omit [DecidableEq κ] in
/-- Behind a discard readers see of the covered keys what the store has. -/
theorem view_discard (c : Cache κ β) (covers : κ → Bool) (key : κ) :
    (c.discard covers).view key = if covers key then c.durable key else c.view key := by
  split
  · rename_i covered
    apply view_of_missing
    change (if covers key then none else c.resident key) = none
    rw [if_pos covered]
  · rename_i uncovered
    have same : (c.discard covers).resident key = c.resident key := by
      change (if covers key then none else c.resident key) = _
      rw [if_neg uncovered]
    rw [view, view, same]
    rfl

omit [DecidableEq κ] in
theorem Coherent.discard (coherent : c.Coherent) (covers : κ → Bool) :
    (c.discard covers).Coherent := by
  intro key entry found
  change (if covers key then none else c.resident key) = some entry at found
  split at found
  · cases found
  · exact coherent key entry found

/-! ## Runs -/

theorem loads_fix (c : Cache κ β) (key : κ) :
    (c.fix key).loads = if (c.resident key).isSome then c.loads else c.loads + 1 := by
  cases found : c.resident key with
  | some entry =>
    rw [fix_resident found]
    rfl
  | none => rw [fix, found]; rfl

theorem loads_step (c : Cache κ β) (op : Op κ β) : c.loads ≤ (c.step op).loads := by
  cases op with
  | fix key =>
    rw [step, loads_fix]
    split <;> omega
  | modify | flush | discard => exact Nat.le_refl _

/-- Nothing that was brought in is forgotten by the count. -/
theorem loads_foldl (c : Cache κ β) (ops : List (Op κ β)) : c.loads ≤ (ops.foldl step c).loads := by
  induction ops generalizing c with
  | nil => exact Nat.le_refl _
  | cons op ops ih => exact Nat.le_trans (c.loads_step op) (ih (c.step op))

end Cache
