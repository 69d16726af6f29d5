import Mathlib.Data.List.Basic

/-!
# Runs of a machine

A machine is a partial step function.  `Along` says that every step of a run meets a
condition on the state before it; an invariant that such steps preserve holds of
every state the run reaches.  `Always` says that a property holds of every state of a run.
-/

namespace Machine

variable {σ α : Type*} (step : σ → α → Option σ)

/-- A run, action by action. -/
def run (s : σ) (actions : List α) : Option σ := actions.foldlM step s

/-- Every step of the run from `s` meets the condition. -/
def Along (ok : σ → α → Prop) : σ → List α → Prop
  | _, [] => True
  | s, a :: rest => ok s a ∧ ∀ s', step s a = some s' → Along ok s' rest

instance instDecidableAlong (ok : σ → α → Prop) [∀ s a, Decidable (ok s a)] :
    ∀ (s : σ) (actions : List α), Decidable (Along step ok s actions)
  | _, [] => isTrue trivial
  | s, a :: rest =>
    match stepped : step s a with
    | none => decidable_of_iff (ok s a)
        ⟨fun meets => ⟨meets, fun _ other => by rw [stepped] at other; cases other⟩, And.left⟩
    | some s' =>
      have := instDecidableAlong ok s' rest
      decidable_of_iff (ok s a ∧ Along step ok s' rest)
        ⟨fun meets => ⟨meets.1, fun _ other => by
            rw [stepped] at other
            cases other
            exact meets.2⟩,
          fun meets => ⟨meets.1, meets.2 s' stepped⟩⟩

/-- Every state of the run from `s` has the property. -/
def Always (P : σ → Prop) : σ → List α → Prop
  | s, [] => P s
  | s, a :: rest => P s ∧ ∀ s', step s a = some s' → Always P s' rest

variable {step} {s s' : σ} {a : α} {actions : List α} {ok : σ → α → Prop} {P Q : σ → Prop}

theorem run_cons (ran : run step s (a :: actions) = some s') :
    ∃ mid, step s a = some mid ∧ run step mid actions = some s' := by
  rw [run, List.foldlM_cons] at ran
  exact Option.bind_eq_some_iff.mp ran

theorem run_append (s : σ) (front back : List α) :
    run step s (front ++ back) = (run step s front).bind fun mid => run step mid back :=
  List.foldlM_append

/-- The last action of a run. -/
theorem run_concat (ran : run step s (actions ++ [a]) = some s') :
    ∃ mid, run step s actions = some mid ∧ step mid a = some s' := by
  rw [run_append] at ran
  obtain ⟨mid, first, last⟩ := Option.bind_eq_some_iff.mp ran
  obtain ⟨next, stepped, rest⟩ := run_cons last
  cases rest
  exact ⟨mid, first, stepped⟩

/-- The invariant rule. -/
theorem invariant (preserved : ∀ s a s', P s → ok s a → step s a = some s' → P s') (holds : P s)
    (along : Along step ok s actions) (ran : run step s actions = some s') : P s' := by
  induction actions generalizing s with
  | nil =>
    cases ran
    exact holds
  | cons a actions ih =>
    obtain ⟨mid, stepped, rest⟩ := run_cons ran
    exact ih (preserved s a mid holds along.1 stepped) (along.2 mid stepped) rest

/-- The invariant rule where no step can break the invariant. -/
theorem reached (preserved : ∀ s a s', P s → step s a = some s' → P s') (holds : P s)
    (ran : run step s actions = some s') : P s' := by
  induction actions generalizing s with
  | nil =>
    cases ran
    exact holds
  | cons a actions ih =>
    obtain ⟨mid, stepped, rest⟩ := run_cons ran
    exact ih (preserved s a mid holds stepped) rest

/-- The invariant rule, for the states in between as well. -/
theorem always (preserved : ∀ s a s', P s → ok s a → step s a = some s' → P s')
    (implies : ∀ s, P s → Q s) (holds : P s) (along : Along step ok s actions) :
    Always step Q s actions := by
  induction actions generalizing s with
  | nil => exact implies s holds
  | cons a actions ih =>
    refine ⟨implies s holds, fun s' stepped => ?_⟩
    exact ih (preserved s a s' holds along.1 stepped) (along.2 s' stepped)

/-- What each step of a run meets, because the state before it has the invariant. -/
theorem along_of_invariant {ok' : σ → α → Prop}
    (preserved : ∀ s a s', P s → ok s a → step s a = some s' → P s')
    (implies : ∀ s a, P s → ok s a → ok' s a) (holds : P s) (along : Along step ok s actions) :
    Along step ok' s actions := by
  induction actions generalizing s with
  | nil => trivial
  | cons a actions ih =>
    refine ⟨implies s a holds along.1, fun s' stepped => ?_⟩
    exact ih (preserved s a s' holds along.1 stepped) (along.2 s' stepped)

/-- What each step of a run that gets through meets. -/
theorem along_of_run {ok' : σ → α → Prop}
    (preserved : ∀ s a s', P s → ok s a → step s a = some s' → P s')
    (implies : ∀ s a s', P s → ok s a → step s a = some s' → ok' s a) (holds : P s)
    (along : Along step ok s actions) (ran : run step s actions = some s') :
    Along step ok' s actions := by
  induction actions generalizing s with
  | nil => trivial
  | cons a actions ih =>
    obtain ⟨mid, stepped, rest⟩ := run_cons ran
    refine ⟨implies s a mid holds along.1 stepped, fun other same => ?_⟩
    cases stepped.symm.trans same
    exact ih (preserved s a mid holds along.1 stepped) (along.2 mid stepped) rest

/-- The last step of a run meets the condition. -/
theorem Along.last (along : Along step ok s (actions ++ [a])) (ran : run step s actions = some s') :
    ok s' a := by
  induction actions generalizing s with
  | nil =>
    cases ran
    exact along.1
  | cons b actions ih =>
    obtain ⟨mid, stepped, rest⟩ := run_cons ran
    exact ih (along.2 mid stepped) rest

/-- What is left of a run meets the condition. -/
theorem Along.behind {front back : List α} (along : Along step ok s (front ++ back))
    (ran : run step s front = some s') : Along step ok s' back := by
  induction front generalizing s with
  | nil =>
    cases ran
    exact along
  | cons a front ih =>
    obtain ⟨mid, stepped, rest⟩ := run_cons ran
    exact ih (along.2 mid stepped) rest

theorem Always.head (always : Always step P s actions) : P s := by
  cases actions with
  | nil => exact always
  | cons a actions => exact always.1

theorem Always.last (always : Always step P s actions) (ran : run step s actions = some s') : P s' := by
  induction actions generalizing s with
  | nil =>
    cases ran
    exact always
  | cons a actions ih =>
    obtain ⟨mid, stepped, rest⟩ := run_cons ran
    exact ih (always.2 mid stepped) rest

/-- A run whose steps are steps of another machine is one of its runs. -/
theorem run_project {τ β : Type*} {step' : τ → β → Option τ} {f : σ → τ} {g : α → β}
    (simulates : ∀ s a s', ok s a → step s a = some s' → step' (f s) (g a) = some (f s'))
    (along : Along step ok s actions) (ran : run step s actions = some s') :
    run step' (f s) (actions.map g) = some (f s') := by
  induction actions generalizing s with
  | nil =>
    cases ran
    rfl
  | cons a actions ih =>
    obtain ⟨mid, stepped, rest⟩ := run_cons ran
    have later := ih (along.2 mid stepped) rest
    rw [List.map_cons, run, List.foldlM_cons, simulates s a mid along.1 stepped]
    exact later

/-- A condition on the actions alone. -/
theorem along_of_forall {V : α → Prop} (all : ∀ a ∈ actions, V a) :
    Along step (fun _ a => V a) s actions := by
  induction actions generalizing s with
  | nil => trivial
  | cons a actions ih =>
    exact ⟨all a List.mem_cons_self, fun _ _ => ih fun b member => all b (List.mem_cons_of_mem a member)⟩

/-- A condition on the actions alone, along a run that gets through. -/
theorem along_iff_forall {V : α → Prop} (ran : run step s actions = some s') :
    Along step (fun _ a => V a) s actions ↔ ∀ a ∈ actions, V a := by
  refine ⟨fun along => ?_, along_of_forall⟩
  induction actions generalizing s with
  | nil => exact fun a absent => (List.not_mem_nil absent).elim
  | cons a actions ih =>
    obtain ⟨mid, stepped, rest⟩ := run_cons ran
    exact List.forall_mem_cons.mpr ⟨along.1, ih rest (along.2 mid stepped)⟩

theorem Along.and {ok' : σ → α → Prop} (along : Along step ok s actions)
    (along' : Along step ok' s actions) :
    Along step (fun s a => ok s a ∧ ok' s a) s actions := by
  induction actions generalizing s with
  | nil => trivial
  | cons a actions ih =>
    exact ⟨⟨along.1, along'.1⟩, fun s' stepped => ih (along.2 s' stepped) (along'.2 s' stepped)⟩

/-- Where every step lowers a rank, no run is longer than the rank. -/
theorem length_le_rank {V : α → Prop} (rank : σ → Nat)
    (lowers : ∀ s a s', P s → V a → step s a = some s' → P s' ∧ rank s' < rank s) (holds : P s)
    (domain : ∀ a ∈ actions, V a) (ran : run step s actions = some s') :
    P s' ∧ actions.length + rank s' ≤ rank s := by
  induction actions generalizing s with
  | nil =>
    cases ran
    exact ⟨holds, Nat.le_of_eq (Nat.zero_add _)⟩
  | cons a actions ih =>
    obtain ⟨mid, stepped, rest⟩ := run_cons ran
    obtain ⟨holds', less⟩ := lowers s a mid holds (domain a List.mem_cons_self) stepped
    obtain ⟨atEnd, shorter⟩ := ih holds' (fun b member => domain b (List.mem_cons_of_mem a member)) rest
    refine ⟨atEnd, ?_⟩
    rw [List.length_cons]
    omega

/-- Where a step that does not meet the condition breaks the property, the condition is the exact
one.  The actions are those of a domain `V`. -/
theorem always_iff_along_of {V : α → Prop}
    (preserved : ∀ s a s', V a → P s → ok s a → step s a = some s' → P s')
    (implies : ∀ s, P s → Q s)
    (broken : ∀ s a s', V a → P s → ¬ ok s a → step s a = some s' → ¬ Q s') (holds : P s)
    (domain : ∀ a ∈ actions, V a) (ran : run step s actions = some s') :
    Always step Q s actions ↔ Along step ok s actions := by
  induction actions generalizing s with
  | nil => exact ⟨fun _ => trivial, fun _ => implies s holds⟩
  | cons a actions ih =>
    obtain ⟨mid, stepped, rest⟩ := run_cons ran
    have inDomain := domain a List.mem_cons_self
    have only : ∀ other, step s a = some other → other = mid := fun other same =>
      (Option.some.inj (stepped.symm.trans same)).symm
    have later := fun holds : P mid =>
      ih holds (fun b member => domain b (List.mem_cons_of_mem a member)) rest
    constructor
    · intro all
      have first : ok s a := by_contra fun fails =>
        broken s a mid inDomain holds fails stepped (all.2 mid stepped).head
      refine ⟨first, fun other same => ?_⟩
      obtain rfl := only other same
      exact (later (preserved s a other inDomain holds first stepped)).mp (all.2 other stepped)
    · intro along
      refine ⟨implies s holds, fun other same => ?_⟩
      obtain rfl := only other same
      exact (later (preserved s a other inDomain holds along.1 stepped)).mpr (along.2 other stepped)

theorem always_iff_along (preserved : ∀ s a s', P s → ok s a → step s a = some s' → P s')
    (implies : ∀ s, P s → Q s)
    (broken : ∀ s a s', P s → ¬ ok s a → step s a = some s' → ¬ Q s') (holds : P s)
    (ran : run step s actions = some s') :
    Always step Q s actions ↔ Along step ok s actions :=
  always_iff_along_of (fun s a s' _ => preserved s a s') implies
    (fun s a s' _ => broken s a s') holds (fun _ _ => trivial) ran

/-- The same where the domain depends on the state. -/
theorem always_iff_along_within {V : σ → α → Prop}
    (preserved : ∀ s a s', V s a → P s → ok s a → step s a = some s' → P s')
    (implies : ∀ s, P s → Q s)
    (broken : ∀ s a s', V s a → P s → ¬ ok s a → step s a = some s' → ¬ Q s') (holds : P s)
    (domain : Along step V s actions) (ran : run step s actions = some s') :
    Always step Q s actions ↔ Along step ok s actions := by
  induction actions generalizing s with
  | nil => exact ⟨fun _ => trivial, fun _ => implies s holds⟩
  | cons a actions ih =>
    obtain ⟨mid, stepped, rest⟩ := run_cons ran
    have only : ∀ other, step s a = some other → other = mid := fun other same =>
      (Option.some.inj (stepped.symm.trans same)).symm
    have later := fun holds : P mid => ih holds (domain.2 mid stepped) rest
    constructor
    · intro all
      have first : ok s a := by_contra fun fails =>
        broken s a mid domain.1 holds fails stepped (all.2 mid stepped).head
      refine ⟨first, fun other same => ?_⟩
      obtain rfl := only other same
      exact (later (preserved s a other domain.1 holds first stepped)).mp (all.2 other stepped)
    · intro along
      refine ⟨implies s holds, fun other same => ?_⟩
      obtain rfl := only other same
      exact (later (preserved s a other domain.1 holds along.1 stepped)).mpr (along.2 other stepped)

/-- Where a step that does not meet the condition loses the property `Q` for good, the condition is the
exact one.  The steps are those of a domain `V`. -/
theorem iff_along_of_lasting {V : σ → α → Prop} {B : σ → Prop}
    (preserved : ∀ s a s', P s → V s a → ok s a → step s a = some s' → P s')
    (broken : ∀ s a s', P s → V s a → ¬ ok s a → step s a = some s' → B s')
    (lasting : ∀ s a s', B s → V s a → step s a = some s' → B s')
    (implies : ∀ s, P s → Q s) (excludes : ∀ s, B s → ¬ Q s) (holds : P s)
    (domain : Along step V s actions) (ran : run step s actions = some s') :
    Q s' ↔ Along step ok s actions := by
  induction actions generalizing s with
  | nil =>
    cases ran
    exact ⟨fun _ => trivial, fun _ => implies _ holds⟩
  | cons a actions ih =>
    obtain ⟨mid, stepped, rest⟩ := run_cons ran
    have domain' := domain.2 mid stepped
    have only : ∀ other, step s a = some other → other = mid := fun other same =>
      (Option.some.inj (stepped.symm.trans same)).symm
    constructor
    · intro kept
      have first : ok s a := by
        by_contra fails
        have lost := broken s a mid holds domain.1 fails stepped
        exact excludes s' (invariant lasting lost domain' rest) kept
      refine ⟨first, fun other same => ?_⟩
      obtain rfl := only other same
      exact (ih (preserved s a other holds domain.1 first stepped) domain' rest).mp kept
    · intro along
      exact (ih (preserved s a mid holds domain.1 along.1 stepped) domain' rest).mpr
        (along.2 mid stepped)

end Machine
