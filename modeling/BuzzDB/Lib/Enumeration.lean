import Mathlib.Data.List.Basic

/-!
# Resumable enumerations

An iterator with a call for the next element and a call that starts again, over an arbitrary state;
a call that does not return is `none`.  `cursor` is what the calls should show of a list: its elements
in order, then the end, which stays the end.

`Walks` ties the states of an iterator to the outcomes that lie ahead of it, one of which may be that the
call does not return.  Such an iterator enumerates a list exactly if the outcomes are its elements.
-/

namespace Enumeration

variable {σ α : Type*}

/-- A call of the iterator. -/
inductive Call
  | next
  | reset

/-- What the calls show of a list, where `rest` lies ahead. -/
def cursor (all : List α) : List α → List Call → List (Option α)
  | _, [] => []
  | [], .next :: calls => none :: cursor all [] calls
  | x :: rest, .next :: calls => some x :: cursor all rest calls
  | _, .reset :: calls => cursor all all calls

variable (next : σ → Option (σ × Option α)) (reset : σ → σ)

/-- What the calls show of the iterator. -/
def results : σ → List Call → Option (List (Option α))
  | _, [] => some []
  | s, .next :: calls =>
    match next s with
    | some (s, x) => (results s calls).map (x :: ·)
    | none => none
  | s, .reset :: calls => results (reset s) calls

/-- The calls show the elements of the list, again behind every `reset`. -/
def Enumerates (s : σ) (xs : List α) : Prop :=
  ∀ calls, results next reset s calls = some (cursor xs xs calls)

/-- The states of the iterator, by the outcomes that lie ahead; `all` lies ahead of a new start. -/
structure Walks (Ahead : σ → List (Option α) → Prop) (all : List (Option α)) : Prop where
  found : ∀ s x rest, Ahead s (some x :: rest) → ∃ s', next s = some (s', some x) ∧ Ahead s' rest
  stuck : ∀ s rest, Ahead s (none :: rest) → next s = none
  ended : ∀ s, Ahead s [] → ∃ s', next s = some (s', none) ∧ Ahead s' []
  restart : ∀ s rest, Ahead s rest → Ahead (reset s) all

variable {next reset} {Ahead : σ → List (Option α) → Prop} {all outcomes : List (Option α)} {s : σ}
  {xs rest : List α}

theorem results_next {s' : σ} {x : Option α} (calls : List Call) (stepped : next s = some (s', x)) :
    results next reset s (.next :: calls) = (results next reset s' calls).map (x :: ·) := by
  rw [results, stepped]

theorem Walks.results_eq (walks : Walks next reset Ahead (xs.map some))
    (ahead : Ahead s (rest.map some)) (calls : List Call) :
    results next reset s calls = some (cursor xs rest calls) := by
  induction calls generalizing s rest with
  | nil => cases rest <;> rfl
  | cons call calls ih =>
    cases call with
    | next =>
      cases rest with
      | nil =>
        obtain ⟨s', stepped, ahead'⟩ := walks.ended s ahead
        have later : results next reset s' calls = some (cursor xs [] calls) := ih ahead'
        rw [results_next calls stepped, later]
        rfl
      | cons x rest =>
        obtain ⟨s', stepped, ahead'⟩ := walks.found s x _ ahead
        rw [results_next calls stepped, ih ahead']
        rfl
    | reset =>
      have again := ih (walks.restart s _ ahead)
      cases rest <;> exact again

/-- Outcomes that show as a list are its elements. -/
theorem Walks.outcomes_eq (walks : Walks next reset Ahead all) (ahead : Ahead s outcomes)
    (shows : ∀ n, results next reset s (List.replicate n .next) =
      some (cursor xs rest (List.replicate n .next))) : outcomes = rest.map some := by
  induction outcomes generalizing s rest with
  | nil =>
    obtain ⟨s', stepped, _⟩ := walks.ended s ahead
    have first := shows 1
    rw [List.replicate_one, results_next [] stepped] at first
    cases rest with
    | nil => rfl
    | cons x rest => cases first
  | cons outcome outcomes ih =>
    cases outcome with
    | none =>
      have first := shows 1
      rw [List.replicate_one, results, walks.stuck s outcomes ahead] at first
      cases first
    | some y =>
      obtain ⟨s', stepped, ahead'⟩ := walks.found s y outcomes ahead
      have first := shows 1
      rw [List.replicate_one, results_next [] stepped] at first
      cases rest with
      | nil => cases first
      | cons x rest =>
        cases first
        rw [List.map_cons, ← ih ahead' fun n => ?_]
        have later := shows (n + 1)
        rw [List.replicate_succ, results_next _ stepped] at later
        obtain ⟨shown, isShown, same⟩ := Option.map_eq_some_iff.mp later
        rw [isShown]
        exact congrArg some (List.cons_eq_cons.mp same).2

/-- The iterator enumerates a list exactly if the outcomes ahead are its elements. -/
theorem Walks.enumerates_iff (walks : Walks next reset Ahead outcomes) (ahead : Ahead s outcomes) :
    Enumerates next reset s xs ↔ outcomes = xs.map some := by
  constructor
  · intro enumerates
    exact walks.outcomes_eq ahead fun n => enumerates (List.replicate n .next)
  · intro same calls
    subst same
    exact walks.results_eq ahead calls

end Enumeration
