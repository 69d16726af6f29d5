import Mathlib.Data.List.Induction
import Mathlib.Data.Set.Insert
import Mathlib.Logic.Relation

/-!
# Paths that avoid a set

`Leads` is reachability by a path that leaves no place of a set.  A search that marks the places
of its own path looks for such paths: `Leads.insert` is its step, and `Leads.first` says
that a path to a goal can stop when it comes to the goal.  `Acyclic.new_edges` keeps a graph
acyclic while the edges of one place are replaced.  `tryEach` is the loop of such a search: it
goes over the edges of a place in a state that a branch without result gives back.
-/

namespace Paths

open Relation

variable {α : Type*} {r r' : α → α → Prop} {visited : Set α} {a b x goal : α}

/-- A step from a place that is not in the set. -/
def Avoids (r : α → α → Prop) (visited : Set α) (x y : α) : Prop := x ∉ visited ∧ r x y

/-- A path to the goal that leaves no place of the set. -/
def Leads (r : α → α → Prop) (visited : Set α) : α → α → Prop := ReflTransGen (Avoids r visited)

/-- There is no way back. -/
def Acyclic (r : α → α → Prop) : Prop := ∀ x, ¬ TransGen r x x

theorem Leads.refl (x : α) : Leads r visited x x := ReflTransGen.refl

theorem Leads.cons (fresh : x ∉ visited) (edge : r x a) (leads : Leads r visited a goal) :
    Leads r visited x goal := ReflTransGen.head ⟨fresh, edge⟩ leads

/-- No path leaves a visited place. -/
theorem Leads.of_mem (leads : Leads r visited x goal) (member : x ∈ visited) : x = goal := by
  rcases ReflTransGen.cases_head leads with same | ⟨y, step, _⟩
  · exact same
  · exact absurd member step.1

/-- A path leaves a further place at most once, or can be begun behind it. -/
theorem Leads.insert (leads : Leads r visited x goal) (a : α) :
    Leads r (insert a visited) x goal ∨ ∃ y, r a y ∧ Leads r (insert a visited) y goal := by
  induction leads using ReflTransGen.head_induction_on with
  | refl => exact Or.inl (Leads.refl goal)
  | head step _ ih =>
    rename_i x y _
    rcases ih with direct | behind
    · by_cases same : x = a
      · exact Or.inr ⟨y, same ▸ step.2, direct⟩
      · refine Or.inl (Leads.cons (fun member => ?_) step.2 direct)
        exact (Set.mem_insert_iff.mp member).elim same step.1
    · exact Or.inr behind

/-- A path to the goal can stop at the goal. -/
theorem Leads.first (path : ReflTransGen r x goal) : Leads r {goal} x goal := by
  induction path using ReflTransGen.head_induction_on with
  | refl => exact Leads.refl goal
  | head step _ ih =>
    rename_i x y _
    by_cases same : x = goal
    · rw [same]
      exact Leads.refl goal
    · exact Leads.cons same step ih

/-- Only the edges of the places that a path leaves count. -/
theorem Leads.congr (same : ∀ x, x ∉ visited → ∀ y, r x y → r' x y)
    (leads : Leads r visited x goal) : Leads r' visited x goal :=
  ReflTransGen.mono (fun x y step => ⟨step.1, same x step.1 y step.2⟩) x goal leads

/-- A cycle either avoids a place or goes over one of its edges. -/
theorem avoids_or_through (path : TransGen r a b) (x : α) :
    TransGen (Avoids r {x}) a b ∨ ∃ y, r x y ∧ ReflTransGen r a x ∧ ReflTransGen r y b := by
  have step : ∀ {c d}, r c d → Avoids r {x} c d ∨ c = x := fun {c d} edge => by
    by_cases same : c = x
    · exact Or.inr same
    · exact Or.inl ⟨same, edge⟩
  induction path with
  | single edge =>
    rcases step edge with avoids | rfl
    · exact Or.inl (.single avoids)
    · exact Or.inr ⟨_, edge, .refl, .refl⟩
  | tail before edge ih =>
    rcases ih with avoids | ⟨y, out, reaches, back⟩
    · rcases step edge with avoids' | rfl
      · exact Or.inl (avoids.tail avoids')
      · exact Or.inr ⟨_, edge, before.to_reflTransGen, .refl⟩
    · exact Or.inr ⟨y, out, reaches, back.tail edge⟩

/-- The edges of one place are replaced by edges from which no path leads back. -/
theorem Acyclic.new_edges (acyclic : Acyclic r) (others : ∀ y, y ≠ x → ∀ z, r' y z → r y z)
    (noWayBack : ∀ y, r' x y → ¬ Leads r {x} y x) : Acyclic r' := by
  intro y cycle
  rcases avoids_or_through cycle x with avoids | ⟨z, edge, reaches, back⟩
  · exact acyclic y (TransGen.mono (fun c d step => others c step.1 d step.2) y y avoids)
  · refine noWayBack z edge ?_
    exact (Leads.first (back.trans reaches)).congr fun c fresh d edge => others c fresh d edge

theorem Acyclic.mono (acyclic : Acyclic r) (fewer : ∀ x y, r' x y → r x y) : Acyclic r' :=
  fun x cycle => acyclic x (TransGen.mono fewer x x cycle)

/-! ## Searches -/

section TryEach

variable {σ : Type*} {f : α → σ → Bool × σ} {P : σ → Prop} {state : σ} {candidates : List α}

/-- A search that goes on with the next candidate as long as it has found nothing. -/
def tryEach (f : α → σ → Bool × σ) (candidates : List α) (state : σ) : Bool × σ :=
  candidates.foldl (fun state a => if state.1 then state else f a state.2) (false, state)

theorem tryEach_append (front : List α) (a : α) :
    tryEach f (front ++ [a]) state =
      if (tryEach f front state).1 then tryEach f front state
      else f a (tryEach f front state).2 := by
  rw [tryEach, List.foldl_append, List.foldl_cons, List.foldl_nil, ← tryEach]

/-- Whether a search has found something, when it gives its state back. -/
theorem found_of_ite (found : Bool) (state state' : σ) :
    (if found then (true, state) else (false, state')).1 = found := by
  cases found <;> rfl

/-- Each candidate is tried in a state that has the invariant, and the search ends as the first
candidate that finds something. -/
theorem tryEach_spec (start : P state)
    (restores : ∀ a ∈ candidates, ∀ state, P state → (f a state).1 = false → P (f a state).2) :
    ((tryEach f candidates state).1 = true →
        ∃ a ∈ candidates, ∃ state', P state' ∧ tryEach f candidates state = f a state') ∧
      ((tryEach f candidates state).1 = false → P (tryEach f candidates state).2 ∧
        ∀ a ∈ candidates, ∃ state, P state ∧ (f a state).1 = false) := by
  induction candidates using List.reverseRecOn with
  | nil =>
    refine ⟨fun impossible => (by cases impossible), fun _ => ⟨start, fun a absent => ?_⟩⟩
    exact absurd absent List.not_mem_nil
  | append_singleton front a ih =>
    obtain ⟨found, notFound⟩ := ih fun b member => restores b (List.mem_append_left _ member)
    have here : a ∈ front ++ [a] := List.mem_append_right _ (List.mem_singleton_self a)
    rw [tryEach_append]
    split
    · rename_i already
      refine ⟨fun _ => ?_, fun impossible => ?_⟩
      · obtain ⟨b, member, state', invariant, same⟩ := found already
        exact ⟨b, List.mem_append_left _ member, state', invariant, same⟩
      · rw [already] at impossible
        cases impossible
    · rename_i notYet
      obtain ⟨invariant, before⟩ := notFound (Bool.eq_false_iff.mpr notYet)
      refine ⟨fun _ => ⟨a, here, _, invariant, rfl⟩, fun fails => ?_⟩
      refine ⟨restores a here _ invariant fails, fun b member => ?_⟩
      rcases List.mem_append.mp member with old | new
      · exact before b old
      · rw [List.mem_singleton.mp new]
        exact ⟨_, invariant, fails⟩

/-- The search as a loop over calls that may not return. -/
def tryEachWithin (g : α → σ → Option (Bool × σ)) (candidates : List α) (state : σ) :
    Option (Bool × σ) :=
  candidates.foldlM (fun state a => if state.1 then some state else g a state.2) (false, state)

/-- If every candidate's call returns, the loop does. -/
theorem tryEachWithin_eq {g : α → σ → Option (Bool × σ)} (start : P state)
    (restores : ∀ a ∈ candidates, ∀ state, P state → (f a state).1 = false → P (f a state).2)
    (returns : ∀ a ∈ candidates, ∀ state, P state → g a state = some (f a state)) :
    tryEachWithin g candidates state = some (tryEach f candidates state) := by
  induction candidates using List.reverseRecOn with
  | nil => rfl
  | append_singleton front a ih =>
    have here : a ∈ front ++ [a] := List.mem_append_right _ (List.mem_singleton_self a)
    have inFront : ∀ b ∈ front, b ∈ front ++ [a] := fun b member => List.mem_append_left _ member
    have spec := tryEach_spec start fun b member => restores b (inFront b member)
    have front_eq := ih (fun b member => restores b (inFront b member))
      fun b member => returns b (inFront b member)
    rw [tryEachWithin] at front_eq ⊢
    rw [List.foldlM_append, front_eq, tryEach_append]
    cases found : (tryEach f front state).1 with
    | true => simp [found]
    | false => simp [found, returns a here _ (spec.2 found).1]

/-- A loop whose calls return goes on returning when they are given more. -/
theorem tryEachWithin_mono {g g' : α → σ → Option (Bool × σ)} {result : Bool × σ}
    (more : ∀ a state result, g a state = some result → g' a state = some result)
    (returns : tryEachWithin g candidates state = some result) :
    tryEachWithin g' candidates state = some result := by
  induction candidates using List.reverseRecOn generalizing result with
  | nil => exact returns
  | append_singleton front a ih =>
    rw [tryEachWithin, List.foldlM_append] at returns ⊢
    obtain ⟨mid, first, last⟩ := Option.bind_eq_some_iff.mp returns
    refine Option.bind_eq_some_iff.mpr ⟨mid, ih first, ?_⟩
    simp only [List.foldlM_cons, List.foldlM_nil, bind_pure] at last ⊢
    split at last
    · rename_i found
      rw [if_pos found]
      exact last
    · rename_i notFound
      rw [if_neg notFound]
      exact more a mid.2 result last

end TryEach

end Paths
