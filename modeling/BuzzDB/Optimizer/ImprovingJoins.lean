import BuzzDB.Optimizer.PlanCosts

/-!
# Connected joins that are all kept

A candidate for the last join of a set is one that can be put behind the plan for the others.  As long
as each candidate of each set is strictly cheaper than the one before it, no unset card is taken, and
the plan for a set has the last candidate last: a recursion on the input.  Connected joins have a
left-deep order, so each set on the way to it has a candidate, and `order_joins` loses no join.

If only the candidates of the whole set do not improve, there is something that unset cards can hold
with which it loses all of them.
-/

namespace BuzzDB.Optimizer

open Double

section Plans

variable {D : Type} [Double D] {input : Statistics D} {uninit : Uninitialized D} {pc : PlanCache D}
  {planned planned' : JoinSet → CostCard D} {s : JoinSet} {σ : Sides D} {j : LogicalJoinNode} {best : D}
  {card : CostCard D} {order front : List LogicalJoinNode}

/-! ## The last candidate -/

/-- The card for the cheaper orientation of the join. -/
def Sides.cheaper (σ : Sides D) (j : LogicalJoinNode) : CostCard D :=
  let (_, t1Card, leftPkey) := σ.t1
  let (_, t2Card, rightPkey) := σ.t2
  let j2 := j.swapInnerOuter
  if lt (σ.costs j).1 (σ.costs j).2 then
    ⟨(σ.costs j).1, estimateJoinCardinality D j t1Card t2Card leftPkey rightPkey, σ.prevBest ++ [j]⟩
  else
    ⟨(σ.costs j).2, estimateJoinCardinality D j2 t2Card t1Card rightPkey leftPkey, σ.prevBest ++ [j2]⟩

theorem cheaper_mem_cards (σ : Sides D) (j : LogicalJoinNode) : σ.cheaper j ∈ σ.cards j := by
  unfold Sides.cheaper Sides.cards
  dsimp only
  split
  · exact List.mem_cons_self
  · exact List.mem_cons_of_mem _ List.mem_cons_self

theorem choose_eq (σ : Sides D) (j : LogicalJoinNode) (best : D) :
    σ.choose j best = if lt (σ.cheaper j).cost best then some (σ.cheaper j) else none := by
  unfold Sides.choose Sides.cheaper
  dsimp only
  split <;> rfl

theorem improves_iff_cheaper : σ.Improves j best ↔ lt (σ.cheaper j).cost best = true := by
  rw [← choose_isSome, choose_eq]
  split <;> simp [*]

variable (input planned s j) in
/-- The two sides if the join comes last, behind the plan for the others. -/
def lastSides : Option (Sides D) :=
  if s.erase j = [] then behind input j (noJoins D)
  else if (planned (s.erase j)).plan = [] then none
  else behind input j (planned (s.erase j))

variable (input planned s) in
/-- What the candidates for the last join of the set make of the plans for the others. -/
def candidates : List (CostCard D) :=
  s.filterMap fun j => (lastSides input planned s j).map fun σ => σ.cheaper j

variable (input) in
/-- The plan for a set of the size, with its last candidate last. -/
def lastPlan : Nat → JoinSet → CostCard D
  | 0, _ => noJoins D
  | size + 1, s => (candidates input (lastPlan size) s).getLast?.getD (noJoins D)

variable (input s) in
/-- The plan for the set, with its last candidate last. -/
def planOf : CostCard D := lastPlan input s.length s

variable (input s) in
/-- Each candidate of the set is strictly cheaper than the one before it, and the first one than
`DBL_MAX`. -/
def Improving : Prop :=
  (dblMax :: (candidates input (planOf input) s).map CostCard.cost).IsChain fun before cost =>
    lt cost before = true

instance : Decidable (Improving input s) := inferInstanceAs (Decidable (List.IsChain _ _))

theorem candidates_congr (same : ∀ j ∈ s, planned (s.erase j) = planned' (s.erase j)) :
    candidates input planned s = candidates input planned' s := by
  refine List.filterMap_congr fun j member => ?_
  rw [lastSides, lastSides, same j member]

theorem length_erase (nodup : s.keys.Nodup) (member : j ∈ s) : (s.erase j).length + 1 = s.length := by
  have length := (erase_append_perm nodup member).length_eq
  rwa [List.length_append, List.length_singleton] at length

/-- The recursion, without the sizes. -/
theorem planOf_eq (nodup : s.keys.Nodup) (nonempty : s ≠ []) :
    planOf input s = (candidates input (planOf input) s).getLast?.getD (noJoins D) := by
  obtain ⟨size, isSize⟩ := Nat.exists_eq_succ_of_ne_zero
    (Nat.ne_of_gt (List.length_pos_iff.mpr nonempty))
  have same : candidates input (lastPlan input size) s = candidates input (planOf input) s := by
    refine candidates_congr fun j member => ?_
    have length := length_erase nodup member
    have isRest : (s.erase j).length = size := by omega
    rw [planOf, isRest]
  rw [planOf, isSize, Nat.succ_eq_add_one, lastPlan, same]

theorem mem_candidates : card ∈ candidates input planned s ↔
    ∃ j ∈ s, ∃ σ, lastSides input planned s j = some σ ∧ σ.cheaper j = card := by
  unfold candidates
  rw [List.mem_filterMap]
  refine exists_congr fun j => and_congr_right fun _ => ?_
  rw [Option.map_eq_some_iff]

/-- Behind a candidate there is a plan. -/
theorem plan_of_mem_candidates (member : card ∈ candidates input planned s) : card.plan ≠ [] := by
  obtain ⟨j, -, σ, -, rfl⟩ := mem_candidates.mp member
  obtain ⟨r, -, plan⟩ := plan_of_mem_cards (cheaper_mem_cards σ j)
  rw [plan]
  simp

variable (input) in
/-- The plan is one of the candidates, if there are any. -/
theorem planOf_cases (nodup : s.keys.Nodup) (nonempty : s ≠ []) :
    planOf input s = noJoins D ∧ candidates input (planOf input) s = [] ∨
      planOf input s ∈ candidates input (planOf input) s := by
  rw [planOf_eq nodup nonempty]
  cases last : (candidates input (planOf input) s).getLast? with
  | none => exact Or.inl ⟨rfl, List.getLast?_eq_none_iff.mp last⟩
  | some card => exact Or.inr (List.mem_of_getLast? last)

/-! ## Sets that have a plan -/

theorem JoinSet.nodup_erase (nodup : s.keys.Nodup) (j : LogicalJoinNode) : (s.erase j).keys.Nodup :=
  nodup.sublist (List.filter_sublist.map LogicalJoinNode.key)

/-- The plan for a set executes its joins. -/
theorem planOf_executes (nodup : s.keys.Nodup) (planned : (planOf input s).plan ≠ []) :
    ∃ order, List.Perm order s ∧ Executes input order (planOf input s) := by
  induction isLength : s.length generalizing s with
  | zero =>
    rw [List.eq_nil_of_length_eq_zero isLength] at planned
    exact absurd rfl planned
  | succ size ih =>
    have nonempty : s ≠ [] := by
      rintro rfl
      cases isLength
    rcases planOf_cases input nodup nonempty with ⟨nothing, -⟩ | member
    · rw [nothing] at planned
      exact absurd rfl planned
    obtain ⟨j, inside, σ, found, isPlan⟩ := mem_candidates.mp member
    have isCard : planOf input s ∈ σ.cards j := isPlan ▸ cheaper_mem_cards σ j
    have perm := erase_append_perm nodup inside
    unfold lastSides at found
    split at found
    · rename_i alone
      rw [alone] at perm
      exact ⟨[] ++ [j], perm, .join .nothing found isCard⟩
    · split at found
      · cases found
      · rename_i restPlanned
        have length := length_erase nodup inside
        obtain ⟨order, restPerm, executes⟩ :=
          ih (s := s.erase j) (s.nodup_erase nodup j) restPlanned (by omega)
        exact ⟨order ++ [j], (restPerm.append_right [j]).trans perm, .join executes found isCard⟩

/-- A join that shares a table with a plan can be put behind it. -/
theorem behind_isSome {card : CostCard D}
    (shares : doesJoin card.plan j.leftTable = true ∨ doesJoin card.plan j.rightTable = true) :
    (behind input j card).isSome := by
  unfold behind
  dsimp only
  split
  · rfl
  · split
    · rfl
    · rename_i notLeft
      rw [if_pos (shares.resolve_left notLeft)]
      rfl

/-- Joins in a left-deep order have a plan. -/
theorem planOf_of_leftDeep (nodup : s.keys.Nodup) (perm : order.Perm s) (deep : LeftDeep order)
    (nonempty : s ≠ []) : (planOf input s).plan ≠ [] := by
  induction order using List.reverseRecOn generalizing s with
  | nil => exact absurd (List.nil_perm.mp perm) nonempty
  | append_singleton front j ih =>
    have inside : j ∈ s := perm.mem_iff.mp (List.mem_append_right _ (List.mem_singleton_self j))
    have restPerm : front.Perm (s.erase j) :=
      (List.perm_append_right_iff [j]).mp (perm.trans (erase_append_perm nodup inside).symm)
    obtain ⟨frontDeep, shares⟩ := leftDeep_concat.mp deep
    have found : (lastSides input (planOf input) s j).isSome := by
      unfold lastSides
      split
      · rfl
      · rename_i rest
        have planned : (planOf input (s.erase j)).plan ≠ [] :=
          ih (s := s.erase j) (s.nodup_erase nodup j) restPerm frontDeep rest
        rw [if_neg planned]
        obtain ⟨restOrder, perm', executes⟩ := planOf_executes (s.nodup_erase nodup j) planned
        have tables : ∀ t, doesJoin (planOf input (s.erase j)).plan t = doesJoin front t := fun t =>
          (doesJoin_sameJoin executes.sameJoin).trans (doesJoin_perm (perm'.trans restPerm.symm))
        have frontSome : front ≠ [] := by
          rintro rfl
          exact rest (List.nil_perm.mp restPerm)
        obtain ⟨k, member, shared⟩ := shares.resolve_left frontSome
        apply behind_isSome
        rw [tables, tables, doesJoin_iff, doesJoin_iff]
        exact shared.imp (fun left => ⟨k, member, left⟩) fun right => ⟨k, member, right⟩
    obtain ⟨σ, isSides⟩ := Option.isSome_iff_exists.mp found
    have candidate : σ.cheaper j ∈ candidates input (planOf input) s :=
      mem_candidates.mpr ⟨j, inside, σ, isSides, rfl⟩
    rcases planOf_cases input nodup nonempty with ⟨-, none⟩ | member
    · rw [none] at candidate
      exact absurd candidate List.not_mem_nil
    · exact plan_of_mem_candidates member

/-! ## Connected joins -/

/-- Connected joins of which some are left have one that shares a table with those taken. -/
theorem Connected.next {taken left joins : List LogicalJoinNode} (connected : Connected joins)
    (perm : (taken ++ left).Perm joins) (some : taken ≠ []) (more : left ≠ []) :
    ∃ j ∈ left, ∃ k ∈ taken, Shares k j := by
  by_contra none
  have apart : ∀ j ∈ left, ∀ k ∈ taken, ¬ Shares k j := fun j isLeft k isTaken shares =>
    none ⟨j, isLeft, k, isTaken, shares⟩
  obtain ⟨k, isTaken⟩ := List.exists_mem_of_ne_nil _ some
  obtain ⟨j, isLeft⟩ := List.exists_mem_of_ne_nil _ more
  have reached : ∀ t, Relation.ReflTransGen (Linked joins) k.leftTable t →
      ∃ i ∈ taken, i.Mentions t := by
    intro t path
    induction path with
    | refl => exact ⟨k, isTaken, Or.inl rfl⟩
    | tail _ link ih =>
      obtain ⟨i, inTaken, mentions⟩ := ih
      obtain ⟨l, inside, first, second⟩ := link
      rcases List.mem_append.mp (perm.mem_iff.mpr inside) with already | later
      · exact ⟨l, already, second⟩
      · exact absurd (shares_of_mention mentions first) (apart l later i inTaken)
  obtain ⟨i, inTaken, mentions⟩ := reached _ (connected k
    (perm.mem_iff.mp (List.mem_append_left _ isTaken)) j
    (perm.mem_iff.mp (List.mem_append_right _ isLeft)))
  exact apart j isLeft i inTaken (Or.inl mentions)

/-- Connected joins have a left-deep order. -/
theorem Connected.exists_leftDeep {joins : List LogicalJoinNode} (connected : Connected joins) :
    ∃ order, List.Perm order joins ∧ LeftDeep order := by
  have grow : ∀ left taken : List LogicalJoinNode, (taken ++ left).Perm joins → LeftDeep taken →
      ∃ order, List.Perm order joins ∧ LeftDeep order := by
    intro left
    induction isLength : left.length generalizing left with
    | zero =>
      intro taken perm deep
      rw [List.eq_nil_of_length_eq_zero isLength, List.append_nil] at perm
      exact ⟨taken, perm, deep⟩
    | succ size ih =>
      intro taken perm deep
      have more : left ≠ [] := by
        rintro rfl
        cases isLength
      obtain ⟨j, isLeft, shares⟩ : ∃ j ∈ left, taken = [] ∨ ∃ k ∈ taken, Shares k j := by
        by_cases some : taken = []
        · obtain ⟨j, isLeft⟩ := List.exists_mem_of_ne_nil _ more
          exact ⟨j, isLeft, Or.inl some⟩
        · obtain ⟨j, isLeft, shares⟩ := connected.next perm some more
          exact ⟨j, isLeft, Or.inr shares⟩
      have moved : (taken ++ [j] ++ List.erase left j).Perm (taken ++ left) := by
        rw [List.append_assoc]
        exact (List.perm_cons_erase isLeft).symm.append_left taken
      refine ih (List.erase left j) ?_ (taken ++ [j]) (moved.trans perm) (leftDeep_concat.mpr ⟨deep, shares⟩)
      rw [List.length_erase_of_mem isLeft, isLength, Nat.succ_sub_one]
  exact grow joins [] (List.Perm.refl joins) LeftDeep.nil

/-! ## What the loop takes -/

variable (input pc s front) in
/-- What the candidates among the first joins of the set make of the cached plans for the others. -/
def cardsSoFar : List (CostCard D) :=
  front.filterMap fun j => (sides input j s pc).map fun σ => σ.cheaper j

variable (input pc s front) in
/-- Each candidate so far is strictly cheaper than the one before it. -/
def ImprovingSoFar : Prop :=
  (dblMax :: (cardsSoFar input pc s front).map CostCard.cost).IsChain fun before cost =>
    lt cost before = true

/-- What `best_card` and `found_plan` are behind these candidates, if each has improved. -/
def taken (cards : List (CostCard D)) : CostCard D × Bool :=
  cards.getLast?.elim (⟨dblMax, 0, []⟩, false) fun card => (card, true)

theorem cardsSoFar_append_none (fails : sides input j s pc = none) :
    cardsSoFar input pc s (front ++ [j]) = cardsSoFar input pc s front := by
  rw [cardsSoFar, List.filterMap_append, List.filterMap_cons, fails]
  exact List.append_nil _

theorem cardsSoFar_append (found : sides input j s pc = some σ) :
    cardsSoFar input pc s (front ++ [j]) = cardsSoFar input pc s front ++ [σ.cheaper j] := by
  rw [cardsSoFar, List.filterMap_append, List.filterMap_cons, found]
  rfl

/-- A further candidate improves if it is cheaper than the last one. -/
theorem improvingSoFar_append (found : sides input j s pc = some σ) :
    ImprovingSoFar input pc s (front ++ [j]) ↔ ImprovingSoFar input pc s front ∧
      lt (σ.cheaper j).cost (taken (cardsSoFar input pc s front)).1.cost = true := by
  unfold ImprovingSoFar
  rw [cardsSoFar_append found, List.map_append, List.map_singleton, ← List.cons_append,
    List.isChain_append]
  refine and_congr_right fun _ => ?_
  rw [and_iff_right (List.isChain_singleton _)]
  have last : (dblMax :: (cardsSoFar input pc s front).map CostCard.cost).getLast? =
      some (taken (cardsSoFar input pc s front)).1.cost := by
    unfold taken
    rw [List.getLast?_cons, List.getLast?_map]
    cases (cardsSoFar input pc s front).getLast? <;> rfl
  rw [last]
  simp

/-- As long as each candidate improves, no unset card is taken. -/
theorem bestCard_of_improving (improving : ImprovingSoFar input pc s front) :
    bestCard input uninit pc s front = taken (cardsSoFar input pc s front) := by
  induction front using List.reverseRecOn with
  | nil => rfl
  | append_singleton front j ih =>
    rw [bestCard_append]
    rcases tryLast_cases j input uninit pc s (bestCard input uninit pc s front) with
      ⟨fails, stays⟩ | ⟨σ, found, ⟨worse, -⟩ | ⟨-, written, chosen, isWritten⟩⟩
    · unfold ImprovingSoFar at improving
      rw [cardsSoFar_append_none fails] at improving ⊢
      rw [stays]
      exact ih improving
    · obtain ⟨before, cheaper⟩ := (improvingSoFar_append found).mp improving
      rw [← ih before] at cheaper
      exact absurd (improves_iff_cheaper.mpr cheaper) worse
    · rw [choose_eq] at chosen
      obtain ⟨-, same⟩ := Option.ite_none_right_eq_some.mp chosen
      rw [isWritten, cardsSoFar_append found, taken, List.getLast?_append, ← Option.some.inj same]
      rfl

/-! ## The plans in the cache -/

/-- Where the cache has the plans for the others, the candidates are those of the recursion. -/
theorem sides_eq_lastSides
    (rests : ∀ j ∈ s, s.erase j ≠ [] → pc.stored (s.erase j) = planOf input (s.erase j))
    (member : j ∈ s) : sides input j s pc = lastSides input (planOf input) s j := by
  unfold lastSides
  split
  · rename_i alone
    exact sides_alone alone
  · rename_i rest
    rw [← rests j member rest]
    split
    · rename_i unplanned
      have empty : pc.getOrder (s.erase j) = [] := unplanned
      rw [sides, if_neg (mt List.isEmpty_iff.mp rest), empty]
      rfl
    · rename_i planned
      exact sides_of_rest planned rest

theorem cardsSoFar_eq_candidates
    (rests : ∀ j ∈ s, s.erase j ≠ [] → pc.stored (s.erase j) = planOf input (s.erase j)) :
    cardsSoFar input pc s s = candidates input (planOf input) s :=
  List.filterMap_congr fun j (member : j ∈ s) => by rw [sides_eq_lastSides rests member]

/-- A set whose candidates improve gets the plan of the recursion. -/
theorem stored_planSet (nodup : s.keys.Nodup) (nonempty : s ≠ [])
    (rests : ∀ j ∈ s, s.erase j ≠ [] → pc.stored (s.erase j) = planOf input (s.erase j))
    (fresh : pc.stored s = noJoins D) (improving : Improving input s) :
    (planSet input uninit pc s).stored s = planOf input s := by
  have best : bestCard input uninit pc s s = taken (candidates input (planOf input) s) := by
    rw [← cardsSoFar_eq_candidates rests]
    refine bestCard_of_improving ?_
    unfold ImprovingSoFar
    rw [cardsSoFar_eq_candidates rests]
    exact improving
  rw [planOf_eq nodup nonempty, planSet, best, taken]
  cases (candidates input (planOf input) s).getLast? with
  | none => exact fresh
  | some card => exact stored_addPlan_self

/-- As long as the candidates of each set improve, the cache has the plans of the recursion, whatever
unset cards hold. -/
theorem stored_schedule {joins : List LogicalJoinNode} (input : Statistics D)
    (uninit : Uninitialized D) (distinct : (joins.map LogicalJoinNode.key).Nodup)
    {done more : List JoinSet} (whole : schedule joins (List.range' 1 joins.length) = done ++ more)
    (improving : ∀ s ∈ done, Improving input s) :
    ∀ s ∈ done, (done.foldl (planSet input uninit) PlanCache.empty).stored s = planOf input s := by
  have subsets : ∀ s ∈ done, s.Sorted ∧ (∀ j ∈ s, j ∈ joins) ∧ s ≠ [] := fun s member =>
    (mem_rounds_iff distinct).mp (whole ▸ List.mem_append_left _ member)
  have once : done.Nodup := by
    have ordered := rounds_ordered distinct
    rw [whole] at ordered
    exact (List.pairwise_append.mp ordered).1.imp And.left
  have ordered := ordered_schedule distinct
  rw [whole] at ordered
  refine Tabulation.get_foldl once ordered.of_append (fun s member t member' different pc => ?_)
    fun s member pc needed fresh => ?_
  · refine stored_planSet_of_ne fun same => different ?_
    exact eq_of_keys_of_distinct distinct (subsets t member').2.1 (subsets s member).2.1 same
  · obtain ⟨sorted, -, nonempty⟩ := subsets s member
    refine stored_planSet sorted.nodup nonempty (fun j inside rest => ?_) fresh (improving s member)
    exact needed _ ⟨rest, j, inside, rfl⟩

/-! ## A set whose candidates do not improve -/

/-- `<` on `double` with a third value between. -/
structure StrictCosts (D : Type) [Double D] : Prop where
  irrefl (x : D) : lt x x = false
  trans {x y z : D} : lt x y = true → lt y z = true → lt x z = true

/-- With `low` in the unset cards, the best cost is `low` or less from the first candidate on that does
not improve. -/
theorem bestCard_le_unset (low : D) (strict : StrictCosts D)
    (worse : ¬ ImprovingSoFar input pc s front) :
    (bestCard input (fun _ _ => (low, 0)) pc s front).1.cost = low ∨
      lt (bestCard input (fun _ _ => (low, 0)) pc s front).1.cost low = true := by
  induction front using List.reverseRecOn with
  | nil => exact absurd (List.isChain_singleton _) worse
  | append_singleton front j ih =>
    rw [bestCard_append]
    rcases tryLast_cases j input (fun _ _ => (low, 0)) pc s
        (bestCard input (fun _ _ => (low, 0)) pc s front) with
      ⟨fails, stays⟩ | ⟨σ, found, ⟨-, unset⟩ | ⟨improves, written, chosen, isWritten⟩⟩
    · unfold ImprovingSoFar at worse
      rw [cardsSoFar_append_none fails] at worse
      rw [stays]
      exact ih worse
    · rw [unset]
      exact Or.inl rfl
    · have cheaper := improves_iff_cheaper.mp improves
      rw [choose_eq, if_pos cheaper] at chosen
      rw [isWritten, ← Option.some.inj chosen]
      have before : ¬ ImprovingSoFar input pc s front := fun before => worse <|
        (improvingSoFar_append found).mpr ⟨before, bestCard_of_improving before ▸ cheaper⟩
      rcases ih before with same | less
      · exact Or.inr (same ▸ cheaper)
      · exact Or.inr (strict.trans cheaper less)

/-- With the cost of the last candidate in the unset cards, a set whose candidates do not improve gets
an empty plan. -/
theorem bestCard_unset (strict : StrictCosts D) (worse : ¬ ImprovingSoFar input pc s front)
    (last : (cardsSoFar input pc s front).getLast? = some card) :
    (bestCard input (fun _ _ => (card.cost, 0)) pc s front).1.plan = [] := by
  induction front using List.reverseRecOn with
  | nil => cases last
  | append_singleton front j ih =>
    rw [bestCard_append]
    rcases tryLast_cases j input (fun _ _ => (card.cost, 0)) pc s
        (bestCard input (fun _ _ => (card.cost, 0)) pc s front) with
      ⟨fails, stays⟩ | ⟨σ, found, ⟨-, unset⟩ | ⟨improves, -⟩⟩
    · unfold ImprovingSoFar at worse
      rw [cardsSoFar_append_none fails] at worse last
      rw [stays]
      exact ih worse last
    · rw [unset]
    · have cheaper := improves_iff_cheaper.mp improves
      have before : ¬ ImprovingSoFar input pc s front := fun before => worse <|
        (improvingSoFar_append found).mpr ⟨before, bestCard_of_improving before ▸ cheaper⟩
      rw [cardsSoFar_append found, List.getLast?_concat] at last
      have impossible : lt card.cost card.cost = true := by
        rw [Option.some.inj last] at cheaper
        rcases bestCard_le_unset card.cost strict before with same | less
        · rwa [same] at cheaper
        · exact strict.trans cheaper less
      rw [strict.irrefl] at impossible
      cases impossible

end Plans

/-! ## All three paths -/

section Keeps

variable {D : Type} [Double D] {input : Statistics D} {joins : List LogicalJoinNode}

/-- The candidates of each set of the joins improve. -/
def AllImproving (input : Statistics D) (joins : List LogicalJoinNode) : Prop :=
  ∀ s : JoinSet, s.Sorted → (∀ j ∈ s, j ∈ joins) → s ≠ [] → Improving input s

/-- A join is with "big_table"; or some join is no equality, and the first such join with table "a" is
the only one with its tables and fields; or the candidates of each set improve. -/
def KeepsAll (input : Statistics D) (joins : List LogicalJoinNode) : Prop :=
  HasBigTable joins ∨ (¬ Equalities joins ∧ AloneOnItsFields joins) ∨
    (Equalities joins ∧ AllImproving input joins)

/-- The candidates of all smaller sets improve. -/
def SmallerImproving (input : Statistics D) (joins : List LogicalJoinNode) : Prop :=
  ∀ s : JoinSet, s.Sorted → (∀ j ∈ s, j ∈ joins) → s ≠ [] → s.length < joins.length →
    Improving input s

/-- A set of the joins is smaller than the whole set or is the whole set. -/
theorem schedule_cases {s : JoinSet} (distinct : (joins.map LogicalJoinNode.key).Nodup)
    (member : s ∈ schedule joins (List.range' 1 joins.length)) :
    s.length < joins.length ∨ s = allJoins joins := by
  have nonempty : joins ≠ [] := by
    rintro rfl
    exact absurd member List.not_mem_nil
  rw [schedule_last nonempty] at member
  refine (List.mem_append.mp member).imp (fun early => ?_) List.mem_singleton.mp
  obtain ⟨size, isSize, inside⟩ := List.mem_flatMap.mp early
  have bounds := List.mem_range'_1.mp isSize
  rw [length_of_mem_enumerateSubsets distinct (by omega) inside]
  omega

/-- The cache before the last round has the plans that the whole set needs. -/
theorem rests_of_cacheBefore (uninit : Uninitialized D)
    (distinct : (joins.map LogicalJoinNode.key).Nodup) (nonempty : joins ≠ [])
    (improving : SmallerImproving input joins) :
    ∀ j ∈ allJoins joins, (allJoins joins).erase j ≠ [] →
      (cacheBefore input uninit joins).stored ((allJoins joins).erase j) =
        planOf input ((allJoins joins).erase j) := by
  intro j member rest
  have whole : schedule joins (List.range' 1 joins.length) =
    schedule joins (List.range' 1 (joins.length - 1)) ++ [allJoins joins] := schedule_last nonempty
  rw [cacheBefore, planRounds_eq]
  refine stored_schedule input uninit distinct whole (fun s early => ?_) _
    (ordered_schedule distinct _ _ [] whole _ ⟨rest, j, member, rfl⟩)
  have isRound : s ∈ schedule joins (List.range' 1 joins.length) :=
    whole ▸ List.mem_append_left _ early
  obtain ⟨sorted, inside, some⟩ := (mem_rounds_iff distinct).mp isRound
  refine improving s sorted inside some ((schedule_cases distinct isRound).resolve_right ?_)
  rintro rfl
  have ordered := rounds_ordered distinct
  rw [whole] at ordered
  exact ((List.pairwise_append.mp ordered).2.2 _ early _ (List.mem_singleton_self _)).1 rfl

theorem AllImproving.smaller (improving : AllImproving input joins) : SmallerImproving input joins :=
  fun s sorted inside some _ => improving s sorted inside some

/-- The third path loses no join as long as the candidates of each set improve. -/
theorem AllImproving.ordersAll (improving : AllImproving input joins) (uninit : Uninitialized D)
    (distinct : joins.Nodup) (connected : Connected joins) (equalities : Equalities joins)
    (nonempty : joins ≠ []) :
    OrdersAll ((planRounds input uninit joins (List.range' 1 joins.length)).getOrder
      (allJoins joins)) joins := by
  have distinctKeys := equalities.distinct_keys distinct
  have all : (allJoins joins).Perm joins := allJoins_perm distinctKeys
  have rests := rests_of_cacheBefore uninit distinctKeys nonempty improving.smaller
  have isRound : allJoins joins ∈ schedule joins (List.range' 1 joins.length) := by
    rw [schedule_last nonempty]
    exact List.mem_append_right _ (List.mem_singleton_self _)
  obtain ⟨sorted, inside, some⟩ := (mem_rounds_iff distinctKeys).mp isRound
  obtain ⟨order, perm, deep⟩ := connected.exists_leftDeep
  have planned : (planOf input (allJoins joins)).plan ≠ [] :=
    planOf_of_leftDeep sorted.nodup (perm.trans all.symm) deep some
  have best : bestCard input uninit (cacheBefore input uninit joins) (allJoins joins)
      (allJoins joins) = taken (candidates input (planOf input) (allJoins joins)) := by
    rw [← cardsSoFar_eq_candidates rests]
    refine bestCard_of_improving ?_
    unfold ImprovingSoFar
    rw [cardsSoFar_eq_candidates rests]
    exact improving _ sorted inside some
  rw [planned_ordersAll_iff distinct equalities nonempty, best, taken]
  rw [planOf_eq sorted.nodup some] at planned
  cases last : (candidates input (planOf input) (allJoins joins)).getLast? with
  | none =>
    rw [last] at planned
    exact absurd rfl planned
  | some card =>
    rw [last] at planned
    exact ⟨rfl, planned⟩

/-- If only the whole set has a candidate that does not improve, unset cards can hold something with
which all joins are lost. -/
theorem improving_of_ordersAll (strict : StrictCosts D) (smaller : SmallerImproving input joins)
    (distinct : joins.Nodup) (equalities : Equalities joins) (nonempty : joins ≠ [])
    (orders : ∀ uninit, OrdersAll ((planRounds input uninit joins
      (List.range' 1 joins.length)).getOrder (allJoins joins)) joins) :
    Improving input (allJoins joins) := by
  have distinctKeys := equalities.distinct_keys distinct
  by_contra worse
  cases last : (candidates input (planOf input) (allJoins joins)).getLast? with
  | none =>
    refine worse ?_
    rw [Improving, List.getLast?_eq_none_iff.mp last]
    exact List.isChain_singleton _
  | some card =>
    have kept := orders fun _ _ => (card.cost, 0)
    have rests := rests_of_cacheBefore (fun _ _ => (card.cost, 0)) distinctKeys nonempty smaller
    have cards := cardsSoFar_eq_candidates rests
    rw [planned_ordersAll_iff distinct equalities nonempty] at kept
    refine kept.2 (bestCard_unset strict ?_ (cards ▸ last))
    unfold ImprovingSoFar
    rwa [cards]

/-- `order_joins` returns every join of connected joins exactly once, whatever unset cards hold, if the
condition holds; and only then, but for cost-based plans of which a smaller set has a candidate that does
not improve. -/
theorem ordersAll_of_keepsAll (input : Statistics D) (distinct : joins.Nodup)
    (connected : Connected joins) :
    (KeepsAll input joins → ∀ uninit, OrdersAll (orderJoins input uninit joins) joins) ∧
      (HasBigTable joins ∨ ¬ Equalities joins ∨ StrictCosts D ∧ SmallerImproving input joins →
        (∀ uninit, OrdersAll (orderJoins input uninit joins) joins) → KeepsAll input joins) := by
  by_cases big : HasBigTable joins
  · refine ⟨fun _ uninit => ?_, fun _ _ => Or.inl big⟩
    rw [orderJoins_bigTable input uninit big]
    exact bigTableLast_ordersAll joins
  by_cases equalities : Equalities joins
  · by_cases nonempty : joins = []
    · subst nonempty
      refine ⟨fun _ _ => OrdersAll.refl [], fun _ _ => Or.inr (Or.inr ⟨equalities, ?_⟩)⟩
      intro s _ inside some
      obtain ⟨j, member⟩ := List.exists_mem_of_ne_nil _ some
      exact absurd (inside j member) List.not_mem_nil
    · have planned := fun uninit => orderJoins_planned input uninit nonempty big equalities
      constructor
      · rintro (isBig | ⟨notAll, -⟩ | ⟨-, improving⟩) uninit
        · exact absurd isBig big
        · exact absurd equalities notAll
        · rw [planned uninit]
          exact improving.ordersAll uninit distinct connected equalities nonempty
      · rintro (isBig | notAll | ⟨strict, smaller⟩) orders
        · exact absurd isBig big
        · exact absurd equalities notAll
        · have whole := improving_of_ordersAll strict smaller distinct equalities nonempty
            fun uninit => planned uninit ▸ orders uninit
          refine Or.inr (Or.inr ⟨equalities, fun s sorted inside some => ?_⟩)
          have distinctKeys := equalities.distinct_keys distinct
          rcases schedule_cases distinctKeys ((mem_rounds_iff distinctKeys).mpr ⟨sorted, inside, some⟩)
            with shorter | rfl
          · exact smaller s sorted inside some shorter
          · exact whole
  · have exactly : ∀ uninit, OrdersAll (orderJoins input uninit joins) joins ↔
        AloneOnItsFields joins := fun uninit => by
      rw [orderJoins_nonEquality input uninit big equalities, nonEqualityLast_ordersAll_iff distinct]
    constructor
    · rintro (isBig | ⟨-, alone⟩ | ⟨all, -⟩) uninit
      · exact absurd isBig big
      · exact (exactly uninit).mpr alone
      · exact absurd all equalities
    · intro _ orders
      exact Or.inr (Or.inl ⟨equalities, (exactly fun _ _ => (dblMax, 0)).mp (orders _)⟩)

end Keeps

/-! ## Two inputs -/

theorem strictCosts_rat : StrictCosts ℚ where
  irrefl x := decide_eq_false (lt_irrefl x)
  trans less less' := decide_eq_true ((of_decide_eq_true less).trans (of_decide_eq_true less'))

/-- The sets are those that the rounds go over. -/
theorem allImproving_iff {joins : List LogicalJoinNode} {input : Statistics ℚ}
    (distinct : (joins.map LogicalJoinNode.key).Nodup) :
    AllImproving input joins ↔
      ∀ s ∈ schedule joins (List.range' 1 joins.length), Improving input s := by
  constructor
  · intro improving s isRound
    obtain ⟨sorted, inside, some⟩ := (mem_rounds_iff distinct).mp isRound
    exact improving s sorted inside some
  · exact fun improving s sorted inside some =>
      improving s ((mem_rounds_iff distinct).mpr ⟨sorted, inside, some⟩)

/-- Tables of four, three, two pages, and one page. -/
def descending : Statistics ℚ :=
  ⟨fun t => ⟨1, if t = "a" then 4 else if t = "b" then 3 else if t = "c" then 2 else 1⟩, fun _ => 1⟩

/-- The joins of four tables, not in the order of a plan. -/
def shuffled : List LogicalJoinNode :=
  [⟨"c", "d", 2, 1, .eq⟩, ⟨"a", "b", 1, 1, .eq⟩, ⟨"c", "b", 1, 2, .eq⟩]

/-- The joins of the four tables are put in order, the last one with its sides exchanged.  Those of
tables that cost the same can be lost: only the pair has a candidate that does not improve. -/
theorem ordersAll_of_keepsAll_descending :
    (∀ uninit, OrdersAll (orderJoins descending uninit shuffled) shuffled) ∧
      orderJoins descending (fun _ _ => (0, 0)) shuffled =
        [⟨"a", "b", 1, 1, .eq⟩, ⟨"b", "c", 2, 1, .eq⟩, ⟨"c", "d", 2, 1, .eq⟩] ∧
      ¬ ∀ uninit, OrdersAll (orderJoins onePage uninit chain) chain := by
  have improving : AllImproving descending shuffled :=
    (allImproving_iff (by decide)).mpr (by decide +kernel)
  have smaller : SmallerImproving onePage chain := by
    intro s sorted inside some shorter
    have isRound : s ∈ schedule chain (List.range' 1 chain.length) :=
      (mem_rounds_iff (by decide)).mpr ⟨sorted, inside, some⟩
    have small : ∀ t ∈ schedule chain (List.range' 1 chain.length), t.length < chain.length →
      Improving onePage t := by decide +kernel
    exact small s isRound shorter
  refine ⟨?_, by decide +kernel, fun orders => ?_⟩
  · have connected : Connected shuffled := Connected.of_hub (t := "b") (by decide)
    exact (ordersAll_of_keepsAll descending (by decide) connected).1
      (Or.inr (Or.inr ⟨by decide, improving⟩))
  · have connected : Connected chain := Connected.of_hub (t := "b") (by decide)
    have keeps : KeepsAll onePage chain :=
      (ordersAll_of_keepsAll onePage (by decide) connected).2
        (Or.inr (Or.inr ⟨strictCosts_rat, smaller⟩)) orders
    rcases keeps with isBig | ⟨notAll, -⟩ | ⟨-, all⟩
    · exact absurd isBig (by decide)
    · exact notAll (by decide)
    · have pair : ¬ Improving onePage chain := by decide +kernel
      have sets := (allImproving_iff (by decide)).mp all
      exact pair (sets chain (by decide +kernel))

end BuzzDB.Optimizer
