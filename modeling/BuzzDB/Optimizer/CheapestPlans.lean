import BuzzDB.Optimizer.LeftDeep
import Mathlib.Order.MinMax

/-!
# The cheapest plan of a set

A candidate that can be joined but is not cheaper than the best one before it leaves its
`CostCard` unset and is taken over all the same.  So the cache gets the cheapest plan,
whatever an unset card holds, exactly when each candidate that can be joined is strictly
cheaper than the ones before it.  Costs are exact here.
-/

namespace BuzzDB.Optimizer

open Double

section Cards

variable {D : Type} [Double D]

/-- The cards for the two orientations of a join. -/
def Sides.cards (σ : Sides D) (j : LogicalJoinNode) : List (CostCard D) :=
  let (_, t1Card, leftPkey) := σ.t1
  let (_, t2Card, rightPkey) := σ.t2
  let j2 := j.swapInnerOuter
  [⟨(σ.costs j).1, estimateJoinCardinality D j t1Card t2Card leftPkey rightPkey, σ.prevBest ++ [j]⟩,
    ⟨(σ.costs j).2, estimateJoinCardinality D j2 t2Card t1Card rightPkey leftPkey,
      σ.prevBest ++ [j2]⟩]

/-- The cost of the cheaper orientation. -/
def Sides.least (σ : Sides D) (j : LogicalJoinNode) : D :=
  if lt (σ.costs j).1 (σ.costs j).2 then (σ.costs j).1 else (σ.costs j).2

theorem choose_card {σ : Sides D} {j : LogicalJoinNode} {best : D} {card : CostCard D}
    (chosen : σ.choose j best = some card) : card ∈ σ.cards j ∧ card.cost = σ.least j := by
  unfold Sides.choose at chosen
  unfold Sides.cards Sides.least
  dsimp only at chosen ⊢
  split at chosen
  · rename_i first
    rw [if_pos first]
    split at chosen
    · cases chosen
      exact ⟨List.mem_cons_self, rfl⟩
    · cases chosen
  · rename_i second
    rw [if_neg second]
    split at chosen
    · cases chosen
      exact ⟨List.mem_cons_of_mem _ List.mem_cons_self, rfl⟩
    · cases chosen

end Cards

variable {input : Statistics ℚ} {uninit : Uninitialized ℚ} {pc pc' : PlanCache ℚ} {s : JoinSet}
  {σ : Sides ℚ} {j : LogicalJoinNode} {best c : ℚ} {front joins : List LogicalJoinNode}

theorem improves_iff : σ.Improves j best ↔ σ.least j < best := decide_eq_true_iff

theorem least_le {card : CostCard ℚ} (member : card ∈ σ.cards j) : σ.least j ≤ card.cost := by
  have isMin : σ.least j = min (σ.costs j).1 (σ.costs j).2 := by
    unfold Sides.least
    rw [min_def_lt]
    exact if_congr decide_eq_true_iff rfl rfl
  rw [isMin]
  rcases List.mem_cons.mp member with rfl | second
  · exact min_le_left _ _
  · rw [List.mem_singleton.mp second]
    exact min_le_right _ _

/-- Some join of the set can be joined to the cached plan of the others, or is alone. -/
def Joinable (input : Statistics ℚ) (pc : PlanCache ℚ) (s : JoinSet) : Prop :=
  ∃ j ∈ s, (sides input j s pc).isSome

/-- The cache `pc'` has for the set one of the cards that can be made from the cache `pc`, a cheapest
one, and its plan orders the joins of the set. -/
structure Cheapest (input : Statistics ℚ) (pc : PlanCache ℚ) (s : JoinSet) (pc' : PlanCache ℚ)
    (card : CostCard ℚ) : Prop where
  stored : pc'.getOrder s = card.plan ∧ pc'.getCost s = card.cost ∧ pc'.getCard s = card.card
  made : ∃ j ∈ s, ∃ σ, sides input j s pc = some σ ∧ card ∈ σ.cards j
  least : ∀ j ∈ s, ∀ σ, sides input j s pc = some σ → ∀ other ∈ σ.cards j, card.cost ≤ other.cost
  orders : OrdersAll card.plan s

/-- The set has got a cheapest plan, or has no plan and nothing is stored. -/
def PlannedWell (input : Statistics ℚ) (pc : PlanCache ℚ) (s : JoinSet) (pc' : PlanCache ℚ) : Prop :=
  (Joinable input pc s → ∃ card, Cheapest input pc s pc' card) ∧ (¬ Joinable input pc s → pc' = pc)

/-- What the candidates that can be joined cost, in the order of the set. -/
def candidateCosts (input : Statistics ℚ) (pc : PlanCache ℚ) (s : JoinSet)
    (candidates : List LogicalJoinNode) : List ℚ :=
  candidates.filterMap fun j => (sides input j s pc).map fun σ => σ.least j

/-- Each candidate that can be joined is cheaper than the ones before it. -/
def EachImproves (input : Statistics ℚ) (pc : PlanCache ℚ) (s : JoinSet)
    (candidates : List LogicalJoinNode) : Prop :=
  (dblMax :: candidateCosts input pc s candidates).Pairwise (· > ·)

theorem mem_candidateCosts :
    c ∈ candidateCosts input pc s front ↔
      ∃ j ∈ front, ∃ σ, sides input j s pc = some σ ∧ σ.least j = c := by
  unfold candidateCosts
  rw [List.mem_filterMap]
  refine exists_congr fun j => and_congr_right fun _ => ?_
  rw [Option.map_eq_some_iff]

/-- One more candidate that can be joined. -/
theorem candidateCosts_append (found : sides input j s pc = some σ) :
    candidateCosts input pc s (front ++ [j]) =
      candidateCosts input pc s front ++ [σ.least j] := by
  unfold candidateCosts
  rw [List.filterMap_append, List.filterMap_cons, found]
  rfl

theorem eachImproves_append (found : sides input j s pc = some σ) :
    EachImproves input pc s (front ++ [j]) ↔ EachImproves input pc s front ∧
      ∀ c ∈ dblMax :: candidateCosts input pc s front, σ.least j < c := by
  unfold EachImproves
  rw [candidateCosts_append found, ← List.cons_append, List.pairwise_append]
  refine and_congr_right fun _ => ?_
  simp only [List.pairwise_singleton, true_and, List.mem_singleton, forall_eq, gt_iff_lt]

/-- A candidate that cannot be joined. -/
theorem candidateCosts_append_none (fails : sides input j s pc = none) :
    candidateCosts input pc s (front ++ [j]) = candidateCosts input pc s front := by
  unfold candidateCosts
  rw [List.filterMap_append, List.filterMap_cons, fails]
  exact List.append_nil _

theorem eachImproves_append_none (fails : sides input j s pc = none) :
    EachImproves input pc s (front ++ [j]) ↔ EachImproves input pc s front := by
  unfold EachImproves
  rw [candidateCosts_append_none fails]

/-! ## One set -/

/-- The best card as long as each candidate improves. -/
structure Improved (input : Statistics ℚ) (pc : PlanCache ℚ) (s : JoinSet)
    (front : List LogicalJoinNode) (best : CostCard ℚ × Bool) : Prop where
  among : best.1.cost ∈ dblMax :: candidateCosts input pc s front
  least : ∀ c ∈ dblMax :: candidateCosts input pc s front, best.1.cost ≤ c
  found : best.2 = true ↔ candidateCosts input pc s front ≠ []
  made : best.2 = true → ∃ j ∈ front, ∃ σ, sides input j s pc = some σ ∧ best.1 ∈ σ.cards j ∧
    ∃ so, σ.choose j so = some best.1

theorem Improved.nil : Improved input pc s [] (bestCard input uninit pc s []) where
  among := List.mem_cons_self
  least c member := by
    rw [List.mem_singleton.mp member]
    exact le_refl _
  found := ⟨fun impossible => (by cases impossible), fun impossible => absurd rfl impossible⟩
  made impossible := by cases impossible

/-- A candidate that cannot be joined changes nothing. -/
theorem Improved.append_none (fails : sides input j s pc = none)
    {before : CostCard ℚ × Bool} (improved : Improved input pc s front before) :
    Improved input pc s (front ++ [j]) before := by
  have same : candidateCosts input pc s (front ++ [j]) = candidateCosts input pc s front :=
    candidateCosts_append_none fails
  refine ⟨?_, ?_, ?_, fun found => ?_⟩
  · rw [same]
    exact improved.among
  · rw [same]
    exact improved.least
  · rw [same]
    exact improved.found
  · obtain ⟨k, inside, made⟩ := improved.made found
    exact ⟨k, List.mem_append_left _ inside, made⟩

/-- A candidate that improves. -/
theorem Improved.append {card : CostCard ℚ} (found : sides input j s pc = some σ)
    (chosen : σ.choose j best = some card)
    (cheaper : ∀ c ∈ dblMax :: candidateCosts input pc s front, σ.least j < c) :
    Improved input pc s (front ++ [j]) (card, true) := by
  have costs : candidateCosts input pc s (front ++ [j]) =
      candidateCosts input pc s front ++ [σ.least j] := candidateCosts_append found
  obtain ⟨isCard, cost⟩ := choose_card chosen
  refine ⟨?_, fun c member => ?_, ?_, fun _ => ?_⟩
  · rw [costs, cost]
    exact List.mem_cons_of_mem _ (List.mem_append_right _ (List.mem_singleton_self _))
  · rw [costs, ← List.cons_append] at member
    rw [cost]
    rcases List.mem_append.mp member with old | new
    · exact (cheaper c old).le
    · exact (List.mem_singleton.mp new).ge
  · rw [costs]
    exact ⟨fun _ => by simp, fun _ => rfl⟩
  · exact ⟨j, List.mem_append_right _ (List.mem_singleton_self j), σ, found, isCard, _, chosen⟩

/-- As long as each candidate improves, the best card is the last one, whatever unset cards hold. -/
theorem EachImproves.improved (improves : EachImproves input pc s front) :
    Improved input pc s front (bestCard input uninit pc s front) := by
  induction front using List.reverseRecOn with
  | nil => exact Improved.nil
  | append_singleton front j ih =>
    rw [bestCard_append]
    rcases tryLast_cases j input uninit pc s (bestCard input uninit pc s front) with
      ⟨fails, stays⟩ | ⟨σ, found, ⟨worse, _⟩ | ⟨_, written, chosen, isWritten⟩⟩
    · rw [stays]
      exact (ih ((eachImproves_append_none fails).mp improves)).append_none fails
    · obtain ⟨before, cheaper⟩ := (eachImproves_append found).mp improves
      exact absurd (improves_iff.mpr (cheaper _ (ih before).among)) worse
    · obtain ⟨_, cheaper⟩ := (eachImproves_append found).mp improves
      rw [isWritten]
      exact Improved.append found chosen cheaper

/-- With something in the unset cards that no candidate undercuts, the first one that does not
improve leaves an empty plan for good. -/
theorem unset_stays {low : ℚ} (lowest : ∀ c ∈ candidateCosts input pc s front, low ≤ c)
    (worse : ¬ EachImproves input pc s front) :
    bestCard input (fun _ _ => (low, 0)) pc s front = (⟨low, 0, []⟩, true) := by
  induction front using List.reverseRecOn with
  | nil => exact absurd (List.pairwise_singleton _ _) worse
  | append_singleton front j ih =>
    rw [bestCard_append]
    cases found : sides input j s pc with
    | none =>
      rw [candidateCosts_append_none found] at lowest
      rw [eachImproves_append_none found] at worse
      rw [ih lowest worse, tryLast, computeCostAndCardOfSubplan, found]
      rfl
    | some σ =>
      rw [candidateCosts_append found] at lowest
      have lowestBefore : ∀ c ∈ candidateCosts input pc s front, low ≤ c := fun c member =>
        lowest c (List.mem_append_left _ member)
      have notBelow : low ≤ σ.least j :=
        lowest _ (List.mem_append_right _ (List.mem_singleton_self _))
      have fails : ¬ σ.Improves j (bestCard input (fun _ _ => (low, 0)) pc s front).1.cost := by
        rw [improves_iff, not_lt]
        by_cases before : EachImproves input pc s front
        · have improved : Improved input pc s front
              (bestCard input (fun _ _ => (low, 0)) pc s front) := before.improved
          rw [eachImproves_append found, not_and] at worse
          push Not at worse
          obtain ⟨c, member, notBelow⟩ := worse before
          exact (improved.least c member).trans notBelow
        · rw [ih lowestBefore before]
          exact notBelow
      rcases tryLast_cases j input (fun _ _ => (low, 0)) pc s
          (bestCard input (fun _ _ => (low, 0)) pc s front) with
        ⟨absent, _⟩ | ⟨σ', found', ⟨_, unset⟩ | ⟨improves, _⟩⟩
      · rw [found] at absent
        cases absent
      · exact unset
      · obtain rfl := Option.some.inj (found.symm.trans found')
        exact absurd improves fails

/-! ## The table -/

/-- The costs have a lower bound. -/
theorem exists_lowest (costs : List ℚ) : ∃ low, ∀ c ∈ costs, low ≤ c := by
  induction costs with
  | nil => exact ⟨0, fun c absent => absurd absent List.not_mem_nil⟩
  | cons c costs ih =>
    obtain ⟨low, lowest⟩ := ih
    refine ⟨min c low, fun d member => ?_⟩
    rcases List.mem_cons.mp member with rfl | old
    · exact min_le_left _ _
    · exact (min_le_right _ _).trans (lowest d old)

theorem joinable_iff : Joinable input pc s ↔ candidateCosts input pc s s ≠ [] := by
  constructor
  · rintro ⟨j, member, found⟩ none
    obtain ⟨σ, isSides⟩ := Option.isSome_iff_exists.mp found
    have absent : σ.least j ∉ candidateCosts input pc s s := by
      rw [none]
      exact List.not_mem_nil
    exact absent (mem_candidateCosts.mpr ⟨j, member, σ, isSides, rfl⟩)
  · intro some
    obtain ⟨c, member⟩ := List.exists_mem_of_ne_nil _ some
    obtain ⟨j, inside, σ, isSides, _⟩ := mem_candidateCosts.mp member
    exact ⟨j, inside, by rw [isSides]; rfl⟩

theorem planSet_found {card : CostCard ℚ} (found : bestCard input uninit pc s s = (card, true)) :
    planSet input uninit pc s = pc.addPlan s card.cost card.card card.plan := by
  rw [planSet, found]
  rfl

theorem planSet_not_found (notFound : (bestCard input uninit pc s s).2 ≠ true) :
    planSet input uninit pc s = pc := by
  unfold planSet
  dsimp only
  exact if_neg notFound

/-- A set whose candidates improve each other gets a cheapest plan. -/
theorem EachImproves.plannedWell (improves : EachImproves input pc s s) (planned : Planned pc)
    (equalities : Equalities s) (nodup : s.keys.Nodup) :
    PlannedWell input pc s (planSet input uninit pc s) := by
  have improved : Improved input pc s s (bestCard input uninit pc s s) := improves.improved
  constructor
  · intro joinable
    have found := improved.found.mpr (joinable_iff.mp joinable)
    obtain ⟨j, member, σ, isSides, isCard, so, chosen⟩ := improved.made found
    refine ⟨(bestCard input uninit pc s s).1, ⟨?_, ⟨j, member, σ, isSides, isCard⟩, ?_, ?_⟩⟩
    · have isFound : bestCard input uninit pc s s = ((bestCard input uninit pc s s).1, true) := by
        rw [← found]
      rw [planSet_found isFound]
      refine ⟨getOrder_addPlan_self _ _, ?_, ?_⟩
      · exact Function.update_self _ _ _
      · exact Function.update_self _ _ _
    · intro k inside τ isSides' other isOther
      have cost := mem_candidateCosts.mpr ⟨k, inside, τ, isSides', rfl⟩
      exact (improved.least _ (List.mem_cons_of_mem _ cost)).trans (least_le isOther)
    · exact planned.choose equalities nodup member isSides chosen
  · intro notJoinable
    refine planSet_not_found fun found => notJoinable ?_
    exact joinable_iff.mpr (improved.found.mp found)

/-- Some set that is no set of improving candidates has an empty plan. -/
theorem not_plannedWell (worse : ¬ EachImproves input pc s s) :
    ∃ uninit, ¬ PlannedWell input pc s (planSet input uninit pc s) := by
  obtain ⟨low, lowest⟩ := exists_lowest (candidateCosts input pc s s)
  refine ⟨fun _ _ => (low, 0), fun well => ?_⟩
  have joinable : Joinable input pc s := by
    rw [joinable_iff]
    intro none
    refine worse ?_
    unfold EachImproves
    rw [none]
    exact List.pairwise_singleton _ _
  obtain ⟨card, cheapest⟩ := well.1 joinable
  have stored := cheapest.stored.1
  rw [planSet_found (unset_stays lowest worse), getOrder_addPlan_self] at stored
  have orders := cheapest.orders
  rw [← stored, OrdersAll.nil_iff] at orders
  obtain ⟨j, member, _⟩ := joinable
  rw [orders] at member
  exact absurd member List.not_mem_nil

/-- The sets are subsets of the joins. -/
theorem mem_schedule {sizes : List Nat} (member : s ∈ schedule joins sizes) :
    s.Sorted ∧ ∀ j ∈ s, j ∈ joins := by
  obtain ⟨size, _, inside⟩ := List.mem_flatMap.mp member
  obtain ⟨sorted, subset, _⟩ := mem_enumerateSubsets inside
  exact ⟨sorted, subset⟩

theorem planned_foldl (equalities : Equalities joins) {sets : List JoinSet}
    (subsets : ∀ s ∈ sets, s.Sorted ∧ ∀ j ∈ s, j ∈ joins) :
    Planned (sets.foldl (planSet input uninit) PlanCache.empty) := by
  induction sets using List.reverseRecOn with
  | nil => exact Planned.empty
  | append_singleton sets s ih =>
    have before := ih fun t member => subsets t (List.mem_append_left _ member)
    obtain ⟨sorted, subset⟩ := subsets s (List.mem_append_right _ (List.mem_singleton_self s))
    rw [List.foldl_append, List.foldl_cons, List.foldl_nil]
    exact before.planSet (fun j member => equalities j (subset j member)) sorted.nodup

/-- Whatever the unset cards hold, a set gets a cheapest plan: exactly if each of its joins that can
be joined is strictly cheaper than the ones before it. -/
theorem plannedWell_iff (input : Statistics ℚ) (uninit : Uninitialized ℚ)
    {joins : List LogicalJoinNode} (equalities : Equalities joins) {before after : List JoinSet}
    {s : JoinSet}
    (processed : schedule joins (List.range' 1 joins.length) = before ++ s :: after) :
    (∀ uninit', PlannedWell input (before.foldl (planSet input uninit) PlanCache.empty) s
        (planSet input uninit' (before.foldl (planSet input uninit) PlanCache.empty) s)) ↔
      EachImproves input (before.foldl (planSet input uninit) PlanCache.empty) s s := by
  have subsets : ∀ t ∈ before ++ s :: after, t.Sorted ∧ ∀ j ∈ t, j ∈ joins := by
    rw [← processed]
    exact fun t member => mem_schedule member
  have planned : Planned (before.foldl (planSet input uninit) PlanCache.empty) :=
    planned_foldl equalities fun t member => subsets t (List.mem_append_left _ member)
  obtain ⟨sorted, subset⟩ := subsets s (List.mem_append_right _ List.mem_cons_self)
  constructor
  · intro well
    by_contra worse
    obtain ⟨uninit', notWell⟩ := not_plannedWell worse
    exact notWell (well uninit')
  · intro improves uninit'
    exact improves.plannedWell planned (fun j member => equalities j (subset j member)) sorted.nodup

/-- The joins of a chain of three tables. -/
def chain : List LogicalJoinNode := [⟨"a", "b", 1, 1, .eq⟩, ⟨"b", "c", 1, 1, .eq⟩]

/-- A first table that is dearer than the others. -/
def dearFirst : Statistics ℚ := ⟨fun t => ⟨if t = "a" then 2 else 1, 1⟩, fun _ => 1⟩

/-- The equivalence for the chain, whose second candidate improves. -/
theorem plannedWell_iff_chain :
    EachImproves dearFirst (planRounds dearFirst (fun _ _ => (0, 0)) chain [1]) chain chain ∧
      ∀ uninit, PlannedWell dearFirst (planRounds dearFirst (fun _ _ => (0, 0)) chain [1]) chain
        (planSet dearFirst uninit (planRounds dearFirst (fun _ _ => (0, 0)) chain [1]) chain) := by
  have improves : EachImproves dearFirst
      (planRounds dearFirst (fun _ _ => (0, 0)) chain [1]) chain chain := by
    unfold EachImproves
    decide +kernel
  have processed : schedule chain (List.range' 1 chain.length) =
      schedule chain [1] ++ chain :: [] := by decide +kernel
  have well := plannedWell_iff dearFirst (fun _ _ => (0, 0)) (by decide) processed
  rw [← planRounds_eq] at well
  exact ⟨improves, well.mpr improves⟩

/-- With tables that cost the same, the second way to get the pair is not cheaper than the first
one: an empty plan is stored, with the unset cost. -/
theorem not_plannedWell_chain :
    ¬ ∀ (input : Statistics ℚ) (uninit : Uninitialized ℚ) (joins : List LogicalJoinNode),
      Equalities joins → ¬ HasBigTable joins → ∀ before s after,
      schedule joins (List.range' 1 joins.length) = before ++ s :: after →
      PlannedWell input (before.foldl (planSet input uninit) PlanCache.empty) s
        ((before ++ [s]).foldl (planSet input uninit) PlanCache.empty) := by
  intro well
  have atPair := well onePage (fun _ _ => (0, 0)) chain (by decide) (by decide)
    (schedule chain [1]) chain [] (by decide +kernel)
  have joinable : Joinable onePage
      ((schedule chain [1]).foldl (planSet onePage fun _ _ => (0, 0)) PlanCache.empty) chain :=
    ⟨⟨"a", "b", 1, 1, .eq⟩, by decide, by decide +kernel⟩
  obtain ⟨card, cheapest⟩ := atPair.1 joinable
  have empty : ((schedule chain [1] ++ [chain]).foldl (planSet onePage fun _ _ => (0, 0))
      PlanCache.empty).getOrder chain = [] := by decide +kernel
  have orders := cheapest.orders
  rw [← cheapest.stored.1, empty, OrdersAll.nil_iff] at orders
  cases orders

end BuzzDB.Optimizer
