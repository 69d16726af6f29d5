import BuzzDB.Optimizer.JoinNode

/-!
# Ordering joins

`optimizer/join_optimizer.cc` of lab 4, with what it uses of `table_stats.cc`.  The
arithmetic on `double` is a parameter: no result on plans depends on it.  So are the values that
a `CostCard` declared without an initializer has in its `cost` and `card`.
-/

namespace BuzzDB.Optimizer

/-- The operations on `double` that the optimizer uses.  `literal m k` is the decimal literal with the
digits `m`, the last `k` of which stand behind the point. -/
class Double (D : Type) where
  lt : D → D → Bool
  add : D → D → D
  mul : D → D → D
  literal : Nat → Nat → D
  ofUInt64 : UInt64 → D
  toUInt64 : D → UInt64
  toInt32 : D → Int32
  dblMax : D

open Double

/-- `TableStats`, as far as the costs look at it. -/
structure TableStats where
  ioCostPerPage : Int64
  numPages : UInt64

variable {D : Type} [Double D]

/-- `TableStats::estimate_scan_cost`. -/
def TableStats.estimateScanCost (stats : TableStats) : D :=
  ofUInt64 (stats.ioCostPerPage.toUInt64 * stats.numPages)

/-- `TableStats::estimate_table_cardinality`. -/
def estimateTableCardinality (selectivityFactor : D) : UInt64 :=
  toUInt64 (mul (literal 10200 0) selectivityFactor)

/-- `estimate_join_cost`. -/
def estimateJoinCost (j : LogicalJoinNode) (card1 card2 : UInt64) (cost1 cost2 : D) : D :=
  let ioCost := add cost1 (mul (ofUInt64 card1) cost2)
  let cpuCost : D :=
    if j.op ≠ .eq then mul (ofUInt64 (card1 * card2)) (literal 15 1) else ofUInt64 (card1 * card2)
  add ioCost cpuCost

variable (D) in
/-- `estimate_join_cardinality`. -/
def estimateJoinCardinality (j : LogicalJoinNode) (card1 card2 : UInt64) (t1pkey t2pkey : Bool) :
    Int32 :=
  if j.op = .eq then
    if j.leftTable = "t1" ∧ j.rightTable = "t2" then 8160
    else if j.leftTable = "t2" ∧ j.rightTable = "t1" then 200
    else if t1pkey ∧ ¬ t2pkey then card2.toUInt32.toInt32
    else if ¬ t1pkey ∧ t2pkey then card1.toUInt32.toInt32
    else if t1pkey ∧ t2pkey then (if card2 < card1 then card2 else card1).toUInt32.toInt32
    else (if card1 < card2 then card2 else card1).toUInt32.toInt32
  else toInt32 (mul (mul (literal 3 1) (ofUInt64 card1)) (ofUInt64 card2) : D)

variable (D) in
/-- `CostCard`. -/
structure CostCard where
  cost : D
  card : Int32
  plan : List LogicalJoinNode

variable (D) in
/-- `PlanCache`: three maps with join sets as keys.  `operator[]` makes a zero of a missing cost or
cardinality. -/
structure PlanCache where
  bestOrders : List JoinKey → Option (List LogicalJoinNode)
  bestCosts : List JoinKey → D
  bestCardinalities : List JoinKey → Int32

namespace PlanCache

def empty : PlanCache D := ⟨fun _ => none, fun _ => literal 0 0, fun _ => 0⟩

/-- `add_plan`. -/
def addPlan (pc : PlanCache D) (s : JoinSet) (cost : D) (card : Int32)
    (order : List LogicalJoinNode) : PlanCache D where
  bestOrders := Function.update pc.bestOrders s.keys (some order)
  bestCosts := Function.update pc.bestCosts s.keys cost
  bestCardinalities := Function.update pc.bestCardinalities s.keys card

/-- `get_order`. -/
def getOrder (pc : PlanCache D) (s : JoinSet) : List LogicalJoinNode :=
  (pc.bestOrders s.keys).getD []

/-- `get_cost`. -/
def getCost (pc : PlanCache D) (s : JoinSet) : D := pc.bestCosts s.keys

/-- `get_card`. -/
def getCard (pc : PlanCache D) (s : JoinSet) : Int32 := pc.bestCardinalities s.keys

end PlanCache

/-- `does_join`. -/
def doesJoin (joinlist : List LogicalJoinNode) (tableName : String) : Bool :=
  joinlist.any fun j => j.leftTable = tableName || j.rightTable = tableName

/-- `has_Pkey`. -/
def hasPkey (joinlist : List LogicalJoinNode) : Bool :=
  joinlist.any fun j => j.leftField = 0 || j.rightField = 0

/-- The arguments of `order_joins`; `operator[]` makes zeros of a missing table. -/
structure Statistics (D : Type) where
  stats : String → TableStats
  filterSelectivities : String → D

section Subplan

variable (input : Statistics D)

/-- The estimates of a table on one side of a join, with whether its column is the primary key. -/
def baseTable (table : String) (col : UInt64) : D × UInt64 × Bool :=
  ((input.stats table).estimateScanCost,
    estimateTableCardinality (input.filterSelectivities table), col == 0)

variable (D) in
/-- The local variables of `compute_cost_and_card_of_subplan` that describe the two sides. -/
structure Sides where
  prevBest : List LogicalJoinNode
  t1 : D × UInt64 × Bool
  t2 : D × UInt64 × Bool

/-- The first half of `compute_cost_and_card_of_subplan`: `none` is its `return false`. -/
def sides (j : LogicalJoinNode) (joinSet : JoinSet) (pc : PlanCache D) : Option (Sides D) :=
  let s := joinSet.erase j
  if s.isEmpty then
    some ⟨[], baseTable input j.leftTable j.leftField, baseTable input j.rightTable j.rightField⟩
  else
    let prevBest := pc.getOrder s
    if prevBest.length = 0 then none
    else
      let best := (pc.getCost s, (pc.getCard s).toInt64.toUInt64, hasPkey prevBest)
      if doesJoin prevBest j.leftTable then
        some ⟨prevBest, best, baseTable input j.rightTable j.rightField⟩
      else if doesJoin prevBest j.rightTable then
        some ⟨prevBest, baseTable input j.leftTable j.leftField, best⟩
      else none

/-- The cost of the join, and of the join with its sides exchanged. -/
def Sides.costs (σ : Sides D) (j : LogicalJoinNode) : D × D :=
  let (t1Cost, t1Card, _) := σ.t1
  let (t2Cost, t2Card, _) := σ.t2
  (estimateJoinCost j t1Card t2Card t1Cost t2Cost,
    estimateJoinCost j.swapInnerOuter t2Card t1Card t2Cost t1Cost)

/-- The second half of `compute_cost_and_card_of_subplan`: the cheaper of the two, unless it is not
cheaper than the best one so far. -/
def Sides.choose (σ : Sides D) (j : LogicalJoinNode) (bestCostSoFar : D) : Option (CostCard D) :=
  let (_, t1Card, leftPkey) := σ.t1
  let (_, t2Card, rightPkey) := σ.t2
  let (cost1, cost2) := σ.costs j
  let j2 := j.swapInnerOuter
  if lt cost1 cost2 then
    if lt cost1 bestCostSoFar then
      some ⟨cost1, estimateJoinCardinality D j t1Card t2Card leftPkey rightPkey, σ.prevBest ++ [j]⟩
    else none
  else if lt cost2 bestCostSoFar then
    some ⟨cost2, estimateJoinCardinality D j2 t2Card t1Card rightPkey leftPkey, σ.prevBest ++ [j2]⟩
  else none

/-- `compute_cost_and_card_of_subplan`: `none` is `false`, otherwise `cc` is as the call leaves
it. -/
def computeCostAndCardOfSubplan (joinToRemove : LogicalJoinNode) (joinSet : JoinSet)
    (bestCostSoFar : D) (pc : PlanCache D) (cc : CostCard D) : Option (CostCard D) := do
  let σ ← sides input joinToRemove joinSet pc
  return (σ.choose joinToRemove bestCostSoFar).getD cc

/-- The values of an uninitialized `CostCard`, for each set and each join of it. -/
abbrev Uninitialized (D : Type) := JoinSet → LogicalJoinNode → D × Int32

variable (uninit : Uninitialized D)

/-- The body of the innermost loop of `order_joins`: the best card and `found_plan`. -/
def tryLast (pc : PlanCache D) (s : JoinSet) (best : CostCard D × Bool) (j : LogicalJoinNode) :
    CostCard D × Bool :=
  let card : CostCard D := ⟨(uninit s j).1, (uninit s j).2, []⟩
  match computeCostAndCardOfSubplan input j s best.1.cost pc card with
  | some card => (card, true)
  | none => best

/-- The best card for a set; its `card` is not read before a plan has been found. -/
def bestCard (pc : PlanCache D) (s : JoinSet) (candidates : List LogicalJoinNode) :
    CostCard D × Bool :=
  candidates.foldl (tryLast input uninit pc s) (⟨dblMax, 0, []⟩, false)

/-- The body of the loop over the subsets. -/
def planSet (pc : PlanCache D) (s : JoinSet) : PlanCache D :=
  let (best, foundPlan) := bestCard input uninit pc s s
  if foundPlan then pc.addPlan s best.cost best.card best.plan else pc

/-- The plan cache behind the rounds for the given sizes. -/
def planRounds (joins : List LogicalJoinNode) (sizes : List Nat) : PlanCache D :=
  sizes.foldl (fun pc i => (enumerateSubsets joins i).foldl (planSet input uninit) pc)
    PlanCache.empty

end Subplan

/-- The "big table" path. -/
def bigTableLast (joins : List LogicalJoinNode) : List LogicalJoinNode :=
  let rest := joins.filter fun node =>
    node.rightTable ≠ "big_table" ∧ node.leftTable ≠ "big_table"
  let last := joins.filterMap fun node =>
    if node.rightTable = "big_table" then some node
    else if node.leftTable = "big_table" then some node.swapInnerOuter
    else none
  rest ++ last

/-- A join with table "a" that is not an equality. -/
def isAJoin (node : LogicalJoinNode) : Bool :=
  (node.leftTable = "a" || node.rightTable = "a") && node.op ≠ .eq

/-- The path for joins that are not all equalities. -/
def nonEqualityLast (joins : List LogicalJoinNode) : List LogicalJoinNode :=
  match joins.find? isAJoin with
  | some aJoin => joins.filter (fun node => !node.equal aJoin) ++ [aJoin]
  | none => joins

/-- `order_joins`. -/
def orderJoins (input : Statistics D) (uninit : Uninitialized D) (joins : List LogicalJoinNode) :
    List LogicalJoinNode :=
  if joins.isEmpty then []
  else if joins.any fun j => j.rightTable = "big_table" || j.leftTable = "big_table" then
    bigTableLast joins
  else if joins.any fun j => j.op ≠ .eq then nonEqualityLast joins
  else (planRounds input uninit joins (List.range' 1 joins.length)).getOrder (allJoins joins)

end BuzzDB.Optimizer
