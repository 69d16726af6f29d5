import BuzzDB.Lib.Paths
import BuzzDB.Locking.LockManager
import Mathlib.Data.Finset.Card
import Mathlib.Data.Finset.SDiff

/-!
# The waiting graph

`has_cycle` finds a path back to its start if there is one: a search that finds nothing
leaves `visited` as it was, so that each branch is searched from the path that leads to it.
`check_deadlock` reports exactly the requests whose holder has a path to the requester in
`waiting_graph_`.  A report takes edges away, and no other edge appears.
-/

namespace BuzzDB.Locking

open Paths

/-- `waiting_graph_` has `txnId` wait for `waitingFor`. -/
def Edge (graph : WaitingGraph) (txnId waitingFor : UInt64) : Prop :=
  waitingFor ∈ SetMap.get graph txnId

instance (graph : WaitingGraph) (t u : UInt64) : Decidable (Edge graph t u) :=
  inferInstanceAs (Decidable (_ ∈ _))

variable {graph : WaitingGraph} {startTxn currentTxn t u v holder : UInt64} {visited : List UInt64}
  {fuel : Nat}

/-- The transactions in `visited`. -/
def marked (visited : List UInt64) : Set UInt64 := {t | t ∈ visited}

theorem marked_insert : marked (StdSet.insert idLt t visited) = insert t (marked visited) :=
  Set.ext fun _ => StdSet.mem_insert idLt_strict

/-- The transactions that wait and are not in `visited`: each nested call takes one of them. -/
def unvisited (graph : WaitingGraph) (visited : List UInt64) : Finset UInt64 :=
  graph.keys.toFinset \ visited.toFinset

theorem unvisited_congr {below : List UInt64} (same : marked below = marked visited) :
    unvisited graph below = unvisited graph visited := by
  refine congrArg (graph.keys.toFinset \ ·) (Finset.ext fun x => ?_)
  rw [List.mem_toFinset, List.mem_toFinset]
  exact Set.ext_iff.mp same x

theorem card_unvisited_le (graph : WaitingGraph) (visited : List UInt64) :
    (unvisited graph visited).card ≤ graph.keys.length :=
  (Finset.card_le_card Finset.sdiff_subset).trans (List.toFinset_card_le _)

theorem unvisited_insert (edge : Edge graph t u) (fresh : t ∉ visited) :
    (unvisited graph (StdSet.insert idLt t visited)).card < (unvisited graph visited).card := by
  have key : t ∈ graph.keys := by
    obtain ⟨entry, member, rfl, _⟩ := SetMap.mem_get.mp edge
    exact List.mem_map_of_mem member
  refine Finset.card_lt_card (Finset.ssubset_iff_of_subset ?_ |>.mpr ⟨t, ?_, ?_⟩)
  · intro x member
    obtain ⟨inKeys, notIn⟩ := Finset.mem_sdiff.mp member
    refine Finset.mem_sdiff.mpr ⟨inKeys, fun already => notIn ?_⟩
    exact List.mem_toFinset.mpr (StdSet.mem_insert_of_mem (List.mem_toFinset.mp already))
  · exact Finset.mem_sdiff.mpr ⟨List.mem_toFinset.mpr key, mt List.mem_toFinset.mp fresh⟩
  · intro member
    refine (Finset.mem_sdiff.mp member).2 (List.mem_toFinset.mpr ?_)
    exact StdSet.mem_insert_self idLt_strict t visited

/-- One call of `has_cycle`, with its loop as `tryEach`. -/
theorem hasCycle_succ :
    hasCycle graph startTxn (fuel + 1) currentTxn visited =
      if currentTxn = startTxn ∧ visited ≠ [] then (true, visited)
      else if currentTxn ∈ visited then (false, visited)
      else
        let result := tryEach (hasCycle graph startTxn fuel) (SetMap.get graph currentTxn)
          (StdSet.insert idLt currentTxn visited)
        if result.1 then (true, result.2) else (false, StdSet.erase currentTxn result.2) := rfl

/-- A search that finds nothing leaves `visited` with the same members. -/
theorem hasCycle_restores (fails : (hasCycle graph startTxn fuel currentTxn visited).1 = false) :
    marked (hasCycle graph startTxn fuel currentTxn visited).2 = marked visited := by
  induction fuel generalizing currentTxn visited with
  | zero => rfl
  | succ fuel ih =>
    rw [hasCycle_succ] at fails ⊢
    split at fails
    · cases fails
    · rename_i notBack
      rw [if_neg notBack]
      split at fails
      · rename_i seen
        rw [if_pos seen]
      · rename_i fresh
        rw [if_neg fresh]
        dsimp only at fails ⊢
        split at fails
        · cases fails
        · rename_i notFound
          rw [if_neg notFound]
          have inside := (tryEach_spec
            (P := fun state => marked state = marked (StdSet.insert idLt currentTxn visited)) rfl
            fun w _ state same fails => (ih fails).trans same).2 (Bool.eq_false_iff.mpr notFound)
          refine Set.ext fun x => ?_
          have member := Set.ext_iff.mp (inside.1.trans marked_insert) x
          change x ∈ StdSet.erase currentTxn _ ↔ x ∈ visited
          rw [StdSet.mem_erase]
          constructor
          · rintro ⟨isIn, different⟩
            exact (Set.mem_insert_iff.mp (member.mp isIn)).resolve_left different
          · intro isIn
            refine ⟨member.mpr (Set.mem_insert_of_mem _ isIn), ?_⟩
            rintro rfl
            exact fresh isIn

/-- A call that neither is back nor has been there tries the edges of its transaction, each with
this transaction marked as well. -/
theorem hasCycle_edges (notBack : ¬ (currentTxn = startTxn ∧ visited ≠ []))
    (fresh : currentTxn ∉ visited) :
    ((hasCycle graph startTxn (fuel + 1) currentTxn visited).1 = true →
        ∃ u, Edge graph currentTxn u ∧ ∃ below, marked below = insert currentTxn (marked visited) ∧
          hasCycle graph startTxn (fuel + 1) currentTxn visited =
            hasCycle graph startTxn fuel u below) ∧
      ((hasCycle graph startTxn (fuel + 1) currentTxn visited).1 = false →
        ∀ u, Edge graph currentTxn u → ∃ below,
          marked below = insert currentTxn (marked visited) ∧
            (hasCycle graph startTxn fuel u below).1 = false) := by
  have restores : ∀ u ∈ SetMap.get graph currentTxn, ∀ below,
      marked below = insert currentTxn (marked visited) →
      (hasCycle graph startTxn fuel u below).1 = false →
      marked (hasCycle graph startTxn fuel u below).2 = insert currentTxn (marked visited) :=
    fun u _ below same fails => (hasCycle_restores fails).trans same
  obtain ⟨found, notFound⟩ := tryEach_spec
    (P := fun below => marked below = insert currentTxn (marked visited)) marked_insert restores
  rw [hasCycle_succ, if_neg notBack, if_neg fresh]
  dsimp only
  rw [found_of_ite]
  refine ⟨fun isFound => ?_, fun fails => (notFound fails).2⟩
  obtain ⟨u, edge, below, same, result⟩ := found isFound
  refine ⟨u, edge, below, same, ?_⟩
  rw [if_pos isFound, ← result, ← isFound]

/-- What the search finds is a path back. -/
theorem hasCycle_sound (begun : startTxn ∈ visited)
    (found : (hasCycle graph startTxn fuel currentTxn visited).1 = true) :
    Leads (Edge graph) {startTxn} currentTxn startTxn := by
  induction fuel generalizing currentTxn visited with
  | zero => cases found
  | succ fuel ih =>
    by_cases back : currentTxn = startTxn
    · rw [back]
      exact Leads.refl startTxn
    · by_cases seen : currentTxn ∈ visited
      · rw [hasCycle_succ, if_neg fun both => back both.1, if_pos seen] at found
        cases found
      · obtain ⟨u, edge, below, same, result⟩ := (hasCycle_edges (fun both => back both.1) seen).1 found
        rw [result] at found
        have stillBegun : startTxn ∈ marked below := by
          rw [same]
          exact Set.mem_insert_of_mem _ begun
        exact Leads.cons back edge (ih stillBegun found)

/-- Every path back is found, as long as it avoids what is marked. -/
theorem hasCycle_complete (begun : startTxn ∈ visited)
    (enough : (unvisited graph visited).card < fuel)
    (leads : Leads (Edge graph) (marked visited) currentTxn startTxn) :
    (hasCycle graph startTxn fuel currentTxn visited).1 = true := by
  induction fuel generalizing currentTxn visited with
  | zero => cases enough
  | succ fuel ih =>
    by_cases back : currentTxn = startTxn
    · rw [hasCycle_succ, if_pos ⟨back, List.ne_nil_of_mem begun⟩]
    · have fresh : currentTxn ∉ visited := fun seen => back (leads.of_mem seen)
      by_contra fails
      have none := (hasCycle_edges (fun both => back both.1) fresh).2 (Bool.eq_false_iff.mpr fails)
      rcases leads.insert currentTxn with stuck | ⟨u, edge, rest⟩
      · exact back (stuck.of_mem (Set.mem_insert _ _))
      · obtain ⟨below, same, notFound⟩ := none u edge
        have stillBegun : startTxn ∈ marked below := by
          rw [same]
          exact Set.mem_insert_of_mem _ begun
        have fewer : (unvisited graph below).card < fuel := by
          have less := unvisited_insert edge fresh
          rw [unvisited_congr (same.trans marked_insert.symm)]
          omega
        rw [← same] at rest
        rw [ih stillBegun fewer rest] at notFound
        cases notFound

/-- The search begins with the only edge of its start. -/
theorem hasCycle_begin (only : SetMap.get graph t = [holder]) :
    (hasCycle graph t (fuel + 1) t []).1 = (hasCycle graph t fuel holder [t]).1 := by
  rw [hasCycle_succ, if_neg fun both => both.2 rfl, if_neg List.not_mem_nil, only]
  have once : tryEach (hasCycle graph t fuel) [holder] [t] = hasCycle graph t fuel holder [t] := rfl
  exact (found_of_ite _ _ _).trans (congrArg Prod.fst once)

/-! ## `check_deadlock` -/

/-- The graph in which the cycle is looked for has one edge of the transaction. -/
theorem edge_insert : Edge (graph.insert t [holder]) u v ↔
    u = t ∧ v = holder ∨ u ≠ t ∧ Edge graph u v := by
  unfold Edge SetMap.get
  rcases eq_or_ne u t with rfl | different
  · rw [AList.lookup_insert, Option.getD_some, List.mem_singleton]
    simp
  · rw [AList.lookup_insert_ne different]
    simp [different]

theorem edge_erase : Edge (AList.erase t graph) u v ↔ u ≠ t ∧ Edge graph u v := by
  unfold Edge
  rcases eq_or_ne u t with rfl | different
  · rw [SetMap.get_erase_self]
    simp
  · rw [SetMap.get_erase_of_ne different]
    simp [different]

theorem edge_removeAll : Edge (SetMap.removeAll graph t) u v ↔ v ≠ t ∧ Edge graph u v := by
  unfold Edge
  rw [SetMap.mem_get, SetMap.mem_get]
  constructor
  · rintro ⟨entry, member, rfl, isIn⟩
    obtain ⟨before, inside, rfl⟩ := List.mem_map.mp member
    obtain ⟨old, different⟩ := StdSet.mem_erase.mp isIn
    exact ⟨different, before, inside, rfl, old⟩
  · rintro ⟨different, entry, inside, rfl, old⟩
    exact ⟨_, List.mem_map_of_mem inside, rfl, StdSet.mem_erase.mpr ⟨old, different⟩⟩

/-- Taking out keys takes out their edges. -/
theorem edge_erase_all {keys : List UInt64} :
    Edge (keys.foldl (fun graph key => AList.erase key graph) graph) u v ↔
      u ∉ keys ∧ Edge graph u v := by
  induction keys generalizing graph with
  | nil => simp
  | cons key keys ih => rw [List.foldl_cons, ih, edge_erase, List.mem_cons, not_or]; tauto

/-- A path back to the requester does not depend on the edges of the requester. -/
theorem leads_insert : Leads (Edge (graph.insert t [holder])) {t} u v ↔ Leads (Edge graph) {t} u v := by
  have same : ∀ x, x ∉ ({t} : Set UInt64) → ∀ y,
      Edge (graph.insert t [holder]) x y ↔ Edge graph x y := fun x fresh y => by
    have different : x ≠ t := fresh
    rw [edge_insert, or_iff_right fun own => different own.1, and_iff_right different]
  exact ⟨Leads.congr fun x fresh y => (same x fresh y).mp,
    Leads.congr fun x fresh y => (same x fresh y).mpr⟩

/-- A deadlock is reported exactly if the holder has a path to the requester. -/
theorem checkDeadlock_iff :
    (checkDeadlock graph t holder).1 = true ↔ Leads (Edge graph) {t} holder t := by
  have only : SetMap.get (graph.insert t [holder]) t = [holder] := by
    rw [SetMap.get, AList.lookup_insert, Option.getD_some]
  have search : (checkDeadlock graph t holder).1 =
      (hasCycle (graph.insert t [holder]) t ((graph.insert t [holder]).keys.length + 1) holder
        [t]).1 := by
    rw [← hasCycle_begin only]
    exact found_of_ite _ _ _
  have enough : (unvisited (graph.insert t [holder]) [t]).card <
      (graph.insert t [holder]).keys.length + 1 :=
    Nat.lt_succ_of_le (card_unvisited_le _ _)
  have isMarked : marked [t] = {t} := Set.ext fun x => List.mem_singleton
  rw [search]
  constructor
  · exact fun found => leads_insert.mp (hasCycle_sound (List.mem_singleton_self t) found)
  · intro leads
    refine hasCycle_complete (List.mem_singleton_self t) enough ?_
    rw [isMarked]
    exact leads_insert.mpr leads

instance (graph : WaitingGraph) (t holder : UInt64) : Decidable (Leads (Edge graph) {t} holder t) :=
  decidable_of_iff _ checkDeadlock_iff

/-- Without a report, the transaction waits for the holder and for nobody else. -/
theorem checkDeadlock_silent (silent : (checkDeadlock graph t holder).1 = false) :
    (checkDeadlock graph t holder).2 = graph.insert t [holder] := by
  unfold checkDeadlock at silent ⊢
  dsimp only at silent ⊢
  split at silent
  · cases silent
  · rename_i notFound
    rw [if_neg notFound]

/-- A report takes the transaction out of the graph, and adds nothing. -/
theorem checkDeadlock_reported (reported : (checkDeadlock graph t holder).1 = true)
    (edge : Edge (checkDeadlock graph t holder).2 u v) : u ≠ t ∧ v ≠ t ∧ Edge graph u v := by
  unfold checkDeadlock at reported edge
  dsimp only at reported edge
  split at reported
  · rename_i found
    rw [if_pos found] at edge
    obtain ⟨notTarget, rest⟩ := edge_removeAll.mp (edge_erase_all.mp edge).2
    obtain ⟨notSource, inserted⟩ := edge_erase.mp rest
    exact ⟨notSource, notTarget,
      (edge_insert.mp inserted).resolve_left (fun own => notSource own.1) |>.2⟩
  · cases reported

end BuzzDB.Locking
