import BuzzDB.Locking.WaitingGraph

/-!
# Cycle search and the removal of a victim

The recursion of `has_cycle` comes to an end for every graph: it goes no deeper than there are
transactions that wait.  From a transaction it returns whether a path leads back there.

`check_deadlock` takes the `visited` of that search for the transactions that wait for nobody
any more, and erases them.  They are the ones on the path that the search has found.
-/

namespace BuzzDB.Locking

open Paths Relation

/-- `has_cycle` with a bound on the depth of its recursion; `none` is a recursion that goes
deeper. -/
def hasCycleWithin (graph : WaitingGraph) (startTxn : UInt64) :
    Nat → UInt64 → List UInt64 → Option (Bool × List UInt64)
  | 0, _, _ => none
  | depth + 1, currentTxn, visited =>
    if currentTxn = startTxn ∧ visited ≠ [] then some (true, visited)
    else if currentTxn ∈ visited then some (false, visited)
    else do
      let (found, visited) ← (SetMap.get graph currentTxn).foldlM
        (fun (state : Bool × List UInt64) waitingForTxn =>
          if state.1 then some state else hasCycleWithin graph startTxn depth waitingForTxn state.2)
        (false, StdSet.insert idLt currentTxn visited)
      return if found then (true, visited) else (false, StdSet.erase currentTxn visited)

variable {graph : WaitingGraph} {startTxn currentTxn t u v holder : UInt64} {visited : List UInt64}
  {depth : Nat} {result : Bool × List UInt64}

/-! ## The search ends -/

theorem hasCycleWithin_succ :
    hasCycleWithin graph startTxn (depth + 1) currentTxn visited =
      if currentTxn = startTxn ∧ visited ≠ [] then some (true, visited)
      else if currentTxn ∈ visited then some (false, visited)
      else (tryEachWithin (hasCycleWithin graph startTxn depth) (SetMap.get graph currentTxn)
        (StdSet.insert idLt currentTxn visited)).map fun result =>
          if result.1 then (true, result.2) else (false, StdSet.erase currentTxn result.2) := by
  rw [hasCycleWithin]
  split
  · rfl
  · split
    · rfl
    · exact (Option.map_eq_bind ..).symm

/-- A bound that is not reached does not matter. -/
theorem hasCycleWithin_deeper
    (returns : hasCycleWithin graph startTxn depth currentTxn visited = some result) :
    hasCycleWithin graph startTxn (depth + 1) currentTxn visited = some result := by
  induction depth generalizing currentTxn visited result with
  | zero => cases returns
  | succ depth ih =>
    rw [hasCycleWithin_succ] at returns ⊢
    split at returns
    · rename_i back
      rw [if_pos back]
      exact returns
    · rename_i notBack
      rw [if_neg notBack]
      split at returns
      · rename_i seen
        rw [if_pos seen]
        exact returns
      · rename_i fresh
        rw [if_neg fresh]
        obtain ⟨state, loop, rfl⟩ := Option.map_eq_some_iff.mp returns
        rw [tryEachWithin_mono (fun a state result => ih) loop, Option.map_some]

/-- The depth is bounded by the transactions that wait and are not on the path. -/
theorem hasCycleWithin_eq (enough : (unvisited graph visited).card < depth) :
    hasCycleWithin graph startTxn depth currentTxn visited =
      some (hasCycle graph startTxn depth currentTxn visited) := by
  induction depth generalizing currentTxn visited with
  | zero => cases enough
  | succ depth ih =>
    rw [hasCycleWithin_succ, hasCycle_succ]
    split
    · rfl
    · split
      · rfl
      · rename_i fresh
        have nested : ∀ u ∈ SetMap.get graph currentTxn, ∀ below,
            marked below = marked (StdSet.insert idLt currentTxn visited) →
            hasCycleWithin graph startTxn depth u below =
              some (hasCycle graph startTxn depth u below) := fun u edge below same => by
          have fewer := unvisited_insert edge fresh
          refine ih ?_
          rw [unvisited_congr same]
          omega
        have restores : ∀ u ∈ SetMap.get graph currentTxn, ∀ below,
            marked below = marked (StdSet.insert idLt currentTxn visited) →
            (hasCycle graph startTxn depth u below).1 = false →
            marked (hasCycle graph startTxn depth u below).2 =
              marked (StdSet.insert idLt currentTxn visited) :=
          fun u _ below same fails => (hasCycle_restores fails).trans same
        rw [tryEachWithin_eq
          (P := fun below => marked below = marked (StdSet.insert idLt currentTxn visited)) rfl
          restores nested, Option.map_some]

/-- The first call finds something exactly if an edge of its transaction begins a path back. -/
theorem hasCycle_iff (enough : graph.keys.length < depth) :
    (hasCycle graph t depth t []).1 = true ↔ TransGen (Edge graph) t t := by
  obtain ⟨depth, rfl⟩ : ∃ less, depth = less + 1 := ⟨depth - 1, by omega⟩
  have notBack : ¬ (t = t ∧ ([] : List UInt64) ≠ []) := fun both => both.2 rfl
  have edges := @hasCycle_edges graph t t [] depth notBack List.not_mem_nil
  obtain ⟨found, notFound⟩ := edges
  have isMarked : ∀ below, marked below = insert t (marked []) → t ∈ below := fun below same => by
    have member : t ∈ marked below := same ▸ Set.mem_insert t _
    exact member
  constructor
  · intro isFound
    obtain ⟨u, edge, below, same, result⟩ := found isFound
    rw [result] at isFound
    have leads := hasCycle_sound (isMarked below same) isFound
    exact .head' edge (ReflTransGen.mono (fun x y step => step.2) u t leads)
  · intro cycle
    obtain ⟨u, edge, path⟩ := TransGen.head'_iff.mp cycle
    by_contra fails
    obtain ⟨below, same, none⟩ := notFound (Bool.eq_false_iff.mpr fails) u edge
    have fewer : (unvisited graph below).card < depth := by
      have less := unvisited_insert edge (List.not_mem_nil : t ∉ [])
      have most := card_unvisited_le graph []
      rw [unvisited_congr (same.trans marked_insert.symm)]
      omega
    have only : marked below = {t} := same.trans (Set.ext fun x => by simp [marked])
    rw [hasCycle_complete (isMarked below same) fewer (only ▸ Leads.first path)] at none
    cases none

/-- For every graph `has_cycle(t, t, {})` returns, with the same result for every depth that
exceeds the number of waiting transactions; the result is whether there is a cycle through `t`, and
without one `visited` is empty again. -/
theorem hasCycle_exact (graph : WaitingGraph) (t : UInt64) : ∃ result,
    (∀ depth, graph.keys.length < depth → hasCycleWithin graph t depth t [] = some result ∧
      hasCycle graph t depth t [] = result) ∧
    (result.1 = true ↔ TransGen (Edge graph) t t) ∧ (result.1 = false → result.2 = []) := by
  have enough : ∀ depth, graph.keys.length < depth → (unvisited graph []).card < depth :=
    fun depth deep => Nat.lt_of_le_of_lt (card_unvisited_le graph []) deep
  have returns : ∀ depth, graph.keys.length < depth → hasCycleWithin graph t depth t [] =
      some (hasCycle graph t (graph.keys.length + 1) t []) := by
    intro depth deep
    induction depth, deep using Nat.le_induction with
    | base => exact hasCycleWithin_eq (enough _ (Nat.lt_succ_self _))
    | succ depth _ ih => exact hasCycleWithin_deeper ih
  refine ⟨_, fun depth deep => ⟨returns depth deep, ?_⟩, hasCycle_iff (Nat.lt_succ_self _),
    fun fails => ?_⟩
  · exact Option.some.inj ((hasCycleWithin_eq (enough depth deep)).symm.trans (returns depth deep))
  · have same := hasCycle_restores fails
    refine List.eq_nil_iff_forall_not_mem.mpr fun x member => ?_
    exact List.not_mem_nil (Set.ext_iff.mp same x |>.mp member)

/-! ## What a report removes -/

/-- A search that finds something keeps what is marked, and marks its transaction unless it is back
at the start. -/
theorem hasCycle_path (found : (hasCycle graph startTxn depth currentTxn visited).1 = true) :
    marked visited ⊆ marked (hasCycle graph startTxn depth currentTxn visited).2 ∧
      (currentTxn ≠ startTxn →
        currentTxn ∈ (hasCycle graph startTxn depth currentTxn visited).2) := by
  induction depth generalizing currentTxn visited with
  | zero => cases found
  | succ depth ih =>
    by_cases back : currentTxn = startTxn ∧ visited ≠ []
    · rw [hasCycle_succ, if_pos back]
      exact ⟨subset_rfl, fun different => absurd back.1 different⟩
    · by_cases seen : currentTxn ∈ visited
      · rw [hasCycle_succ, if_neg back, if_pos seen] at found
        cases found
      · obtain ⟨u, _, below, same, result⟩ := (hasCycle_edges back seen).1 found
        rw [result] at found ⊢
        have kept := (ih found).1
        rw [same] at kept
        exact ⟨(Set.subset_insert _ _).trans kept, fun _ => kept (Set.mem_insert _ _)⟩

/-- `visited` as the search of `check_deadlock` leaves it. -/
def searchPath (graph : WaitingGraph) (txnId waitingFor : UInt64) : List UInt64 :=
  let graph := graph.insert txnId [waitingFor]
  (hasCycle graph txnId (graph.keys.length + 2) txnId []).2

/-- A report leaves the edges between transactions that are neither the victim nor on the path. -/
theorem edge_reported (reported : (checkDeadlock graph t holder).1 = true) :
    Edge (checkDeadlock graph t holder).2 u v ↔
      u ≠ t ∧ v ≠ t ∧ u ∉ searchPath graph t holder ∧ Edge graph u v := by
  unfold checkDeadlock at reported ⊢
  dsimp only at reported ⊢
  split at reported
  · rename_i found
    rw [if_pos found]
    dsimp only
    rw [edge_erase_all, edge_removeAll, edge_erase, edge_insert, List.mem_filter,
      StdSet.mem_insertAll idLt_strict]
    constructor
    · intro ⟨kept, notTarget, notSource, edge⟩
      obtain own | ⟨_, edge⟩ := edge
      · exact absurd own.1 notSource
      · refine ⟨notSource, notTarget, fun onPath => kept ⟨Or.inl onPath, ?_⟩, edge⟩
        exact decide_eq_true notSource
    · intro ⟨notSource, notTarget, offPath, edge⟩
      refine ⟨fun removed => ?_, notTarget, notSource, Or.inr ⟨notSource, edge⟩⟩
      rcases removed.1 with onPath | emptied
      · exact offPath onPath
      · -- a transaction whose set is empty has no edge
        obtain ⟨entry, member, isKey⟩ := List.mem_map.mp emptied
        obtain ⟨inside, isEmpty⟩ := List.mem_filter.mp member
        have waits : Edge (SetMap.removeAll (AList.erase t (graph.insert t [holder])) t) u v :=
          edge_removeAll.mpr ⟨notTarget, edge_erase.mpr ⟨notSource,
            edge_insert.mpr (Or.inr ⟨notSource, edge⟩)⟩⟩
        rw [Edge, SetMap.get, ← isKey, AList.mem_lookup_iff.mpr inside, Option.getD_some,
          List.isEmpty_iff.mp isEmpty] at waits
        exact List.not_mem_nil waits
  · cases reported

/-- The path goes on with the holder. -/
theorem searchPath_begin (reported : (checkDeadlock graph t holder).1 = true) :
    ∃ below depth, marked below = {t} ∧
      (hasCycle (graph.insert t [holder]) t (depth + 1) holder below).1 = true ∧
      searchPath graph t holder =
        (hasCycle (graph.insert t [holder]) t (depth + 1) holder below).2 := by
  have only : SetMap.get (graph.insert t [holder]) t = [holder] := by
    rw [SetMap.get, AList.lookup_insert, Option.getD_some]
  have found : (hasCycle (graph.insert t [holder]) t ((graph.insert t [holder]).keys.length + 2) t
      []).1 = true := (found_of_ite _ _ _).symm.trans reported
  obtain ⟨u, edge, below, same, result⟩ :=
    (hasCycle_edges (fun both => both.2 rfl) List.not_mem_nil).1 found
  rw [Edge, only, List.mem_singleton] at edge
  subst edge
  refine ⟨below, _, same.trans (Set.ext fun x => by simp [marked]), result ▸ found, ?_⟩
  exact congrArg Prod.snd result

theorem holder_mem_searchPath (reported : (checkDeadlock graph t holder).1 = true)
    (different : holder ≠ t) : holder ∈ searchPath graph t holder := by
  obtain ⟨below, depth, _, found, path⟩ := searchPath_begin reported
  rw [path]
  exact (hasCycle_path found).2 different

/-- A holder that waits for nobody but the requester is the whole path. -/
theorem searchPath_direct (reported : (checkDeadlock graph t holder).1 = true)
    (direct : holder = t ∨ ∀ v, Edge graph holder v → v = t)
    (member : u ∈ searchPath graph t holder) : u = t ∨ u = holder := by
  obtain ⟨below, depth, same, found, path⟩ := searchPath_begin reported
  have begun : ∀ x, x ∈ below ↔ x = t := fun x => Set.ext_iff.mp same x
  have notEmpty : ∀ {x : UInt64} {visited : List UInt64}, x ∈ visited → visited ≠ [] :=
    fun member => List.ne_nil_of_mem member
  rw [path] at member
  rcases eq_or_ne holder t with rfl | different
  · rw [hasCycle_succ, if_pos ⟨rfl, notEmpty ((begun holder).mpr rfl)⟩] at member
    exact Or.inl ((begun u).mp member)
  · have fresh : holder ∉ below := fun seen => different ((begun holder).mp seen)
    obtain ⟨v, edge, deeper, sameDeeper, result⟩ :=
      (hasCycle_edges (fun both => different both.1) fresh).1 found
    -- the one edge of the holder leads back
    have back : v = t := direct.resolve_left different v
      ((edge_insert.mp edge).resolve_left fun own => different own.1).2
    subst back
    rw [result] at found member
    cases depth with
    | zero => cases found
    | succ depth =>
      have inDeeper : ∀ x, x ∈ deeper ↔ x = holder ∨ x = v := fun x => by
        have isIn := Set.ext_iff.mp sameDeeper x
        rw [same] at isIn
        exact isIn
      rw [hasCycle_succ, if_pos ⟨rfl, notEmpty ((inDeeper v).mpr (Or.inr rfl))⟩] at member
      exact ((inDeeper u).mp member).symm

/-- What `check_deadlock` should do to the graph: a report takes out the victim and no edge between
others, and without a report only the edges of the requester change. -/
structure RemovesOnlyVictim (graph : WaitingGraph) (txnId waitingFor : UInt64)
    (result : Bool × WaitingGraph) : Prop where
  victim : result.1 = true → ∀ v, ¬ Edge result.2 txnId v ∧ ¬ Edge result.2 v txnId
  others : result.1 = true → ∀ u v, u ≠ txnId → v ≠ txnId → (Edge result.2 u v ↔ Edge graph u v)
  waits : result.1 = false → ∀ v, Edge result.2 txnId v ↔ v = waitingFor
  silent : result.1 = false → ∀ u v, u ≠ txnId → (Edge result.2 u v ↔ Edge graph u v)

/-- A report takes out no edge between others exactly if the holder is the requester or waits for
nobody else: every transaction on the path that the search has found loses its edges. -/
theorem removesOnlyVictim_iff (graph : WaitingGraph) (t holder : UInt64) :
    RemovesOnlyVictim graph t holder (checkDeadlock graph t holder) ↔
      (Leads (Edge graph) {t} holder t → holder = t ∨ ∀ v, Edge graph holder v → v = t) := by
  constructor
  · intro removes leads
    have reported := checkDeadlock_iff.mpr leads
    refine or_iff_not_imp_left.mpr fun different v edge => ?_
    by_contra notBack
    have kept := (removes.others reported holder v different notBack).mpr edge
    exact (edge_reported reported).mp kept |>.2.2.1 (holder_mem_searchPath reported different)
  · intro direct
    refine ⟨fun reported v => ⟨?_, ?_⟩, fun reported u v notSource notTarget => ?_,
      fun notFound v => ?_, fun notFound u v different => ?_⟩
    · exact fun edge => ((edge_reported reported).mp edge).1 rfl
    · exact fun edge => ((edge_reported reported).mp edge).2.1 rfl
    · have alone := direct (checkDeadlock_iff.mp reported)
      rw [edge_reported reported, and_iff_right notSource, and_iff_right notTarget]
      refine and_iff_right_of_imp fun edge onPath => ?_
      obtain isVictim | isHolder := searchPath_direct reported alone onPath
      · exact notSource isVictim
      · subst isHolder
        exact notTarget (alone.resolve_left notSource v edge)
    · rw [checkDeadlock_silent notFound, edge_insert]
      simp
    · rw [checkDeadlock_silent notFound, edge_insert]
      simp [different]

/-- Transaction 2 waits for 3, and 3 for 1. -/
def twoWaits : WaitingGraph := (AList.insert 2 [3] ∅ : WaitingGraph).insert 3 [1]

/-- The request of 1 against 2 closes a cycle of three, and the report takes out the edge from 2 to
3. -/
theorem not_removesOnlyVictim_three :
    (checkDeadlock twoWaits 1 2).1 = true ∧ Edge twoWaits 2 3 ∧
      ¬ Edge (checkDeadlock twoWaits 1 2).2 2 3 ∧
      ¬ RemovesOnlyVictim twoWaits 1 2 (checkDeadlock twoWaits 1 2) := by
  have reported : (checkDeadlock twoWaits 1 2).1 = true := by decide +kernel
  have before : Edge twoWaits 2 3 := by decide +kernel
  have after : ¬ Edge (checkDeadlock twoWaits 1 2).2 2 3 := by decide +kernel
  refine ⟨reported, before, after, fun removes => after ?_⟩
  exact (removes.others reported 2 3 (by decide) (by decide)).mpr before

end BuzzDB.Locking
