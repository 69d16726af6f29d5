import BuzzDB.Lib.SetMap
import BuzzDB.Locking.FrameLock

/-!
# The lock manager

`LockManager` of lab 3, cut at its mutexes: every function here is one critical
section.  A page without an entry in `page_locks_` gets a fresh `FrameLockManager`.

The calls are in the next module.
-/

namespace BuzzDB.Locking

/-- The order of a `std::set<uint64_t>`. -/
def idLt (t u : UInt64) : Bool := decide (t < u)

theorem idLt_strict : StdSet.Strict idLt where
  irrefl t := decide_eq_false (UInt64.lt_irrefl t)
  trans less less' := decide_eq_true (UInt64.lt_trans (of_decide_eq_true less) (of_decide_eq_true less'))
  tri notLess notGreater := UInt64.le_antisymm (UInt64.not_lt.mp (of_decide_eq_false notGreater))
    (UInt64.not_lt.mp (of_decide_eq_false notLess))

/-- `waiting_graph_`. -/
abbrev WaitingGraph := SetMap UInt64 UInt64

/-- `LockManager`; `mutex` is the transaction whose call holds `mutex_` over several steps. -/
structure LockManager where
  pageLocks : UInt64 → FrameLockManager
  txnLocks : SetMap UInt64 UInt64
  waitingGraph : WaitingGraph
  mutex : Option UInt64

/-! ## The waiting graph -/

/-- `has_cycle`, with `visited` as it leaves it.  Every nested call has a further key of the graph
in `visited`, so that the number of keys bounds the nesting. -/
def hasCycle (graph : WaitingGraph) (startTxn : UInt64) :
    Nat → UInt64 → List UInt64 → Bool × List UInt64
  | 0, _, visited => (false, visited)
  | fuel + 1, currentTxn, visited =>
    if currentTxn = startTxn ∧ visited ≠ [] then (true, visited)
    else if currentTxn ∈ visited then (false, visited)
    else
      let visited := StdSet.insert idLt currentTxn visited
      let (found, visited) := (SetMap.get graph currentTxn).foldl
        (fun (state : Bool × List UInt64) waitingForTxn =>
          if state.1 then state else hasCycle graph startTxn fuel waitingForTxn state.2)
        (false, visited)
      if found then (true, visited) else (false, StdSet.erase currentTxn visited)

/-- `check_deadlock`, with the graph as it leaves it. -/
def checkDeadlock (graph : WaitingGraph) (txnId waitingFor : UInt64) : Bool × WaitingGraph :=
  let graph := graph.insert txnId [waitingFor]
  let (hasDeadlock, visited) := hasCycle graph txnId (graph.keys.length + 2) txnId []
  if hasDeadlock then
    let graph := SetMap.removeAll (graph.erase txnId) txnId
    let emptied := (graph.entries.filter fun entry => entry.2.isEmpty).map fun entry => entry.1
    let visited := emptied.foldl (fun visited key => StdSet.insert idLt key visited) visited
    (true, (visited.filter fun toRemove => toRemove ≠ txnId).foldl (fun graph key => graph.erase key)
      graph)
  else (false, graph)

namespace LockManager

/-- A lock manager without locks. -/
def new : LockManager := ⟨fun _ => {}, ∅, ∅, none⟩

variable (lm : LockManager)

/-- The granted locks of a page. -/
def granted (pageId : UInt64) : List Lock := (lm.pageLocks pageId).grantedLocks

/-- Replace the lock of a page. -/
def setFrame (pageId : UInt64) (f : FrameLockManager) : LockManager :=
  { lm with pageLocks := Function.update lm.pageLocks pageId f }

@[simp] theorem granted_setFrame_self (pageId : UInt64) (f : FrameLockManager) :
    (lm.setFrame pageId f).granted pageId = f.grantedLocks :=
  congrArg FrameLockManager.grantedLocks (Function.update_self _ _ _)

theorem granted_setFrame_of_ne {pageId other : UInt64} (f : FrameLockManager)
    (different : other ≠ pageId) : (lm.setFrame pageId f).granted other = lm.granted other :=
  congrArg FrameLockManager.grantedLocks (Function.update_of_ne different _ _)

/-- The transactions other than `txnId` that `txn_locks_` has for the page. -/
def holders (txnId pageId : UInt64) : List UInt64 :=
  (lm.txnLocks.entries.filter fun entry => entry.1 ≠ txnId && pageId ∈ entry.2).map
    fun entry => entry.1

/-- The last critical section of `acquire_lock`; behind a conflict the transaction leaves the
waiting graph. -/
def record (txnId pageId : UInt64) (afterConflict : Bool) : LockManager :=
  { lm with
    txnLocks := SetMap.add idLt lm.txnLocks txnId pageId
    waitingGraph := if afterConflict then lm.waitingGraph.erase txnId else lm.waitingGraph }

/-- The second critical section of `release_lock`. -/
def forget (txnId pageId : UInt64) : LockManager :=
  { lm with
    txnLocks := SetMap.remove lm.txnLocks txnId pageId
    waitingGraph := SetMap.removeAll (lm.waitingGraph.erase txnId) txnId }

end LockManager

end BuzzDB.Locking
