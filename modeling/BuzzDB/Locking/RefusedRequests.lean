import BuzzDB.Locking.CycleSearch
import BuzzDB.Locking.FrameTable

/-!
# Requests that are refused

What a `fix_page` that throws leaves behind.  A refused request for a lock keeps all locks, but it
replaces the edges of its transaction in `waiting_graph_`: a report takes them away, and a timeout
leaves the one to the last holder.  A `fix_page` of a page that is not in the pool has already
mapped it when its request is refused.
-/

namespace BuzzDB.Locking

open Paths

/-! ## What is in the way -/

section FrameLock

variable {f : FrameLockManager} {t : UInt64} {mode : LockMode}

/-- What is not granted at once meets an entry of another transaction, an exclusive one if the
request is for a shared lock. -/
theorem grantLock_refused (compatible : Compatible f.grantedLocks)
    (refused : ∀ f', f.grantLock t mode ≠ .granted f') :
    ∃ lock ∈ f.grantedLocks, lock.txnId ≠ t ∧ (mode = .exclusive ∨ lock.mode = .exclusive) := by
  unfold FrameLockManager.grantLock at refused
  split at refused
  · rename_i own found
    dsimp only at refused
    split at refused
    · exact absurd rfl (refused f)
    · rename_i insufficient
      split at refused
      · exact absurd rfl (refused _)
      · rename_i many
        have isExclusive : mode = .exclusive := by
          obtain ⟨differs, notExclusive⟩ := not_or.mp insufficient
          cases lockMode : own.mode with
          | exclusive => exact absurd lockMode notExclusive
          | shared =>
            cases mode with
            | exclusive => rfl
            | shared => exact absurd lockMode differs
        have member := List.mem_of_find?_eq_some found
        by_contra alone
        have allOwn : ∀ lock ∈ f.grantedLocks, lock.txnId = t := fun lock inside => by
          by_contra other
          exact alone ⟨lock, inside, other, Or.inl isExclusive⟩
        refine many (Nat.le_antisymm ?_ (List.length_pos_of_mem member))
        -- one transaction has one entry
        have same : ∀ x ∈ f.grantedLocks.map Lock.txnId, x = t := fun x inside => by
          obtain ⟨lock, member, rfl⟩ := List.mem_map.mp inside
          exact allOwn lock member
        have single := compatible.single
        rw [List.eq_replicate_of_mem same, List.nodup_replicate, List.length_map] at single
        exact single
  · rename_i notFound
    split at refused
    · exact absurd rfl (refused _)
    · rename_i notGranted
      have absent : Absent f.grantedLocks t := fun lock member own =>
        List.find?_eq_none.mp notFound lock member (decide_eq_true own)
      cases mode with
      | exclusive =>
        obtain ⟨lock, member⟩ := List.exists_mem_of_ne_nil _
          (mt List.isEmpty_iff.mpr notGranted)
        exact ⟨lock, member, absent lock member, Or.inl rfl⟩
      | shared =>
        rw [FrameLockManager.canGrant, List.all_eq_true] at notGranted
        push Not at notGranted
        obtain ⟨lock, member, conflicts⟩ := notGranted
        refine ⟨lock, member, absent lock member, Or.inr ?_⟩
        by_contra isShared
        exact conflicts (by simp [isShared])

end FrameLock

/-! ## What the checks leave of the waiting graph -/

/-- The checks for several holders report exactly if one of them has a path back; otherwise the
requester waits for the last one. -/
theorem checkDeadlocks_spec (t : UInt64) (holders : List UInt64) : ∀ graph : WaitingGraph,
    ((LockManager.checkDeadlocks t graph holders).1 = true ↔
      ∃ h ∈ holders, Leads (Edge graph) {t} h t) ∧
    ((LockManager.checkDeadlocks t graph holders).1 = true →
      ∀ v, ¬ Edge (LockManager.checkDeadlocks t graph holders).2 t v) ∧
    ((LockManager.checkDeadlocks t graph holders).1 = false → ∀ last ∈ holders.getLast?,
      ∀ v, Edge (LockManager.checkDeadlocks t graph holders).2 t v ↔ v = last) := by
  induction holders with
  | nil =>
    intro graph
    refine ⟨?_, fun impossible => ?_, fun _ last none => ?_⟩
    · simp [LockManager.checkDeadlocks]
    · cases impossible
    · cases none
  | cons holder holders ih =>
    intro graph
    simp only [LockManager.checkDeadlocks]
    cases report : (checkDeadlock graph t holder).1 with
    | true =>
      refine ⟨⟨fun _ => ⟨holder, List.mem_cons_self, checkDeadlock_iff.mp report⟩, fun _ => rfl⟩,
        fun _ v edge => (checkDeadlock_reported report edge).1 rfl, fun impossible => ?_⟩
      cases impossible
    | false =>
      have noPath : ¬ Leads (Edge graph) {t} holder t := fun leads => by
        rw [checkDeadlock_iff.mpr leads] at report
        cases report
      obtain ⟨reports, gone, stays⟩ := ih (graph.insert t [holder])
      rw [checkDeadlock_silent report]
      refine ⟨?_, gone, fun silent last isLast => ?_⟩
      · simp only [Bool.false_eq_true, if_false, reports, leads_insert, List.mem_cons,
          exists_eq_or_imp]
        exact (or_iff_right noPath).symm
      · cases holders with
        | nil =>
          cases isLast
          intro v
          simp [LockManager.checkDeadlocks, edge_insert]
        | cons next rest => exact stays silent last isLast

/-! ## A refused request -/

/-- The greatest of the ids. -/
def IsLast (ids : List UInt64) (v : UInt64) : Prop := v ∈ ids ∧ ∀ u ∈ ids, ¬ v < u

theorem IsLast.unique {ids : List UInt64} {u v : UInt64} (isLast : IsLast ids u)
    (isLast' : IsLast ids v) : u = v := by
  have notLess := UInt64.not_lt.mp (isLast.2 v isLast'.1)
  have notGreater := UInt64.not_lt.mp (isLast'.2 u isLast.1)
  exact UInt64.le_antisymm notGreater notLess

/-- The last element of the set that the scan collects. -/
theorem isLast_getLast {ids : List UInt64} {last : UInt64}
    (isLast : last ∈ (ids.foldl (fun set id => StdSet.insert idLt id set) []).getLast?) :
    IsLast ids last := by
  have mem : ∀ u, u ∈ ids.foldl (fun set id => StdSet.insert idLt id set) [] ↔ u ∈ ids := fun u =>
    (StdSet.mem_insertAll idLt_strict).trans (or_iff_right List.not_mem_nil)
  have ascending := StdSet.Ascending.insertAll idLt_strict ids (List.Pairwise.nil)
  obtain ⟨front, split⟩ := List.getLast?_eq_some_iff.mp isLast
  rw [split] at ascending mem
  refine ⟨(mem last).mp (by simp), fun u member less => ?_⟩
  rcases List.mem_append.mp ((mem u).mpr member) with before | here
  · have greater := (List.pairwise_append.mp ascending).2.2 u before last (List.mem_singleton_self _)
    exact UInt64.lt_irrefl _ (UInt64.lt_trans less (of_decide_eq_true greater))
  · rw [List.mem_singleton.mp here] at less
    exact UInt64.lt_irrefl _ less

/-- What a request that is refused leaves. -/
structure Refuses (lm : LockManager) (t p : UInt64) (lm' : LockManager) : Prop where
  granted : ∀ q, lm'.granted q = lm.granted q
  txnLocks : lm'.txnLocks = lm.txnLocks
  reported : (∃ h ∈ lm.holders t p, Leads (Edge lm.waitingGraph) {t} h t) →
    ∀ v, ¬ Edge lm'.waitingGraph t v
  timedOut : (¬ ∃ h ∈ lm.holders t p, Leads (Edge lm.waitingGraph) {t} h t) →
    ∀ v, Edge lm'.waitingGraph t v ↔ IsLast (lm.holders t p) v

section Refused

variable {lm : LockManager} {t p : UInt64} {mode : LockMode} {afterConflict : Bool}

/-- A wait that times out changes the waiting queue only. -/
theorem grantOrThrow_refused (compatible : Compatible (lm.granted p))
    (refused : (lm.grantOrThrow t p mode afterConflict).2 = false) :
    ((∀ q, (lm.grantOrThrow t p mode afterConflict).1.granted q = lm.granted q) ∧
      (lm.grantOrThrow t p mode afterConflict).1.txnLocks = lm.txnLocks ∧
      (lm.grantOrThrow t p mode afterConflict).1.waitingGraph = lm.waitingGraph) ∧
    ∃ lock ∈ lm.granted p, lock.txnId ≠ t ∧ (mode = .exclusive ∨ lock.mode = .exclusive) := by
  have notGranted : ∀ f, (lm.pageLocks p).grantLock t mode ≠ .granted f := fun f isGranted => by
    rw [LockManager.grantOrThrow, isGranted] at refused
    cases refused
  refine ⟨?_, grantLock_refused compatible notGranted⟩
  unfold LockManager.grantOrThrow
  rcases grantLock_cases (lm.pageLocks p) t mode with
    ⟨f, isGranted, _⟩ | ⟨position, waits, _⟩ | ⟨f, waits, same, _⟩
  · exact absurd isGranted (notGranted f)
  · rw [waits]
    exact ⟨fun _ => rfl, rfl, rfl⟩
  · rw [waits]
    refine ⟨fun q => ?_, rfl, rfl⟩
    rcases eq_or_ne q p with rfl | elsewhere
    · exact (LockManager.granted_setFrame_self lm q _).trans same
    · exact LockManager.granted_setFrame_of_ne lm _ elsewhere

/-- A conflicting entry makes the scan report a conflict. -/
theorem scan_conflict {lock : Lock} (agree : lm.Agree) (member : lock ∈ lm.granted p)
    (other : lock.txnId ≠ t) (conflicts : mode = .exclusive ∨ lock.mode = .exclusive) :
    ((lm.holders t p).any fun holder =>
      mode = .exclusive || (lm.pageLocks p).hasExclusiveLock holder) = true := by
  refine List.any_eq_true.mpr ⟨lock.txnId, LockManager.mem_holders.mpr ⟨other, ?_⟩, ?_⟩
  · exact (agree _ p).mpr ⟨lock, member, rfl, fun impossible => by cases impossible⟩
  · rw [Bool.or_eq_true, decide_eq_true_eq]
    refine conflicts.imp_right fun exclusive => hasExclusiveLock_iff.mpr ?_
    exact ⟨lock, member, rfl, fun _ => exclusive⟩

theorem acquireLock_refused (compatible : Compatible (lm.granted p)) (agree : lm.Agree)
    (refused : (lm.acquireLock t p mode).2 = false) : Refuses lm t p (lm.acquireLock t p mode).1 := by
  simp only [LockManager.acquireLock] at refused ⊢
  split at refused
  · cases refused
  · rename_i notEnough
    rw [if_neg notEnough]
    split at refused
    · -- the only entry is the transaction's own
      rename_i upgrade
      obtain ⟨_, lock, member, other, _⟩ := grantOrThrow_refused compatible refused
      obtain ⟨own, inside, isOwn, _⟩ := hasLock_iff.mp upgrade.1
      obtain ⟨only, isOnly⟩ := List.length_eq_one_iff.mp
        (of_decide_eq_true (Bool.and_eq_true _ _ |>.mp upgrade.2).2)
      rw [LockManager.granted, isOnly, List.mem_singleton] at member
      rw [isOnly, List.mem_singleton] at inside
      exact absurd isOwn (inside ▸ member ▸ other)
    · rename_i noUpgrade
      rw [if_neg noUpgrade]
      unfold LockManager.afterScan at refused ⊢
      split at refused
      · rename_i conflict
        rw [if_pos conflict]
        have mem : ∀ h, h ∈ (lm.holders t p).foldl (fun set h => StdSet.insert idLt h set) [] ↔
            h ∈ lm.holders t p := fun h =>
          (StdSet.mem_insertAll idLt_strict).trans (or_iff_right List.not_mem_nil)
        have last := @isLast_getLast (lm.holders t p)
        generalize (lm.holders t p).foldl (fun set h => StdSet.insert idLt h set) [] = lockHolders
          at refused mem last ⊢
        obtain ⟨reports, gone, stays⟩ := checkDeadlocks_spec t lockHolders lm.waitingGraph
        simp only [mem] at reports
        generalize LockManager.checkDeadlocks t lm.waitingGraph lockHolders = checked
          at refused reports gone stays ⊢
        obtain ⟨hasDeadlock, graph⟩ := checked
        cases hasDeadlock with
        | true =>
          exact {
            granted := fun _ => rfl
            txnLocks := rfl
            reported := fun _ => gone rfl
            timedOut := fun noPath => absurd (reports.mp rfl) noPath }
        | false =>
          simp only [Bool.false_eq_true, if_false] at refused ⊢
          have sameLocks : Compatible (({ lm with waitingGraph := graph } : LockManager).granted p) :=
            compatible
          obtain ⟨⟨granted, txnLocks, waitingGraph⟩, _⟩ := grantOrThrow_refused sameLocks refused
          refine ⟨granted, txnLocks, fun leads => ?_, fun _ v => ?_⟩
          · exact absurd (reports.mpr leads) Bool.false_ne_true
          · rw [waitingGraph]
            obtain ⟨h, isHolder, _⟩ := List.any_eq_true.mp conflict
            obtain ⟨greatest, isLast⟩ := List.getLast?_isSome.mpr
              (List.ne_nil_of_mem ((mem h).mpr isHolder)) |> Option.isSome_iff_exists.mp
            refine (stays rfl greatest isLast v).trans ⟨fun same => ?_, fun isLast' => ?_⟩
            · exact same ▸ last isLast
            · exact isLast'.unique (last isLast)
      · rename_i noConflict
        obtain ⟨_, lock, member, other, conflicts⟩ := grantOrThrow_refused compatible refused
        exact absurd (scan_conflict agree member other conflicts) noConflict

end Refused

namespace BufferManager

variable {α : Type*}

/-! ## Behind any calls -/

/-- The pool and the locks between calls. -/
structure Sound (bm : BufferManager α) : Prop where
  wf : bm.Wf
  compatible : ∀ p, Compatible (bm.lockManager.granted p)
  agree : bm.lockManager.Agree

variable {bm bm' : BufferManager α} {t p : UInt64} {mode : LockMode} {result : Fixed}

theorem Sound.keep (sound : bm.Sound) (wf : bm'.Wf) (lockManager : bm'.lockManager = bm.lockManager) :
    bm'.Sound where
  wf := wf
  compatible := lockManager ▸ sound.compatible
  agree := lockManager ▸ sound.agree

theorem Sound.fixes (sound : bm.Sound) (fixes : Fixes bm t p mode bm' result) : bm'.Sound := by
  by_cases full : result = .bufferFull
  · exact (fixes.full full).1 ▸ sound
  · have lockManager := (fixes.request full).1
    have spec := acquireLock_spec bm.lockManager t p mode
    refine ⟨fixes.wf, fun q => ?_, ?_⟩
    · rw [lockManager]
      exact spec.compatible sound.compatible q
    · rw [lockManager]
      exact sound.agree.acquireLock t p mode

theorem Sound.ends (sound : bm.Sound) (ends : Ends bm t bm') : bm'.Sound where
  wf := ends.wf
  compatible := by
    rw [ends.lockManager]
    exact (releaseAllLocks_spec bm.lockManager t).compatible sound.compatible
  agree := by
    rw [ends.lockManager]
    exact (sound.agree.releaseAllLocks t).1

variable [Zero α]

theorem Sound.call (sound : bm.Sound) (c : PublicCall α) : (bm.call c).Sound := by
  cases c with
  | operation operation =>
    cases operation with
    | fixPage t p mode => exact sound.fixes (sound.wf.fixPage t p mode)
    | write f offset value => exact sound.keep (sound.wf.writeData f offset value) rfl
    | unfixPage f isDirty =>
      refine sound.keep (sound.wf.unfixPage f isDirty) ?_
      rw [BufferManager.call, BufferManager.operate, BufferManager.unfixPage]
      split <;> rfl
    | flushAllPages =>
      have flushes := flushAllPages_flushes bm
      exact sound.keep (flushes.wf sound.wf) flushes.lockManager
    | flushPage p =>
      have flushes := flushPage_flushes bm p
      exact sound.keep (flushes.wf sound.wf) flushes.lockManager
    | discardPage p =>
      have discards := sound.wf.discardPage p
      exact sound.keep discards.wf discards.lockManager
    | discardAllPages => exact sound.keep (Wf.discardAllPages bm) rfl
    | flushPages t =>
      have flushes := flushPages_flushes bm t
      exact sound.keep (flushes.wf sound.wf) flushes.lockManager
    | transactionComplete t => exact sound.ends (sound.wf.transactionComplete t).1
    | transactionAbort t => exact sound.ends (sound.wf.transactionAbort t).1
  | discardPages t =>
    have discards := sound.wf.discardAll (SetMap.get bm.txnPages t)
    exact sound.keep (sound.wf.discardPages t) discards.lockManager

theorem Sound.callAll (pageSize pageCount : Nat) (disk : Disk α) (calls : List (PublicCall α)) :
    ((new pageSize pageCount disk).callAll calls).Sound := by
  refine callAll_induction (fun bm c sound => sound.call c) calls _ ?_
  exact ⟨Wf.new pageSize pageCount disk, fun _ => Compatible.nil, LockManager.Agree.new⟩

/-! ## A `fix_page` that throws -/

/-- The state is as it was: pool, tables, locks, and the edges of the transaction. -/
structure Unchanged (bm bm' : BufferManager α) (t : UInt64) : Prop where
  pageTable : bm'.pageTable = bm.pageTable
  freeFrames : bm'.freeFrames = bm.freeFrames
  txnPages : bm'.txnPages = bm.txnPages
  pageId : ∀ f, (bm'.pool f).pageId = (bm.pool f).pageId
  data : ∀ f, (bm'.pool f).data = (bm.pool f).data
  granted : ∀ p, bm'.lockManager.granted p = bm.lockManager.granted p
  txnLocks : bm'.lockManager.txnLocks = bm.lockManager.txnLocks
  edges : ∀ v, Edge bm'.lockManager.waitingGraph t v ↔ Edge bm.lockManager.waitingGraph t v

/-- Where a `fix_page` of `p` can throw and change nothing: the page is missing and no frame is
free; or it is there, and the transaction has no edge, if another one that has locked the page has
a path to it, or else only the one to the last of those. -/
def FailsCleanly (bm : BufferManager α) (t p : UInt64) : Prop :=
  match bm.pageTable p with
  | none => bm.freeFrames = []
  | some _ =>
    ((∃ h ∈ bm.lockManager.holders t p, Leads (Edge bm.lockManager.waitingGraph) {t} h t) →
      ∀ v, ¬ Edge bm.lockManager.waitingGraph t v) ∧
    ((¬ ∃ h ∈ bm.lockManager.holders t p, Leads (Edge bm.lockManager.waitingGraph) {t} h t) →
      ∀ v, Edge bm.lockManager.waitingGraph t v ↔ IsLast (bm.lockManager.holders t p) v)

omit [Zero α] in
/-- A refused request changes nothing exactly if the edges it leaves were there before. -/
theorem edges_iff {lm lm' : LockManager} (refuses : Refuses lm t p lm') :
    (∀ v, Edge lm'.waitingGraph t v ↔ Edge lm.waitingGraph t v) ↔
      ((∃ h ∈ lm.holders t p, Leads (Edge lm.waitingGraph) {t} h t) →
        ∀ v, ¬ Edge lm.waitingGraph t v) ∧
      ((¬ ∃ h ∈ lm.holders t p, Leads (Edge lm.waitingGraph) {t} h t) →
        ∀ v, Edge lm.waitingGraph t v ↔ IsLast (lm.holders t p) v) := by
  constructor
  · intro same
    refine ⟨fun leads v edge => ?_, fun noPath v => ?_⟩
    · exact refuses.reported leads v ((same v).mpr edge)
    · exact (same v).symm.trans (refuses.timedOut noPath v)
  · intro ⟨reported, timedOut⟩ v
    by_cases leads : ∃ h ∈ lm.holders t p, Leads (Edge lm.waitingGraph) {t} h t
    · exact iff_of_false (refuses.reported leads v) (reported leads v)
    · exact (refuses.timedOut leads v).trans (timedOut leads v).symm

omit [Zero α] in
theorem Sound.unchanged_iff (sound : bm.Sound)
    (throws : ∀ f, (bm.fixPage t p mode).2 ≠ .frame f) :
    Unchanged bm (bm.fixPage t p mode).1 t ↔ bm.FailsCleanly t p := by
  unfold FailsCleanly
  unfold BufferManager.fixPage at throws ⊢
  cases isMapped : bm.pageTable p with
  | some f =>
    simp only [isMapped] at throws ⊢
    split at throws
    · exact absurd rfl (throws f)
    · rename_i notAcquired
      rw [if_neg notAcquired]
      have refuses := acquireLock_refused (sound.compatible p) sound.agree
        (Bool.eq_false_iff.mpr notAcquired)
      rw [← edges_iff refuses]
      refine ⟨fun unchanged => unchanged.edges, fun edges => ?_⟩
      exact ⟨rfl, rfl, rfl, fun _ => rfl, fun _ => rfl, refuses.granted, refuses.txnLocks, edges⟩
  | none =>
    simp only [isMapped] at throws ⊢
    cases loads : bm.mapPage t p with
    | none =>
      have full : bm.freeFrames = [] := by
        unfold BufferManager.mapPage at loads
        split at loads
        · rename_i empty
          exact empty
        · cases loads
      refine iff_of_true ?_ full
      exact ⟨rfl, rfl, rfl, fun _ => rfl, fun _ => rfl, fun _ => rfl, rfl, fun _ => Iff.rfl⟩
    | some loaded =>
      obtain ⟨mid, f⟩ := loaded
      have maps := sound.wf.mapPage isMapped loads
      simp only [loads] at throws ⊢
      split at throws
      · exact absurd rfl (throws f)
      · rename_i notAcquired
        rw [if_neg notAcquired]
        -- the page stays mapped to the frame that was free
        refine iff_of_false (fun unchanged => ?_) fun full => ?_
        · have same := congrFun unchanged.pageTable p
          rw [isMapped] at same
          have now : mid.pageTable p = some f := by rw [maps.pageTable, Function.update_self]
          exact absurd (now.symm.trans same) (Option.some_ne_none f)
        · have isFree := maps.freeFrame
          rw [full] at isFree
          exact List.not_mem_nil isFree

/-- A `fix_page` that throws, behind any calls, changes nothing exactly if it fails cleanly. -/
theorem unchanged_iff_failsCleanly {pageSize pageCount : Nat} {disk : Disk α}
    {calls : List (PublicCall α)} (reached : bm = (new pageSize pageCount disk).callAll calls)
    (throws : ∀ f, (bm.fixPage t p mode).2 ≠ .frame f) :
    Unchanged bm (bm.fixPage t p mode).1 t ↔ bm.FailsCleanly t p := by
  subst reached
  exact (Sound.callAll pageSize pageCount disk calls).unchanged_iff throws

/-- Transactions 1 and 2 have a page each, and 1 has been refused that of 2. -/
def crossed : BufferManager UInt8 :=
  (new 2 2 fun _ => []).callAll [.operation (.fixPage 1 0 .exclusive),
    .operation (.fixPage 2 1 .exclusive), .operation (.fixPage 1 1 .exclusive)]

/-- Page 0 is evicted while 1 has it locked. -/
def evicted : BufferManager UInt8 :=
  (new 2 2 fun _ => []).callAll [.operation (.fixPage 1 0 .exclusive), .operation (.discardPage 0)]

/-- The request of 2 closes a cycle, and 2 has not waited before: nothing changes.  The request for the
evicted page changes something. -/
theorem unchanged_iff_failsCleanly_deadlock :
    (crossed.fixPage 2 0 .exclusive).2 = .abort ∧ Unchanged crossed (crossed.fixPage 2 0 .exclusive).1 2 ∧
      (evicted.fixPage 2 0 .exclusive).2 = .abort ∧
        ¬ Unchanged evicted (evicted.fixPage 2 0 .exclusive).1 2 := by
  have aborts : (crossed.fixPage 2 0 .exclusive).2 = .abort := by decide +kernel
  have aborts' : (evicted.fixPage 2 0 .exclusive).2 = .abort := by decide +kernel
  have exactly : Unchanged crossed (crossed.fixPage 2 0 .exclusive).1 2 ↔ crossed.FailsCleanly 2 0 :=
    unchanged_iff_failsCleanly rfl fun f isFrame => by cases aborts.symm.trans isFrame
  have exactly' : Unchanged evicted (evicted.fixPage 2 0 .exclusive).1 2 ↔ evicted.FailsCleanly 2 0 :=
    unchanged_iff_failsCleanly rfl fun f isFrame => by cases aborts'.symm.trans isFrame
  refine ⟨aborts, exactly.mpr ?_, aborts', fun unchanged => ?_⟩
  · have isMapped : crossed.pageTable 0 = some 0 := by decide +kernel
    have noEdge : SetMap.get crossed.lockManager.waitingGraph 2 = [] := by decide +kernel
    have cycle : ∃ h ∈ crossed.lockManager.holders 2 0,
        Leads (Edge crossed.lockManager.waitingGraph) {2} h 2 := by
      refine ⟨1, by decide +kernel, .cons ?_ (by decide +kernel : Edge _ 1 2) (.refl 2)⟩
      exact fun same => absurd (Set.mem_singleton_iff.mp same) (by decide)
    unfold FailsCleanly
    rw [isMapped]
    refine ⟨fun _ v edge => ?_, fun noCycle => absurd cycle noCycle⟩
    rw [Edge, noEdge] at edge
    cases edge
  · have missing : evicted.pageTable 0 = none := by decide +kernel
    have full := exactly'.mp unchanged
    unfold FailsCleanly at full
    rw [missing] at full
    exact absurd full (by decide +kernel)

/-- The `fix_page` of 2 throws, and leaves page 0 in the table, in a frame into which nothing has been
read. -/
theorem not_unchanged_evicted :
    (evicted.fixPage 2 0 .exclusive).2 = .abort ∧ evicted.pageTable 0 = none ∧
      (evicted.fixPage 2 0 .exclusive).1.pageTable 0 = some 1 ∧
      ¬ Unchanged evicted (evicted.fixPage 2 0 .exclusive).1 2 := by
  have missing : evicted.pageTable 0 = none := by decide +kernel
  have isMapped : (evicted.fixPage 2 0 .exclusive).1.pageTable 0 = some 1 := by decide +kernel
  refine ⟨by decide +kernel, missing, isMapped, fun unchanged => ?_⟩
  have same := congrFun unchanged.pageTable 0
  rw [missing, isMapped] at same
  cases same

end BufferManager

end BuzzDB.Locking
