import BuzzDB.Locking.Isolation

/-!
# Fixing pages keeps the invariant

What the transactions do between their calls, and the sections of `fix_page`: the lookup or
the load, the request for the lock and the read.
-/

namespace BuzzDB.Locking.Isolation

open BufferManager (Flushes Maps Discards)

namespace State

variable {s s' : State} {t u p q : UInt64} {f g : Nat} {mode other : LockMode} {w : Writer}

/-- An action that changes neither locks nor pages. -/
theorem Frame.same (inv : s.Inv) (pcs : ∀ u, u ≠ t → s'.pcs u = s.pcs u)
    (mutex : ∀ u, u ≠ t → s.poolMutex = some u → s'.poolMutex = some u)
    (lockManager : s'.bm.lockManager = s.bm.lockManager)
    (pageTable : s'.bm.pageTable = s.bm.pageTable) (txnPages : s'.bm.txnPages = s.bm.txnPages)
    (loading : s'.loading = s.loading) (life : s'.life = s.life)
    (completed : ∀ w ∈ s.completed, w ∈ s'.completed)
    (handles : ∀ h ∈ s'.handles, h.txnId ≠ t → h ∈ s.handles) : Frame s s' t where
  pcs := pcs
  mutex := mutex
  covers u _ p mode := by rw [State.granted, lockManager, State.granted]
  pageTable u _ p f _ isMapped := pageTable ▸ isMapped
  loading u _ p := by rw [loading]
  gains u different p mode loads mine := by
    rw [State.granted, lockManager] at mine
    exact different (((inv.all u).loading p loads).2.2.1 t mode mine).symm
  txnPages _ _ := by rw [txnPages]
  txnLocks _ _ := by rw [lockManager]
  life _ _ := by rw [life]
  completed := completed
  handles := handles

/-- What a transaction owes stays owed where it does not end. -/
theorem Owes.same (frame : Frame s s' t) (granted : s'.granted p = s.granted p)
    (life : s'.life t = s.life t) (running : ¬ (s.pcs t).Aborts) (owes : s.Owes p w) :
    s'.Owes p w := by
  rcases eq_or_ne w.txnId t with isT | different
  · obtain ⟨alive, covers | window⟩ := owes
    · refine ⟨?_, Or.inl (granted ▸ covers)⟩
      rw [isT, life, ← isT]
      exact alive
    · exact absurd window.2.2 (isT ▸ running)
  · exact frame.owes different (fun empty => granted.trans empty) owes

/-- A transaction between its calls. -/
structure Resting (s : State) (t : UInt64) : Prop where
  locked : ∀ p, Covers (s.granted p) t .shared → p ∈ SetMap.get s.bm.lockManager.txnLocks t
  tracked : ∀ p, Covers (s.granted p) t .shared → p ∈ SetMap.get s.bm.txnPages t
  claims : ∀ p ∈ SetMap.get s.bm.txnPages t, Covers (s.granted p) t .shared
  loading : ∀ p, s.loading p ≠ some t

theorem Local.resting (holds : s.Local t) (idle : s.pcs t = .idle) : s.Resting t where
  locked p covers := (holds.locked p covers).resolve_left (by rw [idle]; exact id)
  tracked p covers := (holds.tracked p covers).resolve_left (by rw [idle]; exact id)
  claims p member := by
    rcases holds.claims p member with covers | loads | ends
    · exact covers
    · have isLoading := (holds.loading p loads).2.1
      rw [idle] at isLoading
      exact isLoading.elim
    · rw [idle] at ends
      exact ends.elim
  loading p loads := by
    have isLoading := (holds.loading p loads).2.1
    rw [idle] at isLoading
    exact isLoading

/-- A page that a resting transaction has locked has been read. -/
theorem Inv.read_of_covers (inv : s.Inv) (rests : s.Resting t)
    (covers : Covers (s.granted p) t mode) : s.loading p = none := by
  cases isLoading : s.loading p with
  | none => rfl
  | some u =>
    obtain rfl := ((inv.all u).loading p isLoading).2.2.1 t mode covers
    exact absurd isLoading (rests.loading p)

/-- Bytes in a page that a transaction has locked are its own, or of completed ones. -/
theorem Inv.bytes_of_covers (inv : s.Inv) (read : s.loading p = none)
    (covers : Covers (s.granted p) t mode) (isMapped : s.bm.pageTable p = some f) {byte : Byte}
    (member : byte ∈ (s.bm.pool f).data) (wrote : byte.writer = some w) :
    w ∈ s.completed ∨ w = s.writer t := by
  refine (inv.bytes p f isMapped read byte member w wrote).imp_right fun owes => ?_
  obtain ⟨alive, exclusive | window⟩ := owes
  · have own := (inv.compatible p).excludes exclusive covers
    rw [own, State.writer, ← alive]
  · obtain ⟨lock, inside, _⟩ := covers
    rw [window.1] at inside
    cases inside

/-! ## Writing -/

theorem Inv.write (inv : s.Inv) {h : Handle} (member : h ∈ s.handles)
    (exclusive : h.mode = .exclusive) (idle : s.pcs h.txnId = .idle) (offset : Nat)
    (value : UInt8) :
    Inv { s with bm := s.bm.writeData h.frameId offset ⟨value, some (s.writer h.txnId)⟩ } := by
  have holds := inv.all h.txnId
  obtain ⟨covers, isMapped, -⟩ := holds.handle h member rfl
  rw [exclusive] at covers
  have frame : Frame s { s with
      bm := s.bm.writeData h.frameId offset ⟨value, some (s.writer h.txnId)⟩ } h.txnId :=
    .same inv (fun _ _ => rfl) (fun _ _ => id) rfl rfl rfl rfl rfl (fun _ => id) fun _ member _ => member
  have running : ¬ (s.pcs h.txnId).Aborts := by
    rw [idle]
    exact id
  obtain ⟨place, mapped, locked, tracked, claims, loading, handle⟩ := holds
  refine inv.frame frame ⟨?_, mapped, locked, tracked, claims, loading, handle⟩
    (inv.wf.writeData _ offset _) inv.compatible (fun q g there read byte inside w wrote => ?_)
    inv.disk
  · rw [idle]
    trivial
  · have old : ∀ byte ∈ (s.bm.pool g).data, byte.writer = some w → w ∈ s.completed ∨
        Owes { s with bm := s.bm.writeData h.frameId offset ⟨value, some (s.writer h.txnId)⟩ } q w :=
      fun byte inside wrote => (inv.bytes q g there read byte inside w wrote).imp_right
        (Owes.same frame rfl rfl running)
    rcases eq_or_ne g h.frameId with rfl | different
    · simp only [BufferManager.writeData, BufferManager.pool_put_self] at inside
      rcases List.mem_or_eq_of_mem_set inside with before | rfl
      · exact old byte before wrote
      · obtain rfl := Option.some.inj wrote
        obtain rfl := inv.wf.injective isMapped there
        exact Or.inr ⟨rfl, Or.inl covers⟩
    · have same : (s.bm.writeData h.frameId offset ⟨value, some (s.writer h.txnId)⟩).pool g =
          s.bm.pool g := BufferManager.pool_put_of_ne different
      exact old byte (same ▸ inside) wrote

theorem Inv.unfixPage (inv : s.Inv) (f : Nat) (isDirty : Bool) :
    Inv { s with bm := s.bm.unfixPage f isDirty } := by
  unfold BufferManager.unfixPage
  split
  · refine ⟨inv.wf.put rfl (inv.wf.length f), inv.compatible, fun t => ?_,
      fun p g there read byte inside => ?_, inv.disk⟩
    · obtain ⟨place, mapped, locked, tracked, claims, loading, handle⟩ := inv.all t
      refine ⟨?_, mapped, locked, tracked, claims, loading, handle⟩
      exact place
    · have same : ((s.bm.put f { s.bm.pool f with dirty := true }).pool g).data =
          (s.bm.pool g).data := by
        rcases eq_or_ne g f with rfl | different
        · rw [BufferManager.pool_put_self]
        · rw [BufferManager.pool_put_of_ne different]
      exact inv.bytes p g there read byte (same ▸ inside)
  · exact inv

/-! ## Asking for a lock -/

/-- A call that looks up a page in the pool. -/
theorem Inv.lookup (inv : s.Inv) (valid : t ≠ invalidTxnId) (idle : s.pcs t = .idle)
    (free : s.poolMutex = none) (isMapped : s.bm.pageTable p = some f) :
    Inv { s.move t (.fixing p mode f false .getFrame) with poolMutex := some t } := by
  have rests := (inv.all t).resting idle
  have here : Function.update s.pcs t (.fixing p mode f false .getFrame) t =
      .fixing p mode f false .getFrame := Function.update_self _ _ _
  have frame : Frame s
      { s.move t (.fixing p mode f false .getFrame) with poolMutex := some t } t := by
    refine .same inv (fun u different => Function.update_of_ne different _ _)
      (fun u _ taken => ?_) rfl rfl rfl rfl rfl (fun _ => id) fun _ member _ => member
    rw [free] at taken
    cases taken
  refine inv.frame frame ?_ inv.wf inv.compatible (fun q g there read byte inside w wrote => ?_)
    inv.disk
  · refine ⟨?_, (inv.all t).mapped, fun q covers => Or.inr (rests.locked q covers),
      fun q covers => Or.inr (rests.tracked q covers), fun q member => Or.inl (rests.claims q member),
      fun q loads => absurd loads (rests.loading q), fun h member own => ?_⟩
    · change At _ t (Function.update s.pcs t _ t)
      rw [here]
      exact ⟨valid, rfl, isMapped, trivial, nofun⟩
    · obtain ⟨covers, there, -⟩ := (inv.all t).handle h member own
      refine ⟨covers, there, ?_⟩
      change ¬ (Function.update s.pcs t _ t).Ends
      rw [here]
      exact id
  · refine (inv.bytes q g there read byte inside w wrote).imp_right ?_
    refine Owes.same frame rfl rfl ?_
    rw [idle]
    exact id

section Load

variable {bm : BufferManager Byte}

/-- A call that loads a page, up to its request for the lock. -/
def loadPage (s : State) (t p : UInt64) (mode : LockMode) (f : Nat) (bm : BufferManager Byte) : State :=
  { s.move t (.fixing p mode f true .getFrame) with
    bm
    poolMutex := some t
    loading := Function.update s.loading p (some t) }

theorem loadPage_granted (maps : Maps s.bm t p bm f) (q : UInt64) :
    (s.loadPage t p mode f bm).granted q = s.granted q := by
  change bm.lockManager.granted q = s.bm.lockManager.granted q
  rw [maps.lockManager]

theorem loadPage_pcs : (s.loadPage t p mode f bm).pcs t = .fixing p mode f true .getFrame :=
  Function.update_self _ _ _

/-- Pages that are mapped stay where they are. -/
theorem loadPage_mapped (missing : s.bm.pageTable p = none) (maps : Maps s.bm t p bm f)
    (there : s.bm.pageTable q = some g) : (s.loadPage t p mode f bm).bm.pageTable q = some g := by
  have different : q ≠ p := by
    rintro rfl
    rw [missing] at there
    cases there
  change bm.pageTable q = some g
  rw [maps.pageTable, Function.update_of_ne different, there]

theorem loadPage_tracked (maps : Maps s.bm t p bm f) (member : q ∈ SetMap.get s.bm.txnPages u) :
    q ∈ SetMap.get bm.txnPages u := by
  rw [maps.txnPages]
  exact BufferManager.mem_track s.bm t p member

/-- Nobody has the page locked, or is loading it. -/
theorem Inv.unlocked (inv : s.Inv) (missing : s.bm.pageTable p = none) (u : UInt64) :
    (∀ mode, ¬ Covers (s.granted p) u mode) ∧ s.loading p ≠ some u :=
  ⟨fun _ covers => (inv.all u).mapped p covers.shared missing,
    fun loads => ((inv.all u).loading p loads).1 missing⟩

theorem Inv.load_frame (inv : s.Inv) (valid : t ≠ invalidTxnId) (free : s.poolMutex = none)
    (missing : s.bm.pageTable p = none) (maps : Maps s.bm t p bm f) :
    Frame s (s.loadPage t p mode f bm) t where
  pcs u different := Function.update_of_ne different _ _
  mutex u _ taken := by
    rw [free] at taken
    cases taken
  covers u _ q mode := by rw [loadPage_granted maps]
  pageTable u _ q g _ there := loadPage_mapped missing maps there
  loading u different q := by
    change Function.update s.loading p (some t) q = some u ↔ _
    rcases eq_or_ne q p with rfl | elsewhere
    · rw [Function.update_self]
      exact iff_of_false (fun same => different (Option.some.inj same).symm)
        (inv.unlocked missing u).2
    · rw [Function.update_of_ne elsewhere]
  gains u different q mode loads mine := by
    rw [loadPage_granted maps] at mine
    exact different (((inv.all u).loading q loads).2.2.1 t mode mine).symm
  txnPages u different := by
    change SetMap.get bm.txnPages u = _
    rw [maps.txnPages, BufferManager.txnPages_track valid, SetMap.get_add_of_ne different]
  txnLocks u _ := by
    change SetMap.get bm.lockManager.txnLocks u = _
    rw [maps.lockManager]
  life _ _ := rfl
  completed _ := id
  handles _ member _ := member

theorem Inv.load_local (inv : s.Inv) (valid : t ≠ invalidTxnId) (idle : s.pcs t = .idle)
    (missing : s.bm.pageTable p = none) (maps : Maps s.bm t p bm f) :
    (s.loadPage t p mode f bm).Local t := by
  have rests := (inv.all t).resting idle
  have old : ∀ q other, Covers ((s.loadPage t p mode f bm).granted q) t other →
      Covers (s.granted q) t other := fun q other covers => loadPage_granted maps q ▸ covers
  have mine : p ∈ SetMap.get bm.txnPages t := by
    rw [maps.txnPages]
    exact BufferManager.mem_track_self s.bm valid
  refine ⟨?_, fun q covers => ?_, fun q covers => ?_, fun q covers => ?_, fun q member => ?_,
    fun q loads => ?_, fun h member own => ?_⟩
  · rw [loadPage_pcs]
    exact ⟨valid, rfl, (congrFun maps.pageTable p).trans (Function.update_self _ _ _), trivial,
      fun _ => ⟨Function.update_self _ _ _, mine⟩⟩
  · obtain ⟨g, there⟩ := Option.ne_none_iff_exists'.mp ((inv.all t).mapped q (old q _ covers))
    rw [loadPage_mapped missing maps there]
    exact Option.some_ne_none g
  · refine Or.inr ?_
    change q ∈ SetMap.get bm.lockManager.txnLocks t
    rw [maps.lockManager]
    exact rests.locked q (old q _ covers)
  · exact Or.inr (loadPage_tracked maps (rests.tracked q (old q _ covers)))
  · rcases eq_or_ne q p with rfl | elsewhere
    · exact Or.inr (Or.inl (Function.update_self _ _ _))
    · refine Or.inl ?_
      rw [loadPage_granted maps]
      refine rests.claims q ?_
      change q ∈ SetMap.get bm.txnPages t at member
      rw [maps.txnPages, BufferManager.txnPages_track valid, SetMap.get_add_self] at member
      exact (StdSet.mem_of_mem_insert member).resolve_left elsewhere
  · change Function.update s.loading p (some t) q = some t at loads
    rcases eq_or_ne q p with rfl | elsewhere
    · refine ⟨?_, ?_, fun u mode covers => ?_, fun h member own same => ?_⟩
      · change bm.pageTable q ≠ none
        rw [maps.pageTable, Function.update_self]
        exact Option.some_ne_none f
      · rw [loadPage_pcs]
        rfl
      · rw [loadPage_granted maps] at covers
        exact absurd covers ((inv.unlocked missing u).1 mode)
      · obtain ⟨covers, -, -⟩ := (inv.all t).handle h member own
        exact (inv.unlocked missing t).1 h.mode (same ▸ covers)
    · rw [Function.update_of_ne elsewhere] at loads
      exact absurd loads (rests.loading q)
  · obtain ⟨covers, there, -⟩ := (inv.all t).handle h member own
    refine ⟨?_, loadPage_mapped missing maps there, ?_⟩
    · rw [loadPage_granted maps]
      exact covers
    · rw [loadPage_pcs]
      exact id

theorem Inv.load (inv : s.Inv) (valid : t ≠ invalidTxnId) (idle : s.pcs t = .idle)
    (free : s.poolMutex = none) (missing : s.bm.pageTable p = none) (maps : Maps s.bm t p bm f) :
    (s.loadPage t p mode f bm).Inv := by
  have frame : Frame s (s.loadPage t p mode f bm) t := inv.load_frame valid free missing maps
  refine inv.frame frame (inv.load_local valid idle missing maps) maps.wf
    (fun q => (loadPage_granted maps q).symm ▸ inv.compatible q)
    (fun q g there read byte inside w wrote => ?_) (maps.disk ▸ inv.disk)
  change bm.pageTable q = some g at there
  change Function.update s.loading p (some t) q = none at read
  rcases eq_or_ne q p with rfl | elsewhere
  · rw [Function.update_self] at read
    cases read
  · rw [Function.update_of_ne elsewhere] at read
    rw [maps.pageTable, Function.update_of_ne elsewhere] at there
    have same := maps.others g fun same => maps.unused q (same ▸ there)
    refine (inv.bytes q g there read byte (same ▸ inside) w wrote).imp_right ?_
    refine Owes.same frame (loadPage_granted maps q) rfl ?_
    rw [idle]
    exact id

end Load

theorem Inv.startFix (inv : s.Inv) (valid : t ≠ invalidTxnId) (idle : s.pcs t = .idle)
    (free : s.poolMutex = none) : (s.startFix t p mode).Inv := by
  cases isMapped : s.bm.pageTable p with
  | some f =>
    simp only [State.startFix, isMapped]
    exact inv.lookup valid idle free isMapped
  | none =>
    simp only [State.startFix, isMapped]
    cases loads : s.bm.mapPage t p with
    | none => exact inv
    | some loaded =>
      obtain ⟨bm, f⟩ := loaded
      exact inv.load valid idle free isMapped (inv.wf.mapPage isMapped loads)

/-! ## A section of the request for a lock -/

/-- What a section of the request changes. -/
structure Requests (s s' : State) (t p : UInt64) (mode : LockMode) (f : Nat) (loads : Bool)
    (lm : LockManager) (outcome : Outcome AcquirePc) : Prop where
  pcs : ∀ u, u ≠ t → s'.pcs u = s.pcs u
  mutex : ∀ pc, outcome = .next pc → s'.poolMutex = s.poolMutex
  wf : s.bm.Wf → s'.bm.Wf
  pool : s'.bm.pool = s.bm.pool
  pageTable : s'.bm.pageTable = s.bm.pageTable
  lockManager : s'.bm.lockManager = lm
  disk : s'.bm.disk = s.bm.disk
  txnPages : ∀ u, u ≠ t → SetMap.get s'.bm.txnPages u = SetMap.get s.bm.txnPages u
  keeps : ∀ q ∈ SetMap.get s.bm.txnPages t, q ∈ SetMap.get s'.bm.txnPages t
  adds : ∀ q ∈ SetMap.get s'.bm.txnPages t,
    q ∈ SetMap.get s.bm.txnPages t ∨ q = p ∧ outcome = .returned
  tracks : outcome = .returned → loads = false → p ∈ SetMap.get s'.bm.txnPages t
  loading : s'.loading = s.loading
  life : s'.life = s.life
  completed : s'.completed = s.completed
  handles : ∀ h ∈ s'.handles,
    h ∈ s.handles ∨ h = ⟨t, p, mode, f⟩ ∧ outcome = .returned ∧ loads = false

theorem acquired_requests (s : State) (p : UInt64) (mode : LockMode) (f : Nat) (loads : Bool)
    (lm : LockManager) (outcome : Outcome AcquirePc) (valid : t ≠ invalidTxnId) :
    Requests s (s.acquired t p mode f loads lm outcome) t p mode f loads lm outcome := by
  have wf : s.bm.Wf → ({ s.bm with lockManager := lm } : BufferManager Byte).Wf :=
    fun wf => ⟨wf.mapped, wf.stray, wf.free, wf.nodup, wf.length⟩
  have moved : ∀ pc u, u ≠ t → Function.update s.pcs t pc u = s.pcs u :=
    fun pc u different => Function.update_of_ne different _ _
  cases outcome with
  | next pc =>
    exact ⟨moved _, fun _ _ => rfl, wf, rfl, rfl, rfl, rfl, fun _ _ => rfl, fun _ => id,
      fun _ => Or.inl, nofun, rfl, rfl, rfl, fun _ => Or.inl⟩
  | threw =>
    exact ⟨moved _, nofun, wf, rfl, rfl, rfl, rfl, fun _ _ => rfl, fun _ => id, fun _ => Or.inl,
      nofun, rfl, rfl, rfl, fun _ => Or.inl⟩
  | returned =>
    cases loads with
    | true =>
      exact ⟨moved _, nofun, wf, rfl, rfl, rfl, rfl, fun _ _ => rfl, fun _ => id, fun _ => Or.inl,
        nofun, rfl, rfl, rfl, fun _ => Or.inl⟩
    | false =>
      have same := BufferManager.track_eq ({ s.bm with lockManager := lm } : BufferManager Byte) t p
      have pool := congrArg BufferManager.pool same
      have pageTable := congrArg BufferManager.pageTable same
      have lockManager := congrArg BufferManager.lockManager same
      have disk := congrArg BufferManager.disk same
      have pages : (s.acquired t p mode f false lm .returned).bm.txnPages =
          SetMap.add idLt s.bm.txnPages t p := BufferManager.txnPages_track valid
      exact {
        pcs := moved _
        mutex := nofun
        wf := fun before => (wf before).track t p
        pool := pool
        pageTable := pageTable
        lockManager := lockManager
        disk := disk
        txnPages := fun u different => by rw [pages, SetMap.get_add_of_ne different]
        keeps := fun q member => BufferManager.mem_track _ t p member
        adds := fun q member => by
          rw [pages, SetMap.get_add_self] at member
          exact (StdSet.mem_of_mem_insert member).symm.imp_right fun same => ⟨same, rfl⟩
        tracks := fun _ _ => BufferManager.mem_track_self _ valid
        loading := rfl
        life := rfl
        completed := rfl
        handles := fun h member =>
          (List.mem_cons.mp member).symm.imp_right fun same => ⟨same, rfl, rfl⟩ }

/-- Where a transaction is behind a section of the request. -/
def placeBehind (p : UInt64) (mode : LockMode) (f : Nat) (loads : Bool) : Outcome AcquirePc → Pc
  | .next pc => .fixing p mode f loads pc
  | .returned => if loads then .reading p mode f else .idle
  | .threw => .idle

theorem acquired_pcs (s : State) (t p : UInt64) (mode : LockMode) (f : Nat) (loads : Bool)
    (lm : LockManager) (outcome : Outcome AcquirePc) :
    (s.acquired t p mode f loads lm outcome).pcs t = placeBehind p mode f loads outcome := by
  cases outcome with
  | returned => cases loads <;> exact Function.update_self _ _ _
  | _ => exact Function.update_self _ _ _

section Request

variable {loads : Bool} {pc : AcquirePc} {lm : LockManager} {outcome : Outcome AcquirePc}

theorem Requests.granted (requests : Requests s s' t p mode f loads lm outcome) (q : UInt64) :
    s'.granted q = lm.granted q := by
  rw [State.granted, requests.lockManager]

theorem Requests.covers (requests : Requests s s' t p mode f loads lm outcome)
    (spec : AcquireStep s.bm.lockManager t p mode pc lm outcome)
    (covers : Covers (s.granted q) u other) : Covers (s'.granted q) u other :=
  requests.granted q ▸ spec.keeps covers

/-- Locks change on a page that is settled only, and are recorded next. -/
theorem granted_or_settled (spec : AcquireStep s.bm.lockManager t p mode pc lm outcome)
    (settled : lm.granted p ≠ s.granted p → s.Settled t p) (q : UInt64) :
    lm.granted q = s.granted q ∨ q = p ∧ s.Settled t p ∧
      ∃ afterConflict, outcome = .next (.record afterConflict) := by
  by_cases same : lm.granted q = s.granted q
  · exact Or.inl same
  · obtain rfl : q = p := by_contra fun elsewhere => same (spec.others q elsewhere)
    exact Or.inr ⟨rfl, settled same, spec.grants same⟩

/-- What a section of the request leaves to others. -/
theorem Requests.frame (requests : Requests s s' t p mode f loads lm outcome) (inv : s.Inv)
    (taken : s.poolMutex = some t) (spec : AcquireStep s.bm.lockManager t p mode pc lm outcome)
    (settled : lm.granted p ≠ s.granted p → s.Settled t p) : Frame s s' t where
  pcs := requests.pcs
  mutex u different other := by
    rw [taken, Option.some.injEq] at other
    exact absurd other.symm different
  covers u different q mode := by
    rw [requests.granted]
    exact spec.covers_iff different q mode
  pageTable _ _ _ _ _ isMapped := requests.pageTable ▸ isMapped
  loading _ _ _ := by rw [requests.loading]
  gains u different q mode loadsQ mine := by
    rw [requests.granted] at mine
    rcases granted_or_settled spec settled q with same | ⟨rfl, ⟨free, -⟩, -⟩
    · rw [same] at mine
      exact different (((inv.all u).loading q loadsQ).2.2.1 t mode mine).symm
    · rw [loadsQ] at free
      exact different (Option.some.inj (free.resolve_left (Option.some_ne_none u)))
  txnPages := requests.txnPages
  txnLocks u different := by
    rw [requests.lockManager]
    exact spec.txnLocks u different
  life _ _ := by rw [requests.life]
  completed _ member := requests.completed ▸ member
  handles h member other := (requests.handles h member).resolve_right
    fun new => other (congrArg Handle.txnId new.1)

/-- A transaction that records a lock is at the end of its request. -/
theorem records_of (spec : AcquireStep s.bm.lockManager t p mode pc lm outcome)
    (isAt : s.pcs t = .fixing p mode f loads pc) (isRecord : (s.pcs t).Records q) :
    q = p ∧ outcome = .returned ∧ p ∈ SetMap.get lm.txnLocks t := by
  rw [isAt] at isRecord
  cases pc with
  | record afterConflict => exact ⟨isRecord.symm, spec.records afterConflict rfl⟩
  | _ => exact isRecord.elim

/-! What holds of the transaction behind a section of its request, part by part. -/

section Local

variable (requests : Requests s s' t p mode f loads lm outcome) (holds : s.Local t)
  (isAt : s.pcs t = .fixing p mode f loads pc)
  (isAt' : s'.pcs t = placeBehind p mode f loads outcome)
  (spec : AcquireStep s.bm.lockManager t p mode pc lm outcome)

include requests spec

theorem Requests.gained (settled : lm.granted p ≠ s.granted p → s.Settled t p)
    (covers : Covers (s'.granted q) t .shared) : Covers (s.granted q) t .shared ∨
      q = p ∧ ∃ afterConflict, outcome = .next (.record afterConflict) := by
  rw [requests.granted] at covers
  rcases granted_or_settled spec settled q with same | ⟨isP, -, recording⟩
  · exact Or.inl (same ▸ covers)
  · exact Or.inr ⟨isP, recording⟩

theorem Requests.returned (isReturned : outcome = .returned) : Covers (s'.granted p) t mode := by
  subst isReturned
  rw [requests.granted]
  exact spec.knows

omit spec in
include isAt' in
theorem Requests.records {afterConflict : Bool} (isNext : outcome = .next (.record afterConflict)) :
    (s'.pcs t).Records p := by
  subst isNext
  rw [isAt']
  rfl

include holds isAt

omit requests spec in
/-- The page that the transaction is loading is that of its request. -/
theorem loads_of_fixing (loadsQ : s.loading q = some t) : p = q ∧ loads = true := by
  have place := (holds.loading q loadsQ).2.1
  rw [isAt] at place
  cases loads with
  | true => exact ⟨place, rfl⟩
  | false => exact place.elim

include isAt'

theorem Requests.place : s'.At t (s'.pcs t) := by
  obtain ⟨valid, taken, there, knows, loadsAt⟩ := holds.place_at isAt
  rw [isAt']
  cases outcome with
  | next pc' =>
    refine ⟨valid, (requests.mutex pc' rfl).trans taken, requests.pageTable ▸ there, ?_,
      fun isTrue => ?_⟩
    · rw [requests.granted]
      exact spec.knows
    · rw [requests.loading]
      exact (loadsAt isTrue).imp_right (requests.keeps p)
  | threw => trivial
  | returned =>
    cases loads with
    | false => trivial
    | true =>
      obtain ⟨loadsP, tracked⟩ := loadsAt rfl
      exact ⟨requests.pageTable ▸ there, requests.returned spec rfl, requests.loading ▸ loadsP,
        requests.keeps p tracked⟩

theorem Requests.locked (settled : lm.granted p ≠ s.granted p → s.Settled t p)
    (covers : Covers (s'.granted q) t .shared) :
    (s'.pcs t).Records q ∨ q ∈ SetMap.get s'.bm.lockManager.txnLocks t := by
  rw [requests.lockManager]
  rcases requests.gained spec settled covers with before | ⟨rfl, afterConflict, isNext⟩
  · rcases holds.locked q before with isRecord | locked
    · obtain ⟨rfl, -, locked⟩ := records_of spec isAt isRecord
      exact Or.inr locked
    · exact Or.inr (spec.keepsLocked q locked)
  · exact Or.inl (requests.records isAt' isNext)

theorem Requests.tracked (settled : lm.granted p ≠ s.granted p → s.Settled t p)
    (covers : Covers (s'.granted q) t .shared) :
    (s'.pcs t).Records q ∨ q ∈ SetMap.get s'.bm.txnPages t := by
  obtain ⟨-, -, -, -, loadsAt⟩ := holds.place_at isAt
  rcases requests.gained spec settled covers with before | ⟨rfl, afterConflict, isNext⟩
  · rcases holds.tracked q before with isRecord | tracked
    · obtain ⟨rfl, isReturned, -⟩ := records_of spec isAt isRecord
      cases isLoads : loads with
      | true => exact Or.inr (requests.keeps q (loadsAt isLoads).2)
      | false => exact Or.inr (requests.tracks isReturned isLoads)
    · exact Or.inr (requests.keeps q tracked)
  · exact Or.inl (requests.records isAt' isNext)

theorem Requests.stillLoads (refused : loads = true → outcome ≠ .threw) (frame : Frame s s' t)
    (loadsQ : s'.loading q = some t) :
    s'.bm.pageTable q ≠ none ∧ (s'.pcs t).Loads q ∧
      (∀ u mode, Covers (s'.granted q) u mode → u = t) ∧
      ∀ h ∈ s'.handles, h.txnId = t → h.pageId ≠ q := by
  rw [requests.loading] at loadsQ
  obtain ⟨isMapped, -, alone, free⟩ := holds.loading q loadsQ
  obtain ⟨rfl, isTrue⟩ := loads_of_fixing holds isAt loadsQ
  refine ⟨requests.pageTable ▸ isMapped, ?_, fun u mode theirs => ?_, fun h member own => ?_⟩
  · rw [isAt']
    cases outcome with
    | threw => exact absurd rfl (refused isTrue)
    | next pc' => cases isTrue; rfl
    | returned => cases isTrue; rfl
  · by_contra different
    exact different (alone u mode ((frame.covers u different _ _).mp theirs))
  · rcases requests.handles h member with before | ⟨-, -, isFalse⟩
    · exact free h before own
    · rw [isTrue] at isFalse
      cases isFalse

theorem Requests.handle {h : Handle} (member : h ∈ s'.handles) (own : h.txnId = t) :
    Covers (s'.granted h.pageId) t h.mode ∧ s'.bm.pageTable h.pageId = some h.frameId ∧
      ¬ (s'.pcs t).Ends := by
  obtain ⟨-, -, there, -, -⟩ := holds.place_at isAt
  have running : ¬ (s'.pcs t).Ends := by
    rw [isAt']
    cases outcome with
    | returned => cases loads <;> exact id
    | _ => exact id
  rcases requests.handles h member with before | ⟨rfl, isReturned, -⟩
  · obtain ⟨covers, isMapped, -⟩ := holds.handle h before own
    exact ⟨requests.covers spec covers, requests.pageTable ▸ isMapped, running⟩
  · exact ⟨requests.returned spec isReturned, requests.pageTable ▸ there, running⟩

theorem Requests.local (inv : s.Inv) (refused : loads = true → outcome ≠ .threw)
    (settled : lm.granted p ≠ s.granted p → s.Settled t p) : s'.Local t := by
  obtain ⟨-, taken, there, -, -⟩ := holds.place_at isAt
  have frame := requests.frame inv taken spec settled
  refine ⟨requests.place holds isAt isAt' spec, fun q covers => ?_,
    fun q => requests.locked holds isAt isAt' spec settled,
    fun q => requests.tracked holds isAt isAt' spec settled, fun q member => ?_,
    fun q => requests.stillLoads holds isAt isAt' spec refused frame,
    fun h => requests.handle holds isAt isAt' spec⟩
  · rw [requests.pageTable]
    rcases requests.gained spec settled covers with before | ⟨rfl, -⟩
    · exact holds.mapped q before
    · rw [there]
      exact Option.some_ne_none f
  · rcases requests.adds q member with before | ⟨rfl, isReturned⟩
    · rcases holds.claims q before with covers | loadsQ | ends
      · exact Or.inl (requests.covers spec covers)
      · exact Or.inr (Or.inl (requests.loading ▸ loadsQ))
      · rw [isAt] at ends
        exact ends.elim
    · exact Or.inl (requests.returned spec isReturned).shared

end Local

/-- A transaction that is to discard the page keeps others from getting a lock on it. -/
theorem still_free (spec : AcquireStep s.bm.lockManager t p mode pc lm outcome)
    (settled : lm.granted p ≠ s.granted p → s.Settled t p) (empty : s.granted q = [])
    (tracked : q ∈ SetMap.get s.bm.txnPages u) (aborts : (s.pcs u).Aborts) :
    lm.granted q = [] := by
  rcases granted_or_settled spec settled q with same | ⟨rfl, ⟨-, notReleased⟩, -⟩
  · exact same.trans empty
  · have released := notReleased u tracked
    unfold State.NotReleased at released
    cases isAborting : s.pcs u with
    | aborting _ | discarding =>
      rw [isAborting, empty] at released
      obtain ⟨lock, member, -⟩ := released
      cases member
    | _ =>
      rw [isAborting] at aborts
      exact aborts.elim

theorem Requests.owes (requests : Requests s s' t p mode f loads lm outcome)
    (frame : Frame s s' t) (isAt : s.pcs t = .fixing p mode f loads pc)
    (spec : AcquireStep s.bm.lockManager t p mode pc lm outcome)
    (settled : lm.granted p ≠ s.granted p → s.Settled t p) (owes : s.Owes q w) : s'.Owes q w := by
  obtain ⟨alive, covers | ⟨empty, tracked, aborts⟩⟩ := owes
  · exact ⟨requests.life ▸ alive, Or.inl (requests.covers spec covers)⟩
  · have different : w.txnId ≠ t := by
      intro isT
      rw [isT, isAt] at aborts
      exact aborts
    refine frame.owes different (fun _ => ?_) ⟨alive, Or.inr ⟨empty, tracked, aborts⟩⟩
    rw [requests.granted]
    exact still_free spec settled empty tracked aborts

theorem Inv.request (inv : s.Inv) (isAt : s.pcs t = .fixing p mode f loads pc)
    (spec : AcquireStep s.bm.lockManager t p mode pc lm outcome)
    (refused : loads = true → outcome ≠ .threw)
    (settled : lm.granted p ≠ s.granted p → s.Settled t p) :
    (s.acquired t p mode f loads lm outcome).Inv := by
  obtain ⟨valid, taken, -⟩ := (inv.all t).place_at isAt
  have requests := acquired_requests s p mode f loads lm outcome valid
  have isAt' := acquired_pcs s t p mode f loads lm outcome
  generalize s.acquired t p mode f loads lm outcome = s' at requests isAt' ⊢
  have frame := requests.frame inv taken spec settled
  refine inv.frame frame (requests.local (inv.all t) isAt isAt' spec inv refused settled)
    (requests.wf inv.wf)
    (fun q => ?_) (fun q g mapped read byte inside w wrote => ?_) ?_
  · rw [requests.granted]
    exact spec.compatible inv.compatible q
  · rw [requests.pageTable] at mapped
    rw [requests.loading] at read
    rw [requests.pool] at inside
    rw [requests.completed]
    exact (inv.bytes q g mapped read byte inside w wrote).imp_right
      (requests.owes frame isAt spec settled)
  · rw [requests.disk, requests.completed]
    exact inv.disk

end Request

/-! ## Reading a page -/

/-- A read that fills the frame leaves only bytes of completed transactions in it. -/
theorem Inv.bytes_read (inv : s.Inv) (isMapped : s.bm.pageTable p = some f) (fills : s.Fills p f)
    {byte : Byte} (member : byte ∈ ((s.bm.readFrame f).pool f).data)
    (wrote : byte.writer = some w) : w ∈ s.completed := by
  have page := inv.wf.mapped p f isMapped
  simp only [BufferManager.readFrame, BufferManager.pool_put_self, page] at member
  rcases fills with whole | blank
  · have onDisk := Disk.mem_readPage_of_whole (by rw [inv.wf.length]; exact whole) member
    exact inv.disk _ byte onDisk w wrote
  · rcases Disk.mem_readPage member with onDisk | stale
    · exact inv.disk _ byte onDisk w wrote
    · rw [blank] at stale
      rw [List.eq_of_mem_replicate stale] at wrote
      cases wrote

theorem Inv.read (inv : s.Inv) (isAt : s.pcs t = .reading p mode f) (fills : s.Fills p f) :
    Inv { s.returnFrame ⟨t, p, mode, f⟩ (s.bm.readFrame f) with
      loading := Function.update s.loading p none } := by
  have holds := inv.all t
  obtain ⟨there, covers, loadsP, tracked⟩ := holds.place_at isAt
  have here : Function.update s.pcs t Pc.idle t = .idle := Function.update_self _ _ _
  have other : ∀ q, s.loading q = some t → q = p := by
    intro q loadsQ
    have place := (holds.loading q loadsQ).2.1
    rw [isAt] at place
    exact place.symm
  have frame : Frame s { s.returnFrame ⟨t, p, mode, f⟩ (s.bm.readFrame f) with
      loading := Function.update s.loading p none } t := by
    refine {
      pcs := fun u different => Function.update_of_ne different _ _
      mutex := fun _ _ => id
      covers := fun _ _ _ _ => Iff.rfl
      pageTable := fun _ _ _ _ _ isMapped => isMapped
      loading := fun u different q => ?_
      gains := fun u different q mode loadsQ mine =>
        different (((inv.all u).loading q loadsQ).2.2.1 t mode mine).symm
      txnPages := fun _ _ => rfl
      txnLocks := fun _ _ => rfl
      life := fun _ _ => rfl
      completed := fun _ => id
      handles := fun h member different => (List.mem_cons.mp member).resolve_left
        fun new => different (congrArg Handle.txnId new) }
    dsimp only
    rcases eq_or_ne q p with rfl | elsewhere
    · rw [Function.update_self, loadsP]
      exact iff_of_false nofun fun same => different (Option.some.inj same).symm
    · rw [Function.update_of_ne elsewhere]
  have running : ¬ (s.pcs t).Aborts := by
    rw [isAt]
    exact id
  refine inv.frame frame ⟨?_, holds.mapped, fun q mine => ?_, fun q mine => ?_, fun q member => ?_,
    fun q loadsQ => ?_, fun h member own => ?_⟩ (inv.wf.put rfl ?_) inv.compatible
    (fun q g isMapped read byte inside w wrote => ?_) inv.disk
  · change At _ t (Function.update s.pcs t _ t)
    rw [here]
    trivial
  · exact Or.inr ((holds.locked q mine).resolve_left (by rw [isAt]; exact id))
  · exact Or.inr ((holds.tracked q mine).resolve_left (by rw [isAt]; exact id))
  · rcases holds.claims q member with mine | loadsQ | ends
    · exact Or.inl mine
    · obtain rfl := other q loadsQ
      exact Or.inl covers.shared
    · rw [isAt] at ends
      exact ends.elim
  · dsimp only at loadsQ
    rcases eq_or_ne q p with rfl | elsewhere
    · rw [Function.update_self] at loadsQ
      cases loadsQ
    · rw [Function.update_of_ne elsewhere] at loadsQ
      exact absurd (other q loadsQ) elsewhere
  · have stays : ¬ (Function.update s.pcs t Pc.idle t).Ends := by
      rw [here]
      exact id
    rcases List.mem_cons.mp member with rfl | before
    · exact ⟨covers, there, stays⟩
    · obtain ⟨mine, isMapped, -⟩ := holds.handle h before own
      exact ⟨mine, isMapped, stays⟩
  · exact (Disk.length_readPage _).trans (inv.wf.length f)
  · dsimp only at read
    rcases eq_or_ne q p with rfl | elsewhere
    · obtain rfl := Option.some.inj (there.symm.trans isMapped)
      exact Or.inl (inv.bytes_read there fills inside wrote)
    · rw [Function.update_of_ne elsewhere] at read
      have different : g ≠ f := fun same => elsewhere (inv.wf.injective (same ▸ isMapped) there)
      have same : (s.bm.readFrame f).pool g = s.bm.pool g :=
        BufferManager.pool_put_of_ne different
      exact (inv.bytes q g isMapped read byte (same ▸ inside) w wrote).imp_right
        (Owes.same frame rfl rfl running)

end State

end BuzzDB.Locking.Isolation
