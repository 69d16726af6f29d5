import BuzzDB.Lib.Machine
import BuzzDB.Locking.Reloading

/-!
# Records of reloaded pages

`header.buffer_frame` is the address at which a page was constructed, and it goes to disk with the page.
A page that is loaded again is used with its own slots as long as its frame has that address.

The runs are those of `HeapSegment`, of transactions that complete, and of pages that are dropped.
-/

namespace BuzzDB.Locking

open FramePool PagePool HeapSegment

/-- The address of the frame of a page. -/
def HeapSystem.addressOf (s : HeapSystem) (p : UInt64) : UInt64 :=
  ((s.bm.pageTable p).bind fun f => s.addresses[f]?).getD 0

namespace Reloading

/-- A segment and its buffer manager, with the `TID`s that `allocate` has returned.  Beside them, where
each page was constructed, with which size each record was allocated and what was last written to it. -/
structure State where
  segment : HeapSegment
  pool : HeapSystem
  tids : List UInt64
  origin : UInt64 → UInt64
  size : UInt64 → UInt32
  written : UInt64 → List UInt8

/-- The calls of a run. -/
inductive Action
  | allocate (txnId : UInt64) (size : UInt32)
  | write (txnId tid : UInt64) (record : List UInt8)
  | read (txnId tid : UInt64) (capacity : UInt32)
  | transactionComplete (txnId : UInt64)
  | discardPage (pageId : UInt64)
  | discardPages (txnId : UInt64)
  | discardAllPages (addresses : List UInt64) (distinct : addresses.Nodup)

namespace State

/-- A segment that has just been constructed, over existing segment files. -/
def new (segmentId : UInt16) (pageSize pageCount : Nat) (disk : Disk UInt8) (addresses : List UInt64)
    (distinct : addresses.Nodup) : State where
  segment := .new segmentId
  pool := .new pageSize pageCount disk addresses distinct
  tids := []
  origin := fun _ => 0
  size := fun _ => 0
  written := fun _ => []

variable (s : State)

/-- Another buffer manager under the segment. -/
def withBm (bm : BufferManager UInt8) : State := { s with pool := { s.pool with bm } }

/-- The next page of the segment. -/
def nextPage : UInt64 := getOverallPageId s.segment.segmentId s.segment.pageCount

/-- One call. -/
def step : Action → Option State
  | .allocate txnId size => do
    let (pool, segment, tid) ← HeapManager.allocate (σ := HeapSystem) txnId s.pool s.segment size
    return {
      segment
      pool
      tids := tid :: s.tids
      origin :=
        if segment.pageCount = s.segment.pageCount then s.origin
        else Function.update s.origin s.nextPage (pool.addressOf s.nextPage)
      size := Function.update s.size tid size
      written := Function.update s.written tid [] }
  | .write txnId tid record => do
    let pool ← HeapManager.write (σ := HeapSystem) txnId s.pool s.segment tid record
    return { s with
      pool
      written := Function.update s.written tid (record ++ (s.written tid).drop record.length) }
  | .read txnId tid capacity => do
    let (pool, _) ← HeapManager.read (σ := HeapSystem) txnId s.pool s.segment tid capacity
    return { s with pool }
  | .transactionComplete txnId => some (s.withBm (s.pool.bm.transactionComplete txnId))
  | .discardPage pageId => some (s.withBm (s.pool.bm.discardPage pageId))
  | .discardPages txnId => some (s.withBm (s.pool.bm.discardPages txnId))
  | .discardAllPages addresses distinct =>
    some { s with pool := ⟨s.pool.bm.discardAllPages, addresses, distinct⟩ }

/-- The segment file has the pages that are dropped. -/
def Saves (bm' : BufferManager UInt8) : Prop :=
  ∀ p ∈ s.segment.pages, (s.pool.bm.pageTable p).isSome → bm'.pageTable p = none → s.pool.bm.Saved p

instance (bm' : BufferManager UInt8) : Decidable (s.Saves bm') := List.decidableBAll _ _

/-- Records are used as they were allocated, by a page with room for the slot, and pages are dropped that
are on disk. -/
def Careful : Action → Prop
  | .allocate _ size => s.segment.Fitting s.pool size
  | .write _ tid record => tid ∈ s.tids ∧ record.length ≤ (s.size tid).toNat
  | .read _ tid capacity => tid ∈ s.tids ∧ capacity ≤ s.size tid
  | .transactionComplete _ => True
  | .discardPage pageId => s.Saves (s.pool.bm.discardPage pageId)
  | .discardPages txnId => s.Saves (s.pool.bm.discardPages txnId)
  | .discardAllPages _ _ => s.Saves s.pool.bm.discardAllPages

instance : DecidablePred s.Careful
  | .allocate _ _ => inferInstanceAs (Decidable (s.segment.Fitting s.pool _))
  | .write _ _ _ => inferInstanceAs (Decidable (_ ∧ _))
  | .read _ _ _ => inferInstanceAs (Decidable (_ ∧ _))
  | .transactionComplete _ => isTrue trivial
  | .discardPage _ => inferInstanceAs (Decidable (s.Saves _))
  | .discardPages _ => inferInstanceAs (Decidable (s.Saves _))
  | .discardAllPages _ _ => inferInstanceAs (Decidable (s.Saves _))

/-- The page is where it was constructed, or is loaded there behind so many other pages. -/
def AtOrigin (loaded : Nat) (p : UInt64) : Prop :=
  ∀ f ∈ s.pool.bm.frameBehind loaded p, s.pool.addresses[f]? = some (s.origin p)

instance (loaded : Nat) (p : UInt64) : Decidable (s.AtOrigin loaded p) := Option.decidableForallMem _

/-- The pages that the loop of `allocate` loads in front of a page. -/
def loadsBefore (p : UInt64) : Nat := s.pool.bm.loads (s.segment.pages.takeWhile (· ≠ p))

/-- The page whose slots a call uses is where it was constructed. -/
def Stays : Action → Prop
  | .allocate _ size => ∀ p ∈ s.segment.spacePage s.pool size, s.AtOrigin (s.loadsBefore p) p
  | .write _ tid _ => s.AtOrigin 0 (overallPageIdOf s.segment.segmentId tid)
  | .read _ tid _ => s.AtOrigin 0 (overallPageIdOf s.segment.segmentId tid)
  | _ => True

instance : DecidablePred s.Stays
  | .allocate _ _ => Option.decidableForallMem _
  | .write _ _ _ => inferInstanceAs (Decidable (s.AtOrigin 0 _))
  | .read _ _ _ => inferInstanceAs (Decidable (s.AtOrigin 0 _))
  | .transactionComplete _ => isTrue trivial
  | .discardPage _ => isTrue trivial
  | .discardPages _ => isTrue trivial
  | .discardAllPages _ _ => isTrue trivial

/-- A `read` that gets its page returns what was last written. -/
def ReadsBack (txnId tid : UInt64) (capacity : UInt32) : Prop :=
  (HeapSystem.fixPage txnId false s.pool (overallPageIdOf s.segment.segmentId tid)).isSome →
    ∃ bytes, (HeapManager.read (σ := HeapSystem) txnId s.pool s.segment tid capacity).map Prod.snd =
        some (bytes, s.size tid) ∧
      bytes.length = capacity.toNat ∧
      bytes.take (s.written tid).length = (s.written tid).take capacity.toNat

/-- `getSlot` and `addSlot` use the slots in the frame of the page, and a `read` returns what was last
written. -/
def Survives : Action → Prop
  | .allocate txnId size => s.segment.FindsOwn (HeapSystem.fixPage txnId true) s.pool size
  | .write txnId tid _ => s.segment.Lands (HeapSystem.fixPage txnId true) s.pool tid
  | .read txnId tid capacity =>
    s.segment.Lands (HeapSystem.fixPage txnId false) s.pool tid ∧ s.ReadsBack txnId tid capacity
  | _ => True

/-! ## The invariant -/

/-- The records are in the pages, and each page points to where it was constructed. -/
structure Inv (s : State) : Prop where
  holds : s.segment.Holds s.pool s.tids
  origin : ∀ p ∈ s.segment.pages, SlottedPage.bufferFrame (view s.pool p) = s.origin p
  size : ∀ tid ∈ s.tids, SlottedPage.slotLength (s.segment.slotOf s.pool tid) = s.size tid
  written : ∀ tid ∈ s.tids, s.written tid <+: s.segment.contentOf s.pool tid

variable {s} {s' : State} {pool : HeapSystem} {mid : HeapSystem} {p : UInt64} {f : Nat}
  {txnId tid : UInt64} {record : List UInt8} {size capacity : UInt32} {exclusive : Bool}
  {action : Action}

theorem Inv.new (segmentId : UInt16) (pageSize pageCount : Nat) (disk : Disk UInt8)
    (addresses : List UInt64) (distinct : addresses.Nodup) :
    (new segmentId pageSize pageCount disk addresses distinct).Inv where
  holds := ⟨BufferManager.Wf.new pageSize pageCount disk, (show 0 < 2 ^ 48 by decide),
    fun _ impossible => (List.not_mem_nil impossible).elim,
    fun _ impossible => (List.not_mem_nil impossible).elim⟩
  origin _ impossible := (List.not_mem_nil impossible).elim
  size _ impossible := (List.not_mem_nil impossible).elim
  written _ impossible := (List.not_mem_nil impossible).elim

/-- Steps that callers do not see. -/
theorem Inv.views (inv : s.Inv) (wf : Wf pool)
    (same : ∀ p ∈ s.segment.pages, Whole pool p ∧ view pool p = view s.pool p) :
    ({ s with pool } : State).Inv where
  holds := inv.holds.views wf same
  origin p member := by
    have here := inv.origin p member
    rw [← (same p member).2] at here
    exact here
  size tid member := by
    have slot := (content_view (same _ (inv.holds.names tid member).page).2).1
    exact (congrArg SlottedPage.slotLength slot).trans (inv.size tid member)
  written tid member := by
    have content := (content_view (same _ (inv.holds.names tid member).page).2).2
    have here := inv.written tid member
    rw [← content] at here
    exact here

theorem Inv.keeps (inv : s.Inv) (keeps : Keeps s.pool pool) : ({ s with pool } : State).Inv :=
  inv.views keeps.wf fun p member => keeps.view p (inv.holds.pages p member).1

/-! ## The frame of a page -/

/-- A page points to its frame when it was constructed there. -/
theorem own_iff (whole : Whole s.pool p)
    (pointer : SlottedPage.bufferFrame (view s.pool p) = s.origin p) (keeps : Keeps s.pool mid)
    (home : Home mid p f) :
    slotFrame mid f = some f ↔ s.pool.addresses[f]? = some (s.origin p) := by
  have data : getData mid f = view s.pool p :=
    (shown mid p f keeps.wf home).2.symm.trans (keeps.view p whole).2
  rw [slotFrame_iff (nodup mid keeps.wf), keeps.addresses, data, pointer]
  rfl

theorem Inv.own_iff (inv : s.Inv) (member : p ∈ s.segment.pages) (keeps : Keeps s.pool mid)
    (home : Home mid p f) :
    slotFrame mid f = some f ↔ s.pool.addresses[f]? = some (s.origin p) :=
  State.own_iff (inv.holds.pages p member).1 (inv.origin p member) keeps home

/-- The page of a `TID` that is fixed where it was constructed. -/
theorem lands_of_atOrigin (wf : Wf s.pool)
    (whole : Whole s.pool (overallPageIdOf s.segment.segmentId tid))
    (pointer : SlottedPage.bufferFrame (view s.pool (overallPageIdOf s.segment.segmentId tid)) =
      s.origin (overallPageIdOf s.segment.segmentId tid))
    (atOrigin : s.AtOrigin 0 (overallPageIdOf s.segment.segmentId tid)) :
    s.segment.Lands (HeapSystem.fixPage txnId exclusive) s.pool tid := by
  intro mid f fixed
  obtain ⟨keeps, home⟩ := HeapSystem.fixes txnId exclusive s.pool _ mid f wf fixed
  exact (own_iff whole pointer keeps home).mpr (atOrigin f (HeapSystem.fixPage_frame fixed))

theorem Inv.lands (inv : s.Inv) (member : tid ∈ s.tids)
    (atOrigin : s.AtOrigin 0 (overallPageIdOf s.segment.segmentId tid)) :
    s.segment.Lands (HeapSystem.fixPage txnId exclusive) s.pool tid := by
  have isPage := (inv.holds.names tid member).page
  exact lands_of_atOrigin inv.holds.wf (inv.holds.pages _ isPage).1 (inv.origin _ isPage) atOrigin

theorem Inv.atOrigin (inv : s.Inv) (member : tid ∈ s.tids)
    (lands : s.segment.Lands (HeapSystem.fixPage txnId exclusive) s.pool tid)
    (fixed : HeapSystem.fixPage txnId exclusive s.pool (overallPageIdOf s.segment.segmentId tid) =
      some (mid, f)) : s.AtOrigin 0 (overallPageIdOf s.segment.segmentId tid) := by
  intro g isFrame
  obtain ⟨keeps, home⟩ := HeapSystem.fixes txnId exclusive s.pool _ mid f inv.holds.wf fixed
  obtain rfl := Option.some.inj ((HeapSystem.fixPage_frame fixed).symm.trans isFrame)
  exact (inv.own_iff (inv.holds.names tid member).page keeps home).mp (lands mid f fixed)

/-- The page that the loop of `allocate` finds, and its frame. -/
theorem Inv.found {found : Option Nat} (inv : s.Inv)
    (ran : findSpace (HeapSystem.fixPage txnId true) size s.pool s.segment.pages = some (mid, found)) :
    Keeps s.pool mid ∧ ∀ p, s.segment.spacePage s.pool size = some p →
      p ∈ s.segment.pages ∧ ∃ f, found = some f ∧ Home mid p f ∧
        s.pool.bm.frameBehind (s.loadsBefore p) p = some f := by
  obtain ⟨keeps, isFound⟩ := findSpace_spec (HeapSystem.fixes txnId true) inv.holds.wf
    (fun p member => (inv.holds.pages p member).1) ran
  refine ⟨keeps, fun p isPage => ?_⟩
  have isFirst : s.segment.pages.find? (fun q => decide (size ≤ freeSpaceOf s.pool q)) = some p := isPage
  rw [isFirst] at isFound
  obtain ⟨f, rfl, home⟩ := isFound
  refine ⟨List.mem_of_find?_eq_some isPage, f, rfl, home, ?_⟩
  obtain ⟨front, q, back, same, isMapped, frame⟩ :=
    HeapSystem.findSpace_frame inv.holds.wf (nodup_pages inv.holds.few) ran
  obtain rfl : p = q := BufferManager.Wf.injective keeps.wf home isMapped
  have nodup := nodup_pages inv.holds.few
  rw [same, List.nodup_append] at nodup
  have before : s.segment.pages.takeWhile (· ≠ p) = front := by
    rw [same, List.takeWhile_append_of_pos]
    · rw [List.takeWhile_cons_of_neg (by simp), List.append_nil]
    · intro q member
      exact decide_eq_true (nodup.2.2 q member p List.mem_cons_self)
  rw [loadsBefore, before]
  exact frame

theorem Inv.findsOwn (inv : s.Inv) (stays : s.Stays (.allocate txnId size)) :
    s.segment.FindsOwn (HeapSystem.fixPage txnId true) s.pool size := by
  intro mid f ran
  obtain ⟨keeps, isFound⟩ := inv.found ran
  obtain ⟨-, p, isPage, -⟩ := findSpace_found (HeapSystem.fixes txnId true) inv.holds.wf
    (fun p member => (inv.holds.pages p member).1) ran
  obtain ⟨member, g, same, home, frame⟩ := isFound p isPage
  cases same
  exact (inv.own_iff member keeps home).mpr (stays p isPage f frame)

/-- What a `read` returns of a record, if its page is used with its own slots. -/
theorem Inv.readsBack (inv : s.Inv) (member : tid ∈ s.tids) (short : capacity ≤ s.size tid)
    (lands : s.segment.Lands (HeapSystem.fixPage txnId false) s.pool tid) :
    s.ReadsBack txnId tid capacity := by
  intro gets
  obtain ⟨⟨mid, f⟩, fixed⟩ := Option.isSome_iff_exists.mp gets
  have returned : (HeapManager.read (σ := HeapSystem) txnId s.pool s.segment tid capacity).map Prod.snd =
    _ := inv.holds.read_result member (HeapSystem.fixes txnId false) lands fixed capacity
  have length := inv.holds.length_content member
  have isSize := inv.size tid member
  obtain ⟨rest, content⟩ := inv.written tid member
  rw [isSize] at length returned
  rw [if_pos short] at returned
  refine ⟨_, returned, ?_, ?_⟩
  · rw [List.length_take, length]
    exact Nat.min_eq_left (UInt32.le_iff_toNat_le.mp short)
  · rw [← content, List.take_take, Nat.min_comm, ← List.take_take, List.take_left]

/-- Calls to a page where it was constructed. -/
theorem Inv.survives (inv : s.Inv) (careful : s.Careful action) (stays : s.Stays action) :
    s.Survives action := by
  cases action with
  | allocate txnId size => exact inv.findsOwn stays
  | write txnId tid record => exact inv.lands careful.1 stays
  | read txnId tid capacity =>
    have lands : s.segment.Lands (HeapSystem.fixPage txnId false) s.pool tid :=
      inv.lands careful.1 stays
    exact ⟨lands, inv.readsBack careful.1 careful.2 lands⟩
  | transactionComplete | discardPage | discardPages | discardAllPages => trivial

/-- Calls that use the slots in the frame of the page. -/
theorem Inv.stays (inv : s.Inv) (careful : s.Careful action) (survives : s.Survives action)
    (stepped : s.step action = some s') : s.Stays action := by
  cases action with
  | allocate txnId size =>
    intro p isPage g isFrame
    obtain ⟨_, ran, _⟩ := Option.bind_eq_some_iff.mp stepped
    obtain ⟨⟨mid, found⟩, searched, _⟩ := Option.bind_eq_some_iff.mp ran
    obtain ⟨keeps, isFound⟩ := inv.found searched
    obtain ⟨member, f, rfl, home, frame⟩ := isFound p isPage
    obtain rfl := Option.some.inj (frame.symm.trans isFrame)
    exact (inv.own_iff member keeps home).mp (survives mid f searched)
  | write txnId tid record =>
    obtain ⟨_, ran, _⟩ := Option.bind_eq_some_iff.mp stepped
    obtain ⟨_, ran, _⟩ := Option.bind_eq_some_iff.mp ran
    obtain ⟨⟨mid, f⟩, fixed, _⟩ := Option.bind_eq_some_iff.mp ran
    exact inv.atOrigin careful.1 survives fixed
  | read txnId tid capacity =>
    obtain ⟨_, ran, _⟩ := Option.bind_eq_some_iff.mp stepped
    obtain ⟨⟨mid, f⟩, fixed, _⟩ := Option.bind_eq_some_iff.mp ran
    exact inv.atOrigin careful.1 survives.1 fixed
  | transactionComplete | discardPage | discardPages | discardAllPages => trivial

/-! ## The steps -/

/-- The address of a page that points to its frame. -/
theorem addressOf_eq {pool : HeapSystem} (inPlace : InPlace pool p) :
    pool.addressOf p = SlottedPage.bufferFrame (view pool p) := by
  obtain ⟨f, home, address⟩ := inPlace
  have isMapped : pool.bm.pageTable p = some f := home
  have isAddress : pool.addresses[f]? = some (SlottedPage.bufferFrame (view pool p)) := address
  rw [HeapSystem.addressOf, isMapped, Option.bind_some, isAddress, Option.getD_some]

/-- The slot of a new record. -/
theorem slotLength_allocated {segment segment' : HeapSegment} {pool pool' : HeapSystem} {t p : UInt64}
    {before data : List UInt8} (few : segment.pageCount.toNat < 2 ^ 48)
    (allocates : Allocates segment pool size segment' pool' t p before data) :
    SlottedPage.slotLength (segment'.slotOf pool' t) = size := by
  obtain ⟨page, slot⟩ := allocates.named few
  have adds := allocates.formatted.inv.adds_of_describes allocates.describes allocates.grows.stepped
  obtain ⟨_, offset, length⟩ := allocates.describes
  have dataStart := adds.dataStart
  rw [slotOf, allocates.segmentId, page, allocates.puts.self.2, slot]
  have isNew : SlottedPage.slotsOf data (slotCountOf before) = _ := adds.new
  rw [isNew]
  apply UInt32.toNat_inj.mp
  exact SlottedPage.toNat_slotLength (by omega) length

/-- Each page points to where it was constructed, behind an `allocate`. -/
theorem Inv.origin_allocate {segment' : HeapSegment} {t : UInt64} {before data : List UInt8}
    (inv : s.Inv) (allocates : Allocates s.segment s.pool size segment' pool t p before data) :
    ∀ q ∈ segment'.pages, SlottedPage.bufferFrame (view pool q) =
      (if segment'.pageCount = s.segment.pageCount then s.origin
        else Function.update s.origin s.nextPage (pool.addressOf s.nextPage)) q := by
  intro q member
  have puts := allocates.puts
  have older : q ∈ s.segment.pages → q ≠ p → SlottedPage.bufferFrame (view pool q) = s.origin q := by
    intro old different
    rw [(puts.others q different (inv.holds.pages q old).1).2]
    exact inv.origin q old
  rcases allocates.place with ⟨found, isBefore, rfl⟩ | ⟨_, few, rfl, next, _, _, inPlace⟩
  · rw [if_pos rfl]
    rcases eq_or_ne q p with rfl | different
    · rw [puts.self.2, allocates.grows.pointer, isBefore]
      exact inv.origin q member
    · exact older member different
  · have larger : segment'.pageCount ≠ s.segment.pageCount := by simp [next]
    rw [if_neg larger]
    rcases eq_or_ne q s.nextPage with rfl | different
    · rw [Function.update_self]
      exact (addressOf_eq inPlace).symm
    · have old := ((allocates.page q).mp member).resolve_right different
      rw [Function.update_of_ne different]
      exact older old different

theorem Inv.allocate (inv : s.Inv) (careful : s.Careful (.allocate txnId size))
    (findsOwn : s.Survives (.allocate txnId size)) (stepped : s.step (.allocate txnId size) = some s') :
    s'.Inv := by
  obtain ⟨⟨pool, segment, t⟩, ran, same⟩ := Option.bind_eq_some_iff.mp stepped
  cases same
  obtain ⟨p, before, data, allocates⟩ := allocate_spec (HeapSystem.fixes txnId true)
    HeapManager.allocated_closes inv.holds.wf inv.holds.pages careful findsOwn ran
  obtain ⟨holds, fresh⟩ := inv.holds.allocate allocates
  have older : ∀ u ∈ s.tids, u ≠ t := fun u member same => fresh (same ▸ member)
  refine ⟨holds, inv.origin_allocate allocates, fun u member => ?_, fun u member => ?_⟩
  · rcases List.mem_cons.mp member with rfl | old
    · change _ = Function.update s.size u size u
      rw [slotLength_allocated inv.holds.few allocates, Function.update_self]
    · change _ = Function.update s.size t size u
      have slot := (inv.holds.content_allocate allocates old).1
      rw [(content_segment allocates.segmentId pool u).1, slot, inv.size u old,
        Function.update_of_ne (older u old)]
  · rcases List.mem_cons.mp member with rfl | old
    · change Function.update s.written u [] u <+: _
      rw [Function.update_self]
      exact List.nil_prefix
    · change Function.update s.written t [] u <+: _
      have content := (inv.holds.content_allocate allocates old).2
      rw [(content_segment allocates.segmentId pool u).2, content, Function.update_of_ne (older u old)]
      exact inv.written u old

theorem Inv.write (inv : s.Inv) (careful : s.Careful (.write txnId tid record))
    (lands : s.Survives (.write txnId tid record))
    (stepped : s.step (.write txnId tid record) = some s') : s'.Inv := by
  obtain ⟨pool, ran, same⟩ := Option.bind_eq_some_iff.mp stepped
  cases same
  obtain ⟨⟨mid, change⟩, changed, same⟩ := Option.bind_eq_some_iff.mp ran
  cases same
  obtain ⟨member, short⟩ := careful
  obtain ⟨whole, _⟩ := inv.holds.pages _ (inv.holds.names tid member).page
  obtain ⟨_, puts⟩ := write_spec (HeapSystem.fixes txnId true) HeapManager.written_closes inv.holds.wf
    whole lands changed
  rw [← inv.size tid member] at short
  have overwrites := inv.holds.write member short puts
  refine ⟨overwrites.holds, fun p isPage => ?_, fun u isTid => ?_, fun u isTid => ?_⟩
  · exact (overwrites.slots p isPage).pointer.trans (inv.origin p isPage)
  · rcases eq_or_ne u tid with rfl | different
    · exact (congrArg SlottedPage.slotLength overwrites.self.1).trans (inv.size u isTid)
    · exact (congrArg SlottedPage.slotLength (overwrites.others u isTid different).1).trans
        (inv.size u isTid)
  · change Function.update s.written tid _ u <+: s.segment.contentOf mid u
    rcases eq_or_ne u tid with rfl | different
    · have length := inv.holds.length_content member
      obtain ⟨rest, content⟩ := inv.written u isTid
      have bytes := Image.overwrite_after [] (s.segment.contentOf s.pool u) record (length ▸ short)
      rw [List.nil_append, List.nil_append, List.length_nil] at bytes
      rw [Function.update_self, overwrites.self.2, bytes, ← content, List.drop_append, ← List.append_assoc]
      exact List.prefix_append _ _
    · rw [Function.update_of_ne different, (overwrites.others u isTid different).2]
      exact inv.written u isTid

theorem Inv.drops {bm' : BufferManager UInt8} (inv : s.Inv)
    (drops : BufferManager.Drops s.pool.bm bm') (saves : s.Saves bm') (addresses : List UInt64)
    (distinct : addresses.Nodup) : ({ s with pool := ⟨bm', addresses, distinct⟩ } : State).Inv :=
  inv.views drops.wf fun p member =>
    drops.shown (inv.holds.pages p member).1 (saves p member)

theorem Inv.step (inv : s.Inv) (careful : s.Careful action) (survives : s.Survives action)
    (stepped : s.step action = some s') : s'.Inv := by
  have wf : s.pool.bm.Wf := inv.holds.wf
  cases action with
  | allocate txnId size => exact inv.allocate careful survives stepped
  | write txnId tid record => exact inv.write careful survives stepped
  | read txnId tid capacity =>
    obtain ⟨⟨pool, result⟩, ran, same⟩ := Option.bind_eq_some_iff.mp stepped
    cases same
    exact inv.keeps (read_keeps (HeapSystem.fixes txnId false) HeapManager.hasRead_leaves wf ran).1
  | transactionComplete txnId =>
    cases stepped
    have same := (BufferManager.writes_transactionComplete wf txnId).same
    exact inv.views same.wf fun p member => same.shown p (inv.holds.pages p member).1
  | discardPage pageId =>
    cases stepped
    exact inv.drops (wf.discardPage pageId).drops careful s.pool.addresses s.pool.distinct
  | discardPages txnId =>
    cases stepped
    exact inv.drops (BufferManager.drops_discardPages wf txnId) careful s.pool.addresses s.pool.distinct
  | discardAllPages addresses distinct =>
    cases stepped
    exact inv.drops (BufferManager.drops_discardAllPages s.pool.bm) careful addresses distinct

/-- A record whose page is dropped and loaded into the same frame. -/
def oneFrame : List Action :=
  [.allocate 0 8, .write 0 0 (List.replicate 8 1), .transactionComplete 0,
    .discardPage (getOverallPageId 7 0), .read 1 0 8]

/-- Two pages that are loaded in the other order. -/
def twoFrames : List Action :=
  [.allocate 0 8, .write 0 0 (List.replicate 8 1), .allocate 0 84, .write 0 65536 (List.replicate 8 2),
    .transactionComplete 0, .discardPage (getOverallPageId 7 0), .discardPage (getOverallPageId 7 1),
    .read 1 65536 8]

end State

end Reloading

end BuzzDB.Locking
