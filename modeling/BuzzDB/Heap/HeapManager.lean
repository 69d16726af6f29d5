import BuzzDB.Heap.Records
import BuzzDB.Lib.Machine

/-!
# Heap segments over a buffer manager

`HeapManager` has the calls that the functions of `HeapSegment` make, which differ between the
labs.  The runs are those of `allocate` and `write`, for any callers, on one segment.

As long as they are `Contained`, every record has its own bytes and each page stays in the frame
that it was constructed in.
-/

namespace BuzzDB

open FramePool PagePool HeapSegment

/-- The calls that `HeapSegment` makes to a buffer manager and to the log. -/
class HeapManager (σ : Type) extends PagePool σ where
  Caller : Type
  fixPage : Caller → Bool → σ → UInt64 → Option (σ × Nat)
  allocated : σ → Nat → σ
  hasRead : σ → Nat → σ
  written : σ → Nat → σ
  logChange : Caller → σ → List UInt8 → Change → σ
  fixes : ∀ caller exclusive, Fixes (fixPage caller exclusive)
  allocated_closes : Closes allocated
  hasRead_leaves : Leaves hasRead
  written_closes : Closes written
  logChange_keeps : ∀ caller s record change, Wf s → Keeps s (logChange caller s record change)

namespace HeapManager

variable {σ : Type} [HeapManager σ]

/-- `HeapSegment::allocate`. -/
def allocate (caller : Caller σ) (s : σ) (segment : HeapSegment) (size : UInt32) :
    Option (σ × HeapSegment × UInt64) :=
  segment.allocate (fixPage caller true) allocated s size

/-- `HeapSegment::read`. -/
def read (caller : Caller σ) (s : σ) (segment : HeapSegment) (tid : UInt64) (capacity : UInt32) :
    Option (σ × List UInt8 × UInt32) :=
  segment.read (fixPage caller false) hasRead s tid capacity

/-- `HeapSegment::write`. -/
def write (caller : Caller σ) (s : σ) (segment : HeapSegment) (tid : UInt64) (record : List UInt8) :
    Option σ := do
  let (s, change) ← segment.write (fixPage caller true) written s tid record
  return logChange caller s record change

end HeapManager

/-- A segment, its buffer manager, and the `TID`s that `allocate` has returned. -/
structure HeapState (σ : Type) where
  segment : HeapSegment
  pool : σ
  tids : List UInt64

/-- The calls of a run. -/
inductive HeapAction (σ : Type) [HeapManager σ]
  | allocate (caller : HeapManager.Caller σ) (size : UInt32)
  | write (caller : HeapManager.Caller σ) (tid : UInt64) (record : List UInt8)

namespace HeapState

/-- A segment that has just been constructed. -/
def new {σ : Type} (segmentId : UInt16) (pool : σ) : HeapState σ := ⟨.new segmentId, pool, []⟩

variable {σ : Type} [HeapManager σ] (s : HeapState σ)

/-- One call. -/
def step : HeapAction σ → Option (HeapState σ)
  | .allocate caller size => do
    let (pool, segment, tid) ← HeapManager.allocate caller s.pool s.segment size
    return ⟨segment, pool, tid :: s.tids⟩
  | .write caller tid record => do
    let pool ← HeapManager.write caller s.pool s.segment tid record
    return { s with pool }

/-- The page that takes a record leaves room for its slot, and a write is one to a record that was
allocated and is no longer than it. -/
def Contained : HeapAction σ → Prop
  | .allocate _ size => s.segment.Fitting s.pool size
  | .write _ tid record =>
    tid ∈ s.tids ∧ record.length ≤ (SlottedPage.slotLength (s.segment.slotOf s.pool tid)).toNat

instance : DecidablePred s.Contained
  | .allocate _ _ => inferInstanceAs (Decidable (s.segment.Fitting s.pool _))
  | .write _ _ _ => inferInstanceAs (Decidable (_ ∧ _))

/-- What a `read` returns. -/
def result (caller : HeapManager.Caller σ) (tid : UInt64) (capacity : UInt32) :
    Option (List UInt8 × UInt32) :=
  (HeapManager.read caller s.pool s.segment tid capacity).map Prod.snd

/-- A `read` gets its page. -/
def Gets (caller : HeapManager.Caller σ) (tid : UInt64) : Prop :=
  (HeapManager.fixPage caller false s.pool (overallPageIdOf s.segment.segmentId tid)).isSome

/-- Nothing but the record of `tid` has changed: neither another byte of a page, nor a header or a slot,
nor what a `read` of another record returns. -/
structure Isolated (s s' : HeapState σ) (tid : UInt64) : Prop where
  bytes : ∀ pageId i, Whole s.pool pageId → (view s'.pool pageId)[i]? ≠ (view s.pool pageId)[i]? →
    pageId = overallPageIdOf s.segment.segmentId tid ∧ i ∈ (s.segment.regionOf s.pool tid).bytes
  slots : ∀ p ∈ s.segment.pages, SameSlots (view s.pool p) (view s'.pool p)
  reads : ∀ caller capacity other, other ∈ s.tids → other ≠ tid → s.Gets caller other →
    s'.Gets caller other → s'.result caller other capacity = s.result caller other capacity

/-- Writes are isolated. -/
def Isolates : HeapAction σ → Prop
  | .write caller tid record => ∀ s', s.step (.write caller tid record) = some s' → Isolated s s' tid
  | .allocate _ _ => True

/-! ## The invariant -/

/-- The records are in place: each page is in the frame that it was constructed in. -/
structure Kept (s : HeapState σ) : Prop where
  holds : s.segment.Holds s.pool s.tids
  inPlace : ∀ p ∈ s.segment.pages, InPlace s.pool p

variable {s} {s' : HeapState σ} {caller : HeapManager.Caller σ} {tid other : UInt64}
  {record : List UInt8} {size : UInt32}

theorem Kept.lands (kept : s.Kept) (member : tid ∈ s.tids) (exclusive : Bool) :
    s.segment.Lands (HeapManager.fixPage caller exclusive) s.pool tid := by
  intro mid f fixed
  obtain ⟨keeps, home⟩ := HeapManager.fixes caller exclusive s.pool _ mid f kept.holds.wf fixed
  have inPlace := kept.inPlace _ (kept.holds.names tid member).page
  exact (inPlace.keeps kept.holds.wf keeps).slotFrame_eq keeps.wf home

theorem Kept.findsOwn (kept : s.Kept) :
    s.segment.FindsOwn (HeapManager.fixPage caller true) s.pool size := by
  intro mid f searched
  obtain ⟨keeps, p, isPage, home⟩ := findSpace_found (HeapManager.fixes caller true) kept.holds.wf
    (fun p member => (kept.holds.pages p member).1) searched
  have inPlace := kept.inPlace p (List.mem_of_find?_eq_some isPage)
  exact (inPlace.keeps kept.holds.wf keeps).slotFrame_eq keeps.wf home

theorem Kept.allocate (kept : s.Kept) (fitting : s.segment.Fitting s.pool size)
    (stepped : s.step (.allocate caller size) = some s') : s'.Kept := by
  obtain ⟨⟨pool, segment, tid⟩, ran, same⟩ := Option.bind_eq_some_iff.mp stepped
  cases same
  obtain ⟨p, before, data', allocates⟩ := allocate_spec (HeapManager.fixes caller true)
    HeapManager.allocated_closes kept.holds.wf kept.holds.pages fitting kept.findsOwn ran
  refine ⟨(kept.holds.allocate allocates).1, fun q member => ?_⟩
  by_cases old : q ∈ s.segment.pages
  · apply (kept.inPlace q old).puts kept.holds.wf allocates.puts
    intro here
    subst here
    rw [allocates.grows.pointer, allocates.before_eq kept.holds.few old]
  · obtain rfl := ((allocates.page q).mp member).resolve_left old
    rcases allocates.place with ⟨found, _⟩ | ⟨_, _, _, _, _, _, inPlace⟩
    · exact (old (List.mem_of_find?_eq_some found)).elim
    · exact inPlace

/-- A write that is no longer than its record. -/
theorem Kept.write (kept : s.Kept) (contained : s.Contained (.write caller tid record))
    (stepped : s.step (.write caller tid record) = some s') :
    s'.segment = s.segment ∧ s'.tids = s.tids ∧
      s.segment.Overwrites s.pool s.tids tid record s'.pool := by
  obtain ⟨pool, ran, same⟩ := Option.bind_eq_some_iff.mp stepped
  cases same
  obtain ⟨⟨mid, change⟩, changed, same⟩ := Option.bind_eq_some_iff.mp ran
  cases same
  obtain ⟨member, short⟩ := contained
  obtain ⟨whole, _⟩ := kept.holds.pages _ (kept.holds.names tid member).page
  obtain ⟨_, puts⟩ := write_spec (HeapManager.fixes caller true) HeapManager.written_closes
    kept.holds.wf whole (kept.lands member true) changed
  have logged := HeapManager.logChange_keeps caller mid record change puts.wf
  exact ⟨rfl, rfl, kept.holds.write member short (puts.keeps logged)⟩

theorem Kept.step {action : HeapAction σ} (kept : s.Kept) (contained : s.Contained action)
    (stepped : s.step action = some s') : s'.Kept := by
  cases action with
  | allocate caller size => exact kept.allocate contained stepped
  | write caller tid record =>
    obtain ⟨segment, tids, overwrites⟩ := kept.write contained stepped
    refine ⟨?_, fun p member => ?_⟩
    · rw [segment, tids]
      exact overwrites.holds
    · rw [segment] at member
      apply (kept.inPlace p member).puts kept.holds.wf overwrites.puts
      intro here
      have pointer := (overwrites.slots p member).pointer
      rw [here, overwrites.puts.self.2] at pointer
      rw [here]
      exact pointer

theorem Kept.isolates (kept : s.Kept) {action : HeapAction σ} (contained : s.Contained action) :
    s.Isolates action := by
  cases action with
  | allocate caller size => trivial
  | write caller tid record =>
    intro s' stepped
    have kept' := kept.step contained stepped
    obtain ⟨segment, tids, overwrites⟩ := kept.write contained stepped
    have short := contained.2
    refine ⟨fun pageId i whole changed => ?_, overwrites.slots,
      fun reader capacity other isTid different gets gets' => ?_⟩
    · have here : pageId = overallPageIdOf s.segment.segmentId tid := by
        by_contra elsewhere
        rw [(overwrites.puts.others pageId elsewhere whole).2] at changed
        exact changed rfl
      refine ⟨here, ?_⟩
      subst here
      rw [overwrites.puts.self.2, Image.getElem?_overwrite] at changed
      have stop : (s.segment.regionOf s.pool tid).stop = (s.segment.regionOf s.pool tid).start +
        (SlottedPage.slotLength (s.segment.slotOf s.pool tid)).toNat := rfl
      have inside := of_not_not fun outside => changed (if_neg outside)
      rw [SlottedPage.Region.bytes, Set.mem_Ico]
      omega
    · obtain ⟨⟨mid, f⟩, fixed⟩ := Option.isSome_iff_exists.mp gets
      obtain ⟨⟨mid', f'⟩, fixed'⟩ := Option.isSome_iff_exists.mp gets'
      obtain ⟨slot, content⟩ := overwrites.others other isTid different
      have before : s.result reader other capacity = _ := kept.holds.read_result isTid
        (HeapManager.fixes reader false) (kept.lands isTid false) fixed capacity
      have behind : s'.result reader other capacity = _ := kept'.holds.read_result (tids ▸ isTid)
        (HeapManager.fixes reader false) (kept'.lands (tids ▸ isTid) false) fixed' capacity
      rw [before, behind, segment, slot, content]

theorem Kept.new {pool : σ} (wf : Wf pool) (segmentId : UInt16) : (new segmentId pool).Kept where
  holds := ⟨wf, (show 0 < 2 ^ 48 by decide), fun _ impossible => (List.not_mem_nil impossible).elim,
    fun _ impossible => (List.not_mem_nil impossible).elim⟩
  inPlace _ impossible := (List.not_mem_nil impossible).elim

/-- In contained runs writes are isolated. -/
theorem along_isolates {pool : σ} {actions : List (HeapAction σ)} (wf : Wf pool) (segmentId : UInt16)
    (contained : Machine.Along step Contained (new segmentId pool) actions) :
    Machine.Along step Isolates (new segmentId pool) actions :=
  Machine.along_of_invariant (P := Kept) (fun _ _ _ => Kept.step)
    (fun _ _ kept => kept.isolates) (Kept.new wf segmentId) contained

end HeapState

end BuzzDB
