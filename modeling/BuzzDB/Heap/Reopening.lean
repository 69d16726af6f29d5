import BuzzDB.Heap.HeapManager

/-!
# Reopened segments

A new `HeapSegment` over the pages of an earlier one.  Its writes reach the earlier records; its first
`allocate` constructs the first page anew, and returns the first `TID` again.

The frames may have other addresses than those that the pages point to.  `opened` is what the readers
of a reopened segment do about that.
-/

namespace BuzzDB

open FramePool PagePool HeapSegment

/-- A page whose bytes have been changed in its frame is found there, as it was left. -/
class HeapReader (σ : Type) [HeapManager σ] : Prop where
  refixes : ∀ (caller : HeapManager.Caller σ) exclusive (s : σ) p f data s' f', Wf s → Home s p f →
    data.length = pageSize s →
    HeapManager.fixPage caller exclusive (setData s f data) p = some (s', f') →
      f' = f ∧ getData s' f = data ∧ addresses s' = addresses s

namespace HeapState

variable {σ : Type} [HeapManager σ] (s : HeapState σ)

/-- The page of a `TID`, fixed by a reader that lets it point to its frame. -/
def opened (caller : HeapManager.Caller σ) (exclusive : Bool) (tid : UInt64) :
    Option (HeapState σ) := do
  let (pool, frameId) ← HeapManager.fixPage caller exclusive s.pool
    (overallPageIdOf s.segment.segmentId tid)
  let pool ← repoint pool frameId
  return { s with pool }

/-- A call of the new segment that writes to a record of the earlier one, of a page that points to its
frame. -/
def Rewrites (tids : List UInt64) : HeapAction σ → Prop
  | .allocate _ _ => False
  | .write caller tid record => tid ∈ tids ∧
    record.length ≤ (SlottedPage.slotLength (s.segment.slotOf s.pool tid)).toNat ∧
      s.segment.Lands (HeapManager.fixPage caller true) s.pool tid

instance (tids : List UInt64) : (action : HeapAction σ) → Decidable (s.Rewrites tids action)
  | .allocate _ _ => isFalse id
  | .write _ _ _ => inferInstanceAs (Decidable (_ ∧ _ ∧ _))

/-- What a call leaves of the record of a `TID`. -/
def rewritten (tid : UInt64) (record : List UInt8) : HeapAction σ → List UInt8
  | .allocate _ _ => record
  | .write _ other src => if other = tid then Image.overwrite record 0 src else record

/-- What a `read` has to return of an earlier record, behind some calls. -/
def expected (tid : UInt64) (later : List (HeapAction σ)) (capacity : UInt32) :
    Option (List UInt8 × UInt32) :=
  let length := SlottedPage.slotLength (s.segment.slotOf s.pool tid)
  if capacity ≤ length then
    some ((later.foldl (rewritten tid) (s.segment.contentOf s.pool tid)).take capacity.toNat, length)
  else none

/-- The records of the earlier segment survive the calls of the new one: they are read as they were left,
where their page points to its frame or the reader lets it do so, and no new `TID` is one of theirs. -/
structure Survives (s : HeapState σ) (later : List (HeapAction σ)) (s' : HeapState σ) : Prop where
  reads : ∀ tid ∈ s.tids, ∀ caller capacity, s'.Gets caller tid →
    s'.segment.Lands (HeapManager.fixPage caller false) s'.pool tid →
      s'.result caller tid capacity = s.expected tid later capacity
  opens : ∀ tid ∈ s.tids, ∀ caller exclusive capacity scan, s'.opened caller exclusive tid = some scan →
    scan.Gets caller tid → scan.result caller tid capacity = s.expected tid later capacity
  fresh : ∀ tid ∈ s'.tids, tid ∉ s.tids

/-! ## Writes to the earlier records -/

variable {s} {s' : HeapState σ} {segment : HeapSegment} {tids : List UInt64} {action : HeapAction σ}
  {actions : List (HeapAction σ)} {tid : UInt64}

/-- The new segment over the pages of the earlier one. -/
structure Covers (segment : HeapSegment) (tids : List UInt64) (s : HeapState σ) : Prop where
  segmentId : s.segment.segmentId = segment.segmentId
  holds : segment.Holds s.pool tids
  none : s.tids = []

/-- What the new segment shows of an earlier record. -/
structure Shows (later : List (HeapAction σ)) (tids : List UInt64) (s s' : HeapState σ) : Prop where
  slot : ∀ tid ∈ tids, s'.segment.slotOf s'.pool tid = s.segment.slotOf s.pool tid
  content : ∀ tid ∈ tids, s'.segment.contentOf s'.pool tid =
    later.foldl (rewritten tid) (s.segment.contentOf s.pool tid)

theorem Covers.write {caller : HeapManager.Caller σ} {record : List UInt8}
    (covers : Covers segment tids s) (rewrites : s.Rewrites tids (.write caller tid record))
    (stepped : s.step (.write caller tid record) = some s') :
    Covers segment tids s' ∧ Shows [.write caller tid record] tids s s' := by
  obtain ⟨⟨segmentId, pageCount⟩, pool, given⟩ := s
  obtain ⟨pool', ran, same⟩ := Option.bind_eq_some_iff.mp stepped
  cases same
  obtain ⟨⟨mid, change⟩, changed, same⟩ := Option.bind_eq_some_iff.mp ran
  cases same
  obtain ⟨member, short, lands⟩ := rewrites
  obtain ⟨rfl, holds, rfl⟩ := covers
  obtain ⟨whole, _⟩ := holds.pages _ (holds.names tid member).page
  obtain ⟨_, puts⟩ := write_spec (HeapManager.fixes caller true)
    HeapManager.written_closes holds.wf whole lands changed
  have logged := HeapManager.logChange_keeps caller mid record change puts.wf
  have overwrites := holds.write member short (puts.keeps logged)
  refine ⟨⟨rfl, overwrites.holds, rfl⟩, fun other isTid => ?_, fun other isTid => ?_⟩
  · rcases eq_or_ne other tid with rfl | different
    · exact overwrites.self.1
    · exact (overwrites.others other isTid different).1
  · rcases eq_or_ne other tid with rfl | different
    · refine overwrites.self.2.trans ?_
      rw [List.foldl_cons, rewritten, if_pos rfl]
      rfl
    · refine (overwrites.others other isTid different).2.trans ?_
      rw [List.foldl_cons, rewritten, if_neg different.symm]
      rfl

theorem Covers.step (covers : Covers segment tids s) (rewrites : s.Rewrites tids action)
    (stepped : s.step action = some s') : Covers segment tids s' ∧ Shows [action] tids s s' := by
  cases action with
  | allocate caller size => exact rewrites.elim
  | write caller tid record => exact covers.write rewrites stepped

theorem Shows.trans {mid : HeapState σ} {more : List (HeapAction σ)} (first : Shows actions tids s mid)
    (second : Shows more tids mid s') : Shows (actions ++ more) tids s s' where
  slot tid member := (second.slot tid member).trans (first.slot tid member)
  content tid member := by
    rw [second.content tid member, first.content tid member, List.foldl_append]

theorem Covers.run (covers : Covers segment tids s)
    (along : Machine.Along HeapState.step (fun s action => s.Rewrites tids action) s actions)
    (ran : Machine.run HeapState.step s actions = some s') :
    Covers segment tids s' ∧ Shows actions tids s s' := by
  induction actions generalizing s with
  | nil =>
    cases ran
    exact ⟨covers, fun _ _ => rfl, fun _ _ => rfl⟩
  | cons action actions ih =>
    obtain ⟨mid, stepped, rest⟩ := Machine.run_cons ran
    obtain ⟨covers', shows⟩ := covers.step along.1 stepped
    obtain ⟨covers'', shows'⟩ := ih covers' (along.2 mid stepped) rest
    exact ⟨covers'', shows.trans shows'⟩

/-! ## Reading them -/

/-- What the new segment returns of an earlier record, if it gets a page that points to its frame. -/
theorem Covers.result {caller : HeapManager.Caller σ} (covers : Covers segment tids s)
    (member : tid ∈ tids) (gets : s.Gets caller tid)
    (lands : s.segment.Lands (HeapManager.fixPage caller false) s.pool tid) (capacity : UInt32) :
    s.result caller tid capacity = s.expected tid [] capacity := by
  obtain ⟨⟨segmentId, pageCount⟩, pool, given⟩ := s
  obtain ⟨rfl, holds, rfl⟩ := covers
  obtain ⟨⟨mid, f⟩, fixed⟩ := Option.isSome_iff_exists.mp gets
  exact holds.read_result member (HeapManager.fixes caller false) lands fixed capacity

/-- The same, of a page that a reader lets point to its frame. -/
theorem read_repointed {σ : Type} [HeapManager σ] [HeapReader σ] {segment : HeapSegment}
    {tids : List UInt64} {tid : UInt64} {pool mid changed mid' : σ} {caller : HeapManager.Caller σ}
    {exclusive : Bool} {f f' : Nat} (holds : segment.Holds pool tids) (member : tid ∈ tids)
    (fixed : HeapManager.fixPage caller exclusive pool (overallPageIdOf segment.segmentId tid) =
      some (mid, f))
    (repointed : repoint mid f = some changed)
    (again : HeapManager.fixPage caller false changed (overallPageIdOf segment.segmentId tid) =
      some (mid', f')) (capacity : UInt32) :
    (HeapManager.read caller changed segment tid capacity).map Prod.snd =
      if capacity ≤ SlottedPage.slotLength (segment.slotOf pool tid) then
        some ((segment.contentOf pool tid).take capacity.toNat,
          SlottedPage.slotLength (segment.slotOf pool tid))
      else none := by
  obtain ⟨address, isAddress, room, rfl⟩ := repoint_spec repointed
  obtain ⟨keeps, home⟩ := HeapManager.fixes caller exclusive pool _ mid f holds.wf fixed
  have whole := (holds.pages _ (holds.names tid member).page).1
  have data : getData mid f = view pool (overallPageIdOf segment.segmentId tid) :=
    (shown mid _ f keeps.wf home).2.symm.trans (keeps.view _ whole).2
  have sized := sized mid _ f keeps.wf home
  obtain ⟨rfl, data', addresses'⟩ := HeapReader.refixes caller false mid _ f _ mid' f' keeps.wf home
    (by rw [Image.length_overwrite]; exact sized) again
  obtain ⟨behind, inside⟩ := holds.inside member
  have own : slotFrame mid' f' = some f' := by
    have nodup := nodup mid keeps.wf
    rw [slotFrame_iff (by rw [addresses']; exact nodup), addresses', data',
      SlottedPage.bufferFrame_overwrite room]
    exact isAddress
  -- neither the slot nor the record is where the pointer was written
  have slot : SlottedPage.slotsOf (getData mid' f') (slotIdOf tid).toNat = segment.slotOf pool tid := by
    rw [data', data, SlottedPage.slotsOf_overwrite_header (by rw [Image.length_bytesOf]; decide), slotOf]
  have length : (getData mid' f').length = (view pool (overallPageIdOf segment.segmentId tid)).length := by
    rw [data', Image.length_overwrite, data]
  have content : ((getData mid' f').drop (segment.regionOf pool tid).start).take
      (SlottedPage.slotLength (segment.slotOf pool tid)).toNat = segment.contentOf pool tid := by
    apply Image.take_drop_congr
    intro i low _
    rw [data', Image.getElem?_overwrite, Image.length_bytesOf, if_neg (by omega), data]
  refine (read_of_fixed again own (by rw [length]; omega) slot (by rw [length]; exact inside)
    capacity).trans ?_
  rw [← content]
  rfl

theorem Covers.opens {σ : Type} [HeapManager σ] [HeapReader σ] {segment : HeapSegment} {tids : List UInt64} {tid : UInt64}
    {s scan : HeapState σ} {caller : HeapManager.Caller σ} {exclusive : Bool}
    (covers : Covers segment tids s) (member : tid ∈ tids)
    (isOpened : s.opened caller exclusive tid = some scan) (gets : scan.Gets caller tid)
    (capacity : UInt32) : scan.result caller tid capacity = s.expected tid [] capacity := by
  obtain ⟨⟨segmentId, pageCount⟩, pool, given⟩ := s
  obtain ⟨rfl, holds, rfl⟩ := covers
  obtain ⟨⟨mid, f⟩, fixed, isOpened⟩ := Option.bind_eq_some_iff.mp isOpened
  obtain ⟨changed, repointed, same⟩ := Option.bind_eq_some_iff.mp isOpened
  cases same
  obtain ⟨⟨mid', f'⟩, again⟩ := Option.isSome_iff_exists.mp gets
  exact read_repointed holds member fixed repointed again capacity

/-- The earlier records behind the calls of a new segment over the same pages. -/
theorem survives {σ : Type} [HeapManager σ] [HeapReader σ] {s s' : HeapState σ} {pool : σ} {later : List (HeapAction σ)}
    (holds : s.segment.Holds s.pool s.tids) (wf : Wf pool)
    (same : ∀ p ∈ s.segment.pages, Whole pool p ∧ view pool p = view s.pool p)
    (rewrites : Machine.Along step (fun s' action => s'.Rewrites s.tids action)
      (new s.segment.segmentId pool) later)
    (ran : Machine.run step (new s.segment.segmentId pool) later = some s') : Survives s later s' := by
  have covers : Covers s.segment s.tids (new s.segment.segmentId pool) :=
    ⟨rfl, holds.views wf same, rfl⟩
  obtain ⟨covers', shows⟩ := covers.run rewrites ran
  have kept : ∀ tid ∈ s.tids, ∀ capacity, s'.expected tid [] capacity = s.expected tid later capacity := by
    intro tid member capacity
    have before : s.segment.slotOf pool tid = s.segment.slotOf s.pool tid ∧
        s.segment.contentOf pool tid = s.segment.contentOf s.pool tid :=
      content_view (same _ (holds.names tid member).page).2
    have slot : s'.segment.slotOf s'.pool tid = s.segment.slotOf pool tid := shows.slot tid member
    have content : s'.segment.contentOf s'.pool tid =
      later.foldl (rewritten tid) (s.segment.contentOf pool tid) := shows.content tid member
    rw [before.1] at slot
    rw [before.2] at content
    rw [expected, expected, slot, List.foldl_nil, content]
  refine ⟨fun tid member caller capacity gets lands => ?_,
    fun tid member caller exclusive capacity scan isOpened gets => ?_, fun tid member => ?_⟩
  · rw [covers'.result member gets lands, kept tid member]
  · rw [covers'.opens member isOpened gets, kept tid member]
  · rw [covers'.none] at member
    exact (List.not_mem_nil member).elim

/-! ## The first allocation -/

/-- The `TID` that the first `allocate` of a segment returns. -/
def firstTid (segmentId : UInt16) : UInt64 :=
  BuzzDB.tid (getOverallPageId segmentId 0) 0

theorem first_allocate {σ : Type} [HeapManager σ] {s s' : HeapState σ} {caller : HeapManager.Caller σ}
    {size : UInt32} (empty : s.segment.pageCount = 0) (stepped : s.step (.allocate caller size) = some s') :
    s'.tids = firstTid s.segment.segmentId :: s.tids := by
  obtain ⟨⟨segmentId, pageCount⟩, pool, tids⟩ := s
  cases empty
  obtain ⟨⟨pool', segment', t⟩, ran, same⟩ := Option.bind_eq_some_iff.mp stepped
  cases same
  -- the loop goes over no page
  obtain ⟨⟨mid, f⟩, fixed, ran⟩ := Option.bind_eq_some_iff.mp ran
  obtain ⟨mid', isConstructed, ran⟩ := Option.bind_eq_some_iff.mp ran
  obtain ⟨⟨added, t'⟩, isAdded, same⟩ := Option.bind_eq_some_iff.mp ran
  cases same
  obtain ⟨data, address, _, constructed, rfl⟩ := newPage_spec isConstructed
  have isTid := addSlot_tid isAdded
  rw [getData_setData_self constructed.length] at isTid
  have header := congrArg SlottedPage.header constructed.page
  change SlottedPage.headerOf data = _ at header
  rw [header] at isTid
  exact congrArg (· :: tids) isTid

/-- The id of a segment does not change, and a call adds its `TID` to those before. -/
theorem step_tids {σ : Type} [HeapManager σ] {s s' : HeapState σ} {action : HeapAction σ}
    (stepped : s.step action = some s') :
    s'.segment.segmentId = s.segment.segmentId ∧ s.tids ⊆ s'.tids ∧
      (s'.segment = s.segment ∧ s'.tids = s.tids ∨ ∃ caller size, action = .allocate caller size) := by
  cases action with
  | allocate caller size =>
    obtain ⟨⟨pool, segment, tid⟩, ran, same⟩ := Option.bind_eq_some_iff.mp stepped
    cases same
    refine ⟨?_, List.subset_cons_self tid s.tids, Or.inr ⟨caller, size, rfl⟩⟩
    rcases allocate_cases ran with ⟨_, _, _, _, _, _, rfl⟩ | ⟨_, _, _, _, _, _, _, _, _, _, rfl⟩
    · rfl
    · rfl
  | write caller tid record =>
    obtain ⟨pool, _, same⟩ := Option.bind_eq_some_iff.mp stepped
    cases same
    exact ⟨rfl, List.Subset.refl _, Or.inl ⟨rfl, rfl⟩⟩

/-- A segment that has allocated anything has returned the first `TID`. -/
theorem first_of_run {σ : Type} [HeapManager σ] {s : HeapState σ} {segmentId : UInt16} {pool : σ}
    {actions : List (HeapAction σ)} (ran : Machine.run step (new segmentId pool) actions = some s)
    (some : s.tids ≠ []) : firstTid segmentId ∈ s.tids := by
  have kept : s.segment.segmentId = segmentId ∧
      (s.segment.pageCount = 0 ∧ s.tids = [] ∨ firstTid segmentId ∈ s.tids) := by
    refine Machine.reached (P := fun s => s.segment.segmentId = segmentId ∧
      (s.segment.pageCount = 0 ∧ s.tids = [] ∨ firstTid segmentId ∈ s.tids)) ?_ ⟨rfl, Or.inl ⟨rfl, rfl⟩⟩ ran
    intro s action s' holds stepped
    obtain ⟨isSegment, holds⟩ := holds
    obtain ⟨sameId, grows, calls⟩ := step_tids stepped
    refine ⟨sameId.trans isSegment, ?_⟩
    rcases holds with ⟨empty, noTids⟩ | first
    · rcases calls with ⟨segment, tids⟩ | ⟨caller, size, rfl⟩
      · rw [segment, tids]
        exact Or.inl ⟨empty, noTids⟩
      · rw [first_allocate empty stepped, isSegment]
        exact Or.inr List.mem_cons_self
    · exact Or.inr (grows first)
  exact kept.2.resolve_left fun empty => some empty.2

/-- Two segments with the same id return the same `TID` first. -/
theorem not_survives {σ : Type} [HeapManager σ] {s s' : HeapState σ} {segmentId : UInt16} {pool pool' : σ}
    {earlier later : List (HeapAction σ)} (ran : Machine.run step (new segmentId pool) earlier = some s)
    (ran' : Machine.run step (new segmentId pool') later = some s') (some : s.tids ≠ [])
    (some' : s'.tids ≠ []) : ¬ Survives s later s' := fun survives =>
  survives.fresh _ (first_of_run ran' some') (first_of_run ran some)

end HeapState

end BuzzDB
