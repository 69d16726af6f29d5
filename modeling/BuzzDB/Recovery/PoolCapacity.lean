import BuzzDB.Recovery.TransparentCache

/-!
# How many pages the buffer pool holds

`fix_page` of labs 2 and 4 takes a new frame for every page it loads and leaves the last frame of
the pool alone, so it runs out of space by the number of loads, not by the number of resident
pages.  A frame whose page is discarded never holds a page again.
-/

namespace BuzzDB.Recovery

/-- The pages that have a frame. -/
def BufferManager.residents (bm : BufferManager) : Finset UInt64 :=
  (bm.pool.map BufferFrame.pageId).toFinset.erase invalidPageId

namespace PoolClients

namespace State

variable (s : State)

/-- A frame that was handed out and holds no page any more. -/
def Freed (f : Nat) : Prop :=
  f < s.bm.pageCounter ∧ ∀ frame, s.bm.pool[f]? = some frame → frame.pageId = invalidPageId

/-- Clients can have a page put into the frame. -/
def Usable (f : Nat) : Prop :=
  ∃ actions s' frame, Machine.Along State.step State.Legal s actions ∧
    Machine.run State.step s actions = some s' ∧ s'.bm.pool[f]? = some frame ∧
    frame.pageId ≠ invalidPageId

/-- The action takes no frame from a page. -/
def Keeps : Action → Prop
  | .discardPage pageId => pageId = invalidPageId ∨ ¬ s.bm.HasFrame pageId
  | .discardAllPages => ∀ frame ∈ s.bm.pool, frame.pageId = invalidPageId
  | _ => True

instance : DecidablePred s.Keeps
  | .discardPage _ => inferInstanceAs (Decidable (_ ∨ ¬ _))
  | .discardAllPages => inferInstanceAs (Decidable (∀ frame ∈ s.bm.pool, _))
  | .fixPage _ | .modify _ _ _ | .unfixPage _ _ | .flushPage _ | .flushAllPages => isTrue trivial

end State

variable {pageSize pageCount : Nat} {s s' : State} {c : Cache UInt64 (List UInt8)} {action : Action}
  {bm bm' : BufferManager} {pageId : UInt64} {f : Nat}

/-! ## Room for one more page -/

/-- No more pages are resident than were loaded. -/
theorem card_residents_le (wf : bm.Wf) : bm.residents.card ≤ bm.pageCounter := by
  have subset : bm.residents ⊆ ((bm.pool.take bm.pageCounter).map BufferFrame.pageId).toFinset := by
    intro q member
    obtain ⟨valid, member⟩ := Finset.mem_erase.mp member
    obtain ⟨frame, inPool, rfl⟩ := List.mem_map.mp (List.mem_toFinset.mp member)
    obtain ⟨g, at_g⟩ := List.getElem?_of_mem inPool
    have used : g < bm.pageCounter := by
      by_contra late
      exact valid (wf.fresh g frame at_g (Nat.not_lt.mp late))
    rw [List.mem_toFinset]
    apply List.mem_map_of_mem
    apply List.mem_of_getElem? (i := g)
    rw [List.getElem?_take_of_lt used, at_g]
  calc
    bm.residents.card ≤ ((bm.pool.take bm.pageCounter).map BufferFrame.pageId).toFinset.card :=
      Finset.card_le_card subset
    _ ≤ ((bm.pool.take bm.pageCounter).map BufferFrame.pageId).length := List.toFinset_card_le _
    _ ≤ bm.pageCounter := by
      rw [List.length_map, List.length_take]
      omega

/-! ## What a step does to the frames -/

/-- A page was loaded into the next frame. -/
structure Loads (bm : BufferManager) (pageId : UInt64) (bm' : BufferManager) : Prop where
  valid : pageId ≠ invalidPageId
  counter : bm'.pageCounter = bm.pageCounter + 1
  room : bm.pageCounter + 1 < bm.pool.length
  pool : ∃ frame : BufferFrame, frame.pageId = pageId ∧
    bm'.pool = bm.pool.set bm.pageCounter frame

theorem fixPage_cases (fixed : bm.fixPage pageId = some (bm', f)) :
    bm' = bm ∨ Loads bm pageId bm' := by
  unfold BufferManager.fixPage at fixed
  split at fixed
  · cases fixed
  rename_i valid
  split at fixed
  · cases fixed
    exact Or.inl rfl
  · dsimp only at fixed
    split at fixed
    · cases fixed
    rename_i room
    cases fixed
    exact Or.inr ⟨valid, rfl, Nat.not_le.mp room, _, rfl, rfl⟩

theorem step_cases (stepped : s.step action = some s') :
    BufferManager.SameFrames s.bm s'.bm ∨ (∃ pageId, Loads s.bm pageId s'.bm) ∨
      (∃ pageId, action = .discardPage pageId ∧ s'.bm = s.bm.discardPage pageId) ∨
      action = .discardAllPages ∧ s'.bm = s.bm.discardAllPages := by
  cases action with
  | fixPage pageId =>
    obtain ⟨⟨bm', f⟩, fixed, rfl⟩ := Option.map_eq_some_iff.mp stepped
    rcases fixPage_cases fixed with rfl | loads
    · exact Or.inl ⟨rfl, rfl⟩
    · exact Or.inr (Or.inl ⟨pageId, loads⟩)
  | modify handle offset src =>
    cases stepped
    exact Or.inl ((BufferManager.memcpy_same s.bm handle.frameId offset src).trans
      (BufferManager.unfixPage_same _ handle.frameId true))
  | unfixPage handle isDirty =>
    cases stepped
    exact Or.inl (BufferManager.unfixPage_same s.bm handle.frameId isDirty)
  | flushPage pageId =>
    cases stepped
    exact Or.inl (s.bm.flushPage_same pageId)
  | flushAllPages =>
    cases stepped
    exact Or.inl s.bm.flushAllPages_same
  | discardPage pageId =>
    cases stepped
    exact Or.inr (Or.inr (Or.inl ⟨pageId, rfl, rfl⟩))
  | discardAllPages =>
    cases stepped
    exact Or.inr (Or.inr (Or.inr ⟨rfl, rfl⟩))

/-- The counter is behind the frames that were handed out and before the last frame. -/
theorem counter_step (stepped : s.step action = some s')
    (room : s.bm.pageCounter = 0 ∨ s.bm.pageCounter < s.bm.pool.length)
    (capacity : s'.bm.pool.length = s.bm.pool.length) :
    s.bm.pageCounter ≤ s'.bm.pageCounter ∧
      (s'.bm.pageCounter = 0 ∨ s'.bm.pageCounter < s'.bm.pool.length) := by
  rw [capacity]
  rcases step_cases stepped with same | ⟨pageId, loads⟩ | ⟨pageId, _, discarded⟩ | ⟨_, discarded⟩
  · rw [same.counter]
    exact ⟨Nat.le_refl _, room⟩
  · rw [loads.counter]
    exact ⟨Nat.le_succ _, Or.inr loads.room⟩
  · rw [discarded, (s.bm.discardPage_counters pageId).1]
    exact ⟨Nat.le_refl _, room⟩
  · rw [discarded]
    exact ⟨Nat.le_refl _, room⟩

theorem blank_of_discardPage {g : Nat} {frame : BufferFrame}
    (at_g : (bm.discardPage pageId).pool[g]? = some frame) (valid : frame.pageId ≠ invalidPageId) :
    bm.pool[g]? = some frame := by
  unfold BufferManager.discardPage at at_g
  split at at_g
  · rename_i f found
    by_cases here : f = g
    · subst here
      obtain ⟨inside, isBlank⟩ := List.getElem?_eq_some_iff.mp at_g
      rw [List.getElem_set_self] at isBlank
      exact absurd (congrArg BufferFrame.pageId isBlank.symm) valid
    · rw [List.getElem?_set_ne here] at at_g
      exact at_g
  · exact at_g

theorem invalid_of_discardAllPages {frame : BufferFrame}
    (member : frame ∈ bm.discardAllPages.pool) : frame.pageId = invalidPageId := by
  obtain ⟨_, _, rfl⟩ := List.mem_map.mp member
  rfl

/-- No page comes into a frame that was handed out before. -/
theorem pages_from {g : Nat} {frame' : BufferFrame} (stepped : s.step action = some s')
    (used : g < s.bm.pageCounter) (at_g : s'.bm.pool[g]? = some frame')
    (valid : frame'.pageId ≠ invalidPageId) :
    ∃ frame, s.bm.pool[g]? = some frame ∧ frame.pageId = frame'.pageId := by
  rcases step_cases stepped with same | ⟨pageId, loads⟩ | ⟨pageId, _, discarded⟩ | ⟨_, discarded⟩
  · have back : BufferManager.SameFrames s'.bm s.bm := ⟨same.pages.symm, same.counter.symm⟩
    exact back.getElem? at_g
  · obtain ⟨frame, _, pool⟩ := loads.pool
    rw [pool, List.getElem?_set_ne (by omega)] at at_g
    exact ⟨frame', at_g, rfl⟩
  · rw [discarded] at at_g
    exact ⟨frame', blank_of_discardPage at_g valid, rfl⟩
  · rw [discarded] at at_g
    exact absurd (invalid_of_discardAllPages (List.mem_of_getElem? at_g)) valid

/-! ## Frames that were freed -/

theorem State.Freed.step (freed : s.Freed f) (stepped : s.step action = some s') :
    s'.Freed f := by
  obtain ⟨used, blank⟩ := freed
  refine ⟨?_, fun frame' at_f => ?_⟩
  · rcases step_cases stepped with same | ⟨pageId, loads⟩ | ⟨pageId, _, discarded⟩ | ⟨_, discarded⟩
    · rw [same.counter]
      exact used
    · rw [loads.counter]
      omega
    · rw [discarded, (s.bm.discardPage_counters pageId).1]
      exact used
    · rw [discarded]
      exact used
  · by_contra valid
    obtain ⟨frame, before, samePage⟩ := pages_from stepped used at_f valid
    exact valid (samePage ▸ blank frame before)

/-- A freed frame never holds a page again. -/
theorem State.Freed.not_usable (freed : s.Freed f) : ¬ s.Usable f := by
  rintro ⟨actions, s', frame, _, ran, at_f, valid⟩
  have preserved : ∀ (s : State) action s', s.Freed f → s.step action = some s' → s'.Freed f :=
    fun _ _ _ freed stepped => freed.step stepped
  exact valid ((Machine.reached preserved freed ran).2 frame at_f)

/-- Every frame that was handed out holds a page. -/
def Occupied (s : State) : Prop :=
  ∀ f, f < s.bm.pageCounter → ∃ frame, s.bm.pool[f]? = some frame ∧ frame.pageId ≠ invalidPageId

theorem occupied_iff : Occupied s ↔ ∀ f, s.Freed f → s.Usable f := by
  constructor
  · rintro occupied f ⟨used, blank⟩
    obtain ⟨frame, at_f, valid⟩ := occupied f used
    exact absurd (blank frame at_f) valid
  · intro usable f used
    by_contra empty
    have freed : s.Freed f :=
      ⟨used, fun frame at_f => by_contra fun valid => empty ⟨frame, at_f, valid⟩⟩
    exact freed.not_usable (usable f freed)

theorem Occupied.step (occupied : Occupied s) (keeps : s.Keeps action)
    (stepped : s.step action = some s') : Occupied s' := by
  intro f used
  rcases step_cases stepped with same | ⟨pageId, loads⟩ | ⟨pageId, rfl, discarded⟩ |
    ⟨rfl, discarded⟩
  · rw [same.counter] at used
    obtain ⟨frame, at_f, valid⟩ := occupied f used
    obtain ⟨frame', at_f', samePage⟩ := same.getElem? at_f
    exact ⟨frame', at_f', samePage ▸ valid⟩
  · obtain ⟨loaded, isPage, pool⟩ := loads.pool
    have room := loads.room
    rw [loads.counter] at used
    rw [pool]
    by_cases here : s.bm.pageCounter = f
    · subst here
      exact ⟨loaded, List.getElem?_set_self (by omega), isPage ▸ loads.valid⟩
    · rw [List.getElem?_set_ne here]
      exact occupied f (by omega)
  · rw [discarded, (s.bm.discardPage_counters pageId).1] at used
    obtain ⟨frame, at_f, valid⟩ := occupied f used
    have different : frame.pageId ≠ pageId := by
      rintro rfl
      rcases keeps with invalid | missing
      · exact valid invalid
      · exact missing ⟨frame, List.mem_of_getElem? at_f, rfl⟩
    rw [discarded]
    exact ⟨frame, BufferManager.getElem?_discardPage at_f different, valid⟩
  · rw [discarded] at used
    obtain ⟨frame, at_f, valid⟩ := occupied f used
    exact absurd (keeps frame (List.mem_of_getElem? at_f)) valid

/-- An action that takes a frame from a page frees it. -/
theorem freed_of_not_keeps (wf : s.bm.Wf) (takes : ¬ s.Keeps action)
    (stepped : s.step action = some s') : ∃ f, s'.Freed f := by
  have used : ∀ {f : Nat} {frame : BufferFrame}, s.bm.pool[f]? = some frame →
      frame.pageId ≠ invalidPageId → f < s.bm.pageCounter := by
    intro f frame at_f valid
    by_contra late
    exact valid (wf.fresh f frame at_f (Nat.not_lt.mp late))
  cases action with
  | fixPage | modify | unfixPage | flushPage | flushAllPages => exact absurd trivial takes
  | discardPage pageId =>
    cases stepped
    obtain ⟨valid, has⟩ := not_or.mp takes
    have has := Decidable.not_not.mp has
    obtain ⟨f, found⟩ := Option.isSome_iff_exists.mp (BufferManager.getFrameIdOfPage_isSome.mpr has)
    obtain ⟨frame, at_f, isPage⟩ := BufferManager.getFrameIdOfPage_spec found
    refine ⟨f, ?_, fun other at_f' => ?_⟩
    · rw [(s.bm.discardPage_counters pageId).1]
      exact used at_f (isPage ▸ valid)
    · by_contra isValid
      have before := blank_of_discardPage at_f' isValid
      rw [at_f, Option.some.injEq] at before
      have member : (s.bm.discardPage pageId).HasFrame pageId :=
        ⟨other, List.mem_of_getElem? at_f', before ▸ isPage⟩
      exact ((wf.hasFrame_discardPage valid).mp member).2 rfl
  | discardAllPages =>
    cases stepped
    have present : ∃ frame ∈ s.bm.pool, frame.pageId ≠ invalidPageId := by
      by_contra none
      exact takes fun frame member => by_contra fun valid => none ⟨frame, member, valid⟩
    obtain ⟨frame, member, valid⟩ := present
    obtain ⟨f, at_f⟩ := List.getElem?_of_mem member
    exact ⟨f, used at_f valid, fun other at_f' =>
      invalid_of_discardAllPages (List.mem_of_getElem? at_f')⟩

/-! ## Runs -/

/-- What holds of the state behind every run. -/
structure Pooled (pageSize pageCount : Nat) (s : State) : Prop where
  sim : ∃ c, Simulates pageSize pageCount s c
  room : s.bm.pageCounter = 0 ∨ s.bm.pageCounter < s.bm.pool.length

theorem Pooled.new (pageSize_lt : pageSize < 2 ^ 64) (disk : Disk UInt8) :
    Pooled pageSize pageCount (.new pageSize pageSize_lt pageCount disk) :=
  ⟨⟨_, .new pageSize_lt disk⟩, Or.inl rfl⟩

theorem Pooled.step (pooled : Pooled pageSize pageCount s) (legal : s.Legal action)
    (stepped : s.step action = some s') : Pooled pageSize pageCount s' := by
  obtain ⟨⟨c, sim⟩, room⟩ := pooled
  have sim' := sim.step legal stepped
  have capacity := sim'.capacity.trans sim.capacity.symm
  exact ⟨⟨_, sim'⟩, (counter_step stepped room capacity).2⟩

/-- A page without a frame gets one unless the counter has reached the last frame. -/
theorem fixPage_none_iff (valid : pageId ≠ invalidPageId) (missing : ¬ bm.HasFrame pageId) :
    bm.fixPage pageId = none ↔ bm.pool.length ≤ bm.pageCounter + 1 := by
  rw [← Option.not_isSome_iff_eq_none, BufferManager.fixPage_isSome, BufferManager.Room,
    BufferManager.missing_singleton, if_neg missing, Finset.card_singleton, List.mem_singleton]
  have isValid : ¬ invalidPageId = pageId := fun same => valid same.symm
  simp only [isValid, not_false_eq_true, Finset.singleton_ne_empty, false_or, true_and, not_lt]

/-- `fix_page` runs out of space only where every frame has a page: exactly while the loads leave
the last frame alone. -/
theorem Pooled.full_iff (pooled : Pooled pageSize pageCount s) (valid : pageId ≠ invalidPageId)
    (missing : ¬ s.bm.HasFrame pageId) :
    (s.bm.fixPage pageId = none → s.bm.residents.card = pageCount) ↔
      pageCount = 0 ∨ s.bm.pageCounter + 1 < pageCount := by
  obtain ⟨⟨c, sim⟩, room⟩ := pooled
  have few := card_residents_le sim.wf
  rw [fixPage_none_iff valid missing]
  rw [sim.capacity] at room ⊢
  constructor
  · intro full
    by_contra neither
    have all := full (by omega)
    omega
  · rintro (rfl | enough) exits
    · omega
    · omega

theorem Pooled.of_run {start : State} {actions : List Action}
    (pooled : Pooled pageSize pageCount start)
    (legal : Machine.Along State.step State.Legal start actions)
    (ran : Machine.run State.step start actions = some s) : Pooled pageSize pageCount s := by
  have preserved : ∀ (s : State) action s', Pooled pageSize pageCount s → s.Legal action →
      s.step action = some s' → Pooled pageSize pageCount s' :=
    fun _ _ _ pooled legal stepped => pooled.step legal stepped
  exact Machine.invariant preserved pooled legal ran

/-- All frames that were handed out hold pages exactly if no action took one from its page. -/
theorem Pooled.occupied_iff_keeps {start : State} {actions : List Action}
    (pooled : Pooled pageSize pageCount start) (occupied : Occupied start)
    (legal : Machine.Along State.step State.Legal start actions)
    (ran : Machine.run State.step start actions = some s) :
    Occupied s ↔ Machine.Along State.step State.Keeps start actions := by
  apply Machine.iff_along_of_lasting (V := State.Legal)
    (P := fun s => Pooled pageSize pageCount s ∧ Occupied s) (B := fun s => ∃ f, s.Freed f)
  · intro s action s' kept legal keeps stepped
    exact ⟨kept.1.step legal stepped, kept.2.step keeps stepped⟩
  · intro s action s' kept _ takes stepped
    obtain ⟨⟨⟨c, sim⟩, _⟩, _⟩ := kept
    exact freed_of_not_keeps sim.wf takes stepped
  · intro s action s' lost _ stepped
    obtain ⟨f, freed⟩ := lost
    exact ⟨f, freed.step stepped⟩
  · exact fun _ => And.right
  · intro s lost kept
    obtain ⟨f, used, blank⟩ := lost
    obtain ⟨frame, at_f, isValid⟩ := kept f used
    exact isValid (blank frame at_f)
  · exact ⟨pooled, occupied⟩
  · exact legal
  · exact ran

/-- When does the pool hold `page_count` pages, and reuse frames?  While fewer than `page_count - 1`
pages were loaded, and nothing that was resident was discarded. -/
theorem capacity_iff (pageSize_le : pageSize ≤ 65536) {disk : Disk UInt8} {actions : List Action}
    (legal : Machine.Along State.step State.Legal
      (.new pageSize (Nat.lt_of_le_of_lt pageSize_le (by decide)) pageCount disk) actions)
    (ran : Machine.run State.step
      (.new pageSize (Nat.lt_of_le_of_lt pageSize_le (by decide)) pageCount disk) actions = some s)
    (valid : pageId ≠ invalidPageId) (missing : ¬ s.bm.HasFrame pageId) :
    ((s.bm.fixPage pageId = none → s.bm.residents.card = pageCount) ∧
        ∀ f, s.Freed f → s.Usable f) ↔
      (pageCount = 0 ∨ (cacheOf pageSize disk actions).loads + 1 < pageCount) ∧
        Machine.Along State.step State.Keeps
          (.new pageSize (Nat.lt_of_le_of_lt pageSize_le (by decide)) pageCount disk) actions := by
  have pageSize_lt : pageSize < 2 ^ 64 := Nat.lt_of_le_of_lt pageSize_le (by decide)
  have start : Simulates pageSize pageCount (.new pageSize pageSize_lt pageCount disk) _ :=
    .new pageSize_lt disk
  have pooled : Pooled pageSize pageCount (.new pageSize pageSize_lt pageCount disk) :=
    .new pageSize_lt disk
  have loads : s.bm.pageCounter = (cacheOf pageSize disk actions).loads :=
    (start.of_run legal ran).counter
  have occupied := pooled.occupied_iff_keeps (fun f absent => (Nat.not_lt_zero f absent).elim)
    legal ran
  rw [(pooled.of_run legal ran).full_iff valid missing, loads, ← occupied_iff, occupied]

/-- Two pages leave room for a third one among four frames, but not among three. -/
theorem capacity_iff_loaded :
    (∃ s, Machine.run State.step (.new 4 (by decide) 4 fun _ => [])
        [.fixPage 0, .fixPage 1, .flushAllPages] = some s ∧
      (s.bm.fixPage 2).isSome ∧
      (s.bm.fixPage 2 = none → s.bm.residents.card = 4) ∧ ∀ f, s.Freed f → s.Usable f) ∧
    ∃ s, Machine.run State.step (.new 4 (by decide) 3 fun _ => [])
        [.fixPage 0, .fixPage 1, .flushAllPages] = some s ∧
      ¬ ((s.bm.fixPage 2 = none → s.bm.residents.card = 3) ∧ ∀ f, s.Freed f → s.Usable f) := by
  have legal : Machine.Along State.step State.Legal (.new 4 (by decide) 4 fun _ => [])
      [.fixPage 0, .fixPage 1, .flushAllPages] := by decide
  have legal' : Machine.Along State.step State.Legal (.new 4 (by decide) 3 fun _ => [])
      [.fixPage 0, .fixPage 1, .flushAllPages] := by decide
  refine ⟨⟨_, rfl, by decide, ?_⟩, _, rfl, ?_⟩
  · exact (capacity_iff (by decide) legal rfl (by decide) (by decide)).mpr (by decide)
  · rw [capacity_iff (by decide) legal' rfl (by decide) (by decide)]
    decide

/-- Two frames: when a page was loaded and discarded, no other page can be loaded. -/
theorem not_capacity_discarded : ∃ s, Machine.run State.step (.new 4 (by decide) 2 fun _ => [])
      [.fixPage 0, .discardPage 0] = some s ∧
    Machine.Along State.step State.Legal (.new 4 (by decide) 2 fun _ => [])
      [.fixPage 0, .discardPage 0] ∧
    (1 : UInt64) ≠ invalidPageId ∧ ¬ s.bm.HasFrame 1 ∧ s.bm.fixPage 1 = none ∧
    s.bm.residents.card ≠ 2 := by
  refine ⟨_, rfl, ?_⟩
  decide

end PoolClients

end BuzzDB.Recovery
