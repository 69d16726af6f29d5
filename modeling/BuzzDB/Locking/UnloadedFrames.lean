import BuzzDB.Locking.Threads

/-!
# Frames that have not been read

`fix_page` publishes a page in `page_table_` before it has the lock and before it has read
the frame.  Whoever finds the page there gets the frame as it is: between the section of
the loading call and its `read_frame`, and for ever if that call is refused the lock.
-/

namespace BuzzDB.Locking.Threads

/-- In a call of `fix_page`. -/
def Pc.fixes : Pc → Bool
  | .fixing _ _ _ _ _ _ | .reading _ _ _ => true
  | _ => false

/-- In a call that has mapped the page to the frame and is still to read it. -/
def Pc.Loads (pageId : UInt64) (frameId : Nat) : Pc → Prop
  | .fixing _ p _ f true _ | .reading _ p f => p = pageId ∧ f = frameId
  | _ => False

/-- In front of `read_frame` for the page. -/
def Pc.Reads (pageId : UInt64) : Pc → Prop
  | .reading _ p _ => p = pageId
  | _ => False

instance (pageId : UInt64) : DecidablePred (Pc.Reads pageId)
  | .reading _ _ _ => inferInstanceAs (Decidable (_ = _))
  | .idle | .fixing _ _ _ _ _ _ | .flushing _ | .completing _ _ | .aborting _ _ | .discarding _
  | .ending _ _ | .flushingAll _ => isFalse id

namespace State

variable {τ α : Type*} [DecidableEq τ] [Zero α]

/-- Every frame that was returned had been read from its page since it was last assigned to it. -/
def Loaded (s : State τ α) : Prop := ∀ returned ∈ s.returned, returned.source = some returned.pageId

instance (s : State τ α) : Decidable s.Loaded := inferInstanceAs (Decidable (∀ _ ∈ _, _ = _))

/-- What a section must not do: return the frame of a page that another call is still to read or
whose load was refused, or read a frame that has been taken from the page. -/
def ReadsFirst (s : State τ α) (choice : Choice) : Pc → Prop
  | .fixing txnId pageId mode _ false pc =>
    ∀ result ∈ pc.step s.bm.lockManager txnId pageId mode choice, result.2 = .returned →
      s.refused pageId = false ∧ ∀ u, ¬ (s.pcs u).Reads pageId
  | .reading _ pageId frameId => s.bm.pageTable pageId = some frameId
  | _ => True

/-- An action that finds what it needs read. -/
def Sound (s : State τ α) : Action τ α → Prop
  | .step thread choice => s.ReadsFirst choice (s.pcs thread)
  | _ => True

instance [Fintype τ] (s : State τ α) (choice : Choice) : DecidablePred (s.ReadsFirst choice)
  | .fixing _ _ _ _ false _ => inferInstanceAs (Decidable (∀ _ ∈ _, _ = _ → _ ∧ ∀ _, ¬ _))
  | .reading _ _ _ => inferInstanceAs (Decidable (_ = _))
  | .idle | .fixing _ _ _ _ true _ | .flushing _ | .completing _ _ | .aborting _ _ | .discarding _
  | .ending _ _ | .flushingAll _ => isTrue trivial

instance [Fintype τ] (s : State τ α) : DecidablePred s.Sound
  | .step _ _ => inferInstanceAs (Decidable (s.ReadsFirst _ _))
  | .fixPage _ _ _ _ | .write _ _ _ _ | .unfixPage _ _ _ | .flushPage _ _ | .discardPage _ _
  | .flushPages _ _ | .discardPages _ _ | .flushAllPages _ | .discardAllPages _
  | .transactionComplete _ _ | .transactionAbort _ _ => isTrue trivial

/-- A call of `fix_page` that asks for a lock has its page in its frame, and a page in the pool has
been read, was refused, or has a call that is still to read it. -/
structure Inv (s : State τ α) : Prop where
  wf : s.bm.Wf
  mapped : ∀ u t p mode f loads a, s.pcs u = .fixing t p mode f loads a →
    s.bm.pageTable p = some f
  read : ∀ p f, s.bm.pageTable p = some f →
    s.source f = some p ∨ s.refused p = true ∨ ∃ u, (s.pcs u).Loads p f
  loaded : s.Loaded

variable {s s' : State τ α} {u v : τ} {t p q : UInt64} {mode : LockMode} {f g : Nat}
  {loads : Bool} {a : AcquirePc} {choice : Choice}

omit [DecidableEq τ] in
theorem Inv.new (pageSize pageCount : Nat) (disk : Disk α) :
    (State.new pageSize pageCount disk : State τ α).Inv where
  wf := .new pageSize pageCount disk
  mapped _ _ _ _ _ _ _ impossible := by cases impossible
  read _ _ impossible := by cases impossible
  loaded _ impossible := absurd impossible List.not_mem_nil

omit [DecidableEq τ] [Zero α] in
/-- An action of threads that are in no call of `fix_page`.  The pool loses pages only where nobody
has `pool_mutex_`. -/
theorem Inv.calm (inv : s.Inv) (owns : s.Owns) (wf : s'.bm.Wf)
    (pcs : ∀ u, s'.pcs u = s.pcs u ∨ (s.pcs u).fixes = false ∧ (s'.pcs u).fixes = false)
    (refused : s'.refused = s.refused)
    (returned : s'.returned = s.returned)
    (table : s'.bm.pageTable = s.bm.pageTable ∨ s.poolMutex = none)
    (fewer : ∀ p f, s'.bm.pageTable p = some f →
      s.bm.pageTable p = some f ∧ s'.source f = s.source f) : s'.Inv := by
  refine ⟨wf, fun u t p mode f loads a isAt => ?_, fun p f isMapped => ?_, ?_⟩
  · have before : s.pcs u = .fixing t p mode f loads a := by
      rcases pcs u with same | calm
      · rw [← same, isAt]
      · rw [isAt] at calm
        cases calm.2
    rcases table with same | free
    · rw [same]
      exact inv.mapped u t p mode f loads a before
    · have mine := owns u (before ▸ rfl)
      rw [free] at mine
      cases mine
  · obtain ⟨before, source⟩ := fewer p f isMapped
    rw [source, refused]
    rcases inv.read p f before with read | isRefused | ⟨u, isLoading⟩
    · exact Or.inl read
    · exact Or.inr (Or.inl isRefused)
    · refine Or.inr (Or.inr ⟨u, ?_⟩)
      rcases pcs u with same | calm
      · rw [same]
        exact isLoading
      · exfalso
        generalize s.pcs u = pc at isLoading calm
        cases pc with
        | fixing | reading => cases calm.1
        | _ => exact isLoading
  · intro one member
    rw [returned] at member
    exact inv.loaded one member

omit [DecidableEq τ] [Zero α] in
/-- One call at a time has `pool_mutex_`. -/
theorem Owns.alone {t' : UInt64} {mode' : LockMode} {loads' : Bool} {b : AcquirePc} (owns : s.Owns)
    (isAt : s.pcs u = .fixing t p mode f loads a) (isOther : s.pcs v = .fixing t' q mode' g loads' b) :
    v = u := by
  have mine := owns u (isAt ▸ rfl)
  have theirs := owns v (isOther ▸ rfl)
  exact Option.some.inj (theirs.symm.trans mine)

omit [DecidableEq τ] [Zero α] in
/-- A page that is not being loaded has been read. -/
theorem Inv.source_eq (inv : s.Inv) (owns : s.Owns) (isAt : s.pcs u = .fixing t p mode f false a)
    (notRefused : s.refused p = false) (notRead : ∀ v, ¬ (s.pcs v).Reads p) :
    s.source f = some p := by
  rcases inv.read p f (inv.mapped u t p mode f false a isAt) with read | isRefused | ⟨v, isLoading⟩
  · exact read
  · rw [notRefused] at isRefused
    cases isRefused
  -- A call that loads and still asks for the lock would have `pool_mutex_` as well.
  · exfalso
    cases other : s.pcs v with
    | fixing t' q mode' g loads b =>
      rw [other] at isLoading
      obtain rfl := owns.alone isAt other
      rw [isAt] at other
      cases other
      exact isLoading
    | reading t' q g =>
      apply notRead v
      rw [other] at isLoading ⊢
      exact isLoading.1
    | _ =>
      rw [other] at isLoading
      exact isLoading

omit [Zero α] in
/-- Nobody has `pool_mutex_` when `fix_page` starts. -/
theorem Inv.startFix (inv : s.Inv) (owns : s.Owns) (idle : s.pcs u = .idle) (free : s.poolMutex = none) :
    (s.startFix u t p mode).Inv := by
  have nobody : ∀ v t p mode f loads a, s.pcs v ≠ .fixing t p mode f loads a := by
    intro v t p mode f loads a isAt
    have held := owns v (isAt ▸ rfl)
    rw [free] at held
    cases held
  have others : ∀ v, v ≠ u → ∀ pc : Pc, Function.update s.pcs u pc v = s.pcs v :=
    fun v different pc => Function.update_of_ne different _ _
  have loading : ∀ q g, (∃ v, (s.pcs v).Loads q g) → ∀ pc : Pc,
      ∃ v, (Function.update s.pcs u pc v).Loads q g := by
    rintro q g ⟨v, isLoading⟩ pc
    refine ⟨v, ?_⟩
    rw [others v]
    · exact isLoading
    · rintro rfl
      rw [idle] at isLoading
      exact isLoading
  unfold State.startFix
  cases isMapped : s.bm.pageTable p with
  | some f =>
    refine ⟨inv.wf, fun v t' q mode' g loads a isAt => ?_, fun q g there => ?_, inv.loaded⟩
    · rcases eq_or_ne v u with rfl | different
      · cases (Function.update_self _ _ _).symm.trans isAt
        exact isMapped
      · exact absurd ((others v different _).symm.trans isAt) (nobody v t' q mode' g loads a)
    · rcases inv.read q g there with read | isRefused | isLoading
      · exact Or.inl read
      · exact Or.inr (Or.inl isRefused)
      · exact Or.inr (Or.inr (loading q g isLoading _))
  | none =>
    dsimp only
    cases ran : s.bm.mapPage t p with
    | none => exact inv
    | some result =>
      obtain ⟨bm, f⟩ := result
      have maps := inv.wf.mapPage isMapped ran
      refine ⟨maps.wf, fun v t' q mode' g loads a isAt => ?_, fun q g there => ?_, inv.loaded⟩
      · rcases eq_or_ne v u with rfl | different
        · cases (Function.update_self _ _ _).symm.trans isAt
          change bm.pageTable p = some f
          rw [maps.pageTable, Function.update_self]
        · exact absurd ((others v different _).symm.trans isAt) (nobody v t' q mode' g loads a)
      · change bm.pageTable q = some g at there
        rw [maps.pageTable] at there
        rcases eq_or_ne q p with rfl | different
        · rw [Function.update_self, Option.some.injEq] at there
          refine Or.inr (Or.inr ⟨u, ?_⟩)
          change (Function.update s.pcs u _ u).Loads q g
          rw [Function.update_self]
          exact ⟨rfl, there⟩
        · rw [Function.update_of_ne different] at there
          have elsewhere : g ≠ f := by
            rintro rfl
            exact maps.unused q there
          rcases inv.read q g there with read | isRefused | isLoading
          · exact Or.inl ((Function.update_of_ne elsewhere _ _).trans read)
          · exact Or.inr (Or.inl ((Function.update_of_ne different _ _).trans isRefused))
          · exact Or.inr (Or.inr (loading q g isLoading _))

omit [Zero α] in
/-- The loads of the other threads, and of this one while it is still to read the frame. -/
theorem Inv.read_behind (inv : s.Inv) (isAt : s.pcs u = .fixing t p mode f loads a) (pc : Pc)
    (isMapped : s.bm.pageTable q = some g) :
    s.source g = some q ∨ s.refused q = true ∨ (∃ v, (Function.update s.pcs u pc v).Loads q g) ∨
      loads = true ∧ p = q ∧ f = g ∧ ¬ pc.Loads p f := by
  rcases inv.read q g isMapped with read | isRefused | ⟨v, isLoading⟩
  · exact Or.inl read
  · exact Or.inr (Or.inl isRefused)
  · rcases eq_or_ne v u with rfl | different
    · rw [isAt] at isLoading
      cases loads with
      | false => exact isLoading.elim
      | true =>
        obtain ⟨rfl, rfl⟩ := isLoading
        by_cases still : pc.Loads p f
        · refine Or.inr (Or.inr (Or.inl ⟨v, ?_⟩))
          rw [Function.update_self]
          exact still
        · exact Or.inr (Or.inr (Or.inr ⟨rfl, rfl, rfl, still⟩))
    · refine Or.inr (Or.inr (Or.inl ⟨v, ?_⟩))
      rw [Function.update_of_ne different]
      exact isLoading

omit [Zero α] in
theorem Inv.acquired {lm : LockManager} {outcome : Outcome AcquirePc} (inv : s.Inv)
    (owns : s.Owns) (isAt : s.pcs u = .fixing t p mode f loads a)
    (sound : loads = false → outcome = .returned →
      s.refused p = false ∧ ∀ v, ¬ (s.pcs v).Reads p) :
    (s.acquired u t p mode f loads lm outcome).Inv := by
  have there := inv.mapped u t p mode f loads a isAt
  have wf : ({ s.bm with lockManager := lm } : BufferManager α).Wf := inv.wf.congr rfl rfl rfl rfl
  have fixing : ∀ pc v t' q mode' g loads' b,
      Function.update s.pcs u pc v = .fixing t' q mode' g loads' b →
        pc = .fixing t' q mode' g loads' b := by
    intro pc v t' q mode' g loads' b here
    rcases eq_or_ne v u with rfl | different
    · rw [Function.update_self] at here
      exact here
    · rw [Function.update_of_ne different] at here
      exact absurd (owns.alone isAt here) different
  cases outcome with
  | next pc =>
    refine ⟨wf, fun v t' q mode' g loads' b here => ?_, fun q g isMapped => ?_, inv.loaded⟩
    · cases fixing (.fixing t p mode f loads pc) v t' q mode' g loads' b here
      exact there
    · rcases inv.read_behind isAt (.fixing t p mode f loads pc) isMapped with
        read | isRefused | later | ⟨rfl, _, _, gone⟩
      · exact Or.inl read
      · exact Or.inr (Or.inl isRefused)
      · exact Or.inr (Or.inr later)
      · exact absurd ⟨rfl, rfl⟩ gone
  | returned =>
    cases loads with
    | true =>
      refine ⟨wf, fun v t' q mode' g loads' b here => ?_, fun q g isMapped => ?_, inv.loaded⟩
      · cases fixing (.reading t p f) v t' q mode' g loads' b here
      · rcases inv.read_behind isAt (.reading t p f) isMapped with
          read | isRefused | later | ⟨_, _, _, gone⟩
        · exact Or.inl read
        · exact Or.inr (Or.inl isRefused)
        · exact Or.inr (Or.inr later)
        · exact absurd ⟨rfl, rfl⟩ gone
    | false =>
      obtain ⟨notRefused, notRead⟩ := sound rfl rfl
      have isRead := inv.source_eq owns isAt notRefused notRead
      refine ⟨wf.track t p, fun v t' q mode' g loads' b here => ?_, fun q g isMapped => ?_,
        fun one member => ?_⟩
      · cases fixing .idle v t' q mode' g loads' b here
      · change (BufferManager.track _ t p).pageTable q = some g at isMapped
        rw [BufferManager.track_eq] at isMapped
        rcases inv.read_behind isAt .idle isMapped with
          read | isRefused | later | ⟨impossible, _⟩
        · exact Or.inl read
        · exact Or.inr (Or.inl isRefused)
        · exact Or.inr (Or.inr later)
        · cases impossible
      · rcases List.mem_cons.mp member with rfl | old
        · exact isRead
        · exact inv.loaded one old
  | threw =>
    refine ⟨wf, fun v t' q mode' g loads' b here => ?_, fun q g isMapped => ?_, inv.loaded⟩
    · cases fixing .idle v t' q mode' g loads' b here
    · have stays : s.refused q = true →
          (if loads then Function.update s.refused p true else s.refused) q = true := by
        intro before
        split
        · rcases eq_or_ne q p with rfl | different
          · exact Function.update_self _ _ _
          · exact (Function.update_of_ne different _ _).trans before
        · exact before
      rcases inv.read_behind isAt .idle isMapped with read | isRefused | later | ⟨rfl, rfl, _⟩
      · exact Or.inl read
      · exact Or.inr (Or.inl (stays isRefused))
      · exact Or.inr (Or.inr later)
      · exact Or.inr (Or.inl (Function.update_self _ _ _))

omit [Zero α] in
/-- A read of a frame that its page still has. -/
theorem Inv.readLoaded (inv : s.Inv) (isAt : s.pcs u = .reading t p f)
    (isMapped : s.bm.pageTable p = some f) : (s.readLoaded u t p f).Inv := by
  have page : (s.bm.pool f).pageId = p := inv.wf.mapped p f isMapped
  have others : ∀ v, v ≠ u → ∀ pc : Pc, Function.update s.pcs u pc v = s.pcs v :=
    fun v different pc => Function.update_of_ne different _ _
  refine ⟨?_, fun v t' q mode' g loads' b here => ?_, fun q g there => ?_, fun one member => ?_⟩
  · exact inv.wf.put rfl ((Disk.length_readPage _).trans (inv.wf.length f))
  · rcases eq_or_ne v u with rfl | different
    · cases (Function.update_self _ _ _).symm.trans here
    · exact inv.mapped v t' q mode' g loads' b ((others v different _).symm.trans here)
  · change Function.update s.source f (some (s.bm.pool f).pageId) g = some q ∨ _
    rcases eq_or_ne g f with rfl | different
    · obtain rfl := inv.wf.injective isMapped there
      rw [Function.update_self, page]
      exact Or.inl rfl
    · rw [Function.update_of_ne different]
      rcases inv.read q g there with read | isRefused | ⟨v, isLoading⟩
      · exact Or.inl read
      · exact Or.inr (Or.inl isRefused)
      · refine Or.inr (Or.inr ⟨v, ?_⟩)
        change (Function.update s.pcs u .idle v).Loads q g
        rw [others v]
        · exact isLoading
        · rintro rfl
          rw [isAt] at isLoading
          exact different isLoading.2.symm
  · rcases List.mem_cons.mp member with rfl | old
    · change Function.update s.source f (some (s.bm.pool f).pageId) f = some p
      rw [Function.update_self, page]
    · exact inv.loaded one old

/-! ## Every action -/

omit [Zero α] in
/-- A thread that goes on in a call other than `fix_page`. -/
theorem Inv.moves {bm : BufferManager α} {pc : Pc} (inv : s.Inv) (owns : s.Owns) (here : (s.pcs u).fixes = false)
    (there : pc.fixes = false) (wf : bm.Wf)
    (table : bm.pageTable = s.bm.pageTable ∨ s.poolMutex = none)
    (fewer : ∀ p f, bm.pageTable p = some f → s.bm.pageTable p = some f) :
    State.Inv { s.move u pc with bm } := by
  have pcs : ∀ v, Function.update s.pcs u pc v = s.pcs v ∨
      (s.pcs v).fixes = false ∧ (Function.update s.pcs u pc v).fixes = false := by
    intro v
    rcases eq_or_ne v u with rfl | different
    · rw [Function.update_self]
      exact Or.inr ⟨here, there⟩
    · exact Or.inl (Function.update_of_ne different _ _)
  exact inv.calm owns wf pcs rfl rfl table fun p f isMapped => ⟨fewer p f isMapped, rfl⟩

omit [Zero α] in
theorem Inv.released {lm : LockManager} {behind : Pc} {pc : ReleasePc → Pc}
    {outcome : Outcome ReleasePc} (inv : s.Inv) (owns : s.Owns) (here : (s.pcs u).fixes = false)
    (goesOn : ∀ next, (pc next).fixes = false) (ends : behind.fixes = false) :
    (s.released u pc behind lm outcome).Inv := by
  have wf : ({ s.bm with lockManager := lm } : BufferManager α).Wf := inv.wf.congr rfl rfl rfl rfl
  cases outcome with
  | next next => exact inv.moves owns here (goesOn next) wf (Or.inl rfl) fun _ _ => id
  | returned | threw => exact inv.moves owns here ends wf (Or.inl rfl) fun _ _ => id

omit [DecidableEq τ] [Zero α] in
/-- An action of a thread between its calls. -/
theorem Inv.idle {bm : BufferManager α} (inv : s.Inv) (owns : s.Owns) (wf : bm.Wf)
    (table : bm.pageTable = s.bm.pageTable ∨ s.poolMutex = none)
    (fewer : ∀ p f, bm.pageTable p = some f → s.bm.pageTable p = some f) :
    State.Inv { s with bm } :=
  inv.calm owns wf (fun _ => Or.inl rfl) rfl rfl table fun p f isMapped => ⟨fewer p f isMapped, rfl⟩

theorem Inv.nextSection (inv : s.Inv) (owns : s.Owns) (sound : s.ReadsFirst choice (s.pcs u))
    (stepped : s.nextSection u choice = some s') : s'.Inv := by
  unfold State.nextSection at stepped
  cases isAt : s.pcs u with
  | idle => rw [isAt] at stepped; cases stepped
  | fixing t p mode f loads pc =>
    rw [isAt] at stepped sound
    dsimp only at stepped
    obtain ⟨result, ran, rfl⟩ := Option.map_eq_some_iff.mp stepped
    apply inv.acquired owns isAt
    rintro rfl isReturned
    exact sound result ran isReturned
  | reading t p f =>
    rw [isAt] at stepped sound
    cases choice with
    | proceed =>
      cases stepped
      exact inv.readLoaded isAt sound
    | _ => cases stepped
  | flushing t =>
    rw [isAt] at stepped
    cases choice with
    | proceed =>
      obtain ⟨_, rfl⟩ := locked_eq_some stepped
      have flushes := BufferManager.flushPages_flushes s.bm t
      exact inv.moves owns (isAt ▸ rfl) rfl (flushes.wf inv.wf) (Or.inl flushes.pageTable)
        fun _ _ isMapped => flushes.pageTable ▸ isMapped
    | _ => cases stepped
  | completing t pc =>
    rw [isAt] at stepped
    cases choice with
    | proceed =>
      obtain ⟨result, ran, rfl⟩ := Option.map_eq_some_iff.mp stepped
      exact inv.released owns (isAt ▸ rfl) (fun _ => rfl) rfl
    | _ => cases stepped
  | aborting t pc =>
    rw [isAt] at stepped
    cases choice with
    | proceed =>
      obtain ⟨result, ran, rfl⟩ := Option.map_eq_some_iff.mp stepped
      exact inv.released owns (isAt ▸ rfl) (fun _ => rfl) rfl
    | _ => cases stepped
  | discarding t =>
    rw [isAt] at stepped
    cases choice with
    | proceed =>
      obtain ⟨free, rfl⟩ := locked_eq_some stepped
      have discards := inv.wf.discardAll (SetMap.get s.bm.txnPages t)
      exact inv.moves owns (isAt ▸ rfl) rfl (discards.wf.congr rfl rfl rfl rfl) (Or.inr free)
        fun _ _ => discards.fewer
    | _ => cases stepped
  | ending t completes =>
    rw [isAt] at stepped
    cases choice with
    | proceed =>
      obtain ⟨_, rfl⟩ := locked_eq_some stepped
      exact inv.moves owns (isAt ▸ rfl) rfl (inv.wf.congr rfl rfl rfl rfl) (Or.inl rfl) fun _ _ => id
    | _ => cases stepped
  | flushingAll f =>
    rw [isAt] at stepped
    cases choice with
    | proceed =>
      dsimp only at stepped
      split at stepped
      · cases stepped
        have flushes := (BufferManager.flushFrame_flushes s.bm f).1
        exact inv.moves owns (isAt ▸ rfl) rfl (flushes.wf inv.wf) (Or.inl flushes.pageTable)
          fun _ _ isMapped => flushes.pageTable ▸ isMapped
      · cases stepped
        exact inv.moves owns (isAt ▸ rfl) rfl inv.wf (Or.inl rfl) fun _ _ => id
    | _ => cases stepped

theorem Inv.step {action : Action τ α} (inv : s.Inv) (owns : s.Owns) (sound : s.Sound action)
    (stepped : s.step action = some s') : s'.Inv := by
  cases action with
  | fixPage u t p mode =>
    obtain ⟨idle, free, rfl⟩ := section_eq_some stepped
    exact inv.startFix owns idle free
  | write u f offset value =>
    obtain ⟨_, rfl⟩ := call_eq_some stepped
    exact inv.idle owns (inv.wf.writeData f offset value) (Or.inl rfl) fun _ _ => id
  | unfixPage u f isDirty =>
    obtain ⟨_, rfl⟩ := call_eq_some stepped
    have table : (s.bm.unfixPage f isDirty).pageTable = s.bm.pageTable := by
      unfold BufferManager.unfixPage
      split <;> rfl
    exact inv.idle owns (inv.wf.unfixPage f isDirty) (Or.inl table) fun _ _ isMapped => table ▸ isMapped
  | flushPage u p =>
    obtain ⟨_, _, rfl⟩ := section_eq_some stepped
    have flushes := BufferManager.flushPage_flushes s.bm p
    exact inv.idle owns (flushes.wf inv.wf) (Or.inl flushes.pageTable) fun _ _ isMapped =>
      flushes.pageTable ▸ isMapped
  | flushPages u t =>
    obtain ⟨_, _, rfl⟩ := section_eq_some stepped
    have flushes := BufferManager.flushPages_flushes s.bm t
    exact inv.idle owns (flushes.wf inv.wf) (Or.inl flushes.pageTable) fun _ _ isMapped =>
      flushes.pageTable ▸ isMapped
  | discardPage u p =>
    obtain ⟨_, free, rfl⟩ := section_eq_some stepped
    have discards := inv.wf.discardPage p
    exact inv.idle owns discards.wf (Or.inr free) fun _ _ => discards.fewer
  | discardPages u t =>
    obtain ⟨_, free, rfl⟩ := section_eq_some stepped
    have discards := inv.wf.discardAll (SetMap.get s.bm.txnPages t)
    exact inv.idle owns (discards.wf.congr rfl rfl rfl rfl) (Or.inr free) fun _ _ => discards.fewer
  | flushAllPages u =>
    obtain ⟨idle, rfl⟩ := call_eq_some stepped
    exact inv.moves owns (idle ▸ rfl) rfl inv.wf (Or.inl rfl) fun _ _ => id
  | discardAllPages u =>
    obtain ⟨_, free, rfl⟩ := section_eq_some stepped
    exact inv.calm owns (.discardAllPages s.bm) (fun _ => Or.inl rfl) rfl rfl (Or.inr free)
      fun _ _ impossible => by cases impossible
  | transactionComplete u t =>
    obtain ⟨idle, rfl⟩ := call_eq_some stepped
    exact inv.moves owns (idle ▸ rfl) rfl inv.wf (Or.inl rfl) fun _ _ => id
  | transactionAbort u t =>
    obtain ⟨idle, rfl⟩ := call_eq_some stepped
    exact inv.moves owns (idle ▸ rfl) rfl inv.wf (Or.inl rfl) fun _ _ => id
  | step u choice => exact inv.nextSection owns sound stepped

end State

/-- As long as the lock of a page in the pool is granted only behind the read of the call that mapped
it, and every frame is read while its page has it, `fix_page` returns frames that have been read. -/
theorem loaded_of_readsFirst {τ α : Type*} [DecidableEq τ] [Zero α] {pageSize pageCount : Nat}
    {disk : Disk α} {actions : List (Action τ α)}
    (sound : Machine.Along State.step State.Sound (State.new pageSize pageCount disk) actions) :
    Machine.Always State.step State.Loaded (State.new pageSize pageCount disk) actions :=
  Machine.always (P := fun s : State τ α => s.Owns ∧ s.Inv)
    (fun _ _ _ both sound stepped => ⟨both.1.step stepped, both.2.step both.1 sound stepped⟩)
    (fun _ both => both.2.loaded) ⟨.new pageSize pageCount disk, .new pageSize pageCount disk⟩ sound

/-- Transaction 2 asks for the page when transaction 1 has read it. -/
theorem loaded_of_readsFirst_shared :
    Machine.Always State.step State.Loaded twoFrames
        (.fixPage 0 1 0 .shared :: sections 0 7 ++ requests 1 2 .shared 1) ∧
      (Machine.run State.step twoFrames
        (.fixPage 0 1 0 .shared :: sections 0 7 ++ requests 1 2 .shared 1)).map
          (fun s => s.returned.map Return.source) = some [some 0, some 0] :=
  ⟨loaded_of_readsFirst (by decide +kernel), by decide +kernel⟩

/-- Transaction 2 gets the frame of the page that transaction 1 is about to read; and a page whose
load was refused stays in the pool: transaction 1 has the lock, and after `discard_page` transaction 2
maps the page, waits in vain, and leaves it to transaction 1 unread. -/
theorem not_loaded_early :
    (¬ ∀ actions s, Machine.run State.step twoFrames actions = some s → s.Loaded) ∧
      ∃ s, Machine.run State.step twoFrames (.fixPage 0 1 0 .exclusive :: sections 0 7 ++
        .discardPage 0 0 :: requests 1 2 .shared 1 ++ sections 1 1 ++ .step 1 .timeout ::
        .fixPage 0 1 0 .shared :: sections 0 2) = some s ∧ ¬ s.Loaded := by
  constructor
  · intro loaded
    have broken : (Machine.run State.step twoFrames (.fixPage 0 1 0 .shared :: sections 0 6 ++
        requests 1 2 .shared 1)).any (fun s => ¬ s.Loaded) := by decide +kernel
    obtain ⟨s, ran, unread⟩ := (Option.any_eq_true _ _).mp broken
    exact of_decide_eq_true unread (loaded _ s ran)
  · have broken : (Machine.run State.step twoFrames (.fixPage 0 1 0 .exclusive :: sections 0 7 ++
        .discardPage 0 0 :: requests 1 2 .shared 1 ++ sections 1 1 ++ .step 1 .timeout ::
        .fixPage 0 1 0 .shared :: sections 0 2)).any (fun s => ¬ s.Loaded) := by decide +kernel
    obtain ⟨s, ran, unread⟩ := (Option.any_eq_true _ _).mp broken
    exact ⟨s, ran, of_decide_eq_true unread⟩

end BuzzDB.Locking.Threads
