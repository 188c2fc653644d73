import AtomicWaits.Timespec
import AtomicWaits.Lib.Lts

/-!
# The wait functions as step functions

`atomic_wait_generic`, the native loop of `atomic_wait_expected_32` and the native loop of
`atomic_wait_N`, each cut where it reads or writes something shared. A frame holds the arguments and
the local variables of one call; a `WaitEvent` is what one shared access returned. The environment
chooses the events, so a run of a frame is a list of events (`Lts.exec`).

The value type `V` is that of the object: `memcmp` over the bytes of two values is equality.
-/

namespace AtomicWaits

/-- What the environment answers to one access of a wait function. -/
inductive WaitEvent (V : Type)
  /-- `monotonic_now`. -/
  | clock (now : Timespec)
  /-- A load of the object with the failure ordering. -/
  | load (v : V)
  /-- The reload with the success ordering. -/
  | reload (v : V)
  /-- `hash_table_lock`. -/
  | lock
  /-- `hash_table_find_or_create(table, object, true)`, with `errno` after it. -/
  | findOrCreate (item : Option ℕ) (errno : ℤ)
  /-- `hash_table_unlock`. -/
  | unlock
  /-- `..._WAIT_GET_COUNTER`. -/
  | getCounter (c : BitVec 32)
  /-- The park call, with `errno` after it. -/
  | park (ret2 errno : ℤ)
  /-- `--item->use_count`, with the count it leaves. -/
  | decUseCount (left : ℤ)
  /-- `hash_table_remove_item`, with `errno` after it. -/
  | removeItem (errno : ℤ)
  deriving DecidableEq, Repr

/-- Where `atomic_wait_generic` stands. -/
inductive WaitPc
  | entryClock
  | loadTop
  | reloadTop
  | lockForRegister
  | findOrCreate
  | unlockFailed
  | getCounter
  | loadLocked
  | reloadLocked
  | unlockRegistered
  | checkDeadline
  | park
  | getCounterAgain
  | lockForRelease
  | decUseCount
  | removeItem
  | unlockReleased
  | returned
  deriving DecidableEq, Repr

/-- One call of `atomic_wait_generic`: its arguments, `*expected`, the thread's `errno`, and the
locals. -/
structure WaitFrame (V : Type) where
  object : ℕ
  duration : Option Timespec
  success : MemoryOrder
  failure : MemoryOrder
  pc : WaitPc
  expected : V
  errno : ℤ
  ret : ℤ
  entryErrno : ℤ
  errnoIsSet : Bool
  deadline : Timespec
  item : Option ℕ
  itemCounter : BitVec 32
  lockIsHeld : Bool
  tsRemaining : Option Timespec
  saveErrno : ℤ

/-- `ret2 < 0 && ret2 != -EAGAIN && ret2 != -EINTR && ret2 != -ETIMEDOUT`. -/
def HardError (E : ErrnoCodes) (ret2 : ℤ) : Prop :=
  ret2 < 0 ∧ ret2 ≠ -E.EAGAIN ∧ ret2 ≠ -E.EINTR ∧ ret2 ≠ -E.ETIMEDOUT

instance (E : ErrnoCodes) (ret2 : ℤ) : Decidable (HardError E ret2) :=
  inferInstanceAs (Decidable (_ ∧ _ ∧ _ ∧ _))

variable {V : Type} [DecidableEq V]

namespace WaitFrame

/-- The frame at entry. -/
def start (object : ℕ) (expected : V) (duration : Option Timespec) (success failure : MemoryOrder)
    (errno : ℤ) : WaitFrame V where
  object := object
  duration := duration
  success := success
  failure := failure
  pc := if duration.isSome then .entryClock else .loadTop
  expected := expected
  errno := errno
  ret := 0
  entryErrno := errno
  errnoIsSet := false
  deadline := ⟨0, 0⟩
  item := none
  itemCounter := 0
  lockIsHeld := false
  tsRemaining := none
  saveErrno := 0

/-- `break`: on to the common tail. -/
def breakLoop (f : WaitFrame V) : WaitFrame V :=
  match f.item with
  | none => { f with pc := .returned }
  | some _ =>
    { f with
      saveErrno := if f.errnoIsSet then f.errno else f.entryErrno
      pc := if f.lockIsHeld then .decUseCount else .lockForRelease }

omit [DecidableEq V] in
theorem breakLoop_of_none {f : WaitFrame V} (h : f.item = none) :
    f.breakLoop = { f with pc := .returned } := by
  rw [breakLoop, h]

omit [DecidableEq V] in
theorem breakLoop_of_some {f : WaitFrame V} (h : f.item ≠ none) :
    f.breakLoop = { f with
      saveErrno := if f.errnoIsSet then f.errno else f.entryErrno
      pc := if f.lockIsHeld then .decUseCount else .lockForRelease } := by
  obtain ⟨p, hp⟩ := Option.ne_none_iff_exists'.mp h
  rw [breakLoop, hp]

/-- On to the deadline check, which only a timed wait makes. -/
def onToPark (f : WaitFrame V) : WaitFrame V :=
  if f.duration.isSome then { f with pc := .checkDeadline }
  else { f with pc := .park, tsRemaining := none }

/-- `ret != 0 && success > failure`. -/
def reloads (f : WaitFrame V) : Bool := f.ret ≠ 0 ∧ f.failure.toNat < f.success.toNat

end WaitFrame

/-- One step of `atomic_wait_generic`. -/
def atomicWaitGeneric (cfg : Platform) (f : WaitFrame V) (ev : WaitEvent V) :
    Option (WaitFrame V) :=
  match f.pc, ev with
  | .entryClock, .clock now =>
    match f.duration with
    | some duration =>
      some { f with deadline := computeDeadline cfg now duration, pc := .loadTop }
    | none => none
  | .loadTop, .load v =>
    if v ≠ f.expected then
      let f := { f with expected := v }
      some (if f.reloads then { f with pc := .reloadTop } else f.breakLoop)
    else
      some (if f.item = none then { f with pc := .lockForRegister } else f.onToPark)
  | .reloadTop, .reload _ => some f.breakLoop
  | .lockForRegister, .lock => some { f with pc := .findOrCreate }
  | .findOrCreate, .findOrCreate item errno =>
    some { f with
      item := item, errno := errno, pc := if item = none then .unlockFailed else .getCounter }
  | .unlockFailed, .unlock => some { f with ret := -1, pc := .returned }
  | .getCounter, .getCounter c => some { f with itemCounter := c, pc := .loadLocked }
  | .loadLocked, .load v =>
    if v ≠ f.expected then
      let f := { f with expected := v }
      some (if f.reloads then { f with pc := .reloadLocked }
        else { f with lockIsHeld := true }.breakLoop)
    else some { f with pc := .unlockRegistered }
  | .reloadLocked, .reload _ => some { f with lockIsHeld := true }.breakLoop
  | .unlockRegistered, .unlock => some { f with ret := 1 }.onToPark
  | .checkDeadline, .clock now =>
    if now.Reached f.deadline then
      some { f with errno := cfg.errno.ETIMEDOUT, errnoIsSet := true, ret := 0 }.breakLoop
    else
      some { f with tsRemaining := some (remaining cfg f.deadline now), pc := .park }
  | .park, .park ret2 errno =>
    if HardError cfg.errno ret2 then
      some { f with errno := -ret2, errnoIsSet := true, ret := -1 }.breakLoop
    else some { f with errno := errno, pc := .getCounterAgain }
  | .getCounterAgain, .getCounter c => some { f with itemCounter := c, pc := .loadTop }
  | .lockForRelease, .lock => some { f with pc := .decUseCount }
  | .decUseCount, .decUseCount left =>
    some { f with pc := if left = 0 then .removeItem else .unlockReleased }
  | .removeItem, .removeItem errno => some { f with errno := errno, pc := .unlockReleased }
  | .unlockReleased, .unlock => some { f with errno := f.saveErrno, pc := .returned }
  | _, _ => none

/-- What one step of `atomic_wait_generic` can do. -/
inductive GenericStep (cfg : Platform) (f : WaitFrame V) : WaitEvent V → WaitFrame V → Prop
  | entry (now duration : Timespec) : f.pc = .entryClock → f.duration = some duration →
      GenericStep cfg f (.clock now)
        { f with deadline := computeDeadline cfg now duration, pc := .loadTop }
  | topChangedReload (v : V) : f.pc = .loadTop → v ≠ f.expected → f.reloads →
      GenericStep cfg f (.load v) { f with expected := v, pc := .reloadTop }
  | topChanged (v : V) : f.pc = .loadTop → v ≠ f.expected → ¬ f.reloads →
      GenericStep cfg f (.load v) { f with expected := v }.breakLoop
  | topFirst : f.pc = .loadTop → f.item = none →
      GenericStep cfg f (.load f.expected) { f with pc := .lockForRegister }
  | topAgain : f.pc = .loadTop → f.item ≠ none → GenericStep cfg f (.load f.expected) f.onToPark
  | reloadTop (v : V) : f.pc = .reloadTop → GenericStep cfg f (.reload v) f.breakLoop
  | lockForRegister : f.pc = .lockForRegister →
      GenericStep cfg f .lock { f with pc := .findOrCreate }
  | registerFailed (errno : ℤ) : f.pc = .findOrCreate →
      GenericStep cfg f (.findOrCreate none errno)
        { f with item := none, errno := errno, pc := .unlockFailed }
  | registered (p : ℕ) (errno : ℤ) : f.pc = .findOrCreate →
      GenericStep cfg f (.findOrCreate (some p) errno)
        { f with item := some p, errno := errno, pc := .getCounter }
  | unlockFailed : f.pc = .unlockFailed →
      GenericStep cfg f .unlock { f with ret := -1, pc := .returned }
  | getCounter (c : BitVec 32) : f.pc = .getCounter →
      GenericStep cfg f (.getCounter c) { f with itemCounter := c, pc := .loadLocked }
  | lockedChangedReload (v : V) : f.pc = .loadLocked → v ≠ f.expected → f.reloads →
      GenericStep cfg f (.load v) { f with expected := v, pc := .reloadLocked }
  | lockedChanged (v : V) : f.pc = .loadLocked → v ≠ f.expected → ¬ f.reloads →
      GenericStep cfg f (.load v) { f with expected := v, lockIsHeld := true }.breakLoop
  | lockedSame : f.pc = .loadLocked →
      GenericStep cfg f (.load f.expected) { f with pc := .unlockRegistered }
  | reloadLocked (v : V) : f.pc = .reloadLocked →
      GenericStep cfg f (.reload v) { f with lockIsHeld := true }.breakLoop
  | unlockRegistered : f.pc = .unlockRegistered →
      GenericStep cfg f .unlock { f with ret := 1 }.onToPark
  | timedOut (now : Timespec) : f.pc = .checkDeadline → now.Reached f.deadline →
      GenericStep cfg f (.clock now)
        { f with errno := cfg.errno.ETIMEDOUT, errnoIsSet := true, ret := 0 }.breakLoop
  | notYet (now : Timespec) : f.pc = .checkDeadline → ¬ now.Reached f.deadline →
      GenericStep cfg f (.clock now)
        { f with tsRemaining := some (remaining cfg f.deadline now), pc := .park }
  | parkFailed (ret2 errno : ℤ) : f.pc = .park → HardError cfg.errno ret2 →
      GenericStep cfg f (.park ret2 errno)
        { f with errno := -ret2, errnoIsSet := true, ret := -1 }.breakLoop
  | parked (ret2 errno : ℤ) : f.pc = .park → ¬ HardError cfg.errno ret2 →
      GenericStep cfg f (.park ret2 errno) { f with errno := errno, pc := .getCounterAgain }
  | getCounterAgain (c : BitVec 32) : f.pc = .getCounterAgain →
      GenericStep cfg f (.getCounter c) { f with itemCounter := c, pc := .loadTop }
  | lockForRelease : f.pc = .lockForRelease → GenericStep cfg f .lock { f with pc := .decUseCount }
  | lastUse : f.pc = .decUseCount → GenericStep cfg f (.decUseCount 0) { f with pc := .removeItem }
  | notLastUse (left : ℤ) : f.pc = .decUseCount → left ≠ 0 →
      GenericStep cfg f (.decUseCount left) { f with pc := .unlockReleased }
  | removeItem (errno : ℤ) : f.pc = .removeItem →
      GenericStep cfg f (.removeItem errno) { f with errno := errno, pc := .unlockReleased }
  | unlockReleased : f.pc = .unlockReleased →
      GenericStep cfg f .unlock { f with errno := f.saveErrno, pc := .returned }

/-- **The step inversion.** -/
theorem atomicWaitGeneric_cases {cfg : Platform} {f f' : WaitFrame V} {ev : WaitEvent V}
    (h : atomicWaitGeneric cfg f ev = some f') : GenericStep cfg f ev f' := by
  simp only [atomicWaitGeneric] at h
  split at h
  · next now hpc =>
    split at h
    · next d hd =>
      cases h
      exact .entry now d hpc hd
    · cases h
  · next v hpc =>
    split at h
    · next hv =>
      split at h
      · next hr =>
        cases h
        exact .topChangedReload v hpc hv hr
      · next hr =>
        cases h
        exact .topChanged v hpc hv hr
    · next hv =>
      obtain rfl : v = f.expected := not_not.mp hv
      split at h
      · next hi =>
        cases h
        exact .topFirst hpc hi
      · next hi =>
        cases h
        exact .topAgain hpc hi
  · next v hpc =>
    cases h
    exact .reloadTop v hpc
  · next hpc =>
    cases h
    exact .lockForRegister hpc
  · next item errno hpc =>
    cases h
    cases item with
    | none => exact .registerFailed errno hpc
    | some p => exact .registered p errno hpc
  · next hpc =>
    cases h
    exact .unlockFailed hpc
  · next c hpc =>
    cases h
    exact .getCounter c hpc
  · next v hpc =>
    split at h
    · next hv =>
      split at h
      · next hr =>
        cases h
        exact .lockedChangedReload v hpc hv hr
      · next hr =>
        cases h
        exact .lockedChanged v hpc hv hr
    · next hv =>
      obtain rfl : v = f.expected := not_not.mp hv
      cases h
      exact .lockedSame hpc
  · next v hpc =>
    cases h
    exact .reloadLocked v hpc
  · next hpc =>
    cases h
    exact .unlockRegistered hpc
  · next now hpc =>
    split at h
    · next hr =>
      cases h
      exact .timedOut now hpc hr
    · next hr =>
      cases h
      exact .notYet now hpc hr
  · next ret2 errno hpc =>
    split at h
    · next hh =>
      cases h
      exact .parkFailed ret2 errno hpc hh
    · next hh =>
      cases h
      exact .parked ret2 errno hpc hh
  · next c hpc =>
    cases h
    exact .getCounterAgain c hpc
  · next hpc =>
    cases h
    exact .lockForRelease hpc
  · next left hpc =>
    cases h
    by_cases hl : left = 0
    · subst hl
      exact .lastUse hpc
    · rw [if_neg hl]
      exact .notLastUse left hpc hl
  · next errno hpc =>
    cases h
    exact .removeItem errno hpc
  · next hpc =>
    cases h
    exact .unlockReleased hpc
  · cases h

/-- The function makes every step of the relation. -/
theorem GenericStep.run {cfg : Platform} {f f' : WaitFrame V} {ev : WaitEvent V}
    (h : GenericStep cfg f ev f') : atomicWaitGeneric cfg f ev = some f' := by
  cases h with
  | entry now duration hpc hd => simp only [atomicWaitGeneric, hpc, hd]
  | topChangedReload v hpc hv hr | lockedChangedReload v hpc hv hr =>
    simp only [atomicWaitGeneric, hpc]
    exact (if_pos hv).trans (congrArg some (if_pos hr))
  | topChanged v hpc hv hr | lockedChanged v hpc hv hr =>
    simp only [atomicWaitGeneric, hpc]
    exact (if_pos hv).trans (congrArg some (if_neg hr))
  | topFirst hpc hi => simp only [atomicWaitGeneric, hpc, hi, ne_eq, not_true, if_false, if_true]
  | topAgain hpc hi => simp only [atomicWaitGeneric, hpc, hi, ne_eq, not_true, if_false]
  | lockedSame hpc => simp only [atomicWaitGeneric, hpc, ne_eq, not_true, if_false]
  | registerFailed errno hpc => simp only [atomicWaitGeneric, hpc, if_true]
  | registered p errno hpc => simp only [atomicWaitGeneric, hpc, reduceCtorEq, if_false]
  | timedOut now hpc hr | notYet now hpc hr => simp only [atomicWaitGeneric, hpc, hr, if_true, if_false]
  | parkFailed ret2 errno hpc hh | parked ret2 errno hpc hh =>
    simp only [atomicWaitGeneric, hpc, hh, if_true, if_false]
  | lastUse hpc => simp only [atomicWaitGeneric, hpc, if_true]
  | notLastUse left hpc hl => simp only [atomicWaitGeneric, hpc, hl, if_false]
  | _ => simp only [atomicWaitGeneric, *]

/-! ### The native loops -/

inductive NativePc
  | entryClock
  | load
  | reload
  | checkDeadline
  | park
  | returned
  deriving DecidableEq, Repr

/-- One call of `atomic_wait_expected_32` on a backend with a native 4-byte wait. -/
structure NativeFrame (V : Type) where
  duration : Option Timespec
  success : MemoryOrder
  failure : MemoryOrder
  pc : NativePc
  expected : V
  errno : ℤ
  ret : ℤ
  entryErrno : ℤ
  deadline : Timespec
  tsRemaining : Option Timespec

namespace NativeFrame

def start (expected : V) (duration : Option Timespec) (success failure : MemoryOrder)
    (errno : ℤ) : NativeFrame V where
  duration := duration
  success := success
  failure := failure
  pc := if duration.isSome then .entryClock else .load
  expected := expected
  errno := errno
  ret := 0
  entryErrno := errno
  deadline := ⟨0, 0⟩
  tsRemaining := none

/-- `ret != 0 && success > failure`. -/
def reloads (f : NativeFrame V) : Bool := f.ret ≠ 0 ∧ f.failure.toNat < f.success.toNat

/-- `errno = entry_errno; return ret;`. -/
def returnChanged (f : NativeFrame V) : NativeFrame V :=
  { f with errno := f.entryErrno, pc := .returned }

end NativeFrame

/-- One step of the native loop of `atomic_wait_expected_32`. -/
def atomicWaitExpected32 (cfg : Platform) (f : NativeFrame V) (ev : WaitEvent V) :
    Option (NativeFrame V) :=
  match f.pc, ev with
  | .entryClock, .clock now =>
    match f.duration with
    | some duration => some { f with deadline := computeDeadline cfg now duration, pc := .load }
    | none => none
  | .load, .load v =>
    if v ≠ f.expected then
      let f := { f with expected := v }
      some (if f.reloads then { f with pc := .reload } else f.returnChanged)
    else
      let f := { f with ret := 1 }
      some (if f.duration.isSome then { f with pc := .checkDeadline }
        else { f with pc := .park, tsRemaining := none })
  | .reload, .reload _ => some f.returnChanged
  | .checkDeadline, .clock now =>
    if now.Reached f.deadline then
      some { f with errno := cfg.errno.ETIMEDOUT, ret := 0, pc := .returned }
    else
      some { f with tsRemaining := some (remaining cfg f.deadline now), pc := .park }
  | .park, .park ret2 errno =>
    if HardError cfg.errno ret2 then
      some { f with errno := -ret2, ret := -1, pc := .returned }
    else some { f with errno := errno, pc := .load }
  | _, _ => none

/-- What one step of the native loop can do. -/
inductive NativeStep (cfg : Platform) (f : NativeFrame V) : WaitEvent V → NativeFrame V → Prop
  | entry (now duration : Timespec) : f.pc = .entryClock → f.duration = some duration →
      NativeStep cfg f (.clock now)
        { f with deadline := computeDeadline cfg now duration, pc := .load }
  | changedReload (v : V) : f.pc = .load → v ≠ f.expected → f.reloads →
      NativeStep cfg f (.load v) { f with expected := v, pc := .reload }
  | changed (v : V) : f.pc = .load → v ≠ f.expected → ¬ f.reloads →
      NativeStep cfg f (.load v) { f with expected := v }.returnChanged
  | sameTimed : f.pc = .load → f.duration ≠ none →
      NativeStep cfg f (.load f.expected) { f with ret := 1, pc := .checkDeadline }
  | same : f.pc = .load → f.duration = none →
      NativeStep cfg f (.load f.expected) { f with ret := 1, pc := .park, tsRemaining := none }
  | reload (v : V) : f.pc = .reload → NativeStep cfg f (.reload v) f.returnChanged
  | timedOut (now : Timespec) : f.pc = .checkDeadline → now.Reached f.deadline →
      NativeStep cfg f (.clock now)
        { f with errno := cfg.errno.ETIMEDOUT, ret := 0, pc := .returned }
  | notYet (now : Timespec) : f.pc = .checkDeadline → ¬ now.Reached f.deadline →
      NativeStep cfg f (.clock now)
        { f with tsRemaining := some (remaining cfg f.deadline now), pc := .park }
  | parkFailed (ret2 errno : ℤ) : f.pc = .park → HardError cfg.errno ret2 →
      NativeStep cfg f (.park ret2 errno) { f with errno := -ret2, ret := -1, pc := .returned }
  | parked (ret2 errno : ℤ) : f.pc = .park → ¬ HardError cfg.errno ret2 →
      NativeStep cfg f (.park ret2 errno) { f with errno := errno, pc := .load }

theorem atomicWaitExpected32_cases {cfg : Platform} {f f' : NativeFrame V} {ev : WaitEvent V}
    (h : atomicWaitExpected32 cfg f ev = some f') : NativeStep cfg f ev f' := by
  simp only [atomicWaitExpected32] at h
  split at h
  · next now hpc =>
    split at h
    · next d hd =>
      cases h
      exact .entry now d hpc hd
    · cases h
  · next v hpc =>
    split at h
    · next hv =>
      split at h
      · next hr =>
        cases h
        exact .changedReload v hpc hv hr
      · next hr =>
        cases h
        exact .changed v hpc hv hr
    · next hv =>
      obtain rfl : v = f.expected := not_not.mp hv
      split at h
      · next hd =>
        cases h
        exact .sameTimed hpc (Option.isSome_iff_ne_none.mp hd)
      · next hd =>
        cases h
        exact .same hpc (Option.not_isSome_iff_eq_none.mp hd)
  · next v hpc =>
    cases h
    exact .reload v hpc
  · next now hpc =>
    split at h
    · next hr =>
      cases h
      exact .timedOut now hpc hr
    · next hr =>
      cases h
      exact .notYet now hpc hr
  · next ret2 errno hpc =>
    split at h
    · next hh =>
      cases h
      exact .parkFailed ret2 errno hpc hh
    · next hh =>
      cases h
      exact .parked ret2 errno hpc hh
  · cases h

theorem NativeStep.run {cfg : Platform} {f f' : NativeFrame V} {ev : WaitEvent V}
    (h : NativeStep cfg f ev f') : atomicWaitExpected32 cfg f ev = some f' := by
  cases h with
  | entry now duration hpc hd => simp only [atomicWaitExpected32, hpc, hd]
  | changedReload v hpc hv hr =>
    simp only [atomicWaitExpected32, hpc]
    exact (if_pos hv).trans (congrArg some (if_pos hr))
  | changed v hpc hv hr =>
    simp only [atomicWaitExpected32, hpc]
    exact (if_pos hv).trans (congrArg some (if_neg hr))
  | sameTimed hpc hd =>
    simp only [atomicWaitExpected32, hpc, ne_eq, not_true, if_false]
    exact congrArg some (if_pos (Option.isSome_iff_ne_none.mpr hd))
  | same hpc hd =>
    simp only [atomicWaitExpected32, hpc, hd, ne_eq, not_true, if_false, Option.isSome_none,
      Bool.false_eq_true]
  | timedOut now hpc hr | notYet now hpc hr =>
    simp only [atomicWaitExpected32, hpc, hr, if_true, if_false]
  | parkFailed ret2 errno hpc hh | parked ret2 errno hpc hh =>
    simp only [atomicWaitExpected32, hpc, hh, if_true, if_false]
  | reload v hpc => simp only [atomicWaitExpected32, hpc]

inductive LoopPc
  | load
  | park
  | returned
  deriving DecidableEq, Repr

/-- One call of `atomic_wait_N` on a backend with a native wait of that width. -/
structure LoopFrame (V : Type) where
  expected : V
  pc : LoopPc

/-- One step of `while(atomic_load_explicit(object, order) == expected) wait_on_addressN(...)`. -/
def atomicWaitN (f : LoopFrame V) (ev : WaitEvent V) : Option (LoopFrame V) :=
  match f.pc, ev with
  | .load, .load v => some { f with pc := if v = f.expected then .park else .returned }
  | .park, .park _ _ => some { f with pc := .load }
  | _, _ => none

/-! ### What a run has seen -/

namespace WaitEvent

variable {V : Type}

/-- The value of a load that is compared with `*expected`. -/
def loaded : WaitEvent V → Option V
  | .load v => some v
  | _ => none

def clockReading : WaitEvent V → Option Timespec
  | .clock now => some now
  | _ => none

def parkResult : WaitEvent V → Option ℤ
  | .park ret2 _ => some ret2
  | _ => none

/-- The values the run loaded and compared, in order. -/
def loads (evs : List (WaitEvent V)) : List V := evs.filterMap loaded

/-- The clock readings of the run, in order. -/
def clocks (evs : List (WaitEvent V)) : List Timespec := evs.filterMap clockReading

/-- The results of the park calls of the run, in order. -/
def parks (evs : List (WaitEvent V)) : List ℤ := evs.filterMap parkResult

@[simp] theorem loads_append (xs ys : List (WaitEvent V)) :
    loads (xs ++ ys) = loads xs ++ loads ys := List.filterMap_append

@[simp] theorem clocks_append (xs ys : List (WaitEvent V)) :
    clocks (xs ++ ys) = clocks xs ++ clocks ys := List.filterMap_append

@[simp] theorem parks_append (xs ys : List (WaitEvent V)) :
    parks (xs ++ ys) = parks xs ++ parks ys := List.filterMap_append

@[simp] theorem loads_singleton (ev : WaitEvent V) : loads [ev] = ev.loaded.toList := by
  cases ev <;> rfl

@[simp] theorem clocks_singleton (ev : WaitEvent V) : clocks [ev] = ev.clockReading.toList := by
  cases ev <;> rfl

@[simp] theorem parks_singleton (ev : WaitEvent V) : parks [ev] = ev.parkResult.toList := by
  cases ev <;> rfl

@[simp] theorem loads_nil : loads ([] : List (WaitEvent V)) = [] := rfl

@[simp] theorem clocks_nil : clocks ([] : List (WaitEvent V)) = [] := rfl

@[simp] theorem parks_nil : parks ([] : List (WaitEvent V)) = [] := rfl

end WaitEvent

end AtomicWaits
