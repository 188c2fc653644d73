import AtomicWaits.WaitContract
import AtomicWaits.HashTable

/-!
# A wait and the `errno` it finds

`wait_on_address32` of the Linux, FreeBSD and macOS backends takes a zero for success and reports any
other return of the kernel as the negated `errno`. On macOS `__ulock_wait` returns the number of other
threads waiting on the address: a successful park then reports an `errno` nothing has set.

A `Script` is the environment of one wait: the values of the object, the clock readings, the outcome
of the registration and what the kernel returns. It determines the run from each `errno` at entry.

* `run_eraseErrno`: up to the first positive return, runs of one script differ in `errno` only.
* `errnoIrrelevant_iff`: a wait does not depend on `errno` for exactly those kernels that return
  nothing positive before their first failure.
-/

namespace AtomicWaits

open Lib WaitEvent

/-- What a kernel park call returns. A failure returns `-1` and sets `errno`; a success returns what
is not negative and leaves `errno` alone. -/
inductive KernelPark
  | failed (errno : ℤ)
  | succeeded (ret : ℕ)
  deriving DecidableEq, Repr

namespace KernelPark

def ret : KernelPark → ℤ
  | failed _ => -1
  | succeeded ret => ret

/-- `errno` after the call. -/
def errnoAfter (k : KernelPark) (errno : ℤ) : ℤ :=
  match k with
  | failed errno' => errno'
  | succeeded _ => errno

/-- A failure the wait functions do not retry after. -/
def Hard (E : ErrnoCodes) : KernelPark → Prop
  | failed errno => HardError E (-errno)
  | succeeded _ => False

end KernelPark

/-- `wait_on_address32` of the Linux, FreeBSD and macOS backends, which differ in the kernel call they
make: the return value, and `errno`. -/
def waitOnAddress32 (k : KernelPark) (errno : ℤ) : ℤ × ℤ :=
  let saveErrno := errno
  let errno := k.errnoAfter errno
  if k.ret = 0 then (0, saveErrno) else (-errno, saveErrno)

theorem waitOnAddress32_errno (k : KernelPark) (errno : ℤ) : (waitOnAddress32 k errno).2 = errno := by
  unfold waitOnAddress32
  dsimp only
  split
  · rfl
  · rfl

/-- **A kernel return that is not positive is reported without the old `errno`.** -/
theorem waitOnAddress32_of_nonpos {k : KernelPark} (h : k.ret ≤ 0) (errno₁ errno₂ : ℤ) :
    (waitOnAddress32 k errno₁).1 = (waitOnAddress32 k errno₂).1 := by
  cases k with
  | failed errno => rfl
  | succeeded ret =>
    have hzero : ret = 0 := by
      simp only [KernelPark.ret] at h
      omega
    rw [hzero]
    rfl

theorem waitOnAddress32_of_pos {k : KernelPark} (h : 0 < k.ret) (errno : ℤ) :
    waitOnAddress32 k errno = (-errno, errno) := by
  cases k with
  | failed errno' => exact absurd h (by simp [KernelPark.ret])
  | succeeded ret => exact if_neg h.ne'

/-! ### Runs in a given environment -/

/-- The arguments of a wait. -/
structure WaitArgs (V : Type) where
  object : ℕ
  expected : V
  duration : Option Timespec
  success : MemoryOrder
  failure : MemoryOrder

/-- The call at entry, with the `errno` it finds. -/
def WaitArgs.call {V : Type} (a : WaitArgs V) (impl : Implementation) (errno : ℤ) : WaitCall V :=
  .start impl a.object a.expected a.duration a.success a.failure errno

/-- The environment of one wait. -/
structure Script (V : Type) where
  /-- The values of the successive loads of the object. -/
  object : ℕ → V
  clock : ℕ → Timespec
  kernel : ℕ → KernelPark
  /-- What `hash_table_find_or_create` returns, and sets `errno` to. -/
  item : Option ℕ
  itemErrno : Option ℤ
  counter : ℕ → BitVec 32
  /-- The use count the release leaves. -/
  left : ℤ
  removeErrno : Option ℤ

/-- A load of the object, with either ordering. -/
def WaitEvent.isLook {V : Type} : WaitEvent V → Bool
  | .load _ => true
  | .reload _ => true
  | _ => false

def WaitEvent.isGetCounter {V : Type} : WaitEvent V → Bool
  | .getCounter _ => true
  | _ => false

namespace Script

variable {V : Type} (s : Script V) (past : List (WaitEvent V)) (errno : ℤ)

/-- The next value of the object, after the events `past`. -/
def nextObject : V := s.object (past.countP isLook)

def nextClock : Timespec := s.clock (clocks past).length

def nextKernel : KernelPark := s.kernel (parks past).length

def nextCounter : BitVec 32 := s.counter (past.countP isGetCounter)

/-- The event of a park call. -/
def parkEvent : WaitEvent V :=
  let r := waitOnAddress32 (s.nextKernel past) errno
  .park r.1 r.2

/-- What the environment answers `atomic_wait_generic` where it stands. -/
def answerGeneric : WaitPc → Option (WaitEvent V)
  | .entryClock | .checkDeadline => some (.clock (s.nextClock past))
  | .loadTop | .loadLocked => some (.load (s.nextObject past))
  | .reloadTop | .reloadLocked => some (.reload (s.nextObject past))
  | .lockForRegister | .lockForRelease => some .lock
  | .findOrCreate => some (.findOrCreate s.item (errnoAfter s.itemErrno errno))
  | .unlockFailed | .unlockRegistered | .unlockReleased => some .unlock
  | .getCounter | .getCounterAgain => some (.getCounter (s.nextCounter past))
  | .park => some (s.parkEvent past errno)
  | .decUseCount => some (.decUseCount s.left)
  | .removeItem => some (.removeItem (errnoAfter s.removeErrno errno))
  | .returned => none

/-- What it answers the native loop. -/
def answerNative : NativePc → Option (WaitEvent V)
  | .entryClock | .checkDeadline => some (.clock (s.nextClock past))
  | .load => some (.load (s.nextObject past))
  | .reload => some (.reload (s.nextObject past))
  | .park => some (s.parkEvent past errno)
  | .returned => none

def answer (call : WaitCall V) : Option (WaitEvent V) :=
  match call with
  | .native f => s.answerNative past f.errno f.pc
  | .generic f => s.answerGeneric past f.errno f.pc

variable [DecidableEq V] (cfg : Platform)

/-- One step of a call in the environment; a call that has returned stays as it is. -/
def next (x : List (WaitEvent V) × WaitCall V) : List (WaitEvent V) × WaitCall V :=
  match s.answer x.1 x.2 with
  | none => x
  | some ev =>
    match x.2.step cfg ev with
    | none => x
    | some call => (x.1 ++ [ev], call)

/-- The events and the call after `n` steps. -/
def run (call : WaitCall V) (n : ℕ) : List (WaitEvent V) × WaitCall V := (s.next cfg)^[n] ([], call)

end Script

/-! ### What is left without `errno` -/

namespace WaitEvent

variable {V : Type}

/-- The event without the `errno` it leaves. -/
def eraseErrno : WaitEvent V → WaitEvent V
  | .findOrCreate item _ => .findOrCreate item 0
  | .park ret2 _ => .park ret2 0
  | .removeItem _ => .removeItem 0
  | ev => ev

end WaitEvent

section Erase

variable {V : Type} {cfg : Platform}

def WaitFrame.eraseErrno (f : WaitFrame V) : WaitFrame V :=
  { f with errno := 0, entryErrno := 0, saveErrno := 0 }

def NativeFrame.eraseErrno (f : NativeFrame V) : NativeFrame V :=
  { f with errno := 0, entryErrno := 0 }

def WaitCall.eraseErrno : WaitCall V → WaitCall V
  | .native f => .native f.eraseErrno
  | .generic f => .generic f.eraseErrno

theorem WaitFrame.breakLoop_eraseErrno (f : WaitFrame V) :
    f.breakLoop.eraseErrno = f.eraseErrno.breakLoop.eraseErrno := by
  by_cases hi : f.item = none
  · rw [breakLoop_of_none hi, breakLoop_of_none (f := f.eraseErrno) hi]
    rfl
  · rw [breakLoop_of_some hi, breakLoop_of_some (f := f.eraseErrno) hi]
    rfl

theorem WaitFrame.onToPark_eraseErrno (f : WaitFrame V) :
    f.onToPark.eraseErrno = f.eraseErrno.onToPark.eraseErrno := by
  by_cases hd : f.duration.isSome
  · rw [onToPark, onToPark, if_pos hd, if_pos (show f.eraseErrno.duration.isSome from hd)]
    rfl
  · rw [onToPark, onToPark, if_neg hd, if_neg (show ¬ f.eraseErrno.duration.isSome from hd)]
    rfl

variable [DecidableEq V]

variable (cfg)

/-- **No step reads `errno`** but to write it. -/
theorem atomicWaitExpected32_eraseErrno (f : NativeFrame V) (ev : WaitEvent V) :
    (atomicWaitExpected32 cfg f ev).map NativeFrame.eraseErrno
      = (atomicWaitExpected32 cfg f.eraseErrno ev.eraseErrno).map NativeFrame.eraseErrno := by
  obtain ⟨duration, success, failure, pc, expected, errno, ret, entryErrno, deadline, ts⟩ := f
  cases pc <;> cases ev <;> try rfl
  case entryClock.clock now =>
    cases duration with
    | none => rfl
    | some d => rfl
  case load.load v =>
    by_cases hv : v = expected
    · cases duration with
      | none => simp [atomicWaitExpected32, NativeFrame.eraseErrno, WaitEvent.eraseErrno, hv]
      | some d => simp [atomicWaitExpected32, NativeFrame.eraseErrno, WaitEvent.eraseErrno, hv]
    · by_cases hr : ret ≠ 0 ∧ failure.toNat < success.toNat
      · simp [atomicWaitExpected32, NativeFrame.eraseErrno, WaitEvent.eraseErrno, hv,
          NativeFrame.reloads, hr]
      · simp [atomicWaitExpected32, NativeFrame.eraseErrno, WaitEvent.eraseErrno, hv,
          NativeFrame.reloads, NativeFrame.returnChanged, hr]
  case checkDeadline.clock now =>
    by_cases hr : now.Reached deadline
    · simp [atomicWaitExpected32, NativeFrame.eraseErrno, WaitEvent.eraseErrno, hr]
    · simp [atomicWaitExpected32, NativeFrame.eraseErrno, WaitEvent.eraseErrno, hr]
  case park.park ret2 e =>
    by_cases hh : HardError cfg.errno ret2
    · simp [atomicWaitExpected32, NativeFrame.eraseErrno, WaitEvent.eraseErrno, hh]
    · simp [atomicWaitExpected32, NativeFrame.eraseErrno, WaitEvent.eraseErrno, hh]

theorem atomicWaitGeneric_eraseErrno (f : WaitFrame V) (ev : WaitEvent V) :
    (atomicWaitGeneric cfg f ev).map WaitFrame.eraseErrno
      = (atomicWaitGeneric cfg f.eraseErrno ev.eraseErrno).map WaitFrame.eraseErrno := by
  have break_congr : ∀ {g g' : WaitFrame V}, g.eraseErrno = g'.eraseErrno →
      g.breakLoop.eraseErrno = g'.breakLoop.eraseErrno := by
    intro g g' h
    rw [g.breakLoop_eraseErrno, g'.breakLoop_eraseErrno, h]
  have park_congr : ∀ {g g' : WaitFrame V}, g.eraseErrno = g'.eraseErrno →
      g.onToPark.eraseErrno = g'.onToPark.eraseErrno := by
    intro g g' h
    rw [g.onToPark_eraseErrno, g'.onToPark_eraseErrno, h]
  obtain ⟨object, duration, success, failure, pc, expected, errno, ret, entryErrno, isSet, deadline,
    item, c, held, ts, save⟩ := f
  cases pc <;> cases ev <;> try rfl
  case entryClock.clock now =>
    cases duration with
    | none => rfl
    | some d => rfl
  case loadTop.load v =>
    by_cases hv : v = expected
    · simp only [atomicWaitGeneric, WaitFrame.eraseErrno, WaitEvent.eraseErrno, ne_eq, hv,
        not_true_eq_false, if_false]
      cases item with
      | none => rfl
      | some p => exact congrArg some (park_congr rfl)
    · simp only [atomicWaitGeneric, WaitFrame.eraseErrno, WaitEvent.eraseErrno, ne_eq, hv,
        not_false_eq_true, if_true, WaitFrame.reloads]
      by_cases hr : ¬ ret = 0 ∧ failure.toNat < success.toNat
      · simp only [hr, not_false_eq_true, and_self, decide_true, if_true]
        rfl
      · simp only [hr, decide_false, Bool.false_eq_true, if_false]
        exact congrArg some (break_congr rfl)
  case reloadTop.reload v => exact congrArg some (break_congr rfl)
  case loadLocked.load v =>
    by_cases hv : v = expected
    · simp only [atomicWaitGeneric, WaitFrame.eraseErrno, WaitEvent.eraseErrno, ne_eq, hv,
        not_true_eq_false, if_false]
      rfl
    · simp only [atomicWaitGeneric, WaitFrame.eraseErrno, WaitEvent.eraseErrno, ne_eq, hv,
        not_false_eq_true, if_true, WaitFrame.reloads]
      by_cases hr : ¬ ret = 0 ∧ failure.toNat < success.toNat
      · simp only [hr, not_false_eq_true, and_self, decide_true, if_true]
        rfl
      · simp only [hr, decide_false, Bool.false_eq_true, if_false]
        exact congrArg some (break_congr rfl)
  case reloadLocked.reload v => exact congrArg some (break_congr rfl)
  case unlockRegistered.unlock => exact congrArg some (park_congr rfl)
  case checkDeadline.clock now =>
    by_cases hr : now.Reached deadline
    · simp only [atomicWaitGeneric, WaitFrame.eraseErrno, WaitEvent.eraseErrno, hr, if_true]
      exact congrArg some (break_congr rfl)
    · simp only [atomicWaitGeneric, WaitFrame.eraseErrno, WaitEvent.eraseErrno, hr, if_false]
      rfl
  case park.park ret2 e =>
    by_cases hh : HardError cfg.errno ret2
    · simp only [atomicWaitGeneric, WaitFrame.eraseErrno, WaitEvent.eraseErrno, hh, if_true]
      exact congrArg some (break_congr rfl)
    · simp only [atomicWaitGeneric, WaitFrame.eraseErrno, WaitEvent.eraseErrno, hh, if_false]
      rfl

theorem WaitCall.step_eraseErrno (call : WaitCall V) (ev : WaitEvent V) :
    (call.step cfg ev).map eraseErrno = (call.eraseErrno.step cfg ev.eraseErrno).map eraseErrno := by
  cases call with
  | native f =>
    have h := congrArg (Option.map native) (atomicWaitExpected32_eraseErrno cfg f ev)
    rw [Option.map_map, Option.map_map] at h
    simp only [step, eraseErrno, Option.map_map]
    exact h
  | generic f =>
    have h := congrArg (Option.map generic) (atomicWaitGeneric_eraseErrno cfg f ev)
    rw [Option.map_map, Option.map_map] at h
    simp only [step, eraseErrno, Option.map_map]
    exact h

end Erase

/-! ### Two runs of one script -/

section Runs

variable {V : Type} {s : Script V} {past past' : List (WaitEvent V)}

/-- A projection that does not read `errno` does not tell the two apart. -/
theorem WaitEvent.filterMap_congr {α : Type} {g : WaitEvent V → Option α}
    (hg : ∀ ev, g ev.eraseErrno = g ev) (h : past.map eraseErrno = past'.map eraseErrno) :
    past.filterMap g = past'.filterMap g := by
  have herase : ∀ evs : List (WaitEvent V), (evs.map eraseErrno).filterMap g = evs.filterMap g := by
    intro evs
    rw [List.filterMap_map]
    exact congrArg (fun g => List.filterMap g evs) (funext hg)
  rw [← herase past, h, herase past']

theorem WaitEvent.countP_congr {g : WaitEvent V → Bool} (hg : ∀ ev, g ev.eraseErrno = g ev)
    (h : past.map eraseErrno = past'.map eraseErrno) : past.countP g = past'.countP g := by
  have herase : ∀ evs : List (WaitEvent V), (evs.map eraseErrno).countP g = evs.countP g := by
    intro evs
    rw [List.countP_map]
    exact congrArg (fun g => List.countP g evs) (funext hg)
  rw [← herase past, h, herase past']

theorem parks_congr (h : past.map eraseErrno = past'.map eraseErrno) : parks past = parks past' :=
  WaitEvent.filterMap_congr (fun ev => by cases ev <;> rfl) h

/-- Two points of two runs that differ in `errno` only. -/
structure Alike (x y : List (WaitEvent V) × WaitCall V) : Prop where
  past : x.1.map eraseErrno = y.1.map eraseErrno
  call : x.2.eraseErrno = y.2.eraseErrno

/-- The answers of the environment differ in `errno` only, where the kernel call does not return
what is positive. -/
theorem Alike.answerGeneric (h : past.map eraseErrno = past'.map eraseErrno) (pc : WaitPc)
    (hpark : pc = .park → (s.nextKernel past).ret ≤ 0) (errno errno' : ℤ) :
    (s.answerGeneric past errno pc).map eraseErrno
      = (s.answerGeneric past' errno' pc).map eraseErrno := by
  have hlook : s.nextObject past = s.nextObject past' :=
    congrArg s.object (WaitEvent.countP_congr (fun ev => by cases ev <;> rfl) h)
  have hclock : s.nextClock past = s.nextClock past' :=
    congrArg (fun ts => s.clock (List.length ts))
      (WaitEvent.filterMap_congr (g := clockReading) (fun ev => by cases ev <;> rfl) h)
  have hcounter : s.nextCounter past = s.nextCounter past' :=
    congrArg s.counter (WaitEvent.countP_congr (fun ev => by cases ev <;> rfl) h)
  have hkernel : s.nextKernel past = s.nextKernel past' :=
    congrArg (fun rs => s.kernel (List.length rs)) (parks_congr h)
  cases pc with
  | park =>
    have hret := waitOnAddress32_of_nonpos (hpark rfl) errno errno'
    simp only [Script.answerGeneric, Script.parkEvent, Option.map_some, WaitEvent.eraseErrno, ← hkernel,
      hret]
  | _ => simp only [Script.answerGeneric, hlook, hclock, hcounter, Option.map_some, WaitEvent.eraseErrno,
      Option.map_none]

theorem Alike.answerNative (h : past.map eraseErrno = past'.map eraseErrno) (pc : NativePc)
    (hpark : pc = .park → (s.nextKernel past).ret ≤ 0) (errno errno' : ℤ) :
    (s.answerNative past errno pc).map eraseErrno
      = (s.answerNative past' errno' pc).map eraseErrno := by
  cases pc with
  | entryClock => exact answerGeneric h .entryClock (fun hpc => by cases hpc) errno errno'
  | load => exact answerGeneric h .loadTop (fun hpc => by cases hpc) errno errno'
  | reload => exact answerGeneric h .reloadTop (fun hpc => by cases hpc) errno errno'
  | checkDeadline => exact answerGeneric h .checkDeadline (fun hpc => by cases hpc) errno errno'
  | park => exact answerGeneric h .park (fun _ => hpark rfl) errno errno'
  | returned => rfl

variable {x y : List (WaitEvent V) × WaitCall V}

theorem Alike.answer (h : Alike x y) (hpark : x.2.atPark = true → (s.nextKernel x.1).ret ≤ 0) :
    (s.answer x.1 x.2).map eraseErrno = (s.answer y.1 y.2).map eraseErrno := by
  obtain ⟨past, call⟩ := x
  obtain ⟨past', call'⟩ := y
  obtain ⟨hpast, hcall⟩ := h
  cases call with
  | native f =>
    cases call' with
    | native f' =>
      have hframe : f.eraseErrno = f'.eraseErrno := by injection hcall
      have hpc : f.pc = f'.pc := by
        show f.eraseErrno.pc = f'.eraseErrno.pc
        rw [hframe]
      simp only [Script.answer, ← hpc]
      exact answerNative hpast f.pc (fun hp => hpark (by simp [WaitCall.atPark, hp])) _ _
    | generic f' => cases hcall
  | generic f =>
    cases call' with
    | native f' => cases hcall
    | generic f' =>
      have hframe : f.eraseErrno = f'.eraseErrno := by injection hcall
      have hpc : f.pc = f'.pc := by
        show f.eraseErrno.pc = f'.eraseErrno.pc
        rw [hframe]
      simp only [Script.answer, ← hpc]
      exact answerGeneric hpast f.pc (fun hp => hpark (by simp [WaitCall.atPark, hp])) _ _

variable [DecidableEq V] {cfg : Platform}

/-- **One step keeps two runs alike**, up to a positive return of the kernel. -/
theorem Alike.next (h : Alike x y) (hpark : x.2.atPark = true → (s.nextKernel x.1).ret ≤ 0) :
    Alike (s.next cfg x) (s.next cfg y) := by
  have hanswer := h.answer hpark
  unfold Script.next
  cases hx : s.answer x.1 x.2 with
  | none =>
    rw [hx, Option.map_none] at hanswer
    rw [Option.map_eq_none_iff.mp hanswer.symm]
    exact h
  | some ev =>
    rw [hx, Option.map_some] at hanswer
    obtain ⟨ev', hy, hev⟩ := Option.map_eq_some_iff.mp hanswer.symm
    rw [hy]
    dsimp only
    -- alike calls take alike steps
    have hstep : (x.2.step cfg ev).map WaitCall.eraseErrno = (y.2.step cfg ev').map WaitCall.eraseErrno := by
      rw [x.2.step_eraseErrno cfg, y.2.step_eraseErrno cfg, h.call, hev]
    cases hcall : x.2.step cfg ev with
    | none =>
      rw [hcall, Option.map_none] at hstep
      rw [Option.map_eq_none_iff.mp hstep.symm]
      exact h
    | some call =>
      rw [hcall, Option.map_some] at hstep
      obtain ⟨call', hcall', hsame⟩ := Option.map_eq_some_iff.mp hstep.symm
      rw [hcall']
      refine ⟨?_, hsame.symm⟩
      simp only [List.map_append, h.past, List.map_cons, hev, List.map_nil]

/-! ### What a run has consumed -/

variable (s cfg) in
/-- What is known of a run in an environment. -/
structure ScriptInv (call : WaitCall V) (x : List (WaitEvent V) × WaitCall V) : Prop where
  exec : Lts.exec (WaitCall.step cfg) call x.1 = some x.2
  parks : ∀ i ret2, (parks x.1)[i]? = some ret2 →
    (∃ errno, ret2 = (waitOnAddress32 (s.kernel i) errno).1) ∧ ∀ j < i, ¬ (s.kernel j).Hard cfg.errno

/-- A hard failure of the kernel is reported as such. -/
theorem KernelPark.Hard.hardError {E : ErrnoCodes} {k : KernelPark} (h : k.Hard E) (errno : ℤ) :
    HardError E (waitOnAddress32 k errno).1 := by
  cases k with
  | failed errno' => exact h
  | succeeded ret => exact absurd h (fun h => h)

/-- A return that is not positive and no hard failure is no hard error. -/
theorem KernelPark.not_hardError {E : ErrnoCodes} {k : KernelPark} (hret : k.ret ≤ 0)
    (hsoft : ¬ k.Hard E) (errno : ℤ) : ¬ HardError E (waitOnAddress32 k errno).1 := by
  cases k with
  | failed errno' => exact hsoft
  | succeeded ret =>
    have hzero : ret = 0 := by
      simp only [KernelPark.ret] at hret
      omega
    rw [hzero]
    exact fun h => absurd h.1 (lt_irrefl (0 : ℤ))

omit [DecidableEq V] in
theorem Unchanged.not_hardError {E : ErrnoCodes} {e : V} {evs : List (WaitEvent V)}
    (h : Unchanged E e evs) {ret2 : ℤ} (hmem : ret2 ∈ WaitEvent.parks evs) : ¬ HardError E ret2 := by
  intro hhard
  obtain ⟨ev, hev, hpark⟩ := List.mem_filterMap.mp hmem
  cases ev with
  | park r errno =>
    obtain rfl : r = ret2 := Option.some.inj hpark
    exact h.fine _ hev (.inr ⟨r, errno, rfl, hhard⟩)
  | _ => cases hpark

variable {impl : Implementation} {a : WaitArgs V} {errno₀ : ℤ}

/-- At a park call no kernel call has failed for good. -/
theorem ScriptInv.not_hard
    (h : ScriptInv s cfg (a.call impl errno₀) x)
    (hpark : x.2.atPark = true) {j : ℕ} (hj : j < (WaitEvent.parks x.1).length) :
    ¬ (s.kernel j).Hard cfg.errno := by
  intro hhard
  have hget : (WaitEvent.parks x.1)[j]? = some (WaitEvent.parks x.1)[j] := List.getElem?_eq_getElem hj
  obtain ⟨⟨errno, hret⟩, _⟩ := h.parks j _ hget
  refine (unchanged_of_exec h.exec hpark).not_hardError (List.getElem_mem hj) ?_
  rw [hret]
  exact hhard.hardError errno

omit [DecidableEq V] in
/-- An answer is a park call where the call stands before one, and there only. -/
theorem Script.parkResult_answer {past : List (WaitEvent V)} {call : WaitCall V} {ev : WaitEvent V}
    (h : s.answer past call = some ev) :
    ev.parkResult = none ∨
      call.atPark = true ∧ ∃ errno, ev.parkResult = some (waitOnAddress32 (s.nextKernel past) errno).1 := by
  cases call with
  | native f =>
    simp only [Script.answer] at h
    cases hpc : f.pc with
    | park =>
      rw [hpc] at h
      cases h
      exact .inr ⟨by simp [WaitCall.atPark, hpc], f.errno, rfl⟩
    | returned =>
      rw [hpc] at h
      cases h
    | _ =>
      rw [hpc] at h
      cases h
      exact .inl rfl
  | generic f =>
    simp only [Script.answer] at h
    cases hpc : f.pc with
    | park =>
      rw [hpc] at h
      cases h
      exact .inr ⟨by simp [WaitCall.atPark, hpc], f.errno, rfl⟩
    | returned =>
      rw [hpc] at h
      cases h
    | _ =>
      rw [hpc] at h
      cases h
      exact .inl rfl

theorem ScriptInv.next
    (h : ScriptInv s cfg (a.call impl errno₀) x) :
    ScriptInv s cfg (a.call impl errno₀) (s.next cfg x) := by
  unfold Script.next
  cases hanswer : s.answer x.1 x.2 with
  | none => exact h
  | some ev =>
    dsimp only
    cases hcall : x.2.step cfg ev with
    | none => exact h
    | some call =>
      refine ⟨?_, ?_⟩
      · rw [Lts.exec_append, h.exec]
        show (x.2.step cfg ev).bind _ = _
        rw [hcall]
        rfl
      · intro i ret2 hget
        rw [parks_append, parks_singleton] at hget
        rcases s.parkResult_answer hanswer with hnone | ⟨hpark, errno, hsome⟩
        · rw [hnone, Option.toList_none, List.append_nil] at hget
          exact h.parks i ret2 hget
        · rw [hsome, Option.toList_some] at hget
          rcases Nat.lt_or_ge i (WaitEvent.parks x.1).length with hlt | hge
          · rw [List.getElem?_append_left hlt] at hget
            exact h.parks i ret2 hget
          · -- the park call made now
            rw [List.getElem?_append_right hge] at hget
            obtain ⟨hidx, hval⟩ := List.getElem?_eq_some_iff.mp hget
            have hi : i = (WaitEvent.parks x.1).length := by
              rw [List.length_singleton] at hidx
              omega
            subst hi
            refine ⟨⟨errno, ?_⟩, fun j hj => h.not_hard hpark hj⟩
            rw [← hval]
            simp [Script.nextKernel]

variable (s cfg impl a errno₀) in
theorem scriptInv_run (n : ℕ) :
    ScriptInv s cfg (a.call impl errno₀)
      (s.run cfg (a.call impl errno₀) n) := by
  induction n with
  | zero => exact ⟨rfl, fun i ret2 hget => by simp [Script.run] at hget⟩
  | succ n ih =>
    rw [Script.run, Function.iterate_succ_apply']
    exact ih.next

/-! ### When a wait does not depend on `errno` -/

/-- The kernel returns nothing positive before a hard failure. -/
def NoLateSuccess (E : ErrnoCodes) (kernel : ℕ → KernelPark) : Prop :=
  ∀ i, (∀ j < i, ¬ (kernel j).Hard E) → (kernel i).ret ≤ 0

variable (impl a) in
/-- **Runs of one script differ in `errno` only.** -/
theorem run_alike (hkernel : NoLateSuccess cfg.errno s.kernel) (errno₁ errno₂ : ℤ) (n : ℕ) :
    Alike (s.run cfg (a.call impl errno₁) n) (s.run cfg (a.call impl errno₂) n) := by
  induction n with
  | zero =>
    refine ⟨rfl, ?_⟩
    cases impl with
    | native => rfl
    | generic => rfl
  | succ n ih =>
    rw [Script.run, Script.run, Function.iterate_succ_apply', Function.iterate_succ_apply']
    apply ih.next
    intro hpark
    exact hkernel _ fun j hj => (scriptInv_run s cfg impl a errno₁ n).not_hard hpark hj

end Runs

section

variable {V : Type}

/-- The result of a call without `errno`. -/
def WaitCall.outcome (call : WaitCall V) : Option (ℤ × V) :=
  call.result.map fun r => (r.ret, r.expected)

theorem WaitCall.outcome_eraseErrno (call : WaitCall V) : call.eraseErrno.outcome = call.outcome := by
  cases call with
  | native f =>
    by_cases hpc : f.pc = .returned
    · simp [outcome, result, eraseErrno, NativeFrame.eraseErrno, hpc]
    · simp [outcome, result, eraseErrno, NativeFrame.eraseErrno, hpc]
  | generic f =>
    by_cases hpc : f.pc = .returned
    · simp [outcome, result, eraseErrno, WaitFrame.eraseErrno, hpc]
    · simp [outcome, result, eraseErrno, WaitFrame.eraseErrno, hpc]

variable [DecidableEq V]

/-- What a wait owes its caller in the environment `s`, whatever it finds in `errno`. -/
structure ErrnoIrrelevant (cfg : Platform) (impl : Implementation) (s : Script V) : Prop where
  same : ∀ (a : WaitArgs V) errno₁ errno₂ n,
    (s.run cfg (a.call impl errno₁) n).2.outcome = (s.run cfg (a.call impl errno₂) n).2.outcome
  /-- A failure is that of the registration, or of the last park call, whose kernel call failed. -/
  blame : ∀ (a : WaitArgs V) errno n expected,
    (s.run cfg (a.call impl errno) n).2.outcome = some (-1, expected) →
    (∃ errno', .findOrCreate none errno' ∈ (s.run cfg (a.call impl errno) n).1) ∨
      ∃ i errno', (parks (s.run cfg (a.call impl errno) n).1).length = i + 1 ∧
        s.kernel i = .failed errno'

variable {cfg : Platform} {impl : Implementation} {s : Script V}

theorem errnoIrrelevant_of_noLateSuccess (hkernel : NoLateSuccess cfg.errno s.kernel) :
    ErrnoIrrelevant cfg impl s := by
  refine ⟨?_, ?_⟩
  · intro a errno₁ errno₂ n
    have h := (run_alike impl a hkernel errno₁ errno₂ n).call
    rw [← WaitCall.outcome_eraseErrno, h, WaitCall.outcome_eraseErrno]
  · intro a errno n expected hout
    have hinv := scriptInv_run s cfg impl a errno n
    obtain ⟨r, hr, hpair⟩ := Option.map_eq_some_iff.mp hout
    obtain ⟨hret, -⟩ := Prod.mk.inj hpair
    cases outcome_of_exec hinv.exec hr with
    | changed h _ _ =>
      obtain ⟨_, _, _, _, _, _, _, hval⟩ := h
      split at hval <;> omega
    | timedOut h _ =>
      have := h.1
      omega
    | failed h _ _ =>
      obtain ⟨_, _, hwhy⟩ := h
      rcases hwhy with hmem | ⟨ret2, hlast, hhard, _⟩
      · exact .inl ⟨_, hmem⟩
      · -- the kernel result behind the last park call
        rw [List.getLast?_eq_getElem?] at hlast
        have hlt := (List.getElem?_eq_some_iff.mp hlast).1
        obtain ⟨⟨errno', rfl⟩, hbefore⟩ := hinv.parks _ _ hlast
        have hle := hkernel _ hbefore
        cases hk : s.kernel ((parks (s.run cfg (a.call impl errno) n).1).length - 1) with
        | failed errno'' => exact .inr ⟨_, errno'', by omega, hk⟩
        | succeeded ret =>
          rw [hk] at hle hhard
          exact absurd hhard (KernelPark.not_hardError hle (fun h => h) _)

/-! ### A kernel that returns something positive -/

/-- An environment in which the object keeps the value `v` and the registration succeeds. -/
def idleScript (v : V) (kernel : ℕ → KernelPark) : Script V where
  object _ := v
  clock _ := ⟨0, 0⟩
  kernel := kernel
  item := some 0
  itemErrno := none
  counter _ := 0
  left := 1
  removeErrno := none

section
omit [DecidableEq V]
variable (v : V) (kernel : ℕ → KernelPark) (past : List (WaitEvent V))

@[simp] theorem idleScript_nextObject : (idleScript v kernel).nextObject past = v := rfl

@[simp] theorem idleScript_nextKernel :
    (idleScript v kernel).nextKernel past = kernel (parks past).length := rfl

@[simp] theorem idleScript_nextCounter : (idleScript v kernel).nextCounter past = 0 := rfl

@[simp] theorem idleScript_item : (idleScript v kernel).item = some 0 := rfl

@[simp] theorem idleScript_itemErrno : (idleScript v kernel).itemErrno = none := rfl

@[simp] theorem idleScript_left : (idleScript v kernel).left = 1 := rfl

end

def idleArgs (v : V) : WaitArgs V := ⟨64, v, none, .seq_cst, .seq_cst⟩

omit [DecidableEq V] in
/-- A code the wait functions do not retry after. -/
theorem exists_hardError (E : ErrnoCodes) : ∃ errno, HardError E (-errno) := by
  refine ⟨max (max E.EAGAIN E.EINTR) E.ETIMEDOUT + 1, ?_⟩
  have := E.ETIMEDOUT_pos
  unfold HardError
  omega

/-- An untimed call that waits for `v` to change stands before its park call. -/
def WaitCall.Parking (v : V) (errno : ℤ) : WaitCall V → Prop
  | .native f => f.pc = .park ∧ f.expected = v ∧ f.errno = errno ∧ f.duration = none
  | .generic f => f.pc = .park ∧ f.expected = v ∧ f.errno = errno ∧ f.duration = none ∧
      f.item = some 0 ∧ f.lockIsHeld = false

/-- It is registered and has parked `i` times. -/
structure ParkedTimes (v : V) (errno : ℤ) (i : ℕ) (x : List (WaitEvent V) × WaitCall V) : Prop where
  parks : (parks x.1).length = i
  registered : ∀ errno', .findOrCreate none errno' ∉ x.1
  call : x.2.Parking v errno

variable {v : V} {kernel : ℕ → KernelPark} {x : List (WaitEvent V) × WaitCall V} {errno : ℤ} {i : ℕ}

variable (v kernel errno cfg impl) in
/-- A wait for `v` to change gets to its first park call. -/
theorem parkedTimes_first : ∃ n,
    ParkedTimes v errno 0 ((idleScript v kernel).run cfg ((idleArgs v).call impl errno) n) := by
  cases impl with
  | native =>
    have hrun : ((idleScript v kernel).next cfg)^[1] ([], (idleArgs v).call .native errno)
        = ([.load v], .native { NativeFrame.start v none .seq_cst .seq_cst errno with
            pc := .park, ret := 1 }) := by
      simp [Script.next, Script.answer, Script.answerNative, WaitCall.step,
        atomicWaitExpected32, idleArgs, WaitArgs.call, WaitCall.start, NativeFrame.start]
    refine ⟨1, ?_⟩
    rw [Script.run, hrun]
    exact ⟨rfl, by simp, ⟨rfl, rfl, rfl, rfl⟩⟩
  | generic =>
    have hrun : ((idleScript v kernel).next cfg)^[6] ([], (idleArgs v).call .generic errno)
        = ([.load v, .lock, .findOrCreate (some 0) errno, .getCounter 0, .load v, .unlock],
          .generic { WaitFrame.start 64 v none .seq_cst .seq_cst errno with
            pc := .park, ret := 1, item := some 0 }) := by
      simp [Function.iterate_succ_apply', Script.next, Script.answer, Script.answerGeneric,
        WaitCall.step, atomicWaitGeneric, idleArgs, WaitArgs.call, WaitCall.start, WaitFrame.start,
        WaitFrame.onToPark, errnoAfter]
    refine ⟨6, ?_⟩
    rw [Script.run, hrun]
    exact ⟨rfl, by simp, ⟨rfl, rfl, rfl, rfl, rfl, rfl⟩⟩

/-- A park call that ends without a hard error is followed by another one. -/
theorem ParkedTimes.again (h : ParkedTimes v errno i x)
    (hsoft : ¬ HardError cfg.errno (waitOnAddress32 (kernel i) errno).1) :
    ∃ n, ParkedTimes v errno (i + 1) (((idleScript v kernel).next cfg)^[n] x) := by
  obtain ⟨past, call⟩ := x
  obtain ⟨hparks, hreg, hcall⟩ := h
  have herrno := waitOnAddress32_errno (kernel i) errno
  dsimp only at hparks hreg
  cases call with
  | native f =>
    obtain ⟨hpc, rfl, rfl, hdur⟩ := hcall
    have hrun : ((idleScript f.expected kernel).next cfg)^[2] (past, .native f)
        = (past ++ [.park (waitOnAddress32 (kernel i) f.errno).1 f.errno] ++ [.load f.expected],
          .native { f with pc := .park, ret := 1, tsRemaining := none }) := by
      simp [Function.iterate_succ_apply', Script.next, Script.answer, Script.answerNative,
        Script.parkEvent, hpc, hparks, WaitCall.step, atomicWaitExpected32, hsoft, hdur, herrno]
    refine ⟨2, ?_⟩
    rw [hrun]
    refine ⟨?_, by simpa using hreg, ⟨rfl, rfl, rfl, hdur⟩⟩
    simp only [parks_append, parks_singleton, List.length_append, hparks]
    rfl
  | generic f =>
    obtain ⟨hpc, rfl, rfl, hdur, hitem, hheld⟩ := hcall
    have hrun : ((idleScript f.expected kernel).next cfg)^[3] (past, .generic f)
        = (past ++ [.park (waitOnAddress32 (kernel i) f.errno).1 f.errno] ++ [.getCounter 0] ++
            [.load f.expected],
          .generic { f with pc := .park, itemCounter := 0, tsRemaining := none }) := by
      simp [Function.iterate_succ_apply', Script.next, Script.answer, Script.answerGeneric,
        Script.parkEvent, hpc, hparks, WaitCall.step, atomicWaitGeneric, hsoft, hdur, herrno,
        hitem, WaitFrame.onToPark]
    refine ⟨3, ?_⟩
    rw [hrun]
    refine ⟨?_, by simpa using hreg, ⟨rfl, rfl, rfl, hdur, hitem, hheld⟩⟩
    simp only [parks_append, parks_singleton, List.length_append, hparks]
    rfl

/-- A park call that ends in a hard error makes the wait fail. -/
theorem ParkedTimes.fails (h : ParkedTimes v errno i x)
    (hhard : HardError cfg.errno (waitOnAddress32 (kernel i) errno).1) :
    ∃ n past call, ((idleScript v kernel).next cfg)^[n] x = (past, call) ∧
      call.outcome = some (-1, v) ∧ (WaitEvent.parks past).length = i + 1 ∧
      ∀ errno', .findOrCreate none errno' ∉ past := by
  obtain ⟨past, call⟩ := x
  obtain ⟨hparks, hreg, hcall⟩ := h
  have herrno := waitOnAddress32_errno (kernel i) errno
  dsimp only at hparks hreg
  cases call with
  | native f =>
    obtain ⟨hpc, rfl, rfl, hdur⟩ := hcall
    have hrun : ((idleScript f.expected kernel).next cfg)^[1] (past, .native f)
        = (past ++ [.park (waitOnAddress32 (kernel i) f.errno).1 f.errno],
          .native { f with
            errno := -(waitOnAddress32 (kernel i) f.errno).1, ret := -1, pc := .returned }) := by
      simp [Script.next, Script.answer, Script.answerNative, Script.parkEvent, hpc, hparks, WaitCall.step,
        atomicWaitExpected32, hhard, herrno]
    refine ⟨1, _, _, hrun, rfl, ?_, by simpa using hreg⟩
    simp only [parks_append, parks_singleton, List.length_append, hparks]
    rfl
  | generic f =>
    obtain ⟨hpc, rfl, rfl, hdur, hitem, hheld⟩ := hcall
    have hrun : ((idleScript f.expected kernel).next cfg)^[4] (past, .generic f)
        = (past ++ [.park (waitOnAddress32 (kernel i) f.errno).1 f.errno] ++ [.lock] ++
            [.decUseCount 1] ++ [.unlock],
          .generic { f with
            errno := -(waitOnAddress32 (kernel i) f.errno).1, ret := -1, errnoIsSet := true,
            saveErrno := -(waitOnAddress32 (kernel i) f.errno).1, pc := .returned }) := by
      simp [Function.iterate_succ_apply', Script.next, Script.answer, Script.answerGeneric,
        Script.parkEvent, hpc, hparks, WaitCall.step, atomicWaitGeneric, hhard, herrno, hitem, hheld,
        WaitFrame.breakLoop]
    refine ⟨4, _, _, hrun, rfl, ?_, by simpa using hreg⟩
    simp only [parks_append, parks_singleton, List.length_append, hparks]
    rfl

/-- **A positive return makes a wait fail** that finds the wrong `errno`. -/
theorem noLateSuccess_of_blame (v : V) (h : ErrnoIrrelevant cfg impl (idleScript v kernel)) :
    NoLateSuccess cfg.errno kernel := by
  intro i
  induction i using Nat.strong_induction_on with
  | _ i ih =>
    intro hsoft
    have hbefore : ∀ j < i, (kernel j).ret ≤ 0 := fun j hj =>
      ih j hj fun l hl => hsoft l (hl.trans hj)
    by_contra hpos
    obtain ⟨errno, hhard⟩ := exists_hardError cfg.errno
    -- the wait gets to the call that returns something positive
    have hreach : ∀ m ≤ i, ∃ n, ParkedTimes v errno m
        ((idleScript v kernel).run cfg ((idleArgs v).call impl errno) n) := by
      intro m
      induction m with
      | zero => exact fun _ => parkedTimes_first cfg impl v kernel errno
      | succ m ihm =>
        intro hm
        obtain ⟨n, hn⟩ := ihm (by omega)
        obtain ⟨n', hn'⟩ := hn.again
          (KernelPark.not_hardError (hbefore m (by omega)) (hsoft m (by omega)) errno)
        refine ⟨n' + n, ?_⟩
        rw [Script.run, Function.iterate_add_apply]
        exact hn'
    obtain ⟨n, hn⟩ := hreach i le_rfl
    rw [not_le] at hpos
    -- and takes `errno` for its failure
    have hfails : HardError cfg.errno (waitOnAddress32 (kernel i) errno).1 := by
      rw [waitOnAddress32_of_pos hpos]
      exact hhard
    obtain ⟨n', past, call, hrun, hout, hparks, hreg⟩ := hn.fails hfails
    have hrun' : (idleScript v kernel).run cfg ((idleArgs v).call impl errno) (n' + n)
        = (past, call) := by
      rw [Script.run, Function.iterate_add_apply]
      exact hrun
    rcases h.blame (idleArgs v) errno (n' + n) v (by rw [hrun']; exact hout) with
      ⟨errno', hmem⟩ | ⟨j, errno', hlen, hk⟩
    · rw [hrun'] at hmem
      exact hreg errno' hmem
    · rw [hrun', hparks] at hlen
      obtain rfl : i = j := by omega
      have hk' : kernel i = .failed errno' := hk
      rw [hk'] at hpos
      exact absurd hpos (by simp [KernelPark.ret])

/-- **When the outcome of a wait does not depend on `errno`.** Whatever the object, the clock and the
registration do, it does not if and only if the kernel returns nothing positive before it fails for
good. -/
theorem errnoIrrelevant_iff [Inhabited V] (cfg : Platform) (impl : Implementation)
    (kernel : ℕ → KernelPark) :
    (∀ s : Script V, s.kernel = kernel → ErrnoIrrelevant cfg impl s) ↔
      NoLateSuccess cfg.errno kernel := by
  constructor
  · intro h
    exact noLateSuccess_of_blame default (h (idleScript default kernel) rfl)
  · rintro h s rfl
    exact errnoIrrelevant_of_noLateSuccess h

end

/-- **A wait takes a leftover `errno` for its failure.** Two threads wait on one address of macOS;
`__ulock_wait` returns one, for the thread still waiting, and the object has changed. With `errno`
zero at entry the wait returns the new value, with `EINVAL` it fails. -/
theorem wait_fails_on_stale_errno :
    ∃ s : Script (BitVec 32), s.kernel 0 = .succeeded 1 ∧
      (s.run (.lp64 .macos) ((idleArgs 0).call .native 0) 3).2.outcome = some (1, 1) ∧
      (s.run (.lp64 .macos) ((idleArgs 0).call .native 22) 3).2.outcome = some (-1, 0) ∧
      ¬ ErrnoIrrelevant (.lp64 .macos) .native s := by
  let s : Script (BitVec 32) :=
    { idleScript 0 (fun _ => .succeeded 1) with object := fun n => if n = 0 then 0 else 1 }
  have hfresh : (s.run (.lp64 .macos) ((idleArgs 0).call .native 0) 3).2.outcome = some (1, 1) := rfl
  have hstale : (s.run (.lp64 .macos) ((idleArgs 0).call .native 22) 3).2.outcome = some (-1, 0) := rfl
  refine ⟨s, rfl, hfresh, hstale, fun h => ?_⟩
  have hsame := h.same (idleArgs 0) 0 22 3
  rw [hfresh, hstale] at hsame
  exact absurd hsame (by decide)

end AtomicWaits
