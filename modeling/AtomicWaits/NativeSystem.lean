import AtomicWaits.WaitFrame
import AtomicWaits.Notify
import Mathlib.Data.Fintype.Basic

/-!
# Waits on the object itself

Where the width has a native primitive a waiter parks in the kernel on the user's object, without
table or proxy. This file has the kernel calls of `wait_on_addressN` and `wake_by_addressN`, and the
system of all threads that wait on one object and notify it.

A backend chooses the operation (`waitOnAddress`) and the kernel fixes the width it compares
(`WaitOp.bits`). The kernel compares and parks in one step; a park call may also fail or return
early, and a suspension may end without a wake.
-/

namespace AtomicWaits

/-! ### The kernel calls -/

/-- The kernel operations that compare and park. -/
inductive WaitOp
  | FUTEX_WAIT_BITSET
  | UMTX_OP_WAIT_UINT
  | UMTX_OP_WAIT
  | UL_COMPARE_AND_WAIT
  | UL_COMPARE_AND_WAIT64
  | WaitOnAddress (size : ℕ)
  deriving DecidableEq, Repr

/-- The width of the memory operand the operation is defined on. -/
def WaitOp.bits (cfg : Platform) : WaitOp → ℕ
  | .FUTEX_WAIT_BITSET | .UMTX_OP_WAIT_UINT | .UL_COMPARE_AND_WAIT => 32
  | .UMTX_OP_WAIT => cfg.longBits
  | .UL_COMPARE_AND_WAIT64 => 64
  | .WaitOnAddress size => 8 * size

/-- The operation `wait_on_addressN` calls. -/
def waitOnAddress (cfg : Platform) (width : Width) : Option WaitOp :=
  match cfg.backend, width with
  | .linux, .w4 => some .FUTEX_WAIT_BITSET
  | .freebsd, .w4 => some .UMTX_OP_WAIT_UINT
  | .freebsd, .w8 => some .UMTX_OP_WAIT
  | .macos, .w4 => some .UL_COMPARE_AND_WAIT
  | .macos, .w8 => some .UL_COMPARE_AND_WAIT64
  | .windows, .w1 => some (.WaitOnAddress 1)
  | .windows, .w2 => some (.WaitOnAddress 2)
  | .windows, .w4 => some (.WaitOnAddress 4)
  | .windows, .w8 => if cfg.win64 then some (.WaitOnAddress 8) else none
  | _, _ => none

/-- What the kernel reads at the address of an object: its first `bits` bits in memory. -/
def kernelOperand (cfg : Platform) {n : ℕ} (bits : ℕ) (mem : BitVec n) : BitVec bits :=
  if cfg.bigEndian then (mem >>> (n - bits)).setWidth bits else mem.setWidth bits

/-- The compare of a park call, with `expected` cast to the type the operation takes. -/
def WaitOp.compare (cfg : Platform) (op : WaitOp) {n : ℕ} (mem expected : BitVec n) : Bool :=
  kernelOperand cfg (op.bits cfg) mem = expected.setWidth (op.bits cfg)

/-- Whether a park call of the width suspends its thread. -/
def kernelParks (cfg : Platform) (width : Width) (mem expected : BitVec width.bits) : Bool :=
  (waitOnAddress cfg width).any fun op => op.compare cfg mem expected

/-- The count the Linux and FreeBSD backends pass on to the kernel. -/
def nrWake (maxThreads : BitVec 32) : ℤ :=
  if INT_MAX < maxThreads.toNat then INT_MAX else maxThreads.toNat

/-- How many of `n` suspended threads `wake_by_addressN` wakes at least. -/
def wakeByAddressCount (cfg : Platform) (maxThreads : BitVec 32) (n : ℕ) : ℕ :=
  match cfg.backend with
  | .linux | .freebsd => min (nrWake maxThreads).toNat n
  | .macos | .windows => if maxThreads = 1 then min 1 n else n
  | .pthreads => 0

/-! ### The threads -/

/-- A call of `atomic_wait_N` or `atomic_wait_expected_32` on its native path. -/
inductive NativeCall (V : Type)
  | loop (f : LoopFrame V)
  | expected32 (f : NativeFrame V)

namespace NativeCall

variable {V : Type}

def expected : NativeCall V → V
  | loop f => f.expected
  | expected32 f => f.expected

def returned : NativeCall V → Bool
  | loop f => f.pc = .returned
  | expected32 f => f.pc = .returned

def atPark : NativeCall V → Bool
  | loop f => f.pc = .park
  | expected32 f => f.pc = .park

def step [DecidableEq V] (cfg : Platform) (ev : WaitEvent V) :
    NativeCall V → Option (NativeCall V)
  | loop f => (atomicWaitN f ev).map .loop
  | expected32 f => (atomicWaitExpected32 cfg f ev).map .expected32

/-- What the next access of the call returns, unless it is the park call. -/
def access (mem : V) (now : Timespec) : NativeCall V → Option (WaitEvent V)
  | loop f =>
    match f.pc with
    | .load => some (.load mem)
    | .park | .returned => none
  | expected32 f =>
    match f.pc with
    | .entryClock | .checkDeadline => some (.clock now)
    | .load => some (.load mem)
    | .reload => some (.reload mem)
    | .park | .returned => none

theorem access_load {mem : V} {now : Timespec} {c : NativeCall V} {v : V}
    (h : c.access mem now = some (.load v)) : v = mem := by
  cases c with
  | loop f =>
    cases hpc : f.pc <;> simp [access, hpc] at h
    exact h.symm
  | expected32 f =>
    cases hpc : f.pc <;> simp [access, hpc] at h
    exact h.symm

theorem access_clock {mem : V} {now now' : Timespec} {c : NativeCall V}
    (h : c.access mem now = some (.clock now')) : now' = now := by
  cases c with
  | loop f => cases hpc : f.pc <;> simp [access, hpc] at h
  | expected32 f => cases hpc : f.pc <;> simp [access, hpc] at h <;> exact h.symm

/-- The end of a park call that returned `ret2`. The helpers leave `errno` as it was. -/
def parkReturns [DecidableEq V] (cfg : Platform) (ret2 : ℤ) :
    NativeCall V → Option (NativeCall V)
  | loop f => (atomicWaitN f (.park ret2 0)).map .loop
  | expected32 f => (atomicWaitExpected32 cfg f (.park ret2 f.errno)).map .expected32

end NativeCall

/-- A thread that waits on the object. -/
inductive NativeThread (V : Type)
  | idle
  | running (c : NativeCall V)
  /-- Suspended in the kernel. -/
  | blocked (c : NativeCall V)
  /-- The suspension has ended, and the park call is to return `ret2`. -/
  | woken (c : NativeCall V) (ret2 : ℤ)

namespace NativeThread

variable {V : Type}

def isFree : NativeThread V → Bool
  | idle => true
  | running c => c.returned
  | _ => false

def isBlocked : NativeThread V → Bool
  | blocked _ => true
  | _ => false

/-- A wake reaches a suspended thread. -/
def wake : NativeThread V → NativeThread V
  | blocked c => woken c 0
  | t => t

end NativeThread

/-- A thread that notifies: outside a call, or about to make the system call. -/
inductive NativeNotify
  | returned
  | wake (maxThreads : BitVec 32)
  deriving DecidableEq, Repr

/-- One object with the waiting threads `ι` and the notifying threads `κ`. -/
structure NativeSys (ι κ V : Type) where
  mem : V
  waits : ι → NativeThread V
  notifies : κ → NativeNotify

/-- The steps of the system. -/
inductive NativeAction (ι κ V : Type)
  | store (v : V)
  | callWait (i : ι) (expected : V)
  | callWaitExpected (i : ι) (expected : V) (duration : Option Timespec)
      (success failure : MemoryOrder) (errno : ℤ)
  /-- The next access of a waiting thread, other than its park call. -/
  | wait (i : ι) (now : Timespec)
  /-- The park call. On a mismatch it returns `ret2`. -/
  | park (i : ι) (ret2 : ℤ)
  /-- The park call returns at once, whatever the object holds. -/
  | parkFails (i : ι) (ret2 : ℤ)
  /-- A suspension ends by a timeout, an error or a spurious return. -/
  | unblock (i : ι) (ret2 : ℤ)
  | resume (i : ι)
  | callNotify (j : κ) (maxThreads : BitVec 32)
  /-- The wake, which ends the suspensions of the threads `woken`. -/
  | notify (j : κ) (woken : Finset ι)

/-! ### The system -/

section Step

variable {ι κ V : Type} [DecidableEq ι] [DecidableEq κ]

namespace NativeSys

def setWait (s : NativeSys ι κ V) (i : ι) (t : NativeThread V) : NativeSys ι κ V :=
  { s with waits := Function.update s.waits i t }

def setNotify (s : NativeSys ι κ V) (j : κ) (n : NativeNotify) : NativeSys ι κ V :=
  { s with notifies := Function.update s.notifies j n }

/-- The threads suspended on the object. -/
def blocked [Fintype ι] (s : NativeSys ι κ V) : Finset ι :=
  Finset.univ.filter fun i => (s.waits i).isBlocked

/-- The threads `woken` are threads the wake may reach, and enough of them. -/
def CanWake [Fintype ι] (cfg : Platform) (s : NativeSys ι κ V) (maxThreads : BitVec 32)
    (woken : Finset ι) : Prop :=
  woken ⊆ s.blocked ∧ wakeByAddressCount cfg maxThreads s.blocked.card ≤ woken.card

instance [Fintype ι] (cfg : Platform) (s : NativeSys ι κ V) (maxThreads : BitVec 32)
    (woken : Finset ι) : Decidable (s.CanWake cfg maxThreads woken) :=
  inferInstanceAs (Decidable (_ ∧ _))

/-- The suspensions of the threads `woken` end. -/
def signal (s : NativeSys ι κ V) (woken : Finset ι) : NativeSys ι κ V :=
  { s with waits := fun i => if i ∈ woken then (s.waits i).wake else s.waits i }

end NativeSys

variable [Fintype ι] (cfg : Platform) {width : Width}

/-- One step of the system. `atomic_wait_expected_32` takes 4-byte objects only. -/
def nativeStep (s : NativeSys ι κ (BitVec width.bits)) :
    NativeAction ι κ (BitVec width.bits) → Option (NativeSys ι κ (BitVec width.bits))
  | .store v => some { s with mem := v }
  | .callWait i expected =>
    if (s.waits i).isFree then some (s.setWait i (.running (.loop ⟨expected, .load⟩))) else none
  | .callWaitExpected i expected duration success failure errno =>
    if (s.waits i).isFree ∧ width = .w4 then
      some (s.setWait i
        (.running (.expected32 (.start expected duration success failure errno))))
    else none
  | .wait i now =>
    match s.waits i with
    | .running c =>
      (c.access s.mem now).bind fun ev => (c.step cfg ev).map fun c' => s.setWait i (.running c')
    | _ => none
  | .park i ret2 =>
    match s.waits i with
    | .running c =>
      if c.atPark then
        if kernelParks cfg width s.mem c.expected then some (s.setWait i (.blocked c))
        else (c.parkReturns cfg ret2).map fun c' => s.setWait i (.running c')
      else none
    | _ => none
  | .parkFails i ret2 =>
    match s.waits i with
    | .running c => (c.parkReturns cfg ret2).map fun c' => s.setWait i (.running c')
    | _ => none
  | .unblock i ret2 =>
    match s.waits i with
    | .blocked c => some (s.setWait i (.woken c ret2))
    | _ => none
  | .resume i =>
    match s.waits i with
    | .woken c ret2 => (c.parkReturns cfg ret2).map fun c' => s.setWait i (.running c')
    | _ => none
  | .callNotify j maxThreads =>
    if s.notifies j = .returned then some (s.setNotify j (.wake maxThreads)) else none
  | .notify j woken =>
    match s.notifies j with
    | .wake maxThreads =>
      if s.CanWake cfg maxThreads woken then some ((s.signal woken).setNotify j .returned)
      else none
    | .returned => none

/-- Nothing has been called yet; the object holds anything. -/
structure NativeSys.Initial (s : NativeSys ι κ V) : Prop where
  waits : ∀ i, s.waits i = .idle
  notifies : ∀ j, s.notifies j = .returned

/-- The system of the native path of the width. -/
def nativeSystem (ι κ : Type) [DecidableEq ι] [DecidableEq κ] [Fintype ι] (cfg : Platform)
    (width : Width) :
    Lib.Lts (NativeSys ι κ (BitVec width.bits)) (NativeAction ι κ (BitVec width.bits)) :=
  .ofFun NativeSys.Initial (nativeStep cfg)

/-- What one step of the system can do. -/
inductive NativeSysStep (s : NativeSys ι κ (BitVec width.bits)) :
    NativeAction ι κ (BitVec width.bits) → NativeSys ι κ (BitVec width.bits) → Prop
  | store (v : BitVec width.bits) : NativeSysStep s (.store v) { s with mem := v }
  | callWait (i : ι) (expected : BitVec width.bits) : (s.waits i).isFree = true →
      NativeSysStep s (.callWait i expected) (s.setWait i (.running (.loop ⟨expected, .load⟩)))
  | callWaitExpected (i : ι) (expected : BitVec width.bits) (duration : Option Timespec)
      (success failure : MemoryOrder) (errno : ℤ) : (s.waits i).isFree = true → width = .w4 →
      NativeSysStep s (.callWaitExpected i expected duration success failure errno)
        (s.setWait i (.running (.expected32 (.start expected duration success failure errno))))
  | wait (i : ι) (now : Timespec) (c c' : NativeCall (BitVec width.bits))
      (ev : WaitEvent (BitVec width.bits)) : s.waits i = .running c →
      c.access s.mem now = some ev → c.step cfg ev = some c' →
      NativeSysStep s (.wait i now) (s.setWait i (.running c'))
  | parkSleeps (i : ι) (ret2 : ℤ) (c : NativeCall (BitVec width.bits)) :
      s.waits i = .running c → c.atPark = true →
      kernelParks cfg width s.mem c.expected = true →
      NativeSysStep s (.park i ret2) (s.setWait i (.blocked c))
  | parkReturns (i : ι) (ret2 : ℤ) (c c' : NativeCall (BitVec width.bits)) :
      s.waits i = .running c → kernelParks cfg width s.mem c.expected = false →
      c.parkReturns cfg ret2 = some c' →
      NativeSysStep s (.park i ret2) (s.setWait i (.running c'))
  | parkFails (i : ι) (ret2 : ℤ) (c c' : NativeCall (BitVec width.bits)) :
      s.waits i = .running c → c.parkReturns cfg ret2 = some c' →
      NativeSysStep s (.parkFails i ret2) (s.setWait i (.running c'))
  | unblock (i : ι) (ret2 : ℤ) (c : NativeCall (BitVec width.bits)) : s.waits i = .blocked c →
      NativeSysStep s (.unblock i ret2) (s.setWait i (.woken c ret2))
  | resume (i : ι) (ret2 : ℤ) (c c' : NativeCall (BitVec width.bits)) :
      s.waits i = .woken c ret2 → c.parkReturns cfg ret2 = some c' →
      NativeSysStep s (.resume i) (s.setWait i (.running c'))
  | callNotify (j : κ) (maxThreads : BitVec 32) : s.notifies j = .returned →
      NativeSysStep s (.callNotify j maxThreads) (s.setNotify j (.wake maxThreads))
  | notify (j : κ) (woken : Finset ι) (maxThreads : BitVec 32) :
      s.notifies j = .wake maxThreads → s.CanWake cfg maxThreads woken →
      NativeSysStep s (.notify j woken) ((s.signal woken).setNotify j .returned)

variable {cfg} {s s' : NativeSys ι κ (BitVec width.bits)}

/-- **The step inversion.** -/
theorem nativeStep_cases {a : NativeAction ι κ (BitVec width.bits)}
    (h : nativeStep cfg s a = some s') : NativeSysStep cfg s a s' := by
  cases a with
  | store v =>
    cases h
    exact .store v
  | callWait i expected =>
    simp only [nativeStep, Option.ite_none_right_eq_some, Option.some.injEq] at h
    obtain ⟨hfree, rfl⟩ := h
    exact .callWait i expected hfree
  | callWaitExpected i expected duration success failure errno =>
    simp only [nativeStep, Option.ite_none_right_eq_some, Option.some.injEq] at h
    obtain ⟨⟨hfree, hw⟩, rfl⟩ := h
    exact .callWaitExpected i expected duration success failure errno hfree hw
  | wait i now =>
    simp only [nativeStep] at h
    split at h
    · next c hc =>
      obtain ⟨ev, hev, hmap⟩ := Option.bind_eq_some_iff.mp h
      obtain ⟨c', hc', rfl⟩ := Option.map_eq_some_iff.mp hmap
      exact .wait i now c c' ev hc hev hc'
    · cases h
  | park i ret2 =>
    simp only [nativeStep] at h
    split at h
    · next c hc =>
      split at h
      · next hpark =>
        split at h
        · next hk =>
          cases h
          exact .parkSleeps i ret2 c hc hpark hk
        · next hk =>
          obtain ⟨c', hc', rfl⟩ := Option.map_eq_some_iff.mp h
          exact .parkReturns i ret2 c c' hc (by simpa using hk) hc'
      · cases h
    · cases h
  | parkFails i ret2 =>
    simp only [nativeStep] at h
    split at h
    · next c hc =>
      obtain ⟨c', hc', rfl⟩ := Option.map_eq_some_iff.mp h
      exact .parkFails i ret2 c c' hc hc'
    · cases h
  | unblock i ret2 =>
    simp only [nativeStep] at h
    split at h
    · next c hc =>
      cases h
      exact .unblock i ret2 c hc
    · cases h
  | resume i =>
    simp only [nativeStep] at h
    split at h
    · next c ret2 hc =>
      obtain ⟨c', hc', rfl⟩ := Option.map_eq_some_iff.mp h
      exact .resume i ret2 c c' hc hc'
    · cases h
  | callNotify j maxThreads =>
    simp only [nativeStep, Option.ite_none_right_eq_some, Option.some.injEq] at h
    obtain ⟨hret, rfl⟩ := h
    exact .callNotify j maxThreads hret
  | notify j woken =>
    simp only [nativeStep] at h
    split at h
    · next maxThreads hn =>
      split at h
      · next hcan =>
        cases h
        exact .notify j woken maxThreads hn hcan
      · cases h
    · cases h

/-- The initial state with `v` in the object. -/
def NativeSys.start (v : V) : NativeSys ι κ V := ⟨v, fun _ => .idle, fun _ => .returned⟩

end Step

end AtomicWaits
