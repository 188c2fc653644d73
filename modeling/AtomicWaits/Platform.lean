import Mathlib.Order.Basic
import Mathlib.Algebra.Order.Ring.Int

/-!
# The compile-time configuration

What the preprocessor and the target fix before any function runs: the backend, the widths with a
native primitive (`WG14_ATOMIC_WAITS_HAVE_WAIT_ON_ADDRESS_N`), the widths of `long` and `time_t`,
the `errno` numbers and the numeric order of `memory_order`.
-/

namespace AtomicWaits

/-- The implementation file the library is built from. -/
inductive Backend
  | linux
  | freebsd
  | macos
  | windows
  | pthreads
  deriving DecidableEq, Repr

/-- The operand widths of the public functions, in bytes. -/
inductive Width
  | w1
  | w2
  | w4
  | w8
  deriving DecidableEq, Repr

def Width.bytes : Width → ℕ
  | .w1 => 1
  | .w2 => 2
  | .w4 => 4
  | .w8 => 8

def Width.bits (w : Width) : ℕ := 8 * w.bytes

/-- The error numbers the code names. POSIX and the C library promise positive values and nothing
else is used of them. -/
structure ErrnoCodes where
  EAGAIN : ℤ
  EINTR : ℤ
  ETIMEDOUT : ℤ
  ENOMEM : ℤ
  ENOENT : ℤ
  EINVAL : ℤ
  EACCES : ℤ
  EBADF : ℤ
  EIO : ℤ
  ETIMEDOUT_pos : 0 < ETIMEDOUT
  ENOMEM_pos : 0 < ENOMEM
  EAGAIN_pos : 0 < EAGAIN

/-- The numbers of the Linux headers. -/
def linuxErrno : ErrnoCodes where
  EAGAIN := 11
  EINTR := 4
  ETIMEDOUT := 110
  ENOMEM := 12
  ENOENT := 2
  EINVAL := 22
  EACCES := 13
  EBADF := 9
  EIO := 5
  ETIMEDOUT_pos := by decide
  ENOMEM_pos := by decide
  EAGAIN_pos := by decide

/-- A target the library can be compiled for. -/
structure Platform where
  backend : Backend
  /-- `_WIN64`, which guards the 8-byte primitive of the Windows backend. -/
  win64 : Bool
  bigEndian : Bool
  longBits : ℕ
  timeBits : ℕ
  errno : ErrnoCodes
  longBits_eq : longBits = 32 ∨ longBits = 64
  timeBits_eq : timeBits = 32 ∨ timeBits = 64

/-- A little-endian 64-bit target with the given backend. -/
def Platform.lp64 (b : Backend) : Platform where
  backend := b
  win64 := true
  bigEndian := false
  longBits := 64
  timeBits := 64
  errno := linuxErrno
  longBits_eq := .inr rfl
  timeBits_eq := .inr rfl

/-- A little-endian target with 32-bit `long`, such as FreeBSD on i386 or armv7. -/
def Platform.ilp32 (b : Backend) : Platform where
  backend := b
  win64 := false
  bigEndian := false
  longBits := 32
  timeBits := 64
  errno := linuxErrno
  longBits_eq := .inl rfl
  timeBits_eq := .inr rfl

/-- `WG14_ATOMIC_WAITS_HAVE_WAIT_ON_ADDRESS_N` and `..._HAVE_WAKE_BY_ADDRESS_N`; the two are
defined for the same widths in every backend. -/
def Platform.haveAddress (cfg : Platform) : Width → Bool
  | .w1 | .w2 => cfg.backend == .windows
  | .w4 => cfg.backend != .pthreads
  | .w8 => match cfg.backend with
    | .linux | .pthreads => false
    | .freebsd | .macos => true
    | .windows => cfg.win64

/-- `memory_order`, numbered as C11 7.17.3 requires and the static assertion checks. -/
inductive MemoryOrder
  | relaxed
  | consume
  | acquire
  | release
  | acq_rel
  | seq_cst
  deriving DecidableEq, Repr

def MemoryOrder.toNat : MemoryOrder → ℕ
  | .relaxed => 0
  | .consume => 1
  | .acquire => 2
  | .release => 3
  | .acq_rel => 4
  | .seq_cst => 5

/-- The value of a `w`-bit two's complement object after the integer `x` is stored in it. -/
def wrapInt (w : ℕ) (x : ℤ) : ℤ := Int.bmod x (2 ^ w)

theorem wrapInt_of_mem {w : ℕ} (hw : 0 < w) {x : ℤ} (hlo : -2 ^ (w - 1) ≤ x)
    (hhi : x < 2 ^ (w - 1)) : wrapInt w x = x := by
  have hpow : (2 : ℤ) ^ w = 2 * 2 ^ (w - 1) := by
    rw [← pow_succ', Nat.sub_add_cancel hw]
  have hcast : ((2 ^ w : ℕ) : ℤ) = 2 * 2 ^ (w - 1) := by push_cast; exact hpow
  unfold wrapInt
  apply Int.bmod_eq_of_le_mul_two
  · rw [hcast]; omega
  · rw [hcast]; omega

theorem wrapInt_sub_wrapInt (w : ℕ) (x y : ℤ) : wrapInt w (wrapInt w x - y) = wrapInt w (x - y) :=
  Int.bmod_sub_bmod

/-- A value past the end of the range, by less than its length, becomes negative. -/
theorem wrapInt_of_overflow {w : ℕ} (hw : 0 < w) {x : ℤ} (hlo : 2 ^ (w - 1) ≤ x)
    (hhi : x < 3 * 2 ^ (w - 1)) : wrapInt w x = x - 2 * 2 ^ (w - 1) := by
  have hpow : (2 : ℤ) ^ w = 2 * 2 ^ (w - 1) := by
    rw [← pow_succ', Nat.sub_add_cancel hw]
  have hshift : wrapInt w x = wrapInt w (x - 2 * 2 ^ (w - 1)) := by
    have h := Int.sub_bmod_right x (2 ^ w)
    push_cast at h
    rw [hpow] at h
    exact h.symm
  rw [hshift]
  apply wrapInt_of_mem hw
  · omega
  · omega

end AtomicWaits
