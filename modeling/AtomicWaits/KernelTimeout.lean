import AtomicWaits.Timespec
import Mathlib.Tactic.Ring

/-!
# Relative timeouts in clock units

The Windows and macOS backends hand the kernel a 32-bit number of clock units, milliseconds and
microseconds, in which one value means forever. They convert the remaining time in 64-bit unsigned
arithmetic, which wraps, and clamp the result.

* `clockUnits_toNat`: the converted value is the remaining time rounded up, modulo `2 ^ 64`.
* `kernelTimeout_fits`: neither backend ever asks for forever or for more than the remaining time
  rounded up, and both are exact up to the clamp.
-/

namespace AtomicWaits

/-- A duration in clock units of `unit` nanoseconds, `perSec` of them in a second, as the code
computes it. -/
def clockUnits (perSec unit : BitVec 64) (t : Timespec) : BitVec 64 :=
  BitVec.ofInt 64 t.sec * perSec + (BitVec.ofInt 64 t.nsec + (unit - 1)) / unit

/-- The timeout of `WaitOnAddress` that means forever. -/
def INFINITE : BitVec 32 := 0xFFFFFFFF

/-- `timeout_ms` of the Windows backend, the same for all four widths. -/
def windowsTimeoutMs (duration : Option Timespec) : BitVec 32 :=
  match duration with
  | none => INFINITE
  | some duration =>
    let ms := clockUnits 1000 1000000 duration
    if 0xFFFFFFFE ≤ ms.toNat then 0xFFFFFFFE else ms.setWidth 32

/-- `timeout_us` of the macOS backend, where zero means forever. -/
def macosTimeoutUs (ts : Option Timespec) : BitVec 32 :=
  match ts with
  | none => 0
  | some ts =>
    let us := clockUnits 1000000 1000 ts
    let timeoutUs : BitVec 32 := if 0xFFFFFFFF < us.toNat then 0xFFFFFFFF else us.setWidth 32
    if timeoutUs = 0 then 1 else timeoutUs

namespace Timespec

/-- The time in clock units of `unit` nanoseconds, rounded up. -/
def roundUp (unit : ℤ) (t : Timespec) : ℤ := (t.ns + (unit - 1)) / unit

theorem roundUp_mul_lt {unit : ℤ} (hunit : 0 < unit) (t : Timespec) :
    t.roundUp unit * unit < t.ns + unit := by
  have h := Int.ediv_mul_le (t.ns + (unit - 1)) hunit.ne'
  unfold roundUp
  omega

theorem roundUp_pos {unit : ℤ} (hunit : 0 < unit) {t : Timespec} (ht : 0 < t.ns) :
    1 ≤ t.roundUp unit := by
  unfold roundUp
  apply Int.le_ediv_of_mul_le hunit
  omega

theorem Normalised.ns_pos {t : Timespec} (ht : t.Normalised) (h0 : 0 ≤ t.sec) (hne : t ≠ ⟨0, 0⟩) :
    0 < t.ns := by
  have hlo := ht.lo
  have hor : t.sec ≠ 0 ∨ t.nsec ≠ 0 := by
    by_contra hzero
    push Not at hzero
    exact hne (Timespec.ext hzero.1 hzero.2)
  unfold ns
  omega

end Timespec

/-- **The conversion is the remaining time rounded up**, modulo `2 ^ 64`. -/
theorem clockUnits_toNat {perSec unit : BitVec 64}
    (hunit : perSec.toNat * unit.toNat = 1000000000) {t : Timespec} (h0 : 0 ≤ t.sec)
    (hsec : t.sec < 2 ^ 63) (ht : t.Normalised) :
    ((clockUnits perSec unit t).toNat : ℤ) = t.roundUp unit.toNat % 2 ^ 64 := by
  obtain ⟨hlo, hhi⟩ := ht
  obtain ⟨s, hs⟩ := Int.eq_ofNat_of_zero_le h0
  obtain ⟨m, hm⟩ := Int.eq_ofNat_of_zero_le hlo
  have hpos : 0 < unit.toNat := Nat.pos_of_mul_pos_left (by omega : 0 < perSec.toNat * unit.toNat)
  have hle : unit.toNat ≤ 1000000000 := by
    rw [← hunit]
    exact Nat.le_mul_of_pos_left _ (Nat.pos_of_mul_pos_right (by omega : 0 < perSec.toNat * unit.toNat))
  -- no operation before the product wraps
  have hsecs : (BitVec.ofInt 64 t.sec).toNat = s := by
    rw [BitVec.toNat_ofInt]
    omega
  have hnsec : (BitVec.ofInt 64 t.nsec).toNat = m := by
    rw [BitVec.toNat_ofInt]
    omega
  have hcarry : (BitVec.ofInt 64 t.nsec + (unit - 1)).toNat = m + (unit.toNat - 1) := by
    rw [BitVec.toNat_add, BitVec.toNat_sub, hnsec]
    have : (1 : BitVec 64).toNat = 1 := rfl
    omega
  have hround : t.roundUp unit.toNat
      = ((m + (unit.toNat - 1)) / unit.toNat + s * perSec.toNat : ℕ) := by
    have hsum : t.ns + ((unit.toNat : ℤ) - 1)
        = ((m + (unit.toNat - 1) + s * perSec.toNat * unit.toNat : ℕ) : ℤ) := by
      rw [Nat.mul_assoc, hunit, Timespec.ns]
      omega
    rw [Timespec.roundUp, hsum, ← Nat.add_mul_div_right _ _ hpos]
    norm_cast
  rw [hround, clockUnits, BitVec.toNat_add, BitVec.toNat_mul, BitVec.toNat_udiv, hcarry, hsecs]
  have hmod : (s * perSec.toNat % 2 ^ 64 + (m + (unit.toNat - 1)) / unit.toNat) % 2 ^ 64
      = ((m + (unit.toNat - 1)) / unit.toNat + s * perSec.toNat) % 2 ^ 64 := by
    rw [Nat.mod_add_mod, Nat.add_comm]
  rw [hmod]
  norm_cast

/-- What a backend may hand to the kernel for the remaining time `t`: not the value that means
forever, no more than `t` rounded up, and exactly that below `limit`. -/
structure TimeoutFits (unit limit : ℤ) (forever : BitVec 32) (t : Timespec) (timeout : BitVec 32) :
    Prop where
  bounded : timeout ≠ forever
  notLonger : (timeout.toNat : ℤ) ≤ t.roundUp unit
  exact : t.roundUp unit < limit → (timeout.toNat : ℤ) = t.roundUp unit
  /-- The kernel wait ends within one unit of the deadline. -/
  within : timeout.toNat * unit < t.ns + unit

/-- A timeout that is no longer than the remaining time rounded up ends within one unit. -/
theorem TimeoutFits.of_notLonger {unit limit : ℤ} {forever : BitVec 32} {t : Timespec}
    {timeout : BitVec 32} (hunit : 0 < unit) (hbounded : timeout ≠ forever)
    (hle : (timeout.toNat : ℤ) ≤ t.roundUp unit)
    (hexact : t.roundUp unit < limit → (timeout.toNat : ℤ) = t.roundUp unit) :
    TimeoutFits unit limit forever t timeout := by
  refine ⟨hbounded, hle, hexact, ?_⟩
  calc (timeout.toNat : ℤ) * unit ≤ t.roundUp unit * unit :=
        Int.mul_le_mul_of_nonneg_right hle hunit.le
    _ < t.ns + unit := Timespec.roundUp_mul_lt hunit t

theorem windowsTimeoutMs_fits {t : Timespec} (h0 : 0 ≤ t.sec) (hsec : t.sec < 2 ^ 63)
    (ht : t.Normalised) (hne : t ≠ ⟨0, 0⟩) :
    TimeoutFits 1000000 0xFFFFFFFE INFINITE t (windowsTimeoutMs (some t)) := by
  have hms : ((clockUnits 1000 1000000 t).toNat : ℤ) = t.roundUp 1000000 % 2 ^ 64 :=
    clockUnits_toNat rfl h0 hsec ht
  have hpos : 1 ≤ t.roundUp 1000000 := Timespec.roundUp_pos (by decide) (ht.ns_pos h0 hne)
  rw [windowsTimeoutMs]
  generalize clockUnits 1000 1000000 t = ms at hms
  by_cases hclamp : 0xFFFFFFFE ≤ ms.toNat
  · rw [if_pos hclamp]
    have hvalue : ((0xFFFFFFFE : BitVec 32).toNat : ℤ) = 0xFFFFFFFE := rfl
    apply TimeoutFits.of_notLonger (by decide) (by decide)
    · rw [hvalue]
      omega
    · rw [hvalue]
      omega
  · rw [if_neg hclamp]
    have hvalue : (ms.setWidth 32).toNat = ms.toNat := by
      rw [BitVec.toNat_setWidth]
      omega
    apply TimeoutFits.of_notLonger (by decide)
    · intro hforever
      have := congrArg BitVec.toNat hforever
      rw [hvalue, show INFINITE.toNat = 0xFFFFFFFF from rfl] at this
      omega
    · rw [hvalue]
      omega
    · rw [hvalue]
      omega

theorem macosTimeoutUs_fits {t : Timespec} (h0 : 0 ≤ t.sec) (hsec : t.sec < 2 ^ 63)
    (ht : t.Normalised) (hne : t ≠ ⟨0, 0⟩) :
    TimeoutFits 1000 (2 ^ 32) 0 t (macosTimeoutUs (some t)) := by
  have hus : ((clockUnits 1000000 1000 t).toNat : ℤ) = t.roundUp 1000 % 2 ^ 64 :=
    clockUnits_toNat rfl h0 hsec ht
  have hpos : 1 ≤ t.roundUp 1000 := Timespec.roundUp_pos (by decide) (ht.ns_pos h0 hne)
  rw [macosTimeoutUs]
  generalize clockUnits 1000000 1000 t = us at hus
  by_cases hclamp : 0xFFFFFFFF < us.toNat
  · rw [if_pos hclamp, if_neg (by decide)]
    have hvalue : ((0xFFFFFFFF : BitVec 32).toNat : ℤ) = 0xFFFFFFFF := rfl
    apply TimeoutFits.of_notLonger (by decide) (by decide)
    · rw [hvalue]
      omega
    · rw [hvalue]
      omega
  · have hvalue : (us.setWidth 32).toNat = us.toNat := by
      rw [BitVec.toNat_setWidth]
      omega
    rw [if_neg hclamp]
    by_cases hzero : us.setWidth 32 = 0
    · -- the product has wrapped to zero
      have hus0 : us.toNat = 0 := by
        rw [← hvalue, hzero]
        rfl
      have hone : ((1 : BitVec 32).toNat : ℤ) = 1 := rfl
      rw [if_pos hzero]
      apply TimeoutFits.of_notLonger (by decide) (by decide)
      · rw [hone]
        omega
      · rw [hone]
        omega
    · rw [if_neg hzero]
      apply TimeoutFits.of_notLonger (by decide) hzero
      · rw [hvalue]
        omega
      · rw [hvalue]
        omega

/-- **No timed wait becomes unbounded or over-long**, whatever the remaining time. -/
theorem kernelTimeout_fits {t : Timespec} (h0 : 0 ≤ t.sec) (hsec : t.sec < 2 ^ 63)
    (ht : t.Normalised) (hne : t ≠ ⟨0, 0⟩) :
    TimeoutFits 1000000 0xFFFFFFFE INFINITE t (windowsTimeoutMs (some t)) ∧
      TimeoutFits 1000 (2 ^ 32) 0 t (macosTimeoutUs (some t)) :=
  ⟨windowsTimeoutMs_fits h0 hsec ht hne, macosTimeoutUs_fits h0 hsec ht hne⟩

/-- The largest `tv_sec`. -/
theorem kernelTimeout_fits_forever :
    TimeoutFits 1000000 0xFFFFFFFE INFINITE ⟨2 ^ 63 - 1, 0⟩
        (windowsTimeoutMs (some ⟨2 ^ 63 - 1, 0⟩)) ∧
      TimeoutFits 1000 (2 ^ 32) 0 ⟨2 ^ 63 - 1, 0⟩ (macosTimeoutUs (some ⟨2 ^ 63 - 1, 0⟩)) :=
  kernelTimeout_fits (by decide) (by decide) ⟨by decide, by decide⟩ (by decide)

end AtomicWaits
