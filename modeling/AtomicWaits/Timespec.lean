import AtomicWaits.Platform
import Mathlib.Tactic.SplitIfs
import Mathlib.Tactic.Positivity

/-!
# Deadlines

The time arithmetic of the two wait loops, in the widths of `time_t` and `long`. Its facts are about
normalised readings of the clock:

* `computeDeadline_exact`: when the sum of the seconds is representable, the deadline is the reading
  plus the duration exactly.
* `remaining_exact`: before the deadline, the remaining time is positive and exact.
* `deadline_sec_of_overflow`: when it is not, the deadline is an instant before the epoch.
-/

namespace AtomicWaits

/-- `struct timespec`. -/
@[ext] structure Timespec where
  sec : ℤ
  nsec : ℤ
  deriving DecidableEq, Repr

namespace Timespec

/-- The time in nanoseconds. -/
def ns (t : Timespec) : ℤ := t.sec * 1000000000 + t.nsec

structure Normalised (t : Timespec) : Prop where
  lo : 0 ≤ t.nsec
  hi : t.nsec < 1000000000

/-- `now.tv_sec > end.tv_sec || (now.tv_sec == end.tv_sec && now.tv_nsec >= end.tv_nsec)`. -/
def Reached (now deadline : Timespec) : Prop :=
  deadline.sec < now.sec ∨ now.sec = deadline.sec ∧ deadline.nsec ≤ now.nsec

instance (now deadline : Timespec) : Decidable (now.Reached deadline) :=
  inferInstanceAs (Decidable (_ ∨ _ ∧ _))

theorem reached_iff_ns {now deadline : Timespec} (hnow : now.Normalised)
    (hd : deadline.Normalised) : now.Reached deadline ↔ deadline.ns ≤ now.ns := by
  obtain ⟨hn₁, hn₂⟩ := hnow
  obtain ⟨hd₁, hd₂⟩ := hd
  unfold Reached ns
  omega

end Timespec

/-- A value `time_t` can hold. -/
def Platform.TimeRange (cfg : Platform) (s : ℤ) : Prop :=
  -2 ^ (cfg.timeBits - 1) ≤ s ∧ s < 2 ^ (cfg.timeBits - 1)

variable (cfg : Platform)

/-- `end`, the deadline both wait functions compute at entry. -/
def computeDeadline (now duration : Timespec) : Timespec :=
  let sec := wrapInt cfg.timeBits (now.sec + duration.sec)
  let nsec := wrapInt cfg.longBits (now.nsec + duration.nsec)
  if 1000000000 ≤ nsec then
    ⟨wrapInt cfg.timeBits (sec + 1), wrapInt cfg.longBits (nsec - 1000000000)⟩
  else ⟨sec, nsec⟩

/-- `ts_remaining`. -/
def remaining (deadline now : Timespec) : Timespec :=
  let sec := wrapInt cfg.timeBits (deadline.sec - now.sec)
  if now.nsec ≤ deadline.nsec then ⟨sec, deadline.nsec - now.nsec⟩
  else ⟨wrapInt cfg.timeBits (sec - 1), deadline.nsec - now.nsec + 1000000000⟩

/-- The carry of the nanoseconds. -/
def carry (now duration : Timespec) : ℤ := if 1000000000 ≤ now.nsec + duration.nsec then 1 else 0

/-- The seconds of a sum of times are representable, before and after the carry. -/
structure SumFits (now duration : Timespec) : Prop where
  sum : cfg.TimeRange (now.sec + duration.sec)
  carried : cfg.TimeRange (now.sec + duration.sec + carry now duration)

/-- The seconds of the deadline are representable. -/
def DeadlineFits (now duration : Timespec) : Prop :=
  now.sec + duration.sec + carry now duration < 2 ^ (cfg.timeBits - 1)

variable {cfg} {now duration : Timespec}

theorem carry_nonneg : 0 ≤ carry now duration := by
  unfold carry
  split <;> omega

theorem wrapInt_long {x : ℤ} (hlo : 0 ≤ x) (hhi : x < 2000000000) :
    wrapInt cfg.longBits x = x := by
  rcases cfg.longBits_eq with h | h <;> rw [h] <;> exact wrapInt_of_mem (by decide) (by omega) (by omega)

theorem timeBits_pos : 0 < cfg.timeBits := by
  rcases cfg.timeBits_eq with h | h <;> omega

theorem computeDeadline_of_normalised (hnow : now.Normalised) (hd : duration.Normalised) :
    computeDeadline cfg now duration =
      if 1000000000 ≤ now.nsec + duration.nsec then
        ⟨wrapInt cfg.timeBits (wrapInt cfg.timeBits (now.sec + duration.sec) + 1),
          now.nsec + duration.nsec - 1000000000⟩
      else ⟨wrapInt cfg.timeBits (now.sec + duration.sec), now.nsec + duration.nsec⟩ := by
  obtain ⟨hn₁, hn₂⟩ := hnow
  obtain ⟨hd₁, hd₂⟩ := hd
  unfold computeDeadline
  dsimp only
  rw [wrapInt_long (by omega) (by omega)]
  split
  · rw [wrapInt_long (by omega) (by omega)]
  · rfl

/-- **The deadline is exact** when its seconds are representable. -/
theorem computeDeadline_exact (hnow : now.Normalised) (hd : duration.Normalised)
    (hfits : SumFits cfg now duration) :
    (computeDeadline cfg now duration).Normalised ∧
      (computeDeadline cfg now duration).ns = now.ns + duration.ns := by
  obtain ⟨hn₁, hn₂⟩ := hnow
  obtain ⟨hd₁, hd₂⟩ := hd
  obtain ⟨hsum, hcarried⟩ := hfits
  unfold carry at hcarried
  rw [computeDeadline_of_normalised ⟨hn₁, hn₂⟩ ⟨hd₁, hd₂⟩,
    wrapInt_of_mem timeBits_pos hsum.1 hsum.2]
  unfold Timespec.ns
  by_cases hc : 1000000000 ≤ now.nsec + duration.nsec
  · rw [if_pos hc] at hcarried ⊢
    rw [wrapInt_of_mem timeBits_pos hcarried.1 hcarried.2]
    refine ⟨⟨?_, ?_⟩, ?_⟩
    · show 0 ≤ now.nsec + duration.nsec - 1000000000
      omega
    · show now.nsec + duration.nsec - 1000000000 < 1000000000
      omega
    · show (now.sec + duration.sec + 1) * 1000000000 + (now.nsec + duration.nsec - 1000000000) = _
      omega
  · rw [if_neg hc]
    refine ⟨⟨?_, ?_⟩, ?_⟩
    · show 0 ≤ now.nsec + duration.nsec
      omega
    · show now.nsec + duration.nsec < 1000000000
      omega
    · show (now.sec + duration.sec) * 1000000000 + (now.nsec + duration.nsec) = _
      omega

theorem DeadlineFits.sumFits (hpos : 0 ≤ now.sec) (hrange : cfg.TimeRange duration.sec)
    (hfits : DeadlineFits cfg now duration) : SumFits cfg now duration := by
  have hcarry : 0 ≤ carry now duration := carry_nonneg
  unfold DeadlineFits at hfits
  unfold Platform.TimeRange at hrange
  refine ⟨⟨?_, ?_⟩, ⟨?_, hfits⟩⟩ <;> omega

/-- From a clock that is past the epoch the deadline is exact when it does not overflow. -/
theorem deadline_eq (hnow : now.Normalised) (hd : duration.Normalised) (hpos : 0 ≤ now.sec)
    (hrange : cfg.TimeRange duration.sec) (hfits : DeadlineFits cfg now duration) :
    (computeDeadline cfg now duration).Normalised ∧
      (computeDeadline cfg now duration).ns = now.ns + duration.ns :=
  computeDeadline_exact hnow hd (hfits.sumFits hpos hrange)

/-- **The remaining time is exact** until the deadline is reached. -/
theorem remaining_exact {deadline : Timespec} (hnow : now.Normalised) (hd : deadline.Normalised)
    (hr : ¬ now.Reached deadline)
    (hfits : deadline.ns - now.ns < 2 ^ (cfg.timeBits - 1) * 1000000000) :
    (remaining cfg deadline now).Normalised ∧ 0 ≤ (remaining cfg deadline now).sec ∧
      now.ns + (remaining cfg deadline now).ns = deadline.ns := by
  rw [Timespec.reached_iff_ns hnow hd, not_le] at hr
  obtain ⟨hn₁, hn₂⟩ := hnow
  obtain ⟨hd₁, hd₂⟩ := hd
  generalize hM : (2 : ℤ) ^ (cfg.timeBits - 1) = M at hfits
  have hfit : ∀ x : ℤ, 0 ≤ x → x < M → wrapInt cfg.timeBits x = x := by
    intro x hlo hhi
    rw [← hM] at hhi
    have : (0 : ℤ) < 2 ^ (cfg.timeBits - 1) := by positivity
    exact wrapInt_of_mem timeBits_pos (by omega) hhi
  unfold Timespec.ns at *
  unfold remaining
  dsimp only
  by_cases hb : now.nsec ≤ deadline.nsec
  · rw [if_pos hb, hfit _ (by omega) (by omega)]
    refine ⟨⟨?_, ?_⟩, ?_, ?_⟩ <;> dsimp only <;> omega
  · rw [if_neg hb, wrapInt_sub_wrapInt, hfit _ (by omega) (by omega)]
    refine ⟨⟨?_, ?_⟩, ?_, ?_⟩ <;> dsimp only <;> omega

/-- **A deadline that does not fit is in the past.** -/
theorem deadline_sec_of_overflow (hnow : now.Normalised) (hd : duration.Normalised)
    (hnr : cfg.TimeRange now.sec) (hrange : cfg.TimeRange duration.sec)
    (hfits : ¬ DeadlineFits cfg now duration) : (computeDeadline cfg now duration).sec < 0 := by
  unfold DeadlineFits carry at hfits
  unfold Platform.TimeRange at hnr hrange
  have hbig : 2 ≤ (2 : ℤ) ^ (cfg.timeBits - 1) := by
    rcases cfg.timeBits_eq with h | h <;> rw [h] <;> decide
  generalize hM : (2 : ℤ) ^ (cfg.timeBits - 1) = M at hfits hnr hrange hbig
  have hover : ∀ x : ℤ, M ≤ x → x < 3 * M → wrapInt cfg.timeBits x = x - 2 * M := by
    intro x hlo hhi
    rw [← hM] at hlo hhi ⊢
    exact wrapInt_of_overflow timeBits_pos hlo hhi
  have hfit : ∀ x : ℤ, -M ≤ x → x < M → wrapInt cfg.timeBits x = x := by
    intro x hlo hhi
    rw [← hM] at hlo hhi
    exact wrapInt_of_mem timeBits_pos hlo hhi
  rw [computeDeadline_of_normalised hnow hd]
  by_cases hc : 1000000000 ≤ now.nsec + duration.nsec
  · rw [if_pos hc] at hfits ⊢
    show wrapInt _ (wrapInt _ _ + 1) < 0
    by_cases hs : M ≤ now.sec + duration.sec
    · rw [hover _ hs (by omega), hfit _ (by omega) (by omega)]
      omega
    · -- the sum is the largest value, and the carry is what overflows
      rw [hfit (now.sec + duration.sec) (by omega) (by omega), hover _ (by omega) (by omega)]
      omega
  · rw [if_neg hc] at hfits ⊢
    show wrapInt _ _ < 0
    rw [hover _ (by omega) (by omega)]
    omega

end AtomicWaits
