import AtomicWaits.WaitDeadline

/-!
# Deadlines handed to the kernel

A timed park gets the time that remains until the deadline. The Linux futex wait and
`pthread_proxy_wait` turn it back into an absolute time, with a clock reading of their own. Over every
run of a wait function, at each of its park calls (`timedPark_of_run`):

* the remaining time is positive, normalised, and the deadline less the last clock reading exactly;
* the absolute time is normalised, and the deadline plus the time passed between the two readings.

Both hold as long as the sums of the seconds are representable.
-/

namespace AtomicWaits

open Lib WaitEvent

variable (cfg : Platform)

/-- `abstime` of the Linux `wait_on_address32`, with the clock reading `now`. -/
def futexAbstime (now duration : Timespec) : Timespec := computeDeadline cfg now duration

/-- `abstime` of `pthread_proxy_wait` on `CLOCK_MONOTONIC`. -/
def pthreadAbstime (now timeout : Timespec) : Timespec := computeDeadline cfg now timeout

/-- The absolute time rebuilt at `now'` from what remained at `now`. -/
structure AbstimeOk (deadline now now' abstime : Timespec) : Prop where
  normalised : abstime.Normalised
  exact : abstime.ns = deadline.ns + (now'.ns - now.ns)
  notEarly : deadline.ns ≤ abstime.ns
  /-- The kernel takes no negative seconds. -/
  accepted : 0 ≤ now'.sec → 0 ≤ abstime.sec

/-- What a park call gets that is made after the clock reading `now`. -/
structure TimedPark (deadline now rem : Timespec) : Prop where
  normalised : rem.Normalised
  positive : 0 < rem.ns
  accepted : 0 ≤ rem.sec
  exact : now.ns + rem.ns = deadline.ns
  futex : ∀ now', now'.Normalised → now.ns ≤ now'.ns → SumFits cfg now' rem →
    AbstimeOk deadline now now' (futexAbstime cfg now' rem)
  pthread : ∀ now', now'.Normalised → now.ns ≤ now'.ns → SumFits cfg now' rem →
    AbstimeOk deadline now now' (pthreadAbstime cfg now' rem)

variable {cfg} {deadline now rem : Timespec}

theorem abstimeOk (hrem : rem.Normalised) (hpos : 0 < rem.ns)
    (hexact : now.ns + rem.ns = deadline.ns) {now' : Timespec} (hnow' : now'.Normalised)
    (hle : now.ns ≤ now'.ns) (hfits : SumFits cfg now' rem) :
    AbstimeOk deadline now now' (computeDeadline cfg now' rem) := by
  obtain ⟨hnorm, hns⟩ := computeDeadline_exact hnow' hrem hfits
  refine ⟨hnorm, by omega, by omega, fun h0 => ?_⟩
  have hlo := hnow'.lo
  have hhi := hnorm.hi
  unfold Timespec.ns at *
  omega

/-- **A park call before the deadline.** -/
theorem timedPark_of_not_reached (hnow : now.Normalised) (hd : deadline.Normalised)
    (hr : ¬ now.Reached deadline)
    (hfits : deadline.ns - now.ns < 2 ^ (cfg.timeBits - 1) * 1000000000) :
    TimedPark cfg deadline now (remaining cfg deadline now) := by
  obtain ⟨hnorm, hsec, hexact⟩ := remaining_exact hnow hd hr hfits
  rw [Timespec.reached_iff_ns hnow hd, not_le] at hr
  have hpos : 0 < (remaining cfg deadline now).ns := by omega
  refine ⟨hnorm, hpos, hsec, hexact, ?_, ?_⟩
  · intro now' hnow' hle hsum
    exact abstimeOk hnorm hpos hexact hnow' hle hsum
  · intro now' hnow' hle hsum
    exact abstimeOk hnorm hpos hexact hnow' hle hsum

section Run

variable {duration entry : Timespec} {impl : Implementation} {e : BitVec 32}
  {evs : List (WaitEvent (BitVec 32))} {call : WaitCall (BitVec 32)}

/-- Where a timed call parks, it has read the clock before and the deadline was not reached. -/
theorem tsRemaining_of_run (hrun : TimedRun cfg impl duration e evs call)
    (hpark : call.atPark = true) :
    ∃ first now deadline, (clocks evs).head? = some first ∧ (clocks evs).getLast? = some now ∧
      deadline = computeDeadline cfg first duration ∧ ¬ now.Reached deadline ∧
      call.tsRemaining = some (remaining cfg deadline now) := by
  refine hrun.invariant (P := fun evs call => call.atPark = true →
    ∃ first now deadline, (clocks evs).head? = some first ∧ (clocks evs).getLast? = some now ∧
      deadline = computeDeadline cfg first duration ∧ ¬ now.Reached deadline ∧
      call.tsRemaining = some (remaining cfg deadline now)) ?_ ?_ hpark
  · intro object success failure errno hstart
    cases impl <;> cases hstart
  · intro evs call ev call' _ _ hpass hpark'
    obtain ⟨now, deadline, rfl, hof, hr, hts⟩ := hpass hpark'
    obtain ⟨first, rest, hc, hd⟩ := hof duration rfl
    exact ⟨first, now, deadline, by rw [clocks_append, hc]; rfl, by simp [clockReading], hd, hr,
      hts⟩

/-- **Every park call of a timed wait gets a valid timeout that ends at the deadline.** -/
theorem timedPark_of_run (hdur : duration.Normalised) (hrange : cfg.TimeRange duration.sec)
    (hfits : SumFits cfg entry duration) (hclocked : Clocked entry evs)
    (hrun : TimedRun cfg impl duration e evs call) (hpark : call.atPark = true) :
    ∃ now rem, (clocks evs).getLast? = some now ∧ call.tsRemaining = some rem ∧
      (computeDeadline cfg entry duration).ns = entry.ns + duration.ns ∧
      TimedPark cfg (computeDeadline cfg entry duration) now rem := by
  obtain ⟨first, now, deadline, hfirst, hlast, rfl, hr, hts⟩ := tsRemaining_of_run hrun hpark
  obtain rfl : first = entry := hclocked.head first hfirst
  have hmem : now ∈ clocks evs := List.mem_of_getLast? hlast
  have hentry := hclocked.normalised first (List.mem_of_head? hfirst)
  obtain ⟨hnorm, hns⟩ := computeDeadline_exact hentry hdur hfits
  refine ⟨now, _, hlast, hts, hns, ?_⟩
  apply timedPark_of_not_reached (hclocked.normalised now hmem) hnorm hr
  -- what remains is no more than the duration
  have hle := hclocked.entry_le hmem
  have hhi := hdur.hi
  have hsec := hrange.2
  calc (computeDeadline cfg first duration).ns - now.ns ≤ duration.ns := by omega
    _ < 2 ^ (cfg.timeBits - 1) * 1000000000 := by
        unfold Timespec.ns
        omega

/-- One second from a reading just before a full second: the park call gets the rest. -/
theorem timedPark_of_run_second :
    ∃ (call : WaitCall (BitVec 32)) (now rem : Timespec),
      (clocks [.clock ⟨5, 999999999⟩, .load (0 : BitVec 32), .clock ⟨6, 0⟩]).getLast? = some now ∧
        call.tsRemaining = some rem ∧
        (computeDeadline (.lp64 .linux) ⟨5, 999999999⟩ ⟨1, 0⟩).ns
          = (⟨5, 999999999⟩ : Timespec).ns + (⟨1, 0⟩ : Timespec).ns ∧
        TimedPark (.lp64 .linux) (computeDeadline (.lp64 .linux) ⟨5, 999999999⟩ ⟨1, 0⟩) now rem := by
  have hrun : ∃ call, TimedRun (.lp64 .linux) .native ⟨1, 0⟩ 0
      [.clock ⟨5, 999999999⟩, .load 0, .clock ⟨6, 0⟩] call ∧ call.atPark = true :=
    ⟨_, ⟨64, .seq_cst, .seq_cst, 0, rfl⟩, rfl⟩
  obtain ⟨call, hrun, hpark⟩ := hrun
  have hclocked : Clocked ⟨5, 999999999⟩
      [.clock ⟨5, 999999999⟩, .load (0 : BitVec 32), .clock ⟨6, 0⟩] := by
    have hnorm : ∀ t ∈ [(⟨5, 999999999⟩ : Timespec), ⟨6, 0⟩], t.Normalised := by
      intro t ht
      rcases List.mem_cons.mp ht with rfl | ht
      · exact ⟨by decide, by decide⟩
      · rw [List.mem_singleton.mp ht]
        exact ⟨by decide, by decide⟩
    refine ⟨fun t ht => ?_, hnorm, ?_⟩
    · exact (Option.some.inj ht).symm
    · show List.Pairwise _ [(⟨5, 999999999⟩ : Timespec), ⟨6, 0⟩]
      simp [Timespec.ns]
  exact ⟨call, timedPark_of_run ⟨by decide, by decide⟩ ⟨by decide, by decide⟩
    ⟨⟨by decide, by decide⟩, ⟨by decide, by decide⟩⟩ hclocked hrun hpark⟩

end Run

end AtomicWaits
