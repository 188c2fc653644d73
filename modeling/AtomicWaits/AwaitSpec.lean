import AtomicWaits.WaitContract

/-!
# What a wait is for

A wait for an object to change, without table, proxies, locks or park calls: the objects, the waits in
progress, and the moments at which one of them may return. Notifications do not appear: they move no wait
and change no object, they only see to it that a wait that may return does.

A wait returns with the value the object holds at that moment, which is another one than it was given; or
its deadline has been reached; or it fails.
-/

namespace AtomicWaits

open Lib

/-- A wait in progress: its arguments, and what has happened in it so far. -/
structure Waiting (O V : Type) where
  object : O
  expected : V
  duration : Option Timespec
  /-- `errno` at the call. -/
  errno : ℤ
  /-- Set when the clock is first read. -/
  deadline : Option Timespec
  /-- The object has held the expected value during the call, and the call has settled to wait. -/
  entered : Bool

/-- A thread, as its caller sees it. -/
inductive Await (O V : Type)
  | idle
  | waiting (w : Waiting O V)
  | returned (r : WaitResult V)

/-- The objects `O` and the waiting threads `ι`. -/
structure AwaitSys (ι O V : Type) where
  mem : O → V
  call : ι → Await O V

variable {ι O V : Type}

def Await.isFree : Await O V → Bool
  | waiting _ => false
  | _ => true

/-- **What may become of a wait** while the objects hold `mem`. -/
inductive AwaitMove (cfg : Platform) (mem : O → V) : Await O V → Await O V → Prop
  | starts (w : Waiting O V) (d now : Timespec) : w.duration = some d → w.deadline = none →
      AwaitMove cfg mem (.waiting w)
        (.waiting { w with deadline := some (computeDeadline cfg now d) })
  | enters (w : Waiting O V) : mem w.object = w.expected →
      AwaitMove cfg mem (.waiting w) (.waiting { w with entered := true })
  | changed (w : Waiting O V) : mem w.object ≠ w.expected →
      AwaitMove cfg mem (.waiting w)
        (.returned ⟨if w.entered then 1 else 0, mem w.object, w.errno⟩)
  | timedOut (w : Waiting O V) (deadline now : Timespec) : w.entered = true →
      w.deadline = some deadline → now.Reached deadline →
      AwaitMove cfg mem (.waiting w) (.returned ⟨0, w.expected, cfg.errno.ETIMEDOUT⟩)
  | failed (w : Waiting O V) (errno : ℤ) : 0 < errno →
      AwaitMove cfg mem (.waiting w) (.returned ⟨-1, w.expected, errno⟩)

end AtomicWaits
