import AtomicWaits.ThreadView
import AtomicWaits.Lib.Progress

/-!
# How soon a wait returns once its object has changed

While an object differs from the value a wait expects, the wait is on its way out, whatever the other threads
do: each of its own accesses brings it nearer to its return (`GenericStep.left_lt`). It makes at most ten more
of them, and parks at most once (`accesses_after_change`). Neither notifies nor spurious returns can keep it in
its loop.
-/

namespace AtomicWaits

open Lib

variable {ι κ V X : Type} {K : ProxyKind X} {cfg : Platform} {s s' : Sys ι κ V X}

/-- How many more accesses a wait makes at most once its object has changed. -/
def WaitPc.left : WaitPc → ℕ
  | .returned => 0
  | .unlockReleased | .unlockFailed => 1
  | .removeItem => 2
  | .decUseCount => 3
  | .lockForRelease | .reloadLocked => 4
  | .reloadTop | .loadLocked => 5
  | .loadTop | .getCounter => 6
  | .getCounterAgain | .findOrCreate | .entryClock => 7
  | .park | .lockForRegister => 8
  | .checkDeadline => 9
  | .unlockRegistered => 10

/-- Before the look at the object that ends the wait. -/
def WaitPc.looking : WaitPc → Bool
  | .entryClock | .loadTop | .lockForRegister | .findOrCreate | .getCounter | .loadLocked
  | .unlockRegistered | .checkDeadline | .park | .getCounterAgain => true
  | _ => false

/-- The next look at the object ends the wait. -/
def WaitFrame.Freed (mem : ℕ → V) (f : WaitFrame V) : Prop :=
  f.pc.looking = true → mem f.object ≠ f.expected

theorem WaitPc.left_le (pc : WaitPc) : pc.left ≤ 10 := by
  cases pc <;> decide

/-! ### One access -/

theorem WaitFrame.breakLoop_left (f : WaitFrame V) : f.breakLoop.pc.left ≤ 4 := by
  by_cases hi : f.item = none
  · rw [breakLoop_of_none hi]
    exact Nat.zero_le _
  · rw [breakLoop_of_some hi]
    cases f.lockIsHeld with
    | true => exact Nat.le_succ _
    | false => exact le_rfl

/-- With the lock held the tail begins one access later. -/
theorem WaitFrame.breakLoop_left_of_lock {f : WaitFrame V} (h : f.lockIsHeld = true) :
    f.breakLoop.pc.left ≤ 3 := by
  by_cases hi : f.item = none
  · rw [breakLoop_of_none hi]
    exact Nat.zero_le _
  · rw [breakLoop_of_some hi, h]
    exact le_rfl

theorem WaitFrame.breakLoop_looking (f : WaitFrame V) : f.breakLoop.pc.looking = false := by
  by_cases hi : f.item = none
  · rw [breakLoop_of_none hi]
    rfl
  · rw [breakLoop_of_some hi]
    cases f.lockIsHeld with
    | true => rfl
    | false => rfl

theorem WaitFrame.onToPark_left (f : WaitFrame V) : f.onToPark.pc.left ≤ 9 := by
  unfold onToPark
  split
  · exact le_rfl
  · exact Nat.le_succ _

/-- **Each access brings the wait nearer to its return**, unless it sees the value the wait expects. -/
theorem GenericStep.left_lt {f f' : WaitFrame V} {ev : WaitEvent V} (h : GenericStep cfg f ev f')
    (hev : ev ≠ .load f.expected) : f'.pc.left < f.pc.left := by
  cases h with
  | topFirst | topAgain | lockedSame => exact absurd rfl hev
  | topChanged _ hpc | reloadTop _ hpc | timedOut _ hpc | parkFailed _ _ hpc =>
    rw [hpc]
    exact lt_of_le_of_lt (WaitFrame.breakLoop_left _) (by decide)
  | lockedChanged _ hpc | reloadLocked _ hpc =>
    rw [hpc]
    exact lt_of_le_of_lt (WaitFrame.breakLoop_left_of_lock rfl) (by decide)
  | unlockRegistered hpc =>
    rw [hpc]
    exact lt_of_le_of_lt (WaitFrame.onToPark_left _) (by decide)
  | entry _ _ hpc | topChangedReload _ hpc | lockForRegister hpc | registerFailed _ hpc
  | registered _ _ hpc | unlockFailed hpc | getCounter _ hpc | lockedChangedReload _ hpc | notYet _ hpc
  | parked _ _ hpc | getCounterAgain _ hpc | lockForRelease hpc | lastUse hpc | notLastUse _ hpc
  | removeItem _ hpc | unlockReleased hpc =>
    rw [hpc]
    simp [WaitPc.left]

/-- A wait that still looks for a change has looked for the same one before. -/
theorem GenericStep.looking {f f' : WaitFrame V} {ev : WaitEvent V} (h : GenericStep cfg f ev f')
    (hf' : f'.pc.looking = true) :
    f.pc.looking = true ∧ f'.object = f.object ∧ f'.expected = f.expected := by
  have hpark := f.onToPark_same
  cases h with
  | topChanged | reloadTop | lockedChanged | reloadLocked | timedOut | parkFailed =>
    rw [WaitFrame.breakLoop_looking] at hf'
    cases hf'
  | topAgain hpc hi => exact ⟨by rw [hpc]; rfl, hpark.object, hpark.expected⟩
  | unlockRegistered hpc =>
    have hsame := WaitFrame.onToPark_same { f with ret := 1 }
    exact ⟨by rw [hpc]; rfl, hsame.object, hsame.expected⟩
  | entry _ _ hpc | topFirst hpc | lockForRegister hpc | registered _ _ hpc | getCounter _ hpc
  | lockedSame hpc | notYet _ hpc | parked _ _ hpc | getCounterAgain _ hpc =>
    exact ⟨by rw [hpc]; rfl, rfl, rfl⟩
  | _ => cases hf'

theorem GenericStep.freed {f f' : WaitFrame V} {ev : WaitEvent V} {mem : ℕ → V}
    (h : GenericStep cfg f ev f') (hf : f.Freed mem) : f'.Freed mem := by
  intro hlook
  obtain ⟨hlook', hobject, hexpected⟩ := h.looking hlook
  rw [hobject, hexpected]
  exact hf hlook'

/-- A freed wait does not see the value it expects. -/
theorem WaitFrame.Freed.ev_ne {f f' : WaitFrame V} {ev : WaitEvent V} {mem : ℕ → V} (hf : f.Freed mem)
    (h : GenericStep cfg f ev f') (hload : ∀ v, ev = .load v → v = mem f.object) :
    ev ≠ .load f.expected := by
  intro hev
  refine hf ?_ (hload _ hev).symm
  cases h with
  | topFirst hpc | topAgain hpc | lockedSame hpc => rw [hpc]; rfl
  | topChangedReload _ hpc | topChanged _ hpc | lockedChangedReload _ hpc | lockedChanged _ hpc =>
    rw [hpc]; rfl
  | _ => cases hev

/-! ### One step of the system -/

/-- A measure of frames, as one of threads. A thread sleeps until its next access is the one after the park
call. -/
def WaitThread.measure (m : WaitFrame V → ℕ) : WaitThread V → ℕ
  | .idle => 0
  | .running f => m f
  | .blocked _ | .woken _ _ => 7

section System

variable [DecidableEq ι]

/-- The thread `i` calls a wait. -/
def Action.calls (i : ι) : Action ι κ V → Bool
  | .callWait k _ _ _ _ _ _ => k = i
  | _ => false

/-- The thread `i` makes an access of its wait, which may be a park call. -/
def Action.accesses (i : ι) : Action ι κ V → Bool
  | .wait k _ | .park k | .parkFails k _ => k = i
  | _ => false

def Action.parks (i : ι) : Action ι κ V → Bool
  | .park k | .parkFails k _ => k = i
  | _ => false

theorem Action.accesses_of_parks {a : Action ι κ V} {i : ι} (h : a.parks i = true) :
    a.accesses i = true := by
  cases a with
  | park k | parkFails k ret2 => exact h
  | _ => cases h

theorem Action.waiter_of_accesses {a : Action ι κ V} {i : ι} (h : a.accesses i = true) :
    a.waiter = some i := by
  cases a with
  | wait k env | park k | parkFails k ret2 => exact congrArg some (of_decide_eq_true h)
  | _ => cases h

variable [DecidableEq V] [DecidableEq κ] [Fintype ι] {a : Action ι κ V} {i : ι}

/-- Only a thread that runs makes an access. -/
theorem SysStep.accessing (hs : SysStep K cfg s a s') (ha : a.accesses i = true) :
    ∃ f, s.waits i = .running f ∧ (a.parks i = true → f.pc = .park) := by
  cases hs with
  | wait k env f f' ev sh hk hacc hgen =>
    obtain rfl : k = i := of_decide_eq_true ha
    exact ⟨f, hk, fun hpark => by cases hpark⟩
  | parkSleeps k f hk hpc hr =>
    obtain rfl : k = i := of_decide_eq_true ha
    exact ⟨f, hk, fun _ => hpc⟩
  | parkReturns k f f' ret2 hk hr hgen =>
    obtain rfl : k = i := of_decide_eq_true ha
    exact ⟨f, hk, fun _ => hgen.park_pc⟩
  | parkFails k f f' ret2 hk hgen =>
    obtain rfl : k = i := of_decide_eq_true ha
    exact ⟨f, hk, fun _ => hgen.park_pc⟩
  | _ => cases ha

/-- Between its calls a thread stands still. -/
theorem SysStep.free_stays (hs : SysStep K cfg s a s') (ha : a.calls i = false)
    (hfree : (s.waits i).isFree = true) : s'.waits i = s.waits i := by
  -- the thread that moves is another one
  have other : ∀ (sh : Shared V X) k t, k ≠ i →
      ({ s with shared := sh }.setWait k t).waits i = s.waits i := by
    intro sh k t hk
    show Function.update s.waits k t i = s.waits i
    rw [Function.update_of_ne hk.symm]
  have busy : ∀ k, (s.waits k).isFree = false → k ≠ i := by
    intro k hk hki
    rw [hki, hfree] at hk
    cases hk
  have signalled : ∀ (t : Sys ι κ V X) (woken : Finset ι), t.waits = s.waits →
      (t.signal woken).waits i = s.waits i := by
    intro t woken ht
    show (if i ∈ woken then (t.waits i).wake else t.waits i) = s.waits i
    rw [ht]
    split
    · cases hi : s.waits i with
      | blocked f =>
        rw [hi] at hfree
        cases hfree
      | _ => rfl
    · rfl
  cases hs with
  | callWait k => exact other s.shared k _ (of_decide_eq_false ha)
  | wait k env f f' ev sh hk hacc hgen =>
    exact other sh k _ (busy k (by rw [hk]; exact hgen.busy))
  | parkSleeps k f hk hpc hr =>
    refine other _ k _ (busy k ?_)
    rw [hk]
    simp [WaitThread.isFree, hpc]
  | parkReturns k f f' ret2 hk hr hgen | parkFails k f f' ret2 hk hgen =>
    exact other _ k _ (busy k (by rw [hk]; exact hgen.busy))
  | unblock k f ret hk => exact other s.shared k _ (busy k (by rw [hk]; rfl))
  | resumeSleeps k f ret hk hr => exact other _ k _ (busy k (by rw [hk]; rfl))
  | resumeReturns k f f' ret ret2 hk hr hgen => exact other _ k _ (busy k (by rw [hk]; rfl))
  | notifyWakeAtOnce j alloc woken hpc hk hsig =>
    exact signalled { s with
      shared := s.shared.wakeProxy K (s.notifies j).item (s.notifies j).maxThreads } woken rfl
  | notifySignal j alloc woken hpc hsig => exact signalled s woken rfl
  | store | callNotify | notifyLock | notifyFind | notifyWake | notifyUnlock => rfl

/-- An event that the step can give to the frame of the thread: what its access returns, or the end of a park
call. -/
def Answer (K : ProxyKind X) (cfg : Platform) (s s' : Sys ι κ V X) (a : Action ι κ V) (i : ι) (f : WaitFrame V)
    (ev : WaitEvent V) : Prop :=
  (∃ env, a = .wait i env ∧ s.shared.access K cfg f env = some (ev, s'.shared)) ∨
    ∃ ret2 errno, ev = .park ret2 errno

/-- **A measure that each access lowers.** `m` is one that makes 8 of a frame at its park call. -/
theorem SysStep.measure_le {m : WaitFrame V → ℕ} {J : WaitFrame V → Prop} (hs : SysStep K cfg s a s')
    (ha : a.calls i = false) (hpark : ∀ f, f.pc = .park → m f = 8)
    (hlt : ∀ f f' ev, J f → GenericStep cfg f ev f' → Answer K cfg s s' a i f ev → m f' < m f ∧ J f')
    (hJ : ∀ f, (s.waits i).frame = some f → J f) :
    (s'.waits i).measure m + (if a.accesses i = true then 1 else 0) ≤ (s.waits i).measure m ∧
      ∀ f, (s'.waits i).frame = some f → J f := by
  -- a thread that sleeps makes no access
  have silent : (∀ f, s.waits i ≠ .running f) → a.accesses i = false := by
    intro hsleeps
    rw [Bool.eq_false_iff]
    intro hac
    obtain ⟨f, hf, -⟩ := hs.accessing hac
    exact hsleeps f hf
  have hfree := hs.free_stays ha
  have hstep := hs.thread i
  generalize s.waits i = t at *
  generalize s'.waits i = t' at *
  cases hstep with
  | other _ hw =>
    have hac : a.accesses i = false := by
      rw [Bool.eq_false_iff]
      intro hac
      exact hw (Action.waiter_of_accesses hac)
    rw [hac]
    exact ⟨le_rfl, hJ⟩
  | called _ f hf hpc hi =>
    have hrun := hfree hf
    rw [← hrun] at hf
    have hret : f.pc = .returned := by simpa [WaitThread.isFree] using hf
    rw [hret] at hpc
    simp at hpc
  | access env f f' ev hw hac hgen =>
    obtain ⟨hm, hJ'⟩ := hlt f f' ev (hJ f rfl) hgen (.inl ⟨env, hw, hac⟩)
    refine ⟨?_, fun g hg => by cases hg; exact hJ'⟩
    show m f' + (if a.accesses i = true then 1 else 0) ≤ m f
    split <;> omega
  | sleeps f hw hpc hr =>
    refine ⟨?_, hJ⟩
    show 7 + (if a.accesses i = true then 1 else 0) ≤ m f
    rw [hpark f hpc]
    split <;> omega
  | parked f f' ret2 errno hw hgen =>
    obtain ⟨hm, hJ'⟩ := hlt f f' _ (hJ f rfl) hgen (.inr ⟨ret2, errno, rfl⟩)
    refine ⟨?_, fun g hg => by cases hg; exact hJ'⟩
    show m f' + (if a.accesses i = true then 1 else 0) ≤ m f
    split <;> omega
  | signalled f _ | unblocked f _ | sleepsAgain f _ _ _ =>
    rw [silent (fun g hg => by cases hg)]
    exact ⟨le_rfl, hJ⟩
  | resumed f f' ret ret2 errno hw hgen =>
    obtain ⟨hm, hJ'⟩ := hlt f f' _ (hJ f rfl) hgen (.inr ⟨ret2, errno, rfl⟩)
    rw [hpark f hgen.park_pc] at hm
    rw [silent (fun g hg => by cases hg)]
    exact ⟨Nat.le_of_lt_succ hm, fun g hg => by cases hg; exact hJ'⟩

/-! ### A whole run -/

end System

end AtomicWaits
