import AtomicWaits.WaitContract
import AtomicWaits.Lib.Simulation

/-!
# The two implementations of one wait

`atomic_wait_expected_32` is the native loop where the backend has a 4-byte park, and
`atomic_wait_generic` where it has not. `WaitFrame.nativeView` says what the native loop sees of an access
of `atomic_wait_generic`: nothing of the table, its lock and the use count, and nothing of the first look at
an object that has not changed, which is made again with the lock held.

* `agrees_step`: along that view each step of `atomic_wait_generic` is a step of the native loop or none.
* `native_step_generic`: each step of the native loop is the view of some steps of `atomic_wait_generic`.
* `generic_agrees_native`: up to a registration that fails, the two have the same runs with the same
  results.
-/

namespace AtomicWaits

open Lib WaitEvent

variable {V : Type}

/-- The registration of the proxy has not failed. -/
def WaitEvent.Registers : WaitEvent V → Prop
  | .findOrCreate item _ => item ≠ none
  | _ => True

/-- Where the native loop stands while `atomic_wait_generic` stands at a program point. -/
def WaitPc.native (timed : Bool) : WaitPc → NativePc
  | .entryClock => .entryClock
  | .loadTop | .lockForRegister | .findOrCreate | .getCounter | .loadLocked | .getCounterAgain =>
    .load
  | .reloadTop | .reloadLocked => .reload
  | .unlockRegistered => if timed then .checkDeadline else .park
  | .checkDeadline => .checkDeadline
  | .park => .park
  | .unlockFailed | .lockForRelease | .decUseCount | .removeItem | .unlockReleased | .returned =>
    .returned

namespace WaitFrame

/-- What the native loop sees of an access. -/
def nativeView [DecidableEq V] (f : WaitFrame V) : WaitEvent V → List (WaitEvent V)
  | .load v => if f.pc = .loadTop ∧ f.item = none ∧ v = f.expected then [] else [.load v]
  | .clock now => [.clock now]
  | .reload v => [.reload v]
  | .park ret2 errno => [.park ret2 errno]
  | .lock | .findOrCreate _ _ | .unlock | .getCounter _ | .decUseCount _ | .removeItem _ => []

/-- The `errno` with which the call returns, once it is in its tail. -/
def finalErrno (f : WaitFrame V) : ℤ := if f.pc = .returned then f.errno else f.saveErrno

end WaitFrame

/-- The local variables the two functions have in common and use alike. -/
structure WaitLocals (V : Type) where
  duration : Option Timespec
  success : MemoryOrder
  failure : MemoryOrder
  expected : V
  entryErrno : ℤ
  deadline : Timespec

def WaitFrame.locals (f : WaitFrame V) : WaitLocals V :=
  ⟨f.duration, f.success, f.failure, f.expected, f.entryErrno, f.deadline⟩

def NativeFrame.locals (n : NativeFrame V) : WaitLocals V :=
  ⟨n.duration, n.success, n.failure, n.expected, n.entryErrno, n.deadline⟩

/-- The two calls have come equally far. -/
structure Agrees (f : WaitFrame V) (n : NativeFrame V) : Prop where
  locals : n.locals = f.locals
  registers : f.pc ≠ .unlockFailed
  pc : n.pc = f.pc.native f.duration.isSome
  ret : n.ret = if f.pc = .unlockRegistered then 1 else f.ret
  tsRemaining : f.pc = .park → n.tsRemaining = f.tsRemaining
  untimed : f.pc = .unlockRegistered → f.duration = none → n.tsRemaining = none
  ended : n.pc = .returned → n.errno = f.finalErrno

theorem agrees_start (object : ℕ) (expected : V) (duration : Option Timespec)
    (success failure : MemoryOrder) (errno : ℤ) :
    Agrees (WaitFrame.start object expected duration success failure errno)
      (NativeFrame.start expected duration success failure errno) := by
  cases duration with
  | none => exact ⟨rfl, by simp [WaitFrame.start], rfl, rfl, nofun, nofun, nofun⟩
  | some d => exact ⟨rfl, by simp [WaitFrame.start], rfl, rfl, nofun, nofun, nofun⟩

namespace Agrees

variable {f f' : WaitFrame V} {n n' : NativeFrame V}

theorem duration_eq (h : n.locals = f.locals) : n.duration = f.duration :=
  congrArg WaitLocals.duration h

theorem expected_eq (h : n.locals = f.locals) : n.expected = f.expected :=
  congrArg WaitLocals.expected h

theorem entryErrno_eq (h : n.locals = f.locals) : n.entryErrno = f.entryErrno :=
  congrArg WaitLocals.entryErrno h

theorem deadline_eq (h : n.locals = f.locals) : n.deadline = f.deadline :=
  congrArg WaitLocals.deadline h

theorem pc_at (h : Agrees f n) {pc : WaitPc} (hpc : f.pc = pc) :
    n.pc = pc.native f.duration.isSome := hpc ▸ h.pc

theorem ret_at (h : Agrees f n) {pc : WaitPc} (hpc : f.pc = pc) (hne : pc ≠ .unlockRegistered) :
    n.ret = f.ret := by
  rw [h.ret, hpc, if_neg hne]

theorem reloads_eq (h : Agrees f n) {pc : WaitPc} (hpc : f.pc = pc) (hne : pc ≠ .unlockRegistered) :
    n.reloads = f.reloads := by
  have hsuccess : n.success = f.success := congrArg WaitLocals.success h.locals
  have hfailure : n.failure = f.failure := congrArg WaitLocals.failure h.locals
  simp only [NativeFrame.reloads, WaitFrame.reloads, h.ret_at hpc hne, hsuccess, hfailure]

/-- On the way to a load or a reload. -/
theorem looking (hlocals : n.locals = f'.locals) (hret : n.ret = f'.ret)
    (hpc : n.pc = f'.pc.native f'.duration.isSome) (hload : n.pc = .load ∨ n.pc = .reload) :
    Agrees f' n := by
  have hne : n.pc ≠ .returned ∧ n.pc ≠ .park ∧ n.pc ≠ .checkDeadline := by
    rcases hload with hl | hl
    · rw [hl]
      decide
    · rw [hl]
      decide
  have hpc' : f'.pc ≠ .unlockRegistered := by
    intro heq
    rw [heq, WaitPc.native] at hpc
    split at hpc
    · exact hne.2.2 hpc
    · exact hne.2.1 hpc
  refine ⟨hlocals, ?_, hpc, by rw [if_neg hpc', hret], ?_, fun heq => absurd heq hpc',
    fun hr => absurd hr hne.1⟩
  · intro heq
    rw [heq] at hpc
    exact hne.1 hpc
  · intro heq
    rw [heq] at hpc
    exact absurd hpc hne.2.1

/-- In the tail, which the native loop does not have. -/
theorem inTail (hlocals : n.locals = f'.locals) (hn : n.pc = .returned) (hret : n.ret = f'.ret)
    (hpc : ∀ timed, f'.pc.native timed = .returned) (hfailed : f'.pc ≠ .unlockFailed)
    (herrno : n.errno = f'.finalErrno) : Agrees f' n := by
  have hend : ∀ pc, pc.native true ≠ .returned → f'.pc ≠ pc := by
    intro pc hne heq
    exact hne (heq ▸ hpc true)
  exact ⟨hlocals, hfailed, hn.trans (hpc _).symm, by rw [if_neg (hend _ (by decide)), hret],
    fun heq => absurd heq (hend _ (by decide)), fun heq => absurd heq (hend _ (by decide)),
    fun _ => herrno⟩

/-- `break`: the native loop returns. -/
theorem breakLoop (hlocals : n.locals = f.locals) (hn : n.pc = .returned) (hret : n.ret = f.ret)
    (herrno : n.errno = if f.errnoIsSet then f.errno else f.entryErrno)
    (hnone : f.item = none → n.errno = f.errno) : Agrees f.breakLoop n := by
  by_cases hi : f.item = none
  · rw [WaitFrame.breakLoop_of_none hi]
    exact inTail hlocals hn hret (fun _ => rfl) (by simp) (hnone hi)
  · rw [WaitFrame.breakLoop_of_some hi]
    cases hl : f.lockIsHeld with
    | true => exact inTail hlocals hn hret (fun _ => rfl) (by simp) herrno
    | false => exact inTail hlocals hn hret (fun _ => rfl) (by simp) herrno

/-- `break` after a change, which leaves `errno` as it was at entry. -/
theorem changed (hlocals : n.locals = f.locals) (hret : n.ret = f.ret) (hset : f.errnoIsSet = false)
    (hnone : f.item = none → f.errno = f.entryErrno) : Agrees f.breakLoop n.returnChanged := by
  refine breakLoop hlocals rfl hret ?_ ?_
  · rw [hset]
    exact entryErrno_eq hlocals
  · intro hi
    exact (entryErrno_eq hlocals).trans (hnone hi).symm

/-- The deadline check and the park call come next. -/
theorem onToPark (hlocals : n.locals = f.locals)
    (hpc : n.pc = if f.duration.isSome then .checkDeadline else .park) (hret : n.ret = f.ret)
    (hts : f.duration = none → n.tsRemaining = none) : Agrees f.onToPark n := by
  have hne : n.pc ≠ .returned := by
    rw [hpc]
    split <;> decide
  unfold WaitFrame.onToPark
  split
  · next hd =>
    rw [if_pos hd] at hpc
    exact ⟨hlocals, by simp, hpc, hret, nofun, nofun, fun hr => absurd hr hne⟩
  · next hd =>
    rw [if_neg hd] at hpc
    exact ⟨hlocals, by simp, hpc, hret, fun _ => hts (Option.not_isSome_iff_eq_none.mp hd), nofun,
      fun hr => absurd hr hne⟩

end Agrees

section Forward

variable [DecidableEq V] {cfg : Platform} {e : V} {dur : Option Timespec} {errno₀ : ℤ}
  {evs : List (WaitEvent V)} {f f' : WaitFrame V} {n : NativeFrame V} {ev : WaitEvent V}

/-- What the native loop sees is the access itself, and it makes the same step. -/
theorem Agrees.seen {n' : NativeFrame V} (hview : f.nativeView ev = [ev])
    (hstep : NativeStep cfg n ev n') (h : Agrees f' n') :
    ∃ n', Lts.exec (atomicWaitExpected32 cfg) n (f.nativeView ev) = some n' ∧ Agrees f' n' := by
  rw [hview]
  exact ⟨n', by rw [Lts.exec, hstep.run]; rfl, h⟩

theorem Agrees.unseen (hview : f.nativeView ev = []) (h : Agrees f' n) :
    ∃ n', Lts.exec (atomicWaitExpected32 cfg) n (f.nativeView ev) = some n' ∧ Agrees f' n' := by
  rw [hview]
  exact ⟨n, rfl, h⟩

variable (cfg) in
omit [DecidableEq V] in
/-- The native step at a load that saw no change. -/
theorem Agrees.same (h : Agrees f n) {pc : WaitPc} (hpc : f.pc = pc)
    (hn : pc.native f.duration.isSome = .load) :
    ∃ n', NativeStep cfg n (.load f.expected) n' ∧ n'.locals = f.locals ∧ n'.ret = 1 ∧
      (n'.pc = if f.duration.isSome then .checkDeadline else .park) ∧
      (f.duration = none → n'.tsRemaining = none) := by
  have hexp := Agrees.expected_eq h.locals
  have hload : n.pc = .load := (h.pc_at hpc).trans hn
  have hdur := Agrees.duration_eq h.locals
  rw [← hexp, ← hdur]
  by_cases hd : n.duration = none
  · refine ⟨_, .same hload hd, h.locals, rfl, ?_, fun _ => rfl⟩
    rw [hd]
    rfl
  · refine ⟨_, .sameTimed hload hd, h.locals, rfl, ?_, fun hnone => absurd hnone hd⟩
    exact (if_pos (Option.isSome_iff_ne_none.mpr hd)).symm

/-- **Each step of `atomic_wait_generic` is the native step it looks like**, or one the native loop does not
have. -/
theorem agrees_step (h : Agrees f n) (hinv : WaitInv cfg e dur errno₀ evs f) (hev : ev.Registers)
    (hs : GenericStep cfg f ev f') :
    ∃ n', Lts.exec (atomicWaitExpected32 cfg) n (f.nativeView ev) = some n' ∧ Agrees f' n' := by
  have hphase := hinv.phase
  have hexp := Agrees.expected_eq h.locals
  have hentry := hinv.entryErrno
  cases hs with
  | entry now duration hpc hd =>
    have hn : n.pc = .entryClock := h.pc_at hpc
    have hdur : n.duration = some duration := (Agrees.duration_eq h.locals).trans hd
    refine Agrees.seen rfl (.entry now duration hn hdur) (Agrees.looking ?_ ?_ rfl (.inl rfl))
    · exact congrArg (fun l : WaitLocals V => { l with deadline := computeDeadline cfg now duration })
        h.locals
    · exact h.ret_at hpc (by decide)
  | topChangedReload v hpc hv hrel =>
    have hn : n.pc = .load := h.pc_at hpc
    have hview : f.nativeView (.load v) = [.load v] := if_neg fun hc => hv hc.2.2
    refine Agrees.seen hview (.changedReload v hn (hexp ▸ hv) ?_) (Agrees.looking ?_ ?_ rfl (.inr rfl))
    · rw [h.reloads_eq hpc (by decide)]
      exact hrel
    · exact congrArg (fun l : WaitLocals V => { l with expected := v }) h.locals
    · exact h.ret_at hpc (by decide)
  | topChanged v hpc hv hrel =>
    have hn : n.pc = .load := h.pc_at hpc
    have hview : f.nativeView (.load v) = [.load v] := if_neg fun hc => hv hc.2.2
    simp only [WaitFrame.Phase, hpc] at hphase
    obtain ⟨hw, hseen⟩ := hphase
    refine Agrees.seen hview (.changed v hn (hexp ▸ hv) ?_) (Agrees.changed
      (f := { f with expected := v }) (n := { n with expected := v }) ?_ ?_ hw.unset ?_)
    · rw [h.reloads_eq hpc (by decide)]
      exact hrel
    · exact congrArg (fun l : WaitLocals V => { l with expected := v }) h.locals
    · exact h.ret_at hpc (by decide)
    · intro hi
      rcases hseen with hfirst | hagain
      · exact hfirst.errno.trans hentry.symm
      · exact absurd hi hagain.item
  | topFirst hpc hi =>
    have hn : n.pc = .load := h.pc_at hpc
    exact Agrees.unseen (if_pos ⟨hpc, hi, rfl⟩)
      (Agrees.looking h.locals (h.ret_at hpc (by decide)) hn (.inl hn))
  | topAgain hpc hi =>
    have hview : f.nativeView (.load f.expected) = [.load f.expected] := if_neg fun hc => hi hc.2.1
    simp only [WaitFrame.Phase, hpc] at hphase
    have hret : f.ret = 1 := by
      rcases hphase.2 with hfirst | hagain
      · exact absurd hfirst.item hi
      · exact hagain.ret
    obtain ⟨n', hstep, hlocals, hret', hpc', hts⟩ := h.same cfg hpc rfl
    exact Agrees.seen hview hstep (Agrees.onToPark hlocals hpc' (hret'.trans hret.symm) hts)
  | reloadTop v hpc | reloadLocked v hpc =>
    have hn : n.pc = .reload := h.pc_at hpc
    simp only [WaitFrame.Phase, hpc] at hphase
    refine Agrees.seen rfl (.reload v hn) (Agrees.changed h.locals (h.ret_at hpc (by decide))
      hphase.1 ?_)
    intro hi
    exact (hphase.2.1 hi).trans hentry.symm
  | lockForRegister hpc =>
    have hn : n.pc = .load := h.pc_at hpc
    exact Agrees.unseen rfl (Agrees.looking h.locals (h.ret_at hpc (by decide)) hn (.inl hn))
  | registerFailed errno hpc => exact absurd rfl hev
  | registered p errno hpc =>
    have hn : n.pc = .load := h.pc_at hpc
    exact Agrees.unseen rfl (Agrees.looking h.locals (h.ret_at hpc (by decide)) hn (.inl hn))
  | unlockFailed hpc => exact absurd hpc h.registers
  | getCounter c hpc | getCounterAgain c hpc =>
    have hn : n.pc = .load := h.pc_at hpc
    exact Agrees.unseen rfl (Agrees.looking h.locals (h.ret_at hpc (by decide)) hn (.inl hn))
  | lockedChangedReload v hpc hv hrel =>
    simp only [WaitFrame.Phase, hpc] at hphase
    exact absurd hphase.2.ret (WaitFrame.reloads_eq_true hrel)
  | lockedChanged v hpc hv hrel =>
    have hn : n.pc = .load := h.pc_at hpc
    have hview : f.nativeView (.load v) = [.load v] := if_neg fun hc => hv hc.2.2
    simp only [WaitFrame.Phase, hpc] at hphase
    refine Agrees.seen hview (.changed v hn (hexp ▸ hv) ?_) (Agrees.changed
      (f := { f with expected := v, lockIsHeld := true }) (n := { n with expected := v }) ?_ ?_
      hphase.1.unset fun hi => absurd hi hphase.2.item)
    · rw [h.reloads_eq hpc (by decide)]
      exact hrel
    · exact congrArg (fun l : WaitLocals V => { l with expected := v }) h.locals
    · exact h.ret_at hpc (by decide)
  | lockedSame hpc =>
    have hview : f.nativeView (.load f.expected) = [.load f.expected] := by
      refine if_neg fun hc => ?_
      rw [hpc] at hc
      cases hc.1
    obtain ⟨n', hstep, hlocals, hret', hpc', hts⟩ := h.same cfg hpc rfl
    refine Agrees.seen hview hstep ⟨hlocals, by simp, hpc', hret', ?_, fun _ => hts, ?_⟩
    · intro hpark
      cases hpark
    · intro hr
      rw [hpc'] at hr
      split at hr <;> cases hr
  | unlockRegistered hpc =>
    have hret : n.ret = 1 := by rw [h.ret, if_pos hpc]
    exact Agrees.unseen rfl (Agrees.onToPark (f := { f with ret := 1 }) h.locals (h.pc_at hpc) hret
      (h.untimed hpc))
  | timedOut now hpc hr =>
    have hn : n.pc = .checkDeadline := h.pc_at hpc
    have hdl := Agrees.deadline_eq h.locals
    simp only [WaitFrame.Phase, hpc] at hphase
    refine Agrees.seen rfl (.timedOut now hn (hdl ▸ hr)) (Agrees.breakLoop
      (f := { f with errno := cfg.errno.ETIMEDOUT, errnoIsSet := true, ret := 0 }) h.locals rfl rfl rfl
      fun _ => rfl)
  | notYet now hpc hr =>
    have hn : n.pc = .checkDeadline := h.pc_at hpc
    have hdl := Agrees.deadline_eq h.locals
    refine Agrees.seen rfl (.notYet now hn (hdl ▸ hr)) ⟨h.locals, by simp, rfl,
      h.ret_at hpc (by decide), fun _ => ?_, ?_, ?_⟩
    · show some (remaining cfg n.deadline now) = some (remaining cfg f.deadline now)
      rw [hdl]
    · intro hpark
      cases hpark
    · intro hreturned
      cases hreturned
  | parkFailed ret2 errno hpc hh =>
    have hn : n.pc = .park := h.pc_at hpc
    exact Agrees.seen rfl (.parkFailed ret2 errno hn hh) (Agrees.breakLoop
      (f := { f with errno := -ret2, errnoIsSet := true, ret := -1 }) h.locals rfl rfl rfl
      fun _ => rfl)
  | parked ret2 errno hpc hh =>
    have hn : n.pc = .park := h.pc_at hpc
    exact Agrees.seen rfl (.parked ret2 errno hn hh)
      (Agrees.looking h.locals (h.ret_at hpc (by decide)) rfl (.inl rfl))
  | lockForRelease hpc | lastUse hpc | notLastUse left hpc hl | removeItem errno hpc
  | unlockReleased hpc =>
    have hn : n.pc = .returned := h.pc_at hpc
    have herrno : n.errno = f.saveErrno := by
      rw [h.ended hn, WaitFrame.finalErrno, hpc]
      exact if_neg (by decide)
    exact Agrees.unseen rfl (Agrees.inTail h.locals hn (h.ret_at hpc (by decide)) (fun _ => rfl)
      (by simp) herrno)

end Forward

/-- Two calls of the same wait that have come equally far. -/
structure Linked (cfg : Platform) (f : WaitFrame V) (n : NativeFrame V) : Prop where
  agrees : Agrees f n
  inv : ∃ e dur errno₀ evs, WaitInv cfg e dur errno₀ evs f

theorem linked_start (cfg : Platform) (object : ℕ) (expected : V) (duration : Option Timespec)
    (success failure : MemoryOrder) (errno : ℤ) :
    Linked cfg (WaitFrame.start object expected duration success failure errno)
      (NativeFrame.start expected duration success failure errno) :=
  ⟨agrees_start object expected duration success failure errno, expected, duration, errno, [],
    waitInv_start cfg object expected duration success failure errno⟩

section Runs

variable [DecidableEq V] {cfg : Platform} {f f' : WaitFrame V} {n n' : NativeFrame V}

/-- What the native loop sees of a run of `atomic_wait_generic`. -/
def nativeTrace (cfg : Platform) (f : WaitFrame V) (evs : List (WaitEvent V)) : List (WaitEvent V) :=
  Lts.trace (atomicWaitGeneric cfg) WaitFrame.nativeView f evs

/-- A run of `atomic_wait_generic` is a run of the native loop. -/
theorem Linked.exec {evs : List (WaitEvent V)} (h : Linked cfg f n)
    (hreg : ∀ ev ∈ evs, ev.Registers) (hrun : Lts.exec (atomicWaitGeneric cfg) f evs = some f') :
    ∃ n', Lts.exec (atomicWaitExpected32 cfg) n (nativeTrace cfg f evs) = some n' ∧
      Linked cfg f' n' := by
  refine Lts.exec_forward WaitEvent.Registers ?_ hreg h hrun
  intro f n ev f' hev hlink hstep
  obtain ⟨hagrees, e, dur, errno₀, evs, hinv⟩ := hlink
  have hgen := atomicWaitGeneric_cases hstep
  obtain ⟨n', hn', hagrees'⟩ := agrees_step hagrees hinv hev hgen
  exact ⟨n', hn', hagrees', e, dur, errno₀, evs ++ [ev], hinv.step hgen⟩

/-! ### From the native loop to the generic one -/

/-- Where `atomic_wait_generic` has no access to make that the native loop does not see. -/
def WaitPc.settled : WaitPc → Bool
  | .entryClock | .loadTop | .reloadTop | .checkDeadline | .park | .returned => true
  | _ => false

/-- Where `atomic_wait_generic` is settled while the native loop stands at a program point. -/
def NativePc.generic : NativePc → WaitPc
  | .entryClock => .entryClock
  | .load => .loadTop
  | .reload => .reloadTop
  | .checkDeadline => .checkDeadline
  | .park => .park
  | .returned => .returned

theorem WaitPc.native_generic {pc : WaitPc} (h : pc.settled = true) (timed : Bool) :
    (pc.native timed).generic = pc := by
  cases pc <;> first | rfl | cases h

/-- Some accesses of `atomic_wait_generic` of which the native loop sees `bs` lead from `f` to `f'`. -/
def ShowsAs (cfg : Platform) (f f' : WaitFrame V) (bs : List (WaitEvent V)) : Prop :=
  ∃ evs, (∀ ev ∈ evs, ev.Registers) ∧ Lts.exec (atomicWaitGeneric cfg) f evs = some f' ∧
    nativeTrace cfg f evs = bs

theorem showsAs_refl (f : WaitFrame V) : ShowsAs cfg f f [] := ⟨[], nofun, rfl, rfl⟩

theorem GenericStep.showsAs {f₁ : WaitFrame V} {ev : WaitEvent V} {view bs : List (WaitEvent V)}
    (hs : GenericStep cfg f ev f₁) (hev : ev.Registers) (hview : f.nativeView ev = view)
    (h : ShowsAs cfg f₁ f' bs) : ShowsAs cfg f f' (view ++ bs) := by
  obtain ⟨evs, hreg, hrun, htrace⟩ := h
  refine ⟨ev :: evs, ?_, ?_, ?_⟩
  · intro x hx
    rcases List.mem_cons.mp hx with rfl | hx
    · exact hev
    · exact hreg x hx
  · rw [Lts.exec, hs.run]
    exact hrun
  · rw [nativeTrace, Lts.trace_cons _ hs.run, hview]
    exact congrArg (view ++ ·) htrace

variable (cfg) in
/-- The common tail returns and shows nothing. -/
theorem breakLoop_showsAs (f : WaitFrame V) :
    ∃ f', ShowsAs cfg f.breakLoop f' [] ∧ f'.pc = .returned := by
  -- the tail once the lock is held: another thread is still counted
  have held : ∀ g : WaitFrame V, g.pc = .decUseCount → ∃ f', ShowsAs cfg g f' [] ∧ f'.pc = .returned := by
    intro g hpc
    exact ⟨_, (GenericStep.notLastUse 1 hpc (by decide)).showsAs trivial rfl
      ((GenericStep.unlockReleased rfl).showsAs trivial rfl (showsAs_refl _)), rfl⟩
  by_cases hi : f.item = none
  · rw [WaitFrame.breakLoop_of_none hi]
    exact ⟨_, showsAs_refl _, rfl⟩
  · rw [WaitFrame.breakLoop_of_some hi]
    cases hl : f.lockIsHeld with
    | true => exact held _ rfl
    | false =>
      obtain ⟨f', hshows, hpc⟩ := held { f with
        lockIsHeld := false
        saveErrno := if f.errnoIsSet then f.errno else f.entryErrno
        pc := .decUseCount } rfl
      exact ⟨f', (GenericStep.lockForRelease rfl).showsAs trivial rfl hshows, hpc⟩

omit [DecidableEq V] in
theorem WaitFrame.onToPark_settled (f : WaitFrame V) : f.onToPark.pc.settled = true := by
  unfold onToPark
  split <;> rfl

omit [DecidableEq V] in
/-- A frame that is settled stands where the native loop stands. -/
theorem Agrees.settled_at (h : Agrees f n) (hset : f.pc.settled = true) {pc : NativePc}
    (hn : n.pc = pc) : f.pc = pc.generic := by
  rw [← hn, h.pc, WaitPc.native_generic hset]

/-- **Each step of the native loop is what it sees of some steps of `atomic_wait_generic`.** -/
theorem native_step_generic {b : WaitEvent V} (h : Linked cfg f n) (hset : f.pc.settled = true)
    (hs : NativeStep cfg n b n') : ∃ f', ShowsAs cfg f f' [b] ∧ f'.pc.settled = true := by
  obtain ⟨hagrees, e, dur, errno₀, evs, hinv⟩ := h
  have hexp := Agrees.expected_eq hagrees.locals
  have hdur := Agrees.duration_eq hagrees.locals
  have hdl := Agrees.deadline_eq hagrees.locals
  have hphase := hinv.phase
  -- a step into the tail, which then returns
  have ends : ∀ g : WaitFrame V, GenericStep cfg f b g.breakLoop → b.Registers →
      f.nativeView b = [b] → ∃ f', ShowsAs cfg f f' [b] ∧ f'.pc.settled = true := by
    intro g hgen hev hview
    obtain ⟨f', hshows, hpc⟩ := breakLoop_showsAs cfg g
    exact ⟨f', hgen.showsAs hev hview hshows, by rw [hpc]; rfl⟩
  -- one step that ends where it is settled again
  have once : ∀ g : WaitFrame V, GenericStep cfg f b g → b.Registers → f.nativeView b = [b] →
      g.pc.settled = true → ∃ f', ShowsAs cfg f f' [b] ∧ f'.pc.settled = true := by
    intro g hgen hev hview hg
    exact ⟨g, hgen.showsAs hev hview (showsAs_refl g), hg⟩
  -- a load that sees no change: the first time the registration comes between two looks
  have same : n.pc = .load → b = .load n.expected →
      ∃ f', ShowsAs cfg f f' [b] ∧ f'.pc.settled = true := by
    intro hn hb
    have hpc : f.pc = .loadTop := hagrees.settled_at hset hn
    rw [hb, hexp]
    by_cases hi : f.item = none
    · refine ⟨_, ?_, WaitFrame.onToPark_settled { f with
        item := some 0, errno := 0, itemCounter := 0, ret := 1, pc := .unlockRegistered }⟩
      exact (GenericStep.topFirst hpc hi).showsAs trivial (if_pos ⟨hpc, hi, rfl⟩)
        ((GenericStep.lockForRegister rfl).showsAs trivial rfl
          ((GenericStep.registered 0 0 rfl).showsAs (by simp [Registers]) rfl
            ((GenericStep.getCounter 0 rfl).showsAs trivial rfl
              ((GenericStep.lockedSame rfl).showsAs trivial (if_neg fun hc => by cases hc.1)
                ((GenericStep.unlockRegistered rfl).showsAs trivial rfl (showsAs_refl _))))))
    · exact ⟨_, (GenericStep.topAgain hpc hi).showsAs trivial (if_neg fun hc => hi hc.2.1)
        (showsAs_refl _), f.onToPark_settled⟩
  cases hs with
  | entry now duration hn hd =>
    have hpc : f.pc = .entryClock := hagrees.settled_at hset hn
    exact once _ (.entry now duration hpc (hdur ▸ hd)) trivial rfl rfl
  | changedReload v hn hv hrel =>
    have hpc : f.pc = .loadTop := hagrees.settled_at hset hn
    rw [hagrees.reloads_eq hpc (by decide)] at hrel
    exact once _ (.topChangedReload v hpc (hexp ▸ hv) hrel) trivial
      (if_neg fun hc => hv (hexp ▸ hc.2.2)) rfl
  | changed v hn hv hrel =>
    have hpc : f.pc = .loadTop := hagrees.settled_at hset hn
    rw [hagrees.reloads_eq hpc (by decide)] at hrel
    exact ends { f with expected := v } (.topChanged v hpc (hexp ▸ hv) hrel) trivial
      (if_neg fun hc => hv (hexp ▸ hc.2.2))
  | sameTimed hn hd => exact same hn rfl
  | same hn hd => exact same hn rfl
  | reload v hn =>
    have hpc : f.pc = .reloadTop := hagrees.settled_at hset hn
    exact ends f (.reloadTop v hpc) trivial rfl
  | timedOut now hn hr =>
    have hpc : f.pc = .checkDeadline := hagrees.settled_at hset hn
    exact ends _ (.timedOut now hpc (hdl ▸ hr)) trivial rfl
  | notYet now hn hr =>
    have hpc : f.pc = .checkDeadline := hagrees.settled_at hset hn
    exact once _ (.notYet now hpc (hdl ▸ hr)) trivial rfl rfl
  | parkFailed ret2 errno hn hh =>
    have hpc : f.pc = .park := hagrees.settled_at hset hn
    exact ends _ (.parkFailed ret2 errno hpc hh) trivial rfl
  | parked ret2 errno hn hh =>
    have hpc : f.pc = .park := hagrees.settled_at hset hn
    exact ⟨_, (GenericStep.parked ret2 errno hpc hh).showsAs trivial rfl
      ((GenericStep.getCounterAgain 0 rfl).showsAs trivial rfl (showsAs_refl _)), rfl⟩

/-- Every run of the native loop is what it sees of a run of `atomic_wait_generic`. -/
theorem Linked.exec_native {bs : List (WaitEvent V)} (h : Linked cfg f n)
    (hset : f.pc.settled = true) (hrun : Lts.exec (atomicWaitExpected32 cfg) n bs = some n') :
    ∃ evs f', (∀ ev ∈ evs, ev.Registers) ∧ Lts.exec (atomicWaitGeneric cfg) f evs = some f' ∧
      nativeTrace cfg f evs = bs ∧ Linked cfg f' n' ∧ f'.pc.settled = true := by
  refine Lts.exec_backward WaitEvent.Registers
    (R := fun f n => Linked cfg f n ∧ f.pc.settled = true) ?_ ⟨h, hset⟩ hrun
  intro f n b n' hR hstep
  obtain ⟨f', ⟨evs, hreg, hrun, htrace⟩, hset'⟩ :=
    native_step_generic hR.1 hR.2 (atomicWaitExpected32_cases hstep)
  obtain ⟨n'', hn'', hlink⟩ := hR.1.exec hreg hrun
  have heq : n'' = n' := by
    rw [htrace, Lts.exec, hstep] at hn''
    exact (Option.some.inj hn'').symm
  exact ⟨evs, f', hreg, hrun, htrace, heq ▸ hlink, hset'⟩

/-! ### The two have the same runs -/

/-- What an observer sees of a call: what it has handed back, or the timeout of the park call it is
about to make. -/
inductive WaitView (V : Type)
  | returned (r : WaitResult V)
  | parks (expected : V) (timeout : Option Timespec)

def NativeFrame.view (n : NativeFrame V) : Option (WaitView V) :=
  match n.pc with
  | .returned => some (.returned ⟨n.ret, n.expected, n.errno⟩)
  | .park => some (.parks n.expected n.tsRemaining)
  | _ => none

def WaitFrame.view (f : WaitFrame V) : Option (WaitView V) :=
  match f.pc with
  | .returned => some (.returned ⟨f.ret, f.expected, f.errno⟩)
  | .park => some (.parks f.expected f.tsRemaining)
  | _ => none

omit [DecidableEq V] in
/-- What an observer sees of calls that are linked. -/
theorem Linked.view_eq (h : Linked cfg f n) (hset : f.pc.settled = true ∨ f.view ≠ none) :
    n.view = f.view := by
  obtain ⟨hagrees, -⟩ := h
  have hexp := Agrees.expected_eq hagrees.locals
  cases hpc : f.pc with
  | returned =>
    have hn : n.pc = .returned := hagrees.pc_at hpc
    have hret := hagrees.ret_at hpc (by decide)
    have herrno : n.errno = f.errno := by
      rw [hagrees.ended hn, WaitFrame.finalErrno, if_pos hpc]
    simp only [NativeFrame.view, hn, WaitFrame.view, hpc, hret, hexp, herrno]
  | park =>
    have hn : n.pc = .park := hagrees.pc_at hpc
    simp only [NativeFrame.view, hn, WaitFrame.view, hpc, hexp, hagrees.tsRemaining hpc]
  | entryClock | loadTop | reloadTop | checkDeadline =>
    have hn := hagrees.pc_at hpc
    simp only [WaitPc.native] at hn
    simp only [NativeFrame.view, hn, WaitFrame.view, hpc]
  | _ => simp [WaitFrame.view, hpc, WaitPc.settled] at hset

/-- **The two implementations of a wait are the same for their callers.** Whatever the native loop has
loaded, read off the clock and been told by its park calls when it returns, or when it is about to park,
`atomic_wait_generic` has seen the same on some run on which its registration did not fail, and has the same
result, the same `errno` and the same timeout to park with; and the other way round. -/
theorem generic_agrees_native (object : ℕ) (expected : V) (duration : Option Timespec)
    (success failure : MemoryOrder) (errno : ℤ) (bs : List (WaitEvent V)) (v : WaitView V) :
    (∃ n, Lts.exec (atomicWaitExpected32 cfg) (.start expected duration success failure errno) bs
        = some n ∧ n.view = some v) ↔
    ∃ evs f, (∀ ev ∈ evs, ev.Registers) ∧
      Lts.exec (atomicWaitGeneric cfg) (.start object expected duration success failure errno) evs
        = some f ∧
      nativeTrace cfg (.start object expected duration success failure errno) evs = bs ∧
      f.view = some v := by
  have hstart := linked_start cfg object expected duration success failure errno
  constructor
  · rintro ⟨n, hrun, hview⟩
    have hset : (WaitFrame.start object expected duration success failure errno).pc.settled = true := by
      cases duration <;> rfl
    obtain ⟨evs, f, hreg, hrun', htrace, hlink, hset'⟩ := hstart.exec_native hset hrun
    exact ⟨evs, f, hreg, hrun', htrace, (hlink.view_eq (.inl hset')).symm.trans hview⟩
  · rintro ⟨evs, f, hreg, hrun, htrace, hview⟩
    obtain ⟨n, hrun', hlink⟩ := hstart.exec hreg hrun
    refine ⟨n, htrace ▸ hrun', (hlink.view_eq (.inr ?_)).trans hview⟩
    rw [hview]
    exact nofun

end Runs

end AtomicWaits
