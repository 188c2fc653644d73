import AtomicWaits.NoLostWake
import AtomicWaits.ProxyLifetime
import AtomicWaits.ExitBound

/-!
# The system can always come to rest

No state of the threads over the proxy table is a dead end. From every reachable one it is enough that the
objects change and that all their waiters are notified: every call can then return, and leave the table, its
lock and the heap as they were at the start. No timeout, no spurious return and no failure is needed for it.

* `wait_advances`, `notify_advances`: a thread that is in a call, and that no other thread keeps from the
  lock, can make a step on its own that brings it nearer to its return, unless it is suspended.
* `Telling`: a notify of all the waiters ends the suspension of each, for good.
* `Responsive.drains`: the holder of the lock goes first, then the notifies, then the waits in any order.
* `system_drains`: so it is on both kinds of proxy.
-/

namespace AtomicWaits

open Lib

variable {ι κ V X : Type} {K : ProxyKind X} {cfg : Platform} {s s' : Sys ι κ V X}

/-! ### What it takes of a proxy -/

/-- With at most `n` uses, a thread that a wake of all has reached does not go back to sleep, and a wake asks
for no more threads than are suspended. -/
structure ProxyKind.Responsive (K : ProxyKind X) (n : ℕ) : Prop where
  resumes : ∀ x (uses : ℤ), 0 < uses → uses ≤ n → (K.resume (K.wake x wakeAll uses) 0).2 ≠ none
  wakeCount_le : ∀ k m, K.wakeCount k m ≤ m

theorem counterProxy_responsive (cfg : Platform) (n : ℕ) : (counterProxy cfg).Responsive n := by
  refine ⟨fun x uses _ _ => Option.some_ne_none 0, fun k m => ?_⟩
  show (if k = wakeAll then m else min k.toNat m) ≤ m
  split
  · exact le_rfl
  · exact min_le_right _ _

/-- The tokens a wake of all leaves are those of an `int`. -/
theorem pthreadProxy_responsive (cfg : Platform) (monotonic : Bool) {n : ℕ} (hn : n < 2 ^ 31) :
    (pthreadProxy cfg monotonic).Responsive n := by
  refine ⟨fun x uses hpos hle => ?_, fun k m => ?_⟩
  · have hpending : pthreadProxyPending cfg x.pending wakeAll uses = uses := by
      simp only [pthreadProxyPending, if_pos hpos, if_true]
      exact wrapInt_of_mem (by decide) (by omega) (by omega)
    show ((x.wake cfg wakeAll uses).resume cfg 0).2 ≠ none
    rw [PthreadProxy.resume, PthreadProxy.wake, if_pos rfl]
    dsimp only
    rw [hpending, if_pos hpos]
    exact Option.some_ne_none 0
  · show (if k = 1 then min 1 m else m) ≤ m
    split
    · exact min_le_right _ _
    · exact le_rfl

/-! ### How far a thread is from its return -/

/-- A suspension lies between the park call and what follows it, and one that has ended may be taken up
again. -/
def WaitThread.rank (t : WaitThread V) (resumes : Bool) : ℕ :=
  match t with
  | .idle => 0
  | .running f => 4 * f.pc.left
  | .blocked _ => 30
  | .woken _ _ => if resumes then 29 else 31

def NotifyPc.rank : NotifyPc → ℕ
  | .returned => 0
  | .unlock => 1
  | .signal => 2
  | .wake => 3
  | .findOrCreate => 4
  | .lock => 5

@[simp] theorem WaitThread.wake_isFree (t : WaitThread V) : t.wake.isFree = t.isFree := by
  cases t <;> rfl

/-! ### Closing down -/

/-- Objects change and all their waiters are notified; the calls go on, and no suspension ends otherwise. -/
def Action.isClosing : Action ι κ V → Bool
  | .callNotify _ _ maxThreads _ => maxThreads = wakeAll
  | .callWait _ _ _ _ _ _ _ | .parkFails _ _ | .unblock _ _ => false
  | .store _ _ | .wait _ _ | .park _ | .resume _ | .notify _ _ _ => true

section System

variable [DecidableEq ι] [DecidableEq κ] [DecidableEq V] [Fintype ι]

variable (ι κ V K cfg) in
def closingSystem : Lts (Sys ι κ V X) (Action ι κ V) :=
  (waitSystem ι κ V K cfg).restrict fun _ a => a.isClosing = true

theorem reachable_of_closing (hr : (waitSystem ι κ V K cfg).Reachable s)
    (h : (closingSystem ι κ V K cfg).Steps s s') : (waitSystem ι κ V K cfg).Reachable s' :=
  hr.steps (h.lift id fun _ _ hn => hn.imp fun _ ha => ha.1)

variable {i : ι} {f f' : WaitFrame V} {ev : WaitEvent V} {sh : Shared V X} {env : StepEnv} {ret : ℤ}

/-! ### Alone with the lock -/

/-- The thread is in no call. -/
def Sys.Rest (s : Sys ι κ V X) : ι ⊕ κ → Prop
  | .inl i => (s.waits i).isFree = true
  | .inr j => (s.notifies j).pc = .returned

omit [DecidableEq ι] [DecidableEq κ] [DecidableEq V] [Fintype ι] in
theorem Sys.Rest.not_holds {a : ι ⊕ κ} (h : s.Rest a) : (s.registry.role a).holds = false := by
  cases a with
  | inl i =>
    show (s.waits i).role.holds = false
    rw [WaitThread.role_of_isFree h]
    rfl
  | inr j =>
    have hpc : (s.notifies j).pc = .returned := h
    show (s.notifies j).role.holds = false
    simp only [NotifyFrame.role, hpc]
    rfl

/-- Only `a` holds the lock, if anyone does. -/
def Sys.Alone (s : Sys ι κ V X) (a : ι ⊕ κ) : Prop := ∀ b, s.holdsLock b = true → b = a

omit [DecidableEq ι] [DecidableEq κ] [DecidableEq V] in
/-- A thread that no other keeps from the lock finds it free. -/
theorem lock_free_of_alone [Fintype κ] (hinv : SysInv s) {a : ι ⊕ κ}
    (halone : s.Alone a) (ha : (s.registry.role a).holds = false) :
    s.shared.lock = false := by
  cases hl : s.shared.lock with
  | false => rfl
  | true =>
    obtain ⟨b, hb⟩ := hinv.registry.lock.lock_iff.mp hl
    rw [halone b hb, ha] at hb
    cases hb

omit [DecidableEq ι] [DecidableEq κ] [DecidableEq V] in
theorem Sys.Rest.unlocked [Fintype κ] (hinv : SysInv s) {a : ι ⊕ κ} (halone : s.Alone a)
    (ha : s.Rest a) : s.shared.lock = false :=
  lock_free_of_alone hinv halone ha.not_holds

omit [DecidableEq κ] [DecidableEq V] [Fintype ι] in
/-- A step of the wait `i` alone leaves the other threads as they were. -/
theorem Sys.Alone.setWait (h : s.Alone (.inl i)) (sh : Shared V X) (t : WaitThread V) :
    ({ s with shared := sh }.setWait i t).Alone (.inl i) := by
  intro b hb
  by_contra hne
  refine hne (h b ?_)
  rw [← hb]
  cases b with
  | inl k =>
    have hk : k ≠ i := fun hk => hne (by rw [hk])
    show (s.waits k).role.holds = (Function.update s.waits i t k).role.holds
    rw [Function.update_of_ne hk]
  | inr j => rfl

omit [DecidableEq κ] [DecidableEq V] [Fintype ι] in
theorem Sys.Rest.setWait {b : ι ⊕ κ} (h : s.Rest b) (hb : b ≠ .inl i) (sh : Shared V X)
    (t : WaitThread V) : ({ s with shared := sh }.setWait i t).Rest b := by
  cases b with
  | inl k =>
    have hk : k ≠ i := fun hk => hb (by rw [hk])
    show (Function.update s.waits i t k).isFree = true
    rw [Function.update_of_ne hk]
    exact h
  | inr j => exact h

/-! ### One step -/

/-- The thread `i` makes a step that disturbs no other thread and no object, and leads to `t`. -/
def Sys.StepsTo (K : ProxyKind X) (cfg : Platform) (s : Sys ι κ V X) (i : ι) (t : WaitThread V) : Prop :=
  ∃ (a : Action ι κ V) (sh : Shared V X), a.isClosing = true ∧ sh.mem = s.shared.mem ∧
    sysStep K cfg s a = some ({ s with shared := sh }.setWait i t)

/-- The notify `j` makes a step to `t` that disturbs no other call: the threads it wakes stay in theirs. -/
def Sys.StepsNotify (K : ProxyKind X) (cfg : Platform) (s : Sys ι κ V X) (j : κ) (t : Sys ι κ V X) :
    Prop :=
  (∃ alloc woken, sysStep K cfg s (.notify j alloc woken) = some t) ∧
    t.shared.mem = s.shared.mem ∧ (∀ k, k ≠ j → t.notifies k = s.notifies k) ∧
    ∀ i, t.waits i = s.waits i ∨ t.waits i = (s.waits i).wake

theorem stepsTo_access (hi : s.waits i = .running f) (hacc : s.shared.access K cfg f env = some (ev, sh))
    (hgen : GenericStep cfg f ev f') : s.StepsTo K cfg i (.running f') := by
  refine ⟨.wait i env, sh, rfl, (Shared.access_mem hacc).1, ?_⟩
  simp only [sysStep, hi, hacc, Option.bind_some, hgen.run, Option.map_some]

variable (cfg) in
omit [DecidableEq κ] [Fintype ι] in
/-- A section of a park call ends with `r`: the thread sleeps, or the call returns. -/
theorem settle_steps (t : Sys ι κ V X) (i : ι) (hpc : f.pc = .park) (r : Option ℤ) :
    ∃ t', t.settle cfg i f r = some (t.setWait i t') ∧
      (t' = .blocked f ∧ r = none ∨
        ∃ ret2 f', t' = .running f' ∧ GenericStep cfg f (.park ret2 f.errno) f') := by
  cases r with
  | none => exact ⟨.blocked f, rfl, .inl ⟨rfl, rfl⟩⟩
  | some ret2 =>
    have hgen : ∃ f', GenericStep cfg f (.park ret2 f.errno) f' := by
      by_cases hh : HardError cfg.errno ret2
      · exact ⟨_, .parkFailed ret2 f.errno hpc hh⟩
      · exact ⟨_, .parked ret2 f.errno hpc hh⟩
    obtain ⟨f', hgen⟩ := hgen
    refine ⟨.running f', ?_, .inr ⟨ret2, f', rfl, hgen⟩⟩
    simp only [Sys.settle, hgen.run, Option.map_some]

/-- Whether the park call of the thread `i`, whose suspension has ended, will return. -/
def Sys.resumes (K : ProxyKind X) (s : Sys ι κ V X) (i : ι) : Bool :=
  match s.waits i with
  | .woken f ret => ((s.shared.proxyCall f.item fun x => K.resume x ret).2).isSome
  | _ => false

variable (K cfg) in
omit [DecidableEq ι] [DecidableEq κ] [Fintype ι] in
/-- A wait can make its next access when it finds the lock free where it takes it. -/
theorem access_enabled (hwf : FrameWf f) (htable : TableWf sh.store.table)
    (htimed : f.pc = .entryClock → f.duration ≠ none)
    (hlock : f.pc = .lockForRegister ∨ f.pc = .lockForRelease → sh.lock = false) (hpark : f.pc ≠ .park)
    (hret : f.pc ≠ .returned) :
    ∃ ev sh' f', sh.access K cfg f .quiet = some (ev, sh') ∧ GenericStep cfg f ev f' := by
  have enabled : ∀ ev sh', sh.access K cfg f .quiet = some (ev, sh') →
      (atomicWaitGeneric cfg f ev).isSome = true →
      ∃ ev sh' f', sh.access K cfg f .quiet = some (ev, sh') ∧ GenericStep cfg f ev f' := by
    intro ev sh' hacc hsome
    obtain ⟨f', hf'⟩ := Option.isSome_iff_exists.mp hsome
    exact ⟨ev, sh', f', hacc, atomicWaitGeneric_cases hf'⟩
  cases hpc : f.pc with
  | park => exact absurd hpc hpark
  | returned => exact absurd hpc hret
  | entryClock =>
    obtain ⟨d, hd⟩ := Option.ne_none_iff_exists'.mp (htimed hpc)
    refine enabled _ _ (by simp only [Shared.access, hpc]; rfl) ?_
    simp only [atomicWaitGeneric, hpc, hd, Option.isSome_some]
  | lockForRegister | lockForRelease =>
    have hfree : sh.lock = false := hlock (by simp [hpc])
    refine enabled .lock { sh with lock := true } ?_ ?_
    · simp only [Shared.access, hpc, hfree, Bool.false_eq_true, if_false]
    · simp only [atomicWaitGeneric, hpc, Option.isSome_some]
  | findOrCreate =>
    obtain ⟨r, hr, -⟩ :=
      hashTableFindOrCreate_cases K cfg.errno AllocEnv.plenty f.errno htable hwf.live true
    refine enabled (.findOrCreate r.item r.errno) { sh with store := r.store } ?_ ?_
    · simp only [Shared.access, hpc]
      exact congrArg _ hr
    · simp only [atomicWaitGeneric, hpc, Option.isSome_some]
  | loadTop | loadLocked =>
    refine enabled (.load (sh.mem f.object)) sh (by simp only [Shared.access, hpc]) ?_
    simp only [atomicWaitGeneric, hpc]
    split
    · rfl
    · rfl
  | checkDeadline =>
    refine enabled _ _ (by simp only [Shared.access, hpc]; rfl) ?_
    simp only [atomicWaitGeneric, hpc]
    split
    · rfl
    · rfl
  | reloadTop | reloadLocked | unlockFailed | unlockRegistered | unlockReleased | getCounter
  | getCounterAgain | decUseCount | removeItem =>
    refine enabled _ _ (by simp only [Shared.access, hpc]; rfl) ?_
    simp only [atomicWaitGeneric, hpc, Option.isSome_some]

/-- **A wait that no other thread keeps from the lock, and whose object has changed, can go on.** -/
theorem wait_advances [Fintype κ] (hinv : SysInv s)
    (htimed : s.Frames fun f => f.pc = .entryClock → f.duration ≠ none) (halone : s.Alone (.inl i))
    (hbusy : (s.waits i).isFree = false) (hawake : ∀ f, s.waits i ≠ .blocked f)
    (hfreed : ∀ f, (s.waits i).frame = some f → f.Freed s.shared.mem) :
    ∃ t, s.StepsTo K cfg i t ∧ (∀ b, t.rank b < (s.waits i).rank (s.resumes K i)) ∧
      ∀ f, t.frame = some f → f.Freed s.shared.mem := by
  have asleep : ∀ f : WaitFrame V, f.Freed s.shared.mem →
      ∀ g, (WaitThread.blocked f).frame = some g → g.Freed s.shared.mem := by
    intro f hf g hg
    cases hg
    exact hf
  have awake : ∀ (f f' : WaitFrame V) ev, f.Freed s.shared.mem → GenericStep cfg f ev f' →
      ∀ g, (WaitThread.running f').frame = some g → g.Freed s.shared.mem := by
    intro f f' ev hf hgen g hg
    cases hg
    exact hgen.freed hf
  cases hi : s.waits i with
  | idle =>
    rw [hi] at hbusy
    cases hbusy
  | blocked f => exact absurd hi (hawake f)
  | woken f r =>
    have hf := hfreed f (by rw [hi]; rfl)
    have hpc := (hinv.frames.woken hi).2
    have hresumes : s.resumes K i = ((s.shared.proxyCall f.item fun x => K.resume x r).2).isSome := by
      simp only [Sys.resumes, hi]
    obtain ⟨t, hset, ht⟩ := settle_steps cfg { s with
      shared := (s.shared.proxyCall f.item fun x => K.resume x r).1 } i hpc
      (s.shared.proxyCall f.item fun x => K.resume x r).2
    refine ⟨t, ⟨.resume i, (s.shared.proxyCall f.item fun x => K.resume x r).1, rfl, rfl, ?_⟩, ?_⟩
    · simp only [sysStep, hi]
      exact hset
    · rcases ht with ⟨rfl, hnone⟩ | ⟨ret2, f', rfl, hgen⟩
      · refine ⟨fun b => ?_, asleep f hf⟩
        show 30 < if s.resumes K i = true then 29 else 31
        rw [hresumes, hnone]
        decide
      · have hlt := hgen.left_lt (fun hev => by cases hev)
        have hleft : f'.pc.left < 8 := by
          rw [hpc] at hlt
          exact hlt
        refine ⟨fun b => ?_, awake f f' _ hf hgen⟩
        show 4 * f'.pc.left < if s.resumes K i = true then 29 else 31
        split <;> omega
  | running f =>
    have hf := hfreed f (by rw [hi]; rfl)
    have hret : f.pc ≠ .returned := by
      rw [hi] at hbusy
      simpa [WaitThread.isFree] using hbusy
    by_cases hpc : f.pc = .park
    · obtain ⟨t, hset, ht⟩ := settle_steps cfg { s with
        shared := (s.shared.proxyCall f.item fun x => K.enter x f.itemCounter).1 } i hpc
        (s.shared.proxyCall f.item fun x => K.enter x f.itemCounter).2
      refine ⟨t, ⟨.park i, (s.shared.proxyCall f.item fun x => K.enter x f.itemCounter).1, rfl, rfl,
        ?_⟩, ?_⟩
      · simp only [sysStep, hi, hpc, if_true]
        exact hset
      · rcases ht with ⟨rfl, -⟩ | ⟨ret2, f', rfl, hgen⟩
        · refine ⟨fun b => ?_, asleep f hf⟩
          show 30 < 4 * f.pc.left
          rw [hpc]
          decide
        · have hlt := hgen.left_lt (fun hev => by cases hev)
          exact ⟨fun b => Nat.mul_lt_mul_of_pos_left hlt (by decide), awake f f' _ hf hgen⟩
    · -- the lock is free where the thread has not got it
      have hlock : f.pc = .lockForRegister ∨ f.pc = .lockForRelease → s.shared.lock = false := by
        intro hpc
        refine lock_free_of_alone hinv halone ?_
        show (s.waits i).role.holds = false
        rw [hi]
        show f.role.holds = false
        rcases hpc with hpc | hpc
        · simp only [WaitFrame.role, hpc, WaitFrame.outside]
          cases f.item <;> rfl
        · simp only [WaitFrame.role, hpc, WaitFrame.outside]
          cases f.item <;> rfl
      obtain ⟨ev, sh, f', hacc, hgen⟩ := access_enabled K cfg (hinv.frames.running hi)
        hinv.registry.wf.table (htimed i f (by rw [hi]; rfl)) hlock hpc hret
      have hlt := hgen.left_lt (hf.ev_ne hgen (Shared.access_mem hacc).2)
      exact ⟨.running f', stepsTo_access hi hacc hgen,
        fun b => Nat.mul_lt_mul_of_pos_left hlt (by decide), awake f f' ev hf hgen⟩

/-- **A notify that no other thread keeps from the lock can go on.** -/
theorem notify_advances [Fintype κ] {j : κ} {n : ℕ} (hinv : SysInv s) (hK : K.Responsive n)
    (halone : s.Alone (.inr j)) (hbusy : (s.notifies j).pc ≠ .returned) :
    ∃ t, s.StepsNotify K cfg j t ∧ (t.notifies j).pc.rank < (s.notifies j).pc.rank := by
  have signalled : ∀ (t : Sys ι κ V X) (woken : Finset ι), t.waits = s.waits →
      ∀ i, (t.signal woken).waits i = s.waits i ∨ (t.signal woken).waits i = (s.waits i).wake := by
    intro t woken ht i
    show (if i ∈ woken then (t.waits i).wake else t.waits i) = s.waits i ∨
      (if i ∈ woken then (t.waits i).wake else t.waits i) = (s.waits i).wake
    rw [ht]
    split
    · exact .inr rfl
    · exact .inl rfl
  -- all the threads that sleep on the proxy
  have cansignal : s.CanSignal K (s.notifies j).item (s.notifies j).maxThreads
      (s.blockedOn (s.notifies j).item) := ⟨Finset.Subset.refl _, hK.wakeCount_le _ _⟩
  have step : ∃ (t : Sys ι κ V X) (f : NotifyFrame) (woken : Finset ι),
      s.notifyStep K cfg j (s.notifies j) .plenty woken = some (t.setNotify j f) ∧
      f.pc.rank < (s.notifies j).pc.rank ∧ t.shared.mem = s.shared.mem ∧ t.notifies = s.notifies ∧
      ∀ i, t.waits i = s.waits i ∨ t.waits i = (s.waits i).wake := by
    cases hpc : (s.notifies j).pc with
    | returned => exact absurd hpc hbusy
    | lock =>
      have hfree : s.shared.lock = false := by
        refine lock_free_of_alone hinv halone ?_
        show (s.notifies j).role.holds = false
        simp only [NotifyFrame.role, hpc]
        rfl
      refine ⟨{ s with shared := { s.shared with lock := true } },
        { s.notifies j with pc := .findOrCreate }, ∅, ?_, Nat.lt_succ_self _, rfl, rfl, fun _ => .inl rfl⟩
      simp only [Sys.notifyStep, hpc, hfree, Bool.false_eq_true, if_false]
    | findOrCreate =>
      have hlive := (hinv.frames.notifies j).live hbusy
      obtain ⟨r, hr, -⟩ := hashTableFindOrCreate_cases K cfg.errno AllocEnv.plenty (s.notifies j).errno
        hinv.registry.wf.table hlive false
      have hr' : hashTableFindOrCreate K cfg.errno s.shared.store (s.notifies j).object false .plenty
          (s.notifies j).errno = some r := hr
      refine ⟨{ s with shared := { s.shared with store := r.store } },
        { s.notifies j with
          item := r.item, errno := r.errno, pc := if r.item = none then .unlock else .wake }, ∅, ?_,
        ?_, rfl, rfl, fun _ => .inl rfl⟩
      · simp only [Sys.notifyStep, hpc, hr', Option.map_some]
      · show NotifyPc.rank (if r.item = none then .unlock else .wake) < 4
        split
        · decide
        · decide
    | wake =>
      cases hk : K.wakesAtOnce with
      | true =>
        refine ⟨{ s with shared := s.shared.wakeProxy K (s.notifies j).item (s.notifies j).maxThreads
          }.signal (s.blockedOn (s.notifies j).item), { s.notifies j with pc := .unlock },
          s.blockedOn (s.notifies j).item, ?_, ?_, rfl, rfl, signalled _ _ rfl⟩
        · simp only [Sys.notifyStep, hpc, hk, if_true, cansignal]
        · show 1 < 3
          decide
      | false =>
        refine ⟨{ s with shared := s.shared.wakeProxy K (s.notifies j).item (s.notifies j).maxThreads },
          { s.notifies j with pc := .signal }, ∅, ?_, Nat.lt_succ_self _, rfl, rfl, fun _ => .inl rfl⟩
        simp only [Sys.notifyStep, hpc, hk, Bool.false_eq_true, if_false]
    | signal =>
      refine ⟨s.signal (s.blockedOn (s.notifies j).item), { s.notifies j with pc := .unlock },
        s.blockedOn (s.notifies j).item, ?_, Nat.lt_succ_self _, rfl, rfl, signalled _ _ rfl⟩
      simp only [Sys.notifyStep, hpc, cansignal, if_true]
    | unlock =>
      refine ⟨{ s with shared := { s.shared with lock := false } },
        { s.notifies j with pc := .returned }, ∅, ?_, Nat.lt_succ_self _, rfl, rfl, fun _ => .inl rfl⟩
      simp only [Sys.notifyStep, hpc]
  obtain ⟨t, f, woken, hstep, hrank, hmem, hnotifies, hwaits⟩ := step
  refine ⟨t.setNotify j f, ⟨⟨.plenty, woken, hstep⟩, hmem, ?_, hwaits⟩, ?_⟩
  · intro k hk
    show Function.update t.notifies j f k = _
    rw [Function.update_of_ne hk, hnotifies]
  · show (Function.update t.notifies j f j).pc.rank < _
    rw [Function.update_self]
    exact hrank

theorem Sys.StepsNotify.alone {j : κ} {t : Sys ι κ V X} (h : s.StepsNotify K cfg j t)
    (halone : s.Alone (.inr j)) : t.Alone (.inr j) := by
  obtain ⟨-, -, hnotifies, hwaits⟩ := h
  intro b hb
  by_contra hne
  refine hne (halone b ?_)
  rw [← hb]
  cases b with
  | inl i =>
    show (s.waits i).role.holds = (t.waits i).role.holds
    rcases hwaits i with heq | heq
    · rw [heq]
    · rw [heq, WaitThread.wake_role]
  | inr k =>
    show (s.notifies k).role.holds = (t.notifies k).role.holds
    rw [hnotifies k fun hk => hne (by rw [hk])]

theorem Sys.StepsNotify.rest {j : κ} {t : Sys ι κ V X} (h : s.StepsNotify K cfg j t) {b : ι ⊕ κ}
    (hb : b ≠ .inr j) (hrest : s.Rest b) : t.Rest b := by
  obtain ⟨-, -, hnotifies, hwaits⟩ := h
  cases b with
  | inl i =>
    have hi : (s.waits i).isFree = true := hrest
    show (t.waits i).isFree = true
    rcases hwaits i with heq | heq
    · rw [heq, hi]
    · rw [heq, WaitThread.wake_isFree, hi]
  | inr k =>
    show (t.notifies k).pc = .returned
    rw [hnotifies k fun hk => hb (by rw [hk])]
    exact hrest

/-! ### A notify of all ends a suspension -/

/-- A thread that a wake has reached leaves its park call. -/
def Shared.Ready (K : ProxyKind X) (sh : Shared V X) (f : WaitFrame V) : Prop :=
  ((sh.proxyCall f.item fun x => K.resume x 0).2).isSome = true

/-- How far a notify of all has come with a wait that was suspended. -/
inductive TellPhase (K : ProxyKind X) (sh : Shared V X) (f : WaitFrame V) :
    WaitThread V → NotifyPc → Prop
  | asked (pc : NotifyPc) : pc = .lock ∨ pc = .findOrCreate ∨ pc = .wake →
      TellPhase K sh f (.blocked f) pc
  | posted : sh.Ready K f → TellPhase K sh f (.blocked f) .signal
  | told (pc : NotifyPc) : pc = .unlock ∨ pc = .returned → sh.Ready K f →
      TellPhase K sh f (.woken f 0) pc

section TellPhase

variable {t : WaitThread V} {pc : NotifyPc}

omit [DecidableEq V]

theorem TellPhase.blocked (h : TellPhase K sh f t pc) (hpc : pc ≠ .unlock) (hpc' : pc ≠ .returned) :
    t = .blocked f := by
  cases h with
  | asked _ _ => rfl
  | posted _ => rfl
  | told _ htold _ => exact absurd htold (not_or.mpr ⟨hpc, hpc'⟩)

theorem TellPhase.woken (h : TellPhase K sh f t pc) (hpc : pc = .unlock ∨ pc = .returned) :
    t = .woken f 0 := by
  cases h with
  | asked _ hasked => rcases hpc with rfl | rfl <;> simp at hasked
  | posted _ => simp at hpc
  | told _ _ _ => rfl

theorem TellPhase.ready (h : TellPhase K sh f t pc) (hpc : pc = .signal ∨ pc = .unlock ∨ pc = .returned) :
    sh.Ready K f := by
  cases h with
  | asked _ hasked => rcases hpc with rfl | rfl | rfl <;> simp at hasked
  | posted hr => exact hr
  | told _ _ hr => exact hr

end TellPhase

/-- The notify `j` tells everyone that waits on the object of `f`. -/
structure Telling (K : ProxyKind X) (i : ι) (j : κ) (f : WaitFrame V) (s : Sys ι κ V X) : Prop where
  object : (s.notifies j).object = f.object
  all : (s.notifies j).maxThreads = wakeAll
  phase : TellPhase K s.shared f (s.waits i) (s.notifies j).pc

omit [DecidableEq ι] [DecidableEq κ] [DecidableEq V] in
/-- A suspended wait is counted on its proxy. -/
theorem suspended_cell [Fintype κ] (hinv : SysInv s) (hi : s.waits i = .blocked f) :
    ∃ p w, f.item = some p ∧ s.shared.store.table.entry f.object = some p ∧
      s.shared.store.heap.cell p = some w ∧ 0 < w.useCount ∧ w.useCount ≤ (Fintype.card ι : ℕ) := by
  obtain ⟨p, hp, he, hreg⟩ := hinv.committed_registered (i := i) (f := f) (by rw [hi]; rfl)
  obtain ⟨w, hw, hcount⟩ := hinv.lifetime.useCount f.object p he
  have hmem : i ∈ Finset.univ.filter fun i => (s.waits i).registeredOn = some f.object := by
    refine Finset.mem_filter.mpr ⟨Finset.mem_univ i, ?_⟩
    show (s.waits i).role.registered.map Prod.fst = some f.object
    rw [show (s.waits i).role.registered = some (f.object, p) from hreg]
    rfl
  have hpos := Finset.card_pos.mpr ⟨i, hmem⟩
  have hle := Finset.card_le_univ (Finset.univ.filter fun i => (s.waits i).registeredOn = some f.object)
  exact ⟨p, w, hp, he, hw, by omega, by omega⟩

omit [DecidableEq κ] [DecidableEq V] in
/-- The suspended wait is woken when all the threads on its proxy are. -/
theorem signal_wakes {t : Sys ι κ V X} (ht : t.waits = s.waits) {p : Option ℕ}
    (hi : s.waits i = .blocked f) (hp : f.item = p) :
    (t.signal (s.blockedOn p)).waits i = .woken f 0 := by
  have hmem : i ∈ s.blockedOn p := by
    refine Finset.mem_filter.mpr ⟨Finset.mem_univ i, ?_⟩
    rw [hi]
    simp [WaitThread.blockedOn, hp]
  show (if i ∈ s.blockedOn p then (t.waits i).wake else t.waits i) = _
  rw [if_pos hmem, ht, hi]
  rfl

omit [DecidableEq ι] [DecidableEq κ] [DecidableEq V] in
/-- A wake of all leaves the proxy such that the thread will leave its park call. -/
theorem ready_of_wake [Fintype κ] (hinv : SysInv s) (hK : K.Responsive (Fintype.card ι))
    (hi : s.waits i = .blocked f) : (s.shared.wakeProxy K f.item wakeAll).Ready K f := by
  obtain ⟨p, w, hp, -, hw, hpos, hle⟩ := suspended_cell hinv hi
  have hread : (s.shared.wakeProxy K f.item wakeAll).store.heap.read f.item
      = some { w with atomic := K.wake w.atomic wakeAll w.useCount } := by
    rw [hp]
    show (s.shared.store.heap.modifyOpt (some p) _).cell p = _
    rw [ProxyHeap.modifyOpt_cell, if_pos rfl, hw]
    rfl
  show (((s.shared.wakeProxy K f.item wakeAll).store.heap.read f.item).bind fun w =>
    (K.resume w.atomic 0).2).isSome = true
  rw [hread, Option.bind_some, Option.isSome_iff_ne_none]
  exact hK.resumes w.atomic w.useCount hpos hle

omit [DecidableEq V] in
/-- **Each step of the notify brings it on.** -/
theorem Telling.step [Fintype κ] {j : κ} {alloc : AllocEnv} {woken : Finset ι} (h : Telling K i j f s)
    (hinv : SysInv s) (hK : K.Responsive (Fintype.card ι))
    (hs : SysStep K cfg s (.notify j alloc woken) s') : Telling K i j f s' := by
  have blocked : (s.notifies j).pc ≠ .unlock → (s.notifies j).pc ≠ .returned → s.waits i = .blocked f :=
    h.phase.blocked
  -- the proxy of the wait is the one the notify has found
  have hitem : s.waits i = .blocked f → (s.notifies j).pc = .wake ∨ (s.notifies j).pc = .signal →
      f.item = (s.notifies j).item := by
    intro hi hpc
    obtain ⟨p, w, hp, he, -⟩ := suspended_cell hinv hi
    rw [(hinv.waking_item hpc).1, h.object, he, hp]
  -- the notify moves on
  have moved : ∀ (t : Sys ι κ V X) pc item errno, TellPhase K t.shared f (t.waits i) pc →
      Telling K i j f (t.setNotify j { s.notifies j with pc := pc, item := item, errno := errno }) := by
    intro t pc item errno hph
    have hj : (t.setNotify j { s.notifies j with pc := pc, item := item, errno := errno }).notifies j
        = { s.notifies j with pc := pc, item := item, errno := errno } := Function.update_self ..
    refine ⟨by rw [hj]; exact h.object, by rw [hj]; exact h.all, ?_⟩
    rw [hj]
    exact hph
  cases hs with
  | notifyLock _ _ _ hpc hfree =>
    have hi := blocked (by rw [hpc]; decide) (by rw [hpc]; decide)
    refine moved { s with shared := { s.shared with lock := true } } .findOrCreate _ _ ?_
    show TellPhase K _ f (s.waits i) _
    rw [hi]
    exact .asked _ (.inr (.inl rfl))
  | notifyFind _ _ _ r hpc hr =>
    have hi := blocked (by rw [hpc]; decide) (by rw [hpc]; decide)
    obtain ⟨p, w, hp, he, -⟩ := suspended_cell hinv hi
    have hlive := (hinv.frames.notifies j).live (by rw [hpc]; decide)
    obtain ⟨r', hr', hcase⟩ := hashTableFindOrCreate_cases K cfg.errno alloc (s.notifies j).errno
      hinv.registry.wf.table hlive false
    obtain rfl : r = r' := Option.some.inj (hr.symm.trans hr')
    have hfound : r.item = some p := by
      rw [(hcase.lookup hinv.registry.wf).item, h.object]
      exact he
    rw [if_neg (by rw [hfound]; exact Option.some_ne_none p)]
    refine moved { s with shared := { s.shared with store := r.store } } .wake _ _ ?_
    show TellPhase K _ f (s.waits i) _
    rw [hi]
    exact .asked _ (.inr (.inr rfl))
  | notifyWakeAtOnce _ _ _ hpc hk hsig =>
    have hi := blocked (by rw [hpc]; decide) (by rw [hpc]; decide)
    have hready := ready_of_wake hinv hK hi
    rw [hitem hi (.inl hpc)] at hready
    rw [h.all] at hsig
    rw [hsig.all, h.all]
    have hwoken := signal_wakes (s := s)
      (t := { s with shared := s.shared.wakeProxy K (s.notifies j).item wakeAll }) rfl hi
      (hitem hi (.inl hpc))
    refine moved ({ s with shared := s.shared.wakeProxy K (s.notifies j).item wakeAll }.signal _)
      .unlock _ _ ?_
    rw [hwoken]
    exact .told _ (.inl rfl) hready
  | notifyWake _ _ _ hpc hk =>
    have hi := blocked (by rw [hpc]; decide) (by rw [hpc]; decide)
    have hready := ready_of_wake hinv hK hi
    rw [h.all]
    refine moved { s with shared := s.shared.wakeProxy K (s.notifies j).item wakeAll } .signal _ _ ?_
    show TellPhase K _ f (s.waits i) _
    rw [hi, ← hitem hi (.inl hpc)]
    exact .posted hready
  | notifySignal _ _ _ hpc hsig =>
    have hi := blocked (by rw [hpc]; decide) (by rw [hpc]; decide)
    have hready := h.phase.ready (.inl hpc)
    rw [h.all] at hsig
    rw [hsig.all]
    refine moved _ .unlock _ _ ?_
    rw [signal_wakes (s := s) rfl hi (hitem hi (.inr hpc))]
    exact .told _ (.inl rfl) hready
  | notifyUnlock _ _ _ hpc =>
    have hready := h.phase.ready (.inr (.inl hpc))
    refine moved { s with shared := { s.shared with lock := false } } .returned _ _ ?_
    show TellPhase K _ f (s.waits i) _
    rw [h.phase.woken (.inl hpc)]
    exact .told _ (.inr rfl) hready

/-! ### One call after the other -/

/-- A timed wait reads the clock at its entry. -/
theorem timed_at_entry (hr : (waitSystem ι κ V K cfg).Reachable s) :
    s.Frames fun f => f.pc = .entryClock → f.duration ≠ none := by
  refine frame_invariant ?_ ?_ hr
  · intro object expected duration success failure errno hpc hd
    have hpc' : (if duration.isSome = true then WaitPc.entryClock else .loadTop) = .entryClock := hpc
    have hd' : duration = none := hd
    rw [hd'] at hpc'
    cases hpc'
  · intro f ev f' _ hgen hpc
    have hloop : ∀ g : WaitFrame V, g.breakLoop.pc ≠ .entryClock := by
      intro g hg
      have hlook := g.breakLoop_looking
      rw [hg] at hlook
      cases hlook
    have hpark : ∀ g : WaitFrame V, g.onToPark.pc ≠ .entryClock := by
      intro g hg
      unfold WaitFrame.onToPark at hg
      split at hg
      · cases hg
      · cases hg
    cases hgen with
    | topChanged | reloadTop | lockedChanged | reloadLocked | timedOut | parkFailed =>
      exact absurd hpc (hloop _)
    | topAgain | unlockRegistered => exact absurd hpc (hpark _)
    | _ => cases hpc

variable [Fintype κ] {j : κ} {n : ℕ}

/-- **A notify can return** when no other thread holds the lock. What each of its steps keeps holds then. -/
theorem notify_finishes {P : Sys ι κ V X → Prop} (hK : K.Responsive n)
    (hP : ∀ s s' alloc woken, (waitSystem ι κ V K cfg).Reachable s → P s →
      SysStep K cfg s (.notify j alloc woken) s' → P s')
    (hr : (waitSystem ι κ V K cfg).Reachable s) (halone : s.Alone (.inr j)) (hPs : P s) :
    ∃ s', (closingSystem ι κ V K cfg).Steps s s' ∧ (waitSystem ι κ V K cfg).Reachable s' ∧
      s'.shared.lock = false ∧ s'.shared.mem = s.shared.mem ∧ P s' ∧ s'.Rest (.inr j) ∧
      ∀ b, s.Rest b → s'.Rest b := by
  have hreturns : ∃ s', (closingSystem ι κ V K cfg).Steps s s' ∧
      ((waitSystem ι κ V K cfg).Reachable s' ∧ s'.Alone (.inr j) ∧ s'.shared.mem = s.shared.mem ∧ P s' ∧
        ∀ b, b ≠ .inr j → s.Rest b → s'.Rest b) ∧ s'.Rest (.inr j) := by
    refine Lts.steps_to_of_rank (fun t => (t.notifies j).pc.rank) ?_
      ⟨hr, halone, rfl, hPs, fun _ _ hb => hb⟩
    intro t ht hbusy
    obtain ⟨hrt, halonet, hmem, hPt, hkeep⟩ := ht
    obtain ⟨u, hu, hrank⟩ := notify_advances (sysInv_of_reachable hrt) hK halonet hbusy
    obtain ⟨⟨alloc, woken, hstep⟩, hmem', -⟩ := id hu
    have hstep' : (waitSystem ι κ V K cfg).step t (.notify j alloc woken) u := hstep
    exact ⟨u, .single ⟨_, hstep', rfl⟩, ⟨hrt.tail hstep', hu.alone halonet, hmem'.trans hmem,
      hP t u alloc woken hrt hPt (sysStep_cases hstep), fun b hb hs => hu.rest hb (hkeep b hb hs)⟩, hrank⟩
  obtain ⟨s', hsteps, ⟨hr', halone', hmem, hP', hkeep⟩, hrest⟩ := hreturns
  refine ⟨s', hsteps, hr', hrest.unlocked (sysInv_of_reachable hr') halone', hmem, hP', hrest,
    fun b hb => ?_⟩
  by_cases hbj : b = .inr j
  · rw [hbj]
    exact hrest
  · exact hkeep b hbj hb

/-- A free thread calls a notify of all. -/
theorem telling_of_call (hr : (waitSystem ι κ V K cfg).Reachable s) (hj : s.Rest (.inr j))
    (hi : s.waits i = .blocked f) :
    ∃ t, (closingSystem ι κ V K cfg).Next s t ∧ Telling K i j f t ∧ t.shared = s.shared ∧
      ∀ b, b ≠ .inr j → s.Rest b → t.Rest b := by
  obtain ⟨p, w, hp, he, -⟩ := suspended_cell (sysInv_of_reachable hr) hi
  have hlive : 2 ≤ f.object := (sysInv_of_reachable hr).registry.wf.entry_live he
  have hpc : (s.notifies j).pc = .returned := hj
  have hnotify : (s.setNotify j ⟨f.object, wakeAll, .lock, none, 0⟩).notifies j
      = ⟨f.object, wakeAll, .lock, none, 0⟩ := Function.update_self ..
  refine ⟨s.setNotify j ⟨f.object, wakeAll, .lock, none, 0⟩, ⟨.callNotify j f.object wakeAll 0, ?_, ?_⟩,
    ⟨by rw [hnotify], by rw [hnotify], ?_⟩, rfl, fun b hb hs => ?_⟩
  · show sysStep K cfg s (.callNotify j f.object wakeAll 0) = _
    simp only [sysStep, hpc, hlive, and_self, if_true]
  · simp [Action.isClosing]
  · rw [hnotify, show (s.setNotify j ⟨f.object, wakeAll, .lock, none, 0⟩).waits i = .blocked f from hi]
    exact .asked _ (.inl rfl)
  · cases b with
    | inl k => exact hs
    | inr k =>
      have hk : k ≠ j := fun hk => hb (by rw [hk])
      show (Function.update s.notifies j _ k).pc = .returned
      rw [Function.update_of_ne hk]
      exact hs

omit [DecidableEq ι] [DecidableEq κ] [DecidableEq V] in
theorem alone_of_unlocked (hinv : SysInv s) (hlock : s.shared.lock = false) (a : ι ⊕ κ) : s.Alone a := by
  intro b hb
  have hset := hinv.registry.lock.lock_iff.mpr ⟨b, hb⟩
  rw [show s.registry.lock = false from hlock] at hset
  cases hset

/-- **A suspended wait can be woken for good**, by a thread that is free to notify. -/
theorem suspended_told (hK : K.Responsive (Fintype.card ι)) (hr : (waitSystem ι κ V K cfg).Reachable s)
    (hlock : s.shared.lock = false) (hj : s.Rest (.inr j)) (hi : s.waits i = .blocked f) :
    ∃ s', (closingSystem ι κ V K cfg).Steps s s' ∧ (waitSystem ι κ V K cfg).Reachable s' ∧
      s'.shared.lock = false ∧ s'.shared.mem = s.shared.mem ∧ s'.waits i = .woken f 0 ∧
      s'.shared.Ready K f ∧ ∀ b, s.Rest b → s'.Rest b := by
  obtain ⟨t, hcall, htell, hshared, hkeep⟩ := telling_of_call hr hj hi
  have hrt := reachable_of_closing hr (.single hcall)
  obtain ⟨s', hsteps, hr', hlock', hmem, htold, hj', hkeep'⟩ := notify_finishes hK
    (fun _ _ _ _ hr h hs => h.step (sysInv_of_reachable hr) hK hs) hrt
    (alone_of_unlocked (sysInv_of_reachable hrt) (by rw [hshared, hlock]) (.inr j)) htell
  have hpc : (s'.notifies j).pc = .returned := hj'
  refine ⟨s', .head hcall hsteps, hr', hlock', by rw [hmem, hshared], htold.phase.woken (.inr hpc),
    htold.phase.ready (.inr (.inr hpc)), fun b hb => ?_⟩
  by_cases hbj : b = .inr j
  · rw [hbj]
    exact hj'
  · exact hkeep' b (hkeep b hbj hb)

/-! ### A wait returns -/

/-- On the way from `s` to the return of the wait `i`, which runs alone. -/
structure Finishing (K : ProxyKind X) (cfg : Platform) (i : ι) (s t : Sys ι κ V X) : Prop where
  reachable : (waitSystem ι κ V K cfg).Reachable t
  alone : t.Alone (.inl i)
  freed : ∀ f, (t.waits i).frame = some f → f.Freed t.shared.mem
  rest : ∀ b, b ≠ .inl i → s.Rest b → t.Rest b

omit [Fintype κ] in
/-- The object of the wait changes. -/
theorem finishing_of_store [Nontrivial V] (hr : (waitSystem ι κ V K cfg).Reachable s)
    (halone : s.Alone (.inl i)) :
    ∃ t, (closingSystem ι κ V K cfg).Steps s t ∧ Finishing K cfg i s t := by
  cases hf : (s.waits i).frame with
  | none =>
    refine ⟨s, .refl, hr, halone, fun f hf' => ?_, fun _ _ hb => hb⟩
    rw [hf] at hf'
    cases hf'
  | some f =>
    obtain ⟨v, hv⟩ := exists_ne f.expected
    refine ⟨{ s with shared := { s.shared with mem := Function.update s.shared.mem f.object v } },
      .single ⟨.store f.object v, rfl, rfl⟩, hr.tail (a := .store f.object v) rfl, halone,
      fun g hg _ => ?_, fun b _ hb => by cases b <;> exact hb⟩
    obtain rfl : f = g := Option.some.inj (hf.symm.trans hg)
    show Function.update s.shared.mem f.object v f.object ≠ f.expected
    rw [Function.update_self]
    exact hv

section Finishing

variable {t : Sys ι κ V X}

/-- A wait that is awake makes its next step. -/
theorem Finishing.runs (h : Finishing K cfg i s t) (hbusy : ¬ t.Rest (.inl i))
    (hawake : ∀ f, t.waits i ≠ .blocked f) :
    ∃ u, (closingSystem ι κ V K cfg).Steps t u ∧ Finishing K cfg i s u ∧
      (u.waits i).rank (u.resumes K i) < (t.waits i).rank (t.resumes K i) := by
  have hnext : ∃ w, t.StepsTo K cfg i w ∧ (∀ b, w.rank b < (t.waits i).rank (t.resumes K i)) ∧
      ∀ f, w.frame = some f → f.Freed t.shared.mem :=
    wait_advances (sysInv_of_reachable h.reachable) (timed_at_entry h.reachable) h.alone
      (Bool.eq_false_iff.mpr hbusy) hawake h.freed
  obtain ⟨w, ⟨a, sh, ha, hmem, hstep⟩, hrank, hfreed⟩ := hnext
  have hw : ({ t with shared := sh }.setWait i w).waits i = w := by
    show Function.update t.waits i w i = w
    rw [Function.update_self]
  have hstep' : (waitSystem ι κ V K cfg).step t a ({ t with shared := sh }.setWait i w) := hstep
  refine ⟨_, .single ⟨a, hstep', ha⟩, ⟨h.reachable.tail hstep', h.alone.setWait sh w, fun f hf => ?_,
    fun b hb hs => (h.rest b hb hs).setWait hb sh w⟩, ?_⟩
  · rw [hw] at hf
    show f.Freed sh.mem
    rw [hmem]
    exact hfreed f hf
  · rw [hw]
    exact hrank _

/-- A wait that is suspended is told. -/
theorem Finishing.told (h : Finishing K cfg i s t) (hK : K.Responsive (Fintype.card ι))
    (hj : s.Rest (.inr j)) (hi : t.waits i = .blocked f) :
    ∃ u, (closingSystem ι κ V K cfg).Steps t u ∧ Finishing K cfg i s u ∧
      (u.waits i).rank (u.resumes K i) < (t.waits i).rank (t.resumes K i) := by
  have hinv := sysInv_of_reachable h.reachable
  have hpc := (hinv.frames.blocked hi).2
  have hlock := lock_free_of_alone hinv h.alone
    (hinv.lifetime.parkedFree i f (by rw [hi]; rfl) (.inl hpc))
  obtain ⟨u, hsteps, hru, hlocku, hmem, hwoken, hready, hkeep⟩ :=
    suspended_told hK h.reachable hlock (h.rest _ Sum.inr_ne_inl hj) hi
  refine ⟨u, hsteps, ⟨hru, alone_of_unlocked (sysInv_of_reachable hru) hlocku _, fun g hg => ?_,
    fun b hb hs => hkeep b (h.rest b hb hs)⟩, ?_⟩
  · rw [hwoken] at hg
    cases hg
    rw [hmem]
    exact h.freed f (by rw [hi]; rfl)
  · have hresumes : u.resumes K i = true := by
      simp only [Sys.resumes, hwoken]
      exact hready
    rw [hwoken, hi, hresumes]
    show 29 < 30
    decide

/-- The lock comes free when the wait is its holder. -/
theorem Finishing.unlocks (h : Finishing K cfg i s t) :
    ∃ u, (closingSystem ι κ V K cfg).Steps t u ∧ Finishing K cfg i s u ∧ u.shared.lock = false := by
  refine Lts.steps_to_of_rank (fun t => (t.waits i).rank (t.resumes K i)) (fun t h hl => ?_) h
  have hinv := sysInv_of_reachable h.reachable
  -- the holder is in a call, and not suspended
  have hholds : t.holdsLock (.inl i) = true := by
    obtain ⟨b, hb⟩ := hinv.registry.lock.lock_iff.mp (Bool.not_eq_false _ ▸ hl)
    rw [h.alone b hb] at hb
    exact hb
  refine h.runs (fun hrest => ?_) fun f hi => ?_
  · rw [show t.holdsLock (.inl i) = false from hrest.not_holds] at hholds
    cases hholds
  · have hpark := hinv.lifetime.parkedFree i f (by rw [hi]; rfl) (.inl (hinv.frames.blocked hi).2)
    rw [hpark] at hholds
    cases hholds

/-- **A wait can return** when no other thread holds the lock and some thread is free to notify. -/
theorem Finishing.returns (h : Finishing K cfg i s t) (hK : K.Responsive (Fintype.card ι))
    (hj : s.Rest (.inr j)) :
    ∃ u, (closingSystem ι κ V K cfg).Steps t u ∧ Finishing K cfg i s u ∧ u.Rest (.inl i) := by
  refine Lts.steps_to_of_rank (fun t => (t.waits i).rank (t.resumes K i)) (fun t h hbusy => ?_) h
  by_cases hi : ∃ f, t.waits i = .blocked f
  · obtain ⟨f, hi⟩ := hi
    exact h.told hK hj hi
  · exact h.runs hbusy fun f hf => hi ⟨f, hf⟩

end Finishing

/-! ### All of them -/

/-- Every call has returned, and the table and the heap are as they were at the start. -/
structure Sys.AtRest (s : Sys ι κ V X) : Prop where
  waits : ∀ i, (s.waits i).isFree = true
  notifies : ∀ j, (s.notifies j).pc = .returned
  lock : s.shared.lock = false
  entries : ∀ object, s.shared.store.table.entry object = none
  count : s.shared.store.table.count = 0
  heap : ∀ p, s.shared.store.heap.cell p = none

omit [DecidableEq ι] [DecidableEq κ] [DecidableEq V] in
theorem atRest_of_rest (hinv : SysInv s) (hlock : s.shared.lock = false) (h : ∀ a, s.Rest a) :
    s.AtRest := by
  have hentries := hinv.lifetime.noneLeft fun i => h (.inl i)
  have hwf := hinv.registry.wf
  refine ⟨fun i => h (.inl i), fun j => h (.inr j), hlock, hentries, hwf.table.count_of_entries hentries,
    fun p => ?_⟩
  cases hp : s.shared.store.heap.cell p with
  | none => rfl
  | some w =>
    obtain ⟨object, ho⟩ := hwf.owned p (Option.isSome_of_eq_some hp)
    rw [show s.registry.store.table.entry object = none from hentries object] at ho
    cases ho

variable [Nontrivial V]

/-- The holder of the lock gives it back. -/
theorem lock_comes_free (hK : K.Responsive n) (hr : (waitSystem ι κ V K cfg).Reachable s) :
    ∃ s', (closingSystem ι κ V K cfg).Steps s s' ∧ (waitSystem ι κ V K cfg).Reachable s' ∧
      s'.shared.lock = false := by
  have hlock := (sysInv_of_reachable hr).registry.lock
  cases hl : s.shared.lock with
  | false => exact ⟨s, .refl, hr, hl⟩
  | true =>
    obtain ⟨a, ha⟩ := hlock.lock_iff.mp hl
    have halone : s.Alone a := fun b hb => hlock.unique b a hb ha
    cases a with
    | inl i =>
      obtain ⟨t, hsteps, ht⟩ := finishing_of_store hr halone
      obtain ⟨u, hsteps', hu, hlocku⟩ := ht.unlocks
      exact ⟨u, hsteps.trans hsteps', hu.reachable, hlocku⟩
    | inr j =>
      obtain ⟨u, hsteps, hu, hlocku, -⟩ :=
        notify_finishes (P := fun _ => True) hK (fun _ _ _ _ _ _ _ => trivial) hr halone trivial
      exact ⟨u, hsteps, hu, hlocku⟩

/-- **Every call can return.** -/
theorem ProxyKind.Responsive.drains [Nonempty κ] (hK : K.Responsive (Fintype.card ι))
    (hr : (waitSystem ι κ V K cfg).Reachable s) :
    ∃ s', (closingSystem ι κ V K cfg).Steps s s' ∧ s'.AtRest := by
  obtain ⟨s₁, hsteps₁, h₁⟩ := lock_comes_free hK hr
  -- the notifies return, one after the other
  have hnotifies : ∃ s₂, (closingSystem ι κ V K cfg).Steps s₁ s₂ ∧
      ((waitSystem ι κ V K cfg).Reachable s₂ ∧ s₂.shared.lock = false) ∧ ∀ j, s₂.Rest (.inr j) := by
    refine Lts.steps_to_rest (fun s j hs => ?_) h₁
    obtain ⟨u, hsteps, hu, hlocku, -, -, hrest, hkeep⟩ :=
      notify_finishes (P := fun _ => True) hK (fun _ _ _ _ _ _ _ => trivial) hs.1
        (alone_of_unlocked (sysInv_of_reachable hs.1) hs.2 _) trivial
    exact ⟨u, hsteps, ⟨hu, hlocku⟩, hrest, fun k hk => hkeep _ hk⟩
  obtain ⟨s₂, hsteps₂, ⟨hr₂, hl₂⟩, hrest₂⟩ := hnotifies
  -- and then the waits
  have hwaits : ∃ s₃, (closingSystem ι κ V K cfg).Steps s₂ s₃ ∧
      ((waitSystem ι κ V K cfg).Reachable s₃ ∧ s₃.shared.lock = false ∧ ∀ j, s₃.Rest (.inr j)) ∧
      ∀ i, s₃.Rest (.inl i) := by
    refine Lts.steps_to_rest (fun s i hs => ?_) ⟨hr₂, hl₂, hrest₂⟩
    obtain ⟨hr, hlock, hnotifies⟩ := hs
    have halone := alone_of_unlocked (sysInv_of_reachable hr) hlock (.inl i)
    obtain ⟨t, hsteps, ht⟩ := finishing_of_store hr halone
    obtain ⟨u, hsteps', hu, hrest⟩ := ht.returns hK (hnotifies (Classical.arbitrary κ))
    refine ⟨u, hsteps.trans hsteps', ⟨hu.reachable,
      hrest.unlocked (sysInv_of_reachable hu.reachable) hu.alone,
      fun j => hu.rest _ Sum.inr_ne_inl (hnotifies j)⟩, hrest, fun k hk => ?_⟩
    by_cases hki : k = i
    · rw [hki]
      exact hrest
    · exact hu.rest _ (fun h => hki (Sum.inl.inj h)) hk
  obtain ⟨s₃, hsteps₃, ⟨hr₃, hl₃, hrest₃⟩, hrest⟩ := hwaits
  refine ⟨s₃, (hsteps₁.trans hsteps₂).trans hsteps₃,
    atRest_of_rest (sysInv_of_reachable hr₃) hl₃ fun a => ?_⟩
  cases a with
  | inl i => exact hrest i
  | inr j => exact hrest₃ j

variable [Nonempty κ]

/-- **From every reachable state the objects and their notifies can bring all calls to their return**, with
the generation counter as with the pthreads proxy. The limit is that of an `int` use count. -/
theorem system_drains (cfg : Platform) :
    (∀ s : Sys ι κ V (BitVec 32), (waitSystem ι κ V (counterProxy cfg) cfg).Reachable s →
      ∃ s', (closingSystem ι κ V (counterProxy cfg) cfg).Steps s s' ∧ s'.AtRest) ∧
    ∀ monotonic, Fintype.card ι < 2 ^ 31 → ∀ s : Sys ι κ V PthreadProxy,
      (waitSystem ι κ V (pthreadProxy cfg monotonic) cfg).Reachable s →
      ∃ s', (closingSystem ι κ V (pthreadProxy cfg monotonic) cfg).Steps s s' ∧ s'.AtRest := by
  constructor
  · intro s hr
    exact (counterProxy_responsive cfg _).drains hr
  · intro monotonic hcard s hr
    exact (pthreadProxy_responsive cfg monotonic hcard).drains hr

end System

/-- A wait that sleeps on its condition variable. -/
theorem system_drains_parked :
    ∃ s s' : Sys (Fin 1) (Fin 1) ℕ PthreadProxy, (s.waits 0).blockedOn (some 0) = true ∧
      (closingSystem (Fin 1) (Fin 1) ℕ (pthreadProxy (.lp64 .linux) true) (.lp64 .linux)).Steps s s' ∧
      s'.AtRest := by
  have hrun : (Lts.exec (sysStep (pthreadProxy (.lp64 .linux) true) (.lp64 .linux))
      (Sys.start fun _ => 0) (callToPark 0 64 0)).any
        (fun s : Sys (Fin 1) (Fin 1) ℕ PthreadProxy => (s.waits 0).blockedOn (some 0)) = true := by
    decide +kernel
  obtain ⟨s, hs, hpark⟩ := (Option.any_eq_true _ _).mp hrun
  obtain ⟨s', hsteps, hrest⟩ := (system_drains (.lp64 .linux)).2 true (by decide) s (reachable_of_exec hs)
  exact ⟨s, s', hpark, hsteps, hrest⟩

end AtomicWaits
