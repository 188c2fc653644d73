import AtomicWaits.HashTable
import AtomicWaits.WaitFrame

/-!
# All threads together

The interleaving of any number of threads in `atomic_wait_generic` and `atomic_notify_generic`, over
one table, its lock and a memory of atomic objects. A waiting thread makes the steps of
`atomicWaitGeneric`; what each access returns is now fixed by the shared state, and only the clock,
the allocator and the outcome of a suspension are left to the environment.

A park call that suspends leaves its thread `blocked`. A wake, a timeout, an error or a spurious
return makes the thread `woken`, and the rest of the park call then runs as a step of its own (for
pthreads, with the proxy mutex held again).

Memory is sequentially consistent: one access is one step.
-/

namespace AtomicWaits

/-- What the threads share. -/
structure Shared (V X : Type) where
  mem : ℕ → V
  /-- The lock flag of `shared_global_hash_table`. -/
  lock : Bool
  store : Store X

/-- A thread that waits. -/
inductive WaitThread (V : Type)
  | idle
  | running (f : WaitFrame V)
  /-- Suspended in the park call. -/
  | blocked (f : WaitFrame V)
  /-- The suspension has ended with `ret`, the park call has not. -/
  | woken (f : WaitFrame V) (ret : ℤ)

/-- Where `atomic_notify_generic` stands; `signal` is the wake of a proxy that has already changed
its state. -/
inductive NotifyPc
  | lock
  | findOrCreate
  | wake
  | signal
  | unlock
  | returned
  deriving DecidableEq, Repr

/-- One call of `atomic_notify_generic`. -/
structure NotifyFrame where
  object : ℕ
  maxThreads : BitVec 32
  pc : NotifyPc
  item : Option ℕ
  errno : ℤ

/-- A notifying thread before its first call. -/
def NotifyFrame.idle : NotifyFrame := ⟨0, 0, .returned, none, 0⟩

/-- Waiting threads `ι`, notifying threads `κ`, values `V` and proxies `X`. -/
structure Sys (ι κ V X : Type) where
  shared : Shared V X
  waits : ι → WaitThread V
  notifies : κ → NotifyFrame

/-- What the clock, the allocator and `free` answer to one access. -/
structure StepEnv where
  now : Timespec
  alloc : AllocEnv
  errno : ℤ

/-- The steps of the system. -/
inductive Action (ι κ V : Type)
  /-- A thread stores to an object. -/
  | store (object : ℕ) (v : V)
  | callWait (i : ι) (object : ℕ) (expected : V) (duration : Option Timespec)
      (success failure : MemoryOrder) (errno : ℤ)
  /-- The next access of a waiting thread, other than its park call. -/
  | wait (i : ι) (env : StepEnv)
  /-- The park call, up to where it returns or suspends. -/
  | park (i : ι)
  /-- The park call returns at once, whatever the proxy holds. -/
  | parkFails (i : ι) (ret2 : ℤ)
  /-- A suspension ends by a timeout, an error or a spurious return. -/
  | unblock (i : ι) (ret : ℤ)
  /-- The rest of the park call after the suspension. -/
  | resume (i : ι)
  | callNotify (j : κ) (object : ℕ) (maxThreads : BitVec 32) (errno : ℤ)
  /-- The next access of a notifying thread; a wake ends the suspensions of the threads `woken`. -/
  | notify (j : κ) (alloc : AllocEnv) (woken : Finset ι)

namespace WaitThread

variable {V : Type}

/-- Not inside a call. -/
def isFree : WaitThread V → Bool
  | idle => true
  | running f => f.pc = .returned
  | _ => false

/-- Suspended on the proxy `p`. -/
def blockedOn (p : Option ℕ) : WaitThread V → Bool
  | blocked f => f.item = p
  | _ => false

/-- A wake reaches a suspended thread. -/
def wake : WaitThread V → WaitThread V
  | blocked f => woken f 0
  | t => t

end WaitThread

section Shared

variable {V X : Type} [DecidableEq V] (K : ProxyKind X) (cfg : Platform)

/-- The proxy read through a pointer. -/
def ProxyHeap.read (h : ProxyHeap X) (item : Option ℕ) : Option (ProxyWaiter X) :=
  item.bind h.cell

/-- A change to the proxy behind a pointer. -/
def Shared.modify (sh : Shared V X) (item : Option ℕ) (g : ProxyWaiter X → ProxyWaiter X) :
    Shared V X :=
  { sh with store := { sh.store with heap := sh.store.heap.modifyOpt item g } }

/-- The change of state of `..._WAKE`. -/
def Shared.wakeProxy (sh : Shared V X) (item : Option ℕ) (maxThreads : BitVec 32) : Shared V X :=
  sh.modify item fun w => { w with atomic := K.wake w.atomic maxThreads w.useCount }

/-- One access of a waiting frame: what it returns, and the shared state after it. `none` where the
access is not enabled, or is not one of this kind. -/
def Shared.access (sh : Shared V X) (f : WaitFrame V) (env : StepEnv) :
    Option (WaitEvent V × Shared V X) :=
  match f.pc with
  | .entryClock | .checkDeadline => some (.clock env.now, sh)
  | .loadTop | .loadLocked => some (.load (sh.mem f.object), sh)
  | .reloadTop | .reloadLocked => some (.reload (sh.mem f.object), sh)
  | .lockForRegister | .lockForRelease =>
    if sh.lock then none else some (.lock, { sh with lock := true })
  | .findOrCreate =>
    (hashTableFindOrCreate K cfg.errno sh.store f.object true env.alloc f.errno).map fun r =>
      (.findOrCreate r.item r.errno, { sh with store := r.store })
  | .unlockFailed | .unlockRegistered | .unlockReleased =>
    some (.unlock, { sh with lock := false })
  | .getCounter | .getCounterAgain =>
    some (.getCounter (((sh.store.heap.read f.item).map fun w => K.getCounter w.atomic).getD 0),
      sh.modify f.item id)
  | .decUseCount =>
    some (.decUseCount (((sh.store.heap.read f.item).map fun w => w.useCount - 1).getD 0),
      sh.modify f.item fun w => { w with useCount := w.useCount - 1 })
  | .removeItem =>
    some (.removeItem env.errno, { sh with store := hashTableRemoveItem sh.store f.object })
  | .park | .returned => none

/-- One critical section of a proxy call: the shared state after it, and what it returned. -/
def Shared.proxyCall (sh : Shared V X) (item : Option ℕ) (g : X → X × Option ℤ) :
    Shared V X × Option ℤ :=
  (sh.modify item fun w => { w with atomic := (g w.atomic).1 },
    (sh.store.heap.read item).bind fun w => (g w.atomic).2)

end Shared

section Step

variable {ι κ V X : Type} [DecidableEq ι] [DecidableEq κ]

namespace Sys

def setWait (s : Sys ι κ V X) (i : ι) (t : WaitThread V) : Sys ι κ V X :=
  { s with waits := Function.update s.waits i t }

def setNotify (s : Sys ι κ V X) (j : κ) (f : NotifyFrame) : Sys ι κ V X :=
  { s with notifies := Function.update s.notifies j f }

/-- The threads suspended on a proxy. -/
def blockedOn [Fintype ι] (s : Sys ι κ V X) (p : Option ℕ) : Finset ι :=
  Finset.univ.filter fun i => (s.waits i).blockedOn p

/-- The threads `woken` are threads a wake of the proxy may reach, and enough of them. -/
def CanSignal [Fintype ι] (K : ProxyKind X) (s : Sys ι κ V X) (p : Option ℕ)
    (maxThreads : BitVec 32) (woken : Finset ι) : Prop :=
  woken ⊆ s.blockedOn p ∧ K.wakeCount maxThreads (s.blockedOn p).card ≤ woken.card

instance [Fintype ι] (K : ProxyKind X) (s : Sys ι κ V X) (p : Option ℕ) (maxThreads : BitVec 32)
    (woken : Finset ι) : Decidable (s.CanSignal K p maxThreads woken) :=
  inferInstanceAs (Decidable (_ ∧ _))

/-- The suspensions of the threads `woken` end. -/
def signal (s : Sys ι κ V X) (woken : Finset ι) : Sys ι κ V X :=
  { s with waits := fun i => if i ∈ woken then (s.waits i).wake else s.waits i }

end Sys

variable [DecidableEq V] [Fintype ι] (K : ProxyKind X) (cfg : Platform)

/-- The park call has returned `r`, or has suspended. -/
def Sys.settle (s : Sys ι κ V X) (i : ι) (f : WaitFrame V) : Option ℤ → Option (Sys ι κ V X)
  | none => some (s.setWait i (.blocked f))
  | some ret2 =>
    (atomicWaitGeneric cfg f (.park ret2 f.errno)).map fun f' => s.setWait i (.running f')

/-- One step of `atomic_notify_generic` by the thread `j`. -/
def Sys.notifyStep (s : Sys ι κ V X) (j : κ) (f : NotifyFrame) (alloc : AllocEnv)
    (woken : Finset ι) : Option (Sys ι κ V X) :=
  match f.pc with
  | .lock =>
    if s.shared.lock then none
    else some ({ s with shared := { s.shared with lock := true } }.setNotify j
      { f with pc := .findOrCreate })
  | .findOrCreate =>
    (hashTableFindOrCreate K cfg.errno s.shared.store f.object false alloc f.errno).map fun r =>
      { s with shared := { s.shared with store := r.store } }.setNotify j
        { f with
          item := r.item, errno := r.errno, pc := if r.item = none then .unlock else .wake }
  | .wake =>
    let s' := { s with shared := s.shared.wakeProxy K f.item f.maxThreads }
    if K.wakesAtOnce then
      if s.CanSignal K f.item f.maxThreads woken then
        some ((s'.signal woken).setNotify j { f with pc := .unlock })
      else none
    else some (s'.setNotify j { f with pc := .signal })
  | .signal =>
    if s.CanSignal K f.item f.maxThreads woken then
      some ((s.signal woken).setNotify j { f with pc := .unlock })
    else none
  | .unlock =>
    some ({ s with shared := { s.shared with lock := false } }.setNotify j
      { f with pc := .returned })
  | .returned => none

/-- One step of the system. Objects lie at addresses from two on: the null pointer and the tombstone
are not addresses of objects. -/
def sysStep (s : Sys ι κ V X) : Action ι κ V → Option (Sys ι κ V X)
  | .store object v =>
    some { s with shared := { s.shared with mem := Function.update s.shared.mem object v } }
  | .callWait i object expected duration success failure errno =>
    if (s.waits i).isFree ∧ 2 ≤ object then
      some (s.setWait i (.running (.start object expected duration success failure errno)))
    else none
  | .wait i env =>
    match s.waits i with
    | .running f =>
      (s.shared.access K cfg f env).bind fun r =>
        (atomicWaitGeneric cfg f r.1).map fun f' =>
          { s with shared := r.2 }.setWait i (.running f')
    | _ => none
  | .park i =>
    match s.waits i with
    | .running f =>
      if f.pc = .park then
        let r := s.shared.proxyCall f.item fun x => K.enter x f.itemCounter
        { s with shared := r.1 }.settle cfg i f r.2
      else none
    | _ => none
  | .parkFails i ret2 =>
    match s.waits i with
    | .running f =>
      if f.pc = .park then { s with shared := s.shared.modify f.item id }.settle cfg i f (some ret2)
      else none
    | _ => none
  | .unblock i ret =>
    match s.waits i with
    | .blocked f => some (s.setWait i (.woken f ret))
    | _ => none
  | .resume i =>
    match s.waits i with
    | .woken f ret =>
      let r := s.shared.proxyCall f.item fun x => K.resume x ret
      { s with shared := r.1 }.settle cfg i f r.2
    | _ => none
  | .callNotify j object maxThreads errno =>
    if (s.notifies j).pc = .returned ∧ 2 ≤ object then
      some (s.setNotify j ⟨object, maxThreads, .lock, none, errno⟩)
    else none
  | .notify j alloc woken => s.notifyStep K cfg j (s.notifies j) alloc woken

/-- Nothing has been called yet; the memory holds anything. -/
structure Sys.Initial (s : Sys ι κ V X) : Prop where
  lock : s.shared.lock = false
  store : s.shared.store = .zero
  waits : ∀ i, s.waits i = .idle
  notifies : ∀ j, s.notifies j = .idle

/-- The system of the backend with the proxies `K`. -/
def waitSystem (ι κ V : Type) [DecidableEq ι] [DecidableEq κ] [DecidableEq V] [Fintype ι]
    (K : ProxyKind X) (cfg : Platform) : Lib.Lts (Sys ι κ V X) (Action ι κ V) :=
  .ofFun Sys.Initial (sysStep K cfg)

/-- What one step of the system can do. -/
inductive SysStep (s : Sys ι κ V X) : Action ι κ V → Sys ι κ V X → Prop
  | store (object : ℕ) (v : V) :
      SysStep s (.store object v)
        { s with shared := { s.shared with mem := Function.update s.shared.mem object v } }
  | callWait (i : ι) (object : ℕ) (expected : V) (duration : Option Timespec)
      (success failure : MemoryOrder) (errno : ℤ) : (s.waits i).isFree = true → 2 ≤ object →
      SysStep s (.callWait i object expected duration success failure errno)
        (s.setWait i (.running (.start object expected duration success failure errno)))
  | wait (i : ι) (env : StepEnv) (f f' : WaitFrame V) (ev : WaitEvent V) (sh : Shared V X) :
      s.waits i = .running f → s.shared.access K cfg f env = some (ev, sh) →
      GenericStep cfg f ev f' →
      SysStep s (.wait i env) ({ s with shared := sh }.setWait i (.running f'))
  | parkSleeps (i : ι) (f : WaitFrame V) : s.waits i = .running f → f.pc = .park →
      (s.shared.proxyCall f.item fun x => K.enter x f.itemCounter).2 = none →
      SysStep s (.park i)
        ({ s with shared := (s.shared.proxyCall f.item fun x => K.enter x f.itemCounter).1 }.setWait
          i (.blocked f))
  | parkReturns (i : ι) (f f' : WaitFrame V) (ret2 : ℤ) : s.waits i = .running f →
      (s.shared.proxyCall f.item fun x => K.enter x f.itemCounter).2 = some ret2 →
      GenericStep cfg f (.park ret2 f.errno) f' →
      SysStep s (.park i)
        ({ s with shared := (s.shared.proxyCall f.item fun x => K.enter x f.itemCounter).1 }.setWait
          i (.running f'))
  | parkFails (i : ι) (f f' : WaitFrame V) (ret2 : ℤ) : s.waits i = .running f →
      GenericStep cfg f (.park ret2 f.errno) f' →
      SysStep s (.parkFails i ret2)
        ({ s with shared := s.shared.modify f.item id }.setWait i (.running f'))
  | unblock (i : ι) (f : WaitFrame V) (ret : ℤ) : s.waits i = .blocked f →
      SysStep s (.unblock i ret) (s.setWait i (.woken f ret))
  | resumeSleeps (i : ι) (f : WaitFrame V) (ret : ℤ) : s.waits i = .woken f ret →
      (s.shared.proxyCall f.item fun x => K.resume x ret).2 = none →
      SysStep s (.resume i)
        ({ s with shared := (s.shared.proxyCall f.item fun x => K.resume x ret).1 }.setWait
          i (.blocked f))
  | resumeReturns (i : ι) (f f' : WaitFrame V) (ret ret2 : ℤ) : s.waits i = .woken f ret →
      (s.shared.proxyCall f.item fun x => K.resume x ret).2 = some ret2 →
      GenericStep cfg f (.park ret2 f.errno) f' →
      SysStep s (.resume i)
        ({ s with shared := (s.shared.proxyCall f.item fun x => K.resume x ret).1 }.setWait
          i (.running f'))
  | callNotify (j : κ) (object : ℕ) (maxThreads : BitVec 32) (errno : ℤ) :
      (s.notifies j).pc = .returned → 2 ≤ object →
      SysStep s (.callNotify j object maxThreads errno)
        (s.setNotify j ⟨object, maxThreads, .lock, none, errno⟩)
  | notifyLock (j : κ) (alloc : AllocEnv) (woken : Finset ι) : (s.notifies j).pc = .lock →
      s.shared.lock = false →
      SysStep s (.notify j alloc woken)
        ({ s with shared := { s.shared with lock := true } }.setNotify j
          { s.notifies j with pc := .findOrCreate })
  | notifyFind (j : κ) (alloc : AllocEnv) (woken : Finset ι) (r : FindResult X) :
      (s.notifies j).pc = .findOrCreate →
      hashTableFindOrCreate K cfg.errno s.shared.store (s.notifies j).object false alloc
        (s.notifies j).errno = some r →
      SysStep s (.notify j alloc woken)
        ({ s with shared := { s.shared with store := r.store } }.setNotify j
          { s.notifies j with
            item := r.item, errno := r.errno, pc := if r.item = none then .unlock else .wake })
  | notifyWakeAtOnce (j : κ) (alloc : AllocEnv) (woken : Finset ι) : (s.notifies j).pc = .wake →
      K.wakesAtOnce = true → s.CanSignal K (s.notifies j).item (s.notifies j).maxThreads woken →
      SysStep s (.notify j alloc woken)
        (({ s with shared := s.shared.wakeProxy K (s.notifies j).item (s.notifies j).maxThreads
          }.signal woken).setNotify j { s.notifies j with pc := .unlock })
  | notifyWake (j : κ) (alloc : AllocEnv) (woken : Finset ι) : (s.notifies j).pc = .wake →
      K.wakesAtOnce = false →
      SysStep s (.notify j alloc woken)
        ({ s with shared := s.shared.wakeProxy K (s.notifies j).item (s.notifies j).maxThreads
          }.setNotify j { s.notifies j with pc := .signal })
  | notifySignal (j : κ) (alloc : AllocEnv) (woken : Finset ι) : (s.notifies j).pc = .signal →
      s.CanSignal K (s.notifies j).item (s.notifies j).maxThreads woken →
      SysStep s (.notify j alloc woken)
        ((s.signal woken).setNotify j { s.notifies j with pc := .unlock })
  | notifyUnlock (j : κ) (alloc : AllocEnv) (woken : Finset ι) : (s.notifies j).pc = .unlock →
      SysStep s (.notify j alloc woken)
        ({ s with shared := { s.shared with lock := false } }.setNotify j
          { s.notifies j with pc := .returned })

variable {K cfg} {s s' : Sys ι κ V X}

omit [DecidableEq κ] [Fintype ι] in
/-- How a park call ends its critical section. -/
theorem settle_cases {t : Sys ι κ V X} {i : ι} {f : WaitFrame V} {r : Option ℤ}
    (h : t.settle cfg i f r = some s') :
    (r = none ∧ s' = t.setWait i (.blocked f)) ∨
    ∃ ret2 f', r = some ret2 ∧ GenericStep cfg f (.park ret2 f.errno) f' ∧
      s' = t.setWait i (.running f') := by
  cases r with
  | none => exact .inl ⟨rfl, (Option.some.inj h).symm⟩
  | some ret2 =>
    obtain ⟨f', hf', rfl⟩ := Option.map_eq_some_iff.mp h
    exact .inr ⟨ret2, f', rfl, atomicWaitGeneric_cases hf', rfl⟩

omit [DecidableEq V] in
theorem notifyStep_cases {j : κ} {alloc : AllocEnv} {woken : Finset ι}
    (h : s.notifyStep K cfg j (s.notifies j) alloc woken = some s') :
    SysStep K cfg s (.notify j alloc woken) s' := by
  simp only [Sys.notifyStep] at h
  split at h
  · next hpc =>
    split at h
    · cases h
    · next hl =>
      cases h
      exact .notifyLock j alloc woken hpc (by simpa using hl)
  · next hpc =>
    obtain ⟨r, hr, rfl⟩ := Option.map_eq_some_iff.mp h
    exact .notifyFind j alloc woken r hpc hr
  · next hpc =>
    split at h
    · next hk =>
      split at h
      · next hsig =>
        cases h
        exact .notifyWakeAtOnce j alloc woken hpc hk hsig
      · cases h
    · next hk =>
      cases h
      exact .notifyWake j alloc woken hpc (by simpa using hk)
  · next hpc =>
    split at h
    · next hsig =>
      cases h
      exact .notifySignal j alloc woken hpc hsig
    · cases h
  · next hpc =>
    cases h
    exact .notifyUnlock j alloc woken hpc
  · cases h

/-- **The step inversion.** -/
theorem sysStep_cases {a : Action ι κ V} (h : sysStep K cfg s a = some s') :
    SysStep K cfg s a s' := by
  cases a with
  | store object v =>
    cases h
    exact .store object v
  | callWait i object expected duration success failure errno =>
    simp only [sysStep, Option.ite_none_right_eq_some, Option.some.injEq] at h
    obtain ⟨⟨hfree, hlive⟩, rfl⟩ := h
    exact .callWait i object expected duration success failure errno hfree hlive
  | wait i env =>
    simp only [sysStep] at h
    split at h
    · next f hf =>
      obtain ⟨⟨ev, sh⟩, hacc, hmap⟩ := Option.bind_eq_some_iff.mp h
      obtain ⟨f', hf', rfl⟩ := Option.map_eq_some_iff.mp hmap
      exact .wait i env f f' ev sh hf hacc (atomicWaitGeneric_cases hf')
    · cases h
  | park i =>
    simp only [sysStep] at h
    split at h
    · next f hf =>
      split at h
      · next hpc =>
        rcases settle_cases h with ⟨hr, rfl⟩ | ⟨ret2, f', hr, hstep, rfl⟩
        · exact .parkSleeps i f hf hpc hr
        · exact .parkReturns i f f' ret2 hf hr hstep
      · cases h
    · cases h
  | parkFails i ret2 =>
    simp only [sysStep] at h
    split at h
    · next f hf =>
      split at h
      · next hpc =>
        rcases settle_cases h with ⟨hr, _⟩ | ⟨ret, f', hr, hstep, rfl⟩
        · cases hr
        · cases hr
          exact .parkFails i f f' ret2 hf hstep
      · cases h
    · cases h
  | unblock i ret =>
    simp only [sysStep] at h
    split at h
    · next f hf =>
      cases h
      exact .unblock i f ret hf
    · cases h
  | resume i =>
    simp only [sysStep] at h
    split at h
    · next f ret hf =>
      rcases settle_cases h with ⟨hr, rfl⟩ | ⟨ret2, f', hr, hstep, rfl⟩
      · exact .resumeSleeps i f ret hf hr
      · exact .resumeReturns i f f' ret ret2 hf hr hstep
    · cases h
  | callNotify j object maxThreads errno =>
    simp only [sysStep, Option.ite_none_right_eq_some, Option.some.injEq] at h
    obtain ⟨⟨hpc, hlive⟩, rfl⟩ := h
    exact .callNotify j object maxThreads errno hpc hlive
  | notify j alloc woken => exact notifyStep_cases h

/-! ### Runs -/

/-- The initial state with the memory `mem`. -/
def Sys.start (mem : ℕ → V) : Sys ι κ V X := ⟨⟨mem, false, .zero⟩, fun _ => .idle, fun _ => .idle⟩

theorem reachable_of_exec {mem : ℕ → V} {as : List (Action ι κ V)}
    (h : Lib.Lts.exec (sysStep K cfg) (Sys.start mem) as = some s) :
    (waitSystem ι κ V K cfg).Reachable s :=
  (Lib.Lts.Reachable.of_init (L := waitSystem ι κ V K cfg) ⟨rfl, rfl, fun _ => rfl, fun _ => rfl⟩).steps
    (Lib.Lts.steps_of_exec _ _ h)

/-- A clock at zero and an allocator with memory. -/
def StepEnv.quiet : StepEnv := ⟨⟨0, 0⟩, .plenty, 0⟩

/-- The steps of an untimed wait from its call to its first park. -/
def callToPark (i : ι) (object : ℕ) (expected : V) : List (Action ι κ V) :=
  .callWait i object expected none .seq_cst .seq_cst 0 :: List.replicate 6 (.wait i .quiet)
    ++ [.park i]

end Step

end AtomicWaits
