import AtomicWaits.PthreadArithmetic
import AtomicWaits.Lib.Lts
import AtomicWaits.Lib.Mutex

/-!
# One pthreads proxy and its threads

Any number of threads in `pthread_proxy_wait` and `pthread_proxy_wake` on one proxy. The proxy mutex is
part of the state, and a thread makes a step of its own to lock it, to unlock it, to suspend and to come
back from a suspension. What the functions do to the counters with the mutex held is
`PthreadProxy.enter`, `PthreadProxy.resume` and `PthreadProxy.wake`.

The condition variable promises nothing here: a suspended thread may be woken at any time, by a signal or
by none, a timed one also by its timeout, and every call may fail. `waiting` is not wrapped, since there
are never `INT_MAX` threads.
-/

namespace AtomicWaits

open Lib

/-- Where a thread stands in `pthread_proxy_wait`; `timed` says whether it was given a timeout. -/
inductive ProxyWait
  | idle
  | lock (timed : Bool)
  /-- The mutex has just been locked. -/
  | locked (timed : Bool)
  /-- In front of the condition wait, with the mutex held. -/
  | condWait (timed : Bool)
  /-- Suspended in the condition wait, which has unlocked the mutex. -/
  | asleep (timed : Bool)
  /-- The suspension has ended with `ret`, and the condition wait locks the mutex again. -/
  | relock (timed : Bool) (ret : ℤ)
  | condReturned (timed : Bool) (ret : ℤ)
  | unlock (ret : ℤ)
  | returned (ret : ℤ)
  deriving DecidableEq, Repr

namespace ProxyWait

/-- Not inside a call. -/
def isFree : ProxyWait → Bool
  | idle | returned _ => true
  | _ => false

/-- With the proxy mutex held. -/
def holds : ProxyWait → Bool
  | locked _ | condWait _ | condReturned _ _ | unlock _ => true
  | _ => false

/-- Inside the loop around the condition wait. -/
def inLoop : ProxyWait → Bool
  | condWait _ | asleep _ | relock _ _ | condReturned _ _ => true
  | _ => false

/-- After a look at the tokens: the call returns `ret`, or goes to the condition wait. -/
def decided (timed : Bool) : Option ℤ → ProxyWait
  | some ret => unlock ret
  | none => condWait timed

theorem decided_holds (timed : Bool) (r : Option ℤ) : (decided timed r).holds = true := by
  cases r <;> rfl

end ProxyWait

/-- Where a thread stands in `pthread_proxy_wake`. -/
inductive ProxyWake
  | idle
  | lock (maxThreads : BitVec 32) (registered : BitVec 32)
  | locked (maxThreads : BitVec 32) (registered : BitVec 32)
  | unlock (ret : ℤ)
  | returned (ret : ℤ)
  deriving DecidableEq, Repr

namespace ProxyWake

def isFree : ProxyWake → Bool
  | idle | returned _ => true
  | _ => false

def holds : ProxyWake → Bool
  | locked _ _ | unlock _ => true
  | _ => false

end ProxyWake

/-- A proxy, the owner of its mutex, and the threads `ι` that wait and `κ` that wake. -/
structure ProxyState (ι κ : Type) where
  owner : Option (ι ⊕ κ)
  proxy : PthreadProxy
  waits : ι → ProxyWait
  wakes : κ → ProxyWake

inductive ProxyAction (ι κ : Type)
  | callWait (i : ι) (timed : Bool)
  /-- The next step of a waiting thread in which no pthreads call fails. -/
  | wait (i : ι)
  | waitLockFails (i : ι) (ret : ℕ)
  /-- The condition wait returns without a suspension. -/
  | condReturns (i : ι) (ret : ℤ)
  /-- A suspension ends: woken, timed out or with an error. -/
  | unblock (i : ι) (ret : ℤ)
  | callWake (j : κ) (maxThreads : BitVec 32) (registered : BitVec 32)
  /-- The next step of a waking thread; the signal or broadcast returns `condWake`. -/
  | wake (j : κ) (condWake : ℕ)
  | wakeLockFails (j : κ) (ret : ℕ)

section Step

variable {ι κ : Type} [DecidableEq ι] [DecidableEq κ] (cfg : Platform)

namespace ProxyState

def setWait (s : ProxyState ι κ) (i : ι) (t : ProxyWait) : ProxyState ι κ :=
  { s with waits := Function.update s.waits i t }

def setWake (s : ProxyState ι κ) (j : κ) (t : ProxyWake) : ProxyState ι κ :=
  { s with wakes := Function.update s.wakes j t }

/-- Whether a thread is in a critical section of the proxy mutex. -/
def holds (s : ProxyState ι κ) : ι ⊕ κ → Bool
  | .inl i => (s.waits i).holds
  | .inr j => (s.wakes j).holds

end ProxyState

/-- What a condition wait, timed or not, can return. -/
def condCanReturn (timed : Bool) (ret : ℤ) : Prop := ret = cfg.errno.ETIMEDOUT → timed = true

instance (timed : Bool) (ret : ℤ) : Decidable (condCanReturn cfg timed ret) :=
  inferInstanceAs (Decidable (_ → _))

/-- One step of the threads of the proxy. Behind its unlock a call only restores `errno`, so the unlock
is where it returns. -/
def proxyStep (s : ProxyState ι κ) : ProxyAction ι κ → Option (ProxyState ι κ)
  | .callWait i timed => if (s.waits i).isFree then some (s.setWait i (.lock timed)) else none
  | .wait i =>
    match s.waits i with
    | .lock timed =>
      if s.owner = none then some ({ s with owner := some (.inl i) }.setWait i (.locked timed))
      else none
    | .locked timed =>
      let r := s.proxy.enter
      some ({ s with proxy := r.1 }.setWait i (.decided timed r.2))
    | .condWait timed => some ({ s with owner := none }.setWait i (.asleep timed))
    | .relock timed ret =>
      if s.owner = none then
        some ({ s with owner := some (.inl i) }.setWait i (.condReturned timed ret))
      else none
    | .condReturned timed ret =>
      let r := s.proxy.resume cfg ret
      some ({ s with proxy := r.1 }.setWait i (.decided timed r.2))
    | .unlock ret => some ({ s with owner := none }.setWait i (.returned ret))
    | .idle | .asleep _ | .returned _ => none
  | .waitLockFails i ret =>
    match s.waits i with
    | .lock _ => if ret ≠ 0 then some (s.setWait i (.returned (-ret))) else none
    | _ => none
  | .condReturns i ret =>
    match s.waits i with
    | .condWait timed =>
      if condCanReturn cfg timed ret then some (s.setWait i (.condReturned timed ret)) else none
    | _ => none
  | .unblock i ret =>
    match s.waits i with
    | .asleep timed =>
      if condCanReturn cfg timed ret then some (s.setWait i (.relock timed ret)) else none
    | _ => none
  | .callWake j maxThreads registered =>
    if (s.wakes j).isFree then some (s.setWake j (.lock maxThreads registered)) else none
  | .wake j condWake =>
    match s.wakes j with
    | .lock maxThreads registered =>
      if s.owner = none then
        some ({ s with owner := some (.inr j) }.setWake j (.locked maxThreads registered))
      else none
    | .locked maxThreads registered =>
      let env : WakeEnv := ⟨⟨0, 0⟩, 0, condWake, s.proxy.waiting⟩
      some ({ s with proxy := s.proxy.wake cfg maxThreads registered.toInt }.setWake j
        (.unlock (pthreadProxyWake maxThreads env 0).1))
    | .unlock ret => some ({ s with owner := none }.setWake j (.returned ret))
    | .idle | .returned _ => none
  | .wakeLockFails j ret =>
    match s.wakes j with
    | .lock _ _ => if ret ≠ 0 then some (s.setWake j (.returned (-ret))) else none
    | _ => none

/-- The state `pthread_proxy_init` leaves, before the first call. -/
def ProxyState.start : ProxyState ι κ := ⟨none, ⟨0, 0⟩, fun _ => .idle, fun _ => .idle⟩

/-- The threads of one proxy. -/
def proxySystem (ι κ : Type) [DecidableEq ι] [DecidableEq κ] (cfg : Platform) :
    Lts (ProxyState ι κ) (ProxyAction ι κ) :=
  .ofFun (· = .start) (proxyStep cfg)

/-- What one step of the threads of a proxy can do. -/
inductive ProxyStep (s : ProxyState ι κ) : ProxyAction ι κ → ProxyState ι κ → Prop
  /-- A step of a waiting thread without the mutex, which neither enters nor leaves the loop. -/
  | waitOutside (a : ProxyAction ι κ) (i : ι) (t : ProxyWait) : (∀ k, a ≠ .wait k) →
      (∀ k c, a ≠ .wake k c) → (s.waits i).holds = false → t.holds = false →
      t.inLoop = (s.waits i).inLoop → ProxyStep s a (s.setWait i t)
  | waitLocks (i : ι) (t : ProxyWait) : s.owner = none → (s.waits i).holds = false →
      t.holds = true → (∀ ret, t ≠ .unlock ret) → t.inLoop = (s.waits i).inLoop →
      ProxyStep s (.wait i) ({ s with owner := some (.inl i) }.setWait i t)
  | enters (i : ι) (timed : Bool) : s.waits i = .locked timed →
      ProxyStep s (.wait i)
        ({ s with proxy := s.proxy.enter.1 }.setWait i (.decided timed s.proxy.enter.2))
  | sleeps (i : ι) (timed : Bool) : s.waits i = .condWait timed →
      ProxyStep s (.wait i) ({ s with owner := none }.setWait i (.asleep timed))
  | condReturns (i : ι) (timed : Bool) (ret : ℤ) : s.waits i = .condWait timed →
      ProxyStep s (.condReturns i ret) (s.setWait i (.condReturned timed ret))
  | resumes (i : ι) (timed : Bool) (ret : ℤ) : s.waits i = .condReturned timed ret →
      ProxyStep s (.wait i)
        ({ s with proxy := (s.proxy.resume cfg ret).1 }.setWait i
          (.decided timed (s.proxy.resume cfg ret).2))
  | waitUnlocks (i : ι) (ret : ℤ) : s.waits i = .unlock ret →
      ProxyStep s (.wait i) ({ s with owner := none }.setWait i (.returned ret))
  | wakeOutside (a : ProxyAction ι κ) (j : κ) (t : ProxyWake) : (∀ k, a ≠ .wait k) →
      (∀ k c, a ≠ .wake k c) → (s.wakes j).holds = false → t.holds = false →
      ProxyStep s a (s.setWake j t)
  | wakeLocks (j : κ) (condWake : ℕ) (maxThreads registered : BitVec 32) : s.owner = none →
      s.wakes j = .lock maxThreads registered →
      ProxyStep s (.wake j condWake)
        ({ s with owner := some (.inr j) }.setWake j (.locked maxThreads registered))
  | wakes (j : κ) (condWake : ℕ) (maxThreads registered : BitVec 32) (ret : ℤ) :
      s.wakes j = .locked maxThreads registered →
      ProxyStep s (.wake j condWake)
        ({ s with proxy := s.proxy.wake cfg maxThreads registered.toInt }.setWake j (.unlock ret))
  | wakeUnlocks (j : κ) (condWake : ℕ) (ret : ℤ) : s.wakes j = .unlock ret →
      ProxyStep s (.wake j condWake) ({ s with owner := none }.setWake j (.returned ret))

variable {cfg} {s s' : ProxyState ι κ}

/-- The steps of a waiting thread without a failure. -/
theorem proxyStep_wait {i : ι} (h : proxyStep cfg s (.wait i) = some s') :
    ProxyStep cfg s (.wait i) s' := by
  simp only [proxyStep] at h
  split at h
  · next timed hi =>
    simp only [Option.ite_none_right_eq_some, Option.some.injEq] at h
    obtain ⟨hfree, rfl⟩ := h
    exact .waitLocks i _ hfree (by rw [hi]; rfl) rfl nofun (by rw [hi]; rfl)
  · next timed hi =>
    cases h
    exact .enters i timed hi
  · next timed hi =>
    cases h
    exact .sleeps i timed hi
  · next timed ret hi =>
    simp only [Option.ite_none_right_eq_some, Option.some.injEq] at h
    obtain ⟨hfree, rfl⟩ := h
    exact .waitLocks i _ hfree (by rw [hi]; rfl) rfl nofun (by rw [hi]; rfl)
  · next timed ret hi =>
    cases h
    exact .resumes i timed ret hi
  · next ret hi =>
    cases h
    exact .waitUnlocks i ret hi
  all_goals cases h

/-- The steps of a waking thread without a failure of its lock. -/
theorem proxyStep_wake {j : κ} {condWake : ℕ}
    (h : proxyStep cfg s (.wake j condWake) = some s') : ProxyStep cfg s (.wake j condWake) s' := by
  simp only [proxyStep] at h
  split at h
  · next maxThreads registered hj =>
    simp only [Option.ite_none_right_eq_some, Option.some.injEq] at h
    obtain ⟨hfree, rfl⟩ := h
    exact .wakeLocks j condWake maxThreads registered hfree hj
  · next maxThreads registered hj =>
    cases h
    exact .wakes j condWake maxThreads registered _ hj
  · next ret hj =>
    cases h
    exact .wakeUnlocks j condWake ret hj
  all_goals cases h

/-- **The step inversion.** -/
theorem proxyStep_cases {a : ProxyAction ι κ} (h : proxyStep cfg s a = some s') :
    ProxyStep cfg s a s' := by
  cases a with
  | wait i => exact proxyStep_wait h
  | wake j condWake => exact proxyStep_wake h
  | callWait i timed =>
    simp only [proxyStep, Option.ite_none_right_eq_some, Option.some.injEq] at h
    obtain ⟨hfree, rfl⟩ := h
    refine .waitOutside _ i _ nofun nofun ?_ rfl ?_
    · cases hi : s.waits i <;> simp_all [ProxyWait.isFree, ProxyWait.holds]
    · cases hi : s.waits i <;> simp_all [ProxyWait.isFree, ProxyWait.inLoop]
  | waitLockFails i ret =>
    simp only [proxyStep] at h
    split at h
    · next timed hi =>
      simp only [Option.ite_none_right_eq_some, Option.some.injEq] at h
      obtain ⟨-, rfl⟩ := h
      exact .waitOutside _ i _ nofun nofun (by rw [hi]; rfl) rfl (by rw [hi]; rfl)
    · cases h
  | condReturns i ret =>
    simp only [proxyStep] at h
    split at h
    · next timed hi =>
      simp only [Option.ite_none_right_eq_some, Option.some.injEq] at h
      obtain ⟨-, rfl⟩ := h
      exact .condReturns i timed ret hi
    · cases h
  | unblock i ret =>
    simp only [proxyStep] at h
    split at h
    · next timed hi =>
      simp only [Option.ite_none_right_eq_some, Option.some.injEq] at h
      obtain ⟨-, rfl⟩ := h
      exact .waitOutside _ i _ nofun nofun (by rw [hi]; rfl) rfl (by rw [hi]; rfl)
    · cases h
  | callWake j maxThreads registered =>
    simp only [proxyStep, Option.ite_none_right_eq_some, Option.some.injEq] at h
    obtain ⟨hfree, rfl⟩ := h
    refine .wakeOutside _ j _ nofun nofun ?_ rfl
    cases hj : s.wakes j <;> simp_all [ProxyWake.isFree, ProxyWake.holds]
  | wakeLockFails j ret =>
    simp only [proxyStep] at h
    split at h
    · next maxThreads registered hj =>
      simp only [Option.ite_none_right_eq_some, Option.some.injEq] at h
      obtain ⟨-, rfl⟩ := h
      exact .wakeOutside _ j _ nofun nofun (by rw [hj]; rfl) rfl
    · cases h

/-! ### The owner of the mutex -/

theorem ProxyState.holds_setWait (s : ProxyState ι κ) (i : ι) (t : ProxyWait) :
    (s.setWait i t).holds = Function.update s.holds (.inl i) t.holds := by
  funext b
  cases b with
  | inl k =>
    show (Function.update s.waits i t k).holds = _
    by_cases hk : k = i
    · subst hk
      rw [Function.update_self, Function.update_self]
    · rw [Function.update_of_ne hk, Function.update_of_ne (by simpa using hk)]
      rfl
  | inr j =>
    rw [Function.update_of_ne (by simp)]
    rfl

theorem ProxyState.holds_setWake (s : ProxyState ι κ) (j : κ) (t : ProxyWake) :
    (s.setWake j t).holds = Function.update s.holds (.inr j) t.holds := by
  funext b
  cases b with
  | inl i =>
    rw [Function.update_of_ne (by simp)]
    rfl
  | inr k =>
    show (Function.update s.wakes j t k).holds = _
    by_cases hk : k = j
    · subst hk
      rw [Function.update_self, Function.update_self]
    · rw [Function.update_of_ne hk, Function.update_of_ne (by simpa using hk)]
      rfl

/-- **Mutual exclusion is kept by each step.** -/
theorem ProxyStep.owns {a : ProxyAction ι κ} (hs : ProxyStep cfg s a s')
    (h : Mutex.Owns s.owner s.holds) : Mutex.Owns s'.owner s'.holds := by
  have waits : ∀ {i : ι} {t : ProxyWait}, s.waits i = t → s.holds (.inl i) = t.holds :=
    fun hi => congrArg ProxyWait.holds hi
  have wakes : ∀ {j : κ} {t : ProxyWake}, s.wakes j = t → s.holds (.inr j) = t.holds :=
    fun hj => congrArg ProxyWake.holds hj
  cases hs with
  | waitOutside _ i t _ _ hi ht =>
    rw [ProxyState.holds_setWait]
    exact h.keep (ht.trans hi.symm)
  | waitLocks i t hfree _ ht =>
    rw [ProxyState.holds_setWait, ht]
    exact h.lock hfree _
  | enters i timed hi | resumes i timed ret hi =>
    rw [ProxyState.holds_setWait]
    exact h.keep ((ProxyWait.decided_holds _ _).trans (waits hi).symm)
  | sleeps i timed hi =>
    rw [ProxyState.holds_setWait]
    exact h.unlock (waits hi)
  | condReturns i timed ret hi =>
    rw [ProxyState.holds_setWait]
    exact h.keep (waits hi).symm
  | waitUnlocks i ret hi =>
    rw [ProxyState.holds_setWait]
    exact h.unlock (waits hi)
  | wakeOutside _ j t _ _ hj ht =>
    rw [ProxyState.holds_setWake]
    exact h.keep (ht.trans hj.symm)
  | wakeLocks j c maxThreads registered hfree hj =>
    rw [ProxyState.holds_setWake]
    exact h.lock hfree _
  | wakes j c maxThreads registered ret hj =>
    rw [ProxyState.holds_setWake]
    exact h.keep (wakes hj).symm
  | wakeUnlocks j c ret hj =>
    rw [ProxyState.holds_setWake]
    exact h.unlock (wakes hj)

end Step

end AtomicWaits
