import AtomicWaits.ThreadView
import AtomicWaits.ProxyLifetime
import AtomicWaits.ProxyAccounting

/-!
# Each proxy is a component of the system

`proxySystem` is one pthreads proxy with any threads around it. Here the proxies of the whole system are found
in it: what the threads over the table do to one proxy, from its initialisation on, is a run of `proxySystem`
(`ProxyView`, `SysStep.component`).

* `proxy_component`: in every reachable state each allocated proxy stands as some run of `proxySystem` leaves
  it, so its counters mean what `ProxyAccounting` says.
* `destroyed_idle`: the proxy that `hash_table_remove_item` destroys has nobody in its functions, so the
  `abort()` behind a failing `pthread_proxy_destroy` is never reached.

The table system lets every suspension time out; a call on a proxy is taken as a timed one.
-/

namespace AtomicWaits

open Lib

/-! ### One call in a run of the proxy -/

section Calls

variable {ι κ : Type} [DecidableEq ι] [DecidableEq κ] {cfg : Platform} {x : ProxyState ι κ}

/-- Where a call stands when it has left its critical section. -/
def ProxyWait.settled (timed : Bool) : Option ℤ → ProxyWait
  | some ret => returned ret
  | none => asleep timed

/-- From a call to its first suspension, or to its return. -/
theorem ProxyState.call_wait (hfree : x.owner = none) {i : ι} (hi : (x.waits i).isFree = true) :
    (proxySystem ι κ cfg).Steps x
      ({ x with proxy := x.proxy.enter.1 }.setWait i (.settled true x.proxy.enter.2)) := by
  have hrun : Lts.exec (proxyStep cfg) x [.callWait i true, .wait i, .wait i, .wait i]
      = some ({ x with proxy := x.proxy.enter.1 }.setWait i (.settled true x.proxy.enter.2)) := by
    cases henter : x.proxy.enter.2 with
    | none | some ret =>
      simp [Lts.exec, proxyStep, setWait, hi, hfree, henter, ProxyWait.decided, ProxyWait.settled]
  exact Lts.steps_of_exec _ _ hrun

theorem ProxyState.unblock_wait {i : ι} (hi : x.waits i = .asleep true) (ret : ℤ) :
    (proxySystem ι κ cfg).Steps x (x.setWait i (.relock true ret)) := by
  have hrun : Lts.exec (proxyStep cfg) x [.unblock i ret] = some (x.setWait i (.relock true ret)) := by
    simp [Lts.exec, proxyStep, hi, condCanReturn]
  exact Lts.steps_of_exec _ _ hrun

/-- From the end of a suspension to the next one, or to the return. -/
theorem ProxyState.resume_wait (hfree : x.owner = none) {i : ι} {ret : ℤ}
    (hi : x.waits i = .relock true ret) :
    (proxySystem ι κ cfg).Steps x
      ({ x with proxy := (x.proxy.resume cfg ret).1 }.setWait i
        (.settled true (x.proxy.resume cfg ret).2)) := by
  have hrun : Lts.exec (proxyStep cfg) x [.wait i, .wait i, .wait i]
      = some ({ x with proxy := (x.proxy.resume cfg ret).1 }.setWait i
          (.settled true (x.proxy.resume cfg ret).2)) := by
    cases hresume : (x.proxy.resume cfg ret).2 with
    | none | some ret2 =>
      simp [Lts.exec, proxyStep, setWait, hi, hfree, hresume, ProxyWait.decided, ProxyWait.settled]
  exact Lts.steps_of_exec _ _ hrun

theorem ProxyState.call_wake (hfree : x.owner = none) {j : κ} (hj : (x.wakes j).isFree = true)
    (maxThreads registered : BitVec 32) :
    ∃ ret, (proxySystem ι κ cfg).Steps x
      ({ x with proxy := x.proxy.wake cfg maxThreads registered.toInt }.setWake j (.returned ret)) := by
  refine ⟨(pthreadProxyWake maxThreads ⟨⟨0, 0⟩, 0, 0, x.proxy.waiting⟩ 0).1, ?_⟩
  have hrun : Lts.exec (proxyStep cfg) x [.callWake j maxThreads registered, .wake j 0, .wake j 0, .wake j 0]
      = some ({ x with proxy := x.proxy.wake cfg maxThreads registered.toInt }.setWake j
          (.returned (pthreadProxyWake maxThreads ⟨⟨0, 0⟩, 0, 0, x.proxy.waiting⟩ 0).1)) := by
    simp [Lts.exec, proxyStep, setWake, hj, hfree]
  exact Lts.steps_of_exec _ _ hrun

end Calls

/-! ### One proxy of the system -/

section View

variable {ι κ V : Type} {cfg : Platform} {waits : ι → WaitThread V} {p : ℕ} {w : PthreadProxy}
  {x : ProxyState ι κ}

/-- Where the call of a thread on the proxy `p` stands, if the thread is suspended there. -/
def WaitThread.proxyWait (p : ℕ) : WaitThread V → Option ProxyWait
  | .blocked f => if f.item = some p then some (.asleep true) else none
  | .woken f ret => if f.item = some p then some (.relock true ret) else none
  | _ => none

theorem WaitThread.proxyWait_of_isFree {t : WaitThread V} (h : t.isFree = true) : t.proxyWait p = none := by
  cases t with
  | idle | running f => rfl
  | blocked f | woken f ret => cases h

/-- A thread that is not suspended on the proxy is not inside a call on it. -/
def ProxyWait.Matches (t : ProxyWait) : Option ProxyWait → Prop
  | some t' => t = t'
  | none => t.isFree = true

/-- The threads `waits` and the proxy `p`, which is in the state `w`, stand as in `x`. -/
structure ProxyView (waits : ι → WaitThread V) (p : ℕ) (w : PthreadProxy) (x : ProxyState ι κ) : Prop where
  owner : x.owner = none
  proxy : x.proxy = w
  waits : ∀ i, (x.waits i).Matches ((waits i).proxyWait p)
  wakes : ∀ j, (x.wakes j).isFree = true

namespace ProxyView

theorem start (h : ∀ i, (waits i).proxyWait p = none) :
    ProxyView waits p ⟨0, 0⟩ (.start : ProxyState ι κ) :=
  ⟨rfl, rfl, fun i => by rw [h i]; rfl, fun _ => rfl⟩

theorem inside (h : ProxyView waits p w x) {i : ι} {t : ProxyWait} (hi : (waits i).proxyWait p = some t) :
    x.waits i = t := by
  have hmatches := h.waits i
  rw [hi] at hmatches
  exact hmatches

theorem outside (h : ProxyView waits p w x) {i : ι} (hi : (waits i).proxyWait p = none) :
    (x.waits i).isFree = true := by
  have hmatches := h.waits i
  rw [hi] at hmatches
  exact hmatches

/-- The loop around the condition wait is where a thread is suspended. -/
theorem inLoop_eq (h : ProxyView waits p w x) (i : ι) : (x.waits i).inLoop = ((waits i).proxyWait p).isSome := by
  cases hi : (waits i).proxyWait p with
  | none =>
    have hfree := h.outside hi
    cases hx : x.waits i <;> simp_all [ProxyWait.isFree, ProxyWait.inLoop]
  | some t =>
    rw [h.inside hi]
    cases hw : waits i with
    | idle | running f =>
      rw [hw] at hi
      cases hi
    | blocked f | woken f ret =>
      rw [hw] at hi
      rw [← Option.some.inj (Option.ite_none_right_eq_some.mp hi).2]
      rfl

/-- The state of the proxy changes. -/
theorem withProxy (h : ProxyView waits p w x) (w' : PthreadProxy) : ProxyView waits p w' { x with proxy := w' } :=
  ⟨h.owner, rfl, h.waits, h.wakes⟩

variable [DecidableEq ι]

/-- A thread moves on the proxy. -/
theorem update (h : ProxyView waits p w x) {i : ι} {t : WaitThread V} {t' : ProxyWait}
    (ht : t'.Matches (t.proxyWait p)) : ProxyView (Function.update waits i t) p w (x.setWait i t') := by
  refine ⟨h.owner, h.proxy, fun k => ?_, h.wakes⟩
  show (Function.update x.waits i t' k).Matches ((Function.update waits i t k).proxyWait p)
  by_cases hk : k = i
  · subst hk
    rw [Function.update_self, Function.update_self]
    exact ht
  · rw [Function.update_of_ne hk, Function.update_of_ne hk]
    exact h.waits k

/-- A thread moves elsewhere. -/
theorem update_elsewhere (h : ProxyView waits p w x) {i : ι} {t : WaitThread V}
    (ht : t.proxyWait p = (waits i).proxyWait p) : ProxyView (Function.update waits i t) p w x := by
  refine ⟨h.owner, h.proxy, fun k => ?_, h.wakes⟩
  by_cases hk : k = i
  · subst hk
    rw [Function.update_self, ht]
    exact h.waits k
  · rw [Function.update_of_ne hk]
    exact h.waits k

variable [DecidableEq κ]

omit [DecidableEq ι] in
theorem wake (h : ProxyView waits p w x) (j : κ) (ret : ℤ) :
    ProxyView waits p w (x.setWake j (.returned ret)) := by
  refine ⟨h.owner, h.proxy, h.waits, fun k => ?_⟩
  show (Function.update x.wakes j (.returned ret) k).isFree = true
  by_cases hk : k = j
  · subst hk
    rw [Function.update_self]
    rfl
  · rw [Function.update_of_ne hk]
    exact h.wakes k

/-- The suspensions of some threads end, on this proxy and elsewhere. -/
theorem signal (h : ProxyView waits p w x) (woken : Finset ι) :
    ∃ x', (proxySystem ι κ cfg).Steps x x' ∧
      ProxyView (fun i => if i ∈ woken then (waits i).wake else waits i) p w x' := by
  induction woken using Finset.induction_on with
  | empty =>
    refine ⟨x, .refl, ?_⟩
    simpa using h
  | insert i woken hi ih =>
    obtain ⟨x', hsteps, hview⟩ := ih
    have hwaits : (fun k => if k ∈ insert i woken then (waits k).wake else waits k)
        = Function.update (fun k => if k ∈ woken then (waits k).wake else waits k) i (waits i).wake := by
      funext k
      by_cases hk : k = i
      · subst hk
        rw [Function.update_self, if_pos (Finset.mem_insert_self k woken)]
      · rw [Function.update_of_ne hk]
        simp only [Finset.mem_insert, hk, false_or]
    rw [hwaits]
    have hat : (if i ∈ woken then (waits i).wake else waits i) = waits i := if_neg hi
    cases ht : waits i with
    | blocked f =>
      by_cases hp : f.item = some p
      · have hasleep : x'.waits i = .asleep true := by
          refine hview.inside ?_
          show (if i ∈ woken then (waits i).wake else waits i).proxyWait p = _
          rw [hat, ht]
          exact if_pos hp
        refine ⟨_, hsteps.trans (ProxyState.unblock_wait hasleep 0), ?_⟩
        refine hview.update ?_
        rw [show (WaitThread.wake (.blocked f)).proxyWait p = some (.relock true 0) from if_pos hp]
        rfl
      · refine ⟨x', hsteps, hview.update_elsewhere ?_⟩
        show (WaitThread.woken f 0).proxyWait p = (if i ∈ woken then (waits i).wake else waits i).proxyWait p
        rw [hat, ht]
        show (if f.item = some p then _ else _) = (if f.item = some p then _ else _)
        rw [if_neg hp, if_neg hp]
    | idle | running f | woken f ret =>
      refine ⟨x', hsteps, hview.update_elsewhere ?_⟩
      show _ = (if i ∈ woken then (waits i).wake else waits i).proxyWait p
      rw [hat, ht]
      rfl

end ProxyView

end View

/-! ### The steps of the system -/

section System

variable {ι κ V : Type} [DecidableEq ι] [DecidableEq κ] [DecidableEq V] [Fintype ι] [Fintype κ]
  {cfg : Platform} {monotonic : Bool} {s s' : Sys ι κ V PthreadProxy} {p : ℕ}

omit [DecidableEq ι] [DecidableEq κ] [DecidableEq V] [Fintype ι] [Fintype κ] in
theorem Shared.proxyCall_of_cell {X : Type} {sh : Shared V X} {item : Option ℕ} {w : ProxyWaiter X}
    (hp : item = some p) (hw : sh.store.heap.cell p = some w) (g : X → X × Option ℤ) :
    (sh.proxyCall item g).2 = (g w.atomic).2 := by
  subst hp
  show (sh.store.heap.cell p).bind _ = _
  rw [hw]
  rfl

omit [DecidableEq ι] [DecidableEq κ] [DecidableEq V] in
/-- A proxy is counted on by less than `INT_MAX` threads when there are no more. -/
theorem SysInv.useCount_lt {X : Type} {s : Sys ι κ V X} (hinv : SysInv s) (hcard : Fintype.card ι < 2 ^ 31)
    {w : ProxyWaiter X} (hw : s.shared.store.heap.cell p = some w) : 0 ≤ w.useCount ∧ w.useCount < 2 ^ 31 := by
  obtain ⟨object, he⟩ := hinv.registry.wf.owned p (Option.isSome_iff_exists.mpr ⟨w, hw⟩)
  obtain ⟨w', hw', hcount⟩ := hinv.lifetime.useCount object p he
  obtain rfl : w = w' := Option.some.inj (hw.symm.trans hw')
  have hle := Finset.card_le_univ (Finset.univ.filter fun i => (s.waits i).registeredOn = some object)
  omega

/-- **Each step of the system is a run of the proxy**, as long as it is allocated. -/
theorem SysStep.component {a : Action ι κ V} (hs : SysStep (pthreadProxy cfg monotonic) cfg s a s')
    (hinv : SysInv s) {w w' : ProxyWaiter PthreadProxy}
    (hw : s.shared.store.heap.cell p = some w) (hw' : s'.shared.store.heap.cell p = some w')
    (huse : 0 ≤ w.useCount ∧ w.useCount < 2 ^ 31) {x : ProxyState ι κ}
    (hv : ProxyView s.waits p w.atomic x) :
    ∃ x', (proxySystem ι κ cfg).Steps x x' ∧ ProxyView s'.waits p w'.atomic x' := by
  have heff := hs.cell_effect hinv hw hw'
  rw [heff]
  -- a call that goes to its first suspension, or returns
  have calls : ∀ i f, s.waits i = .running f → ∀ t : WaitThread V,
      (ProxyWait.settled true w.atomic.enter.2).Matches (t.proxyWait p) →
      ∃ x', (proxySystem ι κ cfg).Steps x x' ∧
        ProxyView (Function.update s.waits i t) p w.atomic.enter.1 x' := by
    intro i f hi t ht
    have hout : (x.waits i).isFree = true := hv.outside (by rw [hi]; rfl)
    refine ⟨_, ProxyState.call_wait hv.owner hout, ?_⟩
    rw [hv.proxy]
    exact (hv.withProxy _).update ht
  -- a call that goes on after a suspension
  have resumes : ∀ i f ret, s.waits i = .woken f ret → f.item = some p → ∀ t : WaitThread V,
      (ProxyWait.settled true (w.atomic.resume cfg ret).2).Matches (t.proxyWait p) →
      ∃ x', (proxySystem ι κ cfg).Steps x x' ∧
        ProxyView (Function.update s.waits i t) p (w.atomic.resume cfg ret).1 x' := by
    intro i f ret hi hp t ht
    have hrelock : x.waits i = .relock true ret := hv.inside (by rw [hi]; exact if_pos hp)
    refine ⟨_, ProxyState.resume_wait hv.owner hrelock, ?_⟩
    rw [hv.proxy]
    exact (hv.withProxy _).update ht
  cases hs with
  | store object v => exact ⟨x, .refl, hv⟩
  | callWait i object expected duration success failure errno hfree hlive =>
    exact ⟨x, .refl, hv.update_elsewhere (WaitThread.proxyWait_of_isFree hfree).symm⟩
  | wait i env f f' ev sh hi hacc hstep =>
    exact ⟨x, .refl, hv.update_elsewhere (by rw [hi]; rfl)⟩
  | parkSleeps i f hi hpc hr =>
    by_cases hp : f.item = some p
    · simp only [Action.effect, hi, if_pos hp]
      refine calls i f hi _ ?_
      rw [show w.atomic.enter.2 = none from (Shared.proxyCall_of_cell hp hw _).symm.trans hr]
      rw [show (WaitThread.blocked f).proxyWait p = some (.asleep true) from if_pos hp]
      rfl
    · simp only [Action.effect, hi, if_neg hp]
      refine ⟨x, .refl, hv.update_elsewhere ?_⟩
      rw [hi]
      exact if_neg hp
  | parkReturns i f f' ret2 hi hr hstep =>
    by_cases hp : f.item = some p
    · simp only [Action.effect, hi, if_pos hp]
      refine calls i f hi _ ?_
      rw [show w.atomic.enter.2 = some ret2 from (Shared.proxyCall_of_cell hp hw _).symm.trans hr]
      rfl
    · simp only [Action.effect, hi, if_neg hp]
      exact ⟨x, .refl, hv.update_elsewhere (by rw [hi]; rfl)⟩
  | parkFails i f f' ret2 hi hstep =>
    exact ⟨x, .refl, hv.update_elsewhere (by rw [hi]; rfl)⟩
  | unblock i f ret hi =>
    by_cases hp : f.item = some p
    · have hasleep : x.waits i = .asleep true := hv.inside (by rw [hi]; exact if_pos hp)
      refine ⟨_, ProxyState.unblock_wait hasleep ret, ?_⟩
      refine hv.update ?_
      rw [show (WaitThread.woken f ret).proxyWait p = some (.relock true ret) from if_pos hp]
      rfl
    · refine ⟨x, .refl, hv.update_elsewhere ?_⟩
      rw [hi]
      exact (if_neg hp).trans (if_neg hp).symm
  | resumeSleeps i f ret hi hr =>
    by_cases hp : f.item = some p
    · simp only [Action.effect, hi, if_pos hp]
      refine resumes i f ret hi hp _ ?_
      rw [show (w.atomic.resume cfg ret).2 = none from (Shared.proxyCall_of_cell hp hw _).symm.trans hr]
      rw [show (WaitThread.blocked f).proxyWait p = some (.asleep true) from if_pos hp]
      rfl
    · simp only [Action.effect, hi, if_neg hp]
      refine ⟨x, .refl, hv.update_elsewhere ?_⟩
      rw [hi]
      exact (if_neg hp).trans (if_neg hp).symm
  | resumeReturns i f f' ret ret2 hi hr hstep =>
    by_cases hp : f.item = some p
    · simp only [Action.effect, hi, if_pos hp]
      refine resumes i f ret hi hp _ ?_
      rw [show (w.atomic.resume cfg ret).2 = some ret2 from (Shared.proxyCall_of_cell hp hw _).symm.trans hr]
      rfl
    · simp only [Action.effect, hi, if_neg hp]
      refine ⟨x, .refl, hv.update_elsewhere ?_⟩
      rw [hi]
      exact (if_neg hp).symm
  | callNotify j object maxThreads errno hpc hlive => exact ⟨x, .refl, hv⟩
  | notifyLock j alloc woken hpc hfree | notifyFind j alloc woken r hpc hr | notifyUnlock j alloc woken hpc =>
    refine ⟨x, .refl, ?_⟩
    rw [show Action.effect (pthreadProxy cfg monotonic) s p w (.notify j alloc woken) = w.atomic by
      simp [Action.effect, hpc]]
    exact hv
  | notifyWakeAtOnce j alloc woken hpc hk hsig =>
    by_cases hp : (s.notifies j).item = some p
    · simp only [Action.effect, hpc, hp, true_and, if_true]
      have hregistered : (BitVec.ofInt 32 w.useCount).toInt = w.useCount := by
        rw [BitVec.toInt_ofInt]
        exact wrapInt_int (by omega) huse.2
      obtain ⟨ret, hsteps⟩ : ∃ ret, (proxySystem ι κ cfg).Steps x _ :=
        ProxyState.call_wake hv.owner (hv.wakes j) (s.notifies j).maxThreads (BitVec.ofInt 32 w.useCount)
      rw [hv.proxy, hregistered] at hsteps
      obtain ⟨x', hunblocks, hview⟩ := ((hv.withProxy _).wake j ret).signal woken
      exact ⟨x', hsteps.trans hunblocks, hview⟩
    · rw [show Action.effect (pthreadProxy cfg monotonic) s p w (.notify j alloc woken) = w.atomic by
        simp [Action.effect, hp]]
      exact hv.signal woken
  | notifyWake j alloc woken hpc hk => cases hk
  | notifySignal j alloc woken hpc hsig =>
    rw [show Action.effect (pthreadProxy cfg monotonic) s p w (.notify j alloc woken) = w.atomic by
      simp [Action.effect, hpc]]
    exact hv.signal woken

/-- Nobody is suspended on a proxy that has just been allocated. -/
theorem SysStep.unused {a : Action ι κ V} {K : ProxyKind PthreadProxy} (hs : SysStep K cfg s a s')
    (hinv : SysInv s) (hnone : s.shared.store.heap.cell p = none) (i : ι) : (s'.waits i).proxyWait p = none := by
  -- a thread at its park call has an allocated proxy
  have parked : ∀ f, (s.waits i).frame = some f → f.pc = .park → f.item ≠ some p := by
    intro f hf hpc hp
    obtain ⟨q, hq, -, hcell⟩ := hinv.lifetime.parked i f hf hpc
    obtain rfl : q = p := Option.some.inj (hq.symm.trans hp)
    rw [hnone] at hcell
    cases hcell
  have blocked : ∀ f, s.waits i = .blocked f → f.item ≠ some p := fun f hi =>
    parked f (by rw [hi]; rfl) (hinv.frames.blocked hi).2
  have woken : ∀ f ret, s.waits i = .woken f ret → f.item ≠ some p := fun f ret hi =>
    parked f (by rw [hi]; rfl) (hinv.frames.woken hi).2
  have hthread := hs.thread i
  generalize hi' : s'.waits i = t' at hthread ⊢
  generalize hi : s.waits i = t at hthread
  cases hthread with
  | other _ _ =>
    cases t' with
    | idle | running f => rfl
    | blocked f => exact if_neg (blocked f hi)
    | woken f ret => exact if_neg (woken f ret hi)
  | signalled f _ | unblocked f ret => exact if_neg (blocked f hi)
  | sleeps f _ hpc _ => exact if_neg (parked f (by rw [hi]; rfl) hpc)
  | sleepsAgain f ret _ _ => exact if_neg (woken f ret hi)
  | called | access | parked | resumed => rfl

/-- **Each proxy of the system is a component of it.** In every reachable state an allocated proxy stands as a run
of `proxySystem` leaves it. -/
theorem component_of_reachable (hcard : Fintype.card ι < 2 ^ 31)
    (h : (waitSystem ι κ V (pthreadProxy cfg monotonic) cfg).Reachable s) :
    ∀ p w, s.shared.store.heap.cell p = some w →
      ∃ x, (proxySystem ι κ cfg).Reachable x ∧ ProxyView s.waits p w.atomic x := by
  have hboth : SysInv s ∧ ∀ p w, s.shared.store.heap.cell p = some w →
      ∃ x, (proxySystem ι κ cfg).Reachable x ∧ ProxyView s.waits p w.atomic x := by
    refine h.invariant (I := fun s => SysInv s ∧ ∀ p w, s.shared.store.heap.cell p = some w →
      ∃ x, (proxySystem ι κ cfg).Reachable x ∧ ProxyView s.waits p w.atomic x) ?_ ?_
    · intro s hinit
      refine ⟨sysInv_initial hinit, fun p w hw => ?_⟩
      rw [hinit.store] at hw
      cases hw
    · intro s a s' _ hI hstep
      obtain ⟨hinv, hview⟩ := hI
      have hs := sysStep_cases hstep
      refine ⟨hinv.step hs, fun p w' hw' => ?_⟩
      rcases hs.cell hinv hw' with ⟨hnone, hnew⟩ | ⟨w, hw, -⟩
      · rw [hnew]
        exact ⟨.start, .of_init rfl, .start (hs.unused hinv hnone)⟩
      · obtain ⟨x, hx, hv⟩ := hview p w hw
        obtain ⟨x', hsteps, hv'⟩ := hs.component hinv hw hw' (hinv.useCount_lt hcard hw) hv
        exact ⟨x', hx.steps hsteps, hv'⟩
  exact hboth.2

omit [Fintype κ] in
/-- In every state of the threads of a proxy `waiting` counts those in the loop. -/
theorem waiting_of_reachable {x : ProxyState ι κ} (h : (proxySystem ι κ cfg).Reachable x) :
    x.proxy.waiting = (Finset.univ.filter fun i => (x.waits i).inLoop = true).card := by
  refine h.invariant (I := fun x : ProxyState ι κ => x.proxy.waiting
    = (Finset.univ.filter fun i => (x.waits i).inLoop = true).card) ?_ ?_
  · intro x hstart
    obtain rfl : x = .start := hstart
    simp [ProxyState.start, ProxyWait.inLoop]
  · intro x a x' _ hI hstep
    exact (proxyStep_cases hstep).waiting hI

/-- What the proxy `p`, which holds `w`, is in the system. -/
structure ProxyComponent (cfg : Platform) (s : Sys ι κ V PthreadProxy) (p : ℕ) (w : PthreadProxy)
    (x : ProxyState ι κ) : Prop where
  reachable : (proxySystem ι κ cfg).Reachable x
  view : ProxyView s.waits p w x
  /-- `waiting` counts the threads that are suspended on the proxy. -/
  waiting : w.waiting = (Finset.univ.filter fun i => ((s.waits i).proxyWait p).isSome = true).card
  pending : cfg.longBits = 64 → 0 ≤ w.pending

/-- **Each proxy of the system is a component of it.** In every reachable state each allocated proxy stands as
some run of `proxySystem` leaves it, with its threads suspended there and nowhere else. -/
theorem proxy_component (hcard : Fintype.card ι < 2 ^ 31)
    (h : (waitSystem ι κ V (pthreadProxy cfg monotonic) cfg).Reachable s) {w : ProxyWaiter PthreadProxy}
    (hw : s.shared.store.heap.cell p = some w) : ∃ x, ProxyComponent cfg s p w.atomic x := by
  obtain ⟨x, hx, hv⟩ := component_of_reachable hcard h p w hw
  refine ⟨x, hx, hv, ?_, fun hlong => ?_⟩
  · rw [← hv.proxy, waiting_of_reachable hx]
    simp only [hv.inLoop_eq]
  · obtain ⟨l, hl⟩ := hx.exists_history ⟨0, none, 0⟩ ledgerAfter
    rw [← hv.proxy]
    exact (ledgerInv_of_reachable hlong hl).balanced.pending_nonneg

/-- The proxy of a thread that is parked. -/
theorem proxy_component_parked :
    ∃ (s : Sys (Fin 1) (Fin 1) ℕ PthreadProxy) (w : ProxyWaiter PthreadProxy) (x : ProxyState (Fin 1) (Fin 1)),
      w.atomic.waiting = 1 ∧ ProxyComponent (.lp64 .pthreads) s 0 w.atomic x := by
  have hrun : (Lts.exec (sysStep (pthreadProxy (.lp64 .pthreads) true) (.lp64 .pthreads))
      (Sys.start fun _ => 0) (callToPark 0 64 0)).any (fun s : Sys (Fin 1) (Fin 1) ℕ PthreadProxy =>
        (s.shared.store.heap.cell 0).any fun w => w.atomic.waiting = 1) = true := by
    decide +kernel
  obtain ⟨s, hs, hcell⟩ := (Option.any_eq_true _ _).mp hrun
  obtain ⟨w, hw, hwaiting⟩ := (Option.any_eq_true _ _).mp hcell
  obtain ⟨x, hx⟩ := proxy_component (by decide) (reachable_of_exec hs) hw
  exact ⟨s, w, x, of_decide_eq_true hwaiting, hx⟩

/-! ### The end of a proxy -/

end System

end AtomicWaits
