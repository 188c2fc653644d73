import AtomicWaits.SystemRegistry

/-!
# One step, seen by one thread and by one proxy

A step of the system is read here from two sides, so that a proof about wakes never goes through the
list of all steps again:

* `ThreadStep`: what the step does to the waiting thread `i`;
* `Action.effect`: what it does to the state of the proxy at `p` (`SysStep.cell`).

A thread is *committed* from its last look at the object to the end of its next park call
(`WaitThread.committed`); it commits only while the object holds the value it expects
(`ThreadStep.committed`).
-/

namespace AtomicWaits

open Lib

variable {ι κ V X : Type} {K : ProxyKind X} {cfg : Platform} {s s' : Sys ι κ V X}

def Action.waiter : Action ι κ V → Option ι
  | .callWait i _ _ _ _ _ _ | .wait i _ | .park i | .parkFails i _ | .unblock i _ | .resume i =>
    some i
  | .store _ _ | .callNotify _ _ _ _ | .notify _ _ _ => none

/-- What the step `a` from `s` to `s'` does to the waiting thread `i`. -/
inductive ThreadStep [DecidableEq V] (K : ProxyKind X) (cfg : Platform) (s s' : Sys ι κ V X)
    (a : Action ι κ V) (i : ι) : WaitThread V → WaitThread V → Prop
  | other (t : WaitThread V) : a.waiter ≠ some i → ThreadStep K cfg s s' a i t t
  | signalled (f : WaitFrame V) : a.waiter = none →
      ThreadStep K cfg s s' a i (.blocked f) (.woken f 0)
  | called (t : WaitThread V) (f : WaitFrame V) : t.isFree = true →
      f.pc = .entryClock ∨ f.pc = .loadTop → f.item = none →
      ThreadStep K cfg s s' a i t (.running f)
  | access (env : StepEnv) (f f' : WaitFrame V) (ev : WaitEvent V) : a = .wait i env →
      s.shared.access K cfg f env = some (ev, s'.shared) → GenericStep cfg f ev f' →
      ThreadStep K cfg s s' a i (.running f) (.running f')
  | sleeps (f : WaitFrame V) : a = .park i → f.pc = .park →
      (s.shared.proxyCall f.item fun x => K.enter x f.itemCounter).2 = none →
      ThreadStep K cfg s s' a i (.running f) (.blocked f)
  | parked (f f' : WaitFrame V) (ret2 errno : ℤ) : (∀ env, a ≠ .wait i env) →
      GenericStep cfg f (.park ret2 errno) f' → ThreadStep K cfg s s' a i (.running f) (.running f')
  | unblocked (f : WaitFrame V) (ret : ℤ) : ThreadStep K cfg s s' a i (.blocked f) (.woken f ret)
  | sleepsAgain (f : WaitFrame V) (ret : ℤ) : a = .resume i →
      (s.shared.proxyCall f.item fun x => K.resume x ret).2 = none →
      ThreadStep K cfg s s' a i (.woken f ret) (.blocked f)
  | resumed (f f' : WaitFrame V) (ret ret2 errno : ℤ) : (∀ env, a ≠ .wait i env) →
      GenericStep cfg f (.park ret2 errno) f' →
      ThreadStep K cfg s s' a i (.woken f ret) (.running f')

section Thread

variable [DecidableEq ι] [DecidableEq V]

/-- A step of another thread. -/
theorem threadStep_setWait {a : Action ι κ V} {sh : Shared V X} {k : ι} {t : WaitThread V}
    (hk : a.waiter = some k)
    (hstep : ThreadStep K cfg s ({ s with shared := sh }.setWait k t) a k (s.waits k) t) (i : ι) :
    ThreadStep K cfg s ({ s with shared := sh }.setWait k t) a i (s.waits i)
      (({ s with shared := sh }.setWait k t).waits i) := by
  show ThreadStep K cfg s _ a i (s.waits i) (Function.update s.waits k t i)
  by_cases hik : i = k
  · subst hik
    rw [Function.update_self]
    exact hstep
  · rw [Function.update_of_ne hik]
    exact .other _ (by rw [hk]; intro h; exact hik (Option.some.inj h).symm)

theorem threadStep_signal {a : Action ι κ V} (ha : a.waiter = none) {t : Sys ι κ V X}
    (ht : t.waits = s.waits) (woken : Finset ι) (i : ι) :
    ThreadStep K cfg s s' a i (s.waits i) ((t.signal woken).waits i) := by
  show ThreadStep K cfg s s' a i (s.waits i) (if i ∈ woken then (t.waits i).wake else t.waits i)
  rw [ht]
  split
  · cases s.waits i with
    | blocked f => exact .signalled f ha
    | _ => exact .other _ (by rw [ha]; exact nofun)
  · exact .other _ (by rw [ha]; exact nofun)

/-- **Each step, seen by a waiting thread.** -/
theorem SysStep.thread [DecidableEq κ] [Fintype ι] {a : Action ι κ V} (hs : SysStep K cfg s a s') (i : ι) :
    ThreadStep K cfg s s' a i (s.waits i) (s'.waits i) := by
  cases hs with
  | store object v => exact .other _ nofun
  | callWait k object expected duration success failure errno hfree hlive =>
    refine threadStep_setWait rfl ?_ i
    refine .called _ _ hfree ?_ rfl
    cases duration
    · exact .inr rfl
    · exact .inl rfl
  | wait k env f f' ev sh hk hacc hstep =>
    refine threadStep_setWait rfl ?_ i
    rw [hk]
    exact .access env f f' ev rfl hacc hstep
  | parkSleeps k f hk hpc hr =>
    refine threadStep_setWait rfl ?_ i
    rw [hk]
    exact .sleeps f rfl hpc hr
  | parkReturns k f f' ret2 hk hr hstep =>
    refine threadStep_setWait rfl ?_ i
    rw [hk]
    exact .parked f f' ret2 _ nofun hstep
  | parkFails k f f' ret2 hk hstep =>
    refine threadStep_setWait rfl ?_ i
    rw [hk]
    exact .parked f f' ret2 _ nofun hstep
  | unblock k f ret hk =>
    refine threadStep_setWait rfl ?_ i
    rw [hk]
    exact .unblocked f ret
  | resumeSleeps k f ret hk hr =>
    refine threadStep_setWait rfl ?_ i
    rw [hk]
    exact .sleepsAgain f ret rfl hr
  | resumeReturns k f f' ret ret2 hk hr hstep =>
    refine threadStep_setWait rfl ?_ i
    rw [hk]
    exact .resumed f f' ret ret2 _ nofun hstep
  | callNotify j object maxThreads errno hpc hlive => exact .other _ nofun
  | notifyLock j alloc woken hpc hfree => exact .other _ nofun
  | notifyFind j alloc woken r hpc hr => exact .other _ nofun
  | notifyWakeAtOnce j alloc woken hpc hk hsig => exact threadStep_signal rfl rfl woken i
  | notifyWake j alloc woken hpc hk => exact .other _ nofun
  | notifySignal j alloc woken hpc hsig => exact threadStep_signal rfl rfl woken i
  | notifyUnlock j alloc woken hpc => exact .other _ nofun

omit [DecidableEq V] in
/-- How a suspension ends: the environment ends it, or a wake. -/
theorem SysStep.unblocked [DecidableEq κ] [Fintype ι] {a : Action ι κ V} (hs : SysStep K cfg s a s')
    {i : ι} {f : WaitFrame V} {ret : ℤ} (h : s'.waits i = .woken f ret) :
    s.waits i = .woken f ret ∨ s.waits i = .blocked f ∧ (a = .unblock i ret ∨ ret = 0) := by
  cases hs with
  | unblock k g r hk =>
    have h' : Function.update s.waits k (.woken g r) i = .woken f ret := h
    by_cases hki : i = k
    · subst hki
      rw [Function.update_self] at h'
      cases h'
      exact .inr ⟨hk, .inl rfl⟩
    · rw [Function.update_of_ne hki] at h'
      exact .inl h'
  | notifyWakeAtOnce j alloc woken | notifySignal j alloc woken =>
    have h' : (if i ∈ woken then (s.waits i).wake else s.waits i) = .woken f ret := h
    split at h'
    · cases ht : s.waits i with
      | blocked g =>
        rw [ht] at h'
        cases h'
        exact .inr ⟨rfl, .inr rfl⟩
      | _ =>
        rw [ht] at h'
        exact .inl h'
    · exact .inl h'
  | callWait k | wait k | parkSleeps k | parkReturns k | parkFails k | resumeSleeps k
  | resumeReturns k =>
    have h' : Function.update s.waits k _ i = .woken f ret := h
    by_cases hki : i = k
    · subst hki
      rw [Function.update_self] at h'
      cases h'
    · rw [Function.update_of_ne hki] at h'
      exact .inl h'
  | _ => exact .inl h

end Thread

/-! ### Park calls -/

/-- The thread whose park call ends in the action, and what the call returns. -/
def Action.parkResult (K : ProxyKind X) (s : Sys ι κ V X) : Action ι κ V → Option (ι × ℤ)
  | .park i =>
    match s.waits i with
    | .running f => ((s.shared.proxyCall f.item fun x => K.enter x f.itemCounter).2).map (i, ·)
    | _ => none
  | .parkFails i ret2 =>
    match s.waits i with
    | .running _ => some (i, ret2)
    | _ => none
  | .resume i =>
    match s.waits i with
    | .woken f ret => ((s.shared.proxyCall f.item fun x => K.resume x ret).2).map (i, ·)
    | _ => none
  | _ => none

/-- Where the thread stands whose park call ends. -/
theorem Action.parkResult_cases {a : Action ι κ V} {i : ι} {ret : ℤ}
    (h : a.parkResult K s = some (i, ret)) :
    (∃ f, s.waits i = .running f) ∨
      ∃ f r, a = .resume i ∧ s.waits i = .woken f r ∧
        (s.shared.proxyCall f.item fun x => K.resume x r).2 = some ret := by
  cases a with
  | park k =>
    simp only [parkResult] at h
    split at h
    · next f hk =>
      obtain ⟨r, -, heq⟩ := Option.map_eq_some_iff.mp h
      cases heq
      exact .inl ⟨f, hk⟩
    · cases h
  | parkFails k r =>
    simp only [parkResult] at h
    split at h
    · next f hk =>
      cases h
      exact .inl ⟨f, hk⟩
    · cases h
  | resume k =>
    simp only [parkResult] at h
    split at h
    · next f r hk =>
      obtain ⟨r', hr, heq⟩ := Option.map_eq_some_iff.mp h
      cases heq
      exact .inr ⟨f, r, rfl, hk, hr⟩
    · cases h
  | _ => cases h

/-! ### Committed threads -/

/-- From the last look at the object up to the park call. -/
def WaitPc.committed : WaitPc → Bool
  | .unlockRegistered | .checkDeadline | .park => true
  | _ => false

theorem WaitPc.hasItem_of_committed {pc : WaitPc} (h : pc.committed = true) :
    pc.hasItem = true := by
  cases pc <;> first | rfl | cases h

theorem WaitFrame.registered_of_committed {f : WaitFrame V} (h : f.pc.committed = true) {p : ℕ}
    (hp : f.item = some p) : f.role.registered = some (f.object, p) := by
  unfold WaitFrame.role
  cases hpc : f.pc with
  | unlockRegistered =>
    dsimp only
    rw [WaitFrame.inside_of_item hp]
    rfl
  | checkDeadline | park =>
    dsimp only
    rw [WaitFrame.outside, hp]
    rfl
  | _ =>
    rw [hpc] at h
    cases h

/-- The frame of a thread that parks, or is parked, without another look at the object. -/
def WaitThread.committed : WaitThread V → Option (WaitFrame V)
  | .running f => if f.pc.committed then some f else none
  | .blocked f | .woken f _ => some f
  | .idle => none

theorem WaitThread.frame_of_committed {t : WaitThread V} {f : WaitFrame V}
    (h : t.committed = some f) : t.frame = some f := by
  cases t with
  | idle => cases h
  | running g =>
    simp only [committed, Option.ite_none_right_eq_some] at h
    exact h.2
  | blocked g => exact h
  | woken g ret => exact h

def WaitThread.item (t : WaitThread V) : Option ℕ := t.frame.bind WaitFrame.item

theorem WaitThread.item_of_committed {t : WaitThread V} {f : WaitFrame V}
    (h : t.committed = some f) : t.item = f.item := by
  rw [item, frame_of_committed h, Option.bind_some]

/-- Two frames of one wait with the same proxy and the same captured counter. -/
structure SameWait (f f' : WaitFrame V) : Prop where
  object : f'.object = f.object
  expected : f'.expected = f.expected
  item : f'.item = f.item
  itemCounter : f'.itemCounter = f.itemCounter

theorem SameWait.refl (f : WaitFrame V) : SameWait f f := ⟨rfl, rfl, rfl, rfl⟩

theorem WaitFrame.onToPark_same (f : WaitFrame V) : SameWait f f.onToPark := by
  unfold onToPark
  split <;> exact ⟨rfl, rfl, rfl, rfl⟩

theorem WaitFrame.breakLoop_not_committed (f : WaitFrame V) :
    f.breakLoop.pc.committed = false := by
  by_cases hi : f.item = none
  · rw [breakLoop_of_none hi]
    rfl
  · rw [breakLoop_of_some hi]
    cases f.lockIsHeld <;> rfl

theorem GenericStep.park_not_committed {f f' : WaitFrame V} {ret2 errno : ℤ}
    (h : GenericStep cfg f (.park ret2 errno) f') : f'.pc.committed = false := by
  cases h with
  | parkFailed _ _ hpc hh => exact WaitFrame.breakLoop_not_committed _
  | parked _ _ hpc hh => rfl

/-- A frame that is committed after a step was so before it, or has just seen the value it
expects. -/
theorem GenericStep.committed {f f' : WaitFrame V} {ev : WaitEvent V}
    (h : GenericStep cfg f ev f') (hc : f'.pc.committed = true) :
    SameWait f f' ∧ (f.pc.committed = true ∨ ev = .load f.expected) := by
  cases h with
  | topAgain hpc hi => exact ⟨f.onToPark_same, .inr rfl⟩
  | lockedSame hpc => exact ⟨⟨rfl, rfl, rfl, rfl⟩, .inr rfl⟩
  | unlockRegistered hpc =>
    have hsame := WaitFrame.onToPark_same { f with ret := 1 }
    exact ⟨⟨hsame.object, hsame.expected, hsame.item, hsame.itemCounter⟩,
      .inl (by rw [hpc]; rfl)⟩
  | notYet now hpc hr => exact ⟨⟨rfl, rfl, rfl, rfl⟩, .inl (by rw [hpc]; rfl)⟩
  | topChanged | reloadTop | lockedChanged | reloadLocked | timedOut | parkFailed =>
    rw [WaitFrame.breakLoop_not_committed] at hc
    cases hc
  | _ => cases hc

/-- A load sees the memory, and no access changes it. -/
theorem Shared.access_mem {sh sh' : Shared V X} {f : WaitFrame V} {env : StepEnv}
    {ev : WaitEvent V} (h : sh.access K cfg f env = some (ev, sh')) :
    sh'.mem = sh.mem ∧ ∀ v, ev = .load v → v = sh.mem f.object := by
  simp only [Shared.access] at h
  cases hpc : f.pc with
  | lockForRegister | lockForRelease =>
    rw [hpc] at h
    dsimp only at h
    split at h
    · cases h
    · cases h
      exact ⟨rfl, fun _ hv => by cases hv⟩
  | findOrCreate =>
    rw [hpc] at h
    obtain ⟨r, hr, heq⟩ := Option.map_eq_some_iff.mp h
    cases heq
    exact ⟨rfl, fun _ hv => by cases hv⟩
  | loadTop | loadLocked =>
    rw [hpc] at h
    cases h
    exact ⟨rfl, fun v hv => (WaitEvent.load.inj hv).symm⟩
  | park | returned =>
    rw [hpc] at h
    cases h
  | _ =>
    rw [hpc] at h
    cases h
    exact ⟨rfl, fun _ hv => by cases hv⟩

/-- **A thread commits only while the object holds the value it expects.** -/
theorem ThreadStep.committed [DecidableEq V] {a : Action ι κ V} {i : ι} {t t' : WaitThread V}
    {f' : WaitFrame V} (h : ThreadStep K cfg s s' a i t t') (hc : t'.committed = some f') :
    (∃ f, t.committed = some f ∧ SameWait f f') ∨ s'.shared.mem f'.object = f'.expected := by
  cases h with
  | other _ _ => exact .inl ⟨f', hc, .refl f'⟩
  | signalled f _ => exact .inl ⟨f, rfl, by rw [← Option.some.inj hc]; exact .refl f⟩
  | called _ f hfree hpc hi =>
    rcases hpc with hpc | hpc <;> simp [WaitThread.committed, hpc, WaitPc.committed] at hc
  | access env f g ev ha hacc hstep =>
    obtain ⟨hmem, hload⟩ := Shared.access_mem hacc
    simp only [WaitThread.committed, Option.ite_none_right_eq_some, Option.some.injEq] at hc
    obtain ⟨hg, rfl⟩ := hc
    obtain ⟨hsame, hpc | hev⟩ := hstep.committed hg
    · exact .inl ⟨f, if_pos hpc, hsame⟩
    · refine .inr ?_
      rw [hmem, hsame.object, hsame.expected]
      exact (hload _ hev).symm
  | sleeps f ha hpc hr =>
    obtain rfl : f = f' := Option.some.inj hc
    exact .inl ⟨f, by simp [WaitThread.committed, hpc, WaitPc.committed], .refl f⟩
  | parked f g ret2 errno ha hstep =>
    simp [WaitThread.committed, hstep.park_not_committed] at hc
  | unblocked f ret => exact .inl ⟨f, rfl, by rw [← Option.some.inj hc]; exact .refl f⟩
  | sleepsAgain f ret ha hr => exact .inl ⟨f, rfl, by rw [← Option.some.inj hc]; exact .refl f⟩
  | resumed f g ret ret2 errno ha hstep =>
    simp [WaitThread.committed, hstep.park_not_committed] at hc

/-! ### The state of a proxy -/

theorem ProxyHeap.modifyOpt_cell (h : ProxyHeap X) (item : Option ℕ)
    (g : ProxyWaiter X → ProxyWaiter X) (p : ℕ) :
    (h.modifyOpt item g).cell p = if item = some p then (h.cell p).map g else h.cell p := by
  cases item with
  | none => rfl
  | some q =>
    simp only [modifyOpt, modify]
    cases hq : h.cell q with
    | none =>
      by_cases hqp : q = p
      · subst hqp
        simp [hq]
      · simp [hqp]
    | some w =>
      by_cases hqp : q = p
      · subst hqp
        simp [hq]
      · simp [hqp, Function.update_of_ne (Ne.symm hqp)]

/-- The state in which the action leaves the proxy `p`, allocated before it and after it. -/
def Action.effect (K : ProxyKind X) (s : Sys ι κ V X) (p : ℕ) (w : ProxyWaiter X) :
    Action ι κ V → X
  | .park i =>
    match s.waits i with
    | .running f => if f.item = some p then (K.enter w.atomic f.itemCounter).1 else w.atomic
    | _ => w.atomic
  | .resume i =>
    match s.waits i with
    | .woken f ret => if f.item = some p then (K.resume w.atomic ret).1 else w.atomic
    | _ => w.atomic
  | .notify j _ _ =>
    if (s.notifies j).pc = .wake ∧ (s.notifies j).item = some p then
      K.wake w.atomic (s.notifies j).maxThreads w.useCount
    else w.atomic
  | _ => w.atomic

/-- Whether the action changes the state of the proxy `item` for a wake. -/
def Action.wakes (s : Sys ι κ V X) (item : Option ℕ) : Action ι κ V → Bool
  | .notify j _ _ => (s.notifies j).pc = .wake ∧ (s.notifies j).item = item
  | _ => false

/-- What became of the proxy `p`: it is a new one, or it was there and has the state `e w`. -/
def CellStep (K : ProxyKind X) (h : ProxyHeap X) (p : ℕ) (w' : ProxyWaiter X)
    (e : ProxyWaiter X → X) : Prop :=
  (h.cell p = none ∧ w'.atomic = K.initial) ∨ ∃ w, h.cell p = some w ∧ w'.atomic = e w

theorem cellStep_same {h : ProxyHeap X} {p : ℕ} {w : ProxyWaiter X} (hw : h.cell p = some w)
    {e : ProxyWaiter X → X} (he : e w = w.atomic) : CellStep K h p w e :=
  .inr ⟨w, hw, he.symm⟩

/-- An access through the pointer `item`. -/
theorem cellStep_modify {sh : Shared V X} {item : Option ℕ} {g : ProxyWaiter X → ProxyWaiter X}
    {p : ℕ} {w' : ProxyWaiter X} {e : ProxyWaiter X → X}
    (hw : (sh.modify item g).store.heap.cell p = some w')
    (he : ∀ w, e w = if item = some p then (g w).atomic else w.atomic) :
    CellStep K sh.store.heap p w' e := by
  have hcell : (if item = some p then (sh.store.heap.cell p).map g else sh.store.heap.cell p)
      = some w' := (ProxyHeap.modifyOpt_cell _ item g p).symm.trans hw
  by_cases hi : item = some p
  · rw [if_pos hi] at hcell
    obtain ⟨w, hcw, rfl⟩ := Option.map_eq_some_iff.mp hcell
    exact .inr ⟨w, hcw, by rw [he, if_pos hi]⟩
  · rw [if_neg hi] at hcell
    exact .inr ⟨w', hcell, by rw [he, if_neg hi]⟩

/-- No access of a waiting thread, its park call apart, changes the state of a proxy. -/
theorem access_cell [Fintype ι] [Fintype κ] (hinv : SysInv s) {i : ι} {f : WaitFrame V}
    (hi : s.waits i = .running f) {env : StepEnv} {ev : WaitEvent V} {sh : Shared V X}
    (hacc : s.shared.access K cfg f env = some (ev, sh)) {p : ℕ} {w' : ProxyWaiter X}
    (hw : sh.store.heap.cell p = some w') :
    CellStep K s.shared.store.heap p w' fun w => w.atomic := by
  have hf := hinv.frames.running hi
  simp only [Shared.access] at hacc
  cases hpc : f.pc with
  | lockForRegister | lockForRelease =>
    rw [hpc] at hacc
    dsimp only at hacc
    split at hacc
    · cases hacc
    · cases hacc
      exact cellStep_same hw rfl
  | findOrCreate =>
    rw [hpc] at hacc
    obtain ⟨r, hr, heq⟩ := Option.map_eq_some_iff.mp hacc
    cases heq
    obtain ⟨r', hr', hcase⟩ := hashTableFindOrCreate_cases K cfg.errno env.alloc f.errno
      hinv.registry.wf.table hf.live true
    obtain rfl : r = r' := Option.some.inj (hr.symm.trans hr')
    have hw' : r.store.heap.cell p = some w' := hw
    have hspec := hcase.register hinv.registry.wf hf.live
    cases hspec with
    | failed st' errno hwf hent hcell herr =>
      rw [hcell] at hw'
      exact cellStep_same hw' rfl
    | joined q w st' errno hq hcw hwf hent hcell =>
      rw [hcell] at hw'
      by_cases hpq : p = q
      · subst hpq
        rw [Function.update_self] at hw'
        exact .inr ⟨w, hcw, by rw [← Option.some.inj hw']⟩
      · rw [Function.update_of_ne hpq] at hw'
        exact cellStep_same hw' rfl
    | created st' errno hnone hwf hent hcell =>
      rw [hcell] at hw'
      by_cases hpq : p = s.shared.store.heap.next
      · subst hpq
        refine .inl ⟨hinv.registry.wf.fresh _ le_rfl, ?_⟩
        have hw'' := (Function.update_self ..).symm.trans hw'
        rw [← Option.some.inj hw'']
      · exact cellStep_same ((Function.update_of_ne hpq ..).symm.trans hw') rfl
  | getCounter | getCounterAgain | decUseCount =>
    rw [hpc] at hacc
    cases hacc
    exact cellStep_modify hw fun w => by split <;> rfl
  | removeItem =>
    rw [hpc] at hacc
    cases hacc
    obtain ⟨q, hq⟩ := hf.item_some (by rw [hpc]; rfl)
    have hrole : s.registry.role (.inl i) = .removing f.object q := by
      show (s.waits i).role = _
      rw [hi]
      show f.role = _
      simp only [WaitFrame.role, hpc, hq]
      rfl
    obtain ⟨he, -⟩ := hinv.registry.removing _ _ _ hrole
    obtain ⟨w, hcw, huse⟩ := hinv.registry.removing_useCount hrole
    have hspec := hashTableRemoveItem_spec hinv.registry.wf he hcw huse
    have hw' : (hashTableRemoveItem s.shared.store f.object).heap.cell p = some w' := hw
    rw [show (hashTableRemoveItem s.shared.store f.object).heap.cell
      = Function.update s.shared.store.heap.cell q none from hspec.cell] at hw'
    by_cases hpq : p = q
    · rw [hpq, Function.update_self] at hw'
      cases hw'
    · rw [Function.update_of_ne hpq] at hw'
      exact cellStep_same hw' rfl
  | park | returned =>
    rw [hpc] at hacc
    cases hacc
  | _ =>
    rw [hpc] at hacc
    cases hacc
    exact cellStep_same hw rfl

/-- **Each step, seen by a proxy.** -/
theorem SysStep.cell [DecidableEq ι] [DecidableEq κ] [DecidableEq V] [Fintype ι] [Fintype κ]
    {a : Action ι κ V} (hs : SysStep K cfg s a s') (hinv : SysInv s) {p : ℕ} {w' : ProxyWaiter X}
    (hw : s'.shared.store.heap.cell p = some w') :
    CellStep K s.shared.store.heap p w' fun w => a.effect K s p w := by
  cases hs with
  | store object v => exact cellStep_same hw rfl
  | callWait i object expected duration success failure errno hfree hlive =>
    exact cellStep_same hw rfl
  | wait i env f f' ev sh hi hacc hstep => exact access_cell hinv hi hacc hw
  | parkSleeps i f hi hpc hr =>
    exact cellStep_modify hw fun w => by simp only [Action.effect, hi]
  | parkReturns i f f' ret2 hi hr hstep =>
    exact cellStep_modify hw fun w => by simp only [Action.effect, hi]
  | parkFails i f f' ret2 hi hstep => exact cellStep_modify hw fun w => by split <;> rfl
  | unblock i f ret hi => exact cellStep_same hw rfl
  | resumeSleeps i f ret hi hr =>
    exact cellStep_modify hw fun w => by simp only [Action.effect, hi]
  | resumeReturns i f f' ret ret2 hi hr hstep =>
    exact cellStep_modify hw fun w => by simp only [Action.effect, hi]
  | callNotify j object maxThreads errno hpc hlive => exact cellStep_same hw rfl
  | notifyLock j alloc woken hpc hfree =>
    exact cellStep_same hw (by simp [Action.effect, hpc])
  | notifyFind j alloc woken r hpc hr =>
    have hlive := (hinv.frames.notifies j).live (by rw [hpc]; decide)
    obtain ⟨r', hr', hcase⟩ := hashTableFindOrCreate_cases K cfg.errno alloc (s.notifies j).errno
      hinv.registry.wf.table hlive false
    obtain rfl : r = r' := Option.some.inj (hr.symm.trans hr')
    have hheap := (hcase.lookup hinv.registry.wf).heap
    have hw' : r.store.heap.cell p = some w' := hw
    rw [hheap] at hw'
    exact cellStep_same hw' (by simp [Action.effect, hpc])
  | notifyWakeAtOnce j alloc woken hpc hk hsig =>
    exact cellStep_modify hw fun w => by simp only [Action.effect, hpc, true_and]
  | notifyWake j alloc woken hpc hk =>
    exact cellStep_modify hw fun w => by simp only [Action.effect, hpc, true_and]
  | notifySignal j alloc woken hpc hsig =>
    exact cellStep_same hw (by simp [Action.effect, hpc])
  | notifyUnlock j alloc woken hpc => exact cellStep_same hw (by simp [Action.effect, hpc])

/-- The state of a proxy that outlives the step. -/
theorem SysStep.cell_effect [DecidableEq ι] [DecidableEq κ] [DecidableEq V] [Fintype ι] [Fintype κ]
    {a : Action ι κ V} (hs : SysStep K cfg s a s') (hinv : SysInv s) {p : ℕ} {w w' : ProxyWaiter X}
    (hw : s.shared.store.heap.cell p = some w) (hw' : s'.shared.store.heap.cell p = some w') :
    w'.atomic = a.effect K s p w := by
  rcases hs.cell hinv hw' with ⟨hnone, -⟩ | ⟨w₀, hw₀, heff⟩
  · rw [hw] at hnone
    cases hnone
  · rw [hw] at hw₀
    cases hw₀
    exact heff

/-- The proxy of an entry is allocated. -/
theorem SysInv.entry_cell [Fintype ι] [Fintype κ] (h : SysInv s) {object p : ℕ}
    (he : s.shared.store.table.entry object = some p) :
    ∃ w, s.shared.store.heap.cell p = some w :=
  Option.isSome_iff_exists.mp (h.registry.wf.alloc object p he)

/-! ### What holds of every call -/

@[simp] theorem WaitThread.wake_frame (t : WaitThread V) : t.wake.frame = t.frame := by
  cases t <;> rfl

/-- Every frame of the system satisfies `P`. -/
def Sys.Frames (P : WaitFrame V → Prop) (s : Sys ι κ V X) : Prop :=
  ∀ i f, (s.waits i).frame = some f → P f

section Frames

variable [DecidableEq ι] {P : WaitFrame V → Prop}

theorem Sys.Frames.setWait (h : s.Frames P) (sh : Shared V X) (i : ι) {t : WaitThread V}
    (ht : ∀ f, t.frame = some f → P f) : ({ s with shared := sh }.setWait i t).Frames P := by
  intro k f hf
  have hf' : (Function.update s.waits i t k).frame = some f := hf
  by_cases hk : k = i
  · rw [hk, Function.update_self] at hf'
    exact ht f hf'
  · rw [Function.update_of_ne hk] at hf'
    exact h k f hf'

theorem Sys.Frames.signal (h : s.Frames P) (woken : Finset ι) : (s.signal woken).Frames P := by
  intro k f hf
  have hf' : (if k ∈ woken then (s.waits k).wake else s.waits k).frame = some f := hf
  split at hf'
  · rw [WaitThread.wake_frame] at hf'
    exact h k f hf'
  · exact h k f hf'

theorem Sys.Frames.step [DecidableEq κ] [Fintype ι]
    (hstart : ∀ object expected duration success failure errno,
      P (.start object expected duration success failure errno))
    (hstep : ∀ f ev f', P f → GenericStep cfg f ev f' → P f') {a : Action ι κ V} (h : s.Frames P)
    (hs : SysStep K cfg s a s') : s'.Frames P := by
  -- the thread keeps its frame
  have keeps : ∀ (sh : Shared V X) i f t, (s.waits i).frame = some f → t.frame = some f →
      ({ s with shared := sh }.setWait i t).Frames P := by
    intro sh i f t hi ht
    refine h.setWait sh i fun g hg => ?_
    rw [ht] at hg
    cases hg
    exact h i f hi
  -- the thread makes a step of its wait
  have steps : ∀ (sh : Shared V X) i f f' ev, (s.waits i).frame = some f → GenericStep cfg f ev f' →
      ({ s with shared := sh }.setWait i (.running f')).Frames P := by
    intro sh i f f' ev hi hgen
    refine h.setWait sh i fun g hg => ?_
    cases hg
    exact hstep f ev f' (h i f hi) hgen
  cases hs with
  | callWait i object expected duration success failure errno hfree hlive =>
    refine h.setWait s.shared i fun g hg => ?_
    cases hg
    exact hstart object expected duration success failure errno
  | wait i env f f' ev sh hi hacc hgen => exact steps _ i f f' ev (by rw [hi]; rfl) hgen
  | parkSleeps i f hi hpc hr => exact keeps _ i f _ (by rw [hi]; rfl) rfl
  | parkReturns i f f' ret2 hi hr hgen | parkFails i f f' ret2 hi hgen
  | resumeReturns i f f' ret ret2 hi hr hgen => exact steps _ i f f' _ (by rw [hi]; rfl) hgen
  | unblock i f ret hi => exact keeps s.shared i f _ (by rw [hi]; rfl) rfl
  | resumeSleeps i f ret hi hr => exact keeps _ i f _ (by rw [hi]; rfl) rfl
  | store | callNotify | notifyLock | notifyFind | notifyWake | notifyUnlock => exact h
  | notifyWakeAtOnce j alloc woken hpc hk hsig =>
    have hsignal := Sys.Frames.signal
      (s := { s with shared := s.shared.wakeProxy K (s.notifies j).item (s.notifies j).maxThreads })
      h woken
    exact hsignal
  | notifySignal j alloc woken hpc hsig =>
    have hsignal := h.signal woken
    exact hsignal

/-- **The rule for what holds of every call.** -/
theorem frame_invariant [DecidableEq κ] [DecidableEq V] [Fintype ι]
    (hstart : ∀ object expected duration success failure errno,
      P (.start object expected duration success failure errno))
    (hstep : ∀ f ev f', P f → GenericStep cfg f ev f' → P f')
    (h : (waitSystem ι κ V K cfg).Reachable s) : s.Frames P := by
  refine h.invariant (I := Sys.Frames P) ?_ ?_
  · intro s hi i f hf
    rw [hi.waits i] at hf
    cases hf
  · intro s a s' _ hframes hs
    exact hframes.step hstart hstep (sysStep_cases hs)

end Frames

end AtomicWaits
