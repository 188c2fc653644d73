import AtomicWaits.NoLostWake
import AtomicWaits.ProxyLifetime

/-!
# Objects do not disturb each other

All objects share one table, one lock and one heap, and a registration for one of them may move the buckets of
all. Still, what the threads do for other objects leaves an object as it was: its value, its entry, its proxy,
and where the calls on it stand (`other_objects_isolated`). So a thread suspended on an object is woken by
nothing that is done to another one.
-/

namespace AtomicWaits

open Lib

variable {ι κ V X : Type} {K : ProxyKind X} {E : ErrnoCodes} {cfg : Platform}

/-! ### The store -/

/-- The proxy of the object `o` is the same, in the same state. -/
structure Store.SameAt (o : ℕ) (st st' : Store X) : Prop where
  entry : st'.table.entry o = st.table.entry o
  cell : ∀ p, st.table.entry o = some p → st'.heap.cell p = st.heap.cell p

namespace Store.SameAt

variable {o : ℕ} {st st' : Store X}

theorem refl (o : ℕ) (st : Store X) : SameAt o st st := ⟨rfl, fun _ _ => rfl⟩

/-- A proxy other than that of the object changes. -/
theorem of_modifyOpt {item : Option ℕ} {g : ProxyWaiter X → ProxyWaiter X}
    (h : ∀ p, st.table.entry o = some p → item ≠ some p) :
    SameAt o st ⟨st.table, st.heap.modifyOpt item g⟩ := by
  refine ⟨rfl, fun p hp => ?_⟩
  show (st.heap.modifyOpt item g).cell p = st.heap.cell p
  rw [ProxyHeap.modifyOpt_cell, if_neg (h p hp)]

/-- The entry of another key, and the cell of another proxy, are written. -/
theorem of_update {key q : ℕ} {x : Option ℕ} {w : Option (ProxyWaiter X)} (ho : o ≠ key)
    (hq : ∀ p, st.table.entry o = some p → p ≠ q)
    (hentry : st'.table.entry = Function.update st.table.entry key x)
    (hcell : st'.heap.cell = Function.update st.heap.cell q w) : SameAt o st st' := by
  refine ⟨by rw [hentry, Function.update_of_ne ho], fun p hp => ?_⟩
  rw [hcell, Function.update_of_ne (hq p hp)]

end Store.SameAt

section Operations

variable {o key : ℕ} {st : Store X} {env : AllocEnv} {r : FindResult X}

theorem RegisterSpec.sameAt (h : RegisterSpec K E st key env r) (hst : StoreWf st) (ho : o ≠ key) :
    st.SameAt o r.store := by
  cases h with
  | failed st' errno hwf he hc herr => exact ⟨by rw [he], fun p _ => by rw [hc]⟩
  | joined q w st' errno hq hw hwf he hc =>
    refine ⟨by rw [he], fun p hp => ?_⟩
    have hpq : p ≠ q := fun hpq => ho (hst.inj o key p hp (hpq ▸ hq))
    rw [hc, Function.update_of_ne hpq]
  | created st' errno hnone hwf he hc =>
    refine .of_update ho (fun p hp hnext => ?_) he hc
    have hsome := hst.alloc o p hp
    rw [hnext, hst.fresh _ le_rfl] at hsome
    cases hsome

theorem LookupSpec.sameAt (h : LookupSpec st key r) : st.SameAt o r.store :=
  ⟨by rw [h.entry], fun p _ => by rw [h.heap]⟩

theorem RemoveSpec.sameAt {q : ℕ} {st' : Store X} (h : RemoveSpec st key q st') (hst : StoreWf st)
    (hq : st.table.entry key = some q) (ho : o ≠ key) : st.SameAt o st' :=
  .of_update ho (fun p hp hpq => ho (hst.inj o key p hp (hpq ▸ hq))) h.entry h.cell

end Operations

/-! ### Calls on an object -/

variable {s s' : Sys ι κ V X} {o : ℕ}

/-- The thread is inside a wait on the object. -/
def WaitThread.isOn (o : ℕ) (t : WaitThread V) : Bool :=
  !t.isFree && t.frame.any fun f => f.object = o

/-- The thread is inside a notify of the object. -/
def NotifyFrame.isOn (o : ℕ) (f : NotifyFrame) : Bool := f.pc ≠ .returned && f.object = o

/-- The actions on an object: a store to it, a call on it, a step of such a call. -/
def Action.concerns (s : Sys ι κ V X) (o : ℕ) : Action ι κ V → Bool
  | .store object _ | .callWait _ object _ _ _ _ _ | .callNotify _ object _ _ => object = o
  | .wait i _ | .park i | .parkFails i _ | .unblock i _ | .resume i => (s.waits i).isOn o
  | .notify j _ _ => (s.notifies j).isOn o

/-- The object is as it was, and the calls on it are those there were, where they stood. -/
structure Sys.SameOn (o : ℕ) (s s' : Sys ι κ V X) : Prop where
  mem : s'.shared.mem o = s.shared.mem o
  store : s.shared.store.SameAt o s'.shared.store
  waits : ∀ i, (s.waits i).isOn o = true ∨ (s'.waits i).isOn o = true → s'.waits i = s.waits i
  notifies : ∀ j, (s.notifies j).isOn o = true ∨ (s'.notifies j).isOn o = true →
    s'.notifies j = s.notifies j

theorem WaitThread.not_isOn_of_isFree {t : WaitThread V} (h : t.isFree = true) : t.isOn o = false := by
  rw [WaitThread.isOn, h]
  rfl

theorem WaitThread.not_isOn_of_ne {t : WaitThread V} {f : WaitFrame V} (ht : t.frame = some f)
    (h : f.object ≠ o) : t.isOn o = false := by
  rw [WaitThread.isOn, ht, Option.any_some, decide_eq_false h, Bool.and_false]

theorem WaitThread.ne_of_not_isOn {t : WaitThread V} {f : WaitFrame V} (ht : t.frame = some f)
    (hbusy : t.isFree = false) (h : t.isOn o = false) : f.object ≠ o := by
  rw [WaitThread.isOn, ht, hbusy] at h
  exact of_decide_eq_false h

theorem NotifyFrame.ne_of_not_isOn {f : NotifyFrame} {pc : NotifyPc} (hpc : f.pc = pc)
    (hbusy : pc ≠ .returned) (h : f.isOn o = false) : f.object ≠ o := by
  intro ho
  rw [NotifyFrame.isOn, hpc, decide_eq_true hbusy, decide_eq_true ho] at h
  cases h

theorem NotifyFrame.not_isOn_of_ne {f : NotifyFrame} (h : f.object ≠ o) : f.isOn o = false := by
  rw [NotifyFrame.isOn, decide_eq_false h, Bool.and_false]

@[simp] theorem WaitThread.wake_isOn (t : WaitThread V) : t.wake.isOn o = t.isOn o := by
  cases t <;> rfl

namespace Sys.SameOn

theorem refl (s : Sys ι κ V X) : SameOn o s s :=
  ⟨rfl, .refl o _, fun _ _ => rfl, fun _ _ => rfl⟩

theorem trans {t : Sys ι κ V X} (h : SameOn o s s') (h' : SameOn o s' t) : SameOn o s t := by
  refine ⟨h'.mem.trans h.mem, ⟨h'.store.entry.trans h.store.entry, fun p hp => ?_⟩, ?_, ?_⟩
  · rw [h'.store.cell p (by rw [h.store.entry, hp]), h.store.cell p hp]
  · intro i hi
    rcases hi with hi | hi
    · have hsame := h.waits i (.inl hi)
      rw [h'.waits i (.inl (by rw [hsame, hi])), hsame]
    · have hsame := h'.waits i (.inr hi)
      rw [hsame, h.waits i (.inr (by rw [← hsame, hi]))]
  · intro j hj
    rcases hj with hj | hj
    · have hsame := h.notifies j (.inl hj)
      rw [h'.notifies j (.inl (by rw [hsame, hj])), hsame]
    · have hsame := h'.notifies j (.inr hj)
      rw [hsame, h.notifies j (.inr (by rw [← hsame, hj]))]

/-- A thread moves that is not on the object before and after. -/
theorem setWait [DecidableEq ι] {sh : Shared V X} (hmem : sh.mem = s.shared.mem)
    (hstore : s.shared.store.SameAt o sh.store) {i : ι} (hi : (s.waits i).isOn o = false)
    {t : WaitThread V} (ht : t.isOn o = false) : SameOn o s ({ s with shared := sh }.setWait i t) := by
  refine ⟨congrFun hmem o, hstore, fun k hk => ?_, fun _ _ => rfl⟩
  show Function.update s.waits i t k = s.waits k
  refine Function.update_of_ne (fun hki => ?_) _ _
  subst hki
  have hk' : (s.waits k).isOn o = true ∨ (Function.update s.waits k t k).isOn o = true := hk
  rw [Function.update_self, hi, ht] at hk'
  simp at hk'

theorem setNotify [DecidableEq κ] {t : Sys ι κ V X} (h : SameOn o s t) (hn : t.notifies = s.notifies)
    {j : κ} (hj : (s.notifies j).isOn o = false) {f : NotifyFrame} (hf : f.isOn o = false) :
    SameOn o s (t.setNotify j f) := by
  refine ⟨h.mem, h.store, h.waits, fun k hk => ?_⟩
  show Function.update t.notifies j f k = s.notifies k
  rw [Function.update_of_ne (fun hkj => ?_), hn]
  subst hkj
  have hk' : (s.notifies k).isOn o = true ∨ (Function.update t.notifies k f k).isOn o = true := hk
  rw [Function.update_self, hj, hf] at hk'
  simp at hk'

/-- The threads a wake reaches are on another object. -/
theorem signal [DecidableEq ι] {t : Sys ι κ V X} (h : SameOn o s t) (hw : t.waits = s.waits)
    {woken : Finset ι} (hwoken : ∀ i, i ∈ woken → (s.waits i).isOn o = false) :
    SameOn o s (t.signal woken) := by
  refine ⟨h.mem, h.store, fun i hi => ?_, h.notifies⟩
  show (if i ∈ woken then (t.waits i).wake else t.waits i) = s.waits i
  by_cases hmem : i ∈ woken
  · have hi' : (s.waits i).isOn o = true
        ∨ (if i ∈ woken then (t.waits i).wake else t.waits i).isOn o = true := hi
    rw [if_pos hmem, hw, WaitThread.wake_isOn, hwoken i hmem] at hi'
    simp at hi'
  · rw [if_neg hmem, hw]

end Sys.SameOn

/-! ### One step -/

theorem GenericStep.object [DecidableEq V] {f f' : WaitFrame V} {ev : WaitEvent V}
    (h : GenericStep cfg f ev f') : f'.object = f.object := by
  have hbreak : ∀ g : WaitFrame V, g.breakLoop.object = g.object := by
    intro g
    unfold WaitFrame.breakLoop
    split
    · rfl
    · split <;> rfl
  have hpark : ∀ g : WaitFrame V, g.onToPark.object = g.object := fun g => g.onToPark_same.object
  cases h with
  | topChanged | reloadTop | lockedChanged | reloadLocked | timedOut | parkFailed => exact hbreak _
  | topAgain | unlockRegistered => exact hpark _
  | _ => rfl

section Step

variable [DecidableEq ι] [DecidableEq κ] [DecidableEq V] [Fintype ι] [Fintype κ]

omit [DecidableEq ι] [DecidableEq κ] [DecidableEq V] in
/-- The proxy of a frame is not that of another object. -/
theorem SysInv.other_item (h : SysInv s) {i : ι} {f : WaitFrame V} (hi : (s.waits i).frame = some f)
    (hpc : f.pc.touchesItem = true) (ho : f.object ≠ o) (p : ℕ)
    (hp : s.shared.store.table.entry o = some p) : f.item ≠ some p := by
  intro hitem
  have huses : (s.registry.role (.inl i)).uses = some (f.object, p) := by
    show (s.waits i).role.uses = _
    rw [WaitThread.role, hi]
    exact WaitFrame.uses_of_item hitem hpc
  exact ho (h.registry.wf.inj _ _ p (h.registry.uses _ _ _ huses) hp)

omit [DecidableEq ι] [DecidableEq κ] [DecidableEq V] in
/-- An access of a wait leaves the proxies of other objects alone. -/
theorem access_sameAt [DecidableEq V] (hinv : SysInv s) {i : ι} {f : WaitFrame V} (hi : s.waits i = .running f)
    (ho : f.object ≠ o) {env : StepEnv} {ev : WaitEvent V} {sh : Shared V X}
    (hacc : s.shared.access K cfg f env = some (ev, sh)) : s.shared.store.SameAt o sh.store := by
  have hf := hinv.frames.running hi
  have hframe : (s.waits i).frame = some f := by rw [hi]; rfl
  simp only [Shared.access] at hacc
  cases hpc : f.pc with
  | lockForRegister | lockForRelease =>
    rw [hpc] at hacc
    dsimp only at hacc
    split at hacc
    · cases hacc
    · cases hacc
      exact .refl o _
  | findOrCreate =>
    rw [hpc] at hacc
    obtain ⟨r, hr, heq⟩ := Option.map_eq_some_iff.mp hacc
    cases heq
    obtain ⟨r', hr', hcase⟩ := hashTableFindOrCreate_cases K cfg.errno env.alloc f.errno
      hinv.registry.wf.table hf.live true
    obtain rfl : r = r' := Option.some.inj (hr.symm.trans hr')
    exact (hcase.register hinv.registry.wf hf.live).sameAt hinv.registry.wf ho.symm
  | getCounter | getCounterAgain | decUseCount =>
    rw [hpc] at hacc
    cases hacc
    exact .of_modifyOpt (hinv.other_item hframe (by rw [hpc]; rfl) ho)
  | removeItem =>
    rw [hpc] at hacc
    cases hacc
    obtain ⟨q, w, -, hq, hw, huse⟩ := hinv.lifetime.removed i f hi hpc
    exact (hashTableRemoveItem_spec hinv.registry.wf hq hw huse).sameAt hinv.registry.wf hq ho.symm
  | park | returned =>
    rw [hpc] at hacc
    cases hacc
  | _ =>
    rw [hpc] at hacc
    cases hacc
    exact .refl o _

omit [DecidableEq ι] [DecidableEq κ] [DecidableEq V] in
/-- The threads suspended on a proxy wait on its object. -/
theorem SysInv.blockedOn_object (h : SysInv s) {i : ι} {object p : ℕ}
    (he : s.shared.store.table.entry object = some p) (hi : i ∈ s.blockedOn (some p))
    (ho : object ≠ o) : (s.waits i).isOn o = false := by
  have hblocked := (Finset.mem_filter.mp hi).2
  cases hwait : s.waits i with
  | blocked f =>
    rw [hwait] at hblocked
    have hitem : f.item = some p := of_decide_eq_true hblocked
    have hframe : (s.waits i).frame = some f := by rw [hwait]; rfl
    obtain ⟨q, hq, hentry, -⟩ := h.lifetime.parked i f hframe (h.frames.blocked hwait).2
    have hqp : q = p := Option.some.inj (hq.symm.trans hitem)
    rw [hqp] at hentry
    have hobject : f.object = object := h.registry.wf.inj _ _ p hentry he
    exact WaitThread.not_isOn_of_ne rfl (by rw [hobject]; exact ho)
  | _ =>
    rw [hwait] at hblocked
    cases hblocked

omit [DecidableEq ι] [DecidableEq κ] [DecidableEq V] in
/-- A wake changes the proxy of its own object. -/
theorem SysInv.waking_other (h : SysInv s) {j : κ} (hpc : (s.notifies j).pc = .wake ∨ (s.notifies j).pc = .signal)
    (ho : (s.notifies j).object ≠ o) (p : ℕ) (hp : s.shared.store.table.entry o = some p) :
    (s.notifies j).item ≠ some p := by
  intro hitem
  have hentry : s.shared.store.table.entry (s.notifies j).object = some p := by
    rw [← (h.waking_item hpc).1, hitem]
  exact ho (h.registry.wf.inj _ _ p hentry hp)

omit [DecidableEq ι] [DecidableEq κ] [DecidableEq V] in
/-- A wake ends suspensions on its own object. -/
theorem SysInv.signal_object [DecidableEq ι] (h : SysInv s) {j : κ}
    (hpc : (s.notifies j).pc = .wake ∨ (s.notifies j).pc = .signal) (ho : (s.notifies j).object ≠ o)
    {woken : Finset ι} (hsig : s.CanSignal K (s.notifies j).item (s.notifies j).maxThreads woken) {i : ι}
    (hi : i ∈ woken) : (s.waits i).isOn o = false := by
  obtain ⟨hitem, hne⟩ := h.waking_item hpc
  obtain ⟨p, hp⟩ := Option.ne_none_iff_exists'.mp hne
  rw [hp] at hitem hsig
  exact h.blockedOn_object hitem.symm (hsig.1 hi) ho

/-- **A step that does not concern the object leaves it as it was.** -/
theorem SysStep.sameOn {a : Action ι κ V} (hs : SysStep K cfg s a s') (hinv : SysInv s)
    (ha : a.concerns s o = false) : s.SameOn o s' := by
  -- a thread inside a wait on another object is not on this one afterwards either
  have busy : ∀ {i : ι} {f f' : WaitFrame V} {t : WaitThread V} {sh : Shared V X},
      (s.waits i).isOn o = false → (s.waits i).frame = some f → (s.waits i).isFree = false →
      t.frame = some f' → f'.object = f.object → sh.mem = s.shared.mem →
      (f.object ≠ o → s.shared.store.SameAt o sh.store) →
      s.SameOn o ({ s with shared := sh }.setWait i t) := by
    intro i f f' t sh hi hframe hbusy ht hobject hmem hstore
    have ho := WaitThread.ne_of_not_isOn hframe hbusy hi
    exact .setWait hmem (hstore ho) hi (WaitThread.not_isOn_of_ne ht (by rw [hobject]; exact ho))
  -- the notifying thread moves on
  have notifying : ∀ {j : κ} {t : Sys ι κ V X} {f : NotifyFrame}, s.SameOn o t → t.notifies = s.notifies →
      (s.notifies j).isOn o = false → (s.notifies j).object ≠ o → f.object = (s.notifies j).object →
      s.SameOn o (t.setNotify j f) := by
    intro j t f h hn hj ho hf
    exact h.setNotify hn hj (NotifyFrame.not_isOn_of_ne (by rw [hf]; exact ho))
  cases hs with
  | store object v =>
    have hne : o ≠ object := fun h => of_decide_eq_false ha h.symm
    exact ⟨Function.update_of_ne hne .., .refl o _, fun _ _ => rfl, fun _ _ => rfl⟩
  | callWait i object expected duration success failure errno hfree hlive =>
    refine .setWait rfl (.refl o _) (WaitThread.not_isOn_of_isFree hfree) ?_
    refine WaitThread.not_isOn_of_ne rfl (fun h => of_decide_eq_false ha h)
  | wait i env f f' ev sh hi hacc hstep =>
    exact busy ha (by rw [hi]; rfl) (by rw [hi]; exact hstep.busy) rfl hstep.object
      (Shared.access_mem hacc).1 fun ho => access_sameAt hinv hi ho hacc
  | parkSleeps i f hi hpc hr =>
    have hframe : (s.waits i).frame = some f := by rw [hi]; rfl
    exact busy ha hframe (by rw [hi]; simp [WaitThread.isFree, hpc]) rfl rfl rfl fun ho =>
      .of_modifyOpt (hinv.other_item hframe (by rw [hpc]; rfl) ho)
  | parkReturns i f f' ret2 hi hr hstep =>
    have hframe : (s.waits i).frame = some f := by rw [hi]; rfl
    exact busy ha hframe (by rw [hi]; exact hstep.busy) rfl hstep.object rfl fun ho =>
      .of_modifyOpt (hinv.other_item hframe (by rw [hstep.park_pc]; rfl) ho)
  | parkFails i f f' ret2 hi hstep =>
    have hframe : (s.waits i).frame = some f := by rw [hi]; rfl
    exact busy ha hframe (by rw [hi]; exact hstep.busy) rfl hstep.object rfl fun ho =>
      .of_modifyOpt (hinv.other_item hframe (by rw [hstep.park_pc]; rfl) ho)
  | unblock i f ret hi =>
    have hframe : (s.waits i).frame = some f := by rw [hi]; rfl
    exact busy ha hframe (by rw [hi]; rfl) rfl rfl rfl fun _ => .refl o _
  | resumeSleeps i f ret hi hr =>
    have hframe : (s.waits i).frame = some f := by rw [hi]; rfl
    exact busy ha hframe (by rw [hi]; rfl) rfl rfl rfl fun ho =>
      .of_modifyOpt (hinv.other_item hframe (by rw [(hinv.frames.woken hi).2]; rfl) ho)
  | resumeReturns i f f' ret ret2 hi hr hstep =>
    have hframe : (s.waits i).frame = some f := by rw [hi]; rfl
    exact busy ha hframe (by rw [hi]; rfl) rfl hstep.object rfl fun ho =>
      .of_modifyOpt (hinv.other_item hframe (by rw [hstep.park_pc]; rfl) ho)
  | callNotify j object maxThreads errno hpc hlive =>
    have hne : object ≠ o := of_decide_eq_false ha
    have hj : (s.notifies j).isOn o = false := by simp [NotifyFrame.isOn, hpc]
    exact (Sys.SameOn.refl s).setNotify rfl hj (NotifyFrame.not_isOn_of_ne hne)
  | notifyLock j alloc woken hpc hfree =>
    have ho := NotifyFrame.ne_of_not_isOn hpc (by simp) ha
    exact notifying ⟨rfl, .refl o _, fun _ _ => rfl, fun _ _ => rfl⟩ rfl ha ho rfl
  | notifyFind j alloc woken r hpc hr =>
    have ho := NotifyFrame.ne_of_not_isOn hpc (by simp) ha
    have hlive := (hinv.frames.notifies j).live (by rw [hpc]; simp)
    obtain ⟨r', hr', hcase⟩ := hashTableFindOrCreate_cases K cfg.errno alloc (s.notifies j).errno
      hinv.registry.wf.table hlive false
    obtain rfl : r = r' := Option.some.inj (hr.symm.trans hr')
    exact notifying ⟨rfl, (hcase.lookup hinv.registry.wf).sameAt, fun _ _ => rfl, fun _ _ => rfl⟩ rfl ha ho
      rfl
  | notifyWakeAtOnce j alloc woken hpc hk hsig =>
    have ho := NotifyFrame.ne_of_not_isOn hpc (by simp) ha
    have hstore := Store.SameAt.of_modifyOpt (hinv.waking_other (.inl hpc) ho)
      (g := fun w => { w with atomic := K.wake w.atomic (s.notifies j).maxThreads w.useCount })
    have hwoken : s.SameOn o { s with
        shared := s.shared.wakeProxy K (s.notifies j).item (s.notifies j).maxThreads } :=
      ⟨rfl, hstore, fun _ _ => rfl, fun _ _ => rfl⟩
    exact notifying (hwoken.signal rfl fun i hi => hinv.signal_object (.inl hpc) ho hsig hi) rfl ha ho rfl
  | notifyWake j alloc woken hpc hk =>
    have ho := NotifyFrame.ne_of_not_isOn hpc (by simp) ha
    have hstore := Store.SameAt.of_modifyOpt (hinv.waking_other (.inl hpc) ho)
      (g := fun w => { w with atomic := K.wake w.atomic (s.notifies j).maxThreads w.useCount })
    exact notifying ⟨rfl, hstore, fun _ _ => rfl, fun _ _ => rfl⟩ rfl ha ho rfl
  | notifySignal j alloc woken hpc hsig =>
    have ho := NotifyFrame.ne_of_not_isOn hpc (by simp) ha
    refine notifying ?_ rfl ha ho rfl
    exact (Sys.SameOn.refl s).signal rfl fun i hi => hinv.signal_object (.inr hpc) ho hsig hi
  | notifyUnlock j alloc woken hpc =>
    have ho := NotifyFrame.ne_of_not_isOn hpc (by simp) ha
    exact notifying ⟨rfl, .refl o _, fun _ _ => rfl, fun _ _ => rfl⟩ rfl ha ho rfl

/-- **Objects do not disturb each other.** In any run no step of which is about the object, whatever the
threads do on other objects, the object keeps its value, its entry and its proxy, and each call on it stands
where it stood. -/
theorem other_objects_isolated (h : (waitSystem ι κ V K cfg).Reachable s)
    (hrun : ((waitSystem ι κ V K cfg).restrict fun t a => a.concerns t o = false).Steps s s') :
    s.SameOn o s' :=
  h.frame (R := Sys.SameOn o) Sys.SameOn.refl (fun _ _ _ => Sys.SameOn.trans)
    (fun _ _ _ hr hC hs => (sysStep_cases hs).sameOn (sysInv_of_reachable hr) hC) hrun

end Step

/-- A wait on a second object, from its call to its park, its wake and its return. -/
def visitOther (i : ι) (j : κ) : List (Action ι κ ℕ) :=
  callToPark i 128 0 ++ [.store 128 1, .callNotify j 128 wakeAll 0]
    ++ List.replicate 5 (.notify j .plenty {i}) ++ .resume i :: List.replicate 6 (.wait i .quiet)

/-- One thread stays parked while another makes that wait. -/
theorem other_objects_isolated_parked :
    ∃ s s' : Sys (Fin 2) (Fin 1) ℕ (BitVec 32), (s.waits 0).isOn 64 = true ∧
      (s'.waits 1).frame.any (fun f => f.pc = .returned) = true ∧ s.SameOn 64 s' := by
  have hrun : (Lts.exec (sysStep (counterProxy (.lp64 .linux)) (.lp64 .linux)) (Sys.start fun _ => 0)
      (callToPark 0 64 0)).any (fun s : Sys (Fin 2) (Fin 1) ℕ (BitVec 32) => (s.waits 0).isOn 64 &&
        (Lts.exec (Lts.guarded (sysStep (counterProxy (.lp64 .linux)) (.lp64 .linux))
            fun t a => a.concerns t 64 = false) s (visitOther 1 0)).any
          fun s' => (s'.waits 1).frame.any fun f => f.pc = .returned) = true := by
    decide +kernel
  obtain ⟨s, hs, hand⟩ := (Option.any_eq_true _ _).mp hrun
  obtain ⟨hon, hvisit⟩ := Bool.and_eq_true_iff.mp hand
  obtain ⟨s', hs', hreturned⟩ := (Option.any_eq_true _ _).mp hvisit
  exact ⟨s, s', hon, hreturned, other_objects_isolated (reachable_of_exec hs)
    (Lts.restrict_steps_of_exec _ _ hs')⟩

end AtomicWaits
