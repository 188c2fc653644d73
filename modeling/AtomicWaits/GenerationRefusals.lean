import AtomicWaits.GenerationWake
import AtomicWaits.ProxyLifetime

/-!
# No busy spin on the generation counter

A park call is *refused* when it returns `-EAGAIN`: the proxy has not the generation the wait parks on.
After a refusal the wait captures the generation again, so each refusal of a wait is paid for by a notify
on its object that bumped the proxy since (`refusals_le_bumps`).

`Refusals` counts both beside the system, for the wait each thread is in. A bump counts from the wait's
registration to its release. Of the kernel only this is assumed: it returns `-EAGAIN` when the generations
differ (`HonestKernel`).
-/

namespace AtomicWaits

open Lib

variable {ι κ V X : Type}

/-- The object of the notify that changes a proxy in the action. -/
def Action.bumped (s : Sys ι κ V X) : Action ι κ V → Option ℕ
  | .notify j _ _ => if (s.notifies j).pc = .wake then some (s.notifies j).object else none
  | _ => none

/-- The thread whose wait begins with the action. -/
def Action.starts : Action ι κ V → Option ι
  | .callWait i _ _ _ _ _ _ => some i
  | _ => none

/-- What one wait has met. -/
structure Refusals where
  /-- Its park calls that were refused. -/
  refusals : ℕ
  /-- The notifies on its object that bumped the proxy between its registration and its release. -/
  bumps : ℕ

def refusalsAfter [DecidableEq ι] (cfg : Platform) (s : Sys ι κ V (BitVec 32)) (a : Action ι κ V)
    (_s' : Sys ι κ V (BitVec 32)) (g : ι → Refusals) : ι → Refusals := fun i =>
  if a.starts = some i then ⟨0, 0⟩
  else
    { refusals := (g i).refusals +
        if a.parkResult (counterProxy cfg) s = some (i, -cfg.errno.EAGAIN) then 1 else 0
      bumps := (g i).bumps +
        if a.bumped s ≠ none ∧ a.bumped s = (s.waits i).registeredOn then 1 else 0 }

/-- The proxy of the wait has another generation than the one it parks on. -/
def Sys.Outpaced (s : Sys ι κ V (BitVec 32)) (i : ι) : Prop :=
  ∃ f p w, (s.waits i).frame = some f ∧ f.item = some p ∧ s.shared.store.heap.cell p = some w ∧
    w.atomic ≠ f.itemCounter

/-- The kernel refuses to park a wait, or ends its suspension with `-EAGAIN`, only when the
generations differ. -/
def HonestKernel (cfg : Platform) (x : Sys ι κ V (BitVec 32) × (ι → Refusals))
    (a : Action ι κ V) : Prop :=
  ∀ i, a = .parkFails i (-cfg.errno.EAGAIN) ∨ a = .unblock i (-cfg.errno.EAGAIN) → x.1.Outpaced i

/-- The system with the generation counter, and what each wait has met beside it. -/
def refusalSystem (ι κ V : Type) [DecidableEq ι] [DecidableEq κ] [DecidableEq V] [Fintype ι]
    (cfg : Platform) : Lts (Sys ι κ V (BitVec 32) × (ι → Refusals)) (Action ι κ V) :=
  (waitSystem ι κ V (counterProxy cfg) cfg).withHistory (fun _ => ⟨0, 0⟩) (refusalsAfter cfg)

/-! ### The armed frame of a thread -/

/-- The frame of a thread that will park, or is parked, on the generation it has captured. -/
def WaitThread.armed : WaitThread V → Option (WaitFrame V)
  | .running f => if f.armed then some f else none
  | .blocked f | .woken f _ => some f
  | .idle => none

theorem WaitThread.frame_of_armed {t : WaitThread V} {f : WaitFrame V} (h : t.armed = some f) :
    t.frame = some f := by
  cases t with
  | idle => cases h
  | running g =>
    simp only [armed, Option.ite_none_right_eq_some] at h
    exact h.2
  | blocked g => exact h
  | woken g ret => exact h

/-- A wait that parks is armed. -/
theorem WaitThread.armed_of_park {cfg : Platform} {t : WaitThread V} {f f' : WaitFrame V}
    {ret2 errno : ℤ} (ht : t = .running f) (h : GenericStep cfg f (.park ret2 errno) f') :
    t.armed = some f := by
  rw [ht]
  refine if_pos ?_
  cases h with
  | parkFailed _ _ hpc hh | parked _ _ hpc hh => simp only [WaitFrame.armed, hpc]

section Step

variable {cfg : Platform} {s s' : Sys ι κ V (BitVec 32)} {a : Action ι κ V}

/-- The object of an armed thread is the one it is registered on. -/
theorem SysInv.armed_registered [Fintype ι] [Fintype κ] (h : SysInv s) {i : ι} {f : WaitFrame V}
    {p : ℕ} (ha : (s.waits i).armed = some f) (hp : f.item = some p) :
    (s.waits i).role.registered = some (f.object, p) := by
  have hi := WaitThread.frame_of_armed ha
  have harm : f.armed = true := by
    rcases h.frames.running_or_park hi with hrun | hpark
    · rw [hrun] at ha
      simp only [WaitThread.armed, Option.ite_none_right_eq_some] at ha
      exact ha.1
    · unfold WaitFrame.armed
      rw [hpark]
  rw [WaitThread.role, hi]
  exact WaitFrame.registered_of_armed harm hp

variable [DecidableEq ι] [DecidableEq κ] [Fintype ι]

/-- A thread whose park call has ended is not armed any more. -/
theorem SysStep.parkResult_not_armed (hs : SysStep (counterProxy cfg) cfg s a s') {i : ι} {r : ℤ}
    (h : a.parkResult (counterProxy cfg) s = some (i, r)) : (s'.waits i).armed = none := by
  have hrun : ∀ {sh : Shared V (BitVec 32)} {k : ι} {f f' : WaitFrame V} {ret2 errno : ℤ},
      k = i → GenericStep cfg f (.park ret2 errno) f' →
      (({ s with shared := sh }.setWait k (.running f')).waits i).armed = none := by
    intro sh k f f' ret2 errno hk hstep
    subst hk
    simp [Sys.setWait, WaitThread.armed, hstep.park_not_armed]
  cases hs with
  | parkSleeps k f hk hpc hr =>
    simp [Action.parkResult, hk, hr] at h
  | parkReturns k f f' ret2 hk hr hstep =>
    simp only [Action.parkResult, hk, hr, Option.map_some, Option.some.injEq, Prod.mk.injEq] at h
    exact hrun h.1 hstep
  | parkFails k f f' ret2 hk hstep =>
    simp only [Action.parkResult, hk, Option.some.injEq, Prod.mk.injEq] at h
    exact hrun h.1 hstep
  | resumeSleeps k f ret hk hr =>
    simp [Action.parkResult, hk, hr] at h
  | resumeReturns k f f' ret ret2 hk hr hstep =>
    simp only [Action.parkResult, hk, hr, Option.map_some, Option.some.injEq, Prod.mk.injEq] at h
    exact hrun h.1 hstep
  | _ => cases h

/-- A wait that begins is not armed. -/
theorem SysStep.starts_not_armed (hs : SysStep (counterProxy cfg) cfg s a s') {i : ι}
    (h : a.starts = some i) : (s'.waits i).armed = none := by
  cases hs with
  | callWait k object expected duration success failure errno hfree hlive =>
    obtain rfl : k = i := Option.some.inj h
    cases duration <;> simp [Sys.setWait, WaitThread.armed, WaitFrame.armed, WaitFrame.start]
  | _ => cases h

variable [DecidableEq V] [Fintype κ]

/-- A thread that is armed after a step captured the generation in it, or was armed before. -/
theorem SysStep.armed_before (hs : SysStep (counterProxy cfg) cfg s a s') (hinv : SysInv s) {i : ι}
    {f' : WaitFrame V} (ha : (s'.waits i).armed = some f') :
    (∀ p w, f'.item = some p → s'.shared.store.heap.cell p = some w → w.atomic = f'.itemCounter) ∨
      ∃ f, (s.waits i).armed = some f ∧ f'.item = f.item ∧ f'.itemCounter = f.itemCounter := by
  have hth := hs.thread i
  generalize ht : s.waits i = t at hth
  generalize ht' : s'.waits i = t' at hth ha
  cases hth with
  | other _ _ => exact .inr ⟨f', ha, rfl, rfl⟩
  | signalled f _ => exact .inr ⟨f', ha, rfl, rfl⟩
  | called _ f hfree hpc hi =>
    rcases hpc with hpc | hpc <;> simp [WaitThread.armed, WaitFrame.armed, hpc, hi] at ha
  | access env f g ev haction hacc hstep =>
    simp only [WaitThread.armed, Option.ite_none_right_eq_some, Option.some.injEq] at ha
    obtain ⟨harm, rfl⟩ := ha
    rcases hstep.armed (hinv.frames.running ht) harm with
      ⟨hpc, rfl, hitem⟩ | ⟨hbefore, hitem, hcounter⟩
    · exact .inl fun p w hp hw => captured_cell hpc hacc (hitem ▸ hp) hw
    · exact .inr ⟨f, if_pos hbefore, hitem, hcounter⟩
  | sleeps f haction hpc hr =>
    obtain rfl : f = f' := Option.some.inj ha
    refine .inr ⟨f, if_pos ?_, rfl, rfl⟩
    simp only [WaitFrame.armed, hpc]
  | parked f g ret2 errno haction hstep | resumed f g ret ret2 errno haction hstep =>
    simp [WaitThread.armed, hstep.park_not_armed] at ha
  | unblocked f ret => exact .inr ⟨f', ha, rfl, rfl⟩
  | sleepsAgain f ret haction hr => exact .inr ⟨f', ha, rfl, rfl⟩

/-- The generation of a proxy stays while a wait is registered on it, or a notify on the object of the
wait bumps it. -/
theorem SysStep.kept_or_bumped (hs : SysStep (counterProxy cfg) cfg s a s') (hinv : SysInv s)
    {i : ι} {object p : ℕ} (hreg : (s.waits i).role.registered = some (object, p))
    {w' : ProxyWaiter (BitVec 32)} (hw : s'.shared.store.heap.cell p = some w') :
    (∃ w, s.shared.store.heap.cell p = some w ∧ w'.atomic = w.atomic) ∨
      a.bumped s = some object := by
  have hreg' : (s.registry.role (.inl i)).registered = some (object, p) := hreg
  have hentry := hinv.registry.registered_entry hreg'
  obtain ⟨w, hcw⟩ := hinv.entry_cell hentry
  have hat := hs.cell_effect hinv hcw hw
  rw [counter_effect] at hat
  by_cases hwake : a.wakes s (some p) = true
  · refine .inr ?_
    cases a with
    | notify j alloc woken =>
      simp only [Action.wakes, decide_eq_true_eq] at hwake
      obtain ⟨hpc, hitem⟩ := hwake
      have hnotify := (hinv.waking_item (.inl hpc)).1.symm.trans hitem
      have hobject := hinv.registry.wf.inj _ _ p hnotify hentry
      simp only [Action.bumped, hpc, if_true, hobject]
    | _ => cases hwake
  · rw [if_neg hwake] at hat
    exact .inl ⟨w, hcw, hat⟩

/-! ### Every refusal is paid for -/

/-- The refusals of each wait are paid for, and a wait that would be refused has a bump to spare. -/
structure RefusalInv (cfg : Platform) (x : Sys ι κ V (BitVec 32) × (ι → Refusals)) : Prop where
  paid : ∀ i, (x.2 i).refusals ≤ (x.2 i).bumps
  outpaced : ∀ i f p w, (x.1.waits i).armed = some f → f.item = some p →
    x.1.shared.store.heap.cell p = some w → w.atomic ≠ f.itemCounter →
    (x.2 i).refusals < (x.2 i).bumps
  refused : ∀ i f, x.1.waits i = .woken f (-cfg.errno.EAGAIN) → (x.2 i).refusals < (x.2 i).bumps

variable {g : ι → Refusals}

omit [DecidableEq V] [Fintype κ] in
/-- A wait whose park call is refused has a bump to spare. -/
theorem RefusalInv.spare (hI : RefusalInv cfg (s, g))
    (hhonest : HonestKernel cfg (s, g) a) (hs : SysStep (counterProxy cfg) cfg s a s') {i : ι}
    (h : a.parkResult (counterProxy cfg) s = some (i, -cfg.errno.EAGAIN)) :
    (g i).refusals < (g i).bumps := by
  cases hs with
  | parkSleeps k f hk hpc hr => simp [Action.parkResult, hk, hr] at h
  | parkReturns k f f' ret2 hk hr hstep =>
    simp only [Action.parkResult, hk, hr, Option.map_some, Option.some.injEq, Prod.mk.injEq] at h
    obtain ⟨rfl, rfl⟩ := h
    have henter : (s.shared.store.heap.read f.item).bind
        (fun w => ((counterProxy cfg).enter w.atomic f.itemCounter).2)
          = some (-cfg.errno.EAGAIN) := hr
    obtain ⟨w, hread, hwait⟩ := Option.bind_eq_some_iff.mp henter
    obtain ⟨p, hp, hw⟩ := Option.bind_eq_some_iff.mp hread
    refine hI.outpaced k f p w (WaitThread.armed_of_park hk hstep) hp hw fun heq => ?_
    rw [show ((counterProxy cfg).enter w.atomic f.itemCounter).2 = none from if_pos heq] at hwait
    cases hwait
  | parkFails k f f' ret2 hk hstep =>
    simp only [Action.parkResult, hk, Option.some.injEq, Prod.mk.injEq] at h
    obtain ⟨rfl, rfl⟩ := h
    obtain ⟨g', p, w, hg, hp, hw, hne⟩ := hhonest k (.inl rfl)
    have hg' : (s.waits k).frame = some g' := hg
    rw [hk] at hg'
    obtain rfl : f = g' := Option.some.inj hg'
    exact hI.outpaced k f p w (WaitThread.armed_of_park hk hstep) hp hw hne
  | resumeSleeps k f ret hk hr => simp [Action.parkResult, hk, hr] at h
  | resumeReturns k f f' ret ret2 hk hr hstep =>
    simp only [Action.parkResult, hk, hr, Option.map_some, Option.some.injEq, Prod.mk.injEq] at h
    obtain ⟨rfl, rfl⟩ := h
    have hresume : (s.shared.store.heap.read f.item).bind
        (fun w => ((counterProxy cfg).resume w.atomic ret).2) = some (-cfg.errno.EAGAIN) := hr
    obtain ⟨w, -, hret⟩ := Option.bind_eq_some_iff.mp hresume
    obtain rfl : ret = -cfg.errno.EAGAIN := Option.some.inj hret
    exact hI.refused k f hk
  | _ => cases h

omit [DecidableEq κ] [DecidableEq V] [Fintype ι] [Fintype κ] in
variable (s' g) in
/-- A step that neither begins the wait nor ends its park call with a refusal. -/
theorem refusalsAfter_other {i : ι} (hstart : a.starts ≠ some i)
    (hnot : a.parkResult (counterProxy cfg) s ≠ some (i, -cfg.errno.EAGAIN)) :
    (refusalsAfter cfg s a s' g i).refusals = (g i).refusals ∧
      (g i).bumps ≤ (refusalsAfter cfg s a s' g i).bumps ∧
      ∀ object, a.bumped s = some object → (s.waits i).registeredOn = some object →
        (g i).bumps < (refusalsAfter cfg s a s' g i).bumps := by
  unfold refusalsAfter
  rw [if_neg hstart, if_neg hnot]
  refine ⟨rfl, Nat.le_add_right _ _, fun object hb hr => ?_⟩
  rw [if_pos ⟨by rw [hb]; exact nofun, hb.trans hr.symm⟩]
  exact Nat.lt_succ_self _

/-- **Each step keeps every refusal paid for.** -/
theorem RefusalInv.step (hinv : SysInv s) (hI : RefusalInv cfg (s, g))
    (hhonest : HonestKernel cfg (s, g) a) (hs : SysStep (counterProxy cfg) cfg s a s') :
    RefusalInv cfg (s', refusalsAfter cfg s a s' g) := by
  have hwoken : ∀ {i : ι} {f : WaitFrame V}, s'.waits i = .woken f (-cfg.errno.EAGAIN) →
      (s'.waits i).armed ≠ none := by
    intro i f hi hnone
    rw [hi] at hnone
    cases hnone
  -- after the step a wait is paid for, and has a bump to spare if it is armed and outpaced, or
  -- about to be refused
  have hwait : ∀ i, (refusalsAfter cfg s a s' g i).refusals ≤ (refusalsAfter cfg s a s' g i).bumps ∧
      (∀ f p w, (s'.waits i).armed = some f → f.item = some p →
        s'.shared.store.heap.cell p = some w → w.atomic ≠ f.itemCounter →
        (refusalsAfter cfg s a s' g i).refusals < (refusalsAfter cfg s a s' g i).bumps) ∧
      (∀ f, s'.waits i = .woken f (-cfg.errno.EAGAIN) →
        (refusalsAfter cfg s a s' g i).refusals < (refusalsAfter cfg s a s' g i).bumps) := by
    intro i
    have hunarmed : (s'.waits i).armed = none → ∀ f, (s'.waits i).armed ≠ some f := by
      intro hnone f ha
      rw [hnone] at ha
      cases ha
    by_cases hstart : a.starts = some i
    · have hnone := hs.starts_not_armed hstart
      refine ⟨?_, fun f p w ha => absurd ha (hunarmed hnone f), fun f hi => absurd hnone (hwoken hi)⟩
      unfold refusalsAfter
      rw [if_pos hstart]
    by_cases hrefused : a.parkResult (counterProxy cfg) s = some (i, -cfg.errno.EAGAIN)
    · have hnone := hs.parkResult_not_armed hrefused
      refine ⟨?_, fun f p w ha => absurd ha (hunarmed hnone f), fun f hi => absurd hnone (hwoken hi)⟩
      have hspare := hI.spare hhonest hs hrefused
      unfold refusalsAfter
      rw [if_neg hstart, if_pos hrefused]
      exact (Nat.succ_le_of_lt hspare).trans (Nat.le_add_right _ _)
    obtain ⟨hsame, hmono, hbump⟩ := refusalsAfter_other s' g hstart hrefused
    rw [hsame]
    refine ⟨(hI.paid i).trans hmono, fun f' p w' ha hp hw hne => ?_, fun f hi => ?_⟩
    · rcases hs.armed_before hinv ha with hcaptured | ⟨f, hf, hitem, hcounter⟩
      · exact absurd (hcaptured p w' hp hw) hne
      have hreg := hinv.armed_registered hf (hitem ▸ hp)
      rcases hs.kept_or_bumped hinv hreg hw with ⟨w, hcw, hkept⟩ | hbumped
      · have hlt := hI.outpaced i f p w hf (hitem ▸ hp) hcw (hcounter ▸ hkept ▸ hne)
        exact lt_of_lt_of_le hlt hmono
      · have hon : (s.waits i).registeredOn = some f.object := by
          rw [WaitThread.registeredOn, hreg]
          rfl
        exact lt_of_le_of_lt (hI.paid i) (hbump f.object hbumped hon)
    · rcases hs.unblocked hi with hbefore | ⟨hblocked, hunblock | hzero⟩
      · exact lt_of_lt_of_le (hI.refused i f hbefore) hmono
      · obtain ⟨f', p, w, hf', hp, hw, hne⟩ := hhonest i (.inr hunblock)
        have hframe : (s.waits i).frame = some f' := hf'
        rw [hblocked] at hframe
        obtain rfl : f = f' := Option.some.inj hframe
        have harmed : (s.waits i).armed = some f := by
          rw [hblocked]
          rfl
        exact lt_of_lt_of_le (hI.outpaced i f p w harmed hp hw hne) hmono
      · have hpos := cfg.errno.EAGAIN_pos
        omega
  exact ⟨fun i => (hwait i).1, fun i => (hwait i).2.1, fun i => (hwait i).2.2⟩

/-- The facts of every state that the runs over an honest kernel reach. -/
theorem refusalInv_of_reachable {x : Sys ι κ V (BitVec 32) × (ι → Refusals)}
    (h : ((refusalSystem ι κ V cfg).restrict (HonestKernel cfg)).Reachable x) :
    RefusalInv cfg x := by
  refine h.invariant (I := RefusalInv cfg) ?_ ?_
  · rintro ⟨s, g⟩ ⟨hinit, hg⟩
    have hzero : g = fun _ => ⟨0, 0⟩ := hg
    subst hzero
    refine ⟨fun i => le_rfl, fun i f p w ha => ?_, fun i f hi => ?_⟩
    · rw [show s.waits i = .idle from hinit.waits i] at ha
      cases ha
    · rw [show s.waits i = .idle from hinit.waits i] at hi
      cases hi
  · rintro ⟨s, g⟩ a ⟨s', g'⟩ hr hI ⟨⟨hstep, hg⟩, hhonest⟩
    obtain rfl : g' = refusalsAfter cfg s a s' g := hg
    have hinv : SysInv s := sysInv_of_reachable hr.of_restrict.of_withHistory
    exact hI.step hinv hhonest (sysStep_cases hstep)

end Step

/-- **Every refusal of a wait is paid for** by a notify on its object that bumped the proxy between its
registration and its release. -/
theorem refusals_le_bumps (ι κ V : Type) [DecidableEq ι] [DecidableEq κ] [DecidableEq V] [Fintype ι]
    [Fintype κ] (cfg : Platform) {x : Sys ι κ V (BitVec 32) × (ι → Refusals)}
    (h : ((refusalSystem ι κ V cfg).restrict (HonestKernel cfg)).Reachable x) (i : ι) :
    (x.2 i).refusals ≤ (x.2 i).bumps :=
  (refusalInv_of_reachable h).paid i

/-- A notify runs between the last look of a wait at the object and its park call. -/
def refusedRun (i : ι) (j : κ) : List (Action ι κ (BitVec 64)) :=
  (callToPark i 64 0).dropLast ++ [.callNotify j 64 1 0] ++ List.replicate 5 (.notify j .plenty ∅)
    ++ [.park i]

theorem refusals_le_bumps_one : ∃ x : Sys (Fin 1) (Fin 1) (BitVec 64) (BitVec 32) × (Fin 1 → Refusals),
    (x.2 0).refusals = 1 ∧ (x.2 0).refusals ≤ (x.2 0).bumps := by
  have hrun : (Lts.exec (Lts.stepHistory (sysStep (counterProxy (.lp64 .linux)) (.lp64 .linux))
      (refusalsAfter (.lp64 .linux)))
      (Sys.start fun _ => 0, fun _ => ⟨0, 0⟩) (refusedRun (0 : Fin 1) (0 : Fin 1))).any
        (fun x => (x.2 0).refusals = 1) = true := by
    decide +kernel
  obtain ⟨x, hexec, hcount⟩ := (Option.any_eq_true _ _).mp hrun
  have hr : ((refusalSystem (Fin 1) (Fin 1) (BitVec 64) (.lp64 .linux)).restrict
      (HonestKernel (.lp64 .linux))).Reachable x := by
    refine Lts.reachable_of_execHistory _ Sys.Initial ⟨rfl, rfl, fun _ => rfl, fun _ => rfl⟩ ?_ hexec
    intro y a ha i hrefuses
    rcases hrefuses with rfl | rfl <;> simp [refusedRun, callToPark, List.dropLast] at ha
  exact ⟨x, by simpa using hcount,
    refusals_le_bumps (Fin 1) (Fin 1) (BitVec 64) (.lp64 .linux) hr 0⟩

end AtomicWaits
