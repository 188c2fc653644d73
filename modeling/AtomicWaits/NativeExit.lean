import AtomicWaits.NativeSystem
import AtomicWaits.Lib.Progress

/-!
# How soon a native wait returns

On the native path a wait whose object has changed makes at most four more accesses, and a timed one whose
deadline has passed at most three, whatever the other threads do. Each parks at most once
(`native_accesses_after_change`, `native_accesses_after_deadline`).
-/

namespace AtomicWaits

open Lib

variable {ι κ V : Type} {cfg : Platform} {width : Width}

namespace NativeCall

/-- How many more accesses the call makes at most once its object has changed. -/
def left : NativeCall V → ℕ
  | loop f =>
    match f.pc with
    | .returned => 0
    | .load => 2
    | .park => 3
  | expected32 f =>
    match f.pc with
    | .returned => 0
    | .reload => 1
    | .load => 2
    | .entryClock | .park => 3
    | .checkDeadline => 4

/-- How many more accesses a timed call makes at most once its deadline has passed. -/
def late : NativeCall V → ℕ
  | loop _ => 0
  | expected32 f =>
    match f.pc with
    | .returned => 0
    | .reload | .checkDeadline => 1
    | .load => 2
    | .park => 3
    | .entryClock => 4

/-- Before the look at the object that ends the call. -/
def looking : NativeCall V → Bool
  | loop f => f.pc ≠ .returned
  | expected32 f => f.pc ≠ .returned && f.pc ≠ .reload

/-- A timed call of `atomic_wait_expected_32` past its first look at the clock, with its deadline. -/
def timed (deadline : Timespec) : NativeCall V → Bool
  | loop _ => false
  | expected32 f => f.duration ≠ none ∧ f.deadline = deadline ∧ f.pc ≠ .entryClock

theorem left_le (c : NativeCall V) : c.left ≤ 4 := by
  cases c with
  | loop f => cases hpc : f.pc <;> simp [left, hpc]
  | expected32 f => cases hpc : f.pc <;> simp [left, hpc]

theorem late_le_of_timed {deadline : Timespec} {c : NativeCall V} (h : c.timed deadline = true) : c.late ≤ 3 := by
  cases c with
  | loop f => cases h
  | expected32 f =>
    have hpc := (of_decide_eq_true h).2.2
    cases hpc' : f.pc with
    | entryClock => exact absurd hpc' hpc
    | _ => simp [late, hpc']

/-! ### One access -/

/-- **Each access brings the call nearer to its return**, unless it sees the value the call expects. -/
theorem step_left [DecidableEq V] {c c' : NativeCall V} {ev : WaitEvent V} (h : c.step cfg ev = some c')
    (hev : ev ≠ .load c.expected) :
    c'.left < c.left ∧ (c'.looking = true → c.looking = true ∧ c'.expected = c.expected) := by
  cases c with
  | loop f =>
    obtain ⟨f', hf', rfl⟩ := Option.map_eq_some_iff.mp h
    simp only [atomicWaitN] at hf'
    split at hf'
    · next v hpc =>
      cases hf'
      have hv : v ≠ f.expected := fun hv => hev (congrArg _ hv)
      simp [left, looking, hpc, hv]
    · next ret2 errno hpc =>
      cases hf'
      simp [left, looking, hpc, expected]
    · cases hf'
  | expected32 f =>
    obtain ⟨f', hf', rfl⟩ := Option.map_eq_some_iff.mp h
    cases atomicWaitExpected32_cases hf' with
    | sameTimed | same => exact absurd rfl hev
    | changed v hpc | reload v hpc => simp [left, looking, NativeFrame.returnChanged, hpc]
    | entry _ _ hpc | changedReload _ hpc | timedOut _ hpc | notYet _ hpc | parkFailed _ _ hpc
    | parked _ _ hpc => simp [left, looking, expected, hpc]

/-- **Once the deadline has passed each access brings the call nearer to its return.** -/
theorem step_late [DecidableEq V] {deadline : Timespec} {c c' : NativeCall V} {ev : WaitEvent V}
    (h : c.step cfg ev = some c') (hc : c.timed deadline = true)
    (hclock : ∀ now, ev = .clock now → now.Reached deadline) : c'.late < c.late ∧ c'.timed deadline = true := by
  cases c with
  | loop f => cases hc
  | expected32 f =>
    obtain ⟨hduration, hdeadline, hentry⟩ := of_decide_eq_true hc
    obtain ⟨f', hf', rfl⟩ := Option.map_eq_some_iff.mp h
    cases atomicWaitExpected32_cases hf' with
    | entry _ _ hpc => exact absurd hpc hentry
    | same _ hnone => exact absurd hnone hduration
    | notYet now hpc hr =>
      rw [hdeadline] at hr
      exact absurd (hclock now rfl) hr
    | changed v hpc | reload v hpc =>
      simp [late, timed, NativeFrame.returnChanged, hpc, hduration, hdeadline]
    | changedReload _ hpc | sameTimed hpc | timedOut _ hpc | parkFailed _ _ hpc | parked _ _ hpc =>
      simp [late, timed, hpc, hduration, hdeadline]

/-- The end of a park call is a step. -/
theorem step_of_parkReturns [DecidableEq V] {c c' : NativeCall V} {ret2 : ℤ}
    (h : c.parkReturns cfg ret2 = some c') :
    c.atPark = true ∧ ∃ errno, c.step cfg (.park ret2 errno) = some c' := by
  cases c with
  | loop f =>
    refine ⟨?_, 0, h⟩
    obtain ⟨f', hf', -⟩ := Option.map_eq_some_iff.mp h
    cases hpc : f.pc <;> simp [atomicWaitN, hpc] at hf'
    simp [atPark, hpc]
  | expected32 f =>
    refine ⟨?_, f.errno, h⟩
    obtain ⟨f', hf', -⟩ := Option.map_eq_some_iff.mp h
    cases atomicWaitExpected32_cases hf' with
    | parkFailed _ _ hpc | parked _ _ hpc => simp [atPark, hpc]

theorem looking_of_load {mem : V} {now : Timespec} {c : NativeCall V} {v : V}
    (h : c.access mem now = some (.load v)) : c.looking = true := by
  cases c with
  | loop f => cases hpc : f.pc <;> simp [access, looking, hpc] at h ⊢
  | expected32 f => cases hpc : f.pc <;> simp [access, looking, hpc] at h ⊢

theorem left_of_atPark {c : NativeCall V} (h : c.atPark = true) : c.left = 3 := by
  cases c with
  | loop f =>
    have hpc : f.pc = .park := of_decide_eq_true h
    simp [left, hpc]
  | expected32 f =>
    have hpc : f.pc = .park := of_decide_eq_true h
    simp [left, hpc]

theorem late_of_atPark {deadline : Timespec} {c : NativeCall V} (hc : c.timed deadline = true)
    (h : c.atPark = true) : c.late = 3 := by
  cases c with
  | loop f => cases hc
  | expected32 f =>
    have hpc : f.pc = .park := of_decide_eq_true h
    simp [late, hpc]

end NativeCall

/-! ### One step of the system -/

def NativeThread.call : NativeThread V → Option (NativeCall V)
  | .idle => none
  | .running c | .blocked c | .woken c _ => some c

/-- A measure of calls, as one of threads. A thread sleeps until its next access is the one after the park
call. -/
def NativeThread.measure (m : NativeCall V → ℕ) : NativeThread V → ℕ
  | .idle => 0
  | .running c => m c
  | .blocked _ | .woken _ _ => 2

@[simp] theorem NativeThread.wake_call (t : NativeThread V) : t.wake.call = t.call := by
  cases t <;> rfl

@[simp] theorem NativeThread.wake_measure (m : NativeCall V → ℕ) (t : NativeThread V) :
    t.wake.measure m = t.measure m := by
  cases t <;> rfl

/-- An event that the step can give to the call of the thread: what its access returns, or the end of a park
call. -/
def NativeAnswer (s : NativeSys ι κ V) (a : NativeAction ι κ V) (i : ι) (c : NativeCall V)
    (ev : WaitEvent V) : Prop :=
  (∃ now, a = .wait i now ∧ c.access s.mem now = some ev) ∨ ∃ ret2 errno, ev = .park ret2 errno

section System

variable [DecidableEq ι]

/-- The thread `i` calls a wait. -/
def NativeAction.calls (i : ι) : NativeAction ι κ V → Bool
  | .callWait k _ | .callWaitExpected k _ _ _ _ _ => k = i
  | _ => false

/-- The thread `i` makes an access of its wait, which may be a park call. -/
def NativeAction.accesses (i : ι) : NativeAction ι κ V → Bool
  | .wait k _ | .park k _ | .parkFails k _ => k = i
  | _ => false

def NativeAction.parks (i : ι) : NativeAction ι κ V → Bool
  | .park k _ | .parkFails k _ => k = i
  | _ => false

theorem NativeAction.accesses_of_parks {a : NativeAction ι κ V} {i : ι} (h : a.parks i = true) :
    a.accesses i = true := by
  cases a with
  | park k ret2 | parkFails k ret2 => exact h
  | _ => cases h

variable [DecidableEq κ] [Fintype ι] {s s' : NativeSys ι κ (BitVec width.bits)}
  {a : NativeAction ι κ (BitVec width.bits)} {i : ι}

/-- **A measure that each access lowers.** `m` is one that makes 3 of a call at its park call. -/
theorem NativeSysStep.measure_le {m : NativeCall (BitVec width.bits) → ℕ}
    {J : NativeCall (BitVec width.bits) → Prop} (hs : NativeSysStep cfg s a s') (ha : a.calls i = false)
    (hpark : ∀ c, J c → c.atPark = true → m c = 3)
    (hlt : ∀ c c' ev, J c → c.step cfg ev = some c' → NativeAnswer s a i c ev → m c' < m c ∧ J c')
    (hJ : ∀ c, (s.waits i).call = some c → J c) :
    (s'.waits i).measure m + (if a.accesses i = true then 1 else 0) ≤ (s.waits i).measure m ∧
      (a.parks i = true → (s.waits i).measure m = 3) ∧ ∀ c, (s'.waits i).call = some c → J c := by
  -- the thread `i` does not move
  have still : ∀ t : NativeSys ι κ (BitVec width.bits), (t.waits i).measure m = (s.waits i).measure m →
      (t.waits i).call = (s.waits i).call → a.accesses i = false → a.parks i = false →
      (t.waits i).measure m + (if a.accesses i = true then 1 else 0) ≤ (s.waits i).measure m ∧
        (a.parks i = true → (s.waits i).measure m = 3) ∧ ∀ c, (t.waits i).call = some c → J c := by
    intro t hm hc hacc hparks
    rw [hm, hc, hacc, hparks]
    exact ⟨le_rfl, fun h => absurd h Bool.false_ne_true, hJ⟩
  have other : ∀ k t, k ≠ i → (s.setWait k t).waits i = s.waits i := fun k t hk =>
    Function.update_of_ne hk.symm ..
  have self : ∀ t, (s.setWait i t).waits i = t := fun t => Function.update_self ..
  have keeps : ∀ c', J c' → ∀ c, (NativeThread.running c').call = some c → J c := by
    intro c' hc' c hc
    cases hc
    exact hc'
  cases hs with
  | store v => exact still _ rfl rfl rfl rfl
  | callWait k e hfree =>
    have hk := of_decide_eq_false ha
    exact still _ (by rw [other k _ hk]) (by rw [other k _ hk]) rfl rfl
  | callWaitExpected k e duration success failure errno hfree hw =>
    have hk := of_decide_eq_false ha
    exact still _ (by rw [other k _ hk]) (by rw [other k _ hk]) rfl rfl
  | wait k now c c' ev hk hac hstep =>
    by_cases hki : k = i
    · subst hki
      have hc : J c := hJ c (by rw [hk]; rfl)
      obtain ⟨hm, hJ'⟩ := hlt c c' ev hc hstep (.inl ⟨now, rfl, hac⟩)
      rw [self, hk]
      refine ⟨?_, fun h => absurd h Bool.false_ne_true, keeps c' hJ'⟩
      show m c' + _ ≤ m c
      split <;> omega
    · exact still _ (by rw [other k _ hki]) (by rw [other k _ hki]) (decide_eq_false hki) rfl
  | parkSleeps k ret2 c hk hp hkernel =>
    by_cases hki : k = i
    · subst hki
      have hc : J c := hJ c (by rw [hk]; rfl)
      have hthree := hpark c hc hp
      rw [self, hk]
      refine ⟨?_, fun _ => hthree, fun d hd => by cases hd; exact hc⟩
      show 2 + _ ≤ m c
      split <;> omega
    · exact still _ (by rw [other k _ hki]) (by rw [other k _ hki]) (decide_eq_false hki) (decide_eq_false hki)
  | parkReturns k ret2 c c' hk hkernel hret | parkFails k ret2 c c' hk hret =>
    by_cases hki : k = i
    · subst hki
      have hc : J c := hJ c (by rw [hk]; rfl)
      obtain ⟨hp, errno, hstep⟩ := NativeCall.step_of_parkReturns hret
      obtain ⟨hm, hJ'⟩ := hlt c c' _ hc hstep (.inr ⟨ret2, errno, rfl⟩)
      rw [self, hk]
      refine ⟨?_, fun _ => hpark c hc hp, keeps c' hJ'⟩
      show m c' + _ ≤ m c
      split <;> omega
    · exact still _ (by rw [other k _ hki]) (by rw [other k _ hki]) (decide_eq_false hki) (decide_eq_false hki)
  | unblock k ret2 c hk =>
    by_cases hki : k = i
    · subst hki
      exact still _ (by rw [self, hk]; rfl) (by rw [self, hk]; rfl) rfl rfl
    · exact still _ (by rw [other k _ hki]) (by rw [other k _ hki]) rfl rfl
  | resume k ret2 c c' hk hret =>
    by_cases hki : k = i
    · subst hki
      have hc : J c := hJ c (by rw [hk]; rfl)
      obtain ⟨hp, errno, hstep⟩ := NativeCall.step_of_parkReturns hret
      obtain ⟨hm, hJ'⟩ := hlt c c' _ hc hstep (.inr ⟨ret2, errno, rfl⟩)
      rw [hpark c hc hp] at hm
      rw [self, hk]
      exact ⟨Nat.le_of_lt_succ hm, fun h => absurd h Bool.false_ne_true, keeps c' hJ'⟩
    · exact still _ (by rw [other k _ hki]) (by rw [other k _ hki]) rfl rfl
  | callNotify j maxThreads hj => exact still _ rfl rfl rfl rfl
  | notify j woken maxThreads hj hcan =>
    have hwaits : ((s.signal woken).setNotify j .returned).waits i
        = if i ∈ woken then (s.waits i).wake else s.waits i := rfl
    refine still _ ?_ ?_ rfl rfl
    · rw [hwaits]
      split
      · exact NativeThread.wake_measure m _
      · rfl
    · rw [hwaits]
      split
      · exact NativeThread.wake_call _
      · rfl

/-! ### A whole run -/

/-- **A native wait makes no more accesses than its measure allows**, and parks at most once. -/
theorem native_accesses_le {φ : NativeSys ι κ (BitVec width.bits) → Bool}
    {ok : NativeAction ι κ (BitVec width.bits) → Prop} {m : NativeCall (BitVec width.bits) → ℕ}
    {J : NativeCall (BitVec width.bits) → Prop} (hcalls : ∀ a, ok a → a.calls i = false)
    (hpark : ∀ c, J c → c.atPark = true → m c = 3)
    (hlt : ∀ t a c c' ev, φ t = true → ok a → J c → c.step cfg ev = some c' →
      NativeAnswer t a i c ev → m c' < m c ∧ J c')
    (hJ : ∀ c, (s.waits i).call = some c → J c) {as : List (NativeAction ι κ (BitVec width.bits))}
    (hok : ∀ a ∈ as, ok a) (hrun : Lts.execWhile (nativeStep cfg) φ s as = some s') :
    as.countP (NativeAction.accesses i) ≤ (s.waits i).measure m ∧
      as.countP (NativeAction.parks i) ≤ 1 := by
  constructor
  · have hcount : as.countP (NativeAction.accesses i) + (s'.waits i).measure m ≤ (s.waits i).measure m := by
      refine Lts.countP_le_of_potential
        (I := fun t : NativeSys ι κ (BitVec width.bits) => ∀ c, (t.waits i).call = some c → J c) ok
        (fun t => (t.waits i).measure m) ?_ hJ hok hrun
      intro t a t' hφ hoka hI hs
      obtain ⟨hle, -, hI'⟩ := (nativeStep_cases hs).measure_le (hcalls a hoka) hpark
        (fun c c' ev => hlt t a c c' ev hφ hoka) hI
      exact ⟨hI', hle⟩
    omega
  · refine Lts.countP_le_one_of_level
      (I := fun t : NativeSys ι κ (BitVec width.bits) => ∀ c, (t.waits i).call = some c → J c) ok
      (fun t => (t.waits i).measure m) 3 ?_ hJ hok hrun
    intro t a t' hφ hoka hI hs
    obtain ⟨hle, hlevel, hI'⟩ := (nativeStep_cases hs).measure_le (hcalls a hoka) hpark
      (fun c c' ev => hlt t a c c' ev hφ hoka) hI
    refine ⟨hI', by omega, fun hparks => ?_⟩
    have hthree := hlevel hparks
    rw [if_pos (NativeAction.accesses_of_parks hparks)] at hle
    exact ⟨hthree, by omega⟩

/-- **A native wait whose object has changed is on its way out.** As long as the object differs from the value
the wait expects, and whatever the other threads do, the wait makes at most four more accesses of its own and
parks at most once. -/
theorem native_accesses_after_change {c : NativeCall (BitVec width.bits)} (hi : (s.waits i).call = some c)
    {as : List (NativeAction ι κ (BitVec width.bits))} (hcall : ∀ a ∈ as, a.calls i = false)
    (hrun : Lts.execWhile (nativeStep cfg) (fun t => t.mem ≠ c.expected) s as = some s') :
    as.countP (NativeAction.accesses i) ≤ 4 ∧ as.countP (NativeAction.parks i) ≤ 1 := by
  have hlt : ∀ (t : NativeSys ι κ (BitVec width.bits)) (a : NativeAction ι κ (BitVec width.bits))
      (d d' : NativeCall (BitVec width.bits)) (ev : WaitEvent (BitVec width.bits)),
      decide (t.mem ≠ c.expected) = true → a.calls i = false →
      (d.looking = true → d.expected = c.expected) → d.step cfg ev = some d' → NativeAnswer t a i d ev →
      d'.left < d.left ∧ (d'.looking = true → d'.expected = c.expected) := by
    intro t a d d' ev hchanged _ hJ hstep hanswer
    have hev : ev ≠ .load d.expected := by
      intro hev
      rcases hanswer with ⟨now, -, hac⟩ | ⟨ret2, errno, hpark⟩
      · rw [hev] at hac
        have hmem := NativeCall.access_load hac
        have hlooking := NativeCall.looking_of_load hac
        exact of_decide_eq_true hchanged (by rw [← hmem, hJ hlooking])
      · rw [hpark] at hev
        cases hev
    obtain ⟨hleft, hkeep⟩ := NativeCall.step_left hstep hev
    refine ⟨hleft, fun hlook => ?_⟩
    obtain ⟨hlook', hsame⟩ := hkeep hlook
    rw [hsame]
    exact hJ hlook'
  have hstart : ∀ d, (s.waits i).call = some d → d.looking = true → d.expected = c.expected := by
    intro d hd _
    obtain rfl : c = d := Option.some.inj (hi.symm.trans hd)
    rfl
  have hleft : (s.waits i).measure NativeCall.left ≤ 4 := by
    cases s.waits i with
    | running d => exact d.left_le
    | _ => exact Nat.le_of_ble_eq_true rfl
  obtain ⟨hle, hone⟩ := native_accesses_le (fun _ ha => ha) (fun d _ => NativeCall.left_of_atPark) hlt hstart
    hcall hrun
  exact ⟨hle.trans hleft, hone⟩

/-- **A timed native wait whose deadline has passed is on its way out.** When every later reading of the clock
reaches its deadline, the wait makes at most three more accesses of its own and parks at most once. -/
theorem native_accesses_after_deadline {c : NativeCall (BitVec width.bits)} {deadline : Timespec}
    (hi : (s.waits i).call = some c) (htimed : c.timed deadline = true)
    {as : List (NativeAction ι κ (BitVec width.bits))} (hcall : ∀ a ∈ as, a.calls i = false)
    (hclock : ∀ now, .wait i now ∈ as → now.Reached deadline)
    (hrun : Lts.exec (nativeStep cfg) s as = some s') :
    as.countP (NativeAction.accesses i) ≤ 3 ∧ as.countP (NativeAction.parks i) ≤ 1 := by
  have hlt : ∀ (t : NativeSys ι κ (BitVec width.bits)) (a : NativeAction ι κ (BitVec width.bits))
      (d d' : NativeCall (BitVec width.bits)) (ev : WaitEvent (BitVec width.bits)), true = true →
      (a.calls i = false ∧ ∀ now, a = .wait i now → now.Reached deadline) → d.timed deadline = true →
      d.step cfg ev = some d' → NativeAnswer t a i d ev → d'.late < d.late ∧ d'.timed deadline = true := by
    intro t a d d' ev _ hok hd hstep hanswer
    refine NativeCall.step_late hstep hd fun now hev => ?_
    rcases hanswer with ⟨now', ha, hac⟩ | ⟨ret2, errno, hpark⟩
    · rw [hev] at hac
      rw [NativeCall.access_clock hac]
      exact hok.2 now' ha
    · rw [hpark] at hev
      cases hev
  have hstart : ∀ d, (s.waits i).call = some d → d.timed deadline = true := by
    intro d hd
    obtain rfl : c = d := Option.some.inj (hi.symm.trans hd)
    exact htimed
  have hok : ∀ a ∈ as, a.calls i = false ∧ ∀ now, a = .wait i now → now.Reached deadline :=
    fun a ha => ⟨hcall a ha, fun now heq => hclock now (heq ▸ ha)⟩
  have hlate : (s.waits i).measure NativeCall.late ≤ 3 := by
    cases hw : s.waits i with
    | running d => exact NativeCall.late_le_of_timed (hstart d (by rw [hw]; rfl))
    | _ => exact Nat.le_of_ble_eq_true rfl
  rw [← Lts.execWhile_true] at hrun
  obtain ⟨hle, hone⟩ := native_accesses_le (fun _ ha => ha.1)
    (fun d hd hpark => NativeCall.late_of_atPark hd hpark) hlt hstart hok hrun
  exact ⟨hle.trans hlate, hone⟩

end System

/-- A timed native wait up to its deadline check, or up to its park call. -/
def nativeCallToCheck (i : ι) : List (NativeAction ι κ (BitVec Width.w4.bits)) :=
  [.callWaitExpected i 0 (some ⟨1, 0⟩) .seq_cst .relaxed 0, .wait i ⟨0, 0⟩, .wait i ⟨0, 0⟩]

/-- The rest of it when the object has changed meanwhile, and when the deadline has passed meanwhile. -/
def nativeExitChanged (i : ι) : List (NativeAction ι κ (BitVec Width.w4.bits)) :=
  [.wait i ⟨0, 0⟩, .park i (-11), .wait i ⟨0, 0⟩, .wait i ⟨0, 0⟩]

def nativeExitLate (i : ι) : List (NativeAction ι κ (BitVec Width.w4.bits)) :=
  [.park i (-11), .unblock i (-110), .resume i, .wait i ⟨2, 0⟩, .wait i ⟨2, 0⟩]

/-- The wait that has just looked makes all four. -/
theorem native_accesses_after_change_four :
    ∃ (s s' : NativeSys (Fin 1) (Fin 1) (BitVec Width.w4.bits)) (c : NativeCall (BitVec Width.w4.bits)),
      (s.waits 0).call = some c ∧
      Lts.execWhile (nativeStep (.lp64 .linux)) (fun t => t.mem ≠ c.expected) s (nativeExitChanged 0) = some s' ∧
      4 ≤ (nativeExitChanged 0 : List (NativeAction (Fin 1) (Fin 1) _)).countP (NativeAction.accesses 0) ∧
      ((nativeExitChanged 0 : List (NativeAction (Fin 1) (Fin 1) _)).countP (NativeAction.accesses 0) ≤ 4 ∧
        (nativeExitChanged 0 : List (NativeAction (Fin 1) (Fin 1) _)).countP (NativeAction.parks 0) ≤ 1) := by
  have hrun : (Lts.exec (nativeStep (.lp64 .linux)) (NativeSys.start 0) (nativeCallToCheck 0 ++ [.store 1])).any
      (fun s : NativeSys (Fin 1) (Fin 1) (BitVec Width.w4.bits) => (s.waits 0).call.any fun c =>
        (Lts.execWhile (nativeStep (.lp64 .linux)) (fun t => t.mem ≠ c.expected) s (nativeExitChanged 0)).isSome)
      = true := by
    decide +kernel
  obtain ⟨s, -, hs⟩ := (Option.any_eq_true _ _).mp hrun
  obtain ⟨c, hc, hexit⟩ := (Option.any_eq_true _ _).mp hs
  obtain ⟨s', hs'⟩ := Option.isSome_iff_exists.mp hexit
  exact ⟨s, s', c, hc, hs', by decide, native_accesses_after_change hc (by decide) hs'⟩

/-- The wait that is at its park call makes all three. -/
theorem native_accesses_after_deadline_three :
    ∃ (s s' : NativeSys (Fin 1) (Fin 1) (BitVec Width.w4.bits)) (c : NativeCall (BitVec Width.w4.bits)),
      (s.waits 0).call = some c ∧ c.timed ⟨1, 0⟩ = true ∧
      Lts.exec (nativeStep (.lp64 .linux)) s (nativeExitLate 0) = some s' ∧
      3 ≤ (nativeExitLate 0 : List (NativeAction (Fin 1) (Fin 1) _)).countP (NativeAction.accesses 0) ∧
      ((nativeExitLate 0 : List (NativeAction (Fin 1) (Fin 1) _)).countP (NativeAction.accesses 0) ≤ 3 ∧
        (nativeExitLate 0 : List (NativeAction (Fin 1) (Fin 1) _)).countP (NativeAction.parks 0) ≤ 1) := by
  have hrun : (Lts.exec (nativeStep (.lp64 .linux)) (NativeSys.start 0)
      (nativeCallToCheck 0 ++ [.wait 0 ⟨0, 0⟩])).any
      (fun s : NativeSys (Fin 1) (Fin 1) (BitVec Width.w4.bits) => (s.waits 0).call.any fun c =>
        c.timed ⟨1, 0⟩ && (Lts.exec (nativeStep (.lp64 .linux)) s (nativeExitLate 0)).isSome) = true := by
    decide +kernel
  obtain ⟨s, -, hs⟩ := (Option.any_eq_true _ _).mp hrun
  obtain ⟨c, hc, hand⟩ := (Option.any_eq_true _ _).mp hs
  obtain ⟨htimed, hexit⟩ := Bool.and_eq_true_iff.mp hand
  obtain ⟨s', hs'⟩ := Option.isSome_iff_exists.mp hexit
  have hclock : ∀ now, NativeAction.wait 0 now ∈ (nativeExitLate 0 : List (NativeAction (Fin 1) (Fin 1) _)) →
      now.Reached ⟨1, 0⟩ := by
    intro now hnow
    simp [nativeExitLate] at hnow
    rw [hnow]
    decide
  exact ⟨s, s', c, hc, htimed, hs', by decide, native_accesses_after_deadline hc htimed (by decide) hclock hs'⟩

end AtomicWaits
