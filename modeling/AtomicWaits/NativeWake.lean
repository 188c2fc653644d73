import AtomicWaits.NativeSystem

/-!
# No lost wake on the native paths

A waiter that parks on the user's object depends on two agreements between the code and the kernel.
The kernel must compare all of the object that the loop compares, else a waiter parks after the change
and its notify; and the count of a wake-all must reach every thread that is parked.

* `native_no_lost_wake_of_covered`: where both hold at each step of a run, the run loses no wake.
* `native_no_lost_wake_iff`: both hold on every run exactly where the operation compares as many bits
  as the object has, and the Linux and FreeBSD backends have at most `INT_MAX` waiters.

`UMTX_OP_WAIT` compares a C `long`, so on a FreeBSD target where that has 32 bits the 8-byte wait
compares half of its object (`native_loses_wake`).
-/

namespace AtomicWaits

open Lib

/-- The number of bits of the object the kernel compares. -/
def Platform.compareBits (cfg : Platform) (width : Width) : ℕ :=
  (waitOnAddress cfg width).elim 0 (WaitOp.bits cfg)

/-- Whether the backend clamps the count of a wake-all to `INT_MAX`. -/
def Platform.ClampsWake (cfg : Platform) : Prop := cfg.backend = .linux ∨ cfg.backend = .freebsd

section Defs

variable {ι κ V A : Type}

/-- The thread `i` waits for the object to differ from `expected`, and is suspended in the kernel. -/
def NativeSys.Suspended (s : NativeSys ι κ V) (i : ι) (expected : V) : Prop :=
  ∃ c, s.waits i = .blocked c ∧ c.expected = expected

/-- **No lost wake.** Once a wake-all has begun after the object changed, and has completed while it
stayed changed, no wait for the old value is suspended as long as it stays changed. -/
def NativeNoLostWake (L : Lts (NativeSys ι κ V) A) : Prop :=
  ∀ (expected : V) (i : ι) (j : κ),
    L.Settles (fun s => s.mem ≠ expected) (fun s => s.notifies j = .wake wakeAll)
      (fun s => s.notifies j = .returned) (fun s => s.Suspended i expected)

/-- The code and the kernel agree in this step. -/
structure NativeCovered [Fintype ι] (cfg : Platform) {width : Width}
    (s : NativeSys ι κ (BitVec width.bits)) (a : NativeAction ι κ (BitVec width.bits)) : Prop where
  /-- A thread that parks parks on an object that is all of its expected value. -/
  compare : ∀ i ret2 c, a = .park i ret2 → s.waits i = .running c →
    kernelParks cfg width s.mem c.expected = true → s.mem = c.expected
  /-- A wake-all has a count for every thread that is parked. -/
  count : ∀ j woken, a = .notify j woken → s.notifies j = .wake wakeAll →
    s.blocked.card ≤ wakeByAddressCount cfg wakeAll s.blocked.card

end Defs

/-! ### The compare and the count -/

section Kernel

variable {cfg : Platform} {width : Width}

theorem WaitOp.eq_of_compare {op : WaitOp} {n : ℕ} {mem expected : BitVec n}
    (hbits : op.bits cfg = n) (h : op.compare cfg mem expected = true) : mem = expected := by
  subst hbits
  simpa [WaitOp.compare, kernelOperand] using h

/-- An operation that compares less than the object takes some changed object for unchanged. -/
theorem WaitOp.exists_compare {op : WaitOp} {n : ℕ} (hbits : op.bits cfg < n) :
    ∃ v : BitVec n, v ≠ 0 ∧ op.compare cfg v 0 = true := by
  have hpow : 2 ^ op.bits cfg < 2 ^ n := Nat.pow_lt_pow_right (by decide) hbits
  cases hend : cfg.bigEndian with
  | true =>
    have hone : 1 < 2 ^ n := Nat.one_lt_two_pow (by omega)
    refine ⟨BitVec.ofNat n 1, ?_, ?_⟩
    · intro h
      have := congrArg BitVec.toNat h
      rw [BitVec.toNat_ofNat, Nat.mod_eq_of_lt hone] at this
      simp at this
    · have hshift : 2 ≤ 2 ^ (n - op.bits cfg) := Nat.le_self_pow (by omega) 2
      simp only [WaitOp.compare, kernelOperand, hend, if_true, decide_eq_true_eq]
      apply BitVec.eq_of_toNat_eq
      simp only [BitVec.toNat_setWidth, BitVec.toNat_ushiftRight, BitVec.toNat_ofNat, Nat.shiftRight_eq_div_pow]
      rw [Nat.mod_eq_of_lt hone, Nat.div_eq_of_lt (by omega)]
      simp
  | false =>
    refine ⟨BitVec.twoPow n (op.bits cfg), ?_, ?_⟩
    · intro h
      have := congrArg BitVec.toNat h
      rw [BitVec.toNat_twoPow, Nat.mod_eq_of_lt hpow] at this
      simp at this
    · simp only [WaitOp.compare, kernelOperand, hend, decide_eq_true_eq]
      apply BitVec.eq_of_toNat_eq
      simp [BitVec.toNat_setWidth, BitVec.toNat_twoPow, Nat.mod_eq_of_lt hpow]

theorem waitOnAddress_of_haveAddress (hw : cfg.haveAddress width = true) :
    ∃ op, waitOnAddress cfg width = some op ∧ op.bits cfg ≤ width.bits := by
  have hlong : cfg.longBits ≤ 64 := by
    rcases cfg.longBits_eq with h | h <;> omega
  cases hb : cfg.backend <;> cases width <;>
    simp_all [Platform.haveAddress, waitOnAddress, WaitOp.bits, Width.bits, Width.bytes]

theorem wakeByAddressCount_le (maxThreads : BitVec 32) (n : ℕ) :
    wakeByAddressCount cfg maxThreads n ≤ n := by
  unfold wakeByAddressCount
  split
  · exact min_le_right _ _
  · exact min_le_right _ _
  · split <;> omega
  · split <;> omega
  · exact Nat.zero_le n

/-- No backend bounds a wake-all below `INT_MAX` threads. -/
theorem wakeByAddressCount_all (hw : cfg.haveAddress width = true) {n : ℕ}
    (hn : cfg.ClampsWake → (n : ℤ) ≤ INT_MAX) : wakeByAddressCount cfg wakeAll n = n := by
  have hclamp : (nrWake wakeAll).toNat = INT_MAX.toNat := by decide
  unfold wakeByAddressCount
  cases hb : cfg.backend with
  | linux =>
    have := hn (.inl hb)
    simp only [hclamp]
    omega
  | freebsd =>
    have := hn (.inr hb)
    simp only [hclamp]
    omega
  | macos => exact if_neg (by decide)
  | windows => exact if_neg (by decide)
  | pthreads =>
    exfalso
    revert hw
    cases width <;> simp [Platform.haveAddress, hb]

/-- The clamp bounds a wake-all. -/
theorem wakeByAddressCount_clamped (hc : cfg.ClampsWake) {n : ℕ} (hn : INT_MAX < n) :
    wakeByAddressCount cfg wakeAll n < n := by
  have hclamp : (nrWake wakeAll).toNat = INT_MAX.toNat := by decide
  have hmax : 0 ≤ INT_MAX := by decide
  unfold wakeByAddressCount
  rcases hc with hb | hb
  · simp only [hb, hclamp]
    omega
  · simp only [hb, hclamp]
    omega

/-- Where the kernel compares all of the object, a thread parks on its expected value only. -/
theorem eq_of_kernelParks (hbits : cfg.compareBits width = width.bits)
    {mem expected : BitVec width.bits} (h : kernelParks cfg width mem expected = true) :
    mem = expected := by
  obtain ⟨op, hop, hcompare⟩ := (Option.any_eq_true _ _).mp h
  rw [Platform.compareBits, hop] at hbits
  exact WaitOp.eq_of_compare hbits hcompare

/-- Where it compares less, some changed object parks a thread. -/
theorem exists_kernelParks (hw : cfg.haveAddress width = true)
    (hbits : cfg.compareBits width ≠ width.bits) :
    ∃ v : BitVec width.bits, v ≠ 0 ∧ kernelParks cfg width v 0 = true := by
  obtain ⟨op, hop, hle⟩ := waitOnAddress_of_haveAddress hw
  rw [Platform.compareBits, hop] at hbits
  obtain ⟨v, hv, hcompare⟩ := WaitOp.exists_compare (lt_of_le_of_ne hle hbits)
  exact ⟨v, hv, (Option.any_eq_true _ _).mpr ⟨op, hop, hcompare⟩⟩

theorem kernelParks_zero (hw : cfg.haveAddress width = true) :
    kernelParks cfg width 0 0 = true := by
  obtain ⟨op, hop, -⟩ := waitOnAddress_of_haveAddress hw
  refine (Option.any_eq_true _ _).mpr ⟨op, hop, ?_⟩
  simp [WaitOp.compare, kernelOperand]

end Kernel

/-! ### What a step does to the suspended threads -/

section Steps

variable {ι κ : Type} [DecidableEq ι] [DecidableEq κ] [Fintype ι] {cfg : Platform} {width : Width}
  {s s' : NativeSys ι κ (BitVec width.bits)} {a : NativeAction ι κ (BitVec width.bits)}

omit [DecidableEq κ] [Fintype ι] in
theorem NativeSys.setWait_blocked {k i : ι} {t : NativeThread (BitVec width.bits)}
    {c : NativeCall (BitVec width.bits)} (h : (s.setWait k t).waits i = .blocked c) :
    (i = k ∧ t = .blocked c) ∨ s.waits i = .blocked c := by
  by_cases hik : i = k
  · subst hik
    exact .inl ⟨rfl, by simpa [NativeSys.setWait] using h⟩
  · exact .inr (by simpa [NativeSys.setWait, hik] using h)

omit [DecidableEq κ] [Fintype ι] in
/-- A thread that a wake leaves suspended was not woken. -/
theorem NativeSys.signal_blocked {woken : Finset ι} {i : ι} {c : NativeCall (BitVec width.bits)}
    (h : (s.signal woken).waits i = .blocked c) : s.waits i = .blocked c ∧ i ∉ woken := by
  have h' : (if i ∈ woken then (s.waits i).wake else s.waits i) = .blocked c := h
  split at h'
  · cases ht : s.waits i <;> rw [ht] at h' <;> cases h'
  · next hi => exact ⟨h', hi⟩

/-- A thread is suspended by its own park call only, on a compare that held. -/
theorem NativeSysStep.blocked (hs : NativeSysStep cfg s a s') {i : ι}
    {c : NativeCall (BitVec width.bits)} (hb : s'.waits i = .blocked c) :
    s.waits i = .blocked c ∨
      s'.mem = s.mem ∧ ∃ ret2, a = .park i ret2 ∧ s.waits i = .running c ∧
        kernelParks cfg width s.mem c.expected = true := by
  have hset : ∀ (k : ι) (t : NativeThread (BitVec width.bits)), (∀ c', t ≠ .blocked c') →
      (s.setWait k t).waits i = .blocked c → s.waits i = .blocked c := by
    intro k t ht h
    rcases NativeSys.setWait_blocked h with ⟨-, heq⟩ | hold
    · exact absurd heq (ht c)
    · exact hold
  cases hs with
  | store v => exact .inl hb
  | parkSleeps k ret2 c' hc hpark hk =>
    rcases NativeSys.setWait_blocked hb with ⟨rfl, heq⟩ | hold
    · cases heq
      exact .inr ⟨rfl, ret2, rfl, hc, hk⟩
    · exact .inl hold
  | callNotify j maxThreads hret => exact .inl hb
  | notify j woken maxThreads hn hcan =>
    exact .inl (NativeSys.signal_blocked (show (s.signal woken).waits i = .blocked c from hb)).1
  | _ => exact .inl (hset _ _ (fun _ h => by cases h) hb)

/-- A notify that is about to wake stays so until it wakes. -/
theorem NativeSysStep.notifies (hs : NativeSysStep cfg s a s') {j : κ} {maxThreads : BitVec 32}
    (hn : s.notifies j = .wake maxThreads) :
    s'.notifies j = .wake maxThreads ∨ ∃ woken, a = .notify j woken := by
  cases hs with
  | callNotify k m hret =>
    have hkj : j ≠ k := by
      intro heq
      rw [heq, hret] at hn
      cases hn
    exact .inl (by simpa [NativeSys.setNotify, hkj] using hn)
  | notify k woken m hk hcan =>
    by_cases hkj : j = k
    · exact .inr ⟨woken, by rw [hkj]⟩
    · exact .inl (by simpa [NativeSys.setNotify, NativeSys.signal, hkj] using hn)
  | _ => exact .inl hn

/-- A wake-all with a count for every parked thread leaves none parked. -/
theorem NativeSysStep.wakes_all {j : κ} {woken : Finset ι}
    (hs : NativeSysStep cfg s (.notify j woken) s') (hn : s.notifies j = .wake wakeAll)
    (hcount : s.blocked.card ≤ wakeByAddressCount cfg wakeAll s.blocked.card) (i : ι)
    (c : NativeCall (BitVec width.bits)) : s'.waits i ≠ .blocked c := by
  intro hb
  cases hs with
  | notify _ _ maxThreads hk hcan =>
    obtain rfl : maxThreads = wakeAll := by
      rw [hn] at hk
      cases hk
      rfl
    have hall : woken = s.blocked :=
      Finset.eq_of_subset_of_card_le hcan.1 (hcount.trans hcan.2)
    obtain ⟨hold, hi⟩ :=
      NativeSys.signal_blocked (show (s.signal woken).waits i = .blocked c from hb)
    apply hi
    rw [hall, NativeSys.blocked, Finset.mem_filter, hold]
    exact ⟨Finset.mem_univ i, rfl⟩

/-- **No lost wake** in the runs in which the code and the kernel agree at each step. -/
theorem native_no_lost_wake_of_covered (ι κ : Type) [DecidableEq ι] [DecidableEq κ] [Fintype ι]
    (cfg : Platform) (width : Width) :
    NativeNoLostWake ((nativeSystem ι κ cfg width).restrict (NativeCovered cfg)) := by
  intro expected i j
  apply Lts.settles_of_phases (fun s => s.notifies j = .wake wakeAll)
    (fun s => ∀ k c, s.waits k = .blocked c → c.expected ≠ expected)
  · exact fun s hn => hn
  · rintro s a s' _ _ _ ⟨hstep, hcov⟩ hn
    have hs := nativeStep_cases hstep
    rcases hs.notifies hn with hn' | ⟨woken, rfl⟩
    · exact .inl hn'
    · refine .inr fun k c hb => ?_
      exact absurd hb (hs.wakes_all hn (hcov.count j woken rfl hn) k c)
  · rintro s a s' _ hmem _ ⟨hstep, hcov⟩ hserved k c hb
    rcases (nativeStep_cases hstep).blocked hb with hold | ⟨-, ret2, ha, hrun, hk⟩
    · exact hserved k c hold
    · intro he
      exact hmem (he ▸ hcov.compare k ret2 c ha hrun hk)
  · intro s hn hret
    rw [hn] at hret
    cases hret
  · rintro s - hserved ⟨c, hb, he⟩
    exact hserved i c hb he

/-! ### Runs that lose a wake -/

/-- A thread outside a call comes to the point of parking on what the object holds. -/
theorem reachable_atPark (hr : (nativeSystem ι κ cfg width).Reachable s) {i : ι}
    (hfree : (s.waits i).isFree = true) :
    (nativeSystem ι κ cfg width).Reachable (s.setWait i (.running (.loop ⟨s.mem, .park⟩))) := by
  have hcall : nativeStep cfg s (.callWait i s.mem)
      = some (s.setWait i (.running (.loop ⟨s.mem, .load⟩))) := if_pos hfree
  have hload : nativeStep cfg (s.setWait i (.running (.loop ⟨s.mem, .load⟩))) (.wait i ⟨0, 0⟩)
      = some (s.setWait i (.running (.loop ⟨s.mem, .park⟩))) := by
    simp [nativeStep, NativeSys.setWait, NativeCall.access, NativeCall.step, atomicWaitN]
  exact (hr.tail hcall).tail hload

theorem nativeStep_parkSleeps {i : ι} {e : BitVec width.bits}
    (hi : s.waits i = .running (.loop ⟨e, .park⟩))
    (hk : kernelParks cfg width s.mem e = true) :
    nativeStep cfg s (.park i 0) = some (s.setWait i (.blocked (.loop ⟨e, .park⟩))) := by
  simp [nativeStep, hi, NativeCall.atPark, NativeCall.expected, hk]

/-- The object changes from zero, a wake-all comes and goes, and a thread that waits for it to differ
from zero is suspended. -/
theorem native_loses_wake_of_run (hr : (nativeSystem ι κ cfg width).Reachable s) {j : κ}
    (hj : s.notifies j = .returned) {v : BitVec width.bits} (hv : v ≠ 0) {woken : Finset ι}
    (hcan : NativeSys.CanWake cfg { s with mem := v } wakeAll woken)
    (hafter : (nativeSystem ι κ cfg width).StepsWhile (fun t => t.mem ≠ 0)
      (NativeSys.signal { s with mem := v } woken) s')
    {i : ι} (hsusp : s'.Suspended i 0) : ¬ NativeNoLostWake (nativeSystem ι κ cfg width) := by
  intro hno
  generalize ht : ({ s with mem := v } : NativeSys ι κ (BitVec width.bits)) = t at hcan hafter
  have hmem : t.mem ≠ 0 := by rw [← ht]; exact hv
  have hret : t.notifies j = .returned := by rw [← ht]; exact hj
  have hstore : nativeStep cfg s (.store v) = some t := by rw [← ht]; rfl
  have hcall : nativeStep cfg t (.callNotify j wakeAll) = some (t.setNotify j (.wake wakeAll)) :=
    if_pos hret
  have hwake : nativeStep cfg (t.setNotify j (.wake wakeAll)) (.notify j woken)
      = some (t.signal woken) := by
    have hcan' : (t.setNotify j (.wake wakeAll)).CanWake cfg wakeAll woken := hcan
    have hback : Function.update t.notifies j .returned = t.notifies := by
      rw [← hret, Function.update_eq_self]
    have hn : (t.setNotify j (.wake wakeAll)).notifies j = .wake wakeAll :=
      Function.update_self ..
    have hend : ((t.setNotify j (.wake wakeAll)).signal woken).setNotify j .returned
        = t.signal woken := by
      simp only [NativeSys.signal, NativeSys.setNotify, Function.update_idem, hback]
    simp only [nativeStep, hn, if_pos hcan', hend]
  have hduring : (nativeSystem ι κ cfg width).StepsWhile (fun u => u.mem ≠ 0)
      (t.setNotify j (.wake wakeAll)) (t.signal woken) := by
    refine Lts.StepsWhile.tail (.refl ?_) hwake ?_
    · exact hmem
    · exact hmem
  exact hno 0 i j _ _ s' ((hr.tail hstore).tail hcall) (Function.update_self ..) hduring hret hafter
    hsusp

/-- A store and its notify fall between the load of a waiter and a compare that does not see the
store. -/
theorem native_loses_wake_of_compare [Nonempty ι] [Nonempty κ] {v : BitVec width.bits} (hv : v ≠ 0)
    (hk : kernelParks cfg width v 0 = true) : ¬ NativeNoLostWake (nativeSystem ι κ cfg width) := by
  obtain ⟨i⟩ := ‹Nonempty ι›
  obtain ⟨j⟩ := ‹Nonempty κ›
  obtain ⟨r, hr, hi, hj, hnone⟩ : ∃ r : NativeSys ι κ (BitVec width.bits),
      (nativeSystem ι κ cfg width).Reachable r ∧ r.waits i = .running (.loop ⟨0, .park⟩) ∧
        r.notifies j = .returned ∧ r.blocked = ∅ := by
    have hstart : (nativeSystem ι κ cfg width).Reachable (.start 0) :=
      .of_init ⟨fun _ => rfl, fun _ => rfl⟩
    refine ⟨_, reachable_atPark hstart (i := i) rfl, Function.update_self .., rfl, ?_⟩
    apply Finset.filter_eq_empty_iff.mpr
    intro k _
    by_cases hki : k = i
    · subst hki
      simp [NativeSys.setWait, NativeThread.isBlocked]
    · simp [NativeSys.setWait, NativeSys.start, NativeThread.isBlocked, hki]
  have hcan : NativeSys.CanWake cfg { r with mem := v } wakeAll ∅ := by
    refine ⟨Finset.empty_subset _, ?_⟩
    rw [show NativeSys.blocked { r with mem := v } = ∅ from hnone]
    exact wakeByAddressCount_le wakeAll 0
  generalize hu : NativeSys.signal { r with mem := v } ∅ = u
  have hpark : nativeStep cfg u (.park i 0)
      = some (u.setWait i (.blocked (.loop ⟨0, .park⟩))) :=
    nativeStep_parkSleeps (by rw [← hu]; exact hi) (by rw [← hu]; exact hk)
  have hmem : u.mem ≠ 0 := by
    rw [← hu]
    exact hv
  have hafter : (nativeSystem ι κ cfg width).StepsWhile (fun t => t.mem ≠ 0) u
      (u.setWait i (.blocked (.loop ⟨0, .park⟩))) := by
    refine Lts.StepsWhile.tail (.refl ?_) hpark ?_
    · exact hmem
    · exact hmem
  rw [← hu] at hafter
  exact native_loses_wake_of_run hr hj hv hcan hafter
    ⟨.loop ⟨0, .park⟩, Function.update_self .., rfl⟩

/-- The threads of `T` are parked on zero. -/
def NativeSys.parked (T : Finset ι) : NativeSys ι κ (BitVec width.bits) where
  mem := 0
  waits k := if k ∈ T then .blocked (.loop ⟨0, .park⟩) else .idle
  notifies _ := .returned

theorem reachable_parked (hw : cfg.haveAddress width = true) (T : Finset ι) :
    (nativeSystem ι κ cfg width).Reachable (.parked T) := by
  induction T using Finset.induction_on with
  | empty => exact .of_init ⟨fun _ => rfl, fun _ => rfl⟩
  | insert i T hi ih =>
    generalize hs : (NativeSys.parked T : NativeSys ι κ (BitVec width.bits)) = s at ih
    have hmem : s.mem = 0 := by rw [← hs]; rfl
    have hidle : s.waits i = .idle := by
      rw [← hs]
      exact if_neg hi
    have hready := reachable_atPark ih (i := i) (by rw [hidle]; rfl)
    rw [hmem] at hready
    have hsleep : nativeStep cfg (s.setWait i (.running (.loop ⟨0, .park⟩))) (.park i 0)
        = some ((s.setWait i (.running (.loop ⟨0, .park⟩))).setWait i
          (.blocked (.loop ⟨0, .park⟩))) :=
      nativeStep_parkSleeps (Function.update_self ..)
        (show kernelParks cfg width s.mem 0 = true from hmem ▸ kernelParks_zero hw)
    convert hready.tail hsleep using 1
    rw [← hs]
    simp only [NativeSys.parked, NativeSys.setWait, Function.update_idem, NativeSys.mk.injEq,
      true_and, and_true]
    funext k
    by_cases hk : k = i
    · subst hk
      simp
    · simp [hk]

/-- More threads are parked than the count of a wake-all reaches. -/
theorem native_loses_wake_of_count [Nonempty κ] (hw : cfg.haveAddress width = true)
    (hcount : wakeByAddressCount cfg wakeAll (Fintype.card ι) < Fintype.card ι) :
    ¬ NativeNoLostWake (nativeSystem ι κ cfg width) := by
  obtain ⟨j⟩ := ‹Nonempty κ›
  obtain ⟨woken, hwoken, hcard⟩ := Finset.exists_subset_card_eq
    (s := (Finset.univ : Finset ι)) (n := wakeByAddressCount cfg wakeAll (Fintype.card ι))
    (by rw [Finset.card_univ]; exact hcount.le)
  obtain ⟨i, hi⟩ : ∃ i, i ∉ woken := by
    by_contra hall
    have huniv : woken = Finset.univ :=
      Finset.eq_univ_of_forall fun k => not_not.mp fun hk => hall ⟨k, hk⟩
    rw [huniv, Finset.card_univ] at hcard
    omega
  have hblocked : ∀ u : BitVec width.bits, NativeSys.blocked
      { (NativeSys.parked Finset.univ : NativeSys ι κ (BitVec width.bits)) with mem := u }
        = (Finset.univ : Finset ι) := by
    intro u
    apply Finset.filter_eq_self.mpr
    intro k _
    simp [NativeSys.parked, NativeThread.isBlocked]
  have hone : (1 : BitVec width.bits) ≠ 0 := by
    cases width <;> decide
  have hcan : NativeSys.CanWake cfg
      { (NativeSys.parked Finset.univ : NativeSys ι κ (BitVec width.bits)) with mem := 1 } wakeAll
      woken := by
    refine ⟨?_, ?_⟩
    · rw [hblocked]
      exact hwoken
    · rw [hblocked, Finset.card_univ, hcard]
  refine native_loses_wake_of_run (reachable_parked hw Finset.univ) (j := j) rfl hone hcan
    (.refl hone) (i := i) ⟨.loop ⟨0, .park⟩, ?_, rfl⟩
  simp [NativeSys.signal, NativeSys.parked, hi]

end Steps

/-! ### Where no wake is lost -/

/-- **Exactly where the native path loses no wake.** -/
theorem native_no_lost_wake_iff {ι κ : Type} [DecidableEq ι] [DecidableEq κ] [Fintype ι]
    [Nonempty ι] [Nonempty κ] (cfg : Platform) (width : Width)
    (hw : cfg.haveAddress width = true) :
    NativeNoLostWake (nativeSystem ι κ cfg width) ↔
      cfg.compareBits width = width.bits ∧
        (cfg.ClampsWake → (Fintype.card ι : ℤ) ≤ INT_MAX) := by
  constructor
  · intro hno
    refine ⟨?_, fun hclamp => ?_⟩
    · by_contra hbits
      obtain ⟨v, hv, hk⟩ := exists_kernelParks hw hbits
      exact native_loses_wake_of_compare hv hk hno
    · by_contra hcard
      exact native_loses_wake_of_count hw (wakeByAddressCount_clamped hclamp (not_le.mp hcard)) hno
  · rintro ⟨hbits, hcard⟩
    have hcov : ∀ (s : NativeSys ι κ (BitVec width.bits)) a, NativeCovered cfg s a := by
      intro s a
      refine ⟨fun _ _ _ _ _ hk => eq_of_kernelParks hbits hk, fun _ _ _ _ => ?_⟩
      have hle : s.blocked.card ≤ Fintype.card ι := Finset.card_le_univ _
      rw [wakeByAddressCount_all hw]
      intro hclamp
      exact (Int.ofNat_le.mpr hle).trans (hcard hclamp)
    rw [← Lts.restrict_of_forall (L := nativeSystem ι κ cfg width) hcov]
    exact native_no_lost_wake_of_covered ι κ cfg width

/-- Two waiters on a futex. -/
theorem native_no_lost_wake_futex :
    NativeNoLostWake (nativeSystem (Fin 2) (Fin 1) (.lp64 .linux) .w4) ↔
      (Platform.lp64 .linux).compareBits .w4 = Width.w4.bits ∧
        ((Platform.lp64 .linux).ClampsWake → (Fintype.card (Fin 2) : ℤ) ≤ INT_MAX) :=
  native_no_lost_wake_iff (.lp64 .linux) .w4 (by decide)

/-- **A 32-bit `long` loses a wake.** The 8-byte object goes from 0 to `2 ^ 32`, and the kernel
compares its lower half. -/
theorem native_loses_wake :
    (Platform.ilp32 .freebsd).haveAddress .w8 = true ∧
      ¬ NativeNoLostWake (nativeSystem (Fin 1) (Fin 1) (.ilp32 .freebsd) .w8) := by
  refine ⟨by decide, ?_⟩
  exact native_loses_wake_of_compare (v := BitVec.ofNat Width.w8.bits (2 ^ 32)) (by decide) (by decide)

end AtomicWaits
