import AtomicWaits.ThreadView

/-!
# What a lost wake is

`NoLostWake` says of a system that no wait is left suspended: once an `atomic_notify_all` has begun
after the object changed from the value a wait expects, and has completed while it stayed changed,
the wait is not suspended as long as it stays changed. The backends prove it by the rule of the two
phases: until the wake has reached the proxy the notify is `Sys.Asking`, and from there on every wait
that was committed is served.
-/

namespace AtomicWaits

open Lib

variable {ι κ V X : Type}

/-- The thread `j` has called `atomic_notify_all` on the object and has not locked the table yet. -/
def Sys.CalledAll (s : Sys ι κ V X) (j : κ) (object : ℕ) : Prop :=
  (s.notifies j).pc = .lock ∧ (s.notifies j).object = object ∧ (s.notifies j).maxThreads = wakeAll

/-- The thread `j` is in `atomic_notify_all` on the object and has not yet changed the proxy. -/
structure Sys.Asking (s : Sys ι κ V X) (j : κ) (object : ℕ) : Prop where
  pc : (s.notifies j).pc = .lock ∨ (s.notifies j).pc = .findOrCreate ∨ (s.notifies j).pc = .wake
  object : (s.notifies j).object = object
  all : (s.notifies j).maxThreads = wakeAll

/-- The thread `i` waits for the object to differ from `expected`, and is suspended. -/
def Sys.Suspended (s : Sys ι κ V X) (i : ι) (object : ℕ) (expected : V) : Prop :=
  ∃ f, s.waits i = .blocked f ∧ f.object = object ∧ f.expected = expected

/-- The check of `Sys.Suspended` on the state of the thread. -/
def WaitThread.suspendedFor [DecidableEq V] (object : ℕ) (expected : V) : WaitThread V → Bool
  | .blocked f => f.object = object && f.expected = expected
  | _ => false

instance [DecidableEq V] (s : Sys ι κ V X) (i : ι) (object : ℕ) (expected : V) :
    Decidable (s.Suspended i object expected) :=
  decidable_of_iff ((s.waits i).suspendedFor object expected = true) (by
    unfold Sys.Suspended
    cases s.waits i <;> simp [WaitThread.suspendedFor])

/-- **No lost wake.** `sys` reads the threads and the memory off a state of the system `L`. -/
def NoLostWake {S A : Type} (L : Lts S A) (sys : S → Sys ι κ V X) : Prop :=
  ∀ (object : ℕ) (expected : V) (i : ι) (j : κ),
    L.Settles (fun s => (sys s).shared.mem object ≠ expected) (fun s => (sys s).CalledAll j object)
      (fun s => ((sys s).notifies j).pc = .returned)
      (fun s => (sys s).Suspended i object expected)

/-! ### Facts about waits and notifies in reachable states -/

section Facts

variable {K : ProxyKind X} {cfg : Platform} {s s' : Sys ι κ V X}

theorem Sys.Asking.not_returned {j : κ} {object : ℕ} (h : s.Asking j object) :
    (s.notifies j).pc ≠ .returned := by
  intro hret
  have := h.pc
  rw [hret] at this
  simp at this

theorem Sys.CalledAll.asking {j : κ} {object : ℕ} (h : s.CalledAll j object) :
    s.Asking j object := ⟨.inl h.1, h.2.1, h.2.2⟩

/-- A wake-all reaches every thread suspended on the proxy. -/
theorem Sys.CanSignal.all [DecidableEq ι] [Fintype ι] {p : Option ℕ} {woken : Finset ι}
    (h : s.CanSignal K p wakeAll woken) : woken = s.blockedOn p :=
  Finset.eq_of_subset_of_card_le h.1 (by rw [← K.wakeCount_all (s.blockedOn p).card]; exact h.2)

theorem Sys.signal_all [DecidableEq ι] [Fintype ι] {p : Option ℕ} {i : ι} {f : WaitFrame V}
    (h : (s.signal (s.blockedOn p)).waits i = .blocked f) :
    s.waits i = .blocked f ∧ f.item ≠ p := by
  have h' : (if i ∈ s.blockedOn p then (s.waits i).wake else s.waits i) = .blocked f := h
  split at h'
  · cases ht : s.waits i <;> rw [ht] at h' <;> cases h'
  · next hni =>
    refine ⟨h', fun hp => hni ?_⟩
    refine Finset.mem_filter.mpr ⟨Finset.mem_univ i, ?_⟩
    rw [h']
    simp [WaitThread.blockedOn, hp]

/-- Only its own steps change a notifying thread that is inside a call. -/
theorem SysStep.notifies [DecidableEq ι] [DecidableEq κ] [DecidableEq V] [Fintype ι]
    {a : Action ι κ V}
    (hs : SysStep K cfg s a s') {j : κ} (hpc : (s.notifies j).pc ≠ .returned) :
    s'.notifies j = s.notifies j ∨ ∃ alloc woken, a = .notify j alloc woken := by
  have hother : ∀ (t : Sys ι κ V X) (k : κ) (f : NotifyFrame), k ≠ j → t.notifies = s.notifies →
      (t.setNotify k f).notifies j = s.notifies j := by
    intro t k f hk ht
    show Function.update t.notifies k f j = s.notifies j
    rw [Function.update_of_ne hk.symm, ht]
  have hself : ∀ (t : Sys ι κ V X) (k : κ) (f : NotifyFrame) (alloc : AllocEnv) (woken : Finset ι),
      t.notifies = s.notifies → (t.setNotify k f).notifies j = s.notifies j ∨
        ∃ alloc' woken', (Action.notify k alloc woken : Action ι κ V) = .notify j alloc' woken' := by
    intro t k f alloc woken ht
    by_cases hk : k = j
    · exact .inr ⟨alloc, woken, by rw [hk]⟩
    · exact .inl (hother t k f hk ht)
  cases hs with
  | callNotify k o maxThreads errno hret hlive =>
    exact .inl (hother _ k _ (fun hk => hpc (hk ▸ hret)) rfl)
  | notifyLock k alloc woken => exact hself _ k _ alloc woken rfl
  | notifyFind k alloc woken => exact hself _ k _ alloc woken rfl
  | notifyWakeAtOnce k alloc woken => exact hself _ k _ alloc woken rfl
  | notifyWake k alloc woken => exact hself _ k _ alloc woken rfl
  | notifySignal k alloc woken => exact hself _ k _ alloc woken rfl
  | notifyUnlock k alloc woken => exact hself _ k _ alloc woken rfl
  | _ => exact .inl rfl

variable [Fintype ι] [Fintype κ]

/-- A committed wait is registered on the proxy of its object. -/
theorem SysInv.committed_registered (h : SysInv s) {i : ι} {f : WaitFrame V}
    (hc : (s.waits i).committed = some f) :
    ∃ p, f.item = some p ∧ s.shared.store.table.entry f.object = some p ∧
      (s.registry.role (.inl i)).registered = some (f.object, p) := by
  have hi := WaitThread.frame_of_committed hc
  have hpc : f.pc.committed = true := by
    rcases h.frames.running_or_park hi with hrun | hpark
    · rw [hrun] at hc
      simp only [WaitThread.committed, Option.ite_none_right_eq_some] at hc
      exact hc.1
    · rw [hpark]
      rfl
  have hf := h.frames.of_frame hi
  obtain ⟨p, hp⟩ := hf.item_some (WaitPc.hasItem_of_committed hpc)
  have hreg : (s.registry.role (.inl i)).registered = some (f.object, p) := by
    show (s.waits i).role.registered = _
    rw [WaitThread.role, hi]
    exact WaitFrame.registered_of_committed hpc hp
  exact ⟨p, hp, h.registry.registered_entry hreg, hreg⟩

theorem SysInv.committed_item (h : SysInv s) {i : ι} {f : WaitFrame V}
    (hc : (s.waits i).committed = some f) : f.item = s.shared.store.table.entry f.object := by
  obtain ⟨p, hp, he, -⟩ := h.committed_registered hc
  rw [hp, he]

/-- A notify that wakes has found the proxy of its object. -/
theorem SysInv.waking_item (h : SysInv s) {j : κ}
    (hpc : (s.notifies j).pc = .wake ∨ (s.notifies j).pc = .signal) :
    (s.notifies j).item = s.shared.store.table.entry (s.notifies j).object ∧
      (s.notifies j).item ≠ none := by
  obtain ⟨p, hp⟩ := Option.ne_none_iff_exists'.mp ((h.frames.notifies j).item hpc)
  have huses : (s.registry.role (.inr j)).uses = some ((s.notifies j).object, p) := by
    show (s.notifies j).role.uses = _
    rcases hpc with hpc | hpc <;> simp only [NotifyFrame.role, hpc, hp] <;> rfl
  exact ⟨by rw [hp]; exact (h.registry.uses _ _ _ huses).symm, by rw [hp]; simp⟩


/-- A notify that has not changed the proxy goes on, or finds no proxy, or changes it now. -/
theorem SysStep.asking [DecidableEq ι] [DecidableEq κ] [DecidableEq V] {a : Action ι κ V}
    (hs : SysStep K cfg s a s') (h : SysInv s) {j : κ} {object : ℕ} (hask : s.Asking j object) :
    s'.Asking j object ∨ s'.shared.store.table.entry object = none ∨
      ∃ alloc woken, a = .notify j alloc woken ∧ (s.notifies j).pc = .wake := by
  rcases hs.notifies hask.not_returned with heq | ⟨alloc, woken, rfl⟩
  · exact .inl ⟨by rw [heq]; exact hask.pc, by rw [heq]; exact hask.object,
      by rw [heq]; exact hask.all⟩
  cases hs with
  | notifyLock _ _ _ hpc hfree =>
    refine .inl ⟨.inr (.inl ?_), ?_, ?_⟩ <;> simp [Sys.setNotify, hask.object, hask.all]
  | notifyFind _ _ _ r hpc hr =>
    have hlive := (h.frames.notifies j).live (by rw [hpc]; decide)
    obtain ⟨r', hr', hcase⟩ := hashTableFindOrCreate_cases K cfg.errno alloc (s.notifies j).errno
      h.registry.wf.table hlive false
    obtain rfl : r = r' := Option.some.inj (hr.symm.trans hr')
    have hspec := hcase.lookup h.registry.wf
    cases hri : r.item with
    | none =>
      refine .inr (.inl ?_)
      show r.store.table.entry object = none
      rw [hspec.entry, ← hask.object, ← hri]
      exact hspec.item.symm
    | some p =>
      refine .inl ⟨.inr (.inr ?_), ?_, ?_⟩ <;> simp [Sys.setNotify, hask.object, hask.all]
  | notifyWakeAtOnce _ _ _ hpc hk hsig => exact .inr (.inr ⟨alloc, woken, rfl, hpc⟩)
  | notifyWake _ _ _ hpc hk => exact .inr (.inr ⟨alloc, woken, rfl, hpc⟩)
  | notifySignal _ _ _ hpc hsig =>
    have := hask.pc
    rw [hpc] at this
    simp at this
  | notifyUnlock _ _ _ hpc =>
    have := hask.pc
    rw [hpc] at this
    simp at this

end Facts

end AtomicWaits
