import AtomicWaits.PthreadWake

/-!
# What a bounded notify promises with the pthreads proxy

A notify of at most `k` threads leaves up to `k` tokens and signals suspended threads, and any thread that
locks the mutex of the proxy may take a token. `BoundedWake` is the promise to the calls that were suspended
when the wake began: of `p` such calls at least `min k p` return zero once every thread the wake made
runnable, and every wait that was racing to park, has returned or sleeps again. `WakeWatch` observes a run
for it from the begin of the wake on.

The code keeps the promise where the tokens are left to these calls (`WakeReserved`, `bounded_wake`).
Elsewhere it does not: a wait that was registered but not yet suspended takes the only token, and the thread
that was signalled finds none (`racing_wait_uses_up_wake`).
-/

namespace AtomicWaits

open Lib

variable {ι κ V X : Type}

/-- The thread `j` begins `pthread_proxy_wake` of the proxy `p` with a bounded limit. -/
structure Sys.WakeBegins (s : Sys ι κ V X) (j : κ) (p : ℕ) : Prop where
  pc : (s.notifies j).pc = .wake
  item : (s.notifies j).item = some p
  bounded : (s.notifies j).maxThreads ≠ wakeAll

/-- How many of the calls suspended on `p` the wake of the thread `j` promises to end. -/
def Sys.promised [Fintype ι] (s : Sys ι κ V X) (j : κ) (p : ℕ) : ℕ :=
  min (s.notifies j).maxThreads.toNat (s.blockedOn (some p)).card

def Action.notifier : Action ι κ V → Option κ
  | .notify j _ _ => some j
  | _ => none

/-- Outside every call, or suspended. -/
def WaitThread.atRest : WaitThread V → Bool
  | .blocked _ => true
  | t => t.isFree

/-- Woken by a signal, or by none, and not yet at the mutex of the proxy. -/
def WaitThread.isWoken : WaitThread V → Bool
  | .woken _ ret => ret = 0
  | _ => false

theorem WaitThread.atRest_of_isWoken {t : WaitThread V} (h : t.isWoken = true) :
    t.atRest = false := by
  cases t with
  | woken f ret => rfl
  | _ => cases h

def WaitThread.registeredAt (t : WaitThread V) (p : ℕ) : Bool :=
  t.role.registered.map Prod.snd = some p

/-- What is observed of a run since a wake began. -/
structure WakeWatch (ι : Type) where
  /-- The calls suspended when the wake began that have not returned. -/
  unreturned : Finset ι
  /-- How many of these calls have returned zero. -/
  served : ℕ
  /-- Once the wake has run, the threads registered on the proxy that have neither returned nor gone to
  sleep since. -/
  busy : Option (Finset ι)

section Watch

variable [DecidableEq ι] [DecidableEq κ] [Fintype ι]

/-- The watch after a step; the wake is that of the thread `j` on the proxy `p`. -/
def watchAfter (K : ProxyKind X) (j : κ) (p : ℕ) (s : Sys ι κ V X) (a : Action ι κ V)
    (s' : Sys ι κ V X) (h : WakeWatch ι) : WakeWatch ι where
  unreturned :=
    match a.parkResult K s with
    | some (i, _) => h.unreturned.erase i
    | none => h.unreturned
  served :=
    match a.parkResult K s with
    | some (i, ret) => if i ∈ h.unreturned ∧ ret = 0 then h.served + 1 else h.served
    | none => h.served
  busy :=
    match h.busy with
    | some busy => some (busy.filter fun i => (s'.waits i).atRest = false)
    | none =>
      if a.notifier = some j then
        some (Finset.univ.filter fun i =>
          (s'.waits i).registeredAt p = true ∧ (s'.waits i).atRest = false)
      else none

variable [DecidableEq V]

/-- The runs that go on from `s₁`, where the thread `j` begins a wake of the proxy `p`. -/
def watchSystem (cfg : Platform) (monotonic : Bool) (s₁ : Sys ι κ V PthreadProxy) (j : κ) (p : ℕ) :
    Lts (Sys ι κ V PthreadProxy × WakeWatch ι) (Action ι κ V) :=
  (Lts.ofFun (fun s => s = s₁) (sysStep (pthreadProxy cfg monotonic) cfg)).withHistory
    ⟨s₁.blockedOn (some p), 0, none⟩ (watchAfter (pthreadProxy cfg monotonic) j p)

def NoTimeout (cfg : Platform) (a : Action ι κ V) : Prop := ∀ i, a ≠ .unblock i cfg.errno.ETIMEDOUT

end Watch

/-- **The promise of a bounded wake**, in the runs without timeouts whose steps after its begin meet the
condition `C`. -/
def BoundedWake (ι κ V : Type) [DecidableEq ι] [DecidableEq κ] [DecidableEq V] [Fintype ι]
    (cfg : Platform) (monotonic : Bool)
    (C : κ → ℕ → ℕ → Sys ι κ V PthreadProxy × WakeWatch ι → Action ι κ V → Prop) : Prop :=
  ∀ s₁ j p, (waitSystem ι κ V (pthreadProxy cfg monotonic) cfg).Reachable s₁ →
    s₁.WakeBegins j p →
    ∀ x, ((watchSystem cfg monotonic s₁ j p).restrict fun x a =>
        NoTimeout cfg a ∧ C j p (s₁.promised j p) x a).Reachable x →
      x.2.busy = some ∅ → s₁.promised j p ≤ x.2.served

/-- The tokens of the wake are left to the calls that were suspended when it began, of which `n` are
promised to return. -/
structure WakeReserved (cfg : Platform) (j : κ) (p n : ℕ)
    (x : Sys ι κ V PthreadProxy × WakeWatch ι) (a : Action ι κ V) : Prop where
  /-- Once the wake has run, another call takes a token only where there are more than are still
  promised. -/
  spare : x.2.busy ≠ none → ∀ i w, TriesToken x.1 i p a → i ∉ x.2.unreturned →
    x.1.shared.store.heap.cell p = some w → 0 < w.atomic.pending →
    ((n - x.2.served : ℕ) : ℤ) < w.atomic.pending
  /-- The signal of a wake of one thread goes to one of the calls, unless one is awake already. -/
  signal : ∀ alloc woken, a = .notify j alloc woken → x.2.busy = none →
    (x.1.notifies j).maxThreads = 1 → x.2.served < n →
    ∃ i ∈ x.2.unreturned, i ∈ woken ∨ (x.1.waits i).isWoken = true
  /-- The condition wait of these calls does not fail. -/
  noError : ∀ i ret, a = .unblock i ret → i ∈ x.2.unreturned → ret = 0
  /-- The token arithmetic of every wake stays inside its C types, and finds no negative count. -/
  fits : ∀ k alloc woken w, a = .notify k alloc woken → (x.1.notifies k).pc = .wake →
    (x.1.notifies k).item = some p → x.1.shared.store.heap.cell p = some w →
    0 ≤ w.atomic.pending ∧ w.useCount < 2 ^ 31 ∧
      ((x.1.notifies k).maxThreads ≠ wakeAll →
        w.atomic.pending + (x.1.notifies k).maxThreads.toNat < 2 ^ (cfg.longBits - 1))

/-! ### One suspended call -/

section Call

variable {cfg : Platform} {monotonic : Bool} {s s' : Sys ι κ V PthreadProxy} {a : Action ι κ V}
  {i : ι} {p : ℕ}

/-- The call of the thread `i` that was suspended on `p` has not returned. -/
def Sys.Pends (s : Sys ι κ V X) (p : ℕ) (i : ι) : Prop :=
  ∃ f, f.item = some p ∧ (s.waits i = .blocked f ∨ s.waits i = .woken f 0)

theorem Sys.Pends.committed (h : s.Pends p i) :
    ∃ f, (s.waits i).committed = some f ∧ f.item = some p := by
  obtain ⟨f, hp, hi | hi⟩ := h
  · exact ⟨f, by rw [hi]; rfl, hp⟩
  · exact ⟨f, by rw [hi]; rfl, hp⟩

/-- A thread that finds a token returns zero from its park call. -/
theorem TriesToken.parkResult {w : ProxyWaiter PthreadProxy} (h : TriesToken s i p a)
    (hw : s.shared.store.heap.cell p = some w) (hpos : 0 < w.atomic.pending) :
    a.parkResult (pthreadProxy cfg monotonic) s = some (i, 0) := by
  cases h with
  | park f hi hp =>
    simp [Action.parkResult, hi, Shared.proxyCall, ProxyHeap.read, hp, hw, pthreadProxy,
      PthreadProxy.enter, hpos]
  | resume f hi hp =>
    simp [Action.parkResult, hi, Shared.proxyCall, ProxyHeap.read, hp, hw, pthreadProxy,
      PthreadProxy.resume, hpos]

variable [DecidableEq ι] [DecidableEq κ] [Fintype ι]

/-- A woken thread stays so up to the rest of its park call. -/
theorem SysStep.woken_stays [DecidableEq V] {K : ProxyKind X} {s s' : Sys ι κ V X}
    {a : Action ι κ V} (hs : SysStep K cfg s a s') {f : WaitFrame V} {ret : ℤ}
    (hi : s.waits i = .woken f ret) (ha : a ≠ .resume i) : s'.waits i = .woken f ret := by
  have hother : ∀ {k : ι} {t : WaitThread V}, k ≠ i →
      Function.update s.waits k t i = .woken f ret := by
    intro k t hk
    rw [Function.update_of_ne hk.symm]
    exact hi
  have hne : ∀ {k : ι} {t : WaitThread V}, s.waits k = t → t ≠ .woken f ret → k ≠ i := by
    rintro k t hk ht rfl
    exact ht (hk.symm.trans hi)
  cases hs with
  | notifyWakeAtOnce j alloc woken | notifySignal j alloc woken =>
    show (if i ∈ woken then (s.waits i).wake else s.waits i) = _
    rw [hi]
    split <;> rfl
  | callWait k object expected duration success failure errno hfree hlive =>
    refine hother ?_
    rintro rfl
    rw [hi] at hfree
    cases hfree
  | wait k env f f' ev sh hk hacc hstep => exact hother (hne hk nofun)
  | parkSleeps k f hk hpc hr => exact hother (hne hk nofun)
  | parkReturns k f f' ret2 hk hr hstep => exact hother (hne hk nofun)
  | parkFails k f f' ret2 hk hstep => exact hother (hne hk nofun)
  | unblock k f r hk => exact hother (hne hk nofun)
  | resumeSleeps k f r hk hr => exact hother fun h => ha (by rw [h])
  | resumeReturns k f f' r ret2 hk hr hstep => exact hother fun h => ha (by rw [h])
  | _ => exact hi

variable [DecidableEq V]

/-- A suspended thread goes on waiting. -/
theorem SysStep.blocked_pends {f : WaitFrame V} (hp : f.item = some p)
    (hs : SysStep (pthreadProxy cfg monotonic) cfg s a s') (hi : s.waits i = .blocked f)
    (hquiet : ∀ ret, a = .unblock i ret → ret = 0) :
    (∀ ret, a.parkResult (pthreadProxy cfg monotonic) s ≠ some (i, ret)) ∧ s'.Pends p i := by
  refine ⟨fun ret h => ?_, ?_⟩
  · rcases Action.parkResult_cases h with ⟨g, hg⟩ | ⟨g, r, -, hg, -⟩
    · rw [hi] at hg
      cases hg
    · rw [hi] at hg
      cases hg
  · have hth := hs.thread i
    rw [hi] at hth
    generalize ht : s'.waits i = t at hth
    cases hth with
    | other _ _ => exact ⟨f, hp, .inl ht⟩
    | called _ _ hfree _ _ => cases hfree
    | signalled _ _ => exact ⟨f, hp, .inr ht⟩
    | unblocked _ ret =>
      have hzero : ret = 0 := by
        rcases hs.unblocked ht with hwoken | ⟨-, hunblock | hzero⟩
        · rw [hi] at hwoken
          cases hwoken
        · exact hquiet ret hunblock
        · exact hzero
      rw [hzero] at ht
      exact ⟨f, hp, .inr ht⟩

omit [DecidableEq V] in
/-- A woken thread that finds no token goes back to sleep. -/
theorem SysStep.resume_pends {f : WaitFrame V} (hp : f.item = some p)
    (hs : SysStep (pthreadProxy cfg monotonic) cfg s (.resume i) s') (hi : s.waits i = .woken f 0)
    {w : ProxyWaiter PthreadProxy} (hw : s.shared.store.heap.cell p = some w)
    (hpos : ¬ 0 < w.atomic.pending) :
    (∀ ret, Action.parkResult (pthreadProxy cfg monotonic) s (.resume i) ≠ some (i, ret)) ∧
      s'.Pends p i := by
  have hnone : (s.shared.proxyCall f.item fun x => x.resume cfg 0).2 = none := by
    simp [Shared.proxyCall, ProxyHeap.read, hp, hw, PthreadProxy.resume, hpos]
  refine ⟨fun ret h => ?_, ⟨f, hp, .inl ?_⟩⟩
  · rcases Action.parkResult_cases h with ⟨g, hg⟩ | ⟨g, r, -, hg, hr⟩
    · rw [hi] at hg
      cases hg
    · rw [hi] at hg
      cases hg
      have hr' : (s.shared.proxyCall f.item fun x => x.resume cfg 0).2 = some ret := hr
      rw [hnone] at hr'
      cases hr'
  · cases hs with
    | resumeSleeps _ g ret hg hr =>
      rw [hi] at hg
      cases hg
      exact Function.update_self ..
    | resumeReturns _ g g' ret ret2 hg hr hstep =>
      rw [hi] at hg
      cases hg
      have hr' : (s.shared.proxyCall f.item fun x => x.resume cfg 0).2 = some ret2 := hr
      rw [hnone] at hr'
      cases hr'

/-- **A suspended call in a step**: it takes a token and returns zero, or goes on waiting. A call that
is awake while there are tokens does not go back to sleep. -/
theorem Sys.Pends.step (h : s.Pends p i) (hs : SysStep (pthreadProxy cfg monotonic) cfg s a s')
    (hquiet : ∀ ret, a = .unblock i ret → ret = 0) {w : ProxyWaiter PthreadProxy}
    (hw : s.shared.store.heap.cell p = some w) :
    (a.parkResult (pthreadProxy cfg monotonic) s = some (i, 0) ∧ TriesToken s i p a ∧
        0 < w.atomic.pending) ∨
      ((∀ ret, a.parkResult (pthreadProxy cfg monotonic) s ≠ some (i, ret)) ∧ s'.Pends p i ∧
        ((s.waits i).isWoken = true → 0 < w.atomic.pending → (s'.waits i).isWoken = true)) := by
  obtain ⟨f, hp, hi | hi⟩ := h
  · obtain ⟨hnot, hpends⟩ := hs.blocked_pends hp hi hquiet
    refine .inr ⟨hnot, hpends, fun hwoken => ?_⟩
    rw [hi] at hwoken
    cases hwoken
  by_cases ha : a = .resume i
  · subst ha
    by_cases hpos : 0 < w.atomic.pending
    · have htry : TriesToken s i p (.resume i : Action ι κ V) := .resume f hi hp
      exact .inl ⟨htry.parkResult hw hpos, htry, hpos⟩
    · obtain ⟨hnot, hpends⟩ := hs.resume_pends hp hi hw hpos
      exact .inr ⟨hnot, hpends, fun _ h => absurd h hpos⟩
  · have hstays := hs.woken_stays hi ha
    refine .inr ⟨fun ret h => ?_, ⟨f, hp, .inr hstays⟩, fun _ _ => by rw [hstays]; rfl⟩
    rcases Action.parkResult_cases h with ⟨g, hg⟩ | ⟨g, r, hresume, -⟩
    · rw [hi] at hg
      cases hg
    · exact ha hresume

end Call

/-! ### The watch in a step -/

section Invariant

variable [Fintype ι] [Fintype κ] {cfg : Platform} {monotonic : Bool}
  {s s' : Sys ι κ V PthreadProxy} {a : Action ι κ V} {j : κ} {p n : ℕ} {h : WakeWatch ι}

/-- The calls that have not returned whose threads are awake. -/
def awakeCalls (x : Sys ι κ V X × WakeWatch ι) : Finset ι :=
  x.2.unreturned.filter fun i => (x.1.waits i).isWoken = true

/-- What the tokens and the threads promise to the suspended calls; `frame` is that of the wake. -/
structure WatchInv (j : κ) (p n : ℕ) (frame : NotifyFrame)
    (x : Sys ι κ V PthreadProxy × WakeWatch ι) : Prop where
  pends : ∀ i ∈ x.2.unreturned, x.1.Pends p i
  enough : n ≤ x.2.served + x.2.unreturned.card
  begun : x.2.busy = none → x.1.notifies j = frame
  /-- Of the promised returns that are due, each has its token. -/
  tokens : x.2.busy ≠ none → x.2.served < n → ∀ w, x.1.shared.store.heap.cell p = some w →
    ((n - x.2.served : ℕ) : ℤ) ≤ w.atomic.pending
  /-- And each has a thread on its way to take it. -/
  awake : ∀ busy, x.2.busy = some busy → x.2.served < n →
    ∃ on ⊆ awakeCalls x, on ⊆ busy ∧ n - x.2.served ≤ on.card

/-- The proxy of a suspended call is there, and counts all the calls suspended on it. -/
theorem SysInv.pends_cell (hinv : SysInv s) {U : Finset ι} (hU : ∀ i ∈ U, s.Pends p i)
    (hne : U.Nonempty) :
    ∃ w, s.shared.store.heap.cell p = some w ∧ (U.card : ℤ) ≤ w.useCount := by
  classical
  obtain ⟨i, hi⟩ := hne
  obtain ⟨f, hf, hp⟩ := (hU i hi).committed
  obtain ⟨q, hq, he, -⟩ := hinv.committed_registered hf
  obtain rfl : q = p := Option.some.inj (hq.symm.trans hp)
  obtain ⟨w, hw⟩ := hinv.entry_cell he
  refine ⟨w, hw, ?_⟩
  have hle := owedOn_le_useCount (P := fun i => i ∈ U) hinv
    (fun i hi => ⟨_, (hU i hi).committed.choose_spec.1⟩) hw
  refine le_trans ?_ hle
  have hsub : U ⊆ Finset.univ.filter fun i => i ∈ U ∧ (s.waits i).item = some q := by
    intro i hi
    obtain ⟨f, hf, hp⟩ := (hU i hi).committed
    exact Finset.mem_filter.mpr
      ⟨Finset.mem_univ i, hi, (WaitThread.item_of_committed hf).trans hp⟩
  exact_mod_cast Finset.card_le_card hsub

theorem Sys.Pends.registeredAt {i : ι} (h : s.Pends p i) (hinv : SysInv s) :
    (s.waits i).registeredAt p = true := by
  obtain ⟨f, hf, hp⟩ := h.committed
  obtain ⟨q, hq, -, hreg⟩ := hinv.committed_registered hf
  obtain rfl : q = p := Option.some.inj (hq.symm.trans hp)
  have hreg' : (s.waits i).role.registered = some (f.object, q) := hreg
  simp [WaitThread.registeredAt, hreg']

variable [DecidableEq ι] [DecidableEq κ] [DecidableEq V]

/-- **The watched calls in a step**: all go on waiting, or one takes a token and returns zero. -/
theorem WatchInv.calls {frame : NotifyFrame} (hinv : SysInv s) (hI : WatchInv j p n frame (s, h))
    (hs : SysStep (pthreadProxy cfg monotonic) cfg s a s')
    (hquiet : ∀ i ret, a = .unblock i ret → i ∈ h.unreturned → ret = 0) :
    (∀ i ∈ (watchAfter (pthreadProxy cfg monotonic) j p s a s' h).unreturned, s'.Pends p i) ∧
      (((watchAfter (pthreadProxy cfg monotonic) j p s a s' h).unreturned = h.unreturned ∧
          (watchAfter (pthreadProxy cfg monotonic) j p s a s' h).served = h.served ∧
          ∀ i ∈ h.unreturned, ∀ ret, a.parkResult (pthreadProxy cfg monotonic) s ≠ some (i, ret)) ∨
        ∃ i ∈ h.unreturned, TriesToken s i p a ∧
          (watchAfter (pthreadProxy cfg monotonic) j p s a s' h).unreturned = h.unreturned.erase i ∧
          (watchAfter (pthreadProxy cfg monotonic) j p s a s' h).served = h.served + 1) := by
  have hstep : ∀ i ∈ h.unreturned,
      (a.parkResult (pthreadProxy cfg monotonic) s = some (i, 0) ∧ TriesToken s i p a) ∨
      ((∀ ret, a.parkResult (pthreadProxy cfg monotonic) s ≠ some (i, ret)) ∧ s'.Pends p i) := by
    intro i hi
    obtain ⟨w, hw, -⟩ := hinv.pends_cell hI.pends ⟨i, hi⟩
    rcases (hI.pends i hi).step hs (fun ret ha => hquiet i ret ha hi) hw with
      ⟨hret, htry, -⟩ | ⟨hnot, hpends, -⟩
    · exact .inl ⟨hret, htry⟩
    · exact .inr ⟨hnot, hpends⟩
  cases hres : a.parkResult (pthreadProxy cfg monotonic) s with
  | none =>
    simp only [watchAfter, hres]
    refine ⟨fun i hi => ?_, .inl ⟨trivial, trivial, fun _ _ _ => nofun⟩⟩
    rcases hstep i hi with ⟨hret, -⟩ | ⟨-, hpends⟩
    · rw [hres] at hret
      cases hret
    · exact hpends
  | some r =>
    obtain ⟨k, ret⟩ := r
    simp only [watchAfter, hres]
    refine ⟨fun i hi => ?_, ?_⟩
    · obtain ⟨hne, hi⟩ := Finset.mem_erase.mp hi
      rcases hstep i hi with ⟨hret, -⟩ | ⟨-, hpends⟩
      · rw [hres] at hret
        cases hret
        exact absurd rfl hne
      · exact hpends
    · by_cases hk : k ∈ h.unreturned
      · refine .inr ⟨k, hk, ?_⟩
        rcases hstep k hk with ⟨hret, htry⟩ | ⟨hnot, -⟩
        · rw [hres] at hret
          cases hret
          exact ⟨htry, rfl, if_pos ⟨hk, rfl⟩⟩
        · exact absurd hres (hnot ret)
      · refine .inl ⟨Finset.erase_eq_of_notMem hk, if_neg fun hand => hk hand.1, fun i hi r heq => ?_⟩
        cases heq
        exact hk hi

omit [Fintype κ] in
/-- A watched call that is awake goes on so, or takes a token now. -/
theorem WatchInv.awake_stays {frame : NotifyFrame} (hI : WatchInv j p n frame (s, h))
    (hs : SysStep (pthreadProxy cfg monotonic) cfg s a s')
    (hquiet : ∀ i ret, a = .unblock i ret → i ∈ h.unreturned → ret = 0)
    {w : ProxyWaiter PthreadProxy} (hw : s.shared.store.heap.cell p = some w)
    (hpos : 0 < w.atomic.pending) {i : ι} (hi : i ∈ awakeCalls (s, h))
    (hin : i ∈ (watchAfter (pthreadProxy cfg monotonic) j p s a s' h).unreturned) :
    (s'.waits i).isWoken = true := by
  obtain ⟨hi, hwoken⟩ := Finset.mem_filter.mp hi
  rcases (hI.pends i hi).step hs (fun ret ha => hquiet i ret ha hi) hw with
    ⟨hret, -, -⟩ | ⟨-, -, hstays⟩
  · simp only [watchAfter, hret, Finset.mem_erase, ne_eq, not_true_eq_false, false_and] at hin
  · exact hstays hwoken hpos

omit [DecidableEq ι] [DecidableEq κ] [DecidableEq V] in
/-- While returns are promised the proxy is there, and counts the calls that have not returned. -/
theorem WatchInv.due_cell {frame : NotifyFrame} (hinv : SysInv s)
    (hI : WatchInv j p n frame (s, h)) (hdue : h.served < n) :
    ∃ w, s.shared.store.heap.cell p = some w ∧ n ≤ h.served + h.unreturned.card ∧
      (h.unreturned.card : ℤ) ≤ w.useCount := by
  have henough : n ≤ h.served + h.unreturned.card := hI.enough
  have hU : h.unreturned.Nonempty := Finset.card_pos.mp (by omega)
  obtain ⟨w, hw, huse⟩ := hinv.pends_cell hI.pends hU
  exact ⟨w, hw, henough, huse⟩

/-- The tokens after a step that follows the wake. -/
theorem WatchInv.tokens_step {frame : NotifyFrame} (hinv : SysInv s)
    (hI : WatchInv j p n frame (s, h)) (hs : SysStep (pthreadProxy cfg monotonic) cfg s a s')
    (hres : WakeReserved cfg j p n (s, h) a) (hbusy : h.busy ≠ none) (hdue : h.served < n)
    {w' : ProxyWaiter PthreadProxy} (hw' : s'.shared.store.heap.cell p = some w') :
    ((n - (watchAfter (pthreadProxy cfg monotonic) j p s a s' h).served : ℕ) : ℤ)
      ≤ w'.atomic.pending := by
  obtain ⟨w, hw, henough, huse⟩ := hI.due_cell hinv hdue
  have htokens : ((n - h.served : ℕ) : ℤ) ≤ w.atomic.pending := hI.tokens hbusy hdue w hw
  obtain ⟨-, hcalls⟩ := hI.calls hinv hs hres.noError
  have hserved : h.served ≤ (watchAfter (pthreadProxy cfg monotonic) j p s a s' h).served := by
    rcases hcalls with ⟨-, hsame, -⟩ | ⟨i, -, -, -, hmore⟩ <;> omega
  rw [hs.cell_effect hinv hw hw']
  rcases pthread_effect cfg monotonic s p w a with
    ⟨hsame, -⟩ | ⟨i, htry, hpos, htake⟩ | ⟨k, alloc, woken, ha, hpc, hitem, hwake⟩
  · rw [hsame]
    omega
  · rw [htake]
    rcases hcalls with ⟨-, hsame, hnot⟩ | ⟨k, -, -, -, hmore⟩
    · -- the token goes to another call
      have hother : i ∉ h.unreturned := fun hi =>
        hnot i hi 0 (htry.parkResult hw hpos)
      have hspare : ((n - h.served : ℕ) : ℤ) < w.atomic.pending :=
        hres.spare hbusy i w htry hother hw hpos
      omega
    · omega
  · rw [hwake]
    obtain ⟨h0, hreg, hlimit⟩ := hres.fits k alloc woken w ha hpc hitem hw
    have hk : (0 : ℤ) ≤ (s.notifies k).maxThreads.toNat := Int.natCast_nonneg _
    apply le_pthreadProxyPending h0 hreg hlimit
    · omega
    · intro _
      omega

/-- The threads on their way to the promised tokens, after a step that follows the wake. -/
theorem WatchInv.awake_step {frame : NotifyFrame} (hinv : SysInv s)
    (hI : WatchInv j p n frame (s, h)) (hs : SysStep (pthreadProxy cfg monotonic) cfg s a s')
    (hres : WakeReserved cfg j p n (s, h) a) {busy : Finset ι} (hbusy : h.busy = some busy)
    (hdue : h.served < n) :
    ∃ on ⊆ awakeCalls (s', watchAfter (pthreadProxy cfg monotonic) j p s a s' h),
      on ⊆ busy.filter (fun i => (s'.waits i).atRest = false) ∧
        n - (watchAfter (pthreadProxy cfg monotonic) j p s a s' h).served ≤ on.card := by
  obtain ⟨w, hw, -, -⟩ := hI.due_cell hinv hdue
  have htokens : ((n - h.served : ℕ) : ℤ) ≤ w.atomic.pending := hI.tokens (by simp [hbusy]) hdue w hw
  have hpos : 0 < w.atomic.pending := by omega
  obtain ⟨on, hawake, hon, hcard⟩ := hI.awake busy hbusy hdue
  have hkeep : ∀ i ∈ on, i ∈ (watchAfter (pthreadProxy cfg monotonic) j p s a s' h).unreturned →
      i ∈ awakeCalls (s', watchAfter (pthreadProxy cfg monotonic) j p s a s' h) ∧
        i ∈ busy.filter (fun i => (s'.waits i).atRest = false) := by
    intro i hi hin
    have hwoken := hI.awake_stays hs hres.noError hw hpos (hawake hi) hin
    exact ⟨Finset.mem_filter.mpr ⟨hin, hwoken⟩,
      Finset.mem_filter.mpr ⟨hon hi, WaitThread.atRest_of_isWoken hwoken⟩⟩
  obtain ⟨-, ⟨hsame, hserved, -⟩ | ⟨i, hi, -, herase, hserved⟩⟩ := hI.calls hinv hs hres.noError
  · have hin : ∀ i ∈ on, i ∈ (watchAfter (pthreadProxy cfg monotonic) j p s a s' h).unreturned := by
      intro i hi
      rw [hsame]
      exact (Finset.mem_filter.mp (hawake hi)).1
    refine ⟨on, fun i hi => (hkeep i hi (hin i hi)).1, fun i hi => (hkeep i hi (hin i hi)).2, ?_⟩
    rw [hserved]
    exact hcard
  · have hin : ∀ k ∈ on.erase i,
        k ∈ (watchAfter (pthreadProxy cfg monotonic) j p s a s' h).unreturned := by
      intro k hk
      rw [herase]
      obtain ⟨hne, hk⟩ := Finset.mem_erase.mp hk
      exact Finset.mem_erase.mpr ⟨hne, (Finset.mem_filter.mp (hawake hk)).1⟩
    refine ⟨on.erase i, fun k hk => (hkeep k (Finset.mem_of_mem_erase hk) (hin k hk)).1,
      fun k hk => (hkeep k (Finset.mem_of_mem_erase hk) (hin k hk)).2, ?_⟩
    have hle := Finset.pred_card_le_card_erase (s := on) (a := i)
    have hcard' : n - h.served ≤ on.card := hcard
    rw [hserved]
    omega

/-! ### The wake itself -/

omit [Fintype ι] [Fintype κ] [DecidableEq κ] [DecidableEq V] in
/-- A suspended call that a wake reaches is awake. -/
theorem Sys.Pends.woken_of_signal {i : ι} {woken : Finset ι} {t : Sys ι κ V PthreadProxy}
    (hpends : s.Pends p i) (ht : t.waits = s.waits)
    (hi : i ∈ woken ∨ (s.waits i).isWoken = true) :
    ((t.signal woken).waits i).isWoken = true := by
  show (if i ∈ woken then (t.waits i).wake else t.waits i).isWoken = true
  rw [ht]
  obtain ⟨f, -, hf | hf⟩ := hpends
  · rw [hf] at hi ⊢
    rcases hi with hi | hi
    · rw [if_pos hi]
      rfl
    · cases hi
  · rw [hf]
    split <;> rfl

/-- The wake leaves a token for each promised return. -/
theorem WatchInv.wake_tokens {frame : NotifyFrame} (hinv : SysInv s)
    (hI : WatchInv j p n frame (s, h)) (hlimit : n ≤ frame.maxThreads.toNat)
    (hframe : frame.pc = .wake ∧ frame.item = some p) {alloc : AllocEnv} {woken : Finset ι}
    (hs : SysStep (pthreadProxy cfg monotonic) cfg s (.notify j alloc woken) s')
    (hres : WakeReserved cfg j p n (s, h) (.notify j alloc woken)) (hbusy : h.busy = none)
    (hdue : h.served < n) {w' : ProxyWaiter PthreadProxy}
    (hw' : s'.shared.store.heap.cell p = some w') :
    ((n - h.served : ℕ) : ℤ) ≤ w'.atomic.pending := by
  have hj : s.notifies j = frame := hI.begun hbusy
  have hpc : (s.notifies j).pc = .wake := by rw [hj]; exact hframe.1
  have hitem : (s.notifies j).item = some p := by rw [hj]; exact hframe.2
  obtain ⟨w, hw, henough, huse⟩ := hI.due_cell hinv hdue
  obtain ⟨h0, hreg, hsum⟩ := hres.fits j alloc woken w rfl hpc hitem hw
  have hpending : (0 : ℤ) ≤ w.atomic.pending := h0
  have heff : w'.atomic.pending
      = pthreadProxyPending cfg w.atomic.pending (s.notifies j).maxThreads w.useCount := by
    rw [hs.cell_effect hinv hw hw']
    simp [Action.effect, hpc, hitem, pthreadProxy, PthreadProxy.wake]
  have hk : n ≤ (s.notifies j).maxThreads.toNat := by rw [hj]; exact hlimit
  rw [heff]
  apply le_pthreadProxyPending h0 hreg hsum
  · omega
  · intro _
    show _ ≤ w.atomic.pending + ((s.notifies j).maxThreads.toNat : ℤ)
    omega

omit [DecidableEq V] in
/-- The wake makes a thread runnable for each promised return. -/
theorem WatchInv.wake_threads {frame : NotifyFrame} (hinv : SysInv s)
    (hI : WatchInv j p n frame (s, h)) (hone : frame.maxThreads = 1 → n ≤ 1)
    (hframe : frame.pc = .wake ∧ frame.item = some p) {alloc : AllocEnv} {woken : Finset ι}
    (hs : SysStep (pthreadProxy cfg monotonic) cfg s (.notify j alloc woken) s')
    (hres : WakeReserved cfg j p n (s, h) (.notify j alloc woken)) (hbusy : h.busy = none)
    (hdue : h.served < n) :
    ∃ on ⊆ h.unreturned, (∀ i ∈ on, (s'.waits i).isWoken = true) ∧ n - h.served ≤ on.card := by
  have hj : s.notifies j = frame := hI.begun hbusy
  have hpc : (s.notifies j).pc = .wake := by rw [hj]; exact hframe.1
  have hitem : (s.notifies j).item = some p := by rw [hj]; exact hframe.2
  obtain ⟨-, -, henough, -⟩ := hI.due_cell hinv hdue
  cases hs with
  | notifyWakeAtOnce _ _ _ _ _ hcan =>
    by_cases hk : (s.notifies j).maxThreads = 1
    · -- a signal, which reaches one thread
      obtain ⟨i, hi, hwoken⟩ := hres.signal alloc woken rfl hbusy hk hdue
      have hle := hone (hj ▸ hk)
      refine ⟨{i}, Finset.singleton_subset_iff.mpr hi, ?_, ?_⟩
      · intro l hl
        obtain rfl := Finset.mem_singleton.mp hl
        exact (hI.pends l hi).woken_of_signal (t := { s with shared := _ }) rfl hwoken
      · rw [Finset.card_singleton]
        omega
    · -- a broadcast, which reaches all
      have hall : woken = s.blockedOn (some p) := by
        have hcount : (s.blockedOn (s.notifies j).item).card ≤ woken.card := by
          have hcan' := hcan.2
          rw [show (pthreadProxy cfg monotonic).wakeCount (s.notifies j).maxThreads _ = _
            from if_neg hk] at hcan'
          exact hcan'
        rw [← hitem]
        exact Finset.eq_of_subset_of_card_le hcan.1 hcount
      refine ⟨h.unreturned, subset_rfl, fun i hi => ?_, by omega⟩
      have hpends := hI.pends i hi
      refine hpends.woken_of_signal (t := { s with shared := _ }) rfl ?_
      obtain ⟨f, hp, hf | hf⟩ := hpends
      · refine .inl ?_
        rw [hall]
        refine Finset.mem_filter.mpr ⟨Finset.mem_univ i, ?_⟩
        rw [show s.waits i = .blocked f from hf]
        simp [WaitThread.blockedOn, hp]
      · refine .inr ?_
        rw [show s.waits i = .woken f 0 from hf]
        rfl
  | notifyWake _ _ _ _ hk => cases hk
  | notifyLock _ _ _ hpc' _ | notifyFind _ _ _ _ hpc' _ | notifySignal _ _ _ hpc' _
  | notifyUnlock _ _ _ hpc' =>
    rw [hpc] at hpc'
    cases hpc'

omit [Fintype κ] [DecidableEq V] in
/-- The watch of the threads begins with the wake. -/
theorem wakes_of_busy (hbusy : h.busy = none)
    (hbusy' : (watchAfter (pthreadProxy cfg monotonic) j p s a s' h).busy ≠ none) :
    ∃ alloc woken, a = .notify j alloc woken := by
  by_cases ha : a.notifier = some j
  · cases a with
    | notify k alloc woken =>
      obtain rfl : k = j := Option.some.inj ha
      exact ⟨alloc, woken, rfl⟩
    | _ => cases ha
  · refine absurd ?_ hbusy'
    simp only [watchAfter, hbusy, if_neg ha]

omit [Fintype κ] in
/-- Before the wake its thread stands still. -/
theorem WatchInv.begun_step {frame : NotifyFrame} (hI : WatchInv j p n frame (s, h))
    (hpc : frame.pc = .wake) (hs : SysStep (pthreadProxy cfg monotonic) cfg s a s')
    (hbusy' : (watchAfter (pthreadProxy cfg monotonic) j p s a s' h).busy = none) :
    s'.notifies j = frame := by
  have hnone : h.busy = none ∧ a.notifier ≠ some j := by
    simp only [watchAfter] at hbusy'
    split at hbusy'
    · cases hbusy'
    · next hnone => exact ⟨hnone, fun ha => by rw [if_pos ha] at hbusy'; cases hbusy'⟩
  have hj : s.notifies j = frame := hI.begun hnone.1
  rcases hs.notifies (j := j) (by rw [hj, hpc]; decide) with hsame | ⟨alloc, woken, rfl⟩
  · exact hsame.trans hj
  · exact absurd rfl hnone.2

/-- The threads on their way to the promised tokens, after the wake. -/
theorem WatchInv.awake_wake {frame : NotifyFrame} (hinv : SysInv s)
    (hI : WatchInv j p n frame (s, h)) (hone : frame.maxThreads = 1 → n ≤ 1)
    (hframe : frame.pc = .wake ∧ frame.item = some p) {alloc : AllocEnv} {woken : Finset ι}
    (hs : SysStep (pthreadProxy cfg monotonic) cfg s (.notify j alloc woken) s')
    (hres : WakeReserved cfg j p n (s, h) (.notify j alloc woken)) (hbusy : h.busy = none)
    (hdue : h.served < n) :
    ∃ on ⊆ awakeCalls (s', watchAfter (pthreadProxy cfg monotonic) j p s (.notify j alloc woken) s' h),
      on ⊆ Finset.univ.filter (fun i =>
        (s'.waits i).registeredAt p = true ∧ (s'.waits i).atRest = false) ∧
        n - h.served ≤ on.card := by
  obtain ⟨hpends, hcalls⟩ := hI.calls hinv hs hres.noError
  obtain ⟨on, hon, hwoken, hcard⟩ := hI.wake_threads hinv hone hframe hs hres hbusy hdue
  have hin : ∀ i ∈ on, i ∈
      (watchAfter (pthreadProxy cfg monotonic) j p s (.notify j alloc woken) s' h).unreturned := by
    intro i hi
    rcases hcalls with ⟨hsame, -⟩ | ⟨k, -, htry, -⟩
    · rw [hsame]
      exact hon hi
    · cases htry
  refine ⟨on, fun i hi => Finset.mem_filter.mpr ⟨hin i hi, hwoken i hi⟩, fun i hi => ?_, hcard⟩
  exact Finset.mem_filter.mpr ⟨Finset.mem_univ i, (hpends i (hin i hi)).registeredAt (hinv.step hs),
    WaitThread.atRest_of_isWoken (hwoken i hi)⟩

/-- **Each step keeps the promise.** -/
theorem WatchInv.step {frame : NotifyFrame} (hinv : SysInv s)
    (hI : WatchInv j p n frame (s, h)) (hlimit : n ≤ frame.maxThreads.toNat)
    (hone : frame.maxThreads = 1 → n ≤ 1)
    (hframe : frame.pc = .wake ∧ frame.item = some p)
    (hs : SysStep (pthreadProxy cfg monotonic) cfg s a s')
    (hres : WakeReserved cfg j p n (s, h) a) :
    WatchInv j p n frame (s', watchAfter (pthreadProxy cfg monotonic) j p s a s' h) := by
  obtain ⟨hpends, hcalls⟩ := hI.calls hinv hs hres.noError
  have henough : n ≤ h.served + h.unreturned.card := hI.enough
  have hserved : h.served ≤ (watchAfter (pthreadProxy cfg monotonic) j p s a s' h).served := by
    rcases hcalls with ⟨-, hsame, -⟩ | ⟨i, -, -, -, hmore⟩ <;> omega
  refine ⟨hpends, ?_, ?_, ?_, ?_⟩
  · rcases hcalls with ⟨hsame, hserved, -⟩ | ⟨i, hi, -, herase, hserved⟩
    · show n ≤ (watchAfter _ j p s a s' h).served + (watchAfter _ j p s a s' h).unreturned.card
      rw [hsame, hserved]
      exact henough
    · show n ≤ (watchAfter _ j p s a s' h).served + (watchAfter _ j p s a s' h).unreturned.card
      have hpos := Finset.card_pos.mpr ⟨i, hi⟩
      rw [herase, hserved, Finset.card_erase_of_mem hi]
      omega
  · exact hI.begun_step hframe.1 hs
  · intro hbusy' hdue' w' hw'
    have hdue : h.served < n := lt_of_le_of_lt hserved hdue'
    by_cases hbusy : h.busy = none
    · obtain ⟨alloc, woken, rfl⟩ := wakes_of_busy hbusy hbusy'
      have htokens := hI.wake_tokens hinv hlimit hframe hs hres hbusy hdue hw'
      show ((n - (watchAfter _ j p s _ s' h).served : ℕ) : ℤ) ≤ _
      omega
    · exact hI.tokens_step hinv hs hres hbusy hdue hw'
  · intro busy' hbusy' hdue'
    have hdue : h.served < n := lt_of_le_of_lt hserved hdue'
    have hwatch : (watchAfter (pthreadProxy cfg monotonic) j p s a s' h).busy = some busy' := hbusy'
    cases hbusy : h.busy with
    | none =>
      obtain ⟨alloc, woken, rfl⟩ := wakes_of_busy hbusy (by rw [hwatch]; exact nofun)
      obtain ⟨on, hawake, hon, hcard⟩ := hI.awake_wake hinv hone hframe hs hres hbusy hdue
      simp only [watchAfter, hbusy, Action.notifier, if_true, Option.some.injEq] at hwatch
      refine ⟨on, hawake, ?_, ?_⟩
      · rw [← hwatch]
        exact hon
      · show n - (watchAfter _ j p s _ s' h).served ≤ on.card
        omega
    | some busy =>
      obtain ⟨on, hawake, hon, hcard⟩ := hI.awake_step hinv hs hres hbusy hdue
      simp only [watchAfter, hbusy, Option.some.injEq] at hwatch
      refine ⟨on, hawake, ?_, hcard⟩
      rw [← hwatch]
      exact hon

omit [Fintype κ] [DecidableEq ι] [DecidableEq κ] [DecidableEq V] in
/-- What holds when the wake begins. -/
theorem watchInv_start (s : Sys ι κ V PthreadProxy) (j : κ) (p : ℕ) :
    WatchInv j p (s.promised j p) (s.notifies j) (s, ⟨s.blockedOn (some p), 0, none⟩) := by
  refine ⟨fun i hi => ?_, ?_, fun _ => rfl, fun hne => absurd rfl hne, nofun⟩
  · have hb : (s.waits i).blockedOn (some p) = true := (Finset.mem_filter.mp hi).2
    cases ht : s.waits i with
    | blocked f =>
      rw [ht] at hb
      exact ⟨f, by simpa [WaitThread.blockedOn] using hb, .inl ht⟩
    | _ =>
      rw [ht] at hb
      cases hb
  · show s.promised j p ≤ 0 + (s.blockedOn (some p)).card
    rw [Nat.zero_add]
    exact min_le_right _ _

end Invariant

/-- **A bounded wake keeps its promise** in the runs that leave its tokens to the calls it is for. -/
theorem bounded_wake (ι κ V : Type) [DecidableEq ι] [DecidableEq κ] [DecidableEq V] [Fintype ι]
    [Fintype κ] (cfg : Platform) (monotonic : Bool) :
    BoundedWake ι κ V cfg monotonic (WakeReserved cfg) := by
  intro s₁ j p hr hbegin x hx hbusy
  have hlimit : s₁.promised j p ≤ (s₁.notifies j).maxThreads.toNat := min_le_left _ _
  have hone : (s₁.notifies j).maxThreads = 1 → s₁.promised j p ≤ 1 := by
    intro h1
    rw [h1] at hlimit
    exact hlimit
  have hkey : SysInv x.1 ∧ WatchInv j p (s₁.promised j p) (s₁.notifies j) x := by
    refine hx.invariant
      (I := fun x => SysInv x.1 ∧ WatchInv j p (s₁.promised j p) (s₁.notifies j) x) ?_ ?_
    · rintro ⟨s, h⟩ ⟨hs, hh⟩
      obtain rfl : s = s₁ := hs
      obtain rfl : h = ⟨s.blockedOn (some p), 0, none⟩ := hh
      exact ⟨sysInv_of_reachable hr, watchInv_start s j p⟩
    · rintro ⟨s, h⟩ a ⟨s', h'⟩ - ⟨hinv, hI⟩ ⟨⟨hstep, hh⟩, -, hres⟩
      obtain rfl : h' = watchAfter (pthreadProxy cfg monotonic) j p s a s' h := hh
      have hs := sysStep_cases hstep
      exact ⟨hinv.step hs, hI.step hinv hlimit hone ⟨hbegin.pc, hbegin.item⟩ hs hres⟩
  by_contra hdue
  obtain ⟨on, -, hon, hcard⟩ := hkey.2.awake ∅ hbusy (not_le.mp hdue)
  rw [Finset.subset_empty.mp hon, Finset.card_empty] at hcard
  omega

/-! ### A token that is taken by a racing wait -/

/-- The wait `w` parks, the wait `v` is registered and about to park, and a notify of one stands at its
wake. -/
def racingRun (w v : ι) (j : κ) : List (Action ι κ (BitVec 32)) :=
  callToPark w 64 0 ++ (callToPark v 64 0).dropLast ++ [.callNotify j 64 1 0]
    ++ List.replicate 2 (.notify j .plenty ∅)

/-- The wake signals the wait `w`; the wait `v` parks, finds the token and goes on to its next park, and
the wait `w` locks the mutex in vain. -/
def usedUpRun (w v : ι) (j : κ) : List (Action ι κ (BitVec 32)) :=
  [.notify j .plenty {w}, .park v, .wait v .quiet, .wait v .quiet, .park v, .resume w]

/-- **A racing wait uses up the wake.** -/
theorem racing_wait_uses_up_wake :
    ¬ BoundedWake (Fin 2) (Fin 1) (BitVec 32) (.lp64 .pthreads) true fun _ _ _ _ _ => True := by
  intro hwake
  have hrun : (Lts.exec (sysStep (pthreadProxy (.lp64 .pthreads) true) (.lp64 .pthreads))
      (Sys.start fun _ => 0) (racingRun (0 : Fin 2) 1 (0 : Fin 1))).any (fun s₁ =>
        (s₁.notifies 0).pc = .wake && (s₁.notifies 0).item = some 0 &&
        (s₁.notifies 0).maxThreads = 1 && s₁.promised 0 0 = 1 &&
        (Lts.exec (Lts.stepHistory
          (sysStep (pthreadProxy (.lp64 .pthreads) true) (.lp64 .pthreads))
          (watchAfter (pthreadProxy (.lp64 .pthreads) true) 0 0))
          (s₁, ⟨s₁.blockedOn (some 0), 0, none⟩) (usedUpRun 0 1 0)).any (fun x =>
            x.2.busy = some ∅ && x.2.served = 0)) = true := by
    decide +kernel
  obtain ⟨s₁, h₁, hcheck₁⟩ := (Option.any_eq_true _ _).mp hrun
  simp only [Bool.and_eq_true, decide_eq_true_eq] at hcheck₁
  obtain ⟨⟨⟨⟨hpc, hitem⟩, hone⟩, hpromised⟩, hrun₂⟩ := hcheck₁
  obtain ⟨x, h₂, hcheck₂⟩ := (Option.any_eq_true _ _).mp hrun₂
  simp only [Bool.and_eq_true, decide_eq_true_eq] at hcheck₂
  obtain ⟨hbusy, hserved⟩ := hcheck₂
  have hbegin : s₁.WakeBegins 0 0 := ⟨hpc, hitem, by rw [hone]; decide⟩
  have hle := hwake s₁ 0 0 (reachable_of_exec h₁) hbegin x
    (Lts.reachable_of_execHistory _ (fun s => s = s₁) rfl
      (fun _ a ha => ⟨fun i hi => by subst hi; simp [usedUpRun] at ha, trivial⟩) h₂) hbusy
  rw [hpromised, hserved] at hle
  omega

end AtomicWaits
