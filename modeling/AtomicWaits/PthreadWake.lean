import AtomicWaits.NoLostWake

/-!
# No lost wake with the pthreads proxy

The proxy of the pthreads backend counts wake tokens, and a token says nothing about whom it was
meant for. A wait is *owed* a wake when a wake-all came while it was registered and committed, and
the object has differed from its expected value since (`owedAfter`, a history of the run). The code
keeps the promise of the wake-all as long as the tokens of a proxy cover the waits owed one: no other
wait takes a token the owed ones need, and the token arithmetic stays inside its C types
(`TokensKept`). In such runs no wake is lost (`pthread_no_lost_wake`).

Without it a wait for another value, woken by the same broadcast, takes its token, sees that its own
value is still there, parks again and takes the next token too; the wait that was owed it finds none
and goes back to sleep (`pthread_loses_wake`).
-/

namespace AtomicWaits

open Lib

variable {ι κ V : Type}

/-- Whether the action is a wake-all of the proxy `item`. -/
def Action.wakesAll {X : Type} (s : Sys ι κ V X) (item : Option ℕ) : Action ι κ V → Bool
  | .notify j _ _ =>
    (s.notifies j).pc = .wake ∧ (s.notifies j).item = item ∧ (s.notifies j).maxThreads = wakeAll
  | _ => false

/-- The waits owed a wake after a step. -/
def owedAfter {X : Type} [DecidableEq V] (s : Sys ι κ V X) (a : Action ι κ V) (s' : Sys ι κ V X)
    (owed : ι → Bool) : ι → Bool := fun i =>
  match (s'.waits i).committed with
  | some f => (owed i || a.wakesAll s f.item) && decide (s'.shared.mem f.object ≠ f.expected)
  | none => false

/-- The number of waits owed a wake on the proxy `p`. -/
def owedOn {X : Type} [Fintype ι] (x : Sys ι κ V X × (ι → Bool)) (p : ℕ) : ℕ :=
  (Finset.univ.filter fun i => x.2 i = true ∧ (x.1.waits i).item = some p).card

/-- The wait `i` locks the mutex of the proxy `p` and returns from its park if it finds a token. -/
inductive TriesToken {X : Type} (s : Sys ι κ V X) (i : ι) (p : ℕ) : Action ι κ V → Prop
  | park (f : WaitFrame V) : s.waits i = .running f → f.item = some p → TriesToken s i p (.park i)
  | resume (f : WaitFrame V) : s.waits i = .woken f 0 → f.item = some p →
      TriesToken s i p (.resume i)

/-- The tokens of a proxy go on covering the waits owed one. -/
structure TokensKept [Fintype ι] (cfg : Platform) (x : Sys ι κ V PthreadProxy × (ι → Bool))
    (a : Action ι κ V) : Prop where
  /-- A wait that is owed nothing takes a token only where there are more than owed. -/
  spare : ∀ i p w, TriesToken x.1 i p a → x.2 i = false →
    x.1.shared.store.heap.cell p = some w → 0 < w.atomic.pending →
    (owedOn x p : ℤ) < w.atomic.pending
  /-- The number of registered waits fits an `int`. -/
  registered : ∀ j alloc woken p w, a = .notify j alloc woken → (x.1.notifies j).pc = .wake →
    (x.1.notifies j).item = some p → x.1.shared.store.heap.cell p = some w → w.useCount < 2 ^ 31
  /-- The sum of the tokens and the limit of a bounded notify fits a `long`. -/
  limit : ∀ j alloc woken p w, a = .notify j alloc woken → (x.1.notifies j).pc = .wake →
    (x.1.notifies j).item = some p → x.1.shared.store.heap.cell p = some w →
    (x.1.notifies j).maxThreads ≠ wakeAll →
    w.atomic.pending + (x.1.notifies j).maxThreads.toNat < 2 ^ (cfg.longBits - 1)

/-- The system with the pthreads proxy, and the waits owed a wake beside it. -/
def pthreadSystem (ι κ V : Type) [DecidableEq ι] [DecidableEq κ] [DecidableEq V] [Fintype ι]
    (cfg : Platform) (monotonic : Bool) : Lts (Sys ι κ V PthreadProxy × (ι → Bool)) (Action ι κ V) :=
  (waitSystem ι κ V (pthreadProxy cfg monotonic) cfg).withHistory (fun _ => false) owedAfter

/-! ### The tokens of a proxy -/

section Tokens

variable {cfg : Platform} {monotonic : Bool}

/-- Where nothing overflows, a wake leaves the tokens it found and those it was asked for, up to one for
each registered wait. -/
theorem le_pthreadProxyPending {pending registered : ℤ} {maxThreads : BitVec 32} {n : ℤ}
    (h0 : 0 ≤ pending) (hreg : registered < 2 ^ 31)
    (hlimit : maxThreads ≠ wakeAll → pending + maxThreads.toNat < 2 ^ (cfg.longBits - 1))
    (hn : n ≤ registered) (hp : maxThreads ≠ wakeAll → n ≤ pending + maxThreads.toNat) :
    n ≤ pthreadProxyPending cfg pending maxThreads registered := by
  have hlong : 0 < cfg.longBits := by
    rcases cfg.longBits_eq with h | h <;> omega
  have hpow : (0 : ℤ) < 2 ^ (cfg.longBits - 1) := by positivity
  generalize hcap : (if 0 < registered then registered else 1) = cap
  have hcap1 : 1 ≤ cap ∧ registered ≤ cap ∧ cap < 2 ^ 31 := by
    split at hcap <;> omega
  unfold pthreadProxyPending
  rw [hcap]
  by_cases hall : maxThreads = wakeAll
  · rw [if_pos hall, wrapInt_of_mem (by decide) (by omega) (by omega)]
    omega
  · have hlim := hlimit hall
    have hle := hp hall
    have hk : (0 : ℤ) ≤ maxThreads.toNat := Int.natCast_nonneg _
    rw [if_neg hall, wrapInt_of_mem hlong (x := maxThreads.toNat) (by omega) (by omega),
      wrapInt_of_mem hlong (by omega) (by omega)]
    dsimp only
    split
    · rw [wrapInt_of_mem (by decide) (by omega) (by omega)]
      omega
    · rw [wrapInt_of_mem (by decide) (by omega) (by omega)]
      omega

variable (cfg monotonic) in
/-- What an action does to the tokens of the proxy `p`. -/
theorem pthread_effect (s : Sys ι κ V PthreadProxy) (p : ℕ) (w : ProxyWaiter PthreadProxy)
    (a : Action ι κ V) :
    ((a.effect (pthreadProxy cfg monotonic) s p w).pending = w.atomic.pending ∧
        a.wakesAll s (some p) = false) ∨
      (∃ i, TriesToken s i p a ∧ 0 < w.atomic.pending ∧
        (a.effect (pthreadProxy cfg monotonic) s p w).pending = w.atomic.pending - 1) ∨
      ∃ j alloc woken, a = .notify j alloc woken ∧ (s.notifies j).pc = .wake ∧
        (s.notifies j).item = some p ∧
        (a.effect (pthreadProxy cfg monotonic) s p w).pending
          = pthreadProxyPending cfg w.atomic.pending (s.notifies j).maxThreads w.useCount := by
  cases a with
  | park i =>
    cases ht : s.waits i with
    | running f =>
      by_cases hp : f.item = some p
      · by_cases hpos : 0 < w.atomic.pending
        · refine .inr (.inl ⟨i, .park f ht hp, hpos, ?_⟩)
          simp [Action.effect, ht, hp, pthreadProxy, PthreadProxy.enter, hpos]
        · refine .inl ⟨?_, rfl⟩
          simp [Action.effect, ht, hp, pthreadProxy, PthreadProxy.enter, hpos]
      · exact .inl ⟨by simp [Action.effect, ht, hp], rfl⟩
    | _ => exact .inl ⟨by simp [Action.effect, ht], rfl⟩
  | resume i =>
    cases ht : s.waits i with
    | woken f ret =>
      by_cases hp : f.item = some p
      · by_cases hpos : ret = 0 ∧ 0 < w.atomic.pending
        · obtain ⟨rfl, hpos⟩ := hpos
          refine .inr (.inl ⟨i, .resume f ht hp, hpos, ?_⟩)
          simp [Action.effect, ht, hp, pthreadProxy, PthreadProxy.resume, hpos]
        · refine .inl ⟨?_, rfl⟩
          simp only [Action.effect, ht, hp, if_true, pthreadProxy, PthreadProxy.resume]
          split
          · next hret =>
            rw [if_neg fun hlt => hpos ⟨hret, hlt⟩]
          · split <;> rfl
      · exact .inl ⟨by simp [Action.effect, ht, hp], rfl⟩
    | _ => exact .inl ⟨by simp [Action.effect, ht], rfl⟩
  | notify j alloc woken =>
    by_cases hwake : (s.notifies j).pc = .wake ∧ (s.notifies j).item = some p
    · refine .inr (.inr ⟨j, alloc, woken, rfl, hwake.1, hwake.2, ?_⟩)
      simp [Action.effect, hwake, pthreadProxy, PthreadProxy.wake]
    · refine .inl ⟨by simp only [Action.effect, if_neg hwake], ?_⟩
      simp only [Action.wakesAll, decide_eq_false_iff_not]
      exact fun h => hwake ⟨h.1, h.2.1⟩
  | _ => exact .inl ⟨rfl, rfl⟩

end Tokens

/-! ### The tokens cover the waits owed one -/

section Invariant

variable [Fintype ι] {cfg : Platform} {monotonic : Bool} {s s' : Sys ι κ V PthreadProxy}
  {a : Action ι κ V} {owed : ι → Bool}

/-- A wait owed a wake is committed and not suspended, and each proxy has a token for every wait
owed one. -/
structure OwedInv (x : Sys ι κ V PthreadProxy × (ι → Bool)) : Prop where
  awake : ∀ i, x.2 i = true →
    ∃ f, (x.1.waits i).committed = some f ∧ x.1.waits i ≠ .blocked f
  covered : ∀ p w, x.1.shared.store.heap.cell p = some w → (owedOn x p : ℤ) ≤ w.atomic.pending

/-- A wait owed a wake finds a token. -/
theorem OwedInv.token (h : OwedInv (s, owed)) {i : ι} {p : ℕ} {w : ProxyWaiter PthreadProxy}
    (ho : owed i = true) (hi : (s.waits i).item = some p)
    (hw : s.shared.store.heap.cell p = some w) : 0 < w.atomic.pending := by
  have hpos : 0 < owedOn (s, owed) p :=
    Finset.card_pos.mpr ⟨i, Finset.mem_filter.mpr ⟨Finset.mem_univ i, ho, hi⟩⟩
  have := h.covered p w hw
  omega

variable [DecidableEq ι] [DecidableEq κ] [DecidableEq V]

/-- A wait that is owed a wake after a step was committed before it, to the same proxy. -/
theorem owed_before (hs : SysStep (pthreadProxy cfg monotonic) cfg s a s') {i : ι}
    (h : owedAfter s a s' owed i = true) :
    ∃ f f', (s'.waits i).committed = some f' ∧ (s.waits i).committed = some f ∧ SameWait f f' ∧
      (owed i = true ∨ a.wakesAll s f.item = true) := by
  unfold owedAfter at h
  split at h
  · next f' hf' =>
    simp only [Bool.and_eq_true, Bool.or_eq_true, decide_eq_true_eq] at h
    rcases (hs.thread i).committed hf' with ⟨f, hf, hsame⟩ | hval
    · exact ⟨f, f', hf', hf, hsame, hsame.item ▸ h.1⟩
    · exact absurd hval h.2
  · cases h

omit [DecidableEq V] in
/-- A wait that found a token has left its park call. -/
theorem TriesToken.not_committed {i : ι} {p : ℕ} {w : ProxyWaiter PthreadProxy}
    (h : TriesToken s i p a) (hs : SysStep (pthreadProxy cfg monotonic) cfg s a s')
    (hw : s.shared.store.heap.cell p = some w) (hpos : 0 < w.atomic.pending) :
    (s'.waits i).committed = none := by
  cases h with
  | park f hi hp =>
    cases hs with
    | parkSleeps _ g hg hpc hr =>
      obtain rfl : f = g := by
        rw [hi] at hg
        exact WaitThread.running.inj hg
      have hr' : (s.shared.store.heap.read f.item).bind (fun w => w.atomic.enter.2) = none := hr
      rw [hp, ProxyHeap.read, Option.bind_some, hw, Option.bind_some, PthreadProxy.enter,
        if_pos hpos] at hr'
      cases hr'
    | parkReturns _ g g' ret2 hg hr hstep =>
      simp [Sys.setWait, WaitThread.committed, hstep.park_not_committed]
  | resume f hi hp =>
    cases hs with
    | resumeSleeps _ g ret hg hr =>
      rw [hi] at hg
      cases hg
      have hr' : (s.shared.store.heap.read f.item).bind (fun w => (w.atomic.resume cfg 0).2)
          = none := hr
      rw [hp, ProxyHeap.read, Option.bind_some, hw, Option.bind_some, PthreadProxy.resume,
        if_pos rfl, if_pos hpos] at hr'
      cases hr'
    | resumeReturns _ g g' ret ret2 hg hr hstep =>
      simp [Sys.setWait, WaitThread.committed, hstep.park_not_committed]

omit [DecidableEq V] in
/-- A wake-all reaches the waits it makes owed. -/
theorem wakesAll_not_blocked {i : ι} {f : WaitFrame V}
    (hs : SysStep (pthreadProxy cfg monotonic) cfg s a s') (h : a.wakesAll s f.item = true) :
    s'.waits i ≠ .blocked f := by
  intro hb
  cases a with
  | notify j alloc woken =>
    simp only [Action.wakesAll, decide_eq_true_eq] at h
    obtain ⟨hpc, hitem, hall⟩ := h
    cases hs with
    | notifyWakeAtOnce _ _ _ _ _ hcan =>
      rw [hall] at hcan
      obtain rfl := hcan.all
      obtain ⟨-, hne⟩ := Sys.signal_all (s := { s with shared := _ }) (p := (s.notifies j).item)
        (i := i) hb
      exact hne hitem.symm
    | notifyWake _ _ _ _ hk => cases hk
    | notifyLock _ _ _ hpc' _ | notifyFind _ _ _ _ hpc' _ | notifySignal _ _ _ hpc' _
    | notifyUnlock _ _ _ hpc' =>
      rw [hpc] at hpc'
      cases hpc'
  | _ => cases h

variable [Fintype κ]

omit [DecidableEq ι] [DecidableEq κ] [DecidableEq V] in
/-- Every wait owed a wake on a proxy is registered there. -/
theorem owedOn_le_useCount (hinv : SysInv s) {P : ι → Prop} [DecidablePred P]
    (hcom : ∀ i, P i → ∃ f, (s.waits i).committed = some f) {p : ℕ} {w : ProxyWaiter PthreadProxy}
    (hw : s.shared.store.heap.cell p = some w) :
    ((Finset.univ.filter fun i => P i ∧ (s.waits i).item = some p).card : ℤ) ≤ w.useCount := by
  obtain ⟨o, ho⟩ := hinv.registry.wf.owned p (by
    rw [show s.registry.store.heap.cell p = some w from hw]
    rfl)
  have hsub : (Finset.univ.filter fun i => P i ∧ (s.waits i).item = some p).map
      Function.Embedding.inl
        ⊆ Finset.univ.filter fun b => (s.registry.role b).registered = some (o, p) := by
    intro b hb
    obtain ⟨i, hi, rfl⟩ := Finset.mem_map.mp hb
    obtain ⟨hP, hitem⟩ := (Finset.mem_filter.mp hi).2
    obtain ⟨f, hf⟩ := hcom i hP
    obtain ⟨q, hq, he, hreg⟩ := hinv.committed_registered hf
    rw [WaitThread.item_of_committed hf, hq] at hitem
    obtain rfl : q = p := Option.some.inj hitem
    obtain rfl : f.object = o := hinv.registry.wf.inj _ _ q he ho
    exact Finset.mem_filter.mpr ⟨Finset.mem_univ _, hreg⟩
  have hle := Finset.card_le_card hsub
  rw [Finset.card_map] at hle
  rw [hinv.registry.count o p w ho hw]
  exact_mod_cast hle

theorem OwedInv.awake_step (hinv : SysInv s) (h : OwedInv (s, owed))
    (hs : SysStep (pthreadProxy cfg monotonic) cfg s a s') {i : ι}
    (ho : owedAfter s a s' owed i = true) :
    ∃ f, (s'.waits i).committed = some f ∧ s'.waits i ≠ .blocked f := by
  obtain ⟨f, f', hf', hf, hsame, hwhy⟩ := owed_before hs ho
  refine ⟨f', hf', fun hb => ?_⟩
  rcases hwhy with howed | hwake
  · obtain ⟨q, hq, he, -⟩ := hinv.committed_registered hf
    obtain ⟨w, hw⟩ := hinv.entry_cell he
    have hitem : (s.waits i).item = some q := by rw [WaitThread.item_of_committed hf, hq]
    have hpos := h.token howed hitem hw
    have hnone : ∀ {a' : Action ι κ V}, a' = a → ¬ TriesToken s i q a' := by
      intro a' ha htry
      subst ha
      rw [htry.not_committed hs hw hpos] at hf'
      cases hf'
    have hth := hs.thread i
    rw [hb] at hth
    generalize ht : s.waits i = t at hth
    cases hth with
    | other _ _ =>
      obtain ⟨g, hg, hne⟩ := h.awake i howed
      have hg' : (s.waits i).committed = some g := hg
      rw [ht] at hg'
      rw [← Option.some.inj hg'] at hne
      exact hne ht
    | sleeps _ ha hpc hr =>
      rw [ht] at hf
      have hfeq : f' = f := by
        simp only [WaitThread.committed, Option.ite_none_right_eq_some, Option.some.injEq] at hf
        exact hf.2
      exact hnone ha.symm (.park f' ht (hfeq ▸ hq))
    | sleepsAgain _ ret ha hr =>
      rw [ht] at hf
      have hfeq : f' = f := Option.some.inj hf
      have hret : ret = 0 := by
        by_contra hne
        have hr' : (s.shared.store.heap.read f'.item).bind
            (fun w => (w.atomic.resume cfg ret).2) = none := hr
        rw [hfeq, hq, ProxyHeap.read, Option.bind_some,
          show s.shared.store.heap.cell q = some w from hw, Option.bind_some, PthreadProxy.resume,
          if_neg hne] at hr'
        split at hr' <;> cases hr'
      subst hret
      exact hnone ha.symm (.resume f' ht (hfeq ▸ hq))
  · exact wakesAll_not_blocked hs (hsame.item ▸ hwake) hb

omit [Fintype κ] in
/-- A wait owed a wake on `p` after a step had that item before it. -/
theorem owedOn_before (hs : SysStep (pthreadProxy cfg monotonic) cfg s a s') {i : ι} {p : ℕ}
    (h : owedAfter s a s' owed i = true) (hp : (s'.waits i).item = some p) :
    (owed i = true ∨ a.wakesAll s (some p) = true) ∧ (s.waits i).item = some p ∧
      ∃ f, (s.waits i).committed = some f := by
  obtain ⟨f, f', hf', hf, hsame, hwhy⟩ := owed_before hs h
  rw [WaitThread.item_of_committed hf', hsame.item] at hp
  exact ⟨hp ▸ hwhy, by rw [WaitThread.item_of_committed hf, hp], f, hf⟩

variable (owed) in
omit [Fintype κ] in
theorem owedOn_mono (hs : SysStep (pthreadProxy cfg monotonic) cfg s a s') {p : ℕ}
    (hno : a.wakesAll s (some p) = false) :
    (Finset.univ.filter fun i => owedAfter s a s' owed i = true ∧ (s'.waits i).item = some p)
      ⊆ Finset.univ.filter fun i => owed i = true ∧ (s.waits i).item = some p := by
  intro i hi
  obtain ⟨ho, hp⟩ := (Finset.mem_filter.mp hi).2
  obtain ⟨hwhy, hitem, -⟩ := owedOn_before hs ho hp
  rcases hwhy with howed | hwake
  · exact Finset.mem_filter.mpr ⟨Finset.mem_univ i, howed, hitem⟩
  · rw [hno] at hwake
    cases hwake

variable (owed) in
/-- Nobody is owed a wake on a proxy that is created in the step. -/
theorem owedOn_eq_zero (hinv : SysInv s) (hs : SysStep (pthreadProxy cfg monotonic) cfg s a s')
    {p : ℕ} (hnone : s.shared.store.heap.cell p = none) :
    owedOn (s', owedAfter s a s' owed) p = 0 := by
  apply Finset.card_eq_zero.mpr
  apply Finset.filter_eq_empty_iff.mpr
  rintro i - ⟨ho, hp⟩
  obtain ⟨-, hitem, f, hf⟩ := owedOn_before hs ho hp
  obtain ⟨q, hq, he, -⟩ := hinv.committed_registered hf
  rw [WaitThread.item_of_committed hf, hq] at hitem
  obtain rfl : q = p := Option.some.inj hitem
  obtain ⟨w, hw⟩ := hinv.entry_cell he
  rw [hnone] at hw
  cases hw

variable (owed) in
omit [Fintype κ] in
/-- A step other than a wake of all leaves no more waits owed a wake on a proxy. -/
theorem owedOn_le (hs : SysStep (pthreadProxy cfg monotonic) cfg s a s') {p : ℕ}
    (hno : a.wakesAll s (some p) = false) :
    (owedOn (s', owedAfter s a s' owed) p : ℤ) ≤ owedOn (s, owed) p := by
  have hle := Finset.card_le_card (owedOn_mono owed hs hno)
  exact_mod_cast hle

omit [Fintype κ] in
/-- A wait that takes the token it is owed is owed nothing more. -/
theorem owedOn_lt (hs : SysStep (pthreadProxy cfg monotonic) cfg s a s') {i : ι} {p : ℕ}
    (htry : TriesToken s i p a) {w : ProxyWaiter PthreadProxy}
    (hw : s.shared.store.heap.cell p = some w) (hpos : 0 < w.atomic.pending)
    (howed : owed i = true) :
    owedOn (s', owedAfter s a s' owed) p < owedOn (s, owed) p := by
  have hno : a.wakesAll s (some p) = false := by cases htry <;> rfl
  have hgone : owedAfter s a s' owed i = false := by
    unfold owedAfter
    rw [htry.not_committed hs hw hpos]
  have hmem : i ∈ Finset.univ.filter fun i => owed i = true ∧ (s.waits i).item = some p := by
    refine Finset.mem_filter.mpr ⟨Finset.mem_univ i, howed, ?_⟩
    cases htry with
    | park f hi hp | resume f hi hp =>
      rw [hi]
      exact hp
  apply Finset.card_lt_card
  refine ⟨owedOn_mono owed hs hno, fun hback => ?_⟩
  have hin : owedAfter s a s' owed i = true := (Finset.mem_filter.mp (hback hmem)).2.1
  rw [hgone] at hin
  cases hin

variable (owed) in
/-- Those owed a wake on a proxy after a step were registered there before it. -/
theorem owedOn_registered (hinv : SysInv s)
    (hs : SysStep (pthreadProxy cfg monotonic) cfg s a s') {p : ℕ} {w : ProxyWaiter PthreadProxy}
    (hw : s.shared.store.heap.cell p = some w) :
    (owedOn (s', owedAfter s a s' owed) p : ℤ) ≤ w.useCount := by
  have huse := owedOn_le_useCount (P := fun i => owedAfter s a s' owed i = true ∧
    (s'.waits i).item = some p) hinv (fun i hi => (owedOn_before hs hi.1 hi.2).2.2) hw
  refine le_trans ?_ huse
  have hsub : (Finset.univ.filter fun i =>
      owedAfter s a s' owed i = true ∧ (s'.waits i).item = some p)
      ⊆ Finset.univ.filter fun i => (owedAfter s a s' owed i = true ∧
        (s'.waits i).item = some p) ∧ (s.waits i).item = some p := by
    intro i hi
    obtain ⟨ho, hp⟩ := (Finset.mem_filter.mp hi).2
    exact Finset.mem_filter.mpr ⟨Finset.mem_univ i, ⟨ho, hp⟩, (owedOn_before hs ho hp).2.1⟩
  exact_mod_cast Finset.card_le_card hsub

/-- **The tokens go on covering the waits owed one.** -/
theorem OwedInv.covered_step (hinv : SysInv s) (h : OwedInv (s, owed))
    (hkept : TokensKept cfg (s, owed) a) (hs : SysStep (pthreadProxy cfg monotonic) cfg s a s')
    {p : ℕ} {w' : ProxyWaiter PthreadProxy} (hw' : s'.shared.store.heap.cell p = some w') :
    (owedOn (s', owedAfter s a s' owed) p : ℤ) ≤ w'.atomic.pending := by
  rcases hs.cell hinv hw' with ⟨hnone, hinit⟩ | ⟨w, hw, heff⟩
  · rw [owedOn_eq_zero owed hinv hs hnone, hinit]
    exact le_rfl
  have hcov : (owedOn (s, owed) p : ℤ) ≤ w.atomic.pending := h.covered p w hw
  have heff' : w'.atomic = a.effect (pthreadProxy cfg monotonic) s p w := heff
  rw [heff']
  rcases pthread_effect cfg monotonic s p w a with
    ⟨hsame, hno⟩ | ⟨i, htry, hpos, htake⟩ | ⟨j, alloc, woken, ha, hpc, hitem, hwake⟩
  · rw [hsame]
    exact (owedOn_le owed hs hno).trans hcov
  · rw [htake]
    by_cases howed : owed i = true
    · have hlt := owedOn_lt hs htry hw hpos howed
      omega
    · have hspare : (owedOn (s, owed) p : ℤ) < w.atomic.pending :=
        hkept.spare i p w htry (by simpa using howed) hw hpos
      have hle := owedOn_le owed hs (p := p) (by cases htry <;> rfl)
      omega
  · rw [hwake]
    apply le_pthreadProxyPending
    · omega
    · exact hkept.registered j alloc woken p w ha hpc hitem hw
    · exact hkept.limit j alloc woken p w ha hpc hitem hw
    · exact owedOn_registered owed hinv hs hw
    · intro hall
      have hno : a.wakesAll s (some p) = false := by
        subst ha
        simp [Action.wakesAll, hall]
      have hle := owedOn_le owed hs hno
      have hk : (0 : ℤ) ≤ (s.notifies j).maxThreads.toNat := Int.natCast_nonneg _
      omega

/-- The facts of every state that the runs with kept tokens reach. -/
theorem pthread_reachable {x : Sys ι κ V PthreadProxy × (ι → Bool)}
    (h : ((pthreadSystem ι κ V cfg monotonic).restrict (TokensKept cfg)).Reachable x) :
    SysInv x.1 ∧ OwedInv x := by
  have hsys : ∀ y, ((pthreadSystem ι κ V cfg monotonic).restrict (TokensKept cfg)).Reachable y →
      SysInv y.1 := fun y hy => sysInv_of_reachable hy.of_restrict.of_withHistory
  refine ⟨hsys x h, ?_⟩
  refine h.invariant (I := OwedInv) ?_ ?_
  · rintro ⟨s, owed⟩ ⟨hinit, howed⟩
    have hnone : owed = fun _ => false := howed
    subst hnone
    refine ⟨fun i hi => (by cases hi), fun p w hw => ?_⟩
    rw [hinit.store] at hw
    cases hw
  · rintro ⟨s, owed⟩ a ⟨s', owed'⟩ hr hI ⟨⟨hstep, howed⟩, hkept⟩
    obtain rfl : owed' = owedAfter s a s' owed := howed
    have hinv := hsys _ hr
    have hs := sysStep_cases hstep
    exact ⟨fun i hi => OwedInv.awake_step hinv hI hs hi,
      fun p w hw => OwedInv.covered_step hinv hI hkept hs hw⟩

end Invariant

/-! ### No lost wake while the tokens are kept -/

/-- Every wait for the object to differ from `expected` that will park is owed a wake. -/
def PthreadServed (object : ℕ) (expected : V) (x : Sys ι κ V PthreadProxy × (ι → Bool)) : Prop :=
  ∀ i f, (x.1.waits i).committed = some f → f.object = object → f.expected = expected →
    x.2 i = true

/-- A wait that stays committed while its object stays changed stays owed a wake, or becomes it. -/
theorem owedAfter_of_committed [DecidableEq ι] [DecidableEq κ] [DecidableEq V] [Fintype ι]
    {cfg : Platform} {monotonic : Bool} {s s' : Sys ι κ V PthreadProxy} {a : Action ι κ V}
    {owed : ι → Bool} (hs : SysStep (pthreadProxy cfg monotonic) cfg s a s') {i : ι}
    {f' : WaitFrame V} {object : ℕ} {expected : V} (hc : (s'.waits i).committed = some f')
    (ho : f'.object = object) (he : f'.expected = expected)
    (hmem : s'.shared.mem object ≠ expected)
    (h : ∀ f, (s.waits i).committed = some f → SameWait f f' →
      owed i = true ∨ a.wakesAll s f'.item = true) : owedAfter s a s' owed i = true := by
  unfold owedAfter
  rw [hc]
  dsimp only
  rcases (hs.thread i).committed hc with ⟨f, hf, hsame⟩ | hval
  · rw [ho, he, decide_eq_true hmem, Bool.and_true, Bool.or_eq_true]
    exact h f hf hsame
  · rw [ho, he] at hval
    exact absurd hval hmem

/-- **No lost wake on the pthreads backend**, in the runs in which the tokens are kept. -/
theorem pthread_no_lost_wake (ι κ V : Type) [DecidableEq ι] [DecidableEq κ] [DecidableEq V]
    [Fintype ι] [Fintype κ] (cfg : Platform) (monotonic : Bool) :
    NoLostWake ((pthreadSystem ι κ V cfg monotonic).restrict (TokensKept cfg)) Prod.fst := by
  intro object expected i j
  apply Lts.settles_of_phases (fun x => x.1.Asking j object) (PthreadServed object expected)
  · intro x hcall
    exact hcall.asking
  · rintro ⟨s, owed⟩ a ⟨s', owed'⟩ hr _ hmem ⟨⟨hstep, howed⟩, hkept⟩ hask
    obtain rfl : owed' = owedAfter s a s' owed := howed
    obtain ⟨hinv, -⟩ := pthread_reachable hr
    have hs := sysStep_cases hstep
    rcases hs.asking hinv hask with hask' | hnone | ⟨alloc, woken, rfl, hpc⟩
    · exact .inl hask'
    · refine .inr fun k f hc ho _ => ?_
      obtain ⟨p, -, he, -⟩ := (hinv.step hs).committed_registered hc
      rw [ho] at he
      exact absurd he (by rw [hnone]; simp)
    · -- the wake-all itself
      refine .inr fun k f' hc ho he => ?_
      apply owedAfter_of_committed hs hc ho he hmem
      intro f hf hsame
      refine .inr ?_
      simp only [Action.wakesAll, decide_eq_true_eq]
      refine ⟨hpc, ?_, hask.all⟩
      rw [(hinv.waking_item (.inl hpc)).1, hsame.item, hinv.committed_item hf, ← hsame.object, ho,
        hask.object]
  · rintro ⟨s, owed⟩ a ⟨s', owed'⟩ hr _ hmem ⟨⟨hstep, howed⟩, hkept⟩ hserved
    obtain rfl : owed' = owedAfter s a s' owed := howed
    intro k f' hc ho he
    apply owedAfter_of_committed (sysStep_cases hstep) hc ho he hmem
    intro f hf hsame
    exact .inl (hserved k f hf (hsame.object ▸ ho) (hsame.expected ▸ he))
  · intro x hask
    exact hask.not_returned
  · rintro ⟨s, owed⟩ hr hserved ⟨f, hb, ho, he⟩
    have hb' : s.waits i = .blocked f := hb
    have howed := hserved i f (by rw [hb']; rfl) ho he
    obtain ⟨g, hg, hne⟩ := (pthread_reachable hr).2.awake i howed
    have hg' : (s.waits i).committed = some g := hg
    rw [hb'] at hg'
    rw [← Option.some.inj hg'] at hne
    exact hne hb'

/-! ### Tokens that are not kept -/

/-- The wait `w` for a value other than 0 parks, 1 is stored, the wait `v` for a value other than 1
parks, and a notify of all begins. -/
def twoValuesRun (w v : ι) (j : κ) : List (Action ι κ (BitVec 32)) :=
  callToPark w 64 0 ++ [.store 64 1] ++ callToPark v 64 1 ++ [.callNotify j 64 wakeAll 0]

/-- The notify, which broadcasts to both waits. -/
def broadcastRun [DecidableEq ι] (w v : ι) (j : κ) : List (Action ι κ (BitVec 32)) :=
  [.notify j .plenty ∅, .notify j .plenty ∅, .notify j .plenty {w, v}, .notify j .plenty ∅]

/-- The wait `v` takes its token, looks at the object, parks again and takes the other token; then the
wait `w` locks the mutex. -/
def stolenTokenRun (w v : ι) : List (Action ι κ (BitVec 32)) :=
  [.resume v, .wait v .quiet, .wait v .quiet, .park v, .resume w]

/-- **A stolen token loses a wake.** -/
theorem pthread_loses_wake :
    ¬ NoLostWake (waitSystem (Fin 2) (Fin 1) (BitVec 32) (pthreadProxy (.lp64 .pthreads) true)
      (.lp64 .pthreads)) id := by
  intro hno
  have hrun : (Lts.exec (sysStep (pthreadProxy (.lp64 .pthreads) true) (.lp64 .pthreads))
      (Sys.start fun _ => 0) (twoValuesRun (0 : Fin 2) 1 (0 : Fin 1))).any (fun s₁ =>
        (s₁.notifies 0).pc = .lock && (s₁.notifies 0).object = 64 &&
        (s₁.notifies 0).maxThreads = wakeAll &&
        (Lts.execWhile (sysStep (pthreadProxy (.lp64 .pthreads) true) (.lp64 .pthreads))
          (fun s => s.shared.mem 64 != 0) s₁ (broadcastRun 0 1 0)).any (fun s₂ =>
            (s₂.notifies 0).pc = .returned &&
            (Lts.execWhile (sysStep (pthreadProxy (.lp64 .pthreads) true) (.lp64 .pthreads))
              (fun s => s.shared.mem 64 != 0) s₂ (stolenTokenRun 0 1)).any (fun s₃ =>
                s₃.Suspended 0 64 0))) = true := by
    decide +kernel
  obtain ⟨s₁, h₁, hcheck₁⟩ := (Option.any_eq_true _ _).mp hrun
  simp only [Bool.and_eq_true, decide_eq_true_eq] at hcheck₁
  obtain ⟨⟨⟨hpc, hobject⟩, hall⟩, hrun₂⟩ := hcheck₁
  obtain ⟨s₂, h₂, hcheck₂⟩ := (Option.any_eq_true _ _).mp hrun₂
  simp only [Bool.and_eq_true, decide_eq_true_eq] at hcheck₂
  obtain ⟨hret, hrun₃⟩ := hcheck₂
  obtain ⟨s₃, h₃, hcheck₃⟩ := (Option.any_eq_true _ _).mp hrun₃
  have hsusp : s₃.Suspended 0 64 0 := of_decide_eq_true hcheck₃
  have hφ : ∀ s : Sys (Fin 2) (Fin 1) (BitVec 32) PthreadProxy,
      (s.shared.mem 64 != 0) = true → s.shared.mem 64 ≠ 0 := by
    intro s h
    simpa using h
  exact hno 64 0 0 0 s₁ s₂ s₃ (reachable_of_exec h₁) ⟨hpc, hobject, hall⟩
    ((Lts.stepsWhile_of_execWhile _ Sys.Initial h₂).imp hφ) hret
    ((Lts.stepsWhile_of_execWhile _ Sys.Initial h₃).imp hφ) hsusp

end AtomicWaits
