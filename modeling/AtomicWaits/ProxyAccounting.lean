import AtomicWaits.ProxySystem

/-!
# The tokens and the waiters of a pthreads proxy

`ProxyAccounting` is what the counters of a proxy mean in every reachable state, where `long` has 64 bits.
Beside the state runs a ledger (`WakeLedger`): what the last wake left, and how many waits returned zero
since.

A token that a thread has taken is still in its hand until it unlocks the mutex (`ProxyState.inHand`).
What the last wake left is always the tokens pending, those in hand and those of the waits that returned.
-/

namespace AtomicWaits

open Lib

variable {ι κ : Type}

/-- What happened since the last `pthread_proxy_wake`, or since the initial state. -/
structure WakeLedger where
  /-- `pending` as the wake left it. -/
  left : ℤ
  /-- `registered` of the wake. -/
  registered : Option ℤ
  /-- The calls of `pthread_proxy_wait` that returned zero. -/
  zeros : ℕ
  deriving Repr

/-- The most tokens the last wake may leave. -/
def WakeLedger.cap (l : WakeLedger) : ℤ :=
  match l.registered with
  | some registered => max 1 registered
  | none => 0

/-- The ledger after a step. A wake counts where it changes the proxy: one whose lock fails changes
nothing. -/
def ledgerAfter (s : ProxyState ι κ) (a : ProxyAction ι κ) (s' : ProxyState ι κ) (l : WakeLedger) :
    WakeLedger :=
  match a with
  | .wait i => if s.waits i = .unlock 0 then { l with zeros := l.zeros + 1 } else l
  | .wake j _ =>
    match s.wakes j with
    | .locked _ registered => ⟨s'.proxy.pending, some registered.toInt, 0⟩
    | _ => l
  | _ => l

/-- The threads of one proxy, and the ledger beside them. -/
def ledgerSystem (ι κ : Type) [DecidableEq ι] [DecidableEq κ] (cfg : Platform) :
    Lts (ProxyState ι κ × WakeLedger) (ProxyAction ι κ) :=
  (proxySystem ι κ cfg).withHistory ⟨0, none, 0⟩ ledgerAfter

/-- **What the counters of a proxy mean.** -/
structure ProxyAccounting [Fintype ι] (x : ProxyState ι κ × WakeLedger) : Prop where
  waiting : x.1.owner = none →
    x.1.proxy.waiting = (Finset.univ.filter fun i => (x.1.waits i).inLoop = true).card
  pending_nonneg : 0 ≤ x.1.proxy.pending
  pending_le : x.1.proxy.pending ≤ x.2.cap
  zeros : x.1.owner = none → (x.2.zeros : ℤ) = x.2.left - x.1.proxy.pending
  /-- Between one wake and the next. -/
  zeros_le : (x.2.zeros : ℤ) ≤ x.2.cap

/-! ### The critical sections -/

/-- What a look at the tokens of a proxy does, before the first sleep. -/
theorem PthreadProxy.enter_cases (p : PthreadProxy) :
    (0 < p.pending ∧ p.enter = (⟨p.pending - 1, p.waiting⟩, some 0)) ∨
      p.enter = (⟨p.pending, p.waiting + 1⟩, none) := by
  by_cases hpos : 0 < p.pending
  · exact .inl ⟨hpos, if_pos hpos⟩
  · exact .inr (if_neg hpos)

/-- What the loop does once the condition wait has returned. -/
theorem PthreadProxy.resume_cases (cfg : Platform) (p : PthreadProxy) (r : ℤ) :
    (0 < p.pending ∧ p.resume cfg r = (⟨p.pending - 1, p.waiting - 1⟩, some 0)) ∨
      p.resume cfg r = (p, none) ∨
      ∃ ret, ret ≠ 0 ∧ p.resume cfg r = (⟨p.pending, p.waiting - 1⟩, some ret) := by
  unfold resume
  by_cases hr : r = 0
  · rw [if_pos hr]
    by_cases hpos : 0 < p.pending
    · exact .inl ⟨hpos, if_pos hpos⟩
    · exact .inr (.inl (if_neg hpos))
  · rw [if_neg hr]
    refine .inr (.inr ?_)
    by_cases htimeout : r = cfg.errno.ETIMEDOUT
    · have hpos := cfg.errno.ETIMEDOUT_pos
      exact ⟨_, by omega, if_pos htimeout⟩
    · exact ⟨_, by omega, if_neg htimeout⟩

/-- The cap hides the difference between a `registered` below one and one. -/
theorem pthreadProxyPending_max (cfg : Platform) (pending registered : ℤ) (maxThreads : BitVec 32) :
    pthreadProxyPending cfg pending maxThreads registered
      = pthreadProxyPending cfg pending maxThreads (max 1 registered) := by
  unfold pthreadProxyPending
  rw [cap_eq, cap_eq, max_eq_right (le_max_left 1 registered)]

/-- **What a wake leaves**, where `long` has 64 bits. -/
theorem pthreadProxyPending_bounds {cfg : Platform} (hlong : cfg.longBits = 64) {pending : ℤ}
    (hp : IntCount pending) (maxThreads registered : BitVec 32) :
    0 ≤ pthreadProxyPending cfg pending maxThreads registered.toInt ∧
      pthreadProxyPending cfg pending maxThreads registered.toInt ≤ max 1 registered.toInt := by
  have hreg := BitVec.toInt_lt (x := registered)
  have hcap : IntCount (max 1 registered.toInt) := ⟨by omega, by omega⟩
  rw [pthreadProxyPending_max, (pthreadProxyPending_eq_iff hp hcap).mpr (.inr (.inl hlong)),
    exactPending]
  have hp₁ := hp.1
  split <;> omega

/-! ### The tokens in hand -/

section InHand

/-- The tokens taken by a thread that still holds the mutex. -/
def ProxyState.inHand (s : ProxyState ι κ) : ℕ :=
  match s.owner with
  | some (.inl i) => if s.waits i = .unlock 0 then 1 else 0
  | _ => 0

variable {s : ProxyState ι κ}

theorem ProxyState.inHand_free (h : s.owner = none) : s.inHand = 0 := by
  unfold inHand
  rw [h]

theorem ProxyState.inHand_wake {j : κ} (h : s.owner = some (.inr j)) : s.inHand = 0 := by
  unfold inHand
  rw [h]

theorem ProxyState.inHand_setWake [DecidableEq κ] (j : κ) (t : ProxyWake) :
    (s.setWake j t).inHand = s.inHand := rfl

variable [DecidableEq ι]

/-- The tokens in the hand of the thread that moves. -/
theorem ProxyState.inHand_setWait {i : ι} (h : s.owner = some (.inl i)) (t : ProxyWait) :
    (s.setWait i t).inHand = if t = .unlock 0 then 1 else 0 := by
  have howner : (s.setWait i t).owner = some (.inl i) := h
  have hself : (s.setWait i t).waits i = t := Function.update_self ..
  unfold inHand
  rw [howner]
  dsimp only
  rw [hself]

/-- A thread without the mutex has no token in its hand. -/
theorem ProxyState.inHand_outside (hown : Mutex.Owns s.owner s.holds) {i : ι} {t : ProxyWait}
    (hi : (s.waits i).holds = false) : (s.setWait i t).inHand = s.inHand := by
  have howner : (s.setWait i t).owner = s.owner := rfl
  unfold inHand
  rw [howner]
  split
  · next k hk =>
    have hne : k ≠ i := by
      rintro rfl
      have hholds : (s.waits k).holds = true := (hown (.inl k)).mpr hk
      rw [hi] at hholds
      cases hholds
    show (if Function.update s.waits i t k = _ then 1 else 0) = _
    rw [Function.update_of_ne hne]
  · rfl

end InHand

/-! ### What every step keeps -/

section Invariant

variable {cfg : Platform} {s s' : ProxyState ι κ} {l : WakeLedger} {a : ProxyAction ι κ}

/-- The ledger balances. -/
structure Balanced (s : ProxyState ι κ) (l : WakeLedger) : Prop where
  pending_nonneg : 0 ≤ s.proxy.pending
  left : s.proxy.pending + s.inHand + l.zeros = l.left
  left_le : l.left ≤ l.cap
  left_lt : l.left < 2 ^ 31

/-- A step that neither takes a token nor gives one away. -/
theorem Balanced.same (h : Balanced s l) (hp : s'.proxy.pending = s.proxy.pending)
    (hhand : s'.inHand = s.inHand) : Balanced s' l := by
  obtain ⟨hpos, hleft, hle, hlt⟩ := h
  exact ⟨by rw [hp]; exact hpos, by rw [hp, hhand]; exact hleft, hle, hlt⟩

variable [DecidableEq ι]

/-- A critical section that takes a token, or takes none. -/
theorem Balanced.look (h : Balanced s l) {i : ι} {t : ProxyWait} (hown : s.owner = some (.inl i))
    (hi : s.waits i ≠ .unlock 0) {p : PthreadProxy}
    (hcase : (0 < s.proxy.pending ∧ p.pending = s.proxy.pending - 1 ∧ t = .unlock 0) ∨
      (p.pending = s.proxy.pending ∧ t ≠ .unlock 0)) :
    Balanced ({ s with proxy := p }.setWait i t) l := by
  obtain ⟨hpos, hleft, hle, hlt⟩ := h
  have hbefore : s.inHand = 0 := by
    unfold ProxyState.inHand
    rw [hown]
    exact if_neg hi
  have hafter : ({ s with proxy := p }.setWait i t).inHand = if t = .unlock 0 then 1 else 0 :=
    ProxyState.inHand_setWait (s := { s with proxy := p }) hown t
  rw [hbefore] at hleft
  -- what is missing from the tokens is in the hand of the thread
  have hkept : 0 ≤ p.pending ∧
      p.pending + ((if t = .unlock 0 then 1 else 0 : ℕ) : ℤ) = s.proxy.pending := by
    rcases hcase with ⟨hp, hdec, ht⟩ | ⟨hsame, ht⟩
    · rw [if_pos ht]
      omega
    · rw [if_neg ht]
      omega
  obtain ⟨hp, hsum⟩ := hkept
  refine ⟨hp, ?_, hle, hlt⟩
  rw [hafter]
  show p.pending + _ + (l.zeros : ℤ) = l.left
  rw [hsum]
  simpa using hleft

/-- A call returns: the token in its hand becomes a zero. -/
theorem Balanced.returns (h : Balanced s l) {i : ι} {ret : ℤ} (hown : s.owner = some (.inl i))
    (hi : s.waits i = .unlock ret) :
    Balanced (({ s with owner := none } : ProxyState ι κ).setWait i (.returned ret))
      (if ret = 0 then { l with zeros := l.zeros + 1 } else l) := by
  obtain ⟨hpos, hleft, hle, hlt⟩ := h
  have hbefore : s.inHand = if ret = 0 then 1 else 0 := by
    unfold ProxyState.inHand
    rw [hown]
    simp [hi]
  have hafter := ProxyState.inHand_free
    (s := ({ s with owner := none } : ProxyState ι κ).setWait i (.returned ret)) rfl
  rw [hbefore] at hleft
  split
  · next hret =>
    rw [if_pos hret] at hleft
    refine ⟨hpos, ?_, hle, hlt⟩
    rw [hafter]
    show s.proxy.pending + ((0 : ℕ) : ℤ) + ((l.zeros + 1 : ℕ) : ℤ) = l.left
    push_cast at hleft ⊢
    omega
  · next hret =>
    rw [if_neg hret] at hleft
    exact ⟨hpos, by rw [hafter]; exact hleft, hle, hlt⟩

variable [DecidableEq κ]

omit [DecidableEq ι] [DecidableEq κ] in
/-- Only the moves of the threads inside a call change the ledger. -/
theorem ledgerAfter_other (ha : ∀ i, a ≠ .wait i) (hb : ∀ j c, a ≠ .wake j c) :
    ledgerAfter s a s' l = l := by
  cases a with
  | wait k => exact absurd rfl (ha k)
  | wake k c => exact absurd rfl (hb k c)
  | _ => rfl

omit [DecidableEq ι] in
/-- The ledger begins anew with what a wake leaves. -/
theorem Balanced.wakes (hlong : cfg.longBits = 64) (h : Balanced s l) {j : κ}
    (hown : s.owner = some (.inr j)) (maxThreads registered : BitVec 32) (t : ProxyWake) :
    Balanced ({ s with proxy := s.proxy.wake cfg maxThreads registered.toInt }.setWake j t)
      ⟨(s.proxy.wake cfg maxThreads registered.toInt).pending, some registered.toInt, 0⟩ := by
  have hhand := ProxyState.inHand_wake hown
  have hp : IntCount s.proxy.pending := by
    have hleft := h.left
    have hlt := h.left_lt
    exact ⟨h.pending_nonneg, by omega⟩
  obtain ⟨hlo, hhi⟩ := pthreadProxyPending_bounds hlong hp maxThreads registered
  have hreg := BitVec.toInt_lt (x := registered)
  refine ⟨hlo, ?_, hhi, ?_⟩
  · rw [ProxyState.inHand_setWake]
    show _ + ((s.inHand : ℕ) : ℤ) + ((0 : ℕ) : ℤ) = _
    rw [hhand]
    simp
    rfl
  · show pthreadProxyPending cfg s.proxy.pending maxThreads registered.toInt < 2 ^ 31
    omega

/-- **Each step keeps the balance.** -/
theorem Balanced.step (hlong : cfg.longBits = 64) (hown : Mutex.Owns s.owner s.holds)
    (h : Balanced s l) (hs : ProxyStep cfg s a s') : Balanced s' (ledgerAfter s a s' l) := by
  have owner : ∀ {i : ι} {t : ProxyWait}, s.waits i = t → t.holds = true →
      s.owner = some (.inl i) := by
    intro i t hi ht
    apply (hown (.inl i)).mp
    show (s.waits i).holds = true
    rw [hi]
    exact ht
  have waker : ∀ {j : κ} {t : ProxyWake}, s.wakes j = t → t.holds = true →
      s.owner = some (.inr j) := by
    intro j t hj ht
    apply (hown (.inr j)).mp
    show (s.wakes j).holds = true
    rw [hj]
    exact ht
  have ledger : ∀ {i : ι}, s.waits i ≠ .unlock 0 → ledgerAfter s (.wait i) s' l = l :=
    fun hi => if_neg hi
  cases hs with
  | waitOutside _ i t ha hb hi ht hloop =>
    rw [ledgerAfter_other ha hb]
    exact h.same rfl (ProxyState.inHand_outside hown hi)
  | waitLocks i t hfree hi ht hret hloop =>
    rw [ledger (by rintro h0; rw [h0] at hi; cases hi)]
    refine h.same ?_ ?_
    · rfl
    rw [ProxyState.inHand_setWait (s := { s with owner := some (.inl i) }) rfl,
      ProxyState.inHand_free hfree, if_neg (hret 0)]
  | enters i timed hi =>
    rw [ledger (by rw [hi]; nofun)]
    apply h.look (owner hi rfl) (by rw [hi]; nofun)
    rcases s.proxy.enter_cases with ⟨hpos, he⟩ | he
    · rw [he]
      exact .inl ⟨hpos, rfl, rfl⟩
    · rw [he]
      exact .inr ⟨rfl, nofun⟩
  | sleeps i timed hi =>
    rw [ledger (by rw [hi]; nofun)]
    refine h.same ?_ ?_
    · rfl
    rw [ProxyState.inHand_free (s := ({ s with owner := none } : ProxyState ι κ).setWait i _) rfl]
    unfold ProxyState.inHand
    rw [owner hi rfl]
    exact (if_neg (by rw [hi]; nofun)).symm
  | condReturns i timed ret hi =>
    apply h.look (p := s.proxy) (owner hi rfl) (by rw [hi]; nofun)
    exact .inr ⟨rfl, nofun⟩
  | resumes i timed ret hi =>
    rw [ledger (by rw [hi]; nofun)]
    apply h.look (owner hi rfl) (by rw [hi]; nofun)
    rcases s.proxy.resume_cases cfg ret with ⟨hpos, he⟩ | he | ⟨r, hr, he⟩
    · rw [he]
      exact .inl ⟨hpos, rfl, rfl⟩
    · rw [he]
      exact .inr ⟨rfl, nofun⟩
    · rw [he]
      exact .inr ⟨rfl, by simpa [ProxyWait.decided] using hr⟩
  | waitUnlocks i ret hi =>
    simp only [ledgerAfter, hi, ProxyWait.unlock.injEq]
    exact h.returns (owner hi rfl) hi
  | wakeOutside _ j t ha hb hj ht =>
    rw [ledgerAfter_other ha hb]
    exact h.same rfl rfl
  | wakeLocks j c maxThreads registered hfree hj =>
    simp only [ledgerAfter, hj]
    refine h.same ?_ ?_
    · rfl
    rw [ProxyState.inHand_free hfree]
    rfl
  | wakes j c maxThreads registered ret hj =>
    simp only [ledgerAfter, hj]
    exact h.wakes hlong (waker hj rfl) maxThreads registered (.unlock ret)
  | wakeUnlocks j c ret hj =>
    simp only [ledgerAfter, hj]
    refine h.same ?_ ?_
    · rfl
    rw [ProxyState.inHand_free (s := ({ s with owner := none } : ProxyState ι κ).setWake j _) rfl,
      ProxyState.inHand_wake (waker hj rfl)]

/-- **Each step keeps `waiting` the number of threads in the loop.** -/
theorem ProxyStep.waiting [Fintype ι] (hs : ProxyStep cfg s a s')
    (h : s.proxy.waiting = (Finset.univ.filter fun i => (s.waits i).inLoop = true).card) :
    s'.proxy.waiting = (Finset.univ.filter fun i => (s'.waits i).inLoop = true).card := by
  have count : ∀ (i : ι) (t : ProxyWait) (n : ℤ),
      n + (if (s.waits i).inLoop = true then 1 else 0)
        = s.proxy.waiting + (if t.inLoop = true then 1 else 0) →
      n = (Finset.univ.filter fun k => (Function.update s.waits i t k).inLoop = true).card := by
    intro i t n hn
    have hc := card_filter_update (fun t : ProxyWait => t.inLoop = true) s.waits i t
    zify at hc
    linarith only [h, hn, hc]
  cases hs with
  | waitOutside _ i t _ _ _ _ hloop => exact count i t _ (by rw [hloop]; rfl)
  | waitLocks i t _ _ _ _ hloop => exact count i t _ (by rw [hloop]; rfl)
  | enters i timed hi =>
    apply count i
    rw [hi]
    rcases s.proxy.enter_cases with ⟨-, he⟩ | he
    · rw [he]
      rfl
    · rw [he]
      show s.proxy.waiting + 1 + 0 = s.proxy.waiting + 1
      omega
  | sleeps i timed hi => exact count i _ _ (by rw [hi]; rfl)
  | condReturns i timed ret hi => exact count i _ _ (by rw [hi]; rfl)
  | resumes i timed ret hi =>
    apply count i
    rw [hi]
    rcases s.proxy.resume_cases cfg ret with ⟨-, he⟩ | he | ⟨r, -, he⟩
    · rw [he]
      show s.proxy.waiting - 1 + 1 = s.proxy.waiting + 0
      omega
    · rw [he]
      rfl
    · rw [he]
      show s.proxy.waiting - 1 + 1 = s.proxy.waiting + 0
      omega
  | waitUnlocks i ret hi => exact count i _ _ (by rw [hi]; rfl)
  | wakeOutside | wakeLocks | wakes | wakeUnlocks => exact h

/-- What holds in every reachable state, with the mutex free or not. -/
structure LedgerInv [Fintype ι] (x : ProxyState ι κ × WakeLedger) : Prop where
  owns : Mutex.Owns x.1.owner x.1.holds
  waiting : x.1.proxy.waiting = (Finset.univ.filter fun i => (x.1.waits i).inLoop = true).card
  balanced : Balanced x.1 x.2

theorem ledgerInv_of_reachable [Fintype ι] (hlong : cfg.longBits = 64)
    {x : ProxyState ι κ × WakeLedger} (h : (ledgerSystem ι κ cfg).Reachable x) : LedgerInv x := by
  refine h.invariant (I := LedgerInv) ?_ ?_
  · rintro ⟨s, l⟩ ⟨hstart, hl⟩
    obtain rfl : s = .start := hstart
    obtain rfl : l = ⟨0, none, 0⟩ := hl
    have hlt : (0 : ℤ) < 2 ^ 31 := by decide
    refine ⟨?_, ?_, le_rfl, rfl, le_rfl, hlt⟩
    · have hfree : (ProxyState.start : ProxyState ι κ).holds = fun _ => false := by
        funext b
        cases b <;> rfl
      rw [hfree]
      exact Mutex.owns_none
    · simp [ProxyState.start, ProxyWait.inLoop]
  · rintro ⟨s, l⟩ a ⟨s', l'⟩ - hI ⟨hstep, hl⟩
    obtain rfl : l' = ledgerAfter s a s' l := hl
    have hs := proxyStep_cases hstep
    exact ⟨hs.owns hI.owns, hs.waiting hI.waiting, hI.balanced.step hlong hI.owns hs⟩

end Invariant

/-- **The accounting of a pthreads proxy** holds in every state that any threads reach. -/
theorem proxy_accounting (ι κ : Type) [DecidableEq ι] [DecidableEq κ] [Fintype ι] (cfg : Platform)
    (hlong : cfg.longBits = 64) {x : ProxyState ι κ × WakeLedger}
    (h : (ledgerSystem ι κ cfg).Reachable x) : ProxyAccounting x := by
  obtain ⟨-, hwaiting, hpos, hleft, hle, -⟩ := ledgerInv_of_reachable hlong h
  refine ⟨fun _ => hwaiting, hpos, by omega, fun hfree => ?_, by omega⟩
  have hhand := ProxyState.inHand_free hfree
  rw [hhand] at hleft
  push_cast at hleft
  omega

/-- A timed wait suspends, a wake with one registered thread leaves a token, and the wait takes it. -/
def oneTokenRun (i : ι) (j : κ) : List (ProxyAction ι κ) :=
  .callWait i true :: List.replicate 3 (.wait i) ++ [.callWake j 1 1] ++ List.replicate 3 (.wake j 0)
    ++ [.unblock i 0] ++ List.replicate 3 (.wait i)

theorem proxy_accounting_oneToken : ∃ x : ProxyState (Fin 1) (Fin 1) × WakeLedger,
    x.2.zeros = 1 ∧ ProxyAccounting x := by
  have hrun : (Lts.exec (Lts.stepHistory (proxyStep (.lp64 .pthreads)) ledgerAfter)
      (ProxyState.start, ⟨0, none, 0⟩) (oneTokenRun (0 : Fin 1) (0 : Fin 1))).any
        (fun x => x.2.zeros = 1) = true := by
    decide
  obtain ⟨x, hexec, hzeros⟩ := (Option.any_eq_true _ _).mp hrun
  have hr : (ledgerSystem (Fin 1) (Fin 1) (.lp64 .pthreads)).Reachable x :=
    (Lts.reachable_of_execHistory (C := fun _ _ => True) _ (fun s => s = ProxyState.start) rfl
      (fun _ _ _ => trivial) hexec).of_restrict
  exact ⟨x, by simpa using hzeros, proxy_accounting (Fin 1) (Fin 1) (.lp64 .pthreads) rfl hr⟩

end AtomicWaits
