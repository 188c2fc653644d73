import AtomicWaits.Notify

/-!
# The arithmetic of `pthread_proxy_wake`

The limit of a wake is an `unsigned` that the function converts to `long` for the pending tokens and to
`int` for the count it returns. `WakeExact` says that both results are those of the integers and that no
conversion loses the value. `wakeExact_iff` is the exact condition on the arguments.

* `pthreadProxyPending_eq_iff`: when the tokens come out right. Where `long` has 64 bits they always do.
* `pthreadProxyWake_eq_iff`: when the count does. A limit from `2 ^ 31` on is negative as an `int`.
-/

namespace AtomicWaits

/-- A value an `int` can hold that is not negative. -/
def IntCount (x : ℤ) : Prop := 0 ≤ x ∧ x < 2 ^ 31

/-- The tokens a wake should leave, over the integers. -/
def exactPending (pending registered : ℤ) (maxThreads : BitVec 32) : ℤ :=
  if maxThreads = wakeAll then max 1 registered
  else min (max 1 registered) (pending + maxThreads.toNat)

/-- The count a wake should return, over the integers. -/
def exactCount (waiting : ℤ) (maxThreads : BitVec 32) : ℤ := max 1 (min waiting maxThreads.toNat)

/-- The conversions and the sum of a bounded wake keep the value. -/
structure ConversionsFit (cfg : Platform) (pending : ℤ) (maxThreads : BitVec 32) : Prop where
  toLong : wrapInt cfg.longBits maxThreads.toNat = maxThreads.toNat
  sum : wrapInt cfg.longBits (pending + maxThreads.toNat) = pending + maxThreads.toNat
  toInt : maxThreads.toInt = maxThreads.toNat

/-- A wake whose pthreads calls succeed computes over the integers. -/
structure WakeExact (cfg : Platform) (pending waiting registered : ℤ) (maxThreads : BitVec 32) :
    Prop where
  tokens : pthreadProxyPending cfg pending maxThreads registered
    = exactPending pending registered maxThreads
  /-- A notify always leaves a token. -/
  positive : maxThreads ≠ 0 → 1 ≤ pthreadProxyPending cfg pending maxThreads registered
  count : ∀ env errno, env.mutexLock = 0 → env.condWake = 0 → env.waiting = waiting →
    (pthreadProxyWake maxThreads env errno).1 = exactCount waiting maxThreads
  conversions : maxThreads ≠ wakeAll → ConversionsFit cfg pending maxThreads

variable {cfg : Platform} {pending waiting registered : ℤ} {maxThreads : BitVec 32}

theorem longBits_pos : 0 < cfg.longBits := by
  rcases cfg.longBits_eq with h | h <;> omega

/-- `wrapInt` keeps only values of its range. -/
theorem lt_of_wrapInt_eq {w : ℕ} (hw : 0 < w) {x : ℤ} (h : wrapInt w x = x) : x < 2 ^ (w - 1) := by
  have hlt := Int.bmod_lt (x := x) (m := 2 ^ w) (by positivity)
  have hpow : 2 ^ w = 2 * 2 ^ (w - 1) := by
    rw [← pow_succ', Nat.sub_add_cancel hw]
  unfold wrapInt at h
  rw [h, hpow] at hlt
  push_cast at hlt
  omega

theorem wrapInt_int {x : ℤ} (hlo : -2 ^ 31 ≤ x) (hhi : x < 2 ^ 31) : wrapInt 32 x = x :=
  wrapInt_of_mem (by decide) hlo hhi

theorem wrapInt_int_of_overflow {x : ℤ} (hlo : 2 ^ 31 ≤ x) (hhi : x < 3 * 2 ^ 31) :
    wrapInt 32 x = x - 2 ^ 32 :=
  wrapInt_of_overflow (by decide) hlo hhi

theorem toInt_of_lt {k : BitVec 32} (h : k.toNat < 2 ^ 31) : k.toInt = k.toNat :=
  BitVec.toInt_eq_toNat_of_lt (by omega)

theorem toInt_of_le {k : BitVec 32} (h : 2 ^ 31 ≤ k.toNat) : k.toInt = k.toNat - 2 ^ 32 := by
  rw [BitVec.toInt_eq_toNat_cond, if_neg (by omega)]
  norm_cast

/-! ### The tokens -/

/-- The cap on the tokens. -/
theorem cap_eq (registered : ℤ) : (if 0 < registered then registered else 1) = max 1 registered := by
  split <;> omega

/-- **When the tokens are those of the integers.** -/
theorem pthreadProxyPending_eq_iff (hp : IntCount pending) (hr : IntCount registered) :
    pthreadProxyPending cfg pending maxThreads registered
        = exactPending pending registered maxThreads ↔
      maxThreads = wakeAll ∨ cfg.longBits = 64 ∨ pending + maxThreads.toNat < 2 ^ 31 ∨
        max 1 registered ≤ pending + maxThreads.toNat - 2 ^ 32 := by
  obtain ⟨hp₁, hp₂⟩ := hp
  obtain ⟨hr₁, hr₂⟩ := hr
  have hk := maxThreads.isLt
  unfold pthreadProxyPending exactPending
  rw [cap_eq]
  by_cases hall : maxThreads = wakeAll
  · rw [if_pos hall, if_pos hall, wrapInt_int (by omega) (by omega)]
    simp [hall]
  rw [if_neg hall, if_neg hall]
  have hk₁ : (0 : ℤ) ≤ maxThreads.toNat := Int.natCast_nonneg _
  have hk₂ : (maxThreads.toNat : ℤ) < 2 ^ 32 := by omega
  generalize (maxThreads.toNat : ℤ) = k at hk₁ hk₂ ⊢
  simp only [hall, false_or]
  rcases cfg.longBits_eq with hlong | hlong
  · rw [hlong]
    simp only [show ¬ (32 : ℕ) = 64 by decide, false_or]
    by_cases hlt : k < 2 ^ 31
    · rw [wrapInt_int (x := k) (by omega) hlt]
      by_cases hsum : pending + k < 2 ^ 31
      · rw [wrapInt_int (x := pending + k) (by omega) hsum]
        split
        · rw [wrapInt_int (by omega) (by omega)]
          omega
        · rw [wrapInt_int (by omega) (by omega)]
          omega
      · -- the sum is negative as a `long`
        rw [wrapInt_int_of_overflow (x := pending + k) (by omega) (by omega), if_neg (by omega),
          wrapInt_int (by omega) (by omega)]
        omega
    · -- the limit is negative as a `long`
      rw [wrapInt_int_of_overflow (x := k) (by omega) (by omega),
        wrapInt_int (x := pending + (k - 2 ^ 32)) (by omega) (by omega)]
      split
      · rw [wrapInt_int (by omega) (by omega)]
        omega
      · rw [wrapInt_int (by omega) (by omega)]
        omega
  · rw [hlong, wrapInt_of_mem (w := 64) (x := k) (by decide) (by omega) (by omega),
      wrapInt_of_mem (w := 64) (by decide) (by omega) (by omega)]
    simp only [true_or, iff_true]
    split
    · rw [wrapInt_int (by omega) (by omega)]
      omega
    · rw [wrapInt_int (by omega) (by omega)]
      omega

/-! ### The count -/

/-- **When the count is that of the integers.** -/
theorem pthreadProxyWake_eq_iff (hw : IntCount waiting) {env : WakeEnv} (errno : ℤ)
    (hmutex : env.mutexLock = 0) (hcond : env.condWake = 0) (hwaiting : env.waiting = waiting) :
    (pthreadProxyWake maxThreads env errno).1 = exactCount waiting maxThreads ↔
      maxThreads = wakeAll ∨ maxThreads.toNat < 2 ^ 31 ∨ waiting ≤ 1 := by
  obtain ⟨hw₁, hw₂⟩ := hw
  have hk := maxThreads.isLt
  unfold pthreadProxyWake exactCount
  rw [if_neg (by simp [hmutex]), if_neg (by simp [hcond]), hwaiting]
  by_cases hall : maxThreads = wakeAll
  · have hmax : maxThreads.toNat = 2 ^ 32 - 1 := by rw [hall]; rfl
    simp only [hall, if_true, true_or, iff_true]
    rw [← hall, hmax]
    split <;> omega
  · simp only [hall, if_false, false_or]
    by_cases hlt : maxThreads.toNat < 2 ^ 31
    · rw [toInt_of_lt hlt]
      simp only [hlt, true_or, iff_true]
      split <;> split <;> omega
    · rw [toInt_of_le (not_lt.mp hlt)]
      simp only [hlt, false_or]
      constructor
      · intro h
        split at h <;> split at h <;> omega
      · intro h
        split <;> split <;> omega

/-! ### Both -/

/-- **When a wake computes over the integers.** -/
theorem wakeExact_iff (hp : IntCount pending) (hw : IntCount waiting) (hr : IntCount registered) :
    WakeExact cfg pending waiting registered maxThreads ↔
      maxThreads = wakeAll ∨
        maxThreads.toNat < 2 ^ 31 ∧ pending + maxThreads.toNat < 2 ^ (cfg.longBits - 1) := by
  have hk := maxThreads.isLt
  constructor
  · intro h
    by_cases hall : maxThreads = wakeAll
    · exact .inl hall
    · obtain ⟨-, hsum, hint⟩ := h.conversions hall
      refine .inr ⟨?_, lt_of_wrapInt_eq longBits_pos hsum⟩
      by_contra hge
      rw [toInt_of_le (not_lt.mp hge)] at hint
      omega
  · intro h
    have htokens : pthreadProxyPending cfg pending maxThreads registered
        = exactPending pending registered maxThreads := by
      refine (pthreadProxyPending_eq_iff hp hr).mpr ?_
      rcases h with hall | ⟨-, hsum⟩
      · exact .inl hall
      · rcases cfg.longBits_eq with hlong | hlong
        · rw [hlong] at hsum
          exact .inr (.inr (.inl hsum))
        · exact .inr (.inl hlong)
    refine ⟨htokens, fun hne => ?_, fun env errno hmutex hcond hwaiting => ?_, fun hall => ?_⟩
    · have hpos : maxThreads.toNat ≠ 0 := fun h0 => hne (BitVec.eq_of_toNat_eq h0)
      have hp₁ := hp.1
      rw [htokens, exactPending]
      split <;> omega
    · refine (pthreadProxyWake_eq_iff hw errno hmutex hcond hwaiting).mpr ?_
      rcases h with hall | ⟨hlt, -⟩
      · exact .inl hall
      · exact .inr (.inl hlt)
    · obtain ⟨hlt, hsum⟩ := h.resolve_left hall
      have hp₁ := hp.1
      have hlow : (0 : ℤ) < 2 ^ (cfg.longBits - 1) := by positivity
      refine ⟨?_, ?_, toInt_of_lt hlt⟩
      · exact wrapInt_of_mem longBits_pos (by omega) (by omega)
      · exact wrapInt_of_mem longBits_pos (by omega) hsum

/-- One waiter parked, a second still racing the park, and a wake of one. -/
theorem wakeExact_iff_one :
    WakeExact (.lp64 .pthreads) 0 1 2 1 ↔
      (1 : BitVec 32) = wakeAll ∨
        (1 : BitVec 32).toNat < 2 ^ 31 ∧
          (0 : ℤ) + (1 : BitVec 32).toNat < 2 ^ ((Platform.lp64 .pthreads).longBits - 1) :=
  wakeExact_iff ⟨by decide, by decide⟩ ⟨by decide, by decide⟩ ⟨by decide, by decide⟩

/-- **A limit of `2 ^ 31` is negative.** With two threads parked the wake returns one, on every
target; where `long` has 32 bits it also leaves a negative number of tokens. -/
theorem wake_limit_negative :
    ¬ WakeExact (.lp64 .pthreads) 0 2 2 0x80000000 ∧
      ¬ WakeExact (.ilp32 .pthreads) 0 1 1 0x80000000 ∧
      (pthreadProxyWake 0x80000000 ⟨⟨0, 0⟩, 0, 0, 2⟩ 0).1 = 1 ∧
      pthreadProxyPending (.ilp32 .pthreads) 0 0x80000000 1 = -2147483648 := by
  have hcount : (pthreadProxyWake 0x80000000 ⟨⟨0, 0⟩, 0, 0, 2⟩ 0).1 = 1 := by decide
  have htokens : pthreadProxyPending (.ilp32 .pthreads) 0 0x80000000 1 = -2147483648 := by decide
  refine ⟨fun h => ?_, fun h => ?_, hcount, htokens⟩
  · have := h.count ⟨⟨0, 0⟩, 0, 0, 2⟩ 0 rfl rfl rfl
    rw [hcount] at this
    exact absurd this (by decide)
  · have := h.positive (by decide)
    rw [htokens] at this
    exact absurd this (by decide)

end AtomicWaits
