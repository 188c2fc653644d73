import AtomicWaits.WaitFrame

/-!
# The contract of a wait

What a caller of `atomic_wait_expected_32` may rely on, stated once for both implementations over
the events of a run:

* `ReturnsChanged`, `ReturnsTimedOut`, `ReturnsFailed`: the three ways to return.
* `WaitInv`, `NativeInv`: what each implementation knows at each of its program points.
* `wait_contract`: every run that returns does so in exactly one of the three ways.
-/

namespace AtomicWaits

open Lib WaitEvent

variable {V : Type}

/-- What a wait hands back: the result, `*expected` and `errno`. -/
structure WaitResult (V : Type) where
  ret : ℤ
  expected : V
  errno : ℤ

/-! ### The three ways to return -/

/-- The last load saw another value, and that value is reported; the result says whether the thread
had parked before it. -/
def ReturnsChanged (e : V) (evs : List (WaitEvent V)) (r : WaitResult V) : Prop :=
  ∃ pre v post, evs = pre ++ .load v :: post ∧ loads post = [] ∧ v ≠ e ∧ r.expected = v ∧
    r.ret = if parks pre = [] then 0 else 1

/-- The last clock reading had reached the deadline and the last load saw the expected value. -/
def ReturnsTimedOut (cfg : Platform) (e : V) (duration : Option Timespec)
    (evs : List (WaitEvent V)) (r : WaitResult V) : Prop :=
  r.ret = 0 ∧ r.errno = cfg.errno.ETIMEDOUT ∧ r.expected = e ∧ (loads evs).getLast? = some e ∧
    ∃ d entry between last, duration = some d ∧ clocks evs = entry :: (between ++ [last]) ∧
      last.Reached (computeDeadline cfg entry d)

/-- Registering the proxy failed, or the last park call reported a hard error. -/
def ReturnsFailed (cfg : Platform) (e : V) (evs : List (WaitEvent V)) (r : WaitResult V) : Prop :=
  r.ret = -1 ∧ r.expected = e ∧
    (.findOrCreate none r.errno ∈ evs ∨
      ∃ ret2, (parks evs).getLast? = some ret2 ∧ HardError cfg.errno ret2 ∧ r.errno = -ret2)

/-- Exactly one of three statements holds. -/
def ExactlyOne (a b c : Prop) : Prop := a ∧ ¬ b ∧ ¬ c ∨ ¬ a ∧ b ∧ ¬ c ∨ ¬ a ∧ ¬ b ∧ c

/-- The three ways exclude one another: the first reports another value, and the other two differ in
their result. -/
theorem exactlyOne_of_or {cfg : Platform} {e : V} {duration : Option Timespec}
    {evs : List (WaitEvent V)} {r : WaitResult V}
    (h : ReturnsChanged e evs r ∨ ReturnsTimedOut cfg e duration evs r ∨ ReturnsFailed cfg e evs r) :
    ExactlyOne (ReturnsChanged e evs r) (ReturnsTimedOut cfg e duration evs r)
      (ReturnsFailed cfg e evs r) := by
  have hnew : ReturnsChanged e evs r → r.expected ≠ e := by
    rintro ⟨_, v, _, _, _, hv, hexp, _⟩
    rw [hexp]
    exact hv
  rcases h with h | h | h
  · exact .inl ⟨h, fun hb => hnew h hb.2.2.1, fun hc => hnew h hc.2.1⟩
  · refine .inr (.inl ⟨fun ha => hnew ha h.2.2.1, h, fun hc => ?_⟩)
    have h0 := h.1
    have h1 := hc.1
    omega
  · refine .inr (.inr ⟨fun ha => hnew ha h.2.1, fun hb => ?_, h⟩)
    have h0 := hb.1
    have h1 := h.1
    omega

/-! ### What a run without an exit has seen -/

/-- An event that makes a wait fail. -/
def Failing (E : ErrnoCodes) (ev : WaitEvent V) : Prop :=
  (∃ errno, ev = .findOrCreate none errno) ∨ ∃ ret2 errno, ev = .park ret2 errno ∧ HardError E ret2

@[simp] theorem not_failing_load (E : ErrnoCodes) (v : V) : ¬ Failing E (.load v) := by
  simp [Failing]

@[simp] theorem not_failing_clock (E : ErrnoCodes) (now : Timespec) :
    ¬ Failing E (.clock now : WaitEvent V) := by
  simp [Failing]

@[simp] theorem not_failing_registered (E : ErrnoCodes) (p : ℕ) (errno : ℤ) :
    ¬ Failing E (.findOrCreate (some p) errno : WaitEvent V) := by
  simp [Failing]

@[simp] theorem not_failing_park {E : ErrnoCodes} {ret2 errno : ℤ} (h : ¬ HardError E ret2) :
    ¬ Failing E (.park ret2 errno : WaitEvent V) := by
  simp [Failing, h]

/-- Every load saw the expected value, and nothing failed. -/
structure Unchanged (E : ErrnoCodes) (e : V) (evs : List (WaitEvent V)) : Prop where
  same : ∀ v ∈ loads evs, v = e
  fine : ∀ ev ∈ evs, ¬ Failing E ev

theorem unchanged_nil (E : ErrnoCodes) (e : V) : Unchanged E e [] :=
  ⟨by simp, by simp⟩

theorem Unchanged.snoc {E : ErrnoCodes} {e : V} {evs : List (WaitEvent V)}
    (h : Unchanged E e evs) {ev : WaitEvent V} (hl : ∀ v ∈ ev.loaded, v = e) (hf : ¬ Failing E ev) :
    Unchanged E e (evs ++ [ev]) := by
  refine ⟨?_, ?_⟩
  · intro v hv
    rw [loads_append, loads_singleton, List.mem_append] at hv
    rcases hv with hv | hv
    · exact h.same v hv
    · exact hl v (by simpa using hv)
  · intro x hx
    rcases List.mem_append.mp hx with hx | hx
    · exact h.fine x hx
    · rw [List.mem_singleton.mp hx]
      exact hf

/-- How a call ends, with what its run has seen besides: `errno` after a change, and whether
anything failed. -/
inductive Outcome (cfg : Platform) (e : V) (duration : Option Timespec) (errno₀ : ℤ)
    (evs : List (WaitEvent V)) (r : WaitResult V) : Prop
  | changed : ReturnsChanged e evs r → r.errno = errno₀ → (∀ ev ∈ evs, ¬ Failing cfg.errno ev) →
      Outcome cfg e duration errno₀ evs r
  | timedOut : ReturnsTimedOut cfg e duration evs r → Unchanged cfg.errno e evs →
      Outcome cfg e duration errno₀ evs r
  | failed : ReturnsFailed cfg e evs r → (∀ v ∈ loads evs, v = e) →
      (∃ ev ∈ evs, Failing cfg.errno ev) → Outcome cfg e duration errno₀ evs r

/-- An event that is neither a load, a clock reading, a park call nor a registration. -/
def Quiet (ev : WaitEvent V) : Prop :=
  ev.loaded = none ∧ ev.clockReading = none ∧ ev.parkResult = none ∧
    ∀ item errno, ev ≠ .findOrCreate item errno

theorem Quiet.not_failing {E : ErrnoCodes} {ev : WaitEvent V} (h : Quiet ev) : ¬ Failing E ev := by
  rintro (⟨errno, rfl⟩ | ⟨ret2, errno, rfl, _⟩)
  · exact h.2.2.2 none errno rfl
  · cases h.2.2.1

/-- A quiet event changes nothing of the outcome. -/
theorem Outcome.snoc {cfg : Platform} {e : V} {duration : Option Timespec} {errno₀ : ℤ}
    {evs : List (WaitEvent V)} {r : WaitResult V} (h : Outcome cfg e duration errno₀ evs r)
    {ev : WaitEvent V} (hq : Quiet ev) : Outcome cfg e duration errno₀ (evs ++ [ev]) r := by
  have hl : loads (evs ++ [ev]) = loads evs := by simp [hq.1]
  have hc : clocks (evs ++ [ev]) = clocks evs := by simp [hq.2.1]
  have hp : parks (evs ++ [ev]) = parks evs := by simp [hq.2.2.1]
  cases h with
  | changed hret herr hfine =>
    obtain ⟨pre, v, post, heq, hpost, hv⟩ := hret
    refine .changed ⟨pre, v, post ++ [ev], by simp [heq], by simp [hpost, hq.1], hv⟩ herr ?_
    intro x hx
    rcases List.mem_append.mp hx with hx | hx
    · exact hfine x hx
    · rw [List.mem_singleton.mp hx]
      exact hq.not_failing
  | timedOut hret hun =>
    refine .timedOut ?_ (hun.snoc (by simp [hq.1]) hq.not_failing)
    rw [ReturnsTimedOut, hl, hc]
    exact hret
  | failed hret hloads hfail =>
    obtain ⟨hr, he, hwhy⟩ := hret
    refine .failed ⟨hr, he, ?_⟩ (by rw [hl]; exact hloads) ?_
    · rw [hp]
      exact hwhy.imp_left fun hm => List.mem_append_left _ hm
    · obtain ⟨x, hx, hxf⟩ := hfail
      exact ⟨x, List.mem_append_left _ hx, hxf⟩

/-- The deadline is the one of the first clock reading. -/
def DeadlineOf (cfg : Platform) (duration : Option Timespec) (evs : List (WaitEvent V))
    (deadline : Timespec) : Prop :=
  ∀ d, duration = some d →
    ∃ entry rest, clocks evs = entry :: rest ∧ deadline = computeDeadline cfg entry d

theorem DeadlineOf.snoc {cfg : Platform} {duration : Option Timespec} {evs : List (WaitEvent V)}
    {deadline : Timespec} (h : DeadlineOf cfg duration evs deadline) (ev : WaitEvent V) :
    DeadlineOf cfg duration (evs ++ [ev]) deadline := by
  intro d hd
  obtain ⟨entry, rest, hc, hdl⟩ := h d hd
  exact ⟨entry, rest ++ clocks [ev], by rw [clocks_append, hc, List.cons_append], hdl⟩

section
variable {cfg : Platform} {e : V} {duration : Option Timespec} {errno₀ : ℤ}
  {evs : List (WaitEvent V)}

/-- A load of another value decides the exit. -/
theorem Unchanged.changed (h : Unchanged cfg.errno e evs) {v : V} (hv : v ≠ e) {ret : ℤ}
    (hret : ret = if parks evs = [] then 0 else 1) :
    Outcome cfg e duration errno₀ (evs ++ [.load v]) ⟨ret, v, errno₀⟩ := by
  refine .changed ⟨evs, v, [], rfl, rfl, hv, rfl, hret⟩ rfl ?_
  intro x hx
  rcases List.mem_append.mp hx with hx | hx
  · exact h.fine x hx
  · rw [List.mem_singleton.mp hx]
    exact not_failing_load _ v

/-- A clock reading past the deadline decides the exit. -/
theorem Unchanged.timedOut (h : Unchanged cfg.errno e evs) {now deadline : Timespec}
    (hd : DeadlineOf cfg duration evs deadline) (hdur : duration ≠ none)
    (hlast : (loads evs).getLast? = some e) (hr : now.Reached deadline) :
    Outcome cfg e duration errno₀ (evs ++ [.clock now]) ⟨0, e, cfg.errno.ETIMEDOUT⟩ := by
  obtain ⟨d, hsome⟩ := Option.ne_none_iff_exists'.mp hdur
  obtain ⟨entry, rest, hc, rfl⟩ := hd d hsome
  refine .timedOut ⟨rfl, rfl, rfl, by simpa [loaded] using hlast, d, entry, rest, now, hsome, ?_, hr⟩
    (h.snoc (by simp [loaded]) (not_failing_clock _ now))
  simp [hc, clockReading]

/-- A hard error of a park call decides the exit. -/
theorem Unchanged.parkFailed (h : Unchanged cfg.errno e evs) {ret2 errno : ℤ}
    (hh : HardError cfg.errno ret2) :
    Outcome cfg e duration errno₀ (evs ++ [.park ret2 errno]) ⟨-1, e, -ret2⟩ := by
  refine .failed ⟨rfl, rfl, .inr ⟨ret2, by simp [parkResult], hh, rfl⟩⟩ ?_
    ⟨_, List.mem_append_right _ (List.mem_singleton_self _), .inr ⟨ret2, errno, rfl, hh⟩⟩
  intro v hv
  exact h.same v (by simpa [loaded] using hv)

/-- A failed registration decides the exit. -/
theorem Unchanged.registerFailed (h : Unchanged cfg.errno e evs) (errno : ℤ) :
    Outcome cfg e duration errno₀ (evs ++ [.findOrCreate none errno]) ⟨-1, e, errno⟩ := by
  refine .failed ⟨rfl, rfl, .inl (List.mem_append_right _ (List.mem_singleton_self _))⟩ ?_
    ⟨_, List.mem_append_right _ (List.mem_singleton_self _), .inl ⟨errno, rfl⟩⟩
  intro v hv
  exact h.same v (by simpa [loaded] using hv)

end

/-! ### The generic implementation -/

namespace WaitFrame

/-- Before the first registration. -/
structure First (errno₀ : ℤ) (evs : List (WaitEvent V)) (f : WaitFrame V) : Prop where
  item : f.item = none
  ret : f.ret = 0
  errno : f.errno = errno₀
  unparked : parks evs = []

/-- Registered, before the first park call. -/
structure Entered (evs : List (WaitEvent V)) (f : WaitFrame V) : Prop where
  item : f.item ≠ none
  ret : f.ret = 0
  unparked : parks evs = []

/-- After a park call. -/
structure Again (evs : List (WaitEvent V)) (f : WaitFrame V) : Prop where
  item : f.item ≠ none
  ret : f.ret = 1
  parked : parks evs ≠ []

/-- About to park: the last load saw the expected value. -/
structure Parking (e : V) (evs : List (WaitEvent V)) (f : WaitFrame V) : Prop where
  item : f.item ≠ none
  ret : f.ret = 1
  last : (loads evs).getLast? = some e

/-- The value was as expected in every load so far. -/
structure Watching (cfg : Platform) (e : V) (evs : List (WaitEvent V)) (f : WaitFrame V) : Prop where
  expected : f.expected = e
  unset : f.errnoIsSet = false
  unchanged : Unchanged cfg.errno e evs

/-- What holds at each program point. -/
def Phase (cfg : Platform) (e : V) (duration : Option Timespec) (errno₀ : ℤ)
    (evs : List (WaitEvent V)) (f : WaitFrame V) : Prop :=
  match f.pc with
  | .entryClock | .lockForRegister | .findOrCreate => f.Watching cfg e evs ∧ f.First errno₀ evs
  | .loadTop => f.Watching cfg e evs ∧ (f.First errno₀ evs ∨ f.Again evs)
  | .getCounter | .loadLocked => f.Watching cfg e evs ∧ f.Entered evs
  | .unlockRegistered =>
    f.Watching cfg e evs ∧ f.Entered evs ∧ (loads evs).getLast? = some e
  | .checkDeadline => f.Watching cfg e evs ∧ f.Parking e evs ∧ duration ≠ none
  | .park => f.Watching cfg e evs ∧ f.Parking e evs
  | .getCounterAgain => f.Watching cfg e evs ∧ f.Again evs
  | .reloadTop | .reloadLocked =>
    f.errnoIsSet = false ∧ (f.item = none → f.errno = errno₀) ∧
      Outcome cfg e duration errno₀ evs ⟨f.ret, f.expected, errno₀⟩
  | .unlockFailed => Outcome cfg e duration errno₀ evs ⟨-1, f.expected, f.errno⟩
  | .lockForRelease | .decUseCount | .removeItem | .unlockReleased =>
    Outcome cfg e duration errno₀ evs ⟨f.ret, f.expected, f.saveErrno⟩
  | .returned => Outcome cfg e duration errno₀ evs ⟨f.ret, f.expected, f.errno⟩

end WaitFrame

structure WaitInv (cfg : Platform) (e : V) (dur : Option Timespec) (errno₀ : ℤ)
    (evs : List (WaitEvent V)) (f : WaitFrame V) : Prop where
  duration : f.duration = dur
  entryErrno : f.entryErrno = errno₀
  clock : if f.pc = .entryClock then clocks evs = [] else DeadlineOf cfg dur evs f.deadline
  phase : f.Phase cfg e dur errno₀ evs

section
variable {cfg : Platform} {e : V} {dur : Option Timespec} {errno₀ : ℤ} {evs : List (WaitEvent V)}
  {f f' : WaitFrame V} {ev : WaitEvent V}

/-- **The common exit.** -/
theorem WaitInv.breakLoop (hdur : f.duration = dur) (herr : f.entryErrno = errno₀)
    (hd : DeadlineOf cfg dur evs f.deadline) (errno : ℤ)
    (hout : Outcome cfg e dur errno₀ evs ⟨f.ret, f.expected, errno⟩)
    (hset : (if f.errnoIsSet then f.errno else f.entryErrno) = errno)
    (hnone : f.item = none → f.errno = errno) :
    WaitInv cfg e dur errno₀ evs f.breakLoop := by
  by_cases hi : f.item = none
  · rw [WaitFrame.breakLoop_of_none hi]
    refine ⟨hdur, herr, hd, ?_⟩
    show Outcome cfg e dur errno₀ evs ⟨f.ret, f.expected, f.errno⟩
    rw [hnone hi]
    exact hout
  · rw [WaitFrame.breakLoop_of_some hi, hset]
    cases f.lockIsHeld with
    | true => exact ⟨hdur, herr, hd, hout⟩
    | false => exact ⟨hdur, herr, hd, hout⟩

theorem WaitInv.onToPark (hdur : f.duration = dur) (herr : f.entryErrno = errno₀)
    (hd : DeadlineOf cfg dur evs f.deadline) (hw : f.Watching cfg e evs) (hp : f.Parking e evs) :
    WaitInv cfg e dur errno₀ evs f.onToPark := by
  by_cases hs : f.duration.isSome
  · rw [WaitFrame.onToPark, if_pos hs]
    refine ⟨hdur, herr, hd, ⟨hw.expected, hw.unset, hw.unchanged⟩, ⟨hp.item, hp.ret, hp.last⟩, ?_⟩
    rw [← hdur]
    exact Option.isSome_iff_ne_none.mp hs
  · rw [WaitFrame.onToPark, if_neg hs]
    exact ⟨hdur, herr, hd, ⟨hw.expected, hw.unset, hw.unchanged⟩, ⟨hp.item, hp.ret, hp.last⟩⟩

theorem waitInv_start (cfg : Platform) (object : ℕ) (e : V) (dur : Option Timespec)
    (success failure : MemoryOrder) (errno₀ : ℤ) :
    WaitInv cfg e dur errno₀ [] (.start object e dur success failure errno₀) := by
  cases dur with
  | none =>
    refine ⟨rfl, rfl, fun d hd => ?_, ⟨rfl, rfl, unchanged_nil _ _⟩, .inl ⟨rfl, rfl, rfl, rfl⟩⟩
    cases hd
  | some d => exact ⟨rfl, rfl, rfl, ⟨rfl, rfl, unchanged_nil _ _⟩, ⟨rfl, rfl, rfl, rfl⟩⟩

/-- Nothing but `pc` and locals the invariant does not read changed, and the event was quiet. -/
theorem WaitFrame.Watching.snoc (h : f.Watching cfg e evs)
    (hexp : f'.expected = f.expected) (hset : f'.errnoIsSet = f.errnoIsSet)
    (hl : ∀ v ∈ ev.loaded, v = e) (hf : ¬ Failing cfg.errno ev) :
    f'.Watching cfg e (evs ++ [ev]) :=
  ⟨hexp.trans h.expected, hset.trans h.unset, h.unchanged.snoc hl hf⟩

theorem WaitFrame.Watching.quiet (h : f.Watching cfg e evs) (hexp : f'.expected = f.expected)
    (hset : f'.errnoIsSet = f.errnoIsSet) (hq : Quiet ev) : f'.Watching cfg e (evs ++ [ev]) :=
  h.snoc hexp hset (by simp [hq.1]) hq.not_failing

theorem WaitFrame.reloads_eq_true (h : f.reloads = true) : f.ret ≠ 0 := by
  simp only [WaitFrame.reloads, decide_eq_true_eq] at h
  exact h.1

/-- **Every step of the generic implementation keeps its invariant.** -/
theorem WaitInv.step (h : WaitInv cfg e dur errno₀ evs f) (hs : GenericStep cfg f ev f') :
    WaitInv cfg e dur errno₀ (evs ++ [ev]) f' := by
  have hdur := h.duration
  have herr := h.entryErrno
  have hphase := h.phase
  have hclock := h.clock
  simp only [WaitFrame.Phase] at hphase
  -- the clock part of every step but the first
  have hnext : f.pc ≠ .entryClock → DeadlineOf cfg dur (evs ++ [ev]) f.deadline := by
    intro hne
    rw [if_neg hne] at hclock
    exact hclock.snoc ev
  cases hs with
  | entry now duration hpc hd =>
    simp only [hpc, if_true] at hphase hclock
    obtain ⟨hw, hfirst⟩ := hphase
    refine ⟨hdur, herr, ?_, hw.snoc rfl rfl (by simp [loaded]) (by simp),
      .inl ⟨hfirst.item, hfirst.ret, hfirst.errno, by simp [hfirst.unparked, parkResult]⟩⟩
    intro d hd'
    rw [← hdur, hd] at hd'
    obtain rfl := Option.some.inj hd'
    exact ⟨now, [], by simp [hclock, clockReading], rfl⟩
  | topChangedReload v hpc hv hr =>
    simp only [hpc] at hphase
    obtain ⟨hw, hcase⟩ := hphase
    rcases hcase with hfirst | hagain
    · exact absurd hfirst.ret (WaitFrame.reloads_eq_true hr)
    · refine ⟨hdur, herr, hnext (by simp [hpc]), hw.unset, fun hi => absurd hi hagain.item, ?_⟩
      rw [hw.expected] at hv
      exact hw.unchanged.changed hv (by rw [if_neg hagain.parked]; exact hagain.ret)
  | topChanged v hpc hv hr =>
    simp only [hpc] at hphase
    obtain ⟨hw, hcase⟩ := hphase
    rw [hw.expected] at hv
    have hret : f.ret = if parks evs = [] then 0 else 1 := by
      rcases hcase with hfirst | hagain
      · rw [if_pos hfirst.unparked, hfirst.ret]
      · rw [if_neg hagain.parked, hagain.ret]
    refine WaitInv.breakLoop hdur herr (hnext (by simp [hpc])) errno₀ (hw.unchanged.changed hv hret) ?_ ?_
    · show (if f.errnoIsSet then f.errno else f.entryErrno) = errno₀
      rw [hw.unset, if_neg (by decide), herr]
    · intro hi
      rcases hcase with hfirst | hagain
      · exact hfirst.errno
      · exact absurd hi hagain.item
  | topFirst hpc hi =>
    simp only [hpc] at hphase
    obtain ⟨hw, hcase⟩ := hphase
    rcases hcase with hfirst | hagain
    · exact ⟨hdur, herr, hnext (by simp [hpc]),
        hw.snoc rfl rfl (by simp [loaded, hw.expected]) (by simp),
        ⟨hfirst.item, hfirst.ret, hfirst.errno, by simp [hfirst.unparked, parkResult]⟩⟩
    · exact absurd hi hagain.item
  | topAgain hpc hi =>
    simp only [hpc] at hphase
    obtain ⟨hw, hcase⟩ := hphase
    rcases hcase with hfirst | hagain
    · exact absurd hfirst.item hi
    · exact WaitInv.onToPark hdur herr (hnext (by simp [hpc]))
        (hw.snoc rfl rfl (by simp [loaded, hw.expected]) (by simp))
        ⟨hagain.item, hagain.ret, by simp [loaded, hw.expected]⟩
  | reloadTop v hpc =>
    simp only [hpc] at hphase
    obtain ⟨hset, hnone, hout⟩ := hphase
    refine WaitInv.breakLoop hdur herr (hnext (by simp [hpc])) errno₀
      (hout.snoc ⟨rfl, rfl, rfl, by simp⟩) ?_ hnone
    rw [hset, if_neg (by decide), herr]
  | lockForRegister hpc =>
    simp only [hpc] at hphase
    obtain ⟨hw, hfirst⟩ := hphase
    exact ⟨hdur, herr, hnext (by simp [hpc]), hw.quiet rfl rfl ⟨rfl, rfl, rfl, by simp⟩,
      ⟨hfirst.item, hfirst.ret, hfirst.errno, by simp [hfirst.unparked, parkResult]⟩⟩
  | registerFailed errno hpc =>
    simp only [hpc] at hphase
    obtain ⟨hw, hfirst⟩ := hphase
    refine ⟨hdur, herr, hnext (by simp [hpc]), ?_⟩
    show Outcome cfg e dur errno₀ _ ⟨-1, f.expected, errno⟩
    rw [hw.expected]
    exact hw.unchanged.registerFailed errno
  | registered p errno hpc =>
    simp only [hpc] at hphase
    obtain ⟨hw, hfirst⟩ := hphase
    exact ⟨hdur, herr, hnext (by simp [hpc]), hw.snoc rfl rfl (by simp [loaded]) (by simp),
      ⟨by simp, hfirst.ret, by simp [hfirst.unparked, parkResult]⟩⟩
  | unlockFailed hpc =>
    simp only [hpc] at hphase
    exact ⟨hdur, herr, hnext (by simp [hpc]), hphase.snoc ⟨rfl, rfl, rfl, by simp⟩⟩
  | getCounter c hpc =>
    simp only [hpc] at hphase
    obtain ⟨hw, hentered⟩ := hphase
    exact ⟨hdur, herr, hnext (by simp [hpc]), hw.quiet rfl rfl ⟨rfl, rfl, rfl, by simp⟩,
      ⟨hentered.item, hentered.ret, by simp [hentered.unparked, parkResult]⟩⟩
  | lockedChangedReload v hpc hv hr =>
    simp only [hpc] at hphase
    exact absurd hphase.2.ret (WaitFrame.reloads_eq_true hr)
  | lockedChanged v hpc hv hr =>
    simp only [hpc] at hphase
    obtain ⟨hw, hentered⟩ := hphase
    rw [hw.expected] at hv
    refine WaitInv.breakLoop hdur herr (hnext (by simp [hpc])) errno₀
      (hw.unchanged.changed hv (by rw [if_pos hentered.unparked]; exact hentered.ret)) ?_
      fun hi => absurd hi hentered.item
    show (if f.errnoIsSet then f.errno else f.entryErrno) = errno₀
    rw [hw.unset, if_neg (by decide), herr]
  | lockedSame hpc =>
    simp only [hpc] at hphase
    obtain ⟨hw, hentered⟩ := hphase
    exact ⟨hdur, herr, hnext (by simp [hpc]),
      hw.snoc rfl rfl (by simp [loaded, hw.expected]) (by simp),
      ⟨hentered.item, hentered.ret, by simp [hentered.unparked, parkResult]⟩,
      by simp [loaded, hw.expected]⟩
  | reloadLocked v hpc =>
    simp only [hpc] at hphase
    obtain ⟨hset, hnone, hout⟩ := hphase
    refine WaitInv.breakLoop hdur herr (hnext (by simp [hpc])) errno₀
      (hout.snoc ⟨rfl, rfl, rfl, by simp⟩) ?_ hnone
    show (if f.errnoIsSet then f.errno else f.entryErrno) = errno₀
    rw [hset, if_neg (by decide), herr]
  | unlockRegistered hpc =>
    simp only [hpc] at hphase
    obtain ⟨hw, hentered, hlast⟩ := hphase
    exact WaitInv.onToPark hdur herr (hnext (by simp [hpc])) (hw.quiet rfl rfl ⟨rfl, rfl, rfl, by simp⟩)
      ⟨hentered.item, rfl, by simpa [loaded] using hlast⟩
  | timedOut now hpc hr =>
    simp only [hpc] at hphase
    rw [if_neg (by simp [hpc])] at hclock
    obtain ⟨hw, hpark, hsome⟩ := hphase
    refine WaitInv.breakLoop hdur herr (hclock.snoc _) cfg.errno.ETIMEDOUT ?_ (if_pos rfl)
      fun hi => absurd hi hpark.item
    show Outcome cfg e dur errno₀ _ ⟨0, f.expected, cfg.errno.ETIMEDOUT⟩
    rw [hw.expected]
    exact hw.unchanged.timedOut hclock hsome hpark.last hr
  | notYet now hpc hr =>
    simp only [hpc] at hphase
    obtain ⟨hw, hpark, _⟩ := hphase
    exact ⟨hdur, herr, hnext (by simp [hpc]), hw.snoc rfl rfl (by simp [loaded]) (by simp),
      ⟨hpark.item, hpark.ret, by simpa [loaded] using hpark.last⟩⟩
  | parkFailed ret2 errno hpc hh =>
    simp only [hpc] at hphase
    obtain ⟨hw, hpark⟩ := hphase
    refine WaitInv.breakLoop hdur herr (hnext (by simp [hpc])) (-ret2) ?_ (if_pos rfl)
      fun hi => absurd hi hpark.item
    show Outcome cfg e dur errno₀ _ ⟨-1, f.expected, -ret2⟩
    rw [hw.expected]
    exact hw.unchanged.parkFailed hh
  | parked ret2 errno hpc hh =>
    simp only [hpc] at hphase
    obtain ⟨hw, hpark⟩ := hphase
    exact ⟨hdur, herr, hnext (by simp [hpc]),
      hw.snoc rfl rfl (by simp [loaded]) (not_failing_park hh),
      ⟨hpark.item, hpark.ret, by simp [parkResult]⟩⟩
  | getCounterAgain c hpc =>
    simp only [hpc] at hphase
    obtain ⟨hw, hagain⟩ := hphase
    exact ⟨hdur, herr, hnext (by simp [hpc]), hw.quiet rfl rfl ⟨rfl, rfl, rfl, by simp⟩,
      .inr ⟨hagain.item, hagain.ret, by simpa [parkResult] using hagain.parked⟩⟩
  | lockForRelease hpc =>
    simp only [hpc] at hphase
    exact ⟨hdur, herr, hnext (by simp [hpc]), hphase.snoc ⟨rfl, rfl, rfl, by simp⟩⟩
  | lastUse hpc =>
    simp only [hpc] at hphase
    exact ⟨hdur, herr, hnext (by simp [hpc]), hphase.snoc ⟨rfl, rfl, rfl, by simp⟩⟩
  | notLastUse left hpc _ =>
    simp only [hpc] at hphase
    exact ⟨hdur, herr, hnext (by simp [hpc]), hphase.snoc ⟨rfl, rfl, rfl, by simp⟩⟩
  | removeItem errno hpc =>
    simp only [hpc] at hphase
    exact ⟨hdur, herr, hnext (by simp [hpc]), hphase.snoc ⟨rfl, rfl, rfl, by simp⟩⟩
  | unlockReleased hpc =>
    simp only [hpc] at hphase
    exact ⟨hdur, herr, hnext (by simp [hpc]), hphase.snoc ⟨rfl, rfl, rfl, by simp⟩⟩

/-- What a run of `atomic_wait_generic` knows wherever it stands. -/
theorem waitInv_of_exec [DecidableEq V] {object : ℕ} {success failure : MemoryOrder}
    (h : Lts.exec (atomicWaitGeneric cfg) (.start object e dur success failure errno₀) evs
      = some f) : WaitInv cfg e dur errno₀ evs f :=
  Lts.exec_invariant _ (I := WaitInv cfg e dur errno₀)
    (waitInv_start cfg object e dur success failure errno₀)
    (fun _ _ _ _ hi hs => hi.step (atomicWaitGeneric_cases hs)) h

end

/-! ### The native implementation -/

namespace NativeFrame

/-- What holds at each program point. -/
def Phase (cfg : Platform) (e : V) (duration : Option Timespec) (errno₀ : ℤ)
    (evs : List (WaitEvent V)) (f : NativeFrame V) : Prop :=
  match f.pc with
  | .entryClock | .load =>
    f.expected = e ∧ Unchanged cfg.errno e evs ∧ f.ret = if parks evs = [] then 0 else 1
  | .checkDeadline =>
    f.expected = e ∧ Unchanged cfg.errno e evs ∧ f.ret = 1 ∧ (loads evs).getLast? = some e ∧
      duration ≠ none
  | .park =>
    f.expected = e ∧ Unchanged cfg.errno e evs ∧ f.ret = 1 ∧ (loads evs).getLast? = some e
  | .reload => Outcome cfg e duration errno₀ evs ⟨f.ret, f.expected, errno₀⟩
  | .returned => Outcome cfg e duration errno₀ evs ⟨f.ret, f.expected, f.errno⟩

end NativeFrame

structure NativeInv (cfg : Platform) (e : V) (dur : Option Timespec) (errno₀ : ℤ)
    (evs : List (WaitEvent V)) (f : NativeFrame V) : Prop where
  duration : f.duration = dur
  entryErrno : f.entryErrno = errno₀
  clock : if f.pc = .entryClock then clocks evs = [] else DeadlineOf cfg dur evs f.deadline
  phase : f.Phase cfg e dur errno₀ evs

section
variable {cfg : Platform} {e : V} {dur : Option Timespec} {errno₀ : ℤ} {evs : List (WaitEvent V)}
  {f f' : NativeFrame V} {ev : WaitEvent V}

theorem nativeInv_start (cfg : Platform) (e : V) (dur : Option Timespec)
    (success failure : MemoryOrder) (errno₀ : ℤ) :
    NativeInv cfg e dur errno₀ [] (.start e dur success failure errno₀) := by
  cases dur with
  | none =>
    refine ⟨rfl, rfl, fun d hd => ?_, ⟨rfl, unchanged_nil _ _, rfl⟩⟩
    cases hd
  | some d => exact ⟨rfl, rfl, rfl, ⟨rfl, unchanged_nil _ _, rfl⟩⟩

/-- **Every step of the native implementation keeps its invariant.** -/
theorem NativeInv.step (h : NativeInv cfg e dur errno₀ evs f) (hs : NativeStep cfg f ev f') :
    NativeInv cfg e dur errno₀ (evs ++ [ev]) f' := by
  have hdur := h.duration
  have herr := h.entryErrno
  have hphase := h.phase
  have hclock := h.clock
  simp only [NativeFrame.Phase] at hphase
  have hnext : f.pc ≠ .entryClock → DeadlineOf cfg dur (evs ++ [ev]) f.deadline := by
    intro hne
    rw [if_neg hne] at hclock
    exact hclock.snoc ev
  cases hs with
  | entry now duration hpc hd =>
    simp only [hpc, if_true] at hphase hclock
    obtain ⟨hexp, hun, hret⟩ := hphase
    refine ⟨hdur, herr, ?_, hexp, hun.snoc (by simp [loaded]) (by simp),
      by simpa [parkResult] using hret⟩
    intro d hd'
    rw [← hdur, hd] at hd'
    obtain rfl := Option.some.inj hd'
    exact ⟨now, [], by simp [hclock, clockReading], rfl⟩
  | changedReload v hpc hv hr =>
    simp only [hpc] at hphase
    obtain ⟨rfl, hun, hret⟩ := hphase
    exact ⟨hdur, herr, hnext (by simp [hpc]), hun.changed hv hret⟩
  | changed v hpc hv hr =>
    simp only [hpc] at hphase
    obtain ⟨rfl, hun, hret⟩ := hphase
    refine ⟨hdur, herr, hnext (by simp [hpc]), ?_⟩
    show Outcome cfg f.expected dur errno₀ _ ⟨f.ret, v, f.entryErrno⟩
    rw [herr]
    exact hun.changed hv hret
  | sameTimed hpc hd =>
    simp only [hpc] at hphase
    obtain ⟨rfl, hun, hret⟩ := hphase
    exact ⟨hdur, herr, hnext (by simp [hpc]), rfl, hun.snoc (by simp [loaded]) (by simp), rfl,
      by simp [loaded], hdur ▸ hd⟩
  | same hpc hd =>
    simp only [hpc] at hphase
    obtain ⟨rfl, hun, hret⟩ := hphase
    exact ⟨hdur, herr, hnext (by simp [hpc]), rfl, hun.snoc (by simp [loaded]) (by simp), rfl,
      by simp [loaded]⟩
  | reload v hpc =>
    simp only [hpc] at hphase
    refine ⟨hdur, herr, hnext (by simp [hpc]), ?_⟩
    show Outcome cfg e dur errno₀ _ ⟨f.ret, f.expected, f.entryErrno⟩
    rw [herr]
    exact hphase.snoc ⟨rfl, rfl, rfl, by simp⟩
  | timedOut now hpc hr =>
    simp only [hpc] at hphase
    rw [if_neg (by simp [hpc])] at hclock
    obtain ⟨rfl, hun, _, hlast, hsome⟩ := hphase
    exact ⟨hdur, herr, hclock.snoc _, hun.timedOut hclock hsome hlast hr⟩
  | notYet now hpc hr =>
    simp only [hpc] at hphase
    obtain ⟨rfl, hun, hret, hlast, _⟩ := hphase
    exact ⟨hdur, herr, hnext (by simp [hpc]), rfl, hun.snoc (by simp [loaded]) (by simp), hret,
      by simpa [loaded] using hlast⟩
  | parkFailed ret2 errno hpc hh =>
    simp only [hpc] at hphase
    obtain ⟨rfl, hun, _, _⟩ := hphase
    exact ⟨hdur, herr, hnext (by simp [hpc]), hun.parkFailed hh⟩
  | parked ret2 errno hpc hh =>
    simp only [hpc] at hphase
    obtain ⟨rfl, hun, hret, _⟩ := hphase
    exact ⟨hdur, herr, hnext (by simp [hpc]), rfl,
      hun.snoc (by simp [loaded]) (not_failing_park hh), by simpa [parkResult] using hret⟩

/-- What a run of the native loop knows wherever it stands. -/
theorem nativeInv_of_exec [DecidableEq V] {success failure : MemoryOrder}
    (h : Lts.exec (atomicWaitExpected32 cfg) (.start e dur success failure errno₀) evs
      = some f) : NativeInv cfg e dur errno₀ evs f :=
  Lts.exec_invariant _ (I := NativeInv cfg e dur errno₀)
    (nativeInv_start cfg e dur success failure errno₀)
    (fun _ _ _ _ hi hs => hi.step (atomicWaitExpected32_cases hs)) h

end

/-! ### Both implementations -/

/-- Which body the preprocessor chose for `atomic_wait_expected_32`. -/
inductive Implementation
  | native
  | generic
  deriving DecidableEq, Repr

def Platform.implementation (cfg : Platform) (width : Width) : Implementation :=
  if cfg.haveAddress width then .native else .generic

/-- A call of a wait function in progress. -/
inductive WaitCall (V : Type)
  | native (f : NativeFrame V)
  | generic (f : WaitFrame V)

namespace WaitCall

def start (impl : Implementation) (object : ℕ) (expected : V) (duration : Option Timespec)
    (success failure : MemoryOrder) (errno : ℤ) : WaitCall V :=
  match impl with
  | .native => .native (.start expected duration success failure errno)
  | .generic => .generic (.start object expected duration success failure errno)

def step [DecidableEq V] (cfg : Platform) (call : WaitCall V) (ev : WaitEvent V) :
    Option (WaitCall V) :=
  match call with
  | .native f => (atomicWaitExpected32 cfg f ev).map .native
  | .generic f => (atomicWaitGeneric cfg f ev).map .generic

/-- What the call handed back, once it has returned. -/
def result (call : WaitCall V) : Option (WaitResult V) :=
  match call with
  | .native f => if f.pc = .returned then some ⟨f.ret, f.expected, f.errno⟩ else none
  | .generic f => if f.pc = .returned then some ⟨f.ret, f.expected, f.errno⟩ else none

/-- The call stands before its park call. -/
def atPark : WaitCall V → Bool
  | native f => f.pc = .park
  | generic f => f.pc = .park

end WaitCall

/-- **Both implementations end in an outcome.** -/
theorem outcome_of_exec [DecidableEq V] {cfg : Platform} {impl : Implementation} {object : ℕ}
    {e : V} {duration : Option Timespec} {success failure : MemoryOrder} {errno₀ : ℤ}
    {evs : List (WaitEvent V)} {call : WaitCall V} {r : WaitResult V}
    (h : Lts.exec (WaitCall.step cfg) (.start impl object e duration success failure errno₀) evs
      = some call) (hr : call.result = some r) : Outcome cfg e duration errno₀ evs r := by
  cases impl with
  | native =>
    rw [WaitCall.start, Lts.exec_map _ WaitCall.native fun _ _ => rfl] at h
    obtain ⟨f, hf, rfl⟩ := Option.map_eq_some_iff.mp h
    have hphase := (nativeInv_of_exec hf).phase
    simp only [WaitCall.result, Option.ite_none_right_eq_some, Option.some.injEq] at hr
    obtain ⟨hpc, rfl⟩ := hr
    simpa only [NativeFrame.Phase, hpc] using hphase
  | generic =>
    rw [WaitCall.start, Lts.exec_map _ WaitCall.generic fun _ _ => rfl] at h
    obtain ⟨f, hf, rfl⟩ := Option.map_eq_some_iff.mp h
    have hphase := (waitInv_of_exec hf).phase
    simp only [WaitCall.result, Option.ite_none_right_eq_some, Option.some.injEq] at hr
    obtain ⟨hpc, rfl⟩ := hr
    simpa only [WaitFrame.Phase, hpc] using hphase

/-- A call that parks has seen no other value and no failure. -/
theorem unchanged_of_exec [DecidableEq V] {cfg : Platform} {impl : Implementation} {object : ℕ}
    {e : V} {duration : Option Timespec} {success failure : MemoryOrder} {errno₀ : ℤ}
    {evs : List (WaitEvent V)} {call : WaitCall V}
    (h : Lts.exec (WaitCall.step cfg) (.start impl object e duration success failure errno₀) evs
      = some call) (hpark : call.atPark = true) : Unchanged cfg.errno e evs := by
  cases impl with
  | native =>
    rw [WaitCall.start, Lts.exec_map _ WaitCall.native fun _ _ => rfl] at h
    obtain ⟨f, hf, rfl⟩ := Option.map_eq_some_iff.mp h
    have hphase := (nativeInv_of_exec hf).phase
    have hpc : f.pc = .park := by simpa [WaitCall.atPark] using hpark
    simp only [NativeFrame.Phase, hpc] at hphase
    exact hphase.2.1
  | generic =>
    rw [WaitCall.start, Lts.exec_map _ WaitCall.generic fun _ _ => rfl] at h
    obtain ⟨f, hf, rfl⟩ := Option.map_eq_some_iff.mp h
    have hphase := (waitInv_of_exec hf).phase
    have hpc : f.pc = .park := by simpa [WaitCall.atPark] using hpark
    simp only [WaitFrame.Phase, hpc] at hphase
    exact hphase.1.unchanged

/-- **The contract.** Every run that returns, of either implementation, returns in exactly one of
the three ways. -/
theorem wait_contract [DecidableEq V] {cfg : Platform} {impl : Implementation} {object : ℕ} {e : V}
    {duration : Option Timespec} {success failure : MemoryOrder} {errno₀ : ℤ}
    {evs : List (WaitEvent V)} {call : WaitCall V} {r : WaitResult V}
    (h : Lts.exec (WaitCall.step cfg) (.start impl object e duration success failure errno₀) evs
      = some call) (hr : call.result = some r) :
    ExactlyOne (ReturnsChanged e evs r) (ReturnsTimedOut cfg e duration evs r)
      (ReturnsFailed cfg e evs r) := by
  apply exactlyOne_of_or
  cases outcome_of_exec h hr with
  | changed hret _ _ => exact .inl hret
  | timedOut hret _ => exact .inr (.inl hret)
  | failed hret _ _ => exact .inr (.inr hret)

/-- A thread parks once on the native path, is woken and sees the value 1. -/
theorem wait_contract_woken :
    ExactlyOne
      (ReturnsChanged (0 : BitVec 32) [.load 0, .park 0 0, .load 1] ⟨1, 1, 7⟩)
      (ReturnsTimedOut (.lp64 .linux) (0 : BitVec 32) none [.load 0, .park 0 0, .load 1] ⟨1, 1, 7⟩)
      (ReturnsFailed (.lp64 .linux) (0 : BitVec 32) [.load 0, .park 0 0, .load 1] ⟨1, 1, 7⟩) := by
  have hrun : ∃ call, Lts.exec (WaitCall.step (.lp64 .linux))
      (.start .native 64 (0 : BitVec 32) none .relaxed .relaxed 7)
      [.load 0, .park 0 0, .load 1] = some call ∧ call.result = some ⟨1, 1, 7⟩ := ⟨_, rfl, rfl⟩
  obtain ⟨call, hexec, hr⟩ := hrun
  exact wait_contract hexec hr

end AtomicWaits
