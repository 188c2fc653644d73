import AtomicWaits.WaitContract

/-!
# Timed waits are never early, when the deadline fits

`NeverEarly` is what a timed wait owes its caller, for one duration and one clock reading at entry,
over every run of an implementation. `neverEarly_iff` is the exact condition on the two arguments:
the seconds of the deadline are representable in `time_t`. Nothing saturates the sum, so the largest
durations time out at once (`timed_out_at_once`).
-/

namespace AtomicWaits

open Lib WaitEvent

variable {V : Type}

/-- The clock readings of a run: the first is the one at entry, all are normalised, and none is
before an earlier one. -/
structure Clocked (entry : Timespec) (evs : List (WaitEvent V)) : Prop where
  head : ∀ t ∈ (clocks evs).head?, t = entry
  normalised : ∀ t ∈ clocks evs, t.Normalised
  mono : (clocks evs).Pairwise fun a b => a.ns ≤ b.ns

theorem Clocked.entry_le {entry : Timespec} {evs : List (WaitEvent V)} (h : Clocked entry evs)
    {t : Timespec} (ht : t ∈ clocks evs) : entry.ns ≤ t.ns := by
  have hhead := h.head
  have hmono := h.mono
  cases hc : clocks evs with
  | nil =>
    rw [hc] at ht
    cases ht
  | cons a rest =>
    rw [hc] at ht hhead hmono
    obtain rfl := hhead a rfl
    rcases List.mem_cons.mp ht with rfl | hrest
    · exact le_rfl
    · exact (List.pairwise_cons.mp hmono).1 t hrest

theorem Clocked.of_append {entry : Timespec} {evs evs' : List (WaitEvent V)}
    (h : Clocked entry (evs ++ evs')) : Clocked entry evs := by
  obtain ⟨hhead, hnorm, hmono⟩ := h
  rw [clocks_append] at hhead hnorm hmono
  refine ⟨?_, fun t ht => hnorm t (List.mem_append_left _ ht), (List.pairwise_append.mp hmono).1⟩
  intro t ht
  refine hhead t ?_
  cases hc : clocks evs with
  | nil =>
    rw [hc] at ht
    cases ht
  | cons a rest =>
    rw [hc] at ht
    exact ht

/-- The call says that the duration elapsed. -/
def TimeoutReported (cfg : Platform) (e : V) (r : WaitResult V) : Prop :=
  r.ret = 0 ∧ r.errno = cfg.errno.ETIMEDOUT ∧ r.expected = e

/-- A run of an implementation from its entry, with the given duration. -/
def TimedRun (cfg : Platform) (impl : Implementation) (duration : Timespec) (e : BitVec 32)
    (evs : List (WaitEvent (BitVec 32))) (call : WaitCall (BitVec 32)) : Prop :=
  ∃ object success failure errno,
    Lts.exec (WaitCall.step cfg) (.start impl object e (some duration) success failure errno) evs
      = some call

/-- What a timed wait owes its caller. -/
structure NeverEarly (cfg : Platform) (impl : Implementation) (duration entry : Timespec) :
    Prop where
  /-- A timeout is reported when the duration has elapsed. -/
  elapsed : ∀ e evs call r, TimedRun cfg impl duration e evs call → Clocked entry evs →
    call.result = some r → TimeoutReported cfg e r →
    ∃ last, (clocks evs).getLast? = some last ∧ duration.ns ≤ last.ns - entry.ns
  /-- Without a positive duration nothing parks. -/
  unparked : duration.ns ≤ 0 → ∀ e evs call, TimedRun cfg impl duration e evs call →
    Clocked entry evs → parks evs = []
  /-- Without a positive duration an unchanged value is a timeout, unless registration fails. -/
  expired : duration.ns ≤ 0 → ∀ e evs call r, TimedRun cfg impl duration e evs call →
    Clocked entry evs → call.result = some r → (∀ v ∈ loads evs, v = e) →
    (∀ errno, .findOrCreate none errno ∉ evs) → TimeoutReported cfg e r

/-! ### Where a timed wait parks -/

/-- A generic call gets to the park call only from the deadline check, when it is timed. -/
theorem GenericStep.to_park {cfg : Platform} {f f' : WaitFrame V} {ev : WaitEvent V}
    (h : GenericStep cfg f ev f') (hd : f.duration ≠ none) (hpc : f'.pc = .park) :
    ∃ now, ev = .clock now ∧ f.pc = .checkDeadline ∧ ¬ now.Reached f.deadline ∧
      f' = { f with tsRemaining := some (remaining cfg f.deadline now), pc := .park } := by
  have hbreak : ∀ g : WaitFrame V, g.breakLoop.pc ≠ .park := by
    intro g
    by_cases hi : g.item = none
    · rw [WaitFrame.breakLoop_of_none hi]
      simp
    · rw [WaitFrame.breakLoop_of_some hi]
      cases g.lockIsHeld <;> simp
  have hpark : ∀ g : WaitFrame V, g.duration = f.duration → g.onToPark.pc ≠ .park := by
    intro g hg
    have hs : g.duration.isSome := by
      rw [hg]
      exact Option.isSome_iff_ne_none.mpr hd
    rw [WaitFrame.onToPark, if_pos hs]
    simp
  cases h with
  | notYet now hcheck hr => exact ⟨now, rfl, hcheck, hr, rfl⟩
  | topChanged | reloadTop | lockedChanged | reloadLocked | timedOut | parkFailed =>
    exact absurd hpc (hbreak _)
  | topAgain => exact absurd hpc (hpark f rfl)
  | unlockRegistered => exact absurd hpc (hpark _ rfl)
  | _ => simp at hpc

theorem GenericStep.parkResult_eq_none {cfg : Platform} {f f' : WaitFrame V} {ev : WaitEvent V}
    (h : GenericStep cfg f ev f') (hpc : f.pc ≠ .park) : ev.parkResult = none := by
  cases h with
  | parkFailed ret2 errno hpark _ => exact absurd hpark hpc
  | parked ret2 errno hpark _ => exact absurd hpark hpc
  | _ => rfl

theorem NativeStep.to_park {cfg : Platform} {f f' : NativeFrame V} {ev : WaitEvent V}
    (h : NativeStep cfg f ev f') (hd : f.duration ≠ none) (hpc : f'.pc = .park) :
    ∃ now, ev = .clock now ∧ f.pc = .checkDeadline ∧ ¬ now.Reached f.deadline ∧
      f' = { f with tsRemaining := some (remaining cfg f.deadline now), pc := .park } := by
  cases h with
  | notYet now hcheck hr => exact ⟨now, rfl, hcheck, hr, rfl⟩
  | same _ hnone => exact absurd hnone hd
  | changed | reload => simp [NativeFrame.returnChanged] at hpc
  | _ => simp at hpc

theorem NativeStep.parkResult_eq_none {cfg : Platform} {f f' : NativeFrame V} {ev : WaitEvent V}
    (h : NativeStep cfg f ev f') (hpc : f.pc ≠ .park) : ev.parkResult = none := by
  cases h with
  | parkFailed ret2 errno hpark _ => exact absurd hpark hpc
  | parked ret2 errno hpark _ => exact absurd hpark hpc
  | _ => rfl

/-- The remaining time a park call of the frame is made with. -/
def WaitCall.tsRemaining : WaitCall V → Option Timespec
  | .native f => f.tsRemaining
  | .generic f => f.tsRemaining

/-- The access after which a timed call parks: it has read the clock, and the deadline is not
reached. -/
def ParksAfter (cfg : Platform) (duration : Timespec) (evs : List (WaitEvent V)) (ev : WaitEvent V)
    (call : WaitCall V) : Prop :=
  ∃ now deadline, ev = .clock now ∧ DeadlineOf cfg (some duration) evs deadline ∧
    ¬ now.Reached deadline ∧ call.tsRemaining = some (remaining cfg deadline now)

section
variable {cfg : Platform} {duration entry : Timespec}

/-- **Induction over a timed run**, of either implementation. -/
theorem TimedRun.invariant {impl : Implementation} {e : BitVec 32}
    {P : List (WaitEvent (BitVec 32)) → WaitCall (BitVec 32) → Prop}
    {evs : List (WaitEvent (BitVec 32))} {call : WaitCall (BitVec 32)}
    (hrun : TimedRun cfg impl duration e evs call)
    (hstart : ∀ object success failure errno,
      P [] (.start impl object e (some duration) success failure errno))
    (hkeep : ∀ evs call ev call', P evs call → (call.atPark = false → ev.parkResult = none) →
      (call'.atPark = true → ParksAfter cfg duration evs ev call') → P (evs ++ [ev]) call') :
    P evs call := by
  obtain ⟨object, success, failure, errno, h⟩ := hrun
  cases impl with
  | native =>
    rw [WaitCall.start, Lts.exec_map _ WaitCall.native fun _ _ => rfl] at h
    obtain ⟨f, hf, rfl⟩ := Option.map_eq_some_iff.mp h
    refine (Lts.exec_invariant _ (I := fun evs f =>
      NativeInv cfg e (some duration) errno evs f ∧ P evs (.native f))
      ⟨nativeInv_start cfg e (some duration) success failure errno,
        hstart object success failure errno⟩ ?_ hf).2
    rintro evs f ev f' ⟨hi, hP⟩ hs
    have hstep := atomicWaitExpected32_cases hs
    refine ⟨hi.step hstep, hkeep evs _ ev _ hP (fun hpc => ?_) fun hpc => ?_⟩
    · exact hstep.parkResult_eq_none (by simpa [WaitCall.atPark] using hpc)
    · obtain ⟨now, rfl, hcheck, hr, rfl⟩ :=
        hstep.to_park (by rw [hi.duration]; simp) (by simpa [WaitCall.atPark] using hpc)
      have hclock := hi.clock
      rw [if_neg (by simp [hcheck])] at hclock
      exact ⟨now, f.deadline, rfl, hclock, hr, rfl⟩
  | generic =>
    rw [WaitCall.start, Lts.exec_map _ WaitCall.generic fun _ _ => rfl] at h
    obtain ⟨f, hf, rfl⟩ := Option.map_eq_some_iff.mp h
    refine (Lts.exec_invariant _ (I := fun evs f =>
      WaitInv cfg e (some duration) errno evs f ∧ P evs (.generic f))
      ⟨waitInv_start cfg object e (some duration) success failure errno,
        hstart object success failure errno⟩ ?_ hf).2
    rintro evs f ev f' ⟨hi, hP⟩ hs
    have hstep := atomicWaitGeneric_cases hs
    refine ⟨hi.step hstep, hkeep evs _ ev _ hP (fun hpc => ?_) fun hpc => ?_⟩
    · exact hstep.parkResult_eq_none (by simpa [WaitCall.atPark] using hpc)
    · obtain ⟨now, rfl, hcheck, hr, rfl⟩ :=
        hstep.to_park (by rw [hi.duration]; simp) (by simpa [WaitCall.atPark] using hpc)
      have hclock := hi.clock
      rw [if_neg (by simp [hcheck])] at hclock
      exact ⟨now, f.deadline, rfl, hclock, hr, rfl⟩

/-- A deadline at or before the entry is reached by every later reading. -/
theorem reached_of_nonpos (hentry : entry.Normalised) (hdur : duration.Normalised)
    (h0 : 0 ≤ entry.sec) (hrange : cfg.TimeRange duration.sec)
    (hfits : DeadlineFits cfg entry duration) (hneg : duration.ns ≤ 0)
    {evs : List (WaitEvent V)} {now deadline : Timespec} (hc : Clocked entry (evs ++ [.clock now]))
    (hd : DeadlineOf cfg (some duration) evs deadline) : now.Reached deadline := by
  obtain ⟨first, rest, hclocks, rfl⟩ := hd duration rfl
  have hfirst : first = entry := hc.head first (by simp [hclocks])
  have hmem : now ∈ clocks (evs ++ [.clock now]) := by simp [clockReading]
  obtain ⟨hnorm, hns⟩ := deadline_eq hentry hdur h0 hrange hfits
  rw [hfirst, Timespec.reached_iff_ns (hc.normalised now hmem) hnorm, hns]
  have hle := hc.entry_le hmem
  omega

theorem unparked_of_fits (hentry : entry.Normalised) (hdur : duration.Normalised)
    (h0 : 0 ≤ entry.sec) (hrange : cfg.TimeRange duration.sec)
    (hfits : DeadlineFits cfg entry duration) (hneg : duration.ns ≤ 0) {impl : Implementation}
    {e : BitVec 32} {evs : List (WaitEvent (BitVec 32))} {call : WaitCall (BitVec 32)}
    (hrun : TimedRun cfg impl duration e evs call) (hc : Clocked entry evs) : parks evs = [] := by
  refine (hrun.invariant
    (P := fun evs call => Clocked entry evs → parks evs = [] ∧ call.atPark = false) ?_ ?_ hc).1
  · intro object success failure errno _
    cases impl <;> exact ⟨rfl, rfl⟩
  · intro evs call ev call' ih hquiet hpass hc
    obtain ⟨hnone, hpc⟩ := ih hc.of_append
    refine ⟨by simp [hnone, hquiet hpc], ?_⟩
    by_contra hpark
    obtain ⟨now, deadline, rfl, hd, hr, -⟩ := hpass (by simpa using hpark)
    exact hr (reached_of_nonpos hentry hdur h0 hrange hfits hneg hc hd)

theorem neverEarly_of_fits (impl : Implementation) (hentry : entry.Normalised)
    (hdur : duration.Normalised) (h0 : 0 ≤ entry.sec) (hrange : cfg.TimeRange duration.sec)
    (hfits : DeadlineFits cfg entry duration) : NeverEarly cfg impl duration entry := by
  refine ⟨?_, ?_, ?_⟩
  · rintro e evs call r ⟨object, success, failure, errno, h⟩ hc hr ⟨_, _, hexp⟩
    cases outcome_of_exec h hr with
    | changed hret _ _ =>
      obtain ⟨_, v, _, _, _, hv, hexp', _⟩ := hret
      exact absurd (hexp'.symm.trans hexp) hv
    | failed hret _ _ =>
      have := hret.1
      omega
    | timedOut hret _ =>
      obtain ⟨_, _, _, _, d, first, between, last, hd, hclocks, hreach⟩ := hret
      obtain rfl := Option.some.inj hd
      have hfirst : first = entry := hc.head first (by simp [hclocks])
      have hmem : last ∈ clocks evs := by simp [hclocks]
      obtain ⟨hnorm, hns⟩ := deadline_eq hentry hdur h0 hrange hfits
      rw [hfirst, Timespec.reached_iff_ns (hc.normalised last hmem) hnorm, hns] at hreach
      refine ⟨last, ?_, by omega⟩
      rw [hclocks, ← List.cons_append, List.getLast?_concat]
  · intro hneg e evs call hrun hc
    exact unparked_of_fits hentry hdur h0 hrange hfits hneg hrun hc
  · intro hneg e evs call r hrun hc hr hsame hreg
    have hpark := unparked_of_fits hentry hdur h0 hrange hfits hneg hrun hc
    obtain ⟨object, success, failure, errno, h⟩ := hrun
    cases outcome_of_exec h hr with
    | changed hret _ _ =>
      obtain ⟨pre, v, post, rfl, _, hv, _⟩ := hret
      exact absurd (hsame v (by simp [loads, loaded])) hv
    | timedOut hret _ => exact ⟨hret.1, hret.2.1, hret.2.2.1⟩
    | failed hret _ _ =>
      rcases hret.2.2 with hmem | ⟨ret2, hlast, _⟩
      · exact absurd hmem (hreg r.errno)
      · rw [hpark] at hlast
        cases hlast

/-! ### A deadline that does not fit -/

/-- The run in which nobody touches the object and the clock does not advance. -/
def idleRun (impl : Implementation) (entry : Timespec) : List (WaitEvent (BitVec 32)) :=
  match impl with
  | .native => [.clock entry, .load 0, .clock entry]
  | .generic => [.clock entry, .load 0, .lock, .findOrCreate (some 0) 0, .getCounter 0, .load 0,
      .unlock, .clock entry, .lock, .decUseCount 0, .removeItem 0, .unlock]

theorem clocked_idleRun (impl : Implementation) (hentry : entry.Normalised) :
    Clocked entry (idleRun impl entry) := by
  have hclocks : clocks (idleRun impl entry) = [entry, entry] := by
    cases impl <;> rfl
  refine ⟨by simp [hclocks], by simpa [hclocks] using hentry, by simp [hclocks]⟩

/-- The frame of that run at its second look at the clock: registered, with the deadline to check. -/
def idleFrame (cfg : Platform) (entry duration : Timespec) : WaitFrame (BitVec 32) :=
  { WaitFrame.start 64 0 (some duration) .seq_cst .seq_cst 0 with
    deadline := computeDeadline cfg entry duration, pc := .checkDeadline, item := some 0, ret := 1 }

theorem idleFrame_timesOut (hreach : entry.Reached (computeDeadline cfg entry duration)) :
    atomicWaitGeneric cfg (idleFrame cfg entry duration) (.clock entry) =
      some { idleFrame cfg entry duration with
        errno := cfg.errno.ETIMEDOUT, errnoIsSet := true, ret := 0
        saveErrno := cfg.errno.ETIMEDOUT, pc := .lockForRelease } :=
  if_pos hreach

/-- When the deadline is in the past, that run ends in a timeout. -/
theorem idleRun_timedOut (impl : Implementation)
    (hreach : entry.Reached (computeDeadline cfg entry duration)) :
    ∃ call, TimedRun cfg impl duration 0 (idleRun impl entry) call ∧
      call.result = some ⟨0, 0, cfg.errno.ETIMEDOUT⟩ := by
  have hrun : (Lts.exec (WaitCall.step cfg)
      (.start impl 64 (0 : BitVec 32) (some duration) .seq_cst .seq_cst 0)
      (idleRun impl entry)).bind WaitCall.result = some ⟨0, 0, cfg.errno.ETIMEDOUT⟩ := by
    cases impl with
    | native =>
      simp [idleRun, WaitCall.start, NativeFrame.start, Lts.exec, WaitCall.step,
        atomicWaitExpected32, WaitCall.result, hreach]
    | generic =>
      have hcheck : Lts.exec (WaitCall.step cfg)
          (.start .generic 64 (0 : BitVec 32) (some duration) .seq_cst .seq_cst 0)
          [.clock entry, .load 0, .lock, .findOrCreate (some 0) 0, .getCounter 0, .load 0, .unlock]
          = some (.generic (idleFrame cfg entry duration)) := rfl
      have hrelease := Lts.exec_append (WaitCall.step cfg)
        (.start .generic 64 (0 : BitVec 32) (some duration) .seq_cst .seq_cst 0)
        [.clock entry, .load 0, .lock, .findOrCreate (some 0) 0, .getCounter 0, .load 0, .unlock]
        [.clock entry, .lock, .decUseCount 0, .removeItem 0, .unlock]
      rw [hcheck, Option.bind_some, Lts.exec, WaitCall.step, idleFrame_timesOut hreach] at hrelease
      exact congrArg (Option.bind · WaitCall.result) hrelease
  obtain ⟨call, hexec, hr⟩ := Option.bind_eq_some_iff.mp hrun
  exact ⟨call, ⟨64, .seq_cst, .seq_cst, 0, hexec⟩, hr⟩

/-- **Timed waits are never early exactly when the deadline fits.** For every normalised duration
and every normalised clock reading at entry, in the range of `time_t`. -/
theorem neverEarly_iff (impl : Implementation) (hdur : duration.Normalised)
    (hrange : cfg.TimeRange duration.sec) (hentry : entry.Normalised) (h0 : 0 ≤ entry.sec)
    (her : cfg.TimeRange entry.sec) :
    NeverEarly cfg impl duration entry ↔ DeadlineFits cfg entry duration := by
  constructor
  · intro h
    by_contra hfits
    have hneg := deadline_sec_of_overflow hentry hdur her hrange hfits
    have hreach : entry.Reached (computeDeadline cfg entry duration) := .inl (by omega)
    obtain ⟨call, hrun, hr⟩ := idleRun_timedOut impl hreach
    obtain ⟨last, hlast, hle⟩ := h.elapsed 0 _ call _ hrun (clocked_idleRun impl hentry) hr
      ⟨rfl, rfl, rfl⟩
    have heq : last = entry := by
      cases impl <;> exact (Option.some.inj hlast).symm
    -- no time passed, but a deadline past the range needs a positive duration
    have hpos : 0 < duration.ns := by
      obtain ⟨hd₁, hd₂⟩ := hdur
      obtain ⟨he₁, he₂⟩ := hentry
      have hup := her.2
      simp only [DeadlineFits, carry] at hfits
      simp only [Timespec.ns]
      split at hfits <;> omega
    rw [heq] at hle
    omega
  · exact neverEarly_of_fits impl hentry hdur h0 hrange

/-- One second from a reading just before a full second, on the native Linux path. -/
theorem neverEarly_iff_second :
    NeverEarly (.lp64 .linux) .native ⟨1, 0⟩ ⟨5, 999999999⟩ ↔
      DeadlineFits (.lp64 .linux) ⟨5, 999999999⟩ ⟨1, 0⟩ :=
  neverEarly_iff .native ⟨by decide, by decide⟩ ⟨by decide, by decide⟩ ⟨by decide, by decide⟩
    (by decide) ⟨by decide, by decide⟩

/-- **Practically forever is over at once.** With the largest `tv_sec` and one second on the clock,
the wait reports a timeout while no time has passed. -/
theorem timed_out_at_once :
    ¬ NeverEarly (.lp64 .linux) .native ⟨2 ^ 63 - 1, 0⟩ ⟨1, 0⟩ ∧
      ¬ NeverEarly (.lp64 .pthreads) .generic ⟨2 ^ 63 - 1, 0⟩ ⟨1, 0⟩ := by
  have early : ∀ cfg impl,
      (⟨1, 0⟩ : Timespec).Reached (computeDeadline cfg ⟨1, 0⟩ ⟨2 ^ 63 - 1, 0⟩) →
      ¬ NeverEarly cfg impl ⟨2 ^ 63 - 1, 0⟩ ⟨1, 0⟩ := by
    intro cfg impl hreach h
    obtain ⟨call, hrun, hr⟩ := idleRun_timedOut impl hreach
    obtain ⟨last, hlast, hle⟩ := h.elapsed 0 _ call _ hrun
      (clocked_idleRun impl ⟨by decide, by decide⟩) hr ⟨rfl, rfl, rfl⟩
    have heq : last = ⟨1, 0⟩ := by
      cases impl <;> exact (Option.some.inj hlast).symm
    rw [heq] at hle
    exact absurd hle (by decide)
  exact ⟨early _ _ (by decide), early _ _ (by decide)⟩

end

end AtomicWaits
