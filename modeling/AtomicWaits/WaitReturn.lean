import AtomicWaits.WaitContract
import AtomicWaits.HashTable

/-!
# When `atomic_wait` returns

`atomic_wait_N` is a loop around the native wait where the width has one, and a call of
`atomic_wait_generic` whose result is discarded where it has none. The loop leaves only on a load of
another value. The generic implementation has two further exits, and the caller cannot tell.

* `atomicWait_returns_iff`: the condition under which a run that returned has seen another value.
* `atomicWait_returns_unchanged`: without memory the call returns at once, the value unchanged.
-/

namespace AtomicWaits

open Lib WaitEvent

variable {V : Type}

/-- A call of `atomic_wait_N` in progress. -/
inductive AtomicWait (V : Type)
  | loop (f : LoopFrame V)
  | generic (f : WaitFrame V)

namespace AtomicWait

/-- The body the preprocessor chose for the width. -/
def start (cfg : Platform) (width : Width) (object : ℕ) (expected : V) (order : MemoryOrder)
    (errno : ℤ) : AtomicWait V :=
  if cfg.haveAddress width then .loop ⟨expected, .load⟩
  else .generic (.start object expected none order order errno)

def step [DecidableEq V] (cfg : Platform) (call : AtomicWait V) (ev : WaitEvent V) :
    Option (AtomicWait V) :=
  match call with
  | .loop f => (atomicWaitN f ev).map .loop
  | .generic f => (atomicWaitGeneric cfg f ev).map .generic

def returned : AtomicWait V → Bool
  | .loop f => f.pc = .returned
  | .generic f => f.pc = .returned

end AtomicWait

/-! ### The native loop -/

/-- The loop goes on as long as every load saw the expected value, and ends with one that did
not. -/
structure LoopInv (e : V) (evs : List (WaitEvent V)) (f : LoopFrame V) : Prop where
  expected : f.expected = e
  loads : if f.pc = .returned then ∃ v ∈ loads evs, v ≠ e else ∀ v ∈ loads evs, v = e

theorem LoopInv.step [DecidableEq V] {e : V} {evs : List (WaitEvent V)} {f f' : LoopFrame V}
    {ev : WaitEvent V} (h : LoopInv e evs f) (hs : atomicWaitN f ev = some f') :
    LoopInv e (evs ++ [ev]) f' := by
  obtain ⟨hexp, hloads⟩ := h
  simp only [atomicWaitN] at hs
  split at hs
  · next v hpc =>
    cases hs
    rw [if_neg (by simp [hpc])] at hloads
    refine ⟨hexp, ?_⟩
    by_cases hv : v = f.expected
    · rw [if_pos hv, if_neg (by simp)]
      intro x hx
      rw [loads_append, List.mem_append] at hx
      rcases hx with hx | hx
      · exact hloads x hx
      · simp only [loads_singleton, loaded, Option.toList_some, List.mem_singleton] at hx
        rw [hx, hv, hexp]
    · rw [if_neg hv, if_pos rfl]
      exact ⟨v, by simp [loaded], fun heq => hv (heq.trans hexp.symm)⟩
  · next hpc =>
    cases hs
    rw [if_neg (by simp [hpc])] at hloads
    refine ⟨hexp, ?_⟩
    rw [if_neg (by simp)]
    intro x hx
    exact hloads x (by simpa [loaded] using hx)
  · cases hs

theorem loopInv_of_exec [DecidableEq V] {e : V} {evs : List (WaitEvent V)} {f : LoopFrame V}
    (h : Lts.exec atomicWaitN ⟨e, .load⟩ evs = some f) : LoopInv e evs f :=
  Lts.exec_invariant _ (I := LoopInv e) ⟨rfl, by simp⟩ (fun _ _ _ _ hi hs => hi.step hs) h

/-! ### Both bodies -/

/-- An outcome has seen another value exactly when nothing failed, for an untimed wait. -/
theorem Outcome.saw_iff {cfg : Platform} {e : V} {errno₀ : ℤ} {evs : List (WaitEvent V)}
    {r : WaitResult V} (h : Outcome cfg e none errno₀ evs r) :
    (∃ v ∈ loads evs, v ≠ e) ↔ ∀ ev ∈ evs, ¬ Failing cfg.errno ev := by
  cases h with
  | changed hret _ hfine =>
    obtain ⟨pre, v, post, rfl, _, hv, _⟩ := hret
    exact iff_of_true ⟨v, by simp [loads, loaded], hv⟩ hfine
  | timedOut hret _ =>
    obtain ⟨_, _, _, _, d, _, _, _, hd, _⟩ := hret
    cases hd
  | failed _ hloads hfail =>
    obtain ⟨ev, hev, hf⟩ := hfail
    refine iff_of_false ?_ fun hall => hall ev hev hf
    rintro ⟨v, hv, hne⟩
    exact hne (hloads v hv)

/-- **When `atomic_wait` returns with the value changed.** A run that returned has seen a value other
than the expected one exactly when the width is native or nothing failed in the run: no registration
and no park call with a hard error. -/
theorem atomicWait_returns_iff {cfg : Platform} (width : Width) {object : ℕ}
    {e : BitVec width.bits} {order : MemoryOrder} {errno : ℤ}
    {evs : List (WaitEvent (BitVec width.bits))} {call : AtomicWait (BitVec width.bits)}
    (h : Lts.exec (AtomicWait.step cfg) (.start cfg width object e order errno) evs = some call)
    (hret : call.returned) :
    (∃ v ∈ loads evs, v ≠ e) ↔
      (cfg.haveAddress width = true ∨ ∀ ev ∈ evs, ¬ Failing cfg.errno ev) := by
  simp only [AtomicWait.start] at h
  by_cases hnat : cfg.haveAddress width = true
  · rw [if_pos hnat, Lts.exec_map _ AtomicWait.loop fun _ _ => rfl] at h
    obtain ⟨f, hf, rfl⟩ := Option.map_eq_some_iff.mp h
    have hloads := (loopInv_of_exec hf).loads
    simp only [AtomicWait.returned, decide_eq_true_eq] at hret
    rw [if_pos hret] at hloads
    exact iff_of_true hloads (.inl hnat)
  · rw [if_neg hnat, Lts.exec_map _ AtomicWait.generic fun _ _ => rfl] at h
    obtain ⟨f, hf, rfl⟩ := Option.map_eq_some_iff.mp h
    have hphase := (waitInv_of_exec hf).phase
    simp only [AtomicWait.returned, decide_eq_true_eq] at hret
    simp only [WaitFrame.Phase, hret] at hphase
    rw [hphase.saw_iff]
    exact ⟨.inr, fun hor => hor.resolve_left hnat⟩

/-- A run of `atomic_wait_8` on the fallback of the Linux backend: registered, parked, woken. -/
theorem atomicWait_returns_iff_woken :
    (∃ v ∈ loads ([.load 0, .lock, .findOrCreate (some 0) 0, .getCounter 0, .load 0, .unlock,
        .park 0 0, .getCounter 1, .load 1, .lock, .decUseCount 0, .removeItem 0, .unlock] :
        List (WaitEvent (BitVec 64))), v ≠ 0) ↔
      ((Platform.lp64 .linux).haveAddress .w8 = true ∨
        ∀ ev ∈ ([.load 0, .lock, .findOrCreate (some 0) 0, .getCounter 0, .load 0, .unlock,
          .park 0 0, .getCounter 1, .load 1, .lock, .decUseCount 0, .removeItem 0, .unlock] :
          List (WaitEvent (BitVec 64))), ¬ Failing linuxErrno ev) := by
  have hrun : ∃ call, Lts.exec (AtomicWait.step (.lp64 .linux))
      (.start (.lp64 .linux) .w8 64 (0 : BitVec 64) .seq_cst 0)
      [.load 0, .lock, .findOrCreate (some 0) 0, .getCounter 0, .load 0, .unlock, .park 0 0,
        .getCounter 1, .load 1, .lock, .decUseCount 0, .removeItem 0, .unlock] = some call ∧
      call.returned := ⟨_, rfl, rfl⟩
  obtain ⟨call, hexec, hret⟩ := hrun
  exact atomicWait_returns_iff .w8 hexec hret

/-- **A failed wait looks like a successful one.** The first 8-byte wait of a process without memory
returns after one load, which saw the expected value. -/
theorem atomicWait_returns_unchanged :
    (hashTableFindOrCreate (counterProxy (.lp64 .linux)) linuxErrno Store.zero 64 true .exhausted
        0).map (fun r => (r.item, r.errno)) = some (none, linuxErrno.ENOMEM) ∧
    ∃ call, Lts.exec (AtomicWait.step (.lp64 .linux))
        (.start (.lp64 .linux) .w8 64 (0 : BitVec 64) .seq_cst 0)
        [.load 0, .lock, .findOrCreate none linuxErrno.ENOMEM, .unlock] = some call ∧
      call.returned ∧
      ∀ v ∈ loads ([.load 0, .lock, .findOrCreate none linuxErrno.ENOMEM, .unlock] :
        List (WaitEvent (BitVec 64))), v = 0 :=
  ⟨rfl, _, rfl, rfl, by simp [loads, loaded]⟩

end AtomicWaits
