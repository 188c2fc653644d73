import AtomicWaits.Registry
import AtomicWaits.System
import Mathlib.Data.Fintype.Sum

/-!
# The system is a registry

Every thread of the system has a role in the registry, read off where its frame stands, and every
step of the system is a step of the registry or leaves it alone (`sysStep_registry`). So the frames
are well formed and `RegistryInv` holds in every reachable state, for both kinds of proxy and any
interleaving (`sysInv_of_reachable`).
-/

namespace AtomicWaits

open Lib

variable {V : Type}

/-! ### Roles -/

namespace WaitFrame

/-- The role of a frame that does not hold the lock. -/
def outside (f : WaitFrame V) : Role := (f.item.map (Role.counted f.object)).getD .apart

/-- The role of a frame that holds the lock. -/
def inside (f : WaitFrame V) : Role := (f.item.map (Role.countedLocked f.object)).getD .locked

def role (f : WaitFrame V) : Role :=
  match f.pc with
  | .entryClock | .loadTop | .reloadTop | .lockForRegister | .checkDeadline | .park
  | .getCounterAgain | .lockForRelease => f.outside
  | .findOrCreate | .unlockFailed | .getCounter | .loadLocked | .reloadLocked | .unlockRegistered
  | .decUseCount => f.inside
  | .removeItem => (f.item.map (Role.removing f.object)).getD .locked
  | .unlockReleased => .locked
  | .returned => .apart

theorem outside_acquire (f : WaitFrame V) : f.outside.acquire = f.inside := by
  unfold outside inside
  cases f.item <;> rfl

theorem inside_release (f : WaitFrame V) : f.inside.release = f.outside := by
  unfold outside inside
  cases f.item <;> rfl

theorem inside_holds (f : WaitFrame V) : f.inside.holds = true := by
  unfold inside
  cases f.item <;> rfl

theorem inside_ne_removing (f : WaitFrame V) (o p : ℕ) : f.inside ≠ .removing o p := by
  unfold inside
  cases f.item <;> exact fun h => by cases h

theorem outside_uses {f : WaitFrame V} {p : ℕ} (h : f.item = some p) :
    f.outside.uses = some (f.object, p) := by
  unfold outside
  rw [h]
  rfl

theorem inside_of_item {f : WaitFrame V} {p : ℕ} (h : f.item = some p) :
    f.inside = .countedLocked f.object p := by
  unfold inside
  rw [h]
  rfl

end WaitFrame

def WaitThread.frame : WaitThread V → Option (WaitFrame V)
  | .idle => none
  | .running f | .blocked f | .woken f _ => some f

def WaitThread.role (t : WaitThread V) : Role := (t.frame.map WaitFrame.role).getD .apart

def NotifyFrame.role (f : NotifyFrame) : Role :=
  match f.pc with
  | .lock | .returned => .apart
  | .findOrCreate => .locked
  | .wake | .signal | .unlock => (f.item.map (Role.waking f.object)).getD .locked

/-- The access is one to the proxy of the frame. -/
def WaitPc.touchesItem : WaitPc → Bool
  | .getCounter | .getCounterAgain | .park | .decUseCount => true
  | _ => false

theorem WaitFrame.uses_of_item {f : WaitFrame V} {p : ℕ} (hp : f.item = some p)
    (hpc : f.pc.touchesItem = true) : f.role.uses = some (f.object, p) := by
  cases hpc' : f.pc with
  | getCounter | decUseCount =>
    simp only [WaitFrame.role, hpc', WaitFrame.inside_of_item hp]
    rfl
  | getCounterAgain | park =>
    simp only [WaitFrame.role, hpc']
    exact WaitFrame.outside_uses hp
  | _ =>
    rw [hpc'] at hpc
    cases hpc

/-! ### Well-formed frames -/

/-- Between its registration and its release a frame has an item. -/
def WaitPc.hasItem : WaitPc → Bool
  | .getCounter | .loadLocked | .reloadLocked | .unlockRegistered | .checkDeadline | .park
  | .getCounterAgain | .lockForRelease | .decUseCount | .removeItem => true
  | _ => false

/-- Before its registration it has none. -/
def WaitPc.noItem : WaitPc → Bool
  | .entryClock | .lockForRegister | .findOrCreate | .unlockFailed => true
  | _ => false

/-- The common tail once the lock is held. -/
def WaitPc.releasing : WaitPc → Bool
  | .decUseCount | .removeItem | .unlockReleased | .returned => true
  | _ => false

structure FrameWf (f : WaitFrame V) : Prop where
  live : 2 ≤ f.object
  item : f.pc.hasItem = true → f.item ≠ none
  noItem : f.pc.noItem = true → f.item = none
  held : f.lockIsHeld = true → f.pc.releasing = true

/-- A suspended thread is at its park call. -/
def WaitThread.Wf : WaitThread V → Prop
  | .idle => True
  | .running f => FrameWf f
  | .blocked f | .woken f _ => FrameWf f ∧ f.pc = .park

structure NotifyWf (f : NotifyFrame) : Prop where
  live : f.pc ≠ .returned → 2 ≤ f.object
  item : f.pc = .wake ∨ f.pc = .signal → f.item ≠ none

namespace FrameWf

variable {f : WaitFrame V}

theorem not_held (h : FrameWf f) {pc : WaitPc} (hpc : f.pc = pc) (hr : pc.releasing = false) :
    f.lockIsHeld = false := by
  by_contra hne
  have := h.held (by simpa using hne)
  rw [hpc, hr] at this
  cases this

/-- A frame that has not kept the lock for its tail. -/
theorem ofFree (hlive : 2 ≤ f.object) (hl : f.lockIsHeld = false)
    (hitem : f.pc.hasItem = true → f.item ≠ none) (hnone : f.pc.noItem = true → f.item = none) :
    FrameWf f := by
  refine ⟨hlive, hitem, hnone, fun h => ?_⟩
  rw [hl] at h
  cases h

theorem item_some (h : FrameWf f) (hpc : f.pc.hasItem = true) : ∃ p, f.item = some p :=
  Option.ne_none_iff_exists'.mp (h.item hpc)

/-- The tail of a wait that does not hold the lock. -/
theorem breakLoop_free (hlive : 2 ≤ f.object) (hl : f.lockIsHeld = false) :
    FrameWf f.breakLoop ∧ f.breakLoop.role = f.outside := by
  by_cases hi : f.item = none
  · rw [WaitFrame.breakLoop_of_none hi]
    refine ⟨⟨hlive, nofun, nofun, fun _ => rfl⟩, ?_⟩
    show Role.apart = f.outside
    rw [WaitFrame.outside, hi]
    rfl
  · rw [WaitFrame.breakLoop_of_some hi, hl]
    exact ⟨.ofFree hlive rfl (fun _ => hi) nofun, rfl⟩

/-- The tail of a wait that has kept the lock. -/
theorem breakLoop_held (hlive : 2 ≤ f.object) (hl : f.lockIsHeld = true) (hi : f.item ≠ none) :
    FrameWf f.breakLoop ∧ f.breakLoop.role = f.inside := by
  rw [WaitFrame.breakLoop_of_some hi, hl]
  exact ⟨⟨hlive, fun _ => hi, nofun, fun _ => rfl⟩, rfl⟩

theorem onToPark (hlive : 2 ≤ f.object) (hl : f.lockIsHeld = false) (hi : f.item ≠ none) :
    FrameWf f.onToPark ∧ f.onToPark.role = f.outside := by
  unfold WaitFrame.onToPark
  split
  · exact ⟨.ofFree hlive hl (fun _ => hi) nofun, rfl⟩
  · exact ⟨.ofFree hlive hl (fun _ => hi) nofun, rfl⟩

end FrameWf

theorem WaitFrame.start_wf {object : ℕ} (hlive : 2 ≤ object) (expected : V)
    (duration : Option Timespec) (success failure : MemoryOrder) (errno : ℤ) :
    FrameWf (WaitFrame.start object expected duration success failure errno) := by
  refine ⟨hlive, ?_, fun _ => rfl, nofun⟩
  cases duration <;> exact nofun

theorem WaitThread.role_of_isFree {t : WaitThread V} (h : t.isFree = true) : t.role = .apart := by
  cases t with
  | idle => rfl
  | running f =>
    have hpc : f.pc = .returned := by simpa [isFree] using h
    show f.role = .apart
    simp only [WaitFrame.role, hpc]
  | blocked f => cases h
  | woken f ret => cases h

@[simp] theorem WaitThread.wake_role (t : WaitThread V) : t.wake.role = t.role := by
  cases t <;> rfl

theorem WaitThread.Wf.wake {t : WaitThread V} (h : t.Wf) : t.wake.Wf := by
  cases t <;> exact h

theorem WaitFrame.start_role (object : ℕ) (expected : V) (duration : Option Timespec)
    (success failure : MemoryOrder) (errno : ℤ) :
    (WaitFrame.start object expected duration success failure errno).role = .apart := by
  cases duration <;> rfl

/-! ### Steps of a frame -/

/-- The role of a frame after an access. -/
def WaitFrame.roleAfter (f : WaitFrame V) : WaitEvent V → Role
  | .lock => f.role.acquire
  | .unlock => f.role.release
  | .findOrCreate item _ => (item.map (Role.countedLocked f.object)).getD .locked
  | .decUseCount left =>
    if left = 0 then (f.item.map (Role.removing f.object)).getD .locked else .locked
  | .removeItem _ => .locked
  | .clock _ | .load _ | .reload _ | .getCounter _ | .park _ _ => f.role

/-- **Each step of a wait keeps its frame well formed and changes its role as the access says.** -/
theorem FrameWf.step [DecidableEq V] {cfg : Platform} {f f' : WaitFrame V} {ev : WaitEvent V}
    (hf : FrameWf f) (hstep : GenericStep cfg f ev f') : FrameWf f' ∧ f'.role = f.roleAfter ev := by
  have hlive := hf.live
  -- a step outside the lock, and one inside it, by the role of the frame before it
  have outside : ∀ ev, f.roleAfter ev = f.role → f.role = f.outside → ∀ f' : WaitFrame V,
      FrameWf f' ∧ f'.role = f.outside → FrameWf f' ∧ f'.role = f.roleAfter ev := by
    intro ev hev hr f' h
    exact ⟨h.1, by rw [hev, hr, h.2]⟩
  have inside : ∀ ev, f.roleAfter ev = f.role → f.role = f.inside → ∀ f' : WaitFrame V,
      FrameWf f' ∧ f'.role = f.inside → FrameWf f' ∧ f'.role = f.roleAfter ev := by
    intro ev hev hr f' h
    exact ⟨h.1, by rw [hev, hr, h.2]⟩
  cases hstep with
  | entry now duration hpc hd =>
    have hl := hf.not_held hpc rfl
    exact outside _ rfl (by simp only [WaitFrame.role, hpc]) _
      ⟨.ofFree hlive hl nofun nofun, rfl⟩
  | topChangedReload v hpc hv hrel =>
    have hl := hf.not_held hpc rfl
    exact outside _ rfl (by simp only [WaitFrame.role, hpc]) _
      ⟨.ofFree hlive hl nofun nofun, rfl⟩
  | topChanged v hpc hv hrel =>
    have hl := hf.not_held hpc rfl
    exact outside _ rfl (by simp only [WaitFrame.role, hpc]) _
      (breakLoop_free (f := { f with expected := v }) hlive hl)
  | topFirst hpc hi =>
    have hl := hf.not_held hpc rfl
    exact outside _ rfl (by simp only [WaitFrame.role, hpc]) _
      ⟨.ofFree hlive hl nofun fun _ => hi, rfl⟩
  | topAgain hpc hi =>
    have hl := hf.not_held hpc rfl
    exact outside _ rfl (by simp only [WaitFrame.role, hpc]) _ (onToPark hlive hl hi)
  | reloadTop v hpc =>
    have hl := hf.not_held hpc rfl
    exact outside _ rfl (by simp only [WaitFrame.role, hpc]) _ (breakLoop_free hlive hl)
  | lockForRegister hpc =>
    have hl := hf.not_held hpc rfl
    have hi := hf.noItem (by rw [hpc]; rfl)
    refine ⟨.ofFree hlive hl nofun fun _ => hi, ?_⟩
    show f.inside = f.role.acquire
    simp only [WaitFrame.role, hpc, WaitFrame.outside_acquire]
  | registerFailed errno hpc =>
    have hl := hf.not_held hpc rfl
    exact ⟨.ofFree hlive hl nofun fun _ => rfl, rfl⟩
  | registered p errno hpc =>
    have hl := hf.not_held hpc rfl
    exact ⟨.ofFree hlive hl (fun _ => by simp) nofun, rfl⟩
  | unlockFailed hpc =>
    have hi := hf.noItem (by rw [hpc]; rfl)
    refine ⟨⟨hlive, nofun, nofun, fun _ => rfl⟩, ?_⟩
    show Role.apart = f.role.release
    simp only [WaitFrame.role, hpc, WaitFrame.inside, hi]
    rfl
  | getCounter c hpc =>
    have hl := hf.not_held hpc rfl
    have hi := hf.item (by rw [hpc]; rfl)
    exact inside _ rfl (by simp only [WaitFrame.role, hpc]) _
      ⟨.ofFree hlive hl (fun _ => hi) nofun, rfl⟩
  | lockedChangedReload v hpc hv hrel =>
    have hl := hf.not_held hpc rfl
    have hi := hf.item (by rw [hpc]; rfl)
    exact inside _ rfl (by simp only [WaitFrame.role, hpc]) _
      ⟨.ofFree hlive hl (fun _ => hi) nofun, rfl⟩
  | lockedChanged v hpc hv hrel =>
    have hi := hf.item (by rw [hpc]; rfl)
    exact inside _ rfl (by simp only [WaitFrame.role, hpc]) _
      (breakLoop_held (f := { f with expected := v, lockIsHeld := true }) hlive rfl hi)
  | lockedSame hpc =>
    have hl := hf.not_held hpc rfl
    have hi := hf.item (by rw [hpc]; rfl)
    exact inside _ rfl (by simp only [WaitFrame.role, hpc]) _
      ⟨.ofFree hlive hl (fun _ => hi) nofun, rfl⟩
  | reloadLocked v hpc =>
    have hi := hf.item (by rw [hpc]; rfl)
    exact inside _ rfl (by simp only [WaitFrame.role, hpc]) _
      (breakLoop_held (f := { f with lockIsHeld := true }) hlive rfl hi)
  | unlockRegistered hpc =>
    have hl := hf.not_held hpc rfl
    have hi := hf.item (by rw [hpc]; rfl)
    obtain ⟨hwf, hrole⟩ := onToPark (f := { f with ret := 1 }) hlive hl hi
    refine ⟨hwf, hrole.trans ?_⟩
    show f.outside = f.role.release
    simp only [WaitFrame.role, hpc, WaitFrame.inside_release]
  | timedOut now hpc hr =>
    have hl := hf.not_held hpc rfl
    exact outside _ rfl (by simp only [WaitFrame.role, hpc]) _ (breakLoop_free
      (f := { f with errno := cfg.errno.ETIMEDOUT, errnoIsSet := true, ret := 0 }) hlive hl)
  | notYet now hpc hr =>
    have hl := hf.not_held hpc rfl
    have hi := hf.item (by rw [hpc]; rfl)
    exact outside _ rfl (by simp only [WaitFrame.role, hpc]) _
      ⟨.ofFree hlive hl (fun _ => hi) nofun, rfl⟩
  | parkFailed ret2 errno hpc hh =>
    have hl := hf.not_held hpc rfl
    exact outside _ rfl (by simp only [WaitFrame.role, hpc]) _
      (breakLoop_free (f := { f with errno := -ret2, errnoIsSet := true, ret := -1 }) hlive hl)
  | parked ret2 errno hpc hh =>
    have hl := hf.not_held hpc rfl
    have hi := hf.item (by rw [hpc]; rfl)
    exact outside _ rfl (by simp only [WaitFrame.role, hpc]) _
      ⟨.ofFree hlive hl (fun _ => hi) nofun, rfl⟩
  | getCounterAgain c hpc =>
    have hl := hf.not_held hpc rfl
    exact outside _ rfl (by simp only [WaitFrame.role, hpc]) _
      ⟨.ofFree hlive hl nofun nofun, rfl⟩
  | lockForRelease hpc =>
    have hi := hf.item (by rw [hpc]; rfl)
    refine ⟨⟨hlive, fun _ => hi, nofun, fun _ => rfl⟩, ?_⟩
    show f.inside = f.role.acquire
    simp only [WaitFrame.role, hpc, WaitFrame.outside_acquire]
  | lastUse hpc =>
    have hi := hf.item (by rw [hpc]; rfl)
    exact ⟨⟨hlive, fun _ => hi, nofun, fun _ => rfl⟩, rfl⟩
  | notLastUse left hpc hl =>
    exact ⟨⟨hlive, nofun, nofun, fun _ => rfl⟩, (if_neg hl).symm⟩
  | removeItem errno hpc => exact ⟨⟨hlive, nofun, nofun, fun _ => rfl⟩, rfl⟩
  | unlockReleased hpc =>
    refine ⟨⟨hlive, nofun, nofun, fun _ => rfl⟩, ?_⟩
    show Role.apart = f.role.release
    simp only [WaitFrame.role, hpc]
    rfl

theorem GenericStep.park_pc [DecidableEq V] {cfg : Platform} {f f' : WaitFrame V} {ret2 errno : ℤ}
    (h : GenericStep cfg f (.park ret2 errno) f') : f.pc = .park := by
  cases h <;> assumption

/-- A frame that makes a step is inside its call. -/
theorem GenericStep.busy [DecidableEq V] {cfg : Platform} {f f' : WaitFrame V} {ev : WaitEvent V}
    (h : GenericStep cfg f ev f') : (WaitThread.running f).isFree = false := by
  have hpc : f.pc ≠ .returned := by
    intro hret
    cases h <;> simp_all
  simp [WaitThread.isFree, hpc]

/-! ### Every access of a waiting thread is a step of the registry -/

section Steps

variable {τ X : Type} [DecidableEq τ] {K : ProxyKind X} {cfg : Platform}

/-- The registry in which the shared part is `sh` and the thread `a` has the role `r`. -/
def Registry.after (g : Registry τ X) (a : τ) (sh : Shared V X) (r : Role) : Registry τ X :=
  ⟨sh.lock, sh.store, Function.update g.role a r⟩

/-- `g` is the registry of the shared part `sh`, where `a` has the role `r`. -/
structure Registry.At (g : Registry τ X) (a : τ) (sh : Shared V X) (r : Role) : Prop where
  lock : g.lock = sh.lock
  store : g.store = sh.store
  role : g.role a = r

variable {g : Registry τ X} {a : τ} {sh sh' : Shared V X} {r r' : Role}

/-- A step that leaves the role of its thread. -/
theorem Registry.At.quiet (hg : g.At a sh r) (h : r' = r) : g.after a sh r' = g := by
  rw [Registry.after, h, ← hg.role, Function.update_eq_self, ← hg.lock, ← hg.store]

theorem Shared.modify_store {item : Option ℕ} {p : ℕ} (hi : item = some p)
    (h : ProxyWaiter X → ProxyWaiter X) :
    (sh.modify item h).store = { sh.store with heap := sh.store.heap.modify p h } := by
  subst hi
  rfl

/-- An access to a proxy by a thread that may use it. -/
theorem Registry.At.touch (hg : g.At a sh r) {o p : ℕ} (hr : r.uses = some (o, p))
    {item : Option ℕ} (hi : item = some p) {h : ProxyWaiter X → ProxyWaiter X}
    (hh : ∀ w, (h w).useCount = w.useCount) (heq : r' = r) :
    RegistryStep K cfg.errno g (g.after a (sh.modify item h) r') := by
  have hstep := RegistryStep.touch (K := K) (E := cfg.errno) a o p h
    (show (g.role a).uses = some (o, p) by rw [hg.role, hr]) hh
  have hafter : g.after a (sh.modify item h) r'
      = ⟨g.lock, { g.store with heap := g.store.heap.modify p h }, g.role⟩ := by
    rw [Registry.after, Shared.modify_store hi, heq, ← hg.role, Function.update_eq_self, hg.lock,
      hg.store]
    rfl
  rw [hafter]
  exact hstep

theorem Registry.At.acquire (hg : g.At a sh r) (hfree : sh.lock = false) (h : r' = r.acquire) :
    RegistryStep K cfg.errno g (g.after a { sh with lock := true } r') := by
  have hstep := RegistryStep.acquire (K := K) (E := cfg.errno) a (hg.lock.trans hfree)
  rw [Registry.after, h, ← hg.role]
  show RegistryStep K cfg.errno g ⟨true, sh.store, _⟩
  rw [← hg.store]
  exact hstep

theorem Registry.At.release (hg : g.At a sh r) (hh : r.holds = true)
    (hne : ∀ o p, r ≠ .removing o p) (h : r' = r.release) :
    RegistryStep K cfg.errno g (g.after a { sh with lock := false } r') := by
  have hstep := RegistryStep.release (K := K) (E := cfg.errno) (g := g) a (by rw [hg.role, hh])
    (by rw [hg.role]; exact hne)
  rw [Registry.after, h, ← hg.role]
  show RegistryStep K cfg.errno g ⟨false, sh.store, _⟩
  rw [← hg.store]
  exact hstep

variable {f f' : WaitFrame V} {env : StepEnv} {ev : WaitEvent V}

/-- What an access of a waiting thread does to the registry. -/
theorem access_step (hf : FrameWf f) (hg : g.At a sh f.role)
    (hacc : sh.access K cfg f env = some (ev, sh')) :
    RegistryStep K cfg.errno g (g.after a sh' (f.roleAfter ev)) ∨
      g.after a sh' (f.roleAfter ev) = g := by
  have lock : (if sh.lock then none else some (WaitEvent.lock, { sh with lock := true }))
      = some (ev, sh') → RegistryStep K cfg.errno g (g.after a sh' (f.roleAfter ev)) := by
    intro h
    split at h
    · cases h
    · next hfree =>
      cases h
      exact hg.acquire (by simpa using hfree) rfl
  simp only [Shared.access] at hacc
  cases hpc : f.pc with
  | entryClock | loadTop | reloadTop | checkDeadline | loadLocked | reloadLocked =>
    rw [hpc] at hacc
    cases hacc
    exact .inr (hg.quiet rfl)
  | lockForRegister | lockForRelease =>
    rw [hpc] at hacc
    exact .inl (lock hacc)
  | findOrCreate =>
    rw [hpc] at hacc
    obtain ⟨r, hr, heq⟩ := Option.map_eq_some_iff.mp hacc
    cases heq
    have hi := hf.noItem (by rw [hpc]; rfl)
    have hrole : f.role = .locked := by
      simp only [WaitFrame.role, hpc, WaitFrame.inside, hi]
      rfl
    have hstep := RegistryStep.register (K := K) (E := cfg.errno) (g := g) a f.object env.alloc
      f.errno r hf.live (by rw [hg.role, hrole]) (by rw [hg.store]; exact hr)
    rw [hg.lock] at hstep
    exact .inl hstep
  | unlockFailed | unlockRegistered =>
    rw [hpc] at hacc
    cases hacc
    have hrole : f.role = f.inside := by simp only [WaitFrame.role, hpc]
    refine .inl (hg.release ?_ ?_ rfl)
    · rw [hrole]
      exact f.inside_holds
    · rw [hrole]
      exact f.inside_ne_removing
  | unlockReleased =>
    rw [hpc] at hacc
    cases hacc
    have hrole : f.role = .locked := by simp only [WaitFrame.role, hpc]
    refine .inl (hg.release ?_ ?_ rfl)
    · rw [hrole]
      rfl
    · rw [hrole]
      exact nofun
  | getCounter =>
    rw [hpc] at hacc
    cases hacc
    obtain ⟨p, hp⟩ := hf.item_some (by rw [hpc]; rfl)
    have hrole : f.role = .countedLocked f.object p := by
      simp only [WaitFrame.role, hpc, WaitFrame.inside_of_item hp]
    refine .inl (hg.touch (o := f.object) ?_ hp (fun _ => rfl) rfl)
    rw [hrole]
    rfl
  | getCounterAgain =>
    rw [hpc] at hacc
    cases hacc
    obtain ⟨p, hp⟩ := hf.item_some (by rw [hpc]; rfl)
    have hrole : f.role = f.outside := by simp only [WaitFrame.role, hpc]
    refine .inl (hg.touch (o := f.object) ?_ hp (fun _ => rfl) rfl)
    rw [hrole]
    exact WaitFrame.outside_uses hp
  | decUseCount =>
    rw [hpc] at hacc
    cases hacc
    obtain ⟨p, hp⟩ := hf.item_some (by rw [hpc]; rfl)
    have hrole : f.role = .countedLocked f.object p := by
      simp only [WaitFrame.role, hpc, WaitFrame.inside_of_item hp]
    have hstep := RegistryStep.decrement (K := K) (E := cfg.errno) (g := g) a f.object p
      (by rw [hg.role, hrole])
    have hleft : ((sh.store.heap.read f.item).map fun w => w.useCount - 1).getD 0
        = leftCount g.store p := by
      rw [hp, hg.store]
      rfl
    rw [hleft, WaitFrame.roleAfter, hp, Registry.after, Shared.modify_store rfl]
    rw [hg.lock, hg.store] at hstep
    rw [hg.store]
    exact .inl hstep
  | removeItem =>
    rw [hpc] at hacc
    cases hacc
    obtain ⟨p, hp⟩ := hf.item_some (by rw [hpc]; rfl)
    have hrole : f.role = .removing f.object p := by
      simp only [WaitFrame.role, hpc, hp]
      rfl
    have hstep := RegistryStep.remove (K := K) (E := cfg.errno) (g := g) a f.object p
      (by rw [hg.role, hrole])
    rw [hg.lock, hg.store] at hstep
    exact .inl hstep
  | park | returned =>
    rw [hpc] at hacc
    cases hacc

end Steps

/-! ### Every step of the system is a step of the registry -/

section System

variable {ι κ X : Type} {K : ProxyKind X} {cfg : Platform} {s s' : Sys ι κ V X}

namespace Sys

/-- The registry of the system. -/
def registry (s : Sys ι κ V X) : Registry (ι ⊕ κ) X where
  lock := s.shared.lock
  store := s.shared.store
  role := Sum.elim (fun i => (s.waits i).role) fun j => (s.notifies j).role

structure FramesWf (s : Sys ι κ V X) : Prop where
  waits : ∀ i, (s.waits i).Wf
  notifies : ∀ j, NotifyWf (s.notifies j)

theorem registry_setWait [DecidableEq ι] [DecidableEq κ] (t : Sys ι κ V X) (i : ι) (w : WaitThread V) :
    (t.setWait i w).registry = t.registry.after (.inl i) t.shared w.role := by
  have hrole : (t.setWait i w).registry.role = Function.update t.registry.role (.inl i) w.role := by
    funext b
    cases b with
    | inl k =>
      by_cases hk : k = i
      · subst hk
        simp [registry, setWait]
      · simp [registry, setWait, hk]
    | inr j => simp [registry, setWait]
  show Registry.mk _ _ (t.setWait i w).registry.role = _
  rw [hrole]
  rfl

theorem registry_setNotify [DecidableEq ι] [DecidableEq κ] (t : Sys ι κ V X) (j : κ) (f : NotifyFrame) :
    (t.setNotify j f).registry = t.registry.after (.inr j) t.shared f.role := by
  have hrole : (t.setNotify j f).registry.role
      = Function.update t.registry.role (.inr j) f.role := by
    funext b
    cases b with
    | inl i => simp [registry, setNotify]
    | inr k =>
      by_cases hk : k = j
      · subst hk
        simp [registry, setNotify]
      · simp [registry, setNotify, hk]
  show Registry.mk _ _ (t.setNotify j f).registry.role = _
  rw [hrole]
  rfl

theorem registry_at (s : Sys ι κ V X) (i : ι) :
    s.registry.At (.inl i) s.shared (s.waits i).role := ⟨rfl, rfl, rfl⟩

theorem registry_at_notify (s : Sys ι κ V X) (j : κ) :
    s.registry.At (.inr j) s.shared (s.notifies j).role := ⟨rfl, rfl, rfl⟩

theorem registry_signal [DecidableEq ι] (s : Sys ι κ V X) (woken : Finset ι) :
    (s.signal woken).registry = s.registry := by
  have hrole : (s.signal woken).registry.role = s.registry.role := by
    funext b
    cases b with
    | inl i =>
      show (if i ∈ woken then (s.waits i).wake else s.waits i).role = (s.waits i).role
      split
      · exact WaitThread.wake_role _
      · rfl
    | inr j => rfl
  show Registry.mk _ _ (s.signal woken).registry.role = _
  rw [hrole]
  rfl

namespace FramesWf

theorem setWait [DecidableEq ι] (h : s.FramesWf) (sh : Shared V X) (i : ι) {t : WaitThread V} (ht : t.Wf) :
    ({ s with shared := sh }.setWait i t).FramesWf := by
  refine ⟨fun k => ?_, h.notifies⟩
  show (Function.update s.waits i t k).Wf
  by_cases hk : k = i
  · rw [hk, Function.update_self]
    exact ht
  · rw [Function.update_of_ne hk]
    exact h.waits k

theorem setNotify [DecidableEq κ] (h : s.FramesWf) (sh : Shared V X) (j : κ) {f : NotifyFrame} (hf : NotifyWf f) :
    ({ s with shared := sh }.setNotify j f).FramesWf := by
  refine ⟨h.waits, fun k => ?_⟩
  show NotifyWf (Function.update s.notifies j f k)
  by_cases hk : k = j
  · rw [hk, Function.update_self]
    exact hf
  · rw [Function.update_of_ne hk]
    exact h.notifies k

theorem signal [DecidableEq ι] (h : s.FramesWf) (woken : Finset ι) : (s.signal woken).FramesWf := by
  refine ⟨fun k => ?_, h.notifies⟩
  show (if k ∈ woken then (s.waits k).wake else s.waits k).Wf
  split
  · exact (h.waits k).wake
  · exact h.waits k

theorem running (h : s.FramesWf) {i : ι} {f : WaitFrame V} (hi : s.waits i = .running f) :
    FrameWf f := by
  have := h.waits i
  rw [hi] at this
  exact this

theorem blocked (h : s.FramesWf) {i : ι} {f : WaitFrame V} (hi : s.waits i = .blocked f) :
    FrameWf f ∧ f.pc = .park := by
  have := h.waits i
  rw [hi] at this
  exact this

theorem woken (h : s.FramesWf) {i : ι} {f : WaitFrame V} {ret : ℤ} (hi : s.waits i = .woken f ret) :
    FrameWf f ∧ f.pc = .park := by
  have := h.waits i
  rw [hi] at this
  exact this

theorem of_frame (h : s.FramesWf) {i : ι} {f : WaitFrame V} (hi : (s.waits i).frame = some f) :
    FrameWf f := by
  have hwf := h.waits i
  cases ht : s.waits i with
  | idle =>
    rw [ht] at hi
    cases hi
  | running f' =>
    rw [ht] at hi hwf
    cases hi
    exact hwf
  | blocked f' =>
    rw [ht] at hi hwf
    cases hi
    exact hwf.1
  | woken f' ret =>
    rw [ht] at hi hwf
    cases hi
    exact hwf.1

/-- A thread that is at its park call may be suspended; any other runs. -/
theorem running_or_park (h : s.FramesWf) {i : ι} {f : WaitFrame V}
    (hi : (s.waits i).frame = some f) : s.waits i = .running f ∨ f.pc = .park := by
  cases ht : s.waits i with
  | idle =>
    rw [ht] at hi
    cases hi
  | running f' =>
    rw [ht] at hi
    cases hi
    exact .inl rfl
  | blocked f' =>
    rw [ht] at hi
    cases hi
    exact .inr (h.blocked ht).2
  | woken f' ret =>
    rw [ht] at hi
    cases hi
    exact .inr (h.woken ht).2

end FramesWf

end Sys

/-- What holds of the frames and of the registry in every state of the system. -/
structure SysInv [Fintype ι] [Fintype κ] (s : Sys ι κ V X) : Prop where
  frames : s.FramesWf
  registry : RegistryInv s.registry

theorem sysInv_initial [Fintype ι] [Fintype κ] (h : s.Initial) : SysInv s := by
  have hframes : s.FramesWf := by
    refine ⟨fun i => ?_, fun j => ?_⟩
    · rw [h.waits i]
      trivial
    · rw [h.notifies j]
      exact ⟨fun hne => absurd rfl hne, by simp [NotifyFrame.idle]⟩
  have hreg : s.registry = ⟨false, .zero, fun _ => .apart⟩ := by
    have hrole : s.registry.role = fun _ => .apart := by
      funext a
      cases a with
      | inl i =>
        show (s.waits i).role = .apart
        rw [h.waits i]
        rfl
      | inr j =>
        show (s.notifies j).role = .apart
        rw [h.notifies j]
        rfl
    show Registry.mk s.shared.lock s.shared.store s.registry.role = _
    rw [hrole, h.lock, h.store]
  exact ⟨hframes, hreg ▸ registryInv_zero⟩

variable [DecidableEq ι] [DecidableEq κ]

/-- A section of the park call touches the proxy and keeps the role of the thread. -/
theorem Sys.FramesWf.parking (h : s.FramesWf) {i : ι} {f : WaitFrame V} {t : WaitThread V}
    {g : ProxyWaiter X → ProxyWaiter X} (hf : FrameWf f) (hpc : f.pc = .park)
    (hi : (s.waits i).role = f.role) (ht : t.role = f.role) (hwf : t.Wf)
    (hg : ∀ w, (g w).useCount = w.useCount) :
    ({ s with shared := s.shared.modify f.item g }.setWait i t).FramesWf ∧
      (RegistryStep K cfg.errno s.registry
          ({ s with shared := s.shared.modify f.item g }.setWait i t).registry ∨
        ({ s with shared := s.shared.modify f.item g }.setWait i t).registry = s.registry) := by
  obtain ⟨p, hp⟩ := hf.item_some (by rw [hpc]; rfl)
  refine ⟨h.setWait _ i hwf, .inl ?_⟩
  rw [Sys.registry_setWait]
  refine (s.registry_at i).touch (o := f.object) ?_ hp hg (ht.trans hi.symm)
  rw [hi]
  simp only [WaitFrame.role, hpc]
  exact WaitFrame.outside_uses hp

/-- The wake of a notifying thread touches the proxy it has looked up. -/
theorem Sys.FramesWf.waking (h : s.FramesWf) {j : κ}
    (hpc : (s.notifies j).pc = .wake ∨ (s.notifies j).pc = .signal) {r : Role}
    (hr : r = (s.notifies j).role) :
    RegistryStep K cfg.errno s.registry (s.registry.after (.inr j)
      (s.shared.wakeProxy K (s.notifies j).item (s.notifies j).maxThreads) r) := by
  obtain ⟨p, hp⟩ := Option.ne_none_iff_exists'.mp ((h.notifies j).item hpc)
  refine (s.registry_at_notify j).touch (o := (s.notifies j).object) ?_ hp (fun _ => rfl) hr
  rcases hpc with hpc | hpc
  · simp only [NotifyFrame.role, hpc, hp]
    rfl
  · simp only [NotifyFrame.role, hpc, hp]
    rfl

variable [DecidableEq V] [Fintype ι]

/-- **Every step of the system is a step of the registry, or leaves the registry alone.** -/
theorem sysStep_registry {a : Action ι κ V} (h : s.FramesWf) (hs : SysStep K cfg s a s') :
    s'.FramesWf ∧ (RegistryStep K cfg.errno s.registry s'.registry ∨ s'.registry = s.registry) := by
  cases hs with
  | store object v => exact ⟨⟨h.waits, h.notifies⟩, .inr rfl⟩
  | callWait i object expected duration success failure errno hfree hlive =>
    refine ⟨h.setWait _ i (WaitFrame.start_wf hlive _ _ _ _ _), .inr ?_⟩
    rw [Sys.registry_setWait]
    refine (s.registry_at i).quiet ?_
    rw [WaitThread.role_of_isFree hfree]
    exact WaitFrame.start_role object expected duration success failure errno
  | wait i env f f' ev sh hi hacc hstep =>
    have hf := h.running hi
    have hg := s.registry_at i
    rw [hi] at hg
    obtain ⟨hwf, hrole⟩ := hf.step hstep
    refine ⟨h.setWait _ i hwf, ?_⟩
    rw [Sys.registry_setWait]
    show RegistryStep K cfg.errno s.registry (s.registry.after (.inl i) sh f'.role) ∨
      s.registry.after (.inl i) sh f'.role = s.registry
    rw [hrole]
    exact access_step hf hg hacc
  | parkSleeps i f hi hpc hr =>
    have hf := h.running hi
    exact h.parking hf hpc (by rw [hi]; rfl) rfl ⟨hf, hpc⟩ fun _ => rfl
  | parkReturns i f f' ret2 hi hr hstep =>
    have hf := h.running hi
    obtain ⟨hwf, hrole⟩ := hf.step hstep
    exact h.parking hf hstep.park_pc (by rw [hi]; rfl) hrole hwf fun _ => rfl
  | parkFails i f f' ret2 hi hstep =>
    have hf := h.running hi
    obtain ⟨hwf, hrole⟩ := hf.step hstep
    exact h.parking hf hstep.park_pc (by rw [hi]; rfl) hrole hwf fun _ => rfl
  | unblock i f ret hi =>
    have hf := h.blocked hi
    refine ⟨h.setWait _ i hf, .inr ?_⟩
    rw [Sys.registry_setWait]
    exact (s.registry_at i).quiet (by rw [hi]; rfl)
  | resumeSleeps i f ret hi hr =>
    have hf := h.woken hi
    exact h.parking hf.1 hf.2 (by rw [hi]; rfl) rfl hf fun _ => rfl
  | resumeReturns i f f' ret ret2 hi hr hstep =>
    have hf := h.woken hi
    obtain ⟨hwf, hrole⟩ := hf.1.step hstep
    exact h.parking hf.1 hf.2 (by rw [hi]; rfl) hrole hwf fun _ => rfl
  | callNotify j object maxThreads errno hpc hlive =>
    refine ⟨h.setNotify _ j ⟨fun _ => hlive, by simp⟩, .inr ?_⟩
    rw [Sys.registry_setNotify]
    refine (s.registry_at_notify j).quiet ?_
    simp only [NotifyFrame.role, hpc]
  | notifyLock j alloc woken hpc hfree =>
    have hlive := (h.notifies j).live (by rw [hpc]; decide)
    refine ⟨h.setNotify _ j ⟨fun _ => hlive, by simp⟩, .inl ?_⟩
    rw [Sys.registry_setNotify]
    refine (s.registry_at_notify j).acquire hfree ?_
    simp only [NotifyFrame.role, hpc]
    rfl
  | notifyFind j alloc woken r hpc hr =>
    have hlive := (h.notifies j).live (by rw [hpc]; decide)
    have hlocked : s.registry.role (.inr j) = .locked := by
      show (s.notifies j).role = .locked
      simp only [NotifyFrame.role, hpc]
    have hstep := RegistryStep.lookup (K := K) (E := cfg.errno) (g := s.registry) (.inr j)
      (s.notifies j).object alloc (s.notifies j).errno r hlive hlocked hr
    cases hri : r.item with
    | none =>
      refine ⟨h.setNotify _ j ⟨fun _ => hlive, by simp⟩, .inl ?_⟩
      rw [Sys.registry_setNotify]
      rw [hri] at hstep
      exact hstep
    | some p =>
      refine ⟨h.setNotify _ j ⟨fun _ => hlive, by simp⟩, .inl ?_⟩
      rw [Sys.registry_setNotify]
      rw [hri] at hstep
      exact hstep
  | notifyWakeAtOnce j alloc woken hpc hk hsig =>
    have hlive := (h.notifies j).live (by rw [hpc]; decide)
    refine ⟨(Sys.FramesWf.signal (s := { s with shared := _ }) ⟨h.waits, h.notifies⟩ woken).setNotify
      _ j ⟨fun _ => hlive, by simp⟩, .inl ?_⟩
    rw [Sys.registry_setNotify, Sys.registry_signal]
    exact h.waking (.inl hpc) (by simp only [NotifyFrame.role, hpc])
  | notifyWake j alloc woken hpc hk =>
    have hlive := (h.notifies j).live (by rw [hpc]; decide)
    have hitem := (h.notifies j).item (.inl hpc)
    refine ⟨h.setNotify _ j ⟨fun _ => hlive, fun _ => hitem⟩, .inl ?_⟩
    rw [Sys.registry_setNotify]
    exact h.waking (.inl hpc) (by simp only [NotifyFrame.role, hpc])
  | notifySignal j alloc woken hpc hsig =>
    have hlive := (h.notifies j).live (by rw [hpc]; decide)
    refine ⟨(h.signal woken).setNotify _ j ⟨fun _ => hlive, by simp⟩, .inr ?_⟩
    rw [Sys.registry_setNotify, Sys.registry_signal]
    refine (s.registry_at_notify j).quiet ?_
    simp only [NotifyFrame.role, hpc]
  | notifyUnlock j alloc woken hpc =>
    have hrole : (s.notifies j).role
        = ((s.notifies j).item.map (Role.waking (s.notifies j).object)).getD .locked := by
      simp only [NotifyFrame.role, hpc]
    refine ⟨h.setNotify _ j ⟨fun hne => absurd rfl hne, by simp⟩, .inl ?_⟩
    rw [Sys.registry_setNotify]
    refine (s.registry_at_notify j).release ?_ ?_ ?_
    · rw [hrole]
      cases (s.notifies j).item <;> rfl
    · rw [hrole]
      cases (s.notifies j).item <;> exact nofun
    · rw [hrole]
      cases (s.notifies j).item <;> rfl

variable [Fintype κ]

theorem SysInv.step {a : Action ι κ V} (h : SysInv s) (hs : SysStep K cfg s a s') : SysInv s' := by
  obtain ⟨hframes, hreg | hreg⟩ := sysStep_registry h.frames hs
  · exact ⟨hframes, h.registry.step hreg⟩
  · exact ⟨hframes, hreg ▸ h.registry⟩

/-- **The invariant holds in every reachable state.** -/
theorem sysInv_of_reachable (h : (waitSystem ι κ V K cfg).Reachable s) : SysInv s :=
  h.invariant (I := SysInv) (fun _ hi => sysInv_initial hi)
    fun _ _ _ _ hinv hs => hinv.step (sysStep_cases hs)

end System

end AtomicWaits
