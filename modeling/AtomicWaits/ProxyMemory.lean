import AtomicWaits.HashTableCapacity
import AtomicWaits.ProxyLifetime
import AtomicWaits.ThreadView

/-!
# How much memory the proxies take

Whatever the threads do, a proxy is allocated as long as its object has an entry and no longer, `count` is the
number of proxies, and each of them belongs to a wait that is in progress (`proxies_bounded`). So the number of
threads bounds the load of the table, and with memory at hand a registration fails for tombstones alone
(`registration_succeeds_iff`).
-/

namespace AtomicWaits

open Lib

variable {ι κ V X : Type} {K : ProxyKind X} {cfg : Platform} {s : Sys ι κ V X}

/-- The object whose proxy the thread keeps alive. -/
def Role.keeps : Role → Option ℕ
  | .counted o _ | .countedLocked o _ | .removing o _ => some o
  | .apart | .locked | .waking _ _ => none

theorem Role.keeps_of_registered {r : Role} {o p : ℕ} (h : r.registered = some (o, p)) :
    r.keeps = some o := by
  cases r with
  | counted | countedLocked =>
    cases h
    rfl
  | _ => cases h

theorem NotifyFrame.keeps (f : NotifyFrame) : f.role.keeps = none := by
  unfold role
  cases f.pc <;> cases f.item <;> rfl

/-- What the memory of the proxies comes to. -/
structure ProxyMemory [Fintype ι] (s : Sys ι κ V X) : Prop where
  allocated : ∀ p, (s.shared.store.heap.cell p).isSome = true ↔
    ∃ object, s.shared.store.table.entry object = some p
  cells : {p | (s.shared.store.heap.cell p).isSome = true}.ncard = s.shared.store.table.count
  keys : (registeredKeys s.shared.store).ncard = s.shared.store.table.count
  threads : s.shared.store.table.count
    ≤ (Finset.univ.filter fun i => (s.waits i).role.keeps ≠ none).card

/-- The cells are the values of the entries, of which no two are the same. -/
theorem StoreWf.ncard_cells {st : Store X} (h : StoreWf st) :
    {p | (st.heap.cell p).isSome = true}.ncard = st.table.count := by
  rw [← h.ncard_registeredKeys]
  have hinj : Set.InjOn (fun key => (st.table.entry key).getD 0) (registeredKeys st) := by
    intro k₁ h₁ k₂ h₂ heq
    obtain ⟨p₁, hp₁⟩ := Option.ne_none_iff_exists'.mp h₁
    obtain ⟨p₂, hp₂⟩ := Option.ne_none_iff_exists'.mp h₂
    have heq' : p₁ = p₂ := by simpa [hp₁, hp₂] using heq
    exact h.inj k₁ k₂ p₁ hp₁ (heq' ▸ hp₂)
  rw [← hinj.ncard_image]
  congr 1
  ext p
  constructor
  · intro hp
    obtain ⟨key, hkey⟩ := h.owned p hp
    exact ⟨key, by simp [registeredKeys, hkey], by simp [hkey]⟩
  · intro hp
    obtain ⟨key, hne, hval⟩ := hp
    obtain ⟨q, hq⟩ := Option.ne_none_iff_exists'.mp hne
    have hqp : q = p := by simpa [hq] using hval
    exact hqp ▸ h.alloc key q hq

section Threads

variable [Fintype ι] [Fintype κ]

/-- Every entry is kept by a wait in progress. -/
theorem SysInv.entry_kept (h : SysInv s) {object : ℕ}
    (hne : s.shared.store.table.entry object ≠ none) : ∃ i, (s.waits i).role.keeps = some object := by
  obtain ⟨p, hp⟩ := Option.ne_none_iff_exists'.mp hne
  have hrole : ∃ a, (s.registry.role a).keeps = some object := by
    rcases h.registry.kept object p hp with hpos | ⟨a, ha⟩
    · obtain ⟨a, ha⟩ := exists_registered hpos
      exact ⟨a, Role.keeps_of_registered ha⟩
    · exact ⟨a, by rw [ha]; rfl⟩
  obtain ⟨a, ha⟩ := hrole
  cases a with
  | inl i => exact ⟨i, ha⟩
  | inr j =>
    have hnone : (s.notifies j).role.keeps = some object := ha
    rw [NotifyFrame.keeps] at hnone
    cases hnone

theorem SysInv.count_le (h : SysInv s) :
    s.shared.store.table.count ≤ (Finset.univ.filter fun i => (s.waits i).role.keeps ≠ none).card := by
  have hkeys := h.registry.wf.ncard_registeredKeys
  have hsub : registeredKeys s.shared.store ⊆
      ((Finset.univ.filter fun i => (s.waits i).role.keeps ≠ none).image fun i =>
        ((s.waits i).role.keeps).getD 0 : Finset ℕ) := by
    intro object hne
    obtain ⟨i, hi⟩ := h.entry_kept hne
    refine Finset.mem_coe.mpr (Finset.mem_image.mpr ⟨i, ?_, by rw [hi]; rfl⟩)
    exact Finset.mem_filter.mpr ⟨Finset.mem_univ i, by rw [hi]; simp⟩
  calc s.shared.store.table.count = (registeredKeys s.shared.store).ncard := hkeys.symm
    _ ≤ _ := Set.ncard_le_ncard hsub (Finset.finite_toSet _)
    _ = _ := Set.ncard_coe_finset _
    _ ≤ _ := Finset.card_image_le

theorem SysInv.memory (h : SysInv s) : ProxyMemory s where
  allocated p := by
    constructor
    · intro hp
      exact h.registry.wf.owned p hp
    · intro hp
      obtain ⟨object, he⟩ := hp
      exact h.registry.wf.alloc object p he
  cells := h.registry.wf.ncard_cells
  keys := h.registry.wf.ncard_registeredKeys
  threads := h.count_le

variable [DecidableEq ι] [DecidableEq κ] [DecidableEq V]

/-- **The proxies take no more memory than the waits in progress need**, in every reachable state. -/
theorem proxies_bounded (h : (waitSystem ι κ V K cfg).Reachable s) : ProxyMemory s :=
  (sysInv_of_reachable h).memory

/-- One wait, parked on the only proxy. -/
theorem proxies_bounded_parked :
    ∃ s : Sys (Fin 1) (Fin 1) ℕ (BitVec 32), (s.waits 0).blockedOn (some 0) = true ∧ ProxyMemory s := by
  have hrun : (Lts.exec (sysStep (counterProxy (.lp64 .linux)) (.lp64 .linux))
      (Sys.start fun _ => 0) (callToPark 0 64 0)).any
        (fun s : Sys (Fin 1) (Fin 1) ℕ (BitVec 32) => (s.waits 0).blockedOn (some 0)) = true := by
    decide +kernel
  obtain ⟨s, hs, hpark⟩ := (Option.any_eq_true _ _).mp hrun
  exact ⟨s, hpark, proxies_bounded (reachable_of_exec hs)⟩

variable {i : ι} {f : WaitFrame V} {env : StepEnv}

/-- **With memory at hand a registration fails for tombstones alone**: fewer threads than three quarters of the
largest array never fill it with keys. -/
theorem registration_succeeds_iff (h : (waitSystem ι κ V K cfg).Reachable s)
    (hcard : 4 * Fintype.card ι < 3 * HASH_BUCKETS_MAX) (hi : s.waits i = .running f)
    (hpc : f.pc = .findOrCreate) (henv : env.alloc.Succeeds K) :
    (∃ s' p, sysStep K cfg s (.wait i env) = some s' ∧ (s'.waits i).item = some p) ↔
      ¬ Clogged s.shared.store f.object := by
  have hinv := sysInv_of_reachable h
  have hlive := (hinv.frames.running hi).live
  have hcount : 4 * s.shared.store.table.count < 3 * HASH_BUCKETS_MAX := by
    have hle := hinv.count_le
    have hall := Finset.card_le_univ (Finset.univ.filter fun i => (s.waits i).role.keeps ≠ none)
    omega
  obtain ⟨r, hr, hcase⟩ := hashTableFindOrCreate_cases K cfg.errno env.alloc f.errno
    hinv.registry.wf.table hlive true
  -- the step, by what the table returns
  have hstep : sysStep K cfg s (.wait i env)
      = some ({ s with shared := { s.shared with store := r.store } }.setWait i (.running
        { f with item := r.item, errno := r.errno, pc := if r.item = none then .unlockFailed else .getCounter
        })) := by
    have hacc : s.shared.access K cfg f env
        = some (.findOrCreate r.item r.errno, { s.shared with store := r.store }) := by
      simp only [Shared.access, hpc]
      exact congrArg _ hr
    simp only [sysStep, hi, hacc, Option.bind_some, atomicWaitGeneric, hpc, Option.map_some]
  rw [← hcase.item_isSome_iff hcount henv, Option.isSome_iff_exists]
  constructor
  · intro hex
    obtain ⟨s', p, hs', hp⟩ := hex
    rw [hstep] at hs'
    refine ⟨p, ?_⟩
    rw [← hp, ← Option.some.inj hs']
    show r.item = (Function.update s.waits i _ i).item
    rw [Function.update_self]
    rfl
  · intro hex
    obtain ⟨p, hp⟩ := hex
    refine ⟨_, p, hstep, ?_⟩
    rw [← hp]
    show (Function.update s.waits i _ i).item = r.item
    rw [Function.update_self]
    rfl

end Threads

/-- The first registration of all. -/
theorem registration_succeeds_iff_first :
    ∃ (s : Sys (Fin 1) (Fin 1) ℕ (BitVec 32)) (f : WaitFrame ℕ), f.pc = .findOrCreate ∧
      ((∃ s' p, sysStep (counterProxy (.lp64 .linux)) (.lp64 .linux) s (.wait 0 .quiet) = some s' ∧
        (s'.waits 0).item = some p) ↔ ¬ Clogged s.shared.store f.object) := by
  have hrun : (Lts.exec (sysStep (counterProxy (.lp64 .linux)) (.lp64 .linux)) (Sys.start fun _ => 0)
      ((callToPark 0 64 0).take 3)).any (fun s : Sys (Fin 1) (Fin 1) ℕ (BitVec 32) =>
        (s.waits 0).frame.any fun f => f.pc = .findOrCreate) = true := by
    decide +kernel
  obtain ⟨s, hs, hfind⟩ := (Option.any_eq_true _ _).mp hrun
  obtain ⟨f, hf, hpc⟩ := (Option.any_eq_true _ _).mp hfind
  have hpc' : f.pc = .findOrCreate := of_decide_eq_true hpc
  have hr := reachable_of_exec hs
  have hi : s.waits 0 = .running f := by
    rcases (sysInv_of_reachable hr).frames.running_or_park hf with hrun | hpark
    · exact hrun
    · rw [hpc'] at hpark
      cases hpark
  exact ⟨s, f, hpc', registration_succeeds_iff hr (by decide) hi hpc'
    ⟨fun _ => ⟨none, rfl⟩, ⟨none, rfl⟩, rfl⟩⟩

end AtomicWaits
