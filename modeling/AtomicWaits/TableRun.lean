import AtomicWaits.HashTableMap
import AtomicWaits.ProxyLifetime
import AtomicWaits.Lib.Simulation

/-!
# The threads run the table one operation at a time

What the results about sequences of table operations (`tableSystem`) have to do with the threads: the threads
perform such a sequence. The table operations never look at the state of a proxy, so that it can be erased
(`hashTableFindOrCreate_erase`), and what is left changes only where a thread, under the lock, registers, looks
up, releases or removes a key (`waitSystem_table`).
-/

namespace AtomicWaits

open Lib

variable {X : Type}

/-! ### Erasure -/

/-- The proxies without their state. -/
def ProxyKind.erase (K : ProxyKind X) : ProxyKind Unit where
  initial := ()
  init := K.init
  init_nonpos := K.init_nonpos
  getCounter _ := 0
  enter _ _ := ((), none)
  resume _ _ := ((), none)
  wake _ _ _ := ()
  wakesAtOnce := K.wakesAtOnce
  wakeCount := K.wakeCount
  wakeCount_all := K.wakeCount_all

def ProxyWaiter.erase (w : ProxyWaiter X) : ProxyWaiter Unit := ⟨w.useCount, ()⟩

def ProxyHeap.erase (h : ProxyHeap X) : ProxyHeap Unit where
  cell p := (h.cell p).map ProxyWaiter.erase
  next := h.next
  fault := h.fault

def Store.erase (st : Store X) : Store Unit := ⟨st.table, st.heap.erase⟩

def FindResult.erase (r : FindResult X) : FindResult Unit := ⟨r.item, r.store.erase, r.errno⟩

namespace ProxyHeap

variable (h : ProxyHeap X)

/-- A write to one cell. -/
theorem erase_update (p : ℕ) (w : Option (ProxyWaiter X)) :
    erase { h with cell := Function.update h.cell p w }
      = { h.erase with cell := Function.update h.erase.cell p (w.map ProxyWaiter.erase) } := by
  simp only [erase, mk.injEq, and_true]
  funext q
  by_cases hq : q = p
  · rw [hq, Function.update_self, Function.update_self]
  · rw [Function.update_of_ne hq, Function.update_of_ne hq]

theorem alloc_erase (w : ProxyWaiter X) : (h.alloc w).erase = h.erase.alloc w.erase := by
  have hcell := h.erase_update h.next (some w)
  simp only [erase, mk.injEq, alloc, Option.map_some] at hcell ⊢
  exact ⟨hcell.1, trivial, trivial⟩

theorem modify_erase (p : ℕ) {f : ProxyWaiter X → ProxyWaiter X} {g : ProxyWaiter Unit → ProxyWaiter Unit}
    (hfg : ∀ w, (f w).erase = g w.erase) : (h.modify p f).erase = h.erase.modify p g := by
  have hcell : h.erase.cell p = (h.cell p).map ProxyWaiter.erase := rfl
  unfold modify
  rw [hcell]
  cases h.cell p with
  | none => rfl
  | some w =>
    dsimp only [Option.map_some]
    rw [erase_update, Option.map_some, hfg]

theorem modifyOpt_erase (item : Option ℕ) {f : ProxyWaiter X → ProxyWaiter X}
    {g : ProxyWaiter Unit → ProxyWaiter Unit} (hfg : ∀ w, (f w).erase = g w.erase) :
    (h.modifyOpt item f).erase = h.erase.modifyOpt item g := by
  cases item with
  | none => rfl
  | some p => exact h.modify_erase p hfg

theorem free_erase (p : ℕ) : (h.free p).erase = h.erase.free p := by
  have hcell : h.erase.cell p = (h.cell p).map ProxyWaiter.erase := rfl
  unfold free
  rw [hcell]
  cases h.cell p with
  | none => rfl
  | some w =>
    dsimp only [Option.map_some]
    rw [erase_update, Option.map_none]

theorem destroy_erase (item : Option ℕ) : (h.destroy item).erase = h.erase.destroy item := by
  cases item with
  | none => rfl
  | some p =>
    have hcell : h.erase.cell p = (h.cell p).map ProxyWaiter.erase := rfl
    simp only [destroy]
    rw [hcell]
    cases h.cell p with
    | none => rfl
    | some w =>
      dsimp only [Option.map_some, ProxyWaiter.erase]
      split
      · rfl
      · exact h.free_erase p

/-- A change of the state of a proxy, when it is no wrong access. -/
theorem erase_of_modifyOpt {item : Option ℕ} {f : ProxyWaiter X → ProxyWaiter X}
    (hf : ∀ w, (f w).useCount = w.useCount) (hfault : (h.modifyOpt item f).fault = none) :
    (h.modifyOpt item f).erase = h.erase := by
  cases item with
  | none => cases hfault
  | some p =>
    cases hp : h.cell p with
    | none =>
      simp only [modifyOpt, modify, hp] at hfault
      cases hfault
    | some w =>
      have hw : (some (f w)).map ProxyWaiter.erase = h.erase.cell p := by
        show some (⟨(f w).useCount, ()⟩ : ProxyWaiter Unit) = (h.cell p).map ProxyWaiter.erase
        rw [hp, hf]
        rfl
      rw [modifyOpt, modify_of_cell hp, erase_update, hw, Function.update_eq_self]

end ProxyHeap

/-! ### The operations on erased proxies -/

section Operations

variable (K : ProxyKind X) (E : ErrnoCodes) (st : Store X)

theorem createAt_erase (bs : List HashBucket) (i key : ℕ) (env : AllocEnv) (errno : ℤ) :
    createAt K.erase E st.erase bs i key env errno = (createAt K E st bs i key env errno).erase := by
  have halloc := st.heap.alloc_erase ⟨0, K.initial⟩
  unfold createAt
  cases env.callocProxy with
  | enomem => rfl
  | ok e =>
    dsimp only
    by_cases hinit : K.init env.initProxy ≠ 0
    · rw [if_pos hinit, if_pos (show K.erase.init env.initProxy ≠ 0 from hinit)]
      simp only [FindResult.erase, Store.erase, ProxyHeap.free_erase, halloc]
      rfl
    · rw [if_neg hinit, if_neg (show ¬ K.erase.init env.initProxy ≠ 0 from hinit)]
      have hmod := (st.heap.alloc ⟨0, K.initial⟩).modify_erase st.heap.next
        (f := fun w => { w with useCount := 1 }) (g := fun w => { w with useCount := 1 }) fun _ => rfl
      simp only [FindResult.erase, Store.erase, hmod, halloc]
      rfl

theorem findOrCreateLoop_erase (key : ℕ) (incr : Bool) (env : AllocEnv) (passes : ℕ) (errno : ℤ) :
    findOrCreateLoop K.erase E key incr env passes st.erase errno
      = (findOrCreateLoop K E key incr env passes st errno).map FindResult.erase := by
  induction passes generalizing st errno with
  | zero => rfl
  | succ passes ih =>
    have hheap : ∀ proxy, (if incr = true then st.heap.erase.modifyOpt proxy fun w =>
          { w with useCount := w.useCount + 1 } else st.heap.erase)
        = ProxyHeap.erase (if incr = true then st.heap.modifyOpt proxy fun w =>
          { w with useCount := w.useCount + 1 } else st.heap) := by
      intro proxy
      split
      · exact (st.heap.modifyOpt_erase proxy fun _ => rfl).symm
      · rfl
    simp only [findOrCreateLoop, Store.erase]
    by_cases hload : incr = true ∧ st.table.bucketCount >>> 2 * 3 ≤ st.table.count
    · rw [if_pos hload]
      refine (if_pos hload).trans ?_
      cases hashTableGrow E st.table env errno with
      | mk table errno' =>
        cases table with
        | none => rfl
        | some table => exact ih { st with table := table } errno'
    · rw [if_neg hload]
      refine (if_neg hload).trans ?_
      cases findProbe (st.table.buckets.getD []) st.table.bucketCount key with
      | inl e =>
        cases e with
        | found idx =>
          dsimp only
          rw [hheap]
          rfl
        | empty idx deleted =>
          dsimp only
          cases incr with
          | false => rfl
          | true => exact congrArg some (createAt_erase K E st _ _ key env errno)
      | inr u =>
        cases hashTableGrow E st.table env errno with
        | mk table errno' =>
          cases table with
          | none => rfl
          | some table => exact ih { st with table := table } errno'

/-- **The table does not look at the state of its proxies.** -/
theorem hashTableFindOrCreate_erase (object : ℕ) (incr : Bool) (env : AllocEnv) (errno : ℤ) :
    hashTableFindOrCreate K.erase E st.erase object incr env errno
      = (hashTableFindOrCreate K E st object incr env errno).map FindResult.erase := by
  unfold hashTableFindOrCreate
  cases hb : st.table.buckets with
  | some bs =>
    rw [show st.erase.table.buckets = some bs from hb]
    exact findOrCreateLoop_erase K E st object incr env _ errno
  | none =>
    rw [show st.erase.table.buckets = none from hb]
    cases env.callocBuckets HASH_BUCKETS_INITIAL with
    | enomem => rfl
    | ok e => exact findOrCreateLoop_erase K E ⟨_, st.heap⟩ object incr env _ _

theorem hashTableRemoveItem_erase (object : ℕ) :
    hashTableRemoveItem st.erase object = (hashTableRemoveItem st object).erase := by
  unfold hashTableRemoveItem
  cases hb : st.table.buckets with
  | none => rw [show st.erase.table.buckets = none from hb]
  | some bs =>
    rw [show st.erase.table.buckets = some bs from hb]
    dsimp only
    rw [show st.erase.table.bucketCount = st.table.bucketCount from rfl]
    cases removeProbe bs st.table.bucketCount object with
    | inr u => rfl
    | inl idx =>
      simp only [Store.erase, ProxyHeap.destroy_erase]

theorem proxyMap_erase : proxyMap st.erase = proxyMap st := by
  funext key
  show (st.table.entry key).bind (fun p =>
    ((st.heap.cell p).map ProxyWaiter.erase).map fun w => (p, w.useCount)) = _
  simp only [Option.map_map]
  rfl

end Operations

/-! ### The threads -/

section System

variable {ι κ V : Type} {K : ProxyKind X} {cfg : Platform} {s s' : Sys ι κ V X}

theorem lookup_next {st : Store X} {key : ℕ} {env : AllocEnv} {errno : ℤ} {incr : Bool} {r : FindResult X}
    (hlive : 2 ≤ key) (hr : hashTableFindOrCreate K cfg.errno st key incr env errno = some r) :
    (tableSystem K.erase cfg.errno).Next st.erase r.store.erase := by
  have herase := hashTableFindOrCreate_erase K cfg.errno st key incr env errno
  rw [hr, Option.map_some] at herase
  cases incr with
  | true =>
    refine ⟨.register key env errno, hlive, r.item, ?_⟩
    rw [tableStep, herase]
    rfl
  | false =>
    refine ⟨.lookup key env errno, hlive, r.item, ?_⟩
    rw [tableStep, herase]
    rfl

theorem modify_store {sh : Shared V X} {item : Option ℕ} {g : ProxyWaiter X → ProxyWaiter X}
    (hg : ∀ w, (g w).useCount = w.useCount) (hfault : (sh.modify item g).store.heap.fault = none) :
    (sh.modify item g).store.erase = sh.store.erase := by
  have hheap := sh.store.heap.erase_of_modifyOpt hg hfault
  show Store.mk sh.store.table (sh.store.heap.modifyOpt item g).erase = _
  rw [hheap]
  rfl

variable [Fintype ι] [Fintype κ]

/-- **An access to the table is one of its operations.** -/
theorem access_table [DecidableEq V] {i : ι} {f : WaitFrame V} {env : StepEnv} {ev : WaitEvent V}
    {sh : Shared V X} (hinv : SysInv s) (hi : s.waits i = .running f)
    (hacc : s.shared.access K cfg f env = some (ev, sh)) (hfault : sh.store.heap.fault = none) :
    (tableSystem K.erase cfg.errno).Next s.shared.store.erase sh.store.erase ∨
      sh.store.erase = s.shared.store.erase := by
  have hwf := hinv.frames.running hi
  simp only [Shared.access] at hacc
  cases hpc : f.pc with
  | findOrCreate =>
    rw [hpc] at hacc
    obtain ⟨r, hr, heq⟩ := Option.map_eq_some_iff.mp hacc
    cases heq
    exact .inl (lookup_next hwf.live hr)
  | decUseCount =>
    rw [hpc] at hacc
    cases hacc
    obtain ⟨p, hp⟩ := hwf.item_some (by rw [hpc]; rfl)
    have hreg : (s.registry.role (.inl i)).registered = some (f.object, p) := by
      show (s.waits i).role.registered = _
      rw [hi]
      show f.role.registered = _
      simp only [WaitFrame.role, hpc]
      rw [WaitFrame.inside_of_item hp]
      rfl
    have he := hinv.registry.registered_entry hreg
    obtain ⟨w, hw, hcount⟩ := hinv.registry.entry_cell he
    have hpos := registrations_pos hreg
    have hmap : proxyMap s.shared.store.erase f.object = some (p, w.useCount) := by
      rw [proxyMap_erase]
      exact proxyMap_of_entry he hw
    refine .inl ⟨.unuse f.object, ⟨p, w.useCount, hmap, by omega⟩, none, ?_⟩
    have hitem : s.shared.store.erase.table.entry f.object = f.item := by
      rw [hp]
      exact he
    have hmod := s.shared.store.heap.modifyOpt_erase f.item (f := fun w => { w with useCount := w.useCount - 1 })
      (g := fun w => { w with useCount := w.useCount - 1 }) fun _ => rfl
    rw [tableStep, hitem]
    exact congrArg (fun h => some (none, Store.mk s.shared.store.table h)) hmod.symm
  | removeItem =>
    rw [hpc] at hacc
    cases hacc
    obtain ⟨p, w, hp, he, hw, huse⟩ := hinv.lifetime.removed i f hi hpc
    have hmap : proxyMap s.shared.store.erase f.object = some (p, w.useCount) := by
      rw [proxyMap_erase]
      exact proxyMap_of_entry he hw
    refine .inl ⟨.remove f.object, ⟨p, by rw [hmap, huse]⟩, none, ?_⟩
    rw [tableStep, hashTableRemoveItem_erase]
  | getCounter | getCounterAgain =>
    rw [hpc] at hacc
    cases hacc
    exact .inr (modify_store (fun _ => rfl) hfault)
  | lockForRegister | lockForRelease =>
    rw [hpc] at hacc
    dsimp only at hacc
    split at hacc
    · cases hacc
    · cases hacc
      exact .inr rfl
  | park | returned =>
    rw [hpc] at hacc
    cases hacc
  | _ =>
    rw [hpc] at hacc
    cases hacc
    exact .inr rfl

variable [DecidableEq ι] [DecidableEq κ] [DecidableEq V]

/-- **Each step of the threads is one operation of the table, or none.** -/
theorem SysStep.table {a : Action ι κ V} (hs : SysStep K cfg s a s') (hinv : SysInv s) (hinv' : SysInv s') :
    (tableSystem K.erase cfg.errno).Next s.shared.store.erase s'.shared.store.erase ∨
      s'.shared.store.erase = s.shared.store.erase := by
  have hfault : s'.shared.store.heap.fault = none := hinv'.registry.wf.fault
  cases hs with
  | wait i env f f' ev sh hi hacc hgen => exact access_table hinv hi hacc hfault
  | notifyFind j alloc woken r hpc hr =>
    have hlive := (hinv.frames.notifies j).live (by rw [hpc]; decide)
    exact .inl (lookup_next hlive hr)
  | parkSleeps | parkReturns | parkFails | resumeSleeps | resumeReturns | notifyWakeAtOnce | notifyWake =>
    exact .inr (modify_store (fun _ => rfl) hfault)
  | store | callWait | unblock | callNotify | notifyLock | notifySignal | notifyUnlock => exact .inr rfl

end System

end AtomicWaits
