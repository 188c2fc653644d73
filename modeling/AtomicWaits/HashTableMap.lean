import AtomicWaits.HashTableOps
import AtomicWaits.Lib.Lts

/-!
# The proxy table is a finite map

`ProxyMap` is what the table is for: it gives a registered object its proxy and its use count. The
operations on the store are related to the operations on that map by the abstraction `proxyMap`.

* `tableSystem`: any sequence of registrations, lookups, `--item->use_count` and removals of unused
  items, from the zero-initialised table, with any outcome of the allocator.
* `tableSystem_storeWf`: every store such a sequence reaches is well formed.
* `tableSystem_refines_map`: every operation returns, with the result and the effect the map
  operation has.
-/

namespace AtomicWaits

open Lib

/-! ### The abstract map -/

/-- The proxy and the use count of each registered object. -/
abbrev ProxyMap := ℕ → Option (ℕ × ℤ)

/-- The operations the callers of the table perform. -/
inductive TableOp
  | register (key : ℕ) (env : AllocEnv) (errno : ℤ)
  | lookup (key : ℕ) (env : AllocEnv) (errno : ℤ)
  | unuse (key : ℕ)
  | remove (key : ℕ)

/-- What an operation returns and does on the map. A registration may fail, and then it does
nothing. -/
inductive MapStep (m : ProxyMap) : TableOp → Option ℕ → ProxyMap → Prop
  | lookup (key : ℕ) (env : AllocEnv) (errno : ℤ) :
      MapStep m (.lookup key env errno) ((m key).map Prod.fst) m
  | registerFailed (key : ℕ) (env : AllocEnv) (errno : ℤ) :
      MapStep m (.register key env errno) none m
  | registerJoined (key : ℕ) (env : AllocEnv) (errno : ℤ) (p : ℕ) (u : ℤ) :
      m key = some (p, u) →
      MapStep m (.register key env errno) (some p) (Function.update m key (some (p, u + 1)))
  | registerCreated (key : ℕ) (env : AllocEnv) (errno : ℤ) (p : ℕ) :
      m key = none → (∀ k q u, m k = some (q, u) → q ≠ p) →
      MapStep m (.register key env errno) (some p) (Function.update m key (some (p, 1)))
  | unuse (key p : ℕ) (u : ℤ) :
      m key = some (p, u) →
      MapStep m (.unuse key) none (Function.update m key (some (p, u - 1)))
  | remove (key p : ℕ) :
      m key = some (p, 0) → MapStep m (.remove key) none (Function.update m key none)

/-- The object an operation is about. -/
def TableOp.key : TableOp → ℕ
  | .register key _ _ => key
  | .lookup key _ _ => key
  | .unuse key => key
  | .remove key => key

/-- **An operation leaves every other key alone.** -/
theorem MapStep.frame {m m' : ProxyMap} {op : TableOp} {out : Option ℕ} (h : MapStep m op out m')
    {k : ℕ} (hk : k ≠ op.key) : m' k = m k := by
  cases h with
  | lookup key env errno => rfl
  | registerFailed key env errno => rfl
  | registerJoined key env errno p u _ => exact Function.update_of_ne hk _ _
  | registerCreated key env errno p _ _ => exact Function.update_of_ne hk _ _
  | unuse key p u _ => exact Function.update_of_ne hk _ _
  | remove key p _ => exact Function.update_of_ne hk _ _

/-! ### The abstraction -/

variable {X : Type}

/-- The map a store stands for. -/
def proxyMap (st : Store X) : ProxyMap := fun key =>
  (st.table.entry key).bind fun p => (st.heap.cell p).map fun w => (p, w.useCount)

theorem proxyMap_zero : proxyMap (Store.zero : Store X) = fun _ => none := by
  funext key
  have he : (Store.zero : Store X).table.entry = fun _ => none := HashTable.entry_of_none rfl
  rw [proxyMap, he, Option.bind_none]

theorem proxyMap_of_entry {st : Store X} {key p : ℕ} {w : ProxyWaiter X}
    (he : st.table.entry key = some p) (hw : st.heap.cell p = some w) :
    proxyMap st key = some (p, w.useCount) := by
  rw [proxyMap, he, Option.bind_some, hw, Option.map_some]

theorem proxyMap_of_none {st : Store X} {key : ℕ} (he : st.table.entry key = none) :
    proxyMap st key = none := by
  rw [proxyMap, he, Option.bind_none]

theorem entry_of_proxyMap {st : Store X} {key p : ℕ} {u : ℤ} (h : proxyMap st key = some (p, u)) :
    st.table.entry key = some p ∧ ∃ w, st.heap.cell p = some w ∧ w.useCount = u := by
  obtain ⟨q, hq, hmap⟩ := Option.bind_eq_some_iff.mp h
  obtain ⟨w, hw, hpair⟩ := Option.map_eq_some_iff.mp hmap
  obtain ⟨rfl, rfl⟩ := Prod.mk.inj hpair
  exact ⟨hq, w, hw, rfl⟩

theorem StoreWf.proxyMap_map_fst {st : Store X} (hst : StoreWf st) (key : ℕ) :
    (proxyMap st key).map Prod.fst = st.table.entry key := by
  cases he : st.table.entry key with
  | none => rw [proxyMap_of_none he, Option.map_none]
  | some p =>
    obtain ⟨w, hw⟩ := Option.isSome_iff_exists.mp (hst.alloc key p he)
    rw [proxyMap_of_entry he hw, Option.map_some]

theorem proxyMap_congr {st st' : Store X} (he : st'.table.entry = st.table.entry)
    (hc : st'.heap.cell = st.heap.cell) : proxyMap st' = proxyMap st := by
  funext key
  rw [proxyMap, proxyMap, he, hc]

/-- One proxy changes: no other key has it. -/
theorem StoreWf.proxyMap_setCell {st : Store X} (hst : StoreWf st) (st' : Store X) {key p : ℕ}
    {w : ProxyWaiter X} (hp : st.table.entry key = some p)
    (he : st'.table.entry = st.table.entry)
    (hc : st'.heap.cell = Function.update st.heap.cell p (some w)) :
    proxyMap st' = Function.update (proxyMap st) key (some (p, w.useCount)) := by
  funext k
  by_cases hk : k = key
  · subst hk
    rw [Function.update_self]
    exact proxyMap_of_entry (he ▸ hp) (by rw [hc, Function.update_self])
  · rw [Function.update_of_ne hk, proxyMap, proxyMap, he, hc]
    cases hq : st.table.entry k with
    | none => rfl
    | some q =>
      have hqp : q ≠ p := fun heq => hk (hst.inj k key p (heq ▸ hq) hp)
      rw [Option.bind_some, Option.bind_some, Function.update_of_ne hqp]

/-- A key is entered with a proxy that was free. -/
theorem StoreWf.proxyMap_insert {st st' : Store X} (hst : StoreWf st) {key p : ℕ}
    {w : ProxyWaiter X} (hfree : st.heap.cell p = none)
    (he : st'.table.entry = Function.update st.table.entry key (some p))
    (hc : st'.heap.cell = Function.update st.heap.cell p (some w)) :
    proxyMap st' = Function.update (proxyMap st) key (some (p, w.useCount)) := by
  funext k
  by_cases hk : k = key
  · subst hk
    rw [Function.update_self]
    exact proxyMap_of_entry (by rw [he, Function.update_self]) (by rw [hc, Function.update_self])
  · rw [Function.update_of_ne hk, proxyMap, proxyMap, he, hc, Function.update_of_ne hk]
    cases hq : st.table.entry k with
    | none => rfl
    | some q =>
      have hqp : q ≠ p := fun heq => by
        have := hst.alloc k q hq
        rw [heq, hfree] at this
        cases this
      rw [Option.bind_some, Option.bind_some, Function.update_of_ne hqp]

theorem StoreWf.proxyMap_delete {st st' : Store X} (hst : StoreWf st) {key p : ℕ}
    (hp : st.table.entry key = some p) (h : RemoveSpec st key p st') :
    proxyMap st' = Function.update (proxyMap st) key none := by
  funext k
  by_cases hk : k = key
  · subst hk
    rw [Function.update_self]
    exact proxyMap_of_none (by rw [h.entry, Function.update_self])
  · rw [Function.update_of_ne hk, proxyMap, proxyMap, h.entry, h.cell, Function.update_of_ne hk]
    cases hq : st.table.entry k with
    | none => rfl
    | some q =>
      have hqp : q ≠ p := fun heq => hk (hst.inj k key p (heq ▸ hq) hp)
      rw [Option.bind_some, Option.bind_some, Function.update_of_ne hqp]

/-! ### The system of table operations -/

variable (K : ProxyKind X) (E : ErrnoCodes)

/-- When a caller may perform an operation: keys are object addresses, which are neither null nor
the tombstone, a release undoes a registration, and only an unused item is removed. -/
def TableOp.Allowed (m : ProxyMap) : TableOp → Prop
  | .register key _ _ => 2 ≤ key
  | .lookup key _ _ => 2 ≤ key
  | .unuse key => ∃ p u, m key = some (p, u) ∧ 0 < u
  | .remove key => ∃ p, m key = some (p, 0)

/-- An operation as the code performs it: the pointer returned and the store left. -/
def tableStep (st : Store X) : TableOp → Option (Option ℕ × Store X)
  | .register key env errno =>
    (hashTableFindOrCreate K E st key true env errno).map fun r => (r.item, r.store)
  | .lookup key env errno =>
    (hashTableFindOrCreate K E st key false env errno).map fun r => (r.item, r.store)
  | .unuse key =>
    let heap := st.heap.modifyOpt (st.table.entry key) fun w =>
      { w with useCount := w.useCount - 1 }
    some (none, ⟨st.table, heap⟩)
  | .remove key => some (none, hashTableRemoveItem st key)

/-- Every sequence of allowed operations on the zero-initialised table. -/
def tableSystem : Lts (Store X) TableOp where
  init st := st = Store.zero
  step st op st' := op.Allowed (proxyMap st) ∧ ∃ out, tableStep K E st op = some (out, st')

variable {K E}

theorem RegisterSpec.mapStep {st : Store X} (hst : StoreWf st) {key : ℕ} {env : AllocEnv}
    {r : FindResult X} (h : RegisterSpec K E st key env r) (errno : ℤ) :
    MapStep (proxyMap st) (.register key env errno) r.item (proxyMap r.store) := by
  cases h with
  | failed st' errno' _ he hc _ =>
    rw [proxyMap_congr he hc]
    exact .registerFailed key env errno
  | joined p w st' errno' hp hw _ he hc =>
    rw [hst.proxyMap_setCell st' hp he hc]
    exact .registerJoined key env errno p w.useCount (proxyMap_of_entry hp hw)
  | created st' errno' hnone _ he hc =>
    have hfree := hst.fresh st.heap.next le_rfl
    rw [hst.proxyMap_insert hfree he hc]
    refine .registerCreated key env errno st.heap.next (proxyMap_of_none hnone) ?_
    intro k q u hq heq
    obtain ⟨_, w, hw, _⟩ := entry_of_proxyMap hq
    rw [heq, hfree] at hw
    cases hw

theorem RegisterSpec.wf {st : Store X} {key : ℕ} {env : AllocEnv} {r : FindResult X}
    (h : RegisterSpec K E st key env r) : StoreWf r.store := by
  cases h with
  | failed _ _ hwf _ _ _ => exact hwf
  | joined _ _ _ _ _ _ hwf _ _ => exact hwf
  | created _ _ _ hwf _ _ => exact hwf

theorem tableStep_unuse {st : Store X} {key p : ℕ} {w : ProxyWaiter X}
    (hp : st.table.entry key = some p) (hw : st.heap.cell p = some w) :
    tableStep K E st (.unuse key) = some (none, ⟨st.table, { st.heap with
      cell := Function.update st.heap.cell p (some { w with useCount := w.useCount - 1 }) }⟩) := by
  have hmod := ProxyHeap.modify_of_cell hw fun w => { w with useCount := w.useCount - 1 }
  rw [tableStep, hp]
  exact congrArg (fun h => some (none, Store.mk st.table h)) hmod

/-- **One operation of the table is one operation of the map.** -/
theorem tableStep_mapStep {st : Store X} (hst : StoreWf st) {op : TableOp}
    (hop : op.Allowed (proxyMap st)) :
    ∃ out st', tableStep K E st op = some (out, st') ∧ StoreWf st' ∧
      MapStep (proxyMap st) op out (proxyMap st') := by
  cases op with
  | register key env errno =>
    obtain ⟨r, hr, hcase⟩ := hashTableFindOrCreate_cases K E env errno hst.table hop true
    have hspec := hcase.register hst hop
    exact ⟨r.item, r.store, by rw [tableStep, hr, Option.map_some], hspec.wf,
      hspec.mapStep hst errno⟩
  | lookup key env errno =>
    obtain ⟨r, hr, hcase⟩ := hashTableFindOrCreate_cases K E env errno hst.table hop false
    have hspec := hcase.lookup hst
    refine ⟨r.item, r.store, by rw [tableStep, hr, Option.map_some], hspec.wf, ?_⟩
    rw [proxyMap_congr hspec.entry (by rw [hspec.heap]), hspec.item, ← hst.proxyMap_map_fst]
    exact .lookup key env errno
  | unuse key =>
    obtain ⟨p, u, hm, _⟩ := hop
    obtain ⟨hp, w, hw, rfl⟩ := entry_of_proxyMap hm
    let heap := { st.heap with
      cell := Function.update st.heap.cell p (some { w with useCount := w.useCount - 1 }) }
    have hmap := hst.proxyMap_setCell ⟨st.table, heap⟩ hp rfl rfl
    refine ⟨none, ⟨st.table, heap⟩, tableStep_unuse hp hw, hst.setCell hw, ?_⟩
    rw [hmap]
    exact .unuse key p w.useCount hm
  | remove key =>
    obtain ⟨p, hm⟩ := hop
    obtain ⟨hp, w, hw, huse⟩ := entry_of_proxyMap hm
    have hspec := hashTableRemoveItem_spec hst hp hw huse
    refine ⟨none, _, rfl, hspec.wf, ?_⟩
    rw [hst.proxyMap_delete hp hspec]
    exact .remove key p hm

theorem tableSystem_storeWf {st : Store X} (h : (tableSystem K E).Reachable st) : StoreWf st := by
  refine h.invariant ?_ ?_
  · rintro _ rfl
    exact storeWf_zero
  · rintro s op s' _ hs ⟨hop, out, hstep⟩
    obtain ⟨out', s'', hstep', hwf, _⟩ := tableStep_mapStep (K := K) (E := E) hs hop
    obtain ⟨_, rfl⟩ := Prod.mk.inj (Option.some.inj (hstep.symm.trans hstep'))
    exact hwf

variable (K E) in
/-- **The hash table implements a finite map.** The map is empty at first, and in every store a
sequence of operations reaches, every allowed operation returns, with the result and the effect
the map operation has. -/
theorem tableSystem_refines_map :
    proxyMap (Store.zero : Store X) = (fun _ => none) ∧
    ∀ st, (tableSystem K E).Reachable st → ∀ op : TableOp, op.Allowed (proxyMap st) →
      ∃ out st', tableStep K E st op = some (out, st') ∧
        MapStep (proxyMap st) op out (proxyMap st') := by
  refine ⟨proxyMap_zero, ?_⟩
  intro st h op hop
  obtain ⟨out, st', hstep, _, hmap⟩ := tableStep_mapStep (tableSystem_storeWf h) hop
  exact ⟨out, st', hstep, hmap⟩

/-- The first registration of the object at address 64. -/
theorem tableSystem_refines_map_first :
    ∃ out st', tableStep (counterProxy (.lp64 .linux)) linuxErrno Store.zero
        (.register 64 .plenty 0) = some (out, st') ∧
      MapStep (proxyMap (Store.zero : Store (BitVec 32))) (.register 64 .plenty 0) out
        (proxyMap st') :=
  (tableSystem_refines_map (counterProxy (.lp64 .linux)) linuxErrno).2 Store.zero
    (Lts.Reachable.of_init rfl) (.register 64 .plenty 0) (by show 2 ≤ 64; decide)

end AtomicWaits
