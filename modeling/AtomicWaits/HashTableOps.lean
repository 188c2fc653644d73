import AtomicWaits.HashTableGrow

/-!
# What the table operations do to a store

`StoreWf` is the invariant of a table together with the heap of its proxies: every registered key
has an allocated proxy of its own, every allocated proxy is registered, and no access so far was
wrong.

* `hashTableFindOrCreate_cases`: every call returns, after at most one growth of the array.
* `LookupSpec`, `RegisterSpec`, `RemoveSpec`: what a call does to the entries and to the heap,
  whatever rehashing went on meanwhile. Callers use these and never unfold the code.
-/

namespace AtomicWaits

open Lib

/-- The proxy registered for `key` in the table. -/
def HashTable.entry (t : HashTable) (key : ℕ) : Option ℕ :=
  AtomicWaits.entry (t.buckets.getD []) key

variable {X : Type}

structure StoreWf (st : Store X) : Prop where
  table : TableWf st.table
  fault : st.heap.fault = none
  fresh : ∀ p, st.heap.next ≤ p → st.heap.cell p = none
  alloc : ∀ key p, st.table.entry key = some p → (st.heap.cell p).isSome
  owned : ∀ p, (st.heap.cell p).isSome → ∃ key, st.table.entry key = some p
  inj : ∀ k₁ k₂ p, st.table.entry k₁ = some p → st.table.entry k₂ = some p → k₁ = k₂

theorem ArrayWf.entry {t : HashTable} {bs : List HashBucket} (h : ArrayWf t bs) :
    t.entry = AtomicWaits.entry bs := by
  funext key
  rw [HashTable.entry, h.buckets, Option.getD_some]

theorem ArrayWf.tableWf {t : HashTable} {bs : List HashBucket} (h : ArrayWf t bs) : TableWf t := by
  unfold TableWf
  rw [h.buckets]
  exact h

theorem TableWf.array {t : HashTable} (h : TableWf t) {bs : List HashBucket}
    (hb : t.buckets = some bs) : ArrayWf t bs := by
  unfold TableWf at h
  rw [hb] at h
  exact h

theorem TableWf.count_of_none {t : HashTable} (h : TableWf t) (hb : t.buckets = none) :
    t.count = 0 := by
  unfold TableWf at h
  rw [hb] at h
  exact h

theorem TableWf.count_of_entries {t : HashTable} (h : TableWf t) (he : ∀ key, t.entry key = none) :
    t.count = 0 := by
  cases hb : t.buckets with
  | none => exact h.count_of_none hb
  | some bs =>
    have harr := h.array hb
    rw [harr.count]
    refine List.countP_eq_zero.mpr fun b hmem hlive => ?_
    have hlive' : 2 ≤ b.key := by simpa using hlive
    obtain ⟨i, hi, hbi⟩ := exists_keyAt_of_mem hmem
    have hi' : i < t.bucketCount := harr.wf.length ▸ hi
    have hkey : keyAt bs i = b.key := by rw [keyAt, hbi]
    have hsome := (harr.wf.proxy i hi').mpr (hkey ▸ hlive')
    have hnone := he b.key
    rw [harr.entry, entry_of_keyAt harr.wf hi' hlive' hkey] at hnone
    rw [hnone] at hsome
    cases hsome

theorem HashTable.entry_of_none {t : HashTable} (hb : t.buckets = none) :
    t.entry = fun _ => none := by
  funext key
  rw [HashTable.entry, hb]
  rfl

theorem storeWf_zero : StoreWf (Store.zero : Store X) := by
  have he : (Store.zero : Store X).table.entry = fun _ => none := HashTable.entry_of_none rfl
  refine ⟨rfl, rfl, fun _ _ => rfl, fun key p h => ?_, fun p h => ?_, fun k₁ _ p h => ?_⟩
  · rw [he] at h
    cases h
  · cases h
  · rw [he] at h
    cases h

theorem StoreWf.lt_next {st : Store X} (h : StoreWf st) {p : ℕ}
    (hp : (st.heap.cell p).isSome) : p < st.heap.next := by
  by_contra hge
  rw [h.fresh p (by omega)] at hp
  cases hp

theorem StoreWf.entry_live {st : Store X} (h : StoreWf st) {key p : ℕ}
    (he : st.table.entry key = some p) : 2 ≤ key := by
  cases hb : st.table.buckets with
  | none =>
    rw [HashTable.entry_of_none hb] at he
    cases he
  | some bs =>
    have harr := h.table.array hb
    rw [harr.entry] at he
    exact AtomicWaits.entry_live harr.wf he

/-- A table that is rearranged without a change to its entries keeps the store well formed. -/
theorem StoreWf.withTable {st : Store X} (h : StoreWf st) {t : HashTable} (ht : TableWf t)
    (he : t.entry = st.table.entry) : StoreWf ⟨t, st.heap⟩ := by
  refine ⟨ht, h.fault, h.fresh, ?_, ?_, ?_⟩
  · intro key p hp
    rw [he] at hp
    exact h.alloc key p hp
  · intro p hp
    obtain ⟨key, hk⟩ := h.owned p hp
    exact ⟨key, by rw [he]; exact hk⟩
  · intro k₁ k₂ p h₁ h₂
    rw [he] at h₁ h₂
    exact h.inj k₁ k₂ p h₁ h₂

/-! ### The three writes to a store -/

/-- `use_count` of an allocated proxy changes. -/
theorem StoreWf.setCell {st : Store X} (h : StoreWf st) {p : ℕ} {w w' : ProxyWaiter X}
    (hw : st.heap.cell p = some w) :
    StoreWf ⟨st.table, { st.heap with cell := Function.update st.heap.cell p (some w') }⟩ := by
  have hp : (st.heap.cell p).isSome := by rw [hw]; rfl
  refine ⟨h.table, h.fault, ?_, ?_, ?_, h.inj⟩
  · intro q hq
    have hne : q ≠ p := by
      have := h.lt_next hp
      have : st.heap.next ≤ q := hq
      omega
    show Function.update st.heap.cell p (some w') q = none
    rw [Function.update_of_ne hne]
    exact h.fresh q hq
  · intro key q hq
    show (Function.update st.heap.cell p (some w') q).isSome
    by_cases hqp : q = p
    · rw [hqp, Function.update_self]
      rfl
    · rw [Function.update_of_ne hqp]
      exact h.alloc key q hq
  · intro q hq
    by_cases hqp : q = p
    · rw [hqp]
      exact h.owned p hp
    · have hq' : (Function.update st.heap.cell p (some w') q).isSome := hq
      rw [Function.update_of_ne hqp] at hq'
      exact h.owned q hq'

/-- A fresh proxy is registered for an absent key. -/
theorem StoreWf.insert {st : Store X} (h : StoreWf st) {key : ℕ} (hnone : st.table.entry key = none)
    {t : HashTable} (ht : TableWf t)
    (he : t.entry = Function.update st.table.entry key (some st.heap.next)) (w : ProxyWaiter X) :
    StoreWf ⟨t, ⟨Function.update st.heap.cell st.heap.next (some w), st.heap.next + 1,
      st.heap.fault⟩⟩ := by
  have hfresh := h.fresh st.heap.next le_rfl
  have hold : ∀ k p, k ≠ key → t.entry k = some p → st.table.entry k = some p ∧ p ≠ st.heap.next := by
    intro k p hk hp
    rw [he, Function.update_of_ne hk] at hp
    refine ⟨hp, fun heq => ?_⟩
    have := h.alloc k p hp
    rw [heq, hfresh] at this
    cases this
  have hkey : t.entry key = some st.heap.next := by rw [he, Function.update_self]
  refine ⟨ht, h.fault, ?_, ?_, ?_, ?_⟩
  · intro p hp
    have hp' : st.heap.next + 1 ≤ p := hp
    show Function.update st.heap.cell st.heap.next (some w) p = none
    rw [Function.update_of_ne (by omega)]
    exact h.fresh p (by omega)
  · intro k p hp
    show (Function.update st.heap.cell st.heap.next (some w) p).isSome
    by_cases hk : k = key
    · rw [hk, hkey] at hp
      rw [← Option.some.inj hp, Function.update_self]
      rfl
    · obtain ⟨hp', hne⟩ := hold k p hk hp
      rw [Function.update_of_ne hne]
      exact h.alloc k p hp'
  · intro p hp
    by_cases hpn : p = st.heap.next
    · exact ⟨key, by rw [hpn]; exact hkey⟩
    · have hp' : (Function.update st.heap.cell st.heap.next (some w) p).isSome := hp
      rw [Function.update_of_ne hpn] at hp'
      obtain ⟨k, hk⟩ := h.owned p hp'
      refine ⟨k, ?_⟩
      show t.entry k = some p
      have hkk : k ≠ key := fun heq => by
        rw [heq, hnone] at hk
        cases hk
      rw [he, Function.update_of_ne hkk]
      exact hk
  · intro k₁ k₂ p h₁ h₂
    by_cases e₁ : k₁ = key <;> by_cases e₂ : k₂ = key
    · rw [e₁, e₂]
    · rw [e₁, hkey] at h₁
      exact absurd (Option.some.inj h₁).symm (hold k₂ p e₂ h₂).2
    · rw [e₂, hkey] at h₂
      exact absurd (Option.some.inj h₂).symm (hold k₁ p e₁ h₁).2
    · exact h.inj k₁ k₂ p (hold k₁ p e₁ h₁).1 (hold k₂ p e₂ h₂).1

/-- A key is removed and its proxy freed. -/
theorem StoreWf.delete {st : Store X} (h : StoreWf st) {key p : ℕ}
    (hsome : st.table.entry key = some p) {t : HashTable} (ht : TableWf t)
    (he : t.entry = Function.update st.table.entry key none) :
    StoreWf ⟨t, { st.heap with cell := Function.update st.heap.cell p none }⟩ := by
  have hold : ∀ k q, t.entry k = some q → k ≠ key ∧ st.table.entry k = some q := by
    intro k q hq
    rw [he] at hq
    by_cases hk : k = key
    · rw [hk, Function.update_self] at hq
      cases hq
    · rw [Function.update_of_ne hk] at hq
      exact ⟨hk, hq⟩
  refine ⟨ht, h.fault, ?_, ?_, ?_, ?_⟩
  · intro q hq
    show Function.update st.heap.cell p none q = none
    by_cases hqp : q = p
    · rw [hqp, Function.update_self]
    · rw [Function.update_of_ne hqp]
      exact h.fresh q hq
  · intro k q hq
    obtain ⟨hk, hq'⟩ := hold k q hq
    have hqp : q ≠ p := fun heq => hk (h.inj k key p (heq ▸ hq') hsome)
    show (Function.update st.heap.cell p none q).isSome
    rw [Function.update_of_ne hqp]
    exact h.alloc k q hq'
  · intro q hq
    have hq' : (Function.update st.heap.cell p none q).isSome := hq
    by_cases hqp : q = p
    · rw [hqp, Function.update_self] at hq'
      cases hq'
    · rw [Function.update_of_ne hqp] at hq'
      obtain ⟨k, hk⟩ := h.owned q hq'
      refine ⟨k, ?_⟩
      show t.entry k = some q
      have hkk : k ≠ key := fun heq => hqp (by
        rw [heq, hsome] at hk
        exact (Option.some.inj hk).symm)
      rw [he, Function.update_of_ne hkk]
      exact hk
  · intro k₁ k₂ q h₁ h₂
    exact h.inj k₁ k₂ q (hold k₁ q h₁).2 (hold k₂ q h₂).2

/-! ### How a call of `hash_table_find_or_create` ends -/

/-- The load at which a registration grows the table first. -/
def HashTable.AtLoad (t : HashTable) : Prop := (t.bucketCount >>> 2) * 3 ≤ t.count

/-- No bucket is empty: every one holds a key or a tombstone. -/
def AllOccupied (n : ℕ) (bs : List HashBucket) : Prop := ∀ i < n, keyAt bs i ≠ 0

section Calls

variable (K : ProxyKind X) (E : ErrnoCodes)

/-- How a pass that does not grow the array ends. -/
inductive EndCase (st : Store X) (bs : List HashBucket) (key : ℕ) (env : AllocEnv) (errno : ℤ) :
    Bool → FindResult X → Prop
  | found (p : ℕ) : entry bs key = some p → EndCase st bs key env errno false ⟨some p, st, errno⟩
  | joined (p : ℕ) : entry bs key = some p →
      EndCase st bs key env errno true
        ⟨some p, ⟨st.table, st.heap.modify p fun w => { w with useCount := w.useCount + 1 }⟩, errno⟩
  | absent : entry bs key = none → EndCase st bs key env errno false ⟨none, st, errno⟩
  | create (i : ℕ) : entry bs key = none → Insertable st.table.bucketCount bs key i →
      EndCase st bs key env errno true (createAt K E st bs i key env errno)

/-- How the loop ends on a table with the array `bs`. -/
inductive LoopCase (st : Store X) (bs : List HashBucket) (key : ℕ) (env : AllocEnv) (errno : ℤ)
    (incr : Bool) : FindResult X → Prop
  | ends (r : FindResult X) : (incr = true → ¬ st.table.AtLoad) →
      (entry bs key = none → ¬ AllOccupied st.table.bucketCount bs) →
      EndCase K E st bs key env errno incr r → LoopCase st bs key env errno incr r
  | refused : (incr = true ∧ st.table.AtLoad ∨
        entry bs key = none ∧ AllOccupied st.table.bucketCount bs) →
      (st.table.bucketCount = HASH_BUCKETS_MAX ∨
        env.callocBuckets (2 * st.table.bucketCount) = .enomem) →
      LoopCase st bs key env errno incr ⟨none, st, E.ENOMEM⟩
  | grown (new : List HashBucket) (e : Option ℤ) (r : FindResult X) :
      (incr = true ∧ st.table.AtLoad ∨
        entry bs key = none ∧ AllOccupied st.table.bucketCount bs) →
      env.callocBuckets (2 * st.table.bucketCount) = .ok e →
      ArrayWf ⟨some new, 2 * st.table.bucketCount, st.table.count⟩ new → entry new = entry bs →
      EndCase K E ⟨⟨some new, 2 * st.table.bucketCount, st.table.count⟩, st.heap⟩ new key env
        (errnoAfter (env.freeBuckets st.table.bucketCount) (errnoAfter e errno)) incr r →
      LoopCase st bs key env errno incr r

variable {K E} {st : Store X} {bs : List HashBucket} {key : ℕ} {env : AllocEnv} {errno : ℤ}

variable (K E st env errno) in
/-- A pass below the load whose probe meets the key or an empty bucket is the last one. -/
theorem findOrCreateLoop_end (hwf : ArrayWf st.table bs) (hlive : 2 ≤ key) (incr : Bool)
    (hload : incr = true → ¬ st.table.AtLoad)
    (hroom : entry bs key = none → ¬ AllOccupied st.table.bucketCount bs) (passes : ℕ) :
    ∃ r, findOrCreateLoop K E key incr env (passes + 1) st errno = some r ∧
      EndCase K E st bs key env errno incr r := by
  have hgrow : ¬ (incr = true ∧ (st.table.bucketCount >>> 2) * 3 ≤ st.table.count) :=
    fun h => hload h.1 h.2
  have hprobe := findProbe_cases hwf hlive
  rw [findOrCreateLoop, if_neg hgrow]
  dsimp only
  rw [hwf.buckets, Option.getD_some]
  generalize findProbe bs st.table.bucketCount key = out at hprobe ⊢
  cases hprobe with
  | present i p hi hb he =>
    dsimp only
    rw [hb]
    cases incr with
    | false => exact ⟨_, rfl, .found p he⟩
    | true => exact ⟨_, rfl, .joined p he⟩
  | vacant i d he hi h0 hins =>
    cases incr with
    | false => exact ⟨_, rfl, .absent he⟩
    | true => exact ⟨_, rfl, .create _ he hins⟩
  | full d he hall => exact absurd hall (hroom he)

/-- A table that was just grown is below the load. -/
theorem grown_not_atLoad (hwf : ArrayWf st.table bs) (new : Option (List HashBucket)) :
    ¬ HashTable.AtLoad ⟨new, 2 * st.table.bucketCount, st.table.count⟩ := by
  obtain ⟨k, h10, h20, hk⟩ := hwf.pow
  have hrange := (two_pow_range h10 h20).1
  have hload := hwf.load
  show ¬ (2 * st.table.bucketCount) >>> 2 * 3 ≤ st.table.count
  rw [Nat.shiftRight_eq_div_pow]
  omega

/-- It has no tombstones, so it has an empty bucket. -/
theorem grown_not_allOccupied (hwf : ArrayWf st.table bs) {new : List HashBucket}
    (hnew : ArrayWf ⟨some new, 2 * st.table.bucketCount, st.table.count⟩ new)
    (hclean : ∀ i < 2 * st.table.bucketCount, keyAt new i ≠ HASH_BUCKET_DELETED) :
    ¬ AllOccupied (2 * st.table.bucketCount) new := by
  obtain ⟨k, h10, h20, hk⟩ := hwf.pow
  have hrange := (two_pow_range h10 h20).1
  have hload := hwf.load
  have hcount : st.table.count = liveCount new := hnew.count
  obtain ⟨i, hi, hi0⟩ := exists_empty_of_liveCount_lt hnew.wf.length hclean
    (show liveCount new < 2 * st.table.bucketCount by omega)
  exact fun hall => hall i hi hi0

variable (K E st env errno) in
/-- **The loop makes at most two passes.** -/
theorem findOrCreateLoop_cases (hwf : ArrayWf st.table bs) (hlive : 2 ≤ key) (incr : Bool)
    (passes : ℕ) :
    ∃ r, findOrCreateLoop K E key incr env (passes + 2) st errno = some r ∧
      LoopCase K E st bs key env errno incr r := by
  -- a pass that grows the array, for either reason
  have grows : (incr = true ∧ st.table.AtLoad ∨
        entry bs key = none ∧ AllOccupied st.table.bucketCount bs) →
      (∀ errno', hashTableGrow E st.table env errno = ⟨none, errno'⟩ →
        findOrCreateLoop K E key incr env (passes + 2) st errno = some ⟨none, st, errno'⟩) →
      (∀ table errno', hashTableGrow E st.table env errno = ⟨some table, errno'⟩ →
        findOrCreateLoop K E key incr env (passes + 2) st errno
          = findOrCreateLoop K E key incr env (passes + 1) { st with table := table } errno') →
      ∃ r, findOrCreateLoop K E key incr env (passes + 2) st errno = some r ∧
        LoopCase K E st bs key env errno incr r := by
    intro hwhy hnone hsome
    have hgrow := hashTableGrow_spec E hwf env errno
    generalize hg : hashTableGrow E st.table env errno = g at hgrow
    cases hgrow with
    | refused hno => exact ⟨_, hnone _ hg, .refused hwhy hno⟩
    | grown new e hlt hcalloc hnew hent hclean =>
      have hload := grown_not_atLoad hwf (some new)
      have hroom := grown_not_allOccupied hwf hnew hclean
      obtain ⟨r, hr, hend⟩ := findOrCreateLoop_end K E
        ⟨⟨some new, 2 * st.table.bucketCount, st.table.count⟩, st.heap⟩ env
        (errnoAfter (env.freeBuckets st.table.bucketCount) (errnoAfter e errno))
        hnew hlive incr (fun _ => hload) (fun _ => hroom) passes
      exact ⟨r, (hsome _ _ hg).trans hr, .grown new e r hwhy hcalloc hnew hent hend⟩
  by_cases hload : incr = true ∧ st.table.AtLoad
  · refine grows (.inl hload) (fun errno' hg => ?_) (fun table errno' hg => ?_)
    · rw [findOrCreateLoop]
      refine (if_pos hload).trans ?_
      rw [hg]
    · rw [findOrCreateLoop]
      refine (if_pos hload).trans ?_
      rw [hg]
  by_cases hfull : entry bs key = none ∧ AllOccupied st.table.bucketCount bs
  · have hprobe := findProbe_cases hwf hlive
    generalize hout : findProbe bs st.table.bucketCount key = out at hprobe
    cases hprobe with
    | present i p hi hb he => exact absurd (he.symm.trans hfull.1) (by simp)
    | vacant i d he hi h0 hins => exact absurd h0 (hfull.2 i hi)
    | full d he hall =>
      refine grows (.inr hfull) (fun errno' hg => ?_) (fun table errno' hg => ?_)
      · rw [findOrCreateLoop]
        refine (if_neg hload).trans ?_
        simp only [hwf.buckets, Option.getD_some, hout, hg]
      · rw [findOrCreateLoop]
        refine (if_neg hload).trans ?_
        simp only [hwf.buckets, Option.getD_some, hout, hg]
  · obtain ⟨r, hr, hend⟩ := findOrCreateLoop_end K E st env errno
      hwf hlive incr (fun hi hl => hload ⟨hi, hl⟩) (fun he hall => hfull ⟨he, hall⟩) (passes + 1)
    exact ⟨r, hr, .ends r (fun hi hl => hload ⟨hi, hl⟩) (fun he hall => hfull ⟨he, hall⟩) hend⟩

/-- The array of a first call. -/
def firstTable (count : ℕ) : HashTable :=
  ⟨some (List.replicate HASH_BUCKETS_INITIAL emptyBucket), HASH_BUCKETS_INITIAL, count⟩

theorem firstTable_wf : ArrayWf (firstTable 0) (List.replicate HASH_BUCKETS_INITIAL emptyBucket) := by
  refine ⟨rfl, bucketsWf_replicate _, ⟨10, le_rfl, by omega, rfl⟩, ?_, Nat.zero_le _⟩
  rw [liveCount_replicate]
  rfl

theorem firstTable_not_atLoad : ¬ (firstTable 0).AtLoad := by
  show ¬ (HASH_BUCKETS_INITIAL >>> 2) * 3 ≤ 0
  decide

variable (K E) in
/-- How `hash_table_find_or_create` ends. -/
inductive CallCase (st : Store X) (key : ℕ) (incr : Bool) (env : AllocEnv) (errno : ℤ) :
    FindResult X → Prop
  | array (bs : List HashBucket) (r : FindResult X) : ArrayWf st.table bs →
      LoopCase K E st bs key env errno incr r → CallCase st key incr env errno r
  | noMemory : st.table.buckets = none → env.callocBuckets HASH_BUCKETS_INITIAL = .enomem →
      CallCase st key incr env errno
        ⟨none, ⟨{ st.table with bucketCount := HASH_BUCKETS_INITIAL }, st.heap⟩, E.ENOMEM⟩
  | first (e : Option ℤ) (r : FindResult X) : st.table.buckets = none → st.table.count = 0 →
      env.callocBuckets HASH_BUCKETS_INITIAL = .ok e →
      EndCase K E ⟨firstTable 0, st.heap⟩ (List.replicate HASH_BUCKETS_INITIAL emptyBucket) key env
        (errnoAfter e errno) incr r → CallCase st key incr env errno r

variable (K E env errno) in
/-- **Every call returns.** -/
theorem hashTableFindOrCreate_cases (hwf : TableWf st.table) (hlive : 2 ≤ key) (incr : Bool) :
    ∃ r, hashTableFindOrCreate K E st key incr env errno = some r ∧
      CallCase K E st key incr env errno r := by
  unfold hashTableFindOrCreate
  cases hb : st.table.buckets with
  | some bs =>
    have harr := hwf.array hb
    obtain ⟨r, hr, hcase⟩ := findOrCreateLoop_cases K E st env errno harr hlive incr (HASH_BUCKETS_MAX - 1)
    exact ⟨r, hr, .array bs r harr hcase⟩
  | none =>
    have hcount := hwf.count_of_none hb
    cases hc : env.callocBuckets HASH_BUCKETS_INITIAL with
    | enomem => exact ⟨_, rfl, .noMemory hb hc⟩
    | ok e =>
      have hempty : ¬ AllOccupied HASH_BUCKETS_INITIAL
          (List.replicate HASH_BUCKETS_INITIAL emptyBucket) := fun h =>
        h 0 (by decide) (keyAt_replicate _ _)
      obtain ⟨r, hr, hend⟩ := findOrCreateLoop_end K E ⟨firstTable 0, st.heap⟩ env
        (errnoAfter e errno) firstTable_wf hlive incr (fun _ => firstTable_not_atLoad)
        (fun _ => hempty) HASH_BUCKETS_MAX
      refine ⟨r, ?_, .first e r hb hcount hc hend⟩
      rw [hcount]
      exact hr

/-! ### Lookups -/

/-- What a lookup does. -/
structure LookupSpec (st : Store X) (key : ℕ) (r : FindResult X) : Prop where
  item : r.item = st.table.entry key
  wf : StoreWf r.store
  entry : r.store.table.entry = st.table.entry
  heap : r.store.heap = st.heap

theorem firstTable_entry (hb : st.table.buckets = none) :
    (firstTable 0).entry = st.table.entry := by
  rw [firstTable_wf.entry, entry_replicate, HashTable.entry_of_none hb]

/-- A first call that gets no memory leaves `bucket_count` set without an array. -/
theorem StoreWf.firstFailed (hst : StoreWf st) (hb : st.table.buckets = none) :
    StoreWf ⟨{ st.table with bucketCount := HASH_BUCKETS_INITIAL }, st.heap⟩ := by
  have ht : TableWf { st.table with bucketCount := HASH_BUCKETS_INITIAL } := by
    unfold TableWf
    rw [hb]
    exact hst.table.count_of_none hb
  exact hst.withTable ht rfl

theorem EndCase.lookup (hst : StoreWf st) (hwf : ArrayWf st.table bs) {r : FindResult X}
    (h : EndCase K E st bs key env errno false r) : LookupSpec st key r := by
  cases h with
  | found p he => exact ⟨by rw [hwf.entry]; exact he.symm, hst, rfl, rfl⟩
  | absent he => exact ⟨by rw [hwf.entry]; exact he.symm, hst, rfl, rfl⟩

theorem LookupSpec.ofTable {t : HashTable} (he : t.entry = st.table.entry) {r : FindResult X}
    (h : LookupSpec ⟨t, st.heap⟩ key r) : LookupSpec st key r :=
  ⟨by rw [h.item, he], h.wf, h.entry.trans he, h.heap⟩

/-- **A lookup returns the proxy of the key and changes nothing.** -/
theorem CallCase.lookup (hst : StoreWf st) {r : FindResult X}
    (h : CallCase K E st key false env errno r) : LookupSpec st key r := by
  cases h with
  | array bs r hwf h =>
    cases h with
    | ends r _ _ h => exact h.lookup hst hwf
    | refused hwhy _ =>
      rcases hwhy with ⟨hf, _⟩ | ⟨hnone, _⟩
      · cases hf
      · exact ⟨by rw [hwf.entry]; exact hnone.symm, hst, rfl, rfl⟩
    | grown new e r _ _ hnew hent h =>
      have he : HashTable.entry ⟨some new, 2 * st.table.bucketCount, st.table.count⟩
          = st.table.entry := by rw [hnew.entry, hwf.entry, hent]
      exact (h.lookup (hst.withTable hnew.tableWf he) hnew).ofTable he
  | noMemory hb _ =>
    exact ⟨by rw [HashTable.entry_of_none hb], hst.firstFailed hb, rfl, rfl⟩
  | first e r hb _ _ h =>
    have he := firstTable_entry hb
    exact (h.lookup (hst.withTable firstTable_wf.tableWf he) firstTable_wf).ofTable he

/-! ### Registrations -/

/-- What a registration does. -/
inductive RegisterSpec (K : ProxyKind X) (E : ErrnoCodes) (st : Store X) (key : ℕ) (env : AllocEnv) :
    FindResult X → Prop
  | failed (st' : Store X) (errno : ℤ) : StoreWf st' → st'.table.entry = st.table.entry →
      st'.heap.cell = st.heap.cell →
      (errno = E.ENOMEM ∨ K.init env.initProxy ≠ 0 ∧ errno = -K.init env.initProxy) →
      RegisterSpec K E st key env ⟨none, st', errno⟩
  | joined (p : ℕ) (w : ProxyWaiter X) (st' : Store X) (errno : ℤ) :
      st.table.entry key = some p → st.heap.cell p = some w → StoreWf st' →
      st'.table.entry = st.table.entry →
      st'.heap.cell
        = Function.update st.heap.cell p (some { w with useCount := w.useCount + 1 }) →
      RegisterSpec K E st key env ⟨some p, st', errno⟩
  | created (st' : Store X) (errno : ℤ) : st.table.entry key = none → StoreWf st' →
      st'.table.entry = Function.update st.table.entry key (some st.heap.next) →
      st'.heap.cell = Function.update st.heap.cell st.heap.next (some ⟨1, K.initial⟩) →
      RegisterSpec K E st key env ⟨some st.heap.next, st', errno⟩

theorem ArrayWf.insert {t : HashTable} (hwf : ArrayWf t bs) (hload : ¬ t.AtLoad) (hlive : 2 ≤ key)
    (hnone : AtomicWaits.entry bs key = none) {i : ℕ} (hi : Insertable t.bucketCount bs key i)
    (p : ℕ) :
    ArrayWf { t with buckets := some (bs.set i ⟨some p, key⟩), count := t.count + 1 }
      (bs.set i ⟨some p, key⟩) := by
  have hnew := (entry_eq_none_iff hwf.wf hlive).mp hnone
  have hil : i < bs.length := hwf.wf.length ▸ hi.lt
  have hcount := liveCount_set hil ⟨some p, key⟩
  rw [if_neg (Nat.not_le.mpr hi.dead), if_pos hlive] at hcount
  refine ⟨rfl, hwf.wf.insert hlive hnew hi p, hwf.pow, ?_, ?_⟩
  · show t.count + 1 = _
    rw [hwf.count, ← hcount, Nat.add_zero]
  · obtain ⟨k, h10, h20, hk⟩ := hwf.pow
    have hrange := (two_pow_range h10 h20).1
    unfold HashTable.AtLoad at hload
    rw [Nat.shiftRight_eq_div_pow] at hload
    show 4 * (t.count + 1) ≤ 3 * t.bucketCount
    omega

theorem ArrayWf.delete {t : HashTable} (hwf : ArrayWf t bs) {i : ℕ} (hi : i < t.bucketCount)
    (hlive : 2 ≤ keyAt bs i) :
    ArrayWf { t with
        buckets := some (bs.set i ⟨none, HASH_BUCKET_DELETED⟩), count := t.count - 1 }
      (bs.set i ⟨none, HASH_BUCKET_DELETED⟩) := by
  have hil : i < bs.length := hwf.wf.length ▸ hi
  have hcount := liveCount_set hil ⟨none, HASH_BUCKET_DELETED⟩
  rw [if_pos hlive, if_neg (by show ¬ 2 ≤ HASH_BUCKET_DELETED; decide)] at hcount
  have hload := hwf.load
  have hlc := hwf.count
  refine ⟨rfl, hwf.wf.delete hi, hwf.pow, ?_, ?_⟩
  · show t.count - 1 = _
    omega
  · show 4 * (t.count - 1) ≤ 3 * t.bucketCount
    omega

theorem StoreWf.bump (h : StoreWf st) :
    StoreWf ⟨st.table, { st.heap with next := st.heap.next + 1 }⟩ :=
  ⟨h.table, h.fault, fun p hp => h.fresh p (by have : st.heap.next + 1 ≤ p := hp; omega), h.alloc,
    h.owned, h.inj⟩

/-- The new item, when there is memory for it and its initialisation succeeds. -/
theorem createAt_ok (st : Store X) (bs : List HashBucket) (i key : ℕ) {env : AllocEnv}
    {e : Option ℤ} (he : env.callocProxy = .ok e) (hinit : K.init env.initProxy = 0) (errno : ℤ) :
    createAt K E st bs i key env errno = ⟨some st.heap.next,
      ⟨⟨some (bs.set i ⟨some st.heap.next, key⟩), st.table.bucketCount, st.table.count + 1⟩,
        ⟨Function.update st.heap.cell st.heap.next (some ⟨1, K.initial⟩), st.heap.next + 1,
          st.heap.fault⟩⟩, errnoAfter e errno⟩ := by
  unfold createAt
  rw [he]
  dsimp only
  rw [if_neg (not_not_intro hinit), ProxyHeap.alloc_modify]

theorem createAt_spec (hst : StoreWf st) (hwf : ArrayWf st.table bs) (hload : ¬ st.table.AtLoad)
    (hlive : 2 ≤ key) (hnone : entry bs key = none) {i : ℕ}
    (hi : Insertable st.table.bucketCount bs key i) :
    RegisterSpec K E st key env (createAt K E st bs i key env errno) := by
  have hdead : setProxy bs i none = bs := setProxy_none_of_dead hwf.wf hi.lt hi.dead
  have htable : { st.table with buckets := some bs } = st.table := by rw [← hwf.buckets]
  have hcell := hst.fresh st.heap.next le_rfl
  have hnew := (entry_eq_none_iff hwf.wf hlive).mp hnone
  have hnone' : st.table.entry key = none := by rw [hwf.entry, hnone]
  cases hc : env.callocProxy with
  | enomem =>
    unfold createAt
    rw [hdead, htable, hc]
    exact .failed st _ hst rfl rfl (.inl rfl)
  | ok e =>
    by_cases hinit : K.init env.initProxy = 0
    · have harr := hwf.insert hload hlive hnone hi st.heap.next
      have hent : HashTable.entry ⟨some (bs.set i ⟨some st.heap.next, key⟩), st.table.bucketCount,
          st.table.count + 1⟩ = Function.update st.table.entry key (some st.heap.next) := by
        rw [harr.entry, hwf.entry, entry_insert hwf.wf hlive hnew hi]
      rw [createAt_ok st bs i key hc hinit]
      exact .created _ _ hnone' (hst.insert hnone' harr.tableWf hent _) hent rfl
    · -- the new proxy is freed again
      unfold createAt
      rw [hdead, htable, hc]
      dsimp only
      rw [if_pos hinit, ProxyHeap.alloc_free hcell]
      exact .failed _ _ hst.bump rfl rfl (.inr ⟨hinit, rfl⟩)

theorem EndCase.register (hst : StoreWf st) (hwf : ArrayWf st.table bs)
    (hload : ¬ st.table.AtLoad) (hlive : 2 ≤ key) {r : FindResult X}
    (h : EndCase K E st bs key env errno true r) : RegisterSpec K E st key env r := by
  cases h with
  | joined p he =>
    have he' : st.table.entry key = some p := by rw [hwf.entry, he]
    obtain ⟨w, hw⟩ := Option.isSome_iff_exists.mp (hst.alloc key p he')
    rw [ProxyHeap.modify_of_cell hw]
    exact .joined p w _ _ he' hw (hst.setCell hw) rfl rfl
  | create i hnone hi => exact createAt_spec hst hwf hload hlive hnone hi

theorem RegisterSpec.ofTable {t : HashTable} (he : t.entry = st.table.entry) {r : FindResult X}
    (h : RegisterSpec K E ⟨t, st.heap⟩ key env r) : RegisterSpec K E st key env r := by
  cases h with
  | failed st' errno hwf hent hcell herr => exact .failed st' errno hwf (hent.trans he) hcell herr
  | joined p w st' errno hp hw hwf hent hcell =>
    exact .joined p w st' errno (he ▸ hp) hw hwf (hent.trans he) hcell
  | created st' errno hnone hwf hent hcell =>
    exact .created st' errno (he ▸ hnone) hwf (by rw [← he]; exact hent) hcell

/-- **A registration counts its caller on the proxy of the key, on a fresh one when the key was
absent, or changes nothing.** -/
theorem CallCase.register (hst : StoreWf st) (hlive : 2 ≤ key) {r : FindResult X}
    (h : CallCase K E st key true env errno r) : RegisterSpec K E st key env r := by
  cases h with
  | array bs r hwf h =>
    cases h with
    | ends r hload _ h => exact h.register hst hwf (hload rfl) hlive
    | refused _ _ => exact .failed st _ hst rfl rfl (.inl rfl)
    | grown new e r _ _ hnew hent h =>
      have he : HashTable.entry ⟨some new, 2 * st.table.bucketCount, st.table.count⟩
          = st.table.entry := by rw [hnew.entry, hwf.entry, hent]
      exact (h.register (hst.withTable hnew.tableWf he) hnew (grown_not_atLoad hwf _) hlive).ofTable
        he
  | noMemory hb _ => exact .failed _ _ (hst.firstFailed hb) rfl rfl (.inl rfl)
  | first e r hb _ _ h =>
    have he := firstTable_entry hb
    exact (h.register (hst.withTable firstTable_wf.tableWf he) firstTable_wf firstTable_not_atLoad
      hlive).ofTable he

end Calls

/-! ### Removals -/

/-- What the removal of `key`, registered with the proxy `p`, does. -/
structure RemoveSpec (st : Store X) (key p : ℕ) (st' : Store X) : Prop where
  wf : StoreWf st'
  entry : st'.table.entry = Function.update st.table.entry key none
  cell : st'.heap.cell = Function.update st.heap.cell p none

/-- The bucket a removal turns into a tombstone. -/
theorem hashTableRemoveItem_of_array {st : Store X} {bs : List HashBucket} {key p : ℕ}
    {w : ProxyWaiter X} (hwf : ArrayWf st.table bs) (he : entry bs key = some p)
    (hw : st.heap.cell p = some w) (huse : w.useCount = 0) :
    ∃ i < st.table.bucketCount, bucketAt bs i = ⟨some p, key⟩ ∧
      hashTableRemoveItem st key
        = ⟨⟨some (bs.set i ⟨none, HASH_BUCKET_DELETED⟩), st.table.bucketCount, st.table.count - 1⟩,
          { st.heap with cell := Function.update st.heap.cell p none }⟩ := by
  have hprobe := removeProbe_cases hwf (entry_live hwf.wf he)
  unfold hashTableRemoveItem
  rw [hwf.buckets]
  dsimp only
  generalize removeProbe bs st.table.bucketCount key = out at hprobe ⊢
  rcases hprobe with ⟨i, q, hi, hbi, heq, rfl⟩ | ⟨hnone, _⟩
  · obtain rfl : q = p := Option.some.inj (heq.symm.trans he)
    have hheap : st.heap.destroy (bucketAt bs i).proxy
        = { st.heap with cell := Function.update st.heap.cell q none } := by
      rw [hbi]
      simp only [ProxyHeap.destroy, hw, huse, ne_eq, not_true_eq_false, if_false]
      exact ProxyHeap.free_of_cell hw
    refine ⟨i, hi, hbi, ?_⟩
    dsimp only
    rw [hheap]
  · rw [hnone] at he
    cases he

/-- **A removal of an unused key removes that key and frees its proxy.** -/
theorem hashTableRemoveItem_spec {st : Store X} {key p : ℕ} {w : ProxyWaiter X} (hst : StoreWf st)
    (he : st.table.entry key = some p) (hw : st.heap.cell p = some w) (huse : w.useCount = 0) :
    RemoveSpec st key p (hashTableRemoveItem st key) := by
  have hlive := hst.entry_live he
  cases hb : st.table.buckets with
  | none =>
    rw [HashTable.entry_of_none hb] at he
    cases he
  | some bs =>
    have hwf := hst.table.array hb
    rw [hwf.entry] at he
    obtain ⟨i, hi, hbi, heq⟩ := hashTableRemoveItem_of_array hwf he hw huse
    have hik : keyAt bs i = key := by rw [keyAt, hbi]
    have harr := hwf.delete hi (hik ▸ hlive)
    have hent : HashTable.entry ⟨some (bs.set i ⟨none, HASH_BUCKET_DELETED⟩),
        st.table.bucketCount, st.table.count - 1⟩
          = Function.update st.table.entry key none := by
      rw [harr.entry, hwf.entry, entry_delete hwf.wf hi hlive hik]
    have hsome : st.table.entry key = some p := by rw [hwf.entry, he]
    rw [heq]
    exact ⟨hst.delete hsome harr.tableWf hent, hent, rfl⟩

end AtomicWaits
