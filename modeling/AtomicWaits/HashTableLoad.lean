import AtomicWaits.HashTableCapacity

/-!
# When the table grows, and when a join does

The load check and the search for an empty bucket both lead into `hash_table_grow`, and both come
before anything is known of the key: the first looks at `count` only, the second at the tombstones
too, which `count` does not see.

* `findOrCreateLog`: the calls of `hash_table_grow` during a call, in a loop that is otherwise
  `findOrCreateLoop` (`hashTableFindOrCreateLog_snd`).
* `grows_underLoad`: growth is for load alone as long as no probe finds the array full.
* `join_needs_memory_iff`: a registration of a registered key may fail at the load limit, and there
  only.
-/

namespace AtomicWaits

open Lib

variable {X : Type} (K : ProxyKind X) (E : ErrnoCodes)

/-! ### The calls of `hash_table_grow` -/

/-- A growth of the table in the log, and what `next` does with the new table. -/
def logGrowth (st : Store X) (grown : GrowResult)
    (next : Store X → ℤ → List HashTable × Option (FindResult X)) :
    List HashTable × Option (FindResult X) :=
  match grown with
  | ⟨none, errno'⟩ => ([st.table], some ⟨none, st, errno'⟩)
  | ⟨some table, errno'⟩ =>
    let rest := next { st with table := table } errno'
    (st.table :: rest.1, rest.2)

/-- `findOrCreateLoop` with a log of the tables on which it enters `hash_table_grow`. -/
def findOrCreateLog (key : ℕ) (incrementUseCount : Bool) (env : AllocEnv) :
    ℕ → Store X → ℤ → List HashTable × Option (FindResult X)
  | 0, _, _ => ([], none)
  | passes + 1, st, errno =>
    if incrementUseCount ∧ (st.table.bucketCount >>> 2) * 3 ≤ st.table.count then
      logGrowth st (hashTableGrow E st.table env errno)
        (findOrCreateLog key incrementUseCount env passes)
    else
      match findProbe (st.table.buckets.getD []) st.table.bucketCount key with
      | .inl _ => ([], findOrCreateLoop K E key incrementUseCount env (passes + 1) st errno)
      | .inr _ =>
        logGrowth st (hashTableGrow E st.table env errno)
          (findOrCreateLog key incrementUseCount env passes)

/-- `hashTableFindOrCreate` with that log. -/
def hashTableFindOrCreateLog (st : Store X) (object : ℕ) (incrementUseCount : Bool) (env : AllocEnv)
    (errno : ℤ) : List HashTable × Option (FindResult X) :=
  match st.table.buckets with
  | some _ =>
    findOrCreateLog K E object incrementUseCount env (HASH_BUCKETS_MAX + 1) st errno
  | none =>
    match env.callocBuckets HASH_BUCKETS_INITIAL with
    | .enomem =>
      ([], some ⟨none, ⟨{ st.table with bucketCount := HASH_BUCKETS_INITIAL }, st.heap⟩, E.ENOMEM⟩)
    | .ok e =>
      let table : HashTable :=
        ⟨some (List.replicate HASH_BUCKETS_INITIAL emptyBucket), HASH_BUCKETS_INITIAL,
          st.table.count⟩
      findOrCreateLog K E object incrementUseCount env (HASH_BUCKETS_MAX + 1)
        ⟨table, st.heap⟩ (errnoAfter e errno)

variable {K E} {st : Store X} {bs : List HashBucket} {key : ℕ} {env : AllocEnv} {errno : ℤ}
  {incr : Bool}

theorem findOrCreateLog_snd (passes : ℕ) (st : Store X) (errno : ℤ) :
    (findOrCreateLog K E key incr env passes st errno).2
      = findOrCreateLoop K E key incr env passes st errno := by
  induction passes generalizing st errno with
  | zero => rfl
  | succ passes ih =>
    rw [findOrCreateLog]
    by_cases hload : incr = true ∧ (st.table.bucketCount >>> 2) * 3 ≤ st.table.count
    · rw [findOrCreateLoop, if_pos hload, if_pos hload]
      cases hashTableGrow E st.table env errno with
      | mk table errno' =>
        cases table with
        | none => rfl
        | some table => exact ih { st with table := table } errno'
    · rw [if_neg hload]
      cases hprobe : findProbe (st.table.buckets.getD []) st.table.bucketCount key with
      | inl _ => rfl
      | inr _ =>
        rw [findOrCreateLoop, if_neg hload]
        dsimp only
        rw [hprobe]
        cases hashTableGrow E st.table env errno with
        | mk table errno' =>
          cases table with
          | none => rfl
          | some table => exact ih { st with table := table } errno'

/-- **The log does not change the call.** -/
theorem hashTableFindOrCreateLog_snd (st : Store X) (errno : ℤ) :
    (hashTableFindOrCreateLog K E st key incr env errno).2
      = hashTableFindOrCreate K E st key incr env errno := by
  unfold hashTableFindOrCreateLog hashTableFindOrCreate
  cases st.table.buckets with
  | some _ => exact findOrCreateLog_snd ..
  | none =>
    cases env.callocBuckets HASH_BUCKETS_INITIAL with
    | enomem => rfl
    | ok e => exact findOrCreateLog_snd ..

/-! ### What the log holds -/

variable (K E st incr env errno)

/-- A pass below the load whose probe meets the key or an empty bucket logs nothing. -/
theorem findOrCreateLog_end (hwf : ArrayWf st.table bs) (hlive : 2 ≤ key)
    (hload : ¬ (incr = true ∧ st.table.AtLoad))
    (hroom : ¬ (entry bs key = none ∧ AllOccupied st.table.bucketCount bs)) (passes : ℕ) :
    (findOrCreateLog K E key incr env (passes + 1) st errno).1 = [] := by
  have hprobe := findProbe_cases hwf hlive
  rw [findOrCreateLog]
  refine (congrArg Prod.fst (if_neg hload)).trans ?_
  rw [hwf.buckets, Option.getD_some]
  generalize findProbe bs st.table.bucketCount key = out at hprobe ⊢
  cases hprobe with
  | present i p hi hb he => rfl
  | vacant i d he hi h0 hins => rfl
  | full d he hall => exact absurd ⟨he, hall⟩ hroom

/-- **At most one growth**, of the table the loop begins with. -/
theorem mem_findOrCreateLog (hwf : ArrayWf st.table bs) (hlive : 2 ≤ key) (passes : ℕ)
    (t : HashTable) :
    t ∈ (findOrCreateLog K E key incr env (passes + 2) st errno).1 ↔
      t = st.table ∧ (incr = true ∧ st.table.AtLoad ∨
        entry bs key = none ∧ AllOccupied st.table.bucketCount bs) := by
  -- after a growth the loop ends
  have hgrowth : (logGrowth st (hashTableGrow E st.table env errno)
      (findOrCreateLog K E key incr env (passes + 1))).1 = [st.table] := by
    have hgrow := hashTableGrow_spec E hwf env errno
    generalize hashTableGrow E st.table env errno = g at hgrow ⊢
    cases hgrow with
    | refused hno => rfl
    | grown new e hlt hcalloc hnew hent hclean =>
      refine congrArg (List.cons st.table) ?_
      apply findOrCreateLog_end K E ⟨⟨some new, 2 * st.table.bucketCount, st.table.count⟩, st.heap⟩
        env _ incr hnew hlive
      · exact fun h => grown_not_atLoad hwf (some new) h.2
      · exact fun h => grown_not_allOccupied hwf hnew hclean h.2
  by_cases hload : incr = true ∧ st.table.AtLoad
  · have hlog : (findOrCreateLog K E key incr env (passes + 2) st errno).1 = [st.table] := by
      rw [findOrCreateLog]
      exact (congrArg Prod.fst (if_pos hload)).trans hgrowth
    rw [hlog, List.mem_singleton, and_iff_left (Or.inl hload)]
  by_cases hfull : entry bs key = none ∧ AllOccupied st.table.bucketCount bs
  · have hlog : (findOrCreateLog K E key incr env (passes + 2) st errno).1 = [st.table] := by
      have hprobe := findProbe_cases hwf hlive
      rw [findOrCreateLog]
      refine (congrArg Prod.fst (if_neg hload)).trans ?_
      rw [hwf.buckets, Option.getD_some]
      generalize findProbe bs st.table.bucketCount key = out at hprobe ⊢
      cases hprobe with
      | present i p hi hb he => exact absurd (he.symm.trans hfull.1) (by simp)
      | vacant i d he hi h0 hins => exact absurd h0 (hfull.2 i hi)
      | full d he hall => exact hgrowth
    rw [hlog, List.mem_singleton, and_iff_left (Or.inr hfull)]
  · rw [findOrCreateLog_end K E st env errno incr hwf hlive hload hfull (passes + 1)]
    exact iff_of_false (List.not_mem_nil) fun h => h.2.elim hload hfull

/-- No bucket of the array is empty, and the key is absent. -/
def HashTable.Full (t : HashTable) (key : ℕ) : Prop :=
  ∃ bs, t.buckets = some bs ∧ AllOccupied t.bucketCount bs ∧ t.entry key = none

theorem ArrayWf.full_iff {t : HashTable} (h : ArrayWf t bs) :
    t.Full key ↔ AtomicWaits.entry bs key = none ∧ AllOccupied t.bucketCount bs := by
  unfold HashTable.Full
  rw [h.entry, h.buckets]
  constructor
  · rintro ⟨_, heq, hall, hnone⟩
    cases heq
    exact ⟨hnone, hall⟩
  · rintro ⟨hnone, hall⟩
    exact ⟨bs, rfl, hall, hnone⟩

/-- **When a call enters `hash_table_grow`.** -/
theorem mem_hashTableFindOrCreateLog (hwf : TableWf st.table) (hlive : 2 ≤ key) (t : HashTable) :
    t ∈ (hashTableFindOrCreateLog K E st key incr env errno).1 ↔
      t = st.table ∧ st.table.buckets ≠ none ∧
        (incr = true ∧ st.table.AtLoad ∨ st.table.Full key) := by
  unfold hashTableFindOrCreateLog
  cases hb : st.table.buckets with
  | some bs =>
    have harr := hwf.array hb
    rw [harr.full_iff, and_iff_right (Option.some_ne_none bs)]
    exact mem_findOrCreateLog K E st env errno incr harr hlive (HASH_BUCKETS_MAX - 1) t
  | none =>
    have hcount := hwf.count_of_none hb
    refine iff_of_false ?_ fun h => h.2.1 rfl
    cases env.callocBuckets HASH_BUCKETS_INITIAL with
    | enomem => exact List.not_mem_nil
    | ok e =>
      have hempty : ¬ AllOccupied HASH_BUCKETS_INITIAL
          (List.replicate HASH_BUCKETS_INITIAL emptyBucket) := fun h =>
        h 0 (by decide) (keyAt_replicate _ _)
      have hlog := findOrCreateLog_end K E ⟨firstTable 0, st.heap⟩ env (errnoAfter e errno) incr
        firstTable_wf hlive (fun h => firstTable_not_atLoad h.2) (fun h => hempty h.2)
        HASH_BUCKETS_MAX
      rw [hcount]
      intro h
      exact List.not_mem_nil (hlog ▸ h)

/-! ### Growth is for load -/

/-- The keys of a table. -/
def HashTable.keys (t : HashTable) : Set ℕ := {key | t.entry key ≠ none}

/-- The tables on which an operation enters `hash_table_grow`. -/
def TableOp.growEntries (st : Store X) : TableOp → List HashTable
  | .register key env errno => (hashTableFindOrCreateLog K E st key true env errno).1
  | .lookup key env errno => (hashTableFindOrCreateLog K E st key false env errno).1
  | .unuse _ => []
  | .remove _ => []

def TableOp.Registers : TableOp → Prop
  | .register _ _ _ => True
  | .lookup _ _ _ => False
  | .unuse _ => False
  | .remove _ => False

/-- An operation grows the table only to register a key, and only when the keys of the table are
three quarters of `bucket_count`. -/
def GrowsUnderLoad (st : Store X) (op : TableOp) : Prop :=
  ∀ t ∈ op.growEntries K E st, op.Registers ∧ 3 * t.bucketCount ≤ 4 * t.keys.ncard

/-- The probe of the operation meets its key or an empty bucket, or the load check comes first. -/
def TableOp.HasRoom (st : Store X) : TableOp → Prop
  | .register key _ _ => st.table.Full key → st.table.AtLoad
  | .lookup key _ _ => ¬ st.table.Full key
  | .unuse _ => True
  | .remove _ => True

variable {K E st incr env errno}

theorem ArrayWf.atLoad_iff {t : HashTable} (h : ArrayWf t bs) :
    t.AtLoad ↔ 3 * t.bucketCount ≤ 4 * t.count := by
  obtain ⟨k, h10, _, hk⟩ := h.pow
  obtain ⟨j, rfl⟩ : ∃ j, k = j + 2 := ⟨k - 2, by omega⟩
  have hfour : t.bucketCount = 2 ^ j * 2 ^ 2 := hk.trans (pow_add 2 j 2)
  unfold HashTable.AtLoad
  rw [Nat.shiftRight_eq_div_pow]
  omega

theorem HashTable.full_of_none {t : HashTable} (hb : t.buckets = none) : ¬ t.Full key := by
  rintro ⟨bs, heq, _⟩
  rw [hb] at heq
  cases heq

/-- The tables an operation grows, when it is a call of `hash_table_find_or_create`. -/
theorem forall_growEntries_iff (hst : StoreWf st) (hlive : 2 ≤ key) (P : HashTable → Prop) :
    (∀ t ∈ (hashTableFindOrCreateLog K E st key incr env errno).1, P t) ↔
      (st.table.buckets ≠ none → (incr = true ∧ st.table.AtLoad ∨ st.table.Full key) → P st.table) := by
  simp only [mem_hashTableFindOrCreateLog K E st env errno incr hst.table hlive]
  constructor
  · intro h hb hwhy
    exact h st.table ⟨rfl, hb, hwhy⟩
  · rintro h t ⟨rfl, hb, hwhy⟩
    exact h hb hwhy

/-- **When growth is for load.** -/
theorem growsUnderLoad_iff (hst : StoreWf st) {op : TableOp} (hop : op.Allowed (proxyMap st)) :
    GrowsUnderLoad K E st op ↔ op.HasRoom st := by
  cases op with
  | register key env errno =>
    refine (forall_growEntries_iff hst hop _).trans ?_
    simp only [TableOp.Registers, TableOp.HasRoom, true_and]
    cases hb : st.table.buckets with
    | none =>
      have hfull : ¬ st.table.Full key := HashTable.full_of_none hb
      simp [hfull]
    | some bs =>
      have hwf := hst.table.array hb
      have hcard : st.table.keys.ncard = st.table.count := hst.ncard_registeredKeys
      rw [hcard, ← hwf.atLoad_iff]
      constructor
      · intro h hfull
        exact h (by simp) (.inr hfull)
      · rintro h _ (hload | hfull)
        · exact hload
        · exact h hfull
  | lookup key env errno =>
    refine (forall_growEntries_iff hst hop _).trans ?_
    simp only [TableOp.Registers, TableOp.HasRoom, false_and]
    constructor
    · intro h hfull
      obtain ⟨bs, hb, _⟩ := id hfull
      exact h (by simp [hb]) (.inr hfull)
    · rintro h _ (⟨hf, _⟩ | hfull)
      · cases hf
      · exact h hfull
  | unuse key =>
    exact iff_of_true (fun t ht => absurd ht List.not_mem_nil) trivial
  | remove key =>
    exact iff_of_true (fun t ht => absurd ht List.not_mem_nil) trivial

/-! ### `bucket_count` without growth -/

theorem EndCase.bucketCount {r : FindResult X} (h : EndCase K E st bs key env errno incr r) :
    r.store.table.bucketCount = st.table.bucketCount := by
  cases h with
  | found p _ => rfl
  | joined p _ => rfl
  | absent _ => rfl
  | create i _ _ =>
    unfold createAt
    cases env.callocProxy with
    | enomem => rfl
    | ok e =>
      dsimp only
      split
      · rfl
      · rfl

theorem hashTableRemoveItem_bucketCount (st : Store X) (key : ℕ) :
    (hashTableRemoveItem st key).table.bucketCount = st.table.bucketCount := by
  unfold hashTableRemoveItem
  cases st.table.buckets with
  | none => rfl
  | some bs =>
    dsimp only
    cases removeProbe bs st.table.bucketCount key with
    | inl _ => rfl
    | inr _ => rfl

theorem EndCase.lookup_table {r : FindResult X} (h : EndCase K E st bs key env errno false r) :
    r.store.table = st.table := by
  cases h with
  | found p _ => rfl
  | absent _ => rfl

/-- A lookup that meets its key or an empty bucket leaves the table as it was. -/
theorem lookup_table (hst : StoreWf st) (hlive : 2 ≤ key) (hb : st.table.buckets = some bs)
    (hroom : ¬ st.table.Full key) :
    ∃ out st', tableStep K E st (.lookup key env errno) = some (out, st') ∧
      st'.table = st.table := by
  obtain ⟨r, hr, hcase⟩ := hashTableFindOrCreate_cases K E env errno hst.table hlive false
  refine ⟨r.item, r.store, by rw [tableStep, hr, Option.map_some], ?_⟩
  cases hcase with
  | noMemory hnone _ => rw [hb] at hnone; cases hnone
  | first e r hnone _ _ _ => rw [hb] at hnone; cases hnone
  | array bs' r hwf h =>
    rw [hwf.full_iff] at hroom
    cases h with
    | ends r _ _ h => exact h.lookup_table
    | refused hwhy _ => exact absurd hwhy (by simp [hroom])
    | grown new e r hwhy _ _ _ _ => exact absurd hwhy (by simp [hroom])

/-- A call below the load that meets its key or an empty bucket leaves `bucket_count` as it was, or
sets it to the initial size. -/
theorem call_bucketCount (hst : StoreWf st) (hlive : 2 ≤ key)
    (hload : st.table.buckets ≠ none → ¬ st.table.AtLoad) (hroom : ¬ st.table.Full key) {r : FindResult X}
    (hr : hashTableFindOrCreate K E st key incr env errno = some r) :
    st.table.buckets = none ∧ r.store.table.bucketCount = HASH_BUCKETS_INITIAL ∨
      st.table.buckets ≠ none ∧ r.store.table.bucketCount = st.table.bucketCount := by
  obtain ⟨r', hr', hcase⟩ := hashTableFindOrCreate_cases K E env errno hst.table hlive incr
  obtain rfl : r = r' := Option.some.inj (hr.symm.trans hr')
  cases hcase with
  | noMemory hnone _ => exact .inl ⟨hnone, rfl⟩
  | first e r hnone _ _ h => exact .inl ⟨hnone, h.bucketCount⟩
  | array bs r hwf h =>
    rw [hwf.full_iff] at hroom
    have hb : st.table.buckets ≠ none := by simp [hwf.buckets]
    refine .inr ⟨hb, ?_⟩
    cases h with
    | ends r _ _ h => exact h.bucketCount
    | refused _ _ => rfl
    | grown new e r hwhy _ _ _ _ => exact absurd hwhy (by simp [hroom, hload hb])

/-- The runs in which every probe has room and fewer than three quarters of the initial buckets are
registered before each operation. -/
def lightSystem (K : ProxyKind X) (E : ErrnoCodes) : Lts (Store X) TableOp :=
  (tableSystem K E).restrict fun st op => op.HasRoom st ∧ (registeredKeys st).ncard ≤ 767

/-- **Without growth the array keeps its initial size.** -/
theorem lightSystem_bucketCount (h : (lightSystem K E).Reachable st)
    (hb : st.table.buckets ≠ none) : st.table.bucketCount = HASH_BUCKETS_INITIAL := by
  revert hb
  refine h.invariant (I := fun st => st.table.buckets ≠ none →
    st.table.bucketCount = HASH_BUCKETS_INITIAL) ?_ ?_
  · rintro _ rfl hb
    exact absurd rfl hb
  · rintro st op st' hr hsize ⟨⟨hop, out, hstep⟩, hroom, hkeys⟩ hb'
    have hst := tableSystem_storeWf hr.of_restrict
    rw [hst.ncard_registeredKeys] at hkeys
    -- below the load the call of an operation on an array of the initial size does not grow it
    have hload : st.table.buckets ≠ none → ¬ st.table.AtLoad := by
      intro hb
      unfold HashTable.AtLoad
      rw [hsize hb, show (HASH_BUCKETS_INITIAL >>> 2) * 3 = 768 by decide]
      omega
    have call : ∀ {key : ℕ} {incr : Bool} {env : AllocEnv} {errno : ℤ}, 2 ≤ key →
        ¬ st.table.Full key →
        ((hashTableFindOrCreate K E st key incr env errno).map fun r => (r.item, r.store))
          = some (out, st') → st'.table.bucketCount = HASH_BUCKETS_INITIAL := by
      intro key incr env errno hlive hfull hcall
      obtain ⟨r, hr', hpair⟩ := Option.map_eq_some_iff.mp hcall
      obtain ⟨_, rfl⟩ := Prod.mk.inj hpair
      rcases call_bucketCount hst hlive hload hfull hr' with ⟨_, hfirst⟩ | ⟨hb, hsame⟩
      · exact hfirst
      · exact hsame.trans (hsize hb)
    cases op with
    | register key env errno => 
      refine call hop (fun hfull => ?_) hstep
      exact hload (fun hb => HashTable.full_of_none hb hfull) (hroom hfull)
    | lookup key env errno => exact call hop hroom hstep
    | unuse key =>
      obtain ⟨_, rfl⟩ := Prod.mk.inj (Option.some.inj hstep)
      exact hsize hb'
    | remove key =>
      obtain ⟨_, rfl⟩ := Prod.mk.inj (Option.some.inj hstep)
      rw [hashTableRemoveItem_bucketCount]
      obtain ⟨p, hm⟩ := hop
      refine hsize fun hb => ?_
      have he := (entry_of_proxyMap hm).1
      rw [HashTable.entry_of_none hb] at he
      cases he

variable (K E) in
/-- **The table grows under load, as long as no probe finds the array full.** In every reachable
store that is exactly when an operation grows it for load alone. Then a lookup leaves the table as it
was, and a table that never has more than 767 keys keeps its 1024 buckets. -/
theorem grows_underLoad :
    (∀ st : Store X, (tableSystem K E).Reachable st → ∀ op : TableOp, op.Allowed (proxyMap st) →
      (GrowsUnderLoad K E st op ↔ op.HasRoom st)) ∧
    (∀ st : Store X, (tableSystem K E).Reachable st → st.table.buckets ≠ none →
      ∀ key env errno, 2 ≤ key → (TableOp.lookup key env errno).HasRoom st →
      ∃ out st', tableStep K E st (.lookup key env errno) = some (out, st') ∧
        st'.table = st.table) ∧
    (∀ st : Store X, (lightSystem K E).Reachable st → st.table.buckets ≠ none →
      st.table.bucketCount = HASH_BUCKETS_INITIAL) := by
  refine ⟨?_, ?_, fun st h hb => lightSystem_bucketCount h hb⟩
  · intro st h op hop
    exact growsUnderLoad_iff (tableSystem_storeWf h) hop
  · intro st h hb key env errno hlive hroom
    obtain ⟨bs, hbs⟩ := Option.ne_none_iff_exists'.mp hb
    exact lookup_table (tableSystem_storeWf h) hlive hbs hroom

/-- The first registration finds no array and grows none. -/
theorem grows_underLoad_first :
    GrowsUnderLoad (counterProxy (.lp64 .linux)) linuxErrno Store.zero (.register 64 .plenty 0) ↔
      (TableOp.register 64 .plenty 0).HasRoom (Store.zero : Store (BitVec 32)) :=
  (grows_underLoad (counterProxy (.lp64 .linux)) linuxErrno).1 Store.zero (.of_init rfl)
    (.register 64 .plenty 0) (by show 2 ≤ 64; decide)

/-- **A lookup grows a table without keys.** Registrations and releases, one key at a time, leave a
tombstone in each of the 1024 buckets; the next lookup doubles the array. -/
theorem lookup_grows_without_keys :
    ∃ st st', (tableSystem (counterProxy (.lp64 .linux)) linuxErrno).Reachable st ∧
      registeredKeys st = ∅ ∧ st.table.bucketCount = 1024 ∧
      ¬ GrowsUnderLoad (counterProxy (.lp64 .linux)) linuxErrno st (.lookup 64 .plenty 0) ∧
      tableStep (counterProxy (.lp64 .linux)) linuxErrno st (.lookup 64 .plenty 0)
        = some (none, st') ∧ st'.table.bucketCount = 2048 := by
  have henv : AllocEnv.plenty.Succeeds (counterProxy (.lp64 .linux)) :=
    ⟨fun _ => ⟨none, rfl⟩, ⟨none, rfl⟩, rfl⟩
  obtain ⟨bs, st, h, hall⟩ := exists_reachable_allOccupied
    (E := linuxErrno) henv le_rfl (show 10 ≤ 20 by decide)
  have hst := tableSystem_storeWf h.reachable
  have hsize : st.table.bucketCount = 1024 := h.size
  have hfull : entry bs 64 = none ∧ AllOccupied st.table.bucketCount bs :=
    ⟨h.entry 64, h.size.symm ▸ hall⟩
  have hroom : ¬ (TableOp.lookup 64 .plenty 0).HasRoom st := fun hroom =>
    hroom (h.array.full_iff.mpr hfull)
  obtain ⟨r, hr, hcase⟩ := hashTableFindOrCreate_cases (counterProxy (.lp64 .linux)) linuxErrno
    .plenty 0 hst.table (show 2 ≤ 64 by decide) false
  have hspec := hcase.lookup hst
  have hitem : r.item = none := by
    rw [hspec.item, h.array.entry]
    exact h.entry 64
  refine ⟨st, r.store, h.reachable, ?_, hsize, ?_, ?_, ?_⟩
  · ext key
    simp [registeredKeys, h.array.entry, h.entry]
  · intro hgrows
    have hop : (TableOp.lookup 64 .plenty 0).Allowed (proxyMap st) := by
      show 2 ≤ 64
      decide
    exact hroom ((growsUnderLoad_iff hst hop).mp hgrows)
  · rw [tableStep, hr, Option.map_some, hitem]
  · cases hcase with
    | noMemory _ hc => cases hc
    | first e r hb _ _ _ =>
      rw [h.array.buckets] at hb
      cases hb
    | array bs' r hwf hloop =>
      obtain rfl : bs = bs' := Option.some.inj (h.array.buckets.symm.trans hwf.buckets)
      cases hloop with
      | ends r _ hroom _ => exact absurd hfull.2 (hroom hfull.1)
      | refused _ hno =>
        rcases hno with hmax | hc
        · rw [hsize] at hmax
          exact absurd hmax (by decide)
        · cases hc
      | grown new e r _ _ _ _ hend =>
        rw [hend.bucketCount, hsize]

/-! ### A join below and at the load -/

/-- A registration of a key in the table that returns an item has joined the key. -/
theorem RegisterSpec.join {r : FindResult X} (hspec : RegisterSpec K E st key env r)
    (hst : StoreWf st) {p : ℕ} {w : ProxyWaiter X} (he : st.table.entry key = some p)
    (hw : st.heap.cell p = some w) (hsome : r.item ≠ none) :
    r.item = some p ∧ proxyMap r.store key = some (p, w.useCount + 1) := by
  cases hspec with
  | failed st' errno' _ _ _ _ => exact absurd rfl hsome
  | joined q w' st' errno' hq hw' _ hent hcell =>
    obtain rfl : p = q := Option.some.inj (he.symm.trans hq)
    obtain rfl : w = w' := Option.some.inj (hw.symm.trans hw')
    refine ⟨rfl, ?_⟩
    rw [hst.proxyMap_setCell st' he hent hcell, Function.update_self]
  | created st' errno' hnone _ _ _ =>
    rw [he] at hnone
    cases hnone

/-- **When joining a registered key succeeds.** Below three quarters of `bucket_count` it always
does; from there on it needs a growth that the size and the allocator allow. -/
theorem join_needs_memory_iff (h : (tableSystem K E).Reachable st) {p : ℕ} {u : ℤ}
    (hkey : proxyMap st key = some (p, u)) (env : AllocEnv) (errno : ℤ) :
    (∃ r, hashTableFindOrCreate K E st key true env errno = some r ∧ r.item = some p ∧
        proxyMap r.store key = some (p, u + 1)) ↔
      ¬ st.table.AtLoad ∨
        st.table.bucketCount < HASH_BUCKETS_MAX ∧
          env.callocBuckets (2 * st.table.bucketCount) ≠ .enomem := by
  have hst := tableSystem_storeWf h
  obtain ⟨he, w, hw, rfl⟩ := entry_of_proxyMap hkey
  have hlive := hst.entry_live he
  obtain ⟨r, hr, hcase⟩ := hashTableFindOrCreate_cases K E env errno hst.table hlive true
  have hwf : ∀ bs, ArrayWf st.table bs → AtomicWaits.entry bs key = some p := by
    intro bs hwf
    rw [← hwf.entry, he]
  have join : r.item ≠ none → ∃ r, hashTableFindOrCreate K E st key true env errno = some r ∧
      r.item = some p ∧ proxyMap r.store key = some (p, w.useCount + 1) :=
    fun hsome => ⟨r, hr, (hcase.register hst hlive).join hst he hw hsome⟩
  cases hcase with
  | noMemory hb _ =>
    rw [HashTable.entry_of_none hb] at he
    cases he
  | first e r hb _ _ _ =>
    rw [HashTable.entry_of_none hb] at he
    cases he
  | array bs r harr hloop =>
    have hent := hwf bs harr
    cases hloop with
    | ends r hload _ hend =>
      refine iff_of_true (join ?_) (.inl (hload rfl))
      cases hend with
      | joined q _ => simp
      | create i hnone _ => exact absurd (hent.symm.trans hnone) (by simp)
    | refused hwhy hno =>
      have hload : st.table.AtLoad := by
        rcases hwhy with ⟨_, hload⟩ | ⟨hnone, _⟩
        · exact hload
        · exact absurd (hent.symm.trans hnone) (by simp)
      refine iff_of_false ?_ ?_
      · rintro ⟨r', hr', hitem, _⟩
        obtain rfl := Option.some.inj (hr.symm.trans hr')
        cases hitem
      · rintro (hbelow | ⟨hlt, hc⟩)
        · exact hbelow hload
        · rcases hno with hmax | hc'
          · omega
          · exact hc hc'
    | grown new e r _ hc hnew hnewent hend =>
      have hlt : st.table.bucketCount < HASH_BUCKETS_MAX := by
        obtain ⟨k, h10, h20, hk⟩ := hnew.pow
        obtain ⟨k', h10', _, hk'⟩ := harr.pow
        have hpos := (two_pow_range h10' (by omega)).1
        have hle := (two_pow_range h10 h20).2
        simp only at hk
        omega
      refine iff_of_true (join ?_) (.inr ⟨hlt, by rw [hc]; simp⟩)
      cases hend with
      | joined q _ => simp
      | create i hnone _ => exact absurd (hnewent ▸ hnone) (by simp [hent])

/-- The keys `keyOfHash 0`, …, `keyOfHash (m - 1)` in the first `m` of 1024 buckets. -/
structure FilledTo (m : ℕ) (bs : List HashBucket) (t : HashTable) : Prop where
  array : ArrayWf t bs
  size : t.bucketCount = HASH_BUCKETS_INITIAL
  count : t.count = m
  filled : ∀ j < m, keyAt bs j = keyOfHash j
  empty : ∀ j, m ≤ j → keyAt bs j = 0

theorem filledTo_zero : FilledTo 0 (List.replicate HASH_BUCKETS_INITIAL emptyBucket) (firstTable 0) :=
  ⟨firstTable_wf, rfl, rfl, fun j hj => absurd hj (by omega), fun j _ => keyAt_replicate _ j⟩

theorem keyOfHash_injective {i j : ℕ} (hi : i < 2 ^ 32) (hj : j < 2 ^ 32)
    (h : keyOfHash i = keyOfHash j) : i = j := by
  rw [← hashFunc_keyOfHash hi, h, hashFunc_keyOfHash hj]

theorem FilledTo.le {m : ℕ} {t : HashTable} (h : FilledTo m bs t) : m ≤ 768 := by
  have hload := h.array.load
  rw [h.size, h.count] at hload
  have : HASH_BUCKETS_INITIAL = 1024 := rfl
  omega

theorem FilledTo.absent {m : ℕ} {t : HashTable} (h : FilledTo m bs t) :
    AtomicWaits.entry bs (keyOfHash m) = none := by
  have hm := h.le
  have hlive := two_le_keyOfHash m
  refine (entry_eq_none_iff h.array.wf hlive).mpr ?_
  intro i _ heq
  by_cases hi : i < m
  · rw [h.filled i hi] at heq
    have := keyOfHash_injective (by omega) (by omega) heq
    omega
  · rw [h.empty i (by omega)] at heq
    omega

theorem FilledTo.not_atLoad {m : ℕ} {t : HashTable} (h : FilledTo m bs t) (hm : m < 768) :
    ¬ t.AtLoad := by
  rw [h.array.atLoad_iff, h.size, h.count]
  have : HASH_BUCKETS_INITIAL = 1024 := rfl
  omega

/-- The next key goes to its home bucket. -/
theorem FilledTo.next {m : ℕ} (h : FilledTo m bs st.table) (hm : m < 768)
    (henv : AllocEnv.plenty.Succeeds K) {r : FindResult X}
    (hend : EndCase K E st bs (keyOfHash m) .plenty errno true r) :
    ∃ bs', FilledTo (m + 1) bs' r.store.table := by
  have hlt : m < st.table.bucketCount := by
    rw [h.size]
    exact hm.trans (by decide)
  have hil : m < bs.length := h.array.wf.length ▸ hlt
  have hhome : probeFor st.table.bucketCount (keyOfHash m) 0 = m :=
    probeFor_keyOfHash hlt (by rw [h.size]; decide)
  cases hend with
  | joined p he => exact absurd (he.symm.trans h.absent) (by simp)
  | create i hnone hi =>
    obtain rfl : i = m := (hi.eq_start (by rw [hhome]; exact h.empty m le_rfl)).trans hhome
    rw [createAt_ok st bs i (keyOfHash i) rfl henv.2.2]
    refine ⟨_, h.array.insert (h.not_atLoad hm) (two_le_keyOfHash i) hnone hi st.heap.next, h.size,
      congrArg (· + 1) h.count, ?_, ?_⟩
    · intro j hj
      rw [keyAt_set hil]
      split
      · next heq => rw [heq]
      · exact h.filled j (by omega)
    · intro j hj
      rw [keyAt_set hil, if_neg (by omega)]
      exact h.empty j (by omega)

/-- **Runs that register 768 keys.** -/
theorem exists_filledTo (henv : AllocEnv.plenty.Succeeds K) {m : ℕ} (h1 : 1 ≤ m) (hm : m ≤ 768) :
    ∃ bs st, (tableSystem K E).Reachable st ∧ FilledTo m bs st.table := by
  -- the next registration, as a step of the system
  have register : ∀ {st : Store X} {n : ℕ}, (tableSystem K E).Reachable st → n < 768 →
      (st.table.buckets = none ∧ n = 0 ∨ ∃ bs, FilledTo n bs st.table) →
      ∃ bs st', (tableSystem K E).Reachable st' ∧ FilledTo (n + 1) bs st'.table := by
    intro st n hr hn hfrom
    have hlive := two_le_keyOfHash n
    obtain ⟨r, hcall, hcase⟩ := hashTableFindOrCreate_cases K E .plenty 0
      (tableSystem_storeWf hr).table hlive true
    have hstep : (tableSystem K E).step st (.register (keyOfHash n) .plenty 0) r.store :=
      ⟨hlive, r.item, by rw [tableStep, hcall, Option.map_some]⟩
    suffices hnext : ∃ bs, FilledTo (n + 1) bs r.store.table by
      obtain ⟨bs, hbs⟩ := hnext
      exact ⟨bs, r.store, hr.tail hstep, hbs⟩
    cases hcase with
    | noMemory _ hc => cases hc
    | first e r hb _ _ hend =>
      rcases hfrom with ⟨_, rfl⟩ | ⟨bs, hbs⟩
      · exact filledTo_zero.next hn henv hend
      · rw [hbs.array.buckets] at hb
        cases hb
    | array bs r hwf hloop =>
      rcases hfrom with ⟨hb, _⟩ | ⟨bs', hbs⟩
      · rw [hwf.buckets] at hb
        cases hb
      · obtain rfl : bs = bs' := Option.some.inj (hwf.buckets.symm.trans hbs.array.buckets)
        have hload := hbs.not_atLoad hn
        have hroom : ¬ AllOccupied st.table.bucketCount bs := fun hall =>
          hall n (by rw [hbs.size]; exact hn.trans (by decide)) (hbs.empty n le_rfl)
        cases hloop with
        | ends r _ _ hend => exact hbs.next hn henv hend
        | refused hwhy _ => exact absurd hwhy (by simp [hload, hroom])
        | grown new e r hwhy _ _ _ _ => exact absurd hwhy (by simp [hload, hroom])
  induction m, h1 using Nat.le_induction with
  | base => exact register (.of_init rfl) (by omega) (.inl ⟨rfl, rfl⟩)
  | succ m h1 ih =>
    obtain ⟨bs, st, hr, hfill⟩ := ih (by omega)
    exact register hr (by omega) (.inr ⟨bs, hfill⟩)

/-- A full load of keys, each with its proxy. -/
theorem exists_loaded : ∃ (st : Store (BitVec 32)) (p : ℕ) (u : ℤ),
    (tableSystem (counterProxy (.lp64 .linux)) linuxErrno).Reachable st ∧
      proxyMap st (keyOfHash 0) = some (p, u) ∧ st.table.bucketCount = 1024 ∧
      st.table.count = 768 ∧ st.table.AtLoad := by
  have henv : AllocEnv.plenty.Succeeds (counterProxy (.lp64 .linux)) :=
    ⟨fun _ => ⟨none, rfl⟩, ⟨none, rfl⟩, rfl⟩
  obtain ⟨bs, st, hr, hfill⟩ := exists_filledTo (E := linuxErrno) henv (show 1 ≤ 768 by decide) le_rfl
  have hst := tableSystem_storeWf hr
  have hsize : st.table.bucketCount = 1024 := hfill.size
  have hne : AtomicWaits.entry bs (keyOfHash 0) ≠ none := fun hnone =>
    (entry_eq_none_iff hfill.array.wf (two_le_keyOfHash 0)).mp hnone 0 (by omega)
      (hfill.filled 0 (by decide))
  obtain ⟨p, hp⟩ := Option.ne_none_iff_exists'.mp hne
  rw [← hfill.array.entry] at hp
  obtain ⟨w, hw⟩ := Option.isSome_iff_exists.mp (hst.alloc _ p hp)
  refine ⟨st, p, w.useCount, hr, proxyMap_of_entry hp hw, hsize, hfill.count, ?_⟩
  rw [hfill.array.atLoad_iff, hsize, hfill.count]

/-- With memory, a join at the load grows the table and succeeds. -/
theorem join_needs_memory_iff_loaded : ∃ (st : Store (BitVec 32)) (p : ℕ) (u : ℤ),
    st.table.AtLoad ∧ ∃ r, hashTableFindOrCreate (counterProxy (.lp64 .linux)) linuxErrno st
      (keyOfHash 0) true .plenty 0 = some r ∧ r.item = some p ∧
        proxyMap r.store (keyOfHash 0) = some (p, u + 1) := by
  obtain ⟨st, p, u, hr, hmap, hsize, _, hload⟩ := exists_loaded
  refine ⟨st, p, u, hload, (join_needs_memory_iff hr hmap .plenty 0).mpr (.inr ⟨?_, ?_⟩)⟩
  · rw [hsize]
    decide
  · simp [AllocEnv.plenty]

/-- **A join may fail for lack of memory.** With 768 keys in 1024 buckets and no memory, the second
wait on an object that has a waiter reports `ENOMEM`. -/
theorem join_fails_without_memory : ∃ (st : Store (BitVec 32)) (p : ℕ) (u : ℤ),
    (tableSystem (counterProxy (.lp64 .linux)) linuxErrno).Reachable st ∧
      proxyMap st (keyOfHash 0) = some (p, u) ∧
      hashTableFindOrCreate (counterProxy (.lp64 .linux)) linuxErrno st (keyOfHash 0) true .exhausted 0
        = some ⟨none, st, linuxErrno.ENOMEM⟩ := by
  obtain ⟨st, p, u, hr, hmap, _, _, hload⟩ := exists_loaded
  refine ⟨st, p, u, hr, hmap, ?_⟩
  obtain ⟨r, hcall, hcase⟩ := hashTableFindOrCreate_cases (counterProxy (.lp64 .linux)) linuxErrno
    .exhausted 0 (tableSystem_storeWf hr).table (two_le_keyOfHash 0) true
  rw [hcall]
  cases hcase with
  | noMemory hb _ => rw [proxyMap_of_none (by rw [HashTable.entry_of_none hb])] at hmap; cases hmap
  | first e r _ _ hc _ => cases hc
  | array bs r _ hloop =>
    cases hloop with
    | ends r hbelow _ _ => exact absurd hload (hbelow rfl)
    | refused _ _ => rfl
    | grown new e r _ hc _ _ _ => cases hc

end AtomicWaits
