import AtomicWaits.HashTableMap
import Mathlib.Data.Set.Card

/-!
# When a registration succeeds

With memory available, a registration below three quarters of the maximal size fails in one case
only: the array has its maximal size, no bucket of it is empty, and the key is absent. Tombstones
count as occupied and only a rehash clears them, so this happens with no key registered at all.

* `register_succeeds_iff`: the exact condition.
* `exists_reachable_allOccupied`: for every size of the array, a run of registrations and releases
  that leaves a tombstone in every bucket.
* `register_fails_without_keys`: at the maximal size the next registration reports `ENOMEM`.
-/

namespace AtomicWaits

open Lib

variable {X : Type} {K : ProxyKind X} {E : ErrnoCodes}

/-- The objects that have a proxy. -/
def registeredKeys (st : Store X) : Set ℕ := {key | st.table.entry key ≠ none}

/-- Every allocation and every initialisation of the call succeeds. -/
def AllocEnv.Succeeds (K : ProxyKind X) (env : AllocEnv) : Prop :=
  (∀ size, ∃ e, env.callocBuckets size = .ok e) ∧ (∃ e, env.callocProxy = .ok e) ∧
    K.init env.initProxy = 0

/-- The array has its maximal size, holds a key or a tombstone in every bucket, and not the key. -/
def Clogged (st : Store X) (key : ℕ) : Prop :=
  st.table.bucketCount = HASH_BUCKETS_MAX ∧
    (∃ bs, st.table.buckets = some bs ∧ AllOccupied HASH_BUCKETS_MAX bs) ∧
    st.table.entry key = none

/-! ### `count` is the number of registered keys -/

theorem ArrayWf.ncard_live {t : HashTable} {bs : List HashBucket} (h : ArrayWf t bs) :
    {key | AtomicWaits.entry bs key ≠ none}.ncard = t.count := by
  let live := (bs.filter fun b => 2 ≤ b.key).map HashBucket.key
  have hnodup : live.Nodup := by
    refine List.Nodup.of_map id ?_
    rw [List.map_id, List.Nodup, List.pairwise_map, List.pairwise_filter]
    refine h.wf.pairwise.imp ?_
    intro a b hab ha _
    exact hab (by simpa using ha)
  have hset : {key | AtomicWaits.entry bs key ≠ none} = (live.toFinset : Set ℕ) := by
    ext key
    rw [Set.mem_ofPred_eq, List.coe_toFinset, Set.mem_ofPred_eq, List.mem_map]
    constructor
    · intro hne
      obtain ⟨p, hp⟩ := Option.ne_none_iff_exists'.mp hne
      obtain ⟨i, hi, hb⟩ := exists_keyAt_of_entry h.wf hp
      refine ⟨bucketAt bs i, ?_, by rw [hb]⟩
      have hlive := AtomicWaits.entry_live h.wf hp
      exact List.mem_filter.mpr ⟨bucketAt_mem (h.wf.length ▸ hi), by rw [hb]; simpa using hlive⟩
    · rintro ⟨b, hb, rfl⟩ hnone
      obtain ⟨hmem, hlive⟩ := List.mem_filter.mp hb
      obtain ⟨i, hi, hbi⟩ := exists_keyAt_of_mem hmem
      refine (entry_eq_none_iff h.wf (by simpa using hlive)).mp hnone i (h.wf.length ▸ hi) ?_
      rw [keyAt, hbi]
  rw [hset, Set.ncard_coe_finset, List.toFinset_card_of_nodup hnodup, List.length_map, h.count,
    liveCount, List.countP_eq_length_filter]

theorem StoreWf.ncard_registeredKeys {st : Store X} (h : StoreWf st) :
    (registeredKeys st).ncard = st.table.count := by
  unfold registeredKeys
  cases hb : st.table.buckets with
  | none =>
    rw [HashTable.entry_of_none hb, h.table.count_of_none hb]
    simp
  | some bs =>
    have hwf := h.table.array hb
    rw [hwf.entry]
    exact hwf.ncard_live

/-! ### The condition -/

theorem EndCase.item_isSome {st : Store X} {bs : List HashBucket} {key : ℕ} {env : AllocEnv}
    {errno : ℤ} {r : FindResult X} (henv : env.Succeeds K)
    (h : EndCase K E st bs key env errno true r) : r.item.isSome := by
  cases h with
  | joined p _ => rfl
  | create i _ _ =>
    obtain ⟨_, ⟨e, he⟩, hinit⟩ := henv
    rw [createAt_ok st bs i key he hinit errno]
    rfl

theorem CallCase.item_isSome_iff {st : Store X} {key : ℕ} {env : AllocEnv} {errno : ℤ}
    {r : FindResult X} (hcount : 4 * st.table.count < 3 * HASH_BUCKETS_MAX)
    (henv : env.Succeeds K) (h : CallCase K E st key true env errno r) :
    r.item.isSome ↔ ¬ Clogged st key := by
  cases h with
  | noMemory hb hc =>
    obtain ⟨e, he⟩ := henv.1 HASH_BUCKETS_INITIAL
    rw [hc] at he
    cases he
  | first e r hb _ _ h =>
    refine iff_of_true (h.item_isSome henv) ?_
    rintro ⟨_, ⟨bs, hbs, _⟩, _⟩
    rw [hb] at hbs
    cases hbs
  | array bs r hwf h =>
    have hclog : Clogged st key ↔ st.table.bucketCount = HASH_BUCKETS_MAX ∧
        AllOccupied st.table.bucketCount bs ∧ entry bs key = none := by
      unfold Clogged
      rw [hwf.entry, hwf.buckets]
      constructor
      · rintro ⟨hmax, ⟨_, hbs, hall⟩, hnone⟩
        cases hbs
        exact ⟨hmax, by rw [hmax]; exact hall, hnone⟩
      · rintro ⟨hmax, hall, hnone⟩
        exact ⟨hmax, ⟨bs, rfl, hmax ▸ hall⟩, hnone⟩
    rw [hclog]
    cases h with
    | ends r _ hroom h =>
      exact iff_of_true (h.item_isSome henv) fun hc => hroom hc.2.2 hc.2.1
    | refused hwhy hno =>
      have hmax : st.table.bucketCount = HASH_BUCKETS_MAX := by
        rcases hno with hmax | hc
        · exact hmax
        · obtain ⟨e, he⟩ := henv.1 (2 * st.table.bucketCount)
          rw [hc] at he
          cases he
      refine iff_of_false (by simp) (not_not_intro ⟨hmax, ?_⟩)
      rcases hwhy with ⟨_, hload⟩ | ⟨hnone, hall⟩
      · unfold HashTable.AtLoad at hload
        rw [hmax, Nat.shiftRight_eq_div_pow] at hload
        unfold HASH_BUCKETS_MAX at hload hcount
        omega
      · exact ⟨hall, hnone⟩
    | grown new e r _ _ hnew _ h =>
      refine iff_of_true (h.item_isSome henv) ?_
      rintro ⟨hmax, _⟩
      obtain ⟨k, _, h20, hk⟩ := hnew.pow
      have hle := (two_pow_range (by omega) h20).2
      rw [← hk] at hle
      have hpos : 0 < HASH_BUCKETS_MAX := by decide
      simp only at hle
      omega

/-- **Capacity.** In every store a sequence of operations reaches, with fewer than three quarters of
the maximal number of keys registered and with memory available, a registration returns a proxy
exactly when the array is not clogged. -/
theorem register_succeeds_iff {st : Store X} (h : (tableSystem K E).Reachable st) {key : ℕ}
    (hkey : 2 ≤ key) (hcount : 4 * (registeredKeys st).ncard < 3 * HASH_BUCKETS_MAX)
    {env : AllocEnv} (henv : env.Succeeds K) (errno : ℤ) :
    (∃ r p, hashTableFindOrCreate K E st key true env errno = some r ∧ r.item = some p) ↔
      ¬ Clogged st key := by
  have hst := tableSystem_storeWf h
  rw [hst.ncard_registeredKeys] at hcount
  obtain ⟨r, hr, hcase⟩ := hashTableFindOrCreate_cases K E env errno hst.table hkey true
  rw [← hcase.item_isSome_iff hcount henv, Option.isSome_iff_exists]
  constructor
  · rintro ⟨r', p, hr', hp⟩
    obtain rfl : r = r' := Option.some.inj (hr.symm.trans hr')
    exact ⟨p, hp⟩
  · rintro ⟨p, hp⟩
    exact ⟨r, p, hr, hp⟩

/-- The first registration of all. -/
theorem register_succeeds_iff_first :
    (∃ r p, hashTableFindOrCreate (counterProxy (.lp64 .linux)) linuxErrno Store.zero 64 true
      .plenty 0 = some r ∧ r.item = some p) ↔ ¬ Clogged (Store.zero : Store (BitVec 32)) 64 := by
  have henv : AllocEnv.plenty.Succeeds (counterProxy (.lp64 .linux)) :=
    ⟨fun _ => ⟨none, rfl⟩, ⟨none, rfl⟩, rfl⟩
  have hcount : 4 * (registeredKeys (Store.zero : Store (BitVec 32))).ncard
      < 3 * HASH_BUCKETS_MAX := by
    rw [storeWf_zero.ncard_registeredKeys]
    decide
  exact register_succeeds_iff (.of_init rfl) (by decide) hcount henv 0

/-! ### A key for every bucket -/

/-- An address with the hash value `v`: the multiplier of `hash_func` is odd, so it has an inverse
modulo `2 ^ 32`. -/
def keyOfHash (v : ℕ) : ℕ := 2 ^ 32 + ((v * 899433627 % 2 ^ 32) ^^^ 2166136261)

theorem hashFunc_keyOfHash {v : ℕ} (hv : v < 2 ^ 32) : hashFunc (keyOfHash v) = v := by
  have hx : (v * 899433627 % 2 ^ 32) ^^^ 2166136261 < 2 ^ 32 :=
    Nat.xor_lt_two_pow (Nat.mod_lt _ (by decide)) (by decide)
  unfold hashFunc keyOfHash
  rw [Nat.add_mod_left, Nat.mod_eq_of_lt hx, Nat.xor_assoc, Nat.xor_self, Nat.xor_zero,
    Nat.mod_mul_mod, Nat.mul_assoc, Nat.mul_mod, show 899433627 * 16777619 % 2 ^ 32 = 1 by decide,
    Nat.mul_one, Nat.mod_mod, Nat.mod_eq_of_lt hv]

theorem home_keyOfHash {n j : ℕ} (hj : j < n) (hn : n ≤ 2 ^ 32) : home n (keyOfHash j) = j := by
  rw [home, hashFunc_keyOfHash (by omega), Nat.mod_eq_of_lt hj]

theorem probeFor_keyOfHash {n j : ℕ} (hj : j < n) (hn : n ≤ HASH_BUCKETS_MAX) :
    probeFor n (keyOfHash j) 0 = j := by
  have hmax : HASH_BUCKETS_MAX ≤ 2 ^ 32 := by decide
  rw [probeFor, probeIdx_zero, home_keyOfHash hj (by omega), Nat.mod_eq_of_lt hj]

/-- The probe stops at its first bucket when that is empty. -/
theorem Insertable.eq_start {n key i : ℕ} {bs : List HashBucket} (hi : Insertable n bs key i)
    (hempty : keyAt bs (probeFor n key 0) = 0) : i = probeFor n key 0 := by
  obtain ⟨s, _, hs, hpath⟩ := hi.path
  rcases Nat.eq_zero_or_pos s with rfl | hpos
  · exact hs.symm
  · exact absurd hempty (hpath 0 hpos)

theorem two_le_keyOfHash (v : ℕ) : 2 ≤ keyOfHash v := by
  have : 2 ≤ 2 ^ 32 := by decide
  unfold keyOfHash
  omega

/-! ### Runs that leave tombstones -/

/-- A store that some run reaches, with an array of `n` buckets and no registered key. -/
structure Idle (K : ProxyKind X) (E : ErrnoCodes) (n : ℕ) (bs : List HashBucket) (st : Store X) :
    Prop where
  reachable : (tableSystem K E).Reachable st
  array : ArrayWf st.table bs
  size : st.table.bucketCount = n
  count : st.table.count = 0

theorem entry_of_liveCount_zero {n : ℕ} {bs : List HashBucket} (hwf : BucketsWf n bs)
    (hzero : liveCount bs = 0) (key : ℕ) : entry bs key = none := by
  cases he : entry bs key with
  | none => rfl
  | some p =>
    obtain ⟨i, hi, hb⟩ := exists_keyAt_of_entry hwf he
    have hpos : 0 < liveCount bs := List.countP_pos_iff.mpr
      ⟨_, bucketAt_mem (hwf.length ▸ hi), by rw [hb]; simpa using entry_live hwf he⟩
    omega

theorem Idle.entry {n : ℕ} {bs : List HashBucket} {st : Store X} (h : Idle K E n bs st) (key : ℕ) :
    entry bs key = none :=
  entry_of_liveCount_zero h.array.wf (h.array.count.symm.trans h.count) key

theorem Idle.not_atLoad {n : ℕ} {bs : List HashBucket} {st : Store X} (h : Idle K E n bs st) :
    ¬ st.table.AtLoad := by
  obtain ⟨k, h10, h20, hk⟩ := h.array.pow
  have hrange := (two_pow_range h10 h20).1
  unfold HashTable.AtLoad
  rw [h.count, Nat.shiftRight_eq_div_pow]
  omega

/-- The release of the only registration of a key turns its bucket into a tombstone. -/
theorem exists_release {st : Store X} {bs : List HashBucket} {key p : ℕ} {w : ProxyWaiter X}
    (hr : (tableSystem K E).Reachable st) (hwf : ArrayWf st.table bs)
    (he : AtomicWaits.entry bs key = some p) (hw : st.heap.cell p = some w)
    (huse : w.useCount = 1) :
    ∃ st', ∃ i < st.table.bucketCount, (tableSystem K E).Reachable st' ∧
      bucketAt bs i = ⟨some p, key⟩ ∧
      st'.table = ⟨some (bs.set i ⟨none, HASH_BUCKET_DELETED⟩), st.table.bucketCount,
        st.table.count - 1⟩ := by
  have he' : st.table.entry key = some p := by rw [hwf.entry, he]
  have hmap := proxyMap_of_entry he' hw
  have hzero : w.useCount - 1 = 0 := by omega
  -- the use count drops to zero
  let st₁ : Store X := ⟨st.table, { st.heap with
    cell := Function.update st.heap.cell p (some { w with useCount := w.useCount - 1 }) }⟩
  have hw₁ : st₁.heap.cell p = some { w with useCount := w.useCount - 1 } :=
    Function.update_self ..
  have hstep₁ : (tableSystem K E).step st (.unuse key) st₁ :=
    ⟨⟨p, w.useCount, hmap, by omega⟩, none, tableStep_unuse he' hw⟩
  -- the item is removed
  have hwf₁ : ArrayWf st₁.table bs := hwf
  have he₁ : st₁.table.entry key = some p := he'
  have hmap₁ : proxyMap st₁ key = some (p, 0) := by
    rw [proxyMap_of_entry he₁ hw₁]
    exact congrArg (fun u => some (p, u)) hzero
  obtain ⟨i, hi, hb, hrem⟩ := hashTableRemoveItem_of_array hwf₁ he hw₁ hzero
  have hstep₂ : (tableSystem K E).step st₁ (.remove key) (hashTableRemoveItem st₁ key) :=
    ⟨⟨p, hmap₁⟩, none, rfl⟩
  exact ⟨_, i, hi, (hr.tail hstep₁).tail hstep₂, hb, by rw [hrem]⟩

/-- A key created in the bucket `i` and released again leaves a tombstone there. -/
theorem exists_idle_of_create {st st₀ : Store X} {bs : List HashBucket} {key i : ℕ} {errno : ℤ}
    (hinit : AllocEnv.plenty.Succeeds K) (hr : (tableSystem K E).Reachable st) (hkey : 2 ≤ key)
    (hcall : hashTableFindOrCreate K E st key true .plenty 0
      = some (createAt K E st₀ bs i key .plenty errno))
    (hwf : ArrayWf st₀.table bs) (hcount : st₀.table.count = 0) (hload : ¬ st₀.table.AtLoad)
    (hnone : AtomicWaits.entry bs key = none) (hi : Insertable st₀.table.bucketCount bs key i) :
    ∃ st', Idle K E st₀.table.bucketCount (bs.set i ⟨none, HASH_BUCKET_DELETED⟩) st' := by
  have hil : i < bs.length := hwf.wf.length ▸ hi.lt
  have hnew := (entry_eq_none_iff hwf.wf hkey).mp hnone
  let p := st₀.heap.next
  rw [createAt_ok st₀ bs i key rfl hinit.2.2 errno] at hcall
  -- the registration
  let st₁ : Store X := ⟨⟨some (bs.set i ⟨some p, key⟩), st₀.table.bucketCount, st₀.table.count + 1⟩,
    ⟨Function.update st₀.heap.cell p (some ⟨1, K.initial⟩), p + 1, st₀.heap.fault⟩⟩
  have hstep₁ : (tableSystem K E).step st (.register key .plenty 0) st₁ := by
    refine ⟨hkey, some p, ?_⟩
    rw [tableStep, hcall]
    rfl
  have hwf₁ : ArrayWf st₁.table (bs.set i ⟨some p, key⟩) := hwf.insert hload hkey hnone hi p
  have he₁ : AtomicWaits.entry (bs.set i ⟨some p, key⟩) key = some p := by
    rw [entry_insert hwf.wf hkey hnew hi, Function.update_self]
  -- its release
  obtain ⟨st', j, hj, hr', hb, htable⟩ := exists_release (hr.tail hstep₁) hwf₁ he₁
    (Function.update_self ..) rfl
  have hji : j = i := by
    refine hwf₁.wf.unique j hj i hi.lt ?_ ?_
    · rw [keyAt, hb]
      exact hkey
    · rw [keyAt, hb, keyAt_set hil, if_pos rfl]
  rw [hji, List.set_set] at htable
  have hwf' : ArrayWf st'.table (bs.set i ⟨none, HASH_BUCKET_DELETED⟩) :=
    (tableSystem_storeWf hr').table.array (by rw [htable])
  refine ⟨st', hr', hwf', by rw [htable], ?_⟩
  rw [htable]
  show st₀.table.count + 1 - 1 = 0
  omega

/-- **An empty bucket becomes a tombstone.** The key whose probe starts there is registered and
released. -/
theorem Idle.fill {n j : ℕ} {bs : List HashBucket} {st : Store X} (h : Idle K E n bs st)
    (henv : AllocEnv.plenty.Succeeds K) (hj : j < n) (hempty : keyAt bs j = 0) :
    ∃ st', Idle K E n (bs.set j ⟨none, HASH_BUCKET_DELETED⟩) st' := by
  have hst := tableSystem_storeWf h.reachable
  have hsize := h.size
  have hkey := two_le_keyOfHash j
  have hhome : probeFor st.table.bucketCount (keyOfHash j) 0 = j := by
    obtain ⟨k, _, h20, hk⟩ := h.array.pow
    have hle := (two_pow_range (by omega) h20).2
    exact probeFor_keyOfHash (hsize.symm ▸ hj) (by omega)
  obtain ⟨r, hr, hcase⟩ := hashTableFindOrCreate_cases K E .plenty 0 hst.table hkey true
  cases hcase with
  | noMemory hb _ =>
    rw [h.array.buckets] at hb
    cases hb
  | first e r hb _ _ _ =>
    rw [h.array.buckets] at hb
    cases hb
  | array bs' r hwf hloop =>
    obtain rfl : bs = bs' := Option.some.inj (h.array.buckets.symm.trans hwf.buckets)
    have hroom : ¬ AllOccupied st.table.bucketCount bs := fun hall =>
      hall j (hsize.symm ▸ hj) hempty
    cases hloop with
    | refused hwhy _ => exact absurd hwhy (by simp [h.not_atLoad, hroom])
    | grown new e r hwhy _ _ _ _ => exact absurd hwhy (by simp [h.not_atLoad, hroom])
    | ends r _ _ hend =>
      cases hend with
      | joined p he => exact absurd he (by rw [h.entry]; simp)
      | create i hnone hi =>
        obtain rfl : i = j := (hi.eq_start (hhome.symm ▸ hempty)).trans hhome
        rw [← hsize]
        exact exists_idle_of_create henv h.reachable hkey hr h.array h.count h.not_atLoad hnone hi

/-- **Every bucket becomes a tombstone**, one after the other. -/
theorem Idle.fillAll {n : ℕ} {bs : List HashBucket} {st : Store X} (h : Idle K E n bs st)
    (henv : AllocEnv.plenty.Succeeds K) :
    ∃ bs' st', Idle K E n bs' st' ∧ AllOccupied n bs' := by
  have upTo : ∀ m ≤ n, ∃ bs' st', Idle K E n bs' st' ∧ ∀ i < m, keyAt bs' i ≠ 0 := by
    intro m
    induction m with
    | zero => intro _; exact ⟨bs, st, h, fun i hi => absurd hi (by omega)⟩
    | succ m ih =>
      intro hm
      obtain ⟨bs', st', h', hfull⟩ := ih (by omega)
      by_cases hempty : keyAt bs' m = 0
      · obtain ⟨st'', h''⟩ := h'.fill henv (show m < n by omega) hempty
        have hml : m < bs'.length := by
          rw [h'.array.wf.length, h'.size]
          omega
        refine ⟨_, st'', h'', fun i hi => ?_⟩
        rw [keyAt_set hml]
        split
        · decide
        · exact hfull i (by omega)
      · refine ⟨bs', st', h', fun i hi => ?_⟩
        rcases Nat.lt_succ_iff_lt_or_eq.mp hi with hlt | rfl
        · exact hfull i hlt
        · exact hempty
  obtain ⟨bs', st', h', hfull⟩ := upTo n le_rfl
  exact ⟨bs', st', h', hfull⟩

/-- The first registration and its release leave an array of the initial size. -/
theorem exists_idle_initial (henv : AllocEnv.plenty.Succeeds K) :
    ∃ bs st, Idle K E HASH_BUCKETS_INITIAL bs st := by
  have hr₀ : (tableSystem K E).Reachable Store.zero := .of_init rfl
  obtain ⟨r, hr, hcase⟩ := hashTableFindOrCreate_cases K E .plenty 0
    (storeWf_zero (X := X)).table (show 2 ≤ 64 by decide) true
  cases hcase with
  | array bs r hwf _ => exact absurd hwf.buckets (by simp [Store.zero, HashTable.zero])
  | noMemory _ hc => cases hc
  | first e r _ _ _ hend =>
    cases hend with
    | joined p he =>
      rw [entry_replicate] at he
      cases he
    | create i hnone hi =>
      obtain ⟨st, hst⟩ := exists_idle_of_create henv hr₀ (by decide) hr firstTable_wf rfl
        firstTable_not_atLoad hnone hi
      exact ⟨_, st, hst⟩

/-- A registration in an array without empty buckets doubles the array. -/
theorem Idle.double {n : ℕ} {bs : List HashBucket} {st : Store X} (h : Idle K E n bs st)
    (henv : AllocEnv.plenty.Succeeds K) (hfull : AllOccupied n bs) (hlt : n < HASH_BUCKETS_MAX) :
    ∃ bs' st', Idle K E (2 * n) bs' st' := by
  have hst := tableSystem_storeWf h.reachable
  have hsize := h.size
  obtain ⟨r, hr, hcase⟩ := hashTableFindOrCreate_cases K E .plenty 0 hst.table
    (show 2 ≤ 64 by decide) true
  cases hcase with
  | noMemory hb _ =>
    rw [h.array.buckets] at hb
    cases hb
  | first e r hb _ _ _ =>
    rw [h.array.buckets] at hb
    cases hb
  | array bs' r hwf hloop =>
    obtain rfl : bs = bs' := Option.some.inj (h.array.buckets.symm.trans hwf.buckets)
    cases hloop with
    | ends r _ hroom _ => exact absurd (hsize.symm ▸ hfull) (hroom (h.entry 64))
    | refused _ hno =>
      rcases hno with hmax | hc
      · omega
      · cases hc
    | grown new e r _ _ hnew hent hend =>
      cases hend with
      | joined p he => exact absurd he (by rw [hent, h.entry]; simp)
      | create i hnone hi =>
        obtain ⟨st', h'⟩ := exists_idle_of_create henv h.reachable (by decide) hr hnew h.count
          (grown_not_atLoad h.array _) hnone hi
        rw [← hsize]
        exact ⟨_, st', h'⟩

/-- **Tombstones in every bucket, at every size of the array.** -/
theorem exists_reachable_allOccupied (henv : AllocEnv.plenty.Succeeds K) {k : ℕ} (h10 : 10 ≤ k)
    (h20 : k ≤ 20) : ∃ bs st, Idle K E (2 ^ k) bs st ∧ AllOccupied (2 ^ k) bs := by
  induction k, h10 using Nat.le_induction with
  | base =>
    obtain ⟨bs, st, h⟩ := exists_idle_initial (K := K) (E := E) henv
    exact h.fillAll henv
  | succ k h10 ih =>
    obtain ⟨bs, st, h, hfull⟩ := ih (by omega)
    have hlt : 2 ^ k < HASH_BUCKETS_MAX :=
      Nat.pow_lt_pow_right (show 1 < 2 by decide) (show k < 20 by omega)
    obtain ⟨bs', st', h'⟩ := h.double henv hfull hlt
    rw [pow_succ, Nat.mul_comm]
    exact h'.fillAll henv

/-- **Capacity depends on the history.** A run ends with no key registered, and the next
registration reports `ENOMEM` although every allocation succeeds. -/
theorem register_fails_without_keys :
    ∃ st, (tableSystem (counterProxy (.lp64 .linux)) linuxErrno).Reachable st ∧
      registeredKeys st = ∅ ∧ AllocEnv.plenty.Succeeds (counterProxy (.lp64 .linux)) ∧
      hashTableFindOrCreate (counterProxy (.lp64 .linux)) linuxErrno st 64 true .plenty 0
        = some ⟨none, st, linuxErrno.ENOMEM⟩ := by
  have henv : AllocEnv.plenty.Succeeds (counterProxy (.lp64 .linux)) :=
    ⟨fun _ => ⟨none, rfl⟩, ⟨none, rfl⟩, rfl⟩
  obtain ⟨bs, st, h, hfull⟩ := exists_reachable_allOccupied
    (E := linuxErrno) henv (show 10 ≤ 20 by decide) le_rfl
  have hst := tableSystem_storeWf h.reachable
  have hsize : st.table.bucketCount = HASH_BUCKETS_MAX := h.size
  refine ⟨st, h.reachable, ?_, henv, ?_⟩
  · ext key
    simp [registeredKeys, h.array.entry, h.entry]
  obtain ⟨r, hr, hcase⟩ := hashTableFindOrCreate_cases (counterProxy (.lp64 .linux)) linuxErrno
    .plenty 0 hst.table (show 2 ≤ 64 by decide) true
  rw [hr]
  cases hcase with
  | noMemory _ hc => cases hc
  | first e r hb _ _ _ =>
    rw [h.array.buckets] at hb
    cases hb
  | array bs' r hwf hloop =>
    obtain rfl : bs = bs' := Option.some.inj (h.array.buckets.symm.trans hwf.buckets)
    cases hloop with
    | ends r _ hroom _ => exact absurd (h.size.symm ▸ hfull) (hroom (h.entry 64))
    | refused _ _ => rfl
    | grown new e r _ _ hnew _ _ =>
      obtain ⟨k, _, hk20, hk⟩ := hnew.pow
      have hle := (two_pow_range (by omega) hk20).2
      have hpos : 0 < HASH_BUCKETS_MAX := by decide
      simp only [hsize] at hk
      omega

end AtomicWaits
