import AtomicWaits.HashTableMap
import AtomicWaits.Lib.ProbeRun

/-!
# What the probe loops examine

The probe loops of `hash_table_grow`, `hash_table_find_or_create` and `hash_table_remove_item`, each
as runs of the loop of the source (`ProbeRun`), over any bucket array of a power-of-two size: a run
examines no bucket twice, and the whole table when the step limit ends it
(`triangularProbing_two_pow`). In a table some run of operations reached, a lookup and a removal
stop at the bucket of their item (`ArrayWf.itemsReached`).
-/

namespace AtomicWaits

open Lib

/-- The bucket at which the probe loop ended. -/
def ProbeEnd.idx : ProbeEnd → ℕ
  | .found idx => idx
  | .empty idx _ => idx

/-- A lookup goes on until it meets its key or an empty bucket. -/
theorem findBody_searches (bs : List HashBucket) (key : ℕ) :
    Searches (findBody bs key) (fun i => keyAt bs i = key ∨ keyAt bs i = 0) ProbeEnd.idx where
  hit := by
    intro i d r h
    by_cases hkey : keyAt bs i = key
    · rw [findBody_found hkey] at h
      cases h
      exact ⟨rfl, .inl hkey⟩
    · by_cases hzero : keyAt bs i = 0
      · rw [findBody_empty hkey hzero] at h
        cases h
        exact ⟨rfl, .inr hzero⟩
      · by_cases hdel : keyAt bs i = HASH_BUCKET_DELETED ∧ d = none
        · rw [findBody_deleted hkey hzero hdel] at h
          cases h
        · rw [findBody_next hkey hzero hdel] at h
          cases h
  miss := by
    intro i d d' h hor
    by_cases hkey : keyAt bs i = key
    · rw [findBody_found hkey] at h
      cases h
    · rw [findBody_empty hkey (hor.resolve_left hkey)] at h
      cases h

theorem probeStart_lt (k key : ℕ) : hashFunc key &&& (2 ^ k - 1) < 2 ^ k := by
  rw [hashFunc_and_mask]
  exact home_lt (by positivity) key

/-- Triangular probing in a table of `n` buckets. -/
structure TriangularProbing (n : ℕ) : Prop where
  /-- The indices from a start are `n` different ones, all of the table. -/
  indices : ∀ h < n, (probeIndices n h).length = n ∧ (probeIndices n h).Nodup ∧
    ∀ j, j ∈ probeIndices n h ↔ j < n
  /-- In `unsigned` arithmetic the loop variables and the test of the step limit are the same. -/
  unsigned : ∀ bucketCount h : BitVec 32, bucketCount.toNat = n → h < bucketCount → ∀ i < n,
    (probeVars bucketCount h i).idx.toNat = loopIdx n h.toNat i ∧
    (probeVars bucketCount h i).step.toNat = i ∧
    (bucketCount ≤ (probeVars bucketCount h i).step + 1 ↔ n ≤ i + 1)
  /-- The loop of `hash_table_grow` looks for an empty bucket of the new array. -/
  place : ∀ newBuckets key, Exhaustive n (searchBody fun i => (bucketAt newBuckets i).key = 0)
    (hashFunc key &&& (n - 1)) () (fun i => keyAt newBuckets i = 0) id (placeProbe newBuckets n key)
  /-- The loop of `hash_table_find_or_create` looks for its key or an empty bucket. -/
  find : ∀ bs key, Exhaustive n (findBody bs key) (hashFunc key &&& (n - 1)) none
    (fun i => keyAt bs i = key ∨ keyAt bs i = 0) ProbeEnd.idx (findProbe bs n key)
  /-- The loop of `hash_table_remove_item` looks for its key. -/
  remove : ∀ bs key, Exhaustive n (searchBody fun i => (bucketAt bs i).key = key)
    (hashFunc key &&& (n - 1)) () (fun i => keyAt bs i = key) id (removeProbe bs n key)

theorem probeVars_unsigned {k : ℕ} {n h : BitVec 32} (hn : n.toNat = 2 ^ k) (hh : h < n) (i : ℕ)
    (hi : i < 2 ^ k) :
    (probeVars n h i).idx.toNat = loopIdx (2 ^ k) h.toNat i ∧ (probeVars n h i).step.toNat = i ∧
      (n ≤ (probeVars n h i).step + 1 ↔ 2 ^ k ≤ i + 1) := by
  have hwidth := n.isLt
  have hstep := probeVars_step n h i (by omega)
  have hnext : ((probeVars n h i).step + 1).toNat = i + 1 := probeVars_step n h (i + 1) (by omega)
  refine ⟨probeVars_idx hn (hn ▸ BitVec.lt_def.mp hh) i hi, hstep, ?_⟩
  rw [BitVec.le_def, hn, hnext]

theorem triangularProbing_two_pow (k : ℕ) : TriangularProbing (2 ^ k) where
  indices := fun _ hh => ⟨length_probeIndices _ _, nodup_probeIndices hh, mem_probeIndices hh⟩
  unsigned := fun _ _ hn hh i hi => probeVars_unsigned hn hh i hi
  place := fun _ key => probeLoop_exhaustive (probeStart_lt k key) (searchBody_searches _) ()
  find := fun bs key => probeLoop_exhaustive (probeStart_lt k key) (findBody_searches bs key) none
  remove := fun _ key => probeLoop_exhaustive (probeStart_lt k key) (searchBody_searches _) ()

/-! ### Registered items -/

/-- In the bucket array `bs` of `n` buckets, a lookup and a removal reach every item. -/
structure ItemsReached (n : ℕ) (bs : List HashBucket) : Prop where
  length : bs.length = n
  probing : TriangularProbing n
  find : ∀ i < n, 2 ≤ keyAt bs i → findProbe bs n (keyAt bs i) = .inl (.found i)
  remove : ∀ i < n, 2 ≤ keyAt bs i → removeProbe bs n (keyAt bs i) = .inl i

section
variable {t : HashTable} {bs : List HashBucket}

theorem findProbe_keyAt (hwf : ArrayWf t bs) {i : ℕ} (hi : i < t.bucketCount)
    (hlive : 2 ≤ keyAt bs i) : findProbe bs t.bucketCount (keyAt bs i) = .inl (.found i) := by
  have hne : entry bs (keyAt bs i) ≠ none := fun h =>
    (entry_eq_none_iff hwf.wf hlive).mp h i hi rfl
  have hcase := findProbe_cases hwf hlive
  generalize findProbe bs t.bucketCount (keyAt bs i) = out at hcase ⊢
  cases hcase with
  | present j p hj hb he =>
    have hkey : keyAt bs j = keyAt bs i := by rw [keyAt, hb]
    rw [hwf.wf.unique i hi j hj hlive hkey.symm]
  | vacant j d he _ _ _ => exact absurd he hne
  | full d he _ => exact absurd he hne

theorem removeProbe_keyAt (hwf : ArrayWf t bs) {i : ℕ} (hi : i < t.bucketCount)
    (hlive : 2 ≤ keyAt bs i) : removeProbe bs t.bucketCount (keyAt bs i) = .inl i := by
  rcases removeProbe_cases hwf hlive with ⟨j, p, hj, hb, _, heq⟩ | ⟨he, _⟩
  · have hkey : keyAt bs j = keyAt bs i := by rw [keyAt, hb]
    rw [heq, hwf.wf.unique i hi j hj hlive hkey.symm]
  · exact absurd rfl ((entry_eq_none_iff hwf.wf hlive).mp he i hi)

theorem ArrayWf.itemsReached (hwf : ArrayWf t bs) : ItemsReached t.bucketCount bs where
  length := hwf.wf.length
  probing := by
    obtain ⟨k, _, _, hk⟩ := hwf.pow
    rw [hk]
    exact triangularProbing_two_pow k
  find := fun _ hi hlive => findProbe_keyAt hwf hi hlive
  remove := fun _ hi hlive => removeProbe_keyAt hwf hi hlive

end

variable {X : Type} (K : ProxyKind X) (E : ErrnoCodes)

/-- **Triangular probing visits every bucket exactly once.** It does so in every table whose size is
a power of two, so a probe loop that runs to its step limit has examined the whole table, and in
every table the operations can reach, each item is found. -/
theorem probing_visits_all :
    (∀ k, TriangularProbing (2 ^ k)) ∧
    ∀ st, (tableSystem K E).Reachable st → ∀ bs, st.table.buckets = some bs →
      ItemsReached st.table.bucketCount bs := by
  refine ⟨triangularProbing_two_pow, ?_⟩
  intro st h bs hb
  exact ((tableSystem_storeWf h).table.array hb).itemsReached

end AtomicWaits
