import AtomicWaits.HashTable
import Mathlib.Data.List.Basic
import Mathlib.Tactic.SplitIfs

/-!
# The probe-path invariant of a bucket array

`BucketsWf n bs` is what every bucket array of `n` buckets satisfies between two operations: a
bucket has a proxy exactly when its key is live (not null, not the tombstone), no live key stands
twice, and a live key is reached from its home bucket before any empty bucket. `entry bs key` is the
proxy a key has in the array.

The three writes the code performs (into an empty or deleted bucket, a removal to a tombstone, a
null proxy pointer into a dead bucket) keep the invariant, and each changes `entry` and the number of
live buckets at its own key only.
-/

namespace AtomicWaits

open Lib

/-- The key of the bucket at `i`. -/
def keyAt (bs : List HashBucket) (i : ℕ) : ℕ := (bucketAt bs i).key

/-- The bucket a probe for `key` starts at. -/
def home (n key : ℕ) : ℕ := hashFunc key % n

/-- The `s`-th bucket a probe for `key` looks at. -/
def probeFor (n key s : ℕ) : ℕ := probeIdx n (home n key) s

/-- The number of live buckets. -/
def liveCount (bs : List HashBucket) : ℕ := bs.countP fun b => 2 ≤ b.key

/-- The proxy registered for `key`. -/
def entry (bs : List HashBucket) (key : ℕ) : Option ℕ :=
  (bs.find? fun b => b.key = key).bind HashBucket.proxy

structure BucketsWf (n : ℕ) (bs : List HashBucket) : Prop where
  length : bs.length = n
  proxy : ∀ i < n, ((bucketAt bs i).proxy.isSome ↔ 2 ≤ keyAt bs i)
  unique : ∀ i < n, ∀ j < n, 2 ≤ keyAt bs i → keyAt bs i = keyAt bs j → i = j
  reach : ∀ i < n, 2 ≤ keyAt bs i →
    ∃ s < n, probeFor n (keyAt bs i) s = i ∧ ∀ r < s, keyAt bs (probeFor n (keyAt bs i) r) ≠ 0

theorem home_lt {n : ℕ} (hn : 0 < n) (key : ℕ) : home n key < n := Nat.mod_lt _ hn

theorem probeFor_lt {n : ℕ} (hn : 0 < n) (key s : ℕ) : probeFor n key s < n := probeIdx_lt hn _ _

theorem hashFunc_and_mask (k key : ℕ) : hashFunc key &&& (2 ^ k - 1) = home (2 ^ k) key :=
  Nat.and_two_pow_sub_one_eq_mod _ _

/-! ### Reading and writing one bucket -/

theorem bucketAt_eq_getElem {bs : List HashBucket} {i : ℕ} (hi : i < bs.length) :
    bucketAt bs i = bs[i] := by
  rw [bucketAt, List.getD_eq_getElem?_getD, List.getElem?_eq_getElem hi, Option.getD_some]

theorem bucketAt_set {bs : List HashBucket} {j : ℕ} (hj : j < bs.length) (b : HashBucket) (i : ℕ) :
    bucketAt (bs.set j b) i = if i = j then b else bucketAt bs i := by
  unfold bucketAt
  rw [List.getD_eq_getElem?_getD, List.getD_eq_getElem?_getD, List.getElem?_set]
  by_cases hij : i = j
  · subst hij
    rw [if_pos rfl, if_pos hj, if_pos rfl, Option.getD_some]
  · rw [if_neg (Ne.symm hij), if_neg hij]

theorem keyAt_set {bs : List HashBucket} {j : ℕ} (hj : j < bs.length) (b : HashBucket) (i : ℕ) :
    keyAt (bs.set j b) i = if i = j then b.key else keyAt bs i := by
  unfold keyAt
  rw [bucketAt_set hj]
  split <;> rfl

theorem liveCount_set {bs : List HashBucket} {j : ℕ} (hj : j < bs.length) (b : HashBucket) :
    liveCount (bs.set j b) + (if 2 ≤ keyAt bs j then 1 else 0)
      = liveCount bs + (if 2 ≤ b.key then 1 else 0) := by
  have hkey : keyAt bs j = bs[j].key := by rw [keyAt, bucketAt_eq_getElem hj]
  have hpos : 2 ≤ bs[j].key → 0 < liveCount bs := fun h =>
    List.countP_pos_iff.mpr ⟨bs[j], List.getElem_mem hj, by simpa using h⟩
  unfold liveCount at *
  rw [List.countP_set hj, hkey]
  by_cases h : 2 ≤ bs[j].key
  · have := hpos h
    simp only [h, decide_true, if_true, decide_eq_true_eq]
    omega
  · simp only [h, decide_false, Bool.false_eq_true, if_false, decide_eq_true_eq]
    omega

theorem exists_keyAt_of_mem {bs : List HashBucket} {b : HashBucket} (hb : b ∈ bs) :
    ∃ i < bs.length, bucketAt bs i = b := by
  obtain ⟨i, hi, rfl⟩ := List.mem_iff_getElem.mp hb
  exact ⟨i, hi, bucketAt_eq_getElem hi⟩

theorem bucketAt_mem {bs : List HashBucket} {i : ℕ} (hi : i < bs.length) : bucketAt bs i ∈ bs := by
  rw [bucketAt_eq_getElem hi]
  exact List.getElem_mem hi

/-! ### What `entry` says about the buckets -/

variable {n : ℕ} {bs : List HashBucket}

theorem entry_of_keyAt (hwf : BucketsWf n bs) {key i : ℕ} (hi : i < n) (hlive : 2 ≤ key)
    (hkey : keyAt bs i = key) : entry bs key = (bucketAt bs i).proxy := by
  unfold entry
  cases hfind : bs.find? fun b => b.key = key with
  | none =>
    have hnot := List.find?_eq_none.mp hfind _ (bucketAt_mem (hwf.length ▸ hi))
    simp only [decide_eq_true_eq] at hnot
    exact absurd hkey hnot
  | some b =>
    obtain ⟨j, hj, hbj⟩ := exists_keyAt_of_mem (List.mem_of_find?_eq_some hfind)
    have hjk : keyAt bs j = key := by
      have := List.find?_some hfind
      simp only [decide_eq_true_eq] at this
      rw [keyAt, hbj, this]
    have hij : i = j := hwf.unique i hi j (hwf.length ▸ hj) (hkey ▸ hlive) (hkey.trans hjk.symm)
    rw [hij, hbj]
    rfl

theorem exists_keyAt_of_entry (hwf : BucketsWf n bs) {key p : ℕ} (h : entry bs key = some p) :
    ∃ i < n, bucketAt bs i = ⟨some p, key⟩ := by
  unfold entry at h
  obtain ⟨b, hb, hp⟩ := Option.bind_eq_some_iff.mp h
  obtain ⟨i, hi, hbi⟩ := exists_keyAt_of_mem (List.mem_of_find?_eq_some hb)
  have hkey : b.key = key := by simpa using List.find?_some hb
  refine ⟨i, hwf.length ▸ hi, ?_⟩
  rw [hbi, ← hkey, ← hp]

theorem entry_live (hwf : BucketsWf n bs) {key p : ℕ} (h : entry bs key = some p) : 2 ≤ key := by
  obtain ⟨i, hi, hb⟩ := exists_keyAt_of_entry hwf h
  have := (hwf.proxy i hi).mp (by rw [hb]; rfl)
  rwa [keyAt, hb] at this

theorem entry_eq_none_iff (hwf : BucketsWf n bs) {key : ℕ} (hlive : 2 ≤ key) :
    entry bs key = none ↔ ∀ i < n, keyAt bs i ≠ key := by
  constructor
  · intro h i hi hkey
    have hsome := (hwf.proxy i hi).mpr (hkey ▸ hlive)
    rw [← entry_of_keyAt hwf hi hlive hkey, h] at hsome
    exact absurd hsome (by decide)
  · intro h
    cases he : entry bs key with
    | none => rfl
    | some p =>
      obtain ⟨i, hi, hb⟩ := exists_keyAt_of_entry hwf he
      exact absurd (by rw [keyAt, hb]) (h i hi)

theorem entry_dead (hwf : BucketsWf n bs) {key : ℕ} (hdead : key < 2) : entry bs key = none := by
  cases he : entry bs key with
  | none => rfl
  | some p => exact absurd (entry_live hwf he) (by omega)

/-! ### The writes -/

/-- The bucket `j` is where a new item for `key` may go: it is dead, and it is on the probe path of
`key` with no empty bucket before it. -/
structure Insertable (n : ℕ) (bs : List HashBucket) (key j : ℕ) : Prop where
  lt : j < n
  dead : keyAt bs j < 2
  path : ∃ s < n, probeFor n key s = j ∧ ∀ r < s, keyAt bs (probeFor n key r) ≠ 0

/-- **Insertion keeps the invariant.** A write never empties a bucket, so no other path is cut. -/
theorem BucketsWf.insert (hwf : BucketsWf n bs) {key j : ℕ} (hlive : 2 ≤ key)
    (hnew : ∀ i < n, keyAt bs i ≠ key) (hj : Insertable n bs key j) (p : ℕ) :
    BucketsWf n (bs.set j ⟨some p, key⟩) := by
  have hjl : j < bs.length := hwf.length ▸ hj.lt
  have hzero : ∀ i, keyAt bs i ≠ 0 → keyAt (bs.set j ⟨some p, key⟩) i ≠ 0 := by
    intro i hi
    rw [keyAt_set hjl]
    split
    · show key ≠ 0
      omega
    · exact hi
  refine ⟨by rw [List.length_set, hwf.length], ?_, ?_, ?_⟩
  · intro i hi
    rw [bucketAt_set hjl, keyAt_set hjl]
    by_cases hij : i = j
    · simp only [if_pos hij, Option.isSome_some, true_iff]
      exact hlive
    · simp only [if_neg hij]
      exact hwf.proxy i hi
  · intro a ha b hb hla hab
    rw [keyAt_set hjl] at hla
    rw [keyAt_set hjl, keyAt_set hjl] at hab
    by_cases haj : a = j <;> by_cases hbj : b = j
    · rw [haj, hbj]
    · rw [if_pos haj, if_neg hbj] at hab
      exact absurd hab.symm (hnew b hb)
    · rw [if_neg haj, if_pos hbj] at hab
      exact absurd hab (hnew a ha)
    · rw [if_neg haj] at hla hab
      rw [if_neg hbj] at hab
      exact hwf.unique a ha b hb hla hab
  · intro i hi hli
    rw [keyAt_set hjl] at hli ⊢
    by_cases hij : i = j
    · rw [if_pos hij] at hli ⊢
      obtain ⟨s, hs, hsj, hpath⟩ := hj.path
      exact ⟨s, hs, hsj.trans hij.symm, fun r hr => hzero _ (hpath r hr)⟩
    · rw [if_neg hij] at hli ⊢
      obtain ⟨s, hs, hsi, hpath⟩ := hwf.reach i hi hli
      exact ⟨s, hs, hsi, fun r hr => hzero _ (hpath r hr)⟩

/-- **Removal to a tombstone keeps the invariant.** -/
theorem BucketsWf.delete (hwf : BucketsWf n bs) {j : ℕ} (hj : j < n) :
    BucketsWf n (bs.set j ⟨none, HASH_BUCKET_DELETED⟩) := by
  have hjl : j < bs.length := hwf.length ▸ hj
  have hdel : ¬ 2 ≤ HASH_BUCKET_DELETED := by decide
  refine ⟨by rw [List.length_set, hwf.length], ?_, ?_, ?_⟩
  · intro i hi
    rw [bucketAt_set hjl, keyAt_set hjl]
    by_cases hij : i = j
    · simp only [if_pos hij, Option.isSome_none, Bool.false_eq_true, false_iff]
      exact hdel
    · simp only [if_neg hij]
      exact hwf.proxy i hi
  · intro a ha b hb hla hab
    rw [keyAt_set hjl] at hla
    rw [keyAt_set hjl, keyAt_set hjl] at hab
    have haj : a ≠ j := fun h => hdel (by rwa [if_pos h] at hla)
    rw [if_neg haj] at hla hab
    have hbj : b ≠ j := fun h => hdel (by rw [if_pos h] at hab; exact hla.trans_eq hab)
    rw [if_neg hbj] at hab
    exact hwf.unique a ha b hb hla hab
  · intro i hi hli
    rw [keyAt_set hjl] at hli ⊢
    have hij : i ≠ j := fun h => hdel (by rwa [if_pos h] at hli)
    rw [if_neg hij] at hli ⊢
    obtain ⟨s, hs, hsi, hpath⟩ := hwf.reach i hi hli
    refine ⟨s, hs, hsi, fun r hr => ?_⟩
    rw [keyAt_set hjl]
    split
    · decide
    · exact hpath r hr

/-- A null proxy pointer written into a dead bucket changes nothing: it was null. -/
theorem setProxy_none_of_dead (hwf : BucketsWf n bs) {j : ℕ} (hj : j < n) (hdead : keyAt bs j < 2) :
    setProxy bs j none = bs := by
  have hjl : j < bs.length := hwf.length ▸ hj
  have hnone : (bucketAt bs j).proxy = none := by
    cases h : (bucketAt bs j).proxy with
    | none => rfl
    | some p =>
      have := (hwf.proxy j hj).mp (by rw [h]; rfl)
      omega
  have hself : { bucketAt bs j with proxy := none } = bs[j] := by
    rw [← bucketAt_eq_getElem hjl, ← hnone]
  rw [setProxy, hself, List.set_getElem_self]

/-! ### What the writes do to `entry` -/

theorem entry_insert (hwf : BucketsWf n bs) {key j : ℕ} (hlive : 2 ≤ key)
    (hnew : ∀ i < n, keyAt bs i ≠ key) (hj : Insertable n bs key j) (p : ℕ) :
    entry (bs.set j ⟨some p, key⟩) = Function.update (entry bs) key (some p) := by
  have hjl : j < bs.length := hwf.length ▸ hj.lt
  have hwf' := hwf.insert hlive hnew hj p
  funext k
  by_cases hk : k = key
  · subst hk
    rw [Function.update_self, entry_of_keyAt hwf' hj.lt hlive (by rw [keyAt_set hjl, if_pos rfl]),
      bucketAt_set hjl, if_pos rfl]
  rw [Function.update_of_ne hk]
  by_cases hlk : 2 ≤ k
  · cases he : entry bs k with
    | none =>
      refine (entry_eq_none_iff hwf' hlk).mpr fun i hi => ?_
      rw [keyAt_set hjl]
      split
      · exact Ne.symm hk
      · exact (entry_eq_none_iff hwf hlk).mp he i hi
    | some q =>
      obtain ⟨i, hi, hb⟩ := exists_keyAt_of_entry hwf he
      have hik : keyAt bs i = k := by rw [keyAt, hb]
      have hij : i ≠ j := fun h => by
        have := hj.dead
        rw [← h, hik] at this
        omega
      rw [entry_of_keyAt hwf' hi hlk (by rw [keyAt_set hjl, if_neg hij, hik]), bucketAt_set hjl,
        if_neg hij, hb]
  · rw [entry_dead hwf' (by omega), entry_dead hwf (by omega)]

theorem entry_delete (hwf : BucketsWf n bs) {key j : ℕ} (hj : j < n) (hlive : 2 ≤ key)
    (hkey : keyAt bs j = key) :
    entry (bs.set j ⟨none, HASH_BUCKET_DELETED⟩) = Function.update (entry bs) key none := by
  have hjl : j < bs.length := hwf.length ▸ hj
  have hwf' := hwf.delete hj
  funext k
  by_cases hk : k = key
  · subst hk
    rw [Function.update_self]
    refine (entry_eq_none_iff hwf' hlive).mpr fun i hi hik => ?_
    rw [keyAt_set hjl] at hik
    by_cases hij : i = j
    · rw [if_pos hij] at hik
      exact absurd (hik ▸ hlive) (by decide)
    · rw [if_neg hij] at hik
      exact hij (hwf.unique i hi j hj (hik ▸ hlive) (hik.trans hkey.symm))
  rw [Function.update_of_ne hk]
  by_cases hlk : 2 ≤ k
  · cases he : entry bs k with
    | none =>
      refine (entry_eq_none_iff hwf' hlk).mpr fun i hi => ?_
      rw [keyAt_set hjl]
      split
      · exact fun h => absurd (h ▸ hlk) (by decide)
      · exact (entry_eq_none_iff hwf hlk).mp he i hi
    | some q =>
      obtain ⟨i, hi, hb⟩ := exists_keyAt_of_entry hwf he
      have hik : keyAt bs i = k := by rw [keyAt, hb]
      have hij : i ≠ j := fun h => hk (by rw [← hik, h, hkey])
      rw [entry_of_keyAt hwf' hi hlk (by rw [keyAt_set hjl, if_neg hij, hik]), bucketAt_set hjl,
        if_neg hij, hb]
  · rw [entry_dead hwf' (by omega), entry_dead hwf (by omega)]

/-! ### A fresh array -/

theorem bucketAt_replicate (n i : ℕ) : bucketAt (List.replicate n emptyBucket) i = emptyBucket := by
  unfold bucketAt
  rw [List.getD_eq_getElem?_getD, List.getElem?_replicate]
  split <;> rfl

theorem keyAt_replicate (n i : ℕ) : keyAt (List.replicate n emptyBucket) i = 0 := by
  rw [keyAt, bucketAt_replicate]
  rfl

theorem bucketsWf_replicate (n : ℕ) : BucketsWf n (List.replicate n emptyBucket) := by
  refine ⟨List.length_replicate, fun i _ => ?_, fun i _ j _ h => ?_, fun i _ h => ?_⟩
  · rw [bucketAt_replicate, keyAt_replicate]
    decide
  · rw [keyAt_replicate] at h
    exact absurd h (by decide)
  · rw [keyAt_replicate] at h
    exact absurd h (by decide)

theorem liveCount_replicate (n : ℕ) : liveCount (List.replicate n emptyBucket) = 0 := by
  rw [liveCount, List.countP_replicate]
  rfl

theorem entry_replicate (n : ℕ) : entry (List.replicate n emptyBucket) = fun _ => none := by
  funext key
  by_cases h : 2 ≤ key
  · refine (entry_eq_none_iff (bucketsWf_replicate n) h).mpr fun i _ => ?_
    rw [keyAt_replicate]
    omega
  · exact entry_dead (bucketsWf_replicate n) (by omega)

end AtomicWaits
