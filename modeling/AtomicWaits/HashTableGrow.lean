import AtomicWaits.HashTableInv

/-!
# The probe loops and the rehash, from the invariant

`ArrayWf t bs` is the invariant of a table that has a bucket array: the probe-path invariant, a
power-of-two size between the initial and the maximal one, `count` equal to the number of live
buckets, and a load of at most three quarters.

* `findProbe_cases`: the probe loop of `hash_table_find_or_create` finds a registered key, or meets
  an empty bucket and offers a place to insert, or has seen every bucket occupied.
* `hashTableGrow_spec`: a rehash that gets its memory doubles the array, drops every tombstone and
  keeps the entries; the branch for an item that could not be placed is dead.
-/

namespace AtomicWaits

open Lib

structure ArrayWf (t : HashTable) (bs : List HashBucket) : Prop where
  buckets : t.buckets = some bs
  wf : BucketsWf t.bucketCount bs
  pow : ∃ k, 10 ≤ k ∧ k ≤ 20 ∧ t.bucketCount = 2 ^ k
  count : t.count = liveCount bs
  load : 4 * t.count ≤ 3 * t.bucketCount

/-- What holds of the table between two calls. -/
def TableWf (t : HashTable) : Prop :=
  match t.buckets with
  | none => t.count = 0
  | some bs => ArrayWf t bs

theorem two_pow_range {k : ℕ} (h10 : 10 ≤ k) (h20 : k ≤ 20) :
    1024 ≤ 2 ^ k ∧ 2 ^ k ≤ HASH_BUCKETS_MAX :=
  ⟨Nat.pow_le_pow_right (n := 2) (by decide) h10, Nat.pow_le_pow_right (n := 2) (by decide) h20⟩

/-! ### The probe loop of `hash_table_find_or_create` -/

section
variable {bs : List HashBucket} {key i : ℕ} {d : Option ℕ}

theorem findBody_found (h : keyAt bs i = key) : findBody bs key i d = .inl (.found i) := if_pos h

theorem findBody_empty (h : keyAt bs i ≠ key) (h0 : keyAt bs i = 0) :
    findBody bs key i d = .inl (.empty i d) :=
  (if_neg h).trans (if_pos h0)

theorem findBody_deleted (h : keyAt bs i ≠ key) (h0 : keyAt bs i ≠ 0)
    (hd : keyAt bs i = HASH_BUCKET_DELETED ∧ d = none) : findBody bs key i d = .inr (some i) :=
  (if_neg h).trans ((if_neg h0).trans (if_pos hd))

theorem findBody_next (h : keyAt bs i ≠ key) (h0 : keyAt bs i ≠ 0)
    (hd : ¬ (keyAt bs i = HASH_BUCKET_DELETED ∧ d = none)) : findBody bs key i d = .inr d :=
  (if_neg h).trans ((if_neg h0).trans (if_neg hd))

end

/-- What scanning the steps `a, ..., a + m - 1` of a probe for `key` can end in, started with the
tombstone `d`. -/
def FindSpec (bs : List HashBucket) (key : ℕ) (f : ℕ → ℕ) (a m : ℕ) (d : Option ℕ) :
    ProbeEnd ⊕ Option ℕ → Prop
  | .inl (.found i) => ∃ s, a ≤ s ∧ s < a + m ∧ f s = i ∧ keyAt bs i = key
  | .inl (.empty i d') => ∃ s, a ≤ s ∧ s < a + m ∧ f s = i ∧ keyAt bs i = 0 ∧
      (∀ r, a ≤ r → r < s → keyAt bs (f r) ≠ key ∧ keyAt bs (f r) ≠ 0) ∧
      (d' = d ∨ ∃ r, a ≤ r ∧ r < s ∧ d' = some (f r) ∧ keyAt bs (f r) = HASH_BUCKET_DELETED)
  | .inr _ => ∀ r, a ≤ r → r < a + m → keyAt bs (f r) ≠ key ∧ keyAt bs (f r) ≠ 0

theorem FindSpec.step {bs : List HashBucket} {key : ℕ} {f : ℕ → ℕ} {a m : ℕ}
    {d d₁ : Option ℕ} (hkey : keyAt bs (f a) ≠ key) (hzero : keyAt bs (f a) ≠ 0)
    (hd : d₁ = d ∨ d₁ = some (f a) ∧ keyAt bs (f a) = HASH_BUCKET_DELETED)
    {out : ProbeEnd ⊕ Option ℕ} (h : FindSpec bs key f (a + 1) m d₁ out) :
    FindSpec bs key f a (m + 1) d out := by
  have first : ∀ {P : ℕ → Prop} {b : ℕ}, P a → (∀ r, a + 1 ≤ r → r < b → P r) →
      ∀ r, a ≤ r → r < b → P r := by
    intro P b ha hrest r h1 h2
    rcases Nat.eq_or_lt_of_le h1 with rfl | hlt
    · exact ha
    · exact hrest r hlt h2
  match out, h with
  | .inl (.found i), ⟨s, h1, h2, hs⟩ => exact ⟨s, by omega, by omega, hs⟩
  | .inl (.empty i d'), ⟨s, h1, h2, hs, hi, hpath, hd'⟩ =>
    refine ⟨s, by omega, by omega, hs, hi, first ⟨hkey, hzero⟩ hpath, ?_⟩
    rcases hd' with rfl | ⟨r, hr1, hr2, hr⟩
    · rcases hd with rfl | ⟨rfl, hdel⟩
      · exact .inl rfl
      · exact .inr ⟨a, le_rfl, by omega, rfl, hdel⟩
    · exact .inr ⟨r, by omega, hr2, hr⟩
  | .inr _, hall =>
    exact first ⟨hkey, hzero⟩ fun r h1 h2 => hall r h1 (by omega)

theorem scan_find (bs : List HashBucket) (key : ℕ) (f : ℕ → ℕ) (m : ℕ) : ∀ (a : ℕ) (d : Option ℕ),
    FindSpec bs key f a m d (scan (findBody bs key) ((List.range' a m).map f) d) := by
  induction m with
  | zero => intro a d r h1 h2; omega
  | succ m ih =>
    intro a d
    rw [List.range'_succ, List.map_cons, scan]
    by_cases hkey : keyAt bs (f a) = key
    · rw [findBody_found hkey]
      exact ⟨a, le_rfl, by omega, rfl, hkey⟩
    by_cases hzero : keyAt bs (f a) = 0
    · rw [findBody_empty hkey hzero]
      exact ⟨a, le_rfl, by omega, rfl, hzero, fun r h1 h2 => absurd h2 (by omega), .inl rfl⟩
    by_cases hdel : keyAt bs (f a) = HASH_BUCKET_DELETED ∧ d = none
    · rw [findBody_deleted hkey hzero hdel]
      exact (ih (a + 1) _).step hkey hzero (.inr ⟨rfl, hdel.1⟩)
    · rw [findBody_next hkey hzero hdel]
      exact (ih (a + 1) d).step hkey hzero (.inl rfl)

variable {t : HashTable} {bs : List HashBucket} {key : ℕ}

/-- How a probe for `key` ends in a well-formed array. -/
inductive ProbeCase (t : HashTable) (bs : List HashBucket) (key : ℕ) : ProbeEnd ⊕ Option ℕ → Prop
  | present (i p : ℕ) : i < t.bucketCount → bucketAt bs i = ⟨some p, key⟩ →
      entry bs key = some p → ProbeCase t bs key (.inl (.found i))
  | vacant (i : ℕ) (d : Option ℕ) : entry bs key = none → i < t.bucketCount → keyAt bs i = 0 →
      Insertable t.bucketCount bs key (d.getD i) → ProbeCase t bs key (.inl (.empty i d))
  | full (d : Option ℕ) : entry bs key = none → (∀ i < t.bucketCount, keyAt bs i ≠ 0) →
      ProbeCase t bs key (.inr d)

/-- A registered key stands before the first empty bucket of its own probe path. -/
theorem entry_none_of_empty_on_path (hwf : BucketsWf t.bucketCount bs) (hlive : 2 ≤ key) {s : ℕ}
    (hzero : keyAt bs (probeFor t.bucketCount key s) = 0)
    (hbefore : ∀ r < s, keyAt bs (probeFor t.bucketCount key r) ≠ key) : entry bs key = none := by
  refine (entry_eq_none_iff hwf hlive).mpr fun i hi hik => ?_
  obtain ⟨s₀, _, hs₀, hpath⟩ := hwf.reach i hi (hik ▸ hlive)
  rw [hik] at hs₀ hpath
  rcases Nat.lt_trichotomy s₀ s with hlt | heq | hgt
  · exact hbefore s₀ hlt (hs₀ ▸ hik)
  · rw [← heq, hs₀, hik] at hzero
    omega
  · exact hpath s hgt hzero

theorem findProbe_spec (k : ℕ) (bs : List HashBucket) (key : ℕ) :
    FindSpec bs key (probeFor (2 ^ k) key) 0 (2 ^ k) none (findProbe bs (2 ^ k) key) := by
  have hscan := scan_find bs key (probeFor (2 ^ k) key) (2 ^ k) 0 none
  unfold findProbe
  rw [hashFunc_and_mask, probeLoop_eq_scan k (home_lt (by positivity) key), probePath,
    List.range_eq_range']
  exact hscan

theorem findProbe_cases (hwf : ArrayWf t bs) (hlive : 2 ≤ key) :
    ProbeCase t bs key (findProbe bs t.bucketCount key) := by
  obtain ⟨k, _, _, hk⟩ := hwf.pow
  have hn : 0 < t.bucketCount := by rw [hk]; positivity
  have hspec := findProbe_spec k bs key
  rw [← hk] at hspec
  generalize findProbe bs t.bucketCount key = out at hspec ⊢
  match out, hspec with
  | .inl (.found i), ⟨s, _, _, hs, hik⟩ =>
    have hi : i < t.bucketCount := hs ▸ probeFor_lt hn key s
    obtain ⟨p, hp⟩ := Option.isSome_iff_exists.mp ((hwf.wf.proxy i hi).mpr (hik ▸ hlive))
    have hb : bucketAt bs i = ⟨some p, key⟩ := HashBucket.ext hp hik
    exact .present i p hi hb ((entry_of_keyAt hwf.wf hi hlive hik).trans hp)
  | .inl (.empty i d), ⟨s, _, hsn, hs, hi0, hpath, hd⟩ =>
    have hi : i < t.bucketCount := hs ▸ probeFor_lt hn key s
    refine .vacant i d (entry_none_of_empty_on_path hwf.wf hlive (s := s) (hs ▸ hi0) fun r hr =>
      (hpath r (Nat.zero_le r) hr).1) hi hi0 ?_
    rcases hd with rfl | ⟨r, _, hr, rfl, hdel⟩
    · rw [Option.getD_none]
      exact ⟨hi, by omega, s, by omega, hs, fun r hr => (hpath r (Nat.zero_le r) hr).2⟩
    · rw [Option.getD_some]
      exact ⟨probeFor_lt hn key r, by rw [hdel]; decide, r, by omega, rfl, fun q hq =>
        (hpath q (Nat.zero_le q) (by omega)).2⟩
  | .inr d, hall =>
    have hcover : ∀ i < t.bucketCount, keyAt bs i ≠ key ∧ keyAt bs i ≠ 0 := by
      intro i hi
      obtain ⟨r, hr, hri⟩ := exists_probeIdx_eq k (home t.bucketCount key) (hk ▸ hi)
      rw [← hk] at hri
      have hr' := hall r (Nat.zero_le r) (by omega)
      rwa [probeFor, hri] at hr'
    exact .full d ((entry_eq_none_iff hwf.wf hlive).mpr fun i hi => (hcover i hi).1)
      fun i hi => (hcover i hi).2

/-! ### The probe loop of `hash_table_remove_item` -/

theorem removeProbe_cases (hwf : ArrayWf t bs) (hlive : 2 ≤ key) :
    (∃ i p, i < t.bucketCount ∧ bucketAt bs i = ⟨some p, key⟩ ∧ entry bs key = some p ∧
      removeProbe bs t.bucketCount key = .inl i) ∨
    (entry bs key = none ∧ removeProbe bs t.bucketCount key = .inr ()) := by
  obtain ⟨k, _, _, hk⟩ := hwf.pow
  have hsearch := probeLoop_search k (home_lt (n := 2 ^ k) (by positivity) key)
    fun idx => (bucketAt bs idx).key = key
  rw [← hashFunc_and_mask, ← hk] at hsearch
  rcases hsearch with ⟨s, _, hs, _, heq⟩ | ⟨hall, heq⟩
  · have hi : probeIdx t.bucketCount (hashFunc key &&& (t.bucketCount - 1)) s < t.bucketCount :=
      probeIdx_lt (by rw [hk]; positivity) _ _
    have hlive' : 2 ≤ keyAt bs _ := hlive.trans_eq hs.symm
    obtain ⟨p, hp⟩ := Option.isSome_iff_exists.mp ((hwf.wf.proxy _ hi).mpr hlive')
    have hb : bucketAt bs _ = ⟨some p, key⟩ := HashBucket.ext hp hs
    exact .inl ⟨_, p, hi, hb, (entry_of_keyAt hwf.wf hi hlive hs).trans hp, heq⟩
  · exact .inr ⟨(entry_eq_none_iff hwf.wf hlive).mpr hall, heq⟩

/-! ### The rehash -/

/-- An array without tombstones that is not all live has an empty bucket. -/
theorem exists_empty_of_liveCount_lt {n : ℕ} (hlen : bs.length = n)
    (hclean : ∀ i < n, keyAt bs i ≠ HASH_BUCKET_DELETED) (hroom : liveCount bs < n) :
    ∃ i < n, keyAt bs i = 0 := by
  by_contra hno
  push Not at hno
  have hall : liveCount bs = bs.length := List.countP_eq_length.mpr fun b hb => by
    obtain ⟨i, hi, hbi⟩ := exists_keyAt_of_mem hb
    have h0 := hno i (hlen ▸ hi)
    have h1 : keyAt bs i ≠ 1 := hclean i (hlen ▸ hi)
    rw [keyAt, hbi] at h0 h1
    simp only [decide_eq_true_eq]
    omega
  omega

/-- **The placement loop always finds a place.** -/
theorem growPlace_live {k : ℕ} (hwf : BucketsWf (2 ^ k) bs)
    (hclean : ∀ i < 2 ^ k, keyAt bs i ≠ HASH_BUCKET_DELETED) (hroom : liveCount bs < 2 ^ k)
    {b : HashBucket} (hlive : 2 ≤ b.key) :
    ∃ j, Insertable (2 ^ k) bs b.key j ∧ growPlace (2 ^ k) bs b = some (bs.set j b) := by
  have hdead : ¬ (b.key = 0 ∨ b.key = HASH_BUCKET_DELETED) := by
    simp only [HASH_BUCKET_DELETED]
    omega
  rcases probeLoop_search k (home_lt (n := 2 ^ k) (by positivity) b.key)
      fun idx => (bucketAt bs idx).key = 0 with ⟨s, hs, hs0, hpath, heq⟩ | ⟨hall, _⟩
  · refine ⟨probeFor (2 ^ k) b.key s, ⟨probeFor_lt (by positivity) _ _, ?_, s, hs, rfl, hpath⟩, ?_⟩
    · show (bucketAt bs _).key < 2
      rw [probeFor, hs0]
      decide
    · rw [growPlace, if_neg hdead, placeProbe, hashFunc_and_mask, heq]
      rfl
  · obtain ⟨i, hi, hi0⟩ := exists_empty_of_liveCount_lt hwf.length hclean hroom
    exact absurd hi0 (hall i hi)

/-- The state of the rehash loop: what is known of the new array. -/
structure RehashInv (n : ℕ) (new : List HashBucket) : Prop where
  wf : BucketsWf n new
  clean : ∀ i < n, keyAt new i ≠ HASH_BUCKET_DELETED

/-- **The rehash loop.** Over buckets whose live keys are distinct and not yet placed, every item is
placed and the entries of the two arrays are joined. -/
theorem rehash_spec {k : ℕ} (rest : List HashBucket) : ∀ (new : List HashBucket),
    RehashInv (2 ^ k) new → liveCount new + liveCount rest ≤ 2 ^ k →
    (rest.Pairwise fun a b => 2 ≤ a.key → a.key ≠ b.key) →
    (∀ b ∈ rest, 2 ≤ b.key → ∀ i < 2 ^ k, keyAt new i ≠ b.key) →
    (∀ b ∈ rest, 2 ≤ b.key → b.proxy.isSome) →
    ∃ out, rest.foldlM (growPlace (2 ^ k)) new = some out ∧ RehashInv (2 ^ k) out ∧
      liveCount out = liveCount new + liveCount rest ∧
      ∀ key, 2 ≤ key → entry out key = (entry new key).or (entry rest key) := by
  induction rest with
  | nil =>
    intro new hinv _ _ _ _
    exact ⟨new, rfl, hinv, rfl, fun key _ => (Option.or_none).symm⟩
  | cons b rest ih =>
    intro new hinv hroom hpair hfresh hproxy
    obtain ⟨hb, hpair'⟩ := List.pairwise_cons.mp hpair
    rw [List.foldlM_cons]
    by_cases hlive : 2 ≤ b.key
    · -- a live bucket is placed
      have hcount : liveCount (b :: rest) = liveCount rest + 1 :=
        List.countP_cons_of_pos (by simpa using hlive)
      obtain ⟨j, hj, hplace⟩ := growPlace_live hinv.wf hinv.clean (by omega) hlive
      obtain ⟨p, hp⟩ := Option.isSome_iff_exists.mp (hproxy b (List.mem_cons_self ..) hlive)
      have hnew := hfresh b (List.mem_cons_self ..) hlive
      have hjl : j < new.length := hinv.wf.length ▸ hj.lt
      have hbp : b = ⟨some p, b.key⟩ := by rw [← hp]
      have hinv' : RehashInv (2 ^ k) (new.set j b) := by
        refine ⟨hbp ▸ hinv.wf.insert hlive hnew hj p, fun i hi => ?_⟩
        rw [keyAt_set hjl]
        split
        · simp only [HASH_BUCKET_DELETED]
          omega
        · exact hinv.clean i hi
      have hlc := liveCount_set hjl b
      rw [if_neg (Nat.not_le.mpr hj.dead), if_pos hlive] at hlc
      have hentry : entry (new.set j b) = Function.update (entry new) b.key b.proxy := by
        rw [hp]
        exact hbp ▸ entry_insert hinv.wf hlive hnew hj p
      rw [hplace, Option.bind_eq_bind, Option.bind_some]
      obtain ⟨out, hout, hoinv, holc, hoent⟩ := ih (new.set j b) hinv' (by omega) hpair'
        (fun c hc hlc' i hi => by
          rw [keyAt_set hjl]
          split
          · exact hb c hc hlive
          · exact hfresh c (List.mem_cons_of_mem _ hc) hlc' i hi)
        (fun c hc => hproxy c (List.mem_cons_of_mem _ hc))
      refine ⟨out, hout, hoinv, by omega, fun key hkey => ?_⟩
      rw [hoent key hkey, hentry]
      by_cases hk : key = b.key
      · subst hk
        rw [Function.update_self, (entry_eq_none_iff hinv.wf hkey).mpr hnew, hp]
        simp only [entry, List.find?_cons, decide_true, Option.bind_some, hp, Option.none_or,
          Option.some_or]
      · rw [Function.update_of_ne hk]
        simp only [entry, List.find?_cons, Ne.symm hk, decide_false]
    · -- an empty bucket or a tombstone is skipped
      have hskip : growPlace (2 ^ k) new b = some new := by
        refine if_pos ?_
        simp only [HASH_BUCKET_DELETED]
        omega
      have hcount : liveCount (b :: rest) = liveCount rest :=
        List.countP_cons_of_neg (by simpa using hlive)
      rw [hskip, Option.bind_eq_bind, Option.bind_some]
      obtain ⟨out, hout, hoinv, holc, hoent⟩ := ih new hinv (by omega) hpair'
        (fun c hc => hfresh c (List.mem_cons_of_mem _ hc))
        (fun c hc => hproxy c (List.mem_cons_of_mem _ hc))
      refine ⟨out, hout, hoinv, by omega, fun key hkey => ?_⟩
      have hk : b.key ≠ key := by omega
      rw [hoent key hkey]
      simp only [entry, List.find?_cons, hk, decide_false]

/-! ### `hash_table_grow` -/

theorem BucketsWf.pairwise {n : ℕ} (hwf : BucketsWf n bs) :
    bs.Pairwise fun a b => 2 ≤ a.key → a.key ≠ b.key := by
  rw [List.pairwise_iff_getElem]
  intro i j hi hj hij hlive heq
  rw [← bucketAt_eq_getElem hi] at hlive heq
  rw [← bucketAt_eq_getElem hj] at heq
  have := hwf.unique i (hwf.length ▸ hi) j (hwf.length ▸ hj) hlive heq
  omega

theorem BucketsWf.proxy_of_mem {n : ℕ} (hwf : BucketsWf n bs) {b : HashBucket} (hb : b ∈ bs)
    (hlive : 2 ≤ b.key) : b.proxy.isSome := by
  obtain ⟨i, hi, rfl⟩ := exists_keyAt_of_mem hb
  exact (hwf.proxy i (hwf.length ▸ hi)).mpr hlive

/-- The array is never at a size between half and all of the maximum, so growing doubles it. -/
theorem growCount_of_pow {k : ℕ} (hk : k ≤ 20) :
    growCount (2 ^ k) = if 2 ^ k = HASH_BUCKETS_MAX then HASH_BUCKETS_MAX else 2 * 2 ^ k := by
  have hmax : HASH_BUCKETS_MAX = 2 ^ 20 := rfl
  have hle : 2 ^ k ≤ 2 ^ 20 := Nat.pow_le_pow_right (by decide) hk
  unfold growCount
  rw [hmax]
  by_cases h : k = 20
  · rw [h, if_pos (by decide), if_pos rfl]
  · have hlt : 2 ^ (k + 1) ≤ 2 ^ 20 := Nat.pow_le_pow_right (by decide) (by omega)
    rw [pow_succ] at hlt
    rw [if_neg (by omega), if_neg (by omega), Nat.mul_comm]

/-- How `hash_table_grow` ends on a table with the array `bs`. -/
inductive GrowCase (E : ErrnoCodes) (t : HashTable) (bs : List HashBucket) (env : AllocEnv)
    (errno : ℤ) : GrowResult → Prop
  | refused : t.bucketCount = HASH_BUCKETS_MAX ∨
      env.callocBuckets (2 * t.bucketCount) = .enomem → GrowCase E t bs env errno ⟨none, E.ENOMEM⟩
  | grown (new : List HashBucket) (e : Option ℤ) : t.bucketCount < HASH_BUCKETS_MAX →
      env.callocBuckets (2 * t.bucketCount) = .ok e →
      ArrayWf ⟨some new, 2 * t.bucketCount, t.count⟩ new → entry new = entry bs →
      (∀ i < 2 * t.bucketCount, keyAt new i ≠ HASH_BUCKET_DELETED) →
      GrowCase E t bs env errno ⟨some ⟨some new, 2 * t.bucketCount, t.count⟩,
        errnoAfter (env.freeBuckets t.bucketCount) (errnoAfter e errno)⟩

/-- **The rehash places every item** of an array that can be doubled. -/
theorem ArrayWf.rehash (hwf : ArrayWf t bs) (hlt : t.bucketCount < HASH_BUCKETS_MAX) :
    ∃ new, bs.foldlM (growPlace (2 * t.bucketCount))
        (List.replicate (2 * t.bucketCount) emptyBucket) = some new ∧
      ArrayWf ⟨some new, 2 * t.bucketCount, t.count⟩ new ∧ entry new = entry bs ∧
      ∀ i < 2 * t.bucketCount, keyAt new i ≠ HASH_BUCKET_DELETED := by
  obtain ⟨k, h10, h20, hk⟩ := hwf.pow
  have hrange := two_pow_range h10 h20
  have hpow : 2 * t.bucketCount = 2 ^ (k + 1) := by rw [hk, pow_succ, Nat.mul_comm]
  have hload := hwf.load
  have hcount := hwf.count
  obtain ⟨new, hnew, hinv, hlive, hent⟩ := rehash_spec (k := k + 1) bs
    (List.replicate (2 ^ (k + 1)) emptyBucket)
    ⟨bucketsWf_replicate _, fun i _ => by rw [keyAt_replicate]; decide⟩
    (by rw [liveCount_replicate]; omega) hwf.wf.pairwise
    (fun b _ hb i _ => by rw [keyAt_replicate]; omega)
    (fun b hb hl => hwf.wf.proxy_of_mem hb hl)
  rw [← hpow] at hnew hinv
  refine ⟨new, hnew, ⟨rfl, hinv.wf, ⟨k + 1, by omega, ?_, hpow⟩, ?_, ?_⟩, ?_, hinv.clean⟩
  · by_contra h
    rw [hk, show k = 20 by omega] at hlt
    exact absurd hlt (by decide)
  · rw [hlive, liveCount_replicate, Nat.zero_add, hwf.count]
  · show 4 * t.count ≤ 3 * (2 * t.bucketCount)
    omega
  · funext key
    by_cases hkey : 2 ≤ key
    · rw [hent key hkey, entry_replicate, Option.none_or]
    · rw [entry_dead hinv.wf (by omega), entry_dead hwf.wf (by omega)]

/-- `new_count` on a well-formed table. -/
theorem ArrayWf.growCount (hwf : ArrayWf t bs) : growCount t.bucketCount
    = if t.bucketCount = HASH_BUCKETS_MAX then HASH_BUCKETS_MAX else 2 * t.bucketCount := by
  obtain ⟨k, h10, h20, hk⟩ := hwf.pow
  rw [hk]
  exact growCount_of_pow h20

theorem ArrayWf.oldBuckets (hwf : ArrayWf t bs) :
    (t.buckets.getD []).take t.bucketCount = bs := by
  rw [hwf.buckets, Option.getD_some, ← hwf.wf.length, List.take_length]

/-- **The rehash is all or nothing.** -/
theorem hashTableGrow_spec (E : ErrnoCodes) (hwf : ArrayWf t bs) (env : AllocEnv) (errno : ℤ) :
    GrowCase E t bs env errno (hashTableGrow E t env errno) := by
  obtain ⟨k, h10, h20, hk⟩ := hwf.pow
  have hrange := two_pow_range h10 h20
  unfold hashTableGrow
  dsimp only
  rw [hwf.growCount]
  by_cases hmax : t.bucketCount = HASH_BUCKETS_MAX
  · rw [if_pos hmax, if_pos hmax.ge]
    exact .refused (.inl hmax)
  rw [if_neg hmax, if_neg (by omega)]
  cases hcalloc : env.callocBuckets (2 * t.bucketCount) with
  | enomem => exact .refused (.inr hcalloc)
  | ok e =>
    obtain ⟨new, hnew, hnewWf, hent, hclean⟩ := hwf.rehash (by omega)
    dsimp only
    rw [hwf.oldBuckets, hnew]
    exact .grown new e (by omega) hcalloc hnewWf hent hclean

end AtomicWaits
