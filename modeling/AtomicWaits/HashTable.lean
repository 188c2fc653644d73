import AtomicWaits.Proxy
import AtomicWaits.Lib.TriangularProbe

/-!
# The proxy hash table

`hash_table_grow`, `hash_table_find_or_create` and `hash_table_remove_item`, with the bucket array
as a list and proxies as addresses in a `ProxyHeap`. All three are called with the table lock held,
so each is one function of the store.

The outcomes of the allocator and of the proxy initialiser are in `AllocEnv`. One call asks for a
bucket array of a given size at most once and for a proxy at most once, so the outcomes are indexed
by the request. A successful `calloc` or a `free` may leave any value in `errno`; a failed `calloc`
leaves `ENOMEM`.
-/

namespace AtomicWaits

open Lib

def HASH_BUCKETS_INITIAL : ℕ := 1024

def HASH_BUCKETS_MAX : ℕ := 1024 * 1024

/-- `WG14_ATOMIC_WAITS_HASH_BUCKET_DELETED`, the tombstone; the null key of an empty bucket is
zero. -/
def HASH_BUCKET_DELETED : ℕ := 1

/-- `hash_bucket_t`. -/
@[ext] structure HashBucket where
  proxy : Option ℕ
  key : ℕ
  deriving DecidableEq, Repr

/-- A bucket as `calloc` leaves it. -/
def emptyBucket : HashBucket := ⟨none, 0⟩

/-- `hash_table_t` without its lock flag. -/
structure HashTable where
  buckets : Option (List HashBucket)
  bucketCount : ℕ
  count : ℕ

/-- The zero-initialised `shared_global_hash_table`. -/
def HashTable.zero : HashTable := ⟨none, 0, 0⟩

/-- `hash_func`, in 32-bit unsigned arithmetic. -/
@[irreducible] def hashFunc (key : ℕ) : ℕ := ((key % 2 ^ 32) ^^^ 2166136261) * 16777619 % 2 ^ 32

/-- `table->buckets[i]`. -/
def bucketAt (bs : List HashBucket) (i : ℕ) : HashBucket := bs.getD i emptyBucket

/-! ### The environment of one call -/

/-- What one `calloc` does. -/
inductive CallocOutcome
  | ok (errno : Option ℤ)
  | enomem

/-- The allocator and the proxy initialiser during one call. -/
structure AllocEnv where
  callocBuckets : ℕ → CallocOutcome
  freeBuckets : ℕ → Option ℤ
  callocProxy : CallocOutcome
  initProxy : ProxyInitEnv

/-- An allocator that always has memory and leaves `errno` alone, with initialisers that succeed. -/
def AllocEnv.plenty : AllocEnv := ⟨fun _ => .ok none, fun _ => none, .ok none, ⟨0, 0, 0⟩⟩

/-- An allocator without memory. -/
def AllocEnv.exhausted : AllocEnv := ⟨fun _ => .enomem, fun _ => none, .enomem, ⟨0, 0, 0⟩⟩

/-- `errno` after a call that sets it or leaves it alone. -/
def errnoAfter (e : Option ℤ) (errno : ℤ) : ℤ := e.getD errno

/-! ### `hash_table_grow` -/

/-- What `hash_table_grow` returns: the new table, or `none` for `-1`, which leaves the table as it
was; and `errno`. -/
structure GrowResult where
  table : Option HashTable
  errno : ℤ

/-- The probe loop that places one old bucket in the new array: the result is the slot. -/
def placeProbe (newBuckets : List HashBucket) (newCount key : ℕ) : ℕ ⊕ Unit :=
  probeLoop newCount (searchBody fun idx => (bucketAt newBuckets idx).key = 0)
    newCount (hashFunc key &&& (newCount - 1)) 0 ()

/-- One pass of the rehash loop; `none` when the item could not be placed. -/
def growPlace (newCount : ℕ) (newBuckets : List HashBucket) (oldBucket : HashBucket) :
    Option (List HashBucket) :=
  if oldBucket.key = 0 ∨ oldBucket.key = HASH_BUCKET_DELETED then some newBuckets
  else
    match placeProbe newBuckets newCount oldBucket.key with
    | .inl idx => some (newBuckets.set idx oldBucket)
    | .inr () => none

/-- `new_count` as `hash_table_grow` computes it. -/
def growCount (oldCount : ℕ) : ℕ :=
  if HASH_BUCKETS_MAX < oldCount * 2 then HASH_BUCKETS_MAX else oldCount * 2

/-- `hash_table_grow`. -/
def hashTableGrow (E : ErrnoCodes) (table : HashTable) (env : AllocEnv) (errno : ℤ) : GrowResult :=
  let oldCount := table.bucketCount
  let newCount := growCount oldCount
  if newCount ≤ oldCount then ⟨none, E.ENOMEM⟩
  else
    match env.callocBuckets newCount with
    | .enomem => ⟨none, E.ENOMEM⟩
    | .ok e =>
      let old := (table.buckets.getD []).take oldCount
      match old.foldlM (growPlace newCount) (List.replicate newCount emptyBucket) with
      | none => ⟨none, E.ENOMEM⟩
      | some new =>
        ⟨some ⟨some new, newCount, table.count⟩,
          errnoAfter (env.freeBuckets oldCount) (errnoAfter e errno)⟩

/-! ### `hash_table_find_or_create` -/

/-- The table and the memory its proxies live in. -/
structure Store (X : Type) where
  table : HashTable
  heap : ProxyHeap X

/-- The store before the first call. -/
def Store.zero {X : Type} : Store X := ⟨.zero, .empty⟩

/-- How the probe loop ends before its step limit. -/
inductive ProbeEnd
  | found (idx : ℕ)
  | empty (idx : ℕ) (deletedBucket : Option ℕ)
  deriving DecidableEq, Repr

/-- The body of the probe loop; the loop carries `deleted_bucket`, the earliest tombstone. -/
def findBody (bs : List HashBucket) (key : ℕ) (idx : ℕ) (deletedBucket : Option ℕ) :
    ProbeEnd ⊕ Option ℕ :=
  let bucket := bucketAt bs idx
  if bucket.key = key then .inl (.found idx)
  else if bucket.key = 0 then .inl (.empty idx deletedBucket)
  else if bucket.key = HASH_BUCKET_DELETED ∧ deletedBucket = none then .inr (some idx)
  else .inr deletedBucket

def findProbe (bs : List HashBucket) (bucketCount key : ℕ) : ProbeEnd ⊕ Option ℕ :=
  probeLoop bucketCount (findBody bs key) bucketCount (hashFunc key &&& (bucketCount - 1)) 0 none

/-- What `hash_table_find_or_create` returns. -/
structure FindResult (X : Type) where
  item : Option ℕ
  store : Store X
  errno : ℤ

variable {X : Type} (K : ProxyKind X) (E : ErrnoCodes)

/-- `bucket->proxy = p`. -/
def setProxy (bs : List HashBucket) (i : ℕ) (p : Option ℕ) : List HashBucket :=
  bs.set i { bucketAt bs i with proxy := p }

/-- The creation of a proxy in the bucket `i` of the array `bs`. -/
def createAt (st : Store X) (bs : List HashBucket) (i key : ℕ) (env : AllocEnv) (errno : ℤ) :
    FindResult X :=
  match env.callocProxy with
  | .enomem =>
    ⟨none, ⟨{ st.table with buckets := some (setProxy bs i none) }, st.heap⟩, E.ENOMEM⟩
  | .ok e =>
    let p := st.heap.next
    let heap := st.heap.alloc ⟨0, K.initial⟩
    let ret := K.init env.initProxy
    if ret ≠ 0 then
      ⟨none, ⟨{ st.table with buckets := some (setProxy bs i none) }, heap.free p⟩, -ret⟩
    else
      ⟨some p,
        ⟨{ st.table with buckets := some (bs.set i ⟨some p, key⟩), count := st.table.count + 1 },
          heap.modify p fun w => { w with useCount := 1 }⟩,
        errnoAfter e errno⟩

/-- The outer loop of `hash_table_find_or_create`. The first argument bounds its passes; `none`
means the bound was too small. -/
def findOrCreateLoop (key : ℕ) (incrementUseCount : Bool) (env : AllocEnv) :
    ℕ → Store X → ℤ → Option (FindResult X)
  | 0, _, _ => none
  | passes + 1, st, errno =>
    if incrementUseCount ∧ (st.table.bucketCount >>> 2) * 3 ≤ st.table.count then
      match hashTableGrow E st.table env errno with
      | ⟨none, errno'⟩ => some ⟨none, st, errno'⟩
      | ⟨some table, errno'⟩ =>
        findOrCreateLoop key incrementUseCount env passes { st with table := table } errno'
    else
      let bs := st.table.buckets.getD []
      match findProbe bs st.table.bucketCount key with
      | .inl (.found idx) =>
        let proxy := (bucketAt bs idx).proxy
        let heap :=
          if incrementUseCount then
            st.heap.modifyOpt proxy fun w => { w with useCount := w.useCount + 1 }
          else st.heap
        some ⟨proxy, { st with heap := heap }, errno⟩
      | .inl (.empty idx deletedBucket) =>
        if !incrementUseCount then some ⟨none, st, errno⟩
        else some (createAt K E st bs (deletedBucket.getD idx) key env errno)
      | .inr _ =>
        match hashTableGrow E st.table env errno with
        | ⟨none, errno'⟩ => some ⟨none, st, errno'⟩
        | ⟨some table, errno'⟩ =>
          findOrCreateLoop key incrementUseCount env passes { st with table := table } errno'

/-- `hash_table_find_or_create`. Every pass after the first has a larger `bucket_count`, so the
bound on the passes is never met (`hashTableFindOrCreate_cases`). -/
def hashTableFindOrCreate (st : Store X) (object : ℕ) (incrementUseCount : Bool) (env : AllocEnv)
    (errno : ℤ) : Option (FindResult X) :=
  match st.table.buckets with
  | some _ =>
    findOrCreateLoop K E object incrementUseCount env (HASH_BUCKETS_MAX + 1) st errno
  | none =>
    match env.callocBuckets HASH_BUCKETS_INITIAL with
    | .enomem =>
      some ⟨none, ⟨{ st.table with bucketCount := HASH_BUCKETS_INITIAL }, st.heap⟩, E.ENOMEM⟩
    | .ok e =>
      let table : HashTable :=
        ⟨some (List.replicate HASH_BUCKETS_INITIAL emptyBucket), HASH_BUCKETS_INITIAL,
          st.table.count⟩
      findOrCreateLoop K E object incrementUseCount env (HASH_BUCKETS_MAX + 1)
        ⟨table, st.heap⟩ (errnoAfter e errno)

/-! ### `hash_table_remove_item` -/

/-- The probe loop of `hash_table_remove_item`, which does not stop at empty buckets. -/
def removeProbe (bs : List HashBucket) (bucketCount key : ℕ) : ℕ ⊕ Unit :=
  probeLoop bucketCount (searchBody fun idx => (bucketAt bs idx).key = key)
    bucketCount (hashFunc key &&& (bucketCount - 1)) 0 ()

/-- The assertion on the use count, then `free`. -/
def ProxyHeap.destroy (h : ProxyHeap X) (proxy : Option ℕ) : ProxyHeap X :=
  match proxy with
  | none => { h with fault := some .nullProxy }
  | some p =>
    match h.cell p with
    | none => { h with fault := some (.useAfterFree p) }
    | some w => if w.useCount ≠ 0 then { h with fault := some (.removedInUse p) } else h.free p

/-- `hash_table_remove_item`. -/
def hashTableRemoveItem (st : Store X) (object : ℕ) : Store X :=
  match st.table.buckets with
  | none => st
  | some bs =>
    match removeProbe bs st.table.bucketCount object with
    | .inr () => st
    | .inl idx =>
      ⟨{ st.table with
          buckets := some (bs.set idx ⟨none, HASH_BUCKET_DELETED⟩), count := st.table.count - 1 },
        st.heap.destroy (bucketAt bs idx).proxy⟩

end AtomicWaits
