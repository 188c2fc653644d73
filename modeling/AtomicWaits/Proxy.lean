import AtomicWaits.Platform
import Mathlib.Logic.Function.Basic
import Mathlib.Tactic.SplitIfs

/-!
# Proxies

The object a waiter parks on. The shared table code is written against the macros
`WG14_ATOMIC_WAITS_HASH_TABLE_ITEM_PROXY_TYPE*`; `ProxyKind` is that interface and the two
definitions of the macros are its two values:

* `counterProxy`: the generation counter of the native backends, parked on with
  `wait_on_address32`;
* `pthreadProxy`: the mutex, condition variable and token count of `atomic_wait_pthreads.c.ipp`.

A proxy call that can suspend the thread is cut where it suspends: `enter` is the part up to the
suspension, `resume` the part run after it. Each part is one critical section (of the kernel's
compare-and-park, of the proxy's own mutex), and `none` means the thread sleeps.

`ProxyHeap` is the memory the proxies live in. A cell freed is never handed out again, so an access
through a stale pointer is seen as such; the first bad access is latched in `fault`.
-/

namespace AtomicWaits

/-- The `(unsigned) -1` that means wake-all. -/
def wakeAll : BitVec 32 := BitVec.allOnes 32

/-- What the three initialisers called by `pthread_proxy_init` return (zero for success). -/
structure ProxyInitEnv where
  mutexInit : ℕ
  condattrInit : ℕ
  condInit : ℕ

/-- The proxy macros. -/
structure ProxyKind (X : Type) where
  /-- The state `..._INIT` leaves. -/
  initial : X
  /-- What `..._INIT` returns: zero or a negated error. -/
  init : ProxyInitEnv → ℤ
  init_nonpos : ∀ env, init env ≤ 0
  /-- `..._WAIT_GET_COUNTER`. -/
  getCounter : X → BitVec 32
  /-- `..._WAIT` up to where it suspends or returns. -/
  enter : X → BitVec 32 → X × Option ℤ
  /-- `..._WAIT` after a suspension that ended with the given result. -/
  resume : X → ℤ → X × Option ℤ
  /-- The state `..._WAKE` leaves, from the thread limit and the use count. -/
  wake : X → BitVec 32 → ℤ → X
  /-- Whether `..._WAKE` wakes in the critical section in which it changes the state. -/
  wakesAtOnce : Bool
  /-- How many of the given number of suspended threads `..._WAKE` wakes at least. -/
  wakeCount : BitVec 32 → ℕ → ℕ
  wakeCount_all : ∀ n, wakeCount wakeAll n = n

/-! ### The generation counter -/

/-- The proxy of the native backends. The kernel compares and parks in one step and returns
`-EAGAIN` on a mismatch; a wake bumps the generation before it wakes. -/
def counterProxy (cfg : Platform) : ProxyKind (BitVec 32) where
  initial := 0
  init _ := 0
  init_nonpos _ := le_rfl
  getCounter g := g
  enter g c := (g, if g = c then none else some (-cfg.errno.EAGAIN))
  resume g r := (g, some r)
  wake g _ _ := g + 1
  wakesAtOnce := false
  wakeCount k n := if k = wakeAll then n else min k.toNat n
  wakeCount_all _ := if_pos rfl

/-! ### The pthreads proxy -/

/-- The counters of `wg14_pthreads_proxy_t`. -/
structure PthreadProxy where
  pending : ℤ
  waiting : ℤ
  deriving DecidableEq, Repr

/-- `pthread_proxy_init`; `monotonic` is `WG14_ATOMIC_WAITS_PTHREADS_MONOTONIC`. -/
def pthreadProxyInit (monotonic : Bool) (env : ProxyInitEnv) : ℤ :=
  if env.mutexInit ≠ 0 then -env.mutexInit
  else
    let ret := if monotonic && env.condattrInit != 0 then env.condattrInit else env.condInit
    if ret ≠ 0 then -ret else 0

theorem pthreadProxyInit_nonpos (monotonic : Bool) (env : ProxyInitEnv) :
    pthreadProxyInit monotonic env ≤ 0 := by
  unfold pthreadProxyInit
  dsimp only
  split_ifs <;> omega

/-- `pthread_proxy_wait` from the lock of the proxy mutex: a pending token is consumed at once,
else the thread is counted in `waiting` and sleeps on the condition variable. -/
def PthreadProxy.enter (p : PthreadProxy) : PthreadProxy × Option ℤ :=
  if 0 < p.pending then ({ p with pending := p.pending - 1 }, some 0)
  else ({ p with waiting := p.waiting + 1 }, none)

/-- The loop of `pthread_proxy_wait` once the condition wait returned `r` and the mutex is held
again. -/
def PthreadProxy.resume (cfg : Platform) (p : PthreadProxy) (r : ℤ) : PthreadProxy × Option ℤ :=
  if r = 0 then
    if 0 < p.pending then (⟨p.pending - 1, p.waiting - 1⟩, some 0)
    -- no token: back to sleep
    else (p, none)
  else if r = cfg.errno.ETIMEDOUT then
    ({ p with waiting := p.waiting - 1 }, some (-cfg.errno.ETIMEDOUT))
  else ({ p with waiting := p.waiting - 1 }, some (-r))

/-- The `pending` value `pthread_proxy_wake` stores. Both operands of the sum are converted to
`long`, and the result back to `int`. -/
def pthreadProxyPending (cfg : Platform) (pending : ℤ) (maxThreads : BitVec 32)
    (registered : ℤ) : ℤ :=
  let cap := if 0 < registered then registered else 1
  if maxThreads = wakeAll then wrapInt 32 cap
  else
    let np := wrapInt cfg.longBits (pending + wrapInt cfg.longBits maxThreads.toNat)
    wrapInt 32 (if cap < np then cap else np)

/-- `pthread_proxy_wake`. -/
def PthreadProxy.wake (cfg : Platform) (p : PthreadProxy) (maxThreads : BitVec 32)
    (registered : ℤ) : PthreadProxy :=
  { p with pending := pthreadProxyPending cfg p.pending maxThreads registered }

/-- The proxy of the pthreads backend. A limit of one signals the condition variable, any other
broadcasts. -/
def pthreadProxy (cfg : Platform) (monotonic : Bool) : ProxyKind PthreadProxy where
  initial := ⟨0, 0⟩
  init := pthreadProxyInit monotonic
  init_nonpos := pthreadProxyInit_nonpos monotonic
  getCounter _ := 0
  enter p _ := p.enter
  resume := PthreadProxy.resume cfg
  wake := PthreadProxy.wake cfg
  wakesAtOnce := true
  wakeCount k n := if k = 1 then min 1 n else n
  wakeCount_all _ := if_neg (by decide)

/-! ### The heap of proxies -/

/-- `proxy_waiter_t`. The `int` counts threads, of which there are never `INT_MAX`; it is not
wrapped. -/
structure ProxyWaiter (X : Type) where
  useCount : ℤ
  atomic : X

/-- The ways an access to a proxy can be wrong. -/
inductive HeapFault
  | useAfterFree (p : ℕ)
  | nullProxy
  /-- The assertion of `hash_table_remove_item` that the use count is zero. -/
  | removedInUse (p : ℕ)
  deriving DecidableEq, Repr

/-- The allocated proxies, and the next address `calloc` hands out. -/
structure ProxyHeap (X : Type) where
  cell : ℕ → Option (ProxyWaiter X)
  next : ℕ
  fault : Option HeapFault

namespace ProxyHeap

variable {X : Type}

def empty : ProxyHeap X := ⟨fun _ => none, 0, none⟩

def alloc (h : ProxyHeap X) (w : ProxyWaiter X) : ProxyHeap X :=
  { h with cell := Function.update h.cell h.next (some w), next := h.next + 1 }

/-- An access to the proxy at `p` that changes it by `f`. -/
def modify (h : ProxyHeap X) (p : ℕ) (f : ProxyWaiter X → ProxyWaiter X) : ProxyHeap X :=
  match h.cell p with
  | none => { h with fault := some (.useAfterFree p) }
  | some w => { h with cell := Function.update h.cell p (some (f w)) }

/-- An access through a pointer that may be `NULL`. -/
def modifyOpt (h : ProxyHeap X) (p : Option ℕ) (f : ProxyWaiter X → ProxyWaiter X) : ProxyHeap X :=
  match p with
  | none => { h with fault := some .nullProxy }
  | some p => h.modify p f

/-- `free`. -/
def free (h : ProxyHeap X) (p : ℕ) : ProxyHeap X :=
  match h.cell p with
  | none => { h with fault := some (.useAfterFree p) }
  | some _ => { h with cell := Function.update h.cell p none }

theorem modify_of_cell {h : ProxyHeap X} {p : ℕ} {w : ProxyWaiter X} (hw : h.cell p = some w)
    (f : ProxyWaiter X → ProxyWaiter X) :
    h.modify p f = { h with cell := Function.update h.cell p (some (f w)) } := by
  simp only [modify, hw]

theorem free_of_cell {h : ProxyHeap X} {p : ℕ} {w : ProxyWaiter X} (hw : h.cell p = some w) :
    h.free p = { h with cell := Function.update h.cell p none } := by
  simp only [free, hw]

theorem alloc_modify (h : ProxyHeap X) (w : ProxyWaiter X) (f : ProxyWaiter X → ProxyWaiter X) :
    (h.alloc w).modify h.next f
      = ⟨Function.update h.cell h.next (some (f w)), h.next + 1, h.fault⟩ := by
  rw [modify_of_cell (w := w) (Function.update_self ..)]
  show ProxyHeap.mk (Function.update (Function.update _ _ _) _ _) (h.next + 1) _ = _
  rw [Function.update_idem]
  rfl

theorem alloc_free {h : ProxyHeap X} (hnone : h.cell h.next = none) (w : ProxyWaiter X) :
    (h.alloc w).free h.next = { h with next := h.next + 1 } := by
  rw [free_of_cell (w := w) (Function.update_self ..)]
  show ProxyHeap.mk (Function.update (Function.update _ _ _) _ _) (h.next + 1) _ = _
  rw [Function.update_idem, ← hnone, Function.update_eq_self]
  rfl

@[simp] theorem modify_next (h : ProxyHeap X) (p : ℕ) (f : ProxyWaiter X → ProxyWaiter X) :
    (h.modify p f).next = h.next := by
  unfold modify
  split <;> rfl

end ProxyHeap

end AtomicWaits
