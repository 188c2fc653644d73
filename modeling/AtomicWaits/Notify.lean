import AtomicWaits.HashTable

/-!
# The notify functions, as their callers see them

The return value and the `errno` of every public notify function: `atomic_notify_one_N`,
`atomic_notify_all_N` and `atomic_notify_32`, over the wake helpers of the five backends and
`atomic_notify_generic`. Whom a wake reaches is the matter of the proxies and of the kernel; here a
kernel or pthreads call is what it returned.
-/

namespace AtomicWaits

/-- What a system call returned, and what it left in `errno`. -/
structure SyscallResult where
  ret : ℤ
  errno : ℤ

/-- The answers to the calls one wake makes: the system call of a native backend, the mutex lock and
the signal or broadcast of the pthreads backend, and the threads it counts as waiting. -/
structure WakeEnv where
  syscall : SyscallResult
  mutexLock : ℕ
  condWake : ℕ
  waiting : ℤ

def INT_MAX : ℤ := 2147483647

/-- The count reported by a wake whose system call reports none. -/
def fabricatedCount (maxThreads : BitVec 32) : ℤ := if maxThreads = 1 then 1 else INT_MAX - 1

/-- `wake_by_addressN`: the return value and `errno`. The bodies of one backend differ between
the widths in the operation code only. -/
def wakeByAddress (cfg : Platform) (maxThreads : BitVec 32) (env : WakeEnv) (errno : ℤ) : ℤ × ℤ :=
  let saveErrno := errno
  match cfg.backend with
  | .linux =>
    if env.syscall.ret < 0 then (-env.syscall.errno, saveErrno)
    else (wrapInt 32 env.syscall.ret, saveErrno)
  | .freebsd =>
    if env.syscall.ret < 0 then (-env.syscall.errno, saveErrno)
    else (fabricatedCount maxThreads, saveErrno)
  | .macos =>
    if env.syscall.ret ≠ 0 ∧ env.syscall.errno ≠ cfg.errno.ENOENT then
      (-env.syscall.errno, saveErrno)
    else (fabricatedCount maxThreads, saveErrno)
  | .windows | .pthreads => (fabricatedCount maxThreads, errno)

/-- The return value of `pthread_proxy_wake`, and `errno`. -/
def pthreadProxyWake (maxThreads : BitVec 32) (env : WakeEnv) (errno : ℤ) : ℤ × ℤ :=
  let saveErrno := errno
  if env.mutexLock ≠ 0 then (-env.mutexLock, saveErrno)
  else
    let woken :=
      if maxThreads = wakeAll then env.waiting
      else if env.waiting < maxThreads.toInt then env.waiting
      else maxThreads.toInt
    let woken := if woken < 1 then 1 else woken
    if env.condWake ≠ 0 then (-env.condWake, saveErrno) else (woken, saveErrno)

/-- `..._WAKE` of the backend. -/
def proxyWake (cfg : Platform) (maxThreads : BitVec 32) (env : WakeEnv) (errno : ℤ) : ℤ × ℤ :=
  match cfg.backend with
  | .pthreads => pthreadProxyWake maxThreads env errno
  | _ => wakeByAddress cfg maxThreads env errno

variable {X : Type} (K : ProxyKind X) (cfg : Platform)

/-- `atomic_notify_generic`: the return value and `errno`. -/
def atomicNotifyGeneric (st : Store X) (object : ℕ) (maxThreads : BitVec 32) (env : AllocEnv)
    (wenv : WakeEnv) (errno : ℤ) : Option (ℤ × ℤ) :=
  match hashTableFindOrCreate K cfg.errno st object false env errno with
  | none => none
  | some r =>
    match r.item with
    | none => some (0, r.errno)
    | some _ => some (proxyWake cfg maxThreads wenv r.errno)

/-- The wake of a public function: native where the width has one. -/
def atomicNotify (width : Width) (st : Store X) (object : ℕ) (maxThreads : BitVec 32)
    (env : AllocEnv) (wenv : WakeEnv) (errno : ℤ) : Option (ℤ × ℤ) :=
  if cfg.haveAddress width then some (wakeByAddress cfg maxThreads wenv errno)
  else atomicNotifyGeneric K cfg st object maxThreads env wenv errno

/-- A call of a public notify function. For `atomic_notify_32` also whether its compare-exchange
succeeds. -/
inductive NotifyCall
  | one (width : Width)
  | all (width : Width)
  | notify32 (maxThreads : BitVec 32) (exchanged : Bool)
  deriving DecidableEq, Repr

/-- What a public notify function returns, zero for the `void` ones, and `errno`. -/
def NotifyCall.run (call : NotifyCall) (st : Store X) (object : ℕ) (env : AllocEnv)
    (wenv : WakeEnv) (errno : ℤ) : Option (ℤ × ℤ) :=
  match call with
  | .one width => (atomicNotify K cfg width st object 1 env wenv errno).map fun r => (0, r.2)
  | .all width => (atomicNotify K cfg width st object wakeAll env wenv errno).map fun r => (0, r.2)
  | .notify32 maxThreads exchanged =>
    if maxThreads = 0 then some (0, errno)
    else if !exchanged then some (0, errno)
    else
      (atomicNotify K cfg .w4 st object maxThreads env wenv errno).map fun r =>
        if r.1 < 0 then (r.1, -r.1) else (1 + r.1, r.2)

end AtomicWaits
