import AtomicWaits.Lib.Lts
import AtomicWaits.HashTableCapacity
import AtomicWaits.WaitReturn
import AtomicWaits.KernelDeadline
import AtomicWaits.Errno
import AtomicWaits.ProxyLifetime
import AtomicWaits.GenerationWake
import AtomicWaits.PthreadWake
import AtomicWaits.NativeWake
import AtomicWaits.KernelTimeout
import AtomicWaits.HashTableRehash
import AtomicWaits.PthreadArithmetic
import AtomicWaits.HashTableLoad
import AtomicWaits.StaleErrno
import AtomicWaits.Lib.Mutex
import AtomicWaits.ProxySystem
import AtomicWaits.ProxyAccounting
import AtomicWaits.GenerationRefusals
import AtomicWaits.BoundedWake
import AtomicWaits.HashTableProbe
import AtomicWaits.Lib.Simulation
import AtomicWaits.PathAgreement
import AtomicWaits.ProxySections
import AtomicWaits.AwaitRefinement
import AtomicWaits.Drain
import AtomicWaits.TableRun
import AtomicWaits.ProxyMemory
import AtomicWaits.ObjectIsolation
import AtomicWaits.RaceFreedom
import AtomicWaits.DeadlineExit
import AtomicWaits.NativeExit
import AtomicWaits.WindowsClock
import AtomicWaits.ByteWait
import AtomicWaits.ProxyComponent
