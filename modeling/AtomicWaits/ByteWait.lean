import AtomicWaits.ThreadView
import AtomicWaits.Lib.ByteOrder

/-!
# The bytes of a wait

`atomic_wait_generic` does not know the type of its object: it copies and compares `bytes` bytes of a union
and of `*expected`, and `atomic_load_generic` reads the object at the width that `bytes` says. Here it is
modelled so, with what the union holds before a load and what lies behind the object and `*expected` in memory.

* `atomicLoadGeneric_eq`: a load copies the bytes of the object, in either byte order.
* `atomicWaitBytes_eq`: a step on bytes is the step that loads the bytes of the object and the rest of
  `*expected`.
* `wait_bytes`: the runs on bytes are those of `atomicWaitGeneric` on numbers, and leave what lies behind
  `*expected` alone.
-/

namespace AtomicWaits

open Lib

/-- The union of `atomic_wait_generic`, and as many bytes of memory at an address. -/
abbrev Buffer := Fin 8 → BitVec 8

namespace Buffer

def byte (b : Buffer) (i : ℕ) : BitVec 8 := if h : i < 8 then b ⟨i, h⟩ else 0

/-- The number in the first bytes. -/
def value (cfg : Platform) (w : Width) (b : Buffer) : BitVec w.bits := fromBytes cfg.bigEndian w.bytes b.byte

end Buffer

def memcpy (dest src : Buffer) (bytes : ℕ) : Buffer := fun i => if i < bytes then src i else dest i

/-- By how much the first two bytes differ that do. -/
def memcmp (a b : Buffer) (bytes : ℕ) : ℤ :=
  (((List.range bytes).map fun i => ((a.byte i).toNat : ℤ) - (b.byte i).toNat).find? (· ≠ 0)).getD 0

/-- A number in memory. -/
def representation (cfg : Platform) (n : ℕ) (v : BitVec (8 * n)) : Buffer :=
  fun i => toBytes cfg.bigEndian n v i

/-- One case of the switch: the load of the `n` bytes at `object`, of which `bytes` are copied. -/
def loadCase (cfg : Platform) (n : ℕ) (dest object : Buffer) (bytes : ℕ) : Buffer :=
  let v := fromBytes cfg.bigEndian n object.byte
  memcpy dest (representation cfg n v) bytes

/-- `atomic_load_generic`, with the memory at `object`. `none` is `abort()`. -/
def atomicLoadGeneric (cfg : Platform) (dest object : Buffer) (bytes : ℕ) : Option Buffer :=
  match bytes with
  | 1 => some (loadCase cfg 1 dest object bytes)
  | 2 => some (loadCase cfg 2 dest object bytes)
  | 4 => some (loadCase cfg 4 dest object bytes)
  | 8 => some (loadCase cfg 8 dest object bytes)
  | _ => none

/-- What a load finds: the union, which has not been initialised, and the memory at the object. -/
structure ByteLoad where
  current : Buffer
  object : Buffer
  deriving DecidableEq

/-- One step of `atomic_wait_generic` on bytes. The accesses that are not loads of the object are those of
`atomicWaitGeneric`. -/
def atomicWaitBytes (cfg : Platform) (bytes : ℕ) (f : WaitFrame Buffer) (ev : WaitEvent ByteLoad) :
    Option (WaitFrame Buffer) :=
  match ev with
  | .load m =>
    match f.pc with
    | .loadTop =>
      (atomicLoadGeneric cfg m.current m.object bytes).map fun current =>
        if memcmp current f.expected bytes ≠ 0 then
          let f := { f with expected := memcpy f.expected current bytes }
          if f.reloads then { f with pc := .reloadTop } else f.breakLoop
        else if f.item = none then { f with pc := .lockForRegister }
        else f.onToPark
    | .loadLocked =>
      (atomicLoadGeneric cfg m.current m.object bytes).map fun current =>
        if memcmp current f.expected bytes ≠ 0 then
          let f := { f with expected := memcpy f.expected current bytes }
          if f.reloads then { f with pc := .reloadLocked } else { f with lockIsHeld := true }.breakLoop
        else { f with pc := .unlockRegistered }
    | _ => none
  | .reload m =>
    match f.pc with
    | .reloadTop => (atomicLoadGeneric cfg m.current m.object bytes).map fun _ => f.breakLoop
    | .reloadLocked =>
      (atomicLoadGeneric cfg m.current m.object bytes).map fun _ => { f with lockIsHeld := true }.breakLoop
    | _ => none
  | .clock now => atomicWaitGeneric cfg f (.clock now)
  | .lock => atomicWaitGeneric cfg f .lock
  | .findOrCreate item errno => atomicWaitGeneric cfg f (.findOrCreate item errno)
  | .unlock => atomicWaitGeneric cfg f .unlock
  | .getCounter c => atomicWaitGeneric cfg f (.getCounter c)
  | .park ret2 errno => atomicWaitGeneric cfg f (.park ret2 errno)
  | .decUseCount left => atomicWaitGeneric cfg f (.decUseCount left)
  | .removeItem errno => atomicWaitGeneric cfg f (.removeItem errno)

/-! ### Copying and comparing bytes -/

section Bytes

variable {a b dest src : Buffer} {n i : ℕ}

theorem byte_val (b : Buffer) (i : Fin 8) : b.byte i = b i := dif_pos i.isLt

theorem byte_memcpy_of_lt (h : i < n) : (memcpy dest src n).byte i = src.byte i := by
  unfold Buffer.byte
  split
  · exact if_pos h
  · rfl

theorem memcpy_congr (h : ∀ i, i < n → a.byte i = b.byte i) : memcpy dest a n = memcpy dest b n := by
  funext i
  unfold memcpy
  split
  · next hi => rw [← byte_val a i, ← byte_val b i, h i hi]
  · rfl

theorem memcpy_eq_self_iff : memcpy a b n = a ↔ ∀ i, i < n → b.byte i = a.byte i := by
  constructor
  · intro h i hi
    calc
      b.byte i = (memcpy a b n).byte i := (byte_memcpy_of_lt hi).symm
      _ = a.byte i := by rw [h]
  · intro h
    rw [memcpy_congr h]
    funext i
    exact ite_self _

/-- The first number that is not zero is zero when there is none. -/
theorem first_ne_zero_eq_zero_iff (ds : List ℤ) : (ds.find? (· ≠ 0)).getD 0 = 0 ↔ ∀ d ∈ ds, d = 0 := by
  cases hfind : ds.find? (· ≠ 0) with
  | none =>
    have hall := List.find?_eq_none.mp hfind
    exact ⟨fun _ d hd => by simpa using hall d hd, fun _ => rfl⟩
  | some d =>
    have hd : d ≠ 0 := by simpa using List.find?_some hfind
    exact ⟨fun h => absurd h hd, fun h => h d (List.mem_of_find?_eq_some hfind)⟩

theorem memcmp_eq_zero_iff : memcmp a b n = 0 ↔ ∀ i, i < n → a.byte i = b.byte i := by
  rw [memcmp, first_ne_zero_eq_zero_iff, List.forall_mem_map]
  simp only [List.mem_range, sub_eq_zero, Nat.cast_inj, BitVec.toNat_inj]

theorem loadCase_eq (cfg : Platform) (dest object : Buffer) (n : ℕ) :
    loadCase cfg n dest object n = memcpy dest object n := by
  apply memcpy_congr
  intro i hi
  by_cases h8 : i < 8
  · rw [byte_val _ ⟨i, h8⟩]
    exact toBytes_fromBytes cfg.bigEndian object.byte hi
  · rw [Buffer.byte, Buffer.byte, dif_neg h8, dif_neg h8]

theorem atomicLoadGeneric_eq (cfg : Platform) (w : Width) (dest object : Buffer) :
    atomicLoadGeneric cfg dest object w.bytes = some (memcpy dest object w.bytes) := by
  cases w with
  | w1 => exact congrArg some (loadCase_eq cfg dest object 1)
  | w2 => exact congrArg some (loadCase_eq cfg dest object 2)
  | w4 => exact congrArg some (loadCase_eq cfg dest object 4)
  | w8 => exact congrArg some (loadCase_eq cfg dest object 8)

end Bytes

variable {V W : Type}

def WaitEvent.map (g : V → W) : WaitEvent V → WaitEvent W
  | .clock now => .clock now
  | .load v => .load (g v)
  | .reload v => .reload (g v)
  | .lock => .lock
  | .findOrCreate item errno => .findOrCreate item errno
  | .unlock => .unlock
  | .getCounter c => .getCounter c
  | .park ret2 errno => .park ret2 errno
  | .decUseCount left => .decUseCount left
  | .removeItem errno => .removeItem errno

def WaitFrame.map (g : V → W) (f : WaitFrame V) : WaitFrame W where
  object := f.object
  duration := f.duration
  success := f.success
  failure := f.failure
  pc := f.pc
  expected := g f.expected
  errno := f.errno
  ret := f.ret
  entryErrno := f.entryErrno
  errnoIsSet := f.errnoIsSet
  deadline := f.deadline
  item := f.item
  itemCounter := f.itemCounter
  lockIsHeld := f.lockIsHeld
  tsRemaining := f.tsRemaining
  saveErrno := f.saveErrno

namespace WaitFrame

variable (g : V → W) (f : WaitFrame V)

theorem breakLoop_map : (f.map g).breakLoop = f.breakLoop.map g := by
  by_cases h : f.item = none
  · rw [breakLoop_of_none h, breakLoop_of_none (show (f.map g).item = none from h)]
    rfl
  · rw [breakLoop_of_some h, breakLoop_of_some (show (f.map g).item ≠ none from h)]
    rfl

theorem onToPark_map : (f.map g).onToPark = f.onToPark.map g := by
  unfold onToPark
  rw [apply_ite (map g)]
  rfl

end WaitFrame

/-- The step function does not look into the values, other than to compare the one it loads. -/
theorem atomicWaitGeneric_map [DecidableEq V] [DecidableEq W] (cfg : Platform) (g : V → W) (f : WaitFrame V)
    (ev : WaitEvent V) (hload : ∀ v, ev = .load v → (g v = g f.expected ↔ v = f.expected)) :
    atomicWaitGeneric cfg (f.map g) (ev.map g) = (atomicWaitGeneric cfg f ev).map (WaitFrame.map g) := by
  have hpc' : (f.map g).pc = f.pc := rfl
  cases ev with
  | load v =>
    have hv : g v = (f.map g).expected ↔ v = f.expected := hload v rfl
    simp only [atomicWaitGeneric, WaitEvent.map, hpc']
    cases f.pc with
    | loadTop =>
      dsimp only
      by_cases h : v = f.expected
      · rw [if_neg (not_not_intro h), if_neg (not_not_intro (hv.mpr h)), Option.map_some,
          apply_ite (WaitFrame.map g), ← WaitFrame.onToPark_map]
        rfl
      · rw [if_pos h, if_pos (mt hv.mp h), Option.map_some, apply_ite (WaitFrame.map g),
          ← WaitFrame.breakLoop_map]
        rfl
    | loadLocked =>
      dsimp only
      by_cases h : v = f.expected
      · rw [if_neg (not_not_intro h), if_neg (not_not_intro (hv.mpr h))]
        rfl
      · rw [if_pos h, if_pos (mt hv.mp h), Option.map_some, apply_ite (WaitFrame.map g),
          ← WaitFrame.breakLoop_map]
        rfl
    | _ => rfl
  | reload v =>
    simp only [atomicWaitGeneric, WaitEvent.map, hpc']
    cases f.pc with
    | reloadTop => exact congrArg some (f.breakLoop_map g)
    | reloadLocked =>
      dsimp only
      rw [Option.map_some, ← WaitFrame.breakLoop_map]
      rfl
    | _ => rfl
  | unlock =>
    simp only [atomicWaitGeneric, WaitEvent.map, hpc']
    cases f.pc with
    | unlockRegistered =>
      dsimp only
      rw [Option.map_some, ← WaitFrame.onToPark_map]
      rfl
    | _ => rfl
  | clock now =>
    simp only [atomicWaitGeneric, WaitEvent.map, hpc']
    cases f.pc with
    | entryClock =>
      dsimp only
      rw [show (f.map g).duration = f.duration from rfl]
      cases f.duration with
      | none => rfl
      | some d => rfl
    | checkDeadline =>
      dsimp only
      rw [apply_ite (Option.map (WaitFrame.map g)), Option.map_some, ← WaitFrame.breakLoop_map]
      rfl
    | _ => rfl
  | park ret2 errno =>
    simp only [atomicWaitGeneric, WaitEvent.map, hpc']
    cases f.pc with
    | park =>
      dsimp only
      rw [apply_ite (Option.map (WaitFrame.map g)), Option.map_some, ← WaitFrame.breakLoop_map]
      rfl
    | _ => rfl
  | lock | findOrCreate | getCounter | decUseCount | removeItem =>
    simp only [atomicWaitGeneric, WaitEvent.map, hpc']
    cases f.pc <;> rfl

/-! ### The runs -/

section Runs

variable {cfg : Platform} {w : Width}

/-- The object as a number. -/
def ByteLoad.value (cfg : Platform) (w : Width) (m : ByteLoad) : BitVec w.bits := m.object.value cfg w

theorem value_memcpy (dest src : Buffer) : (memcpy dest src w.bytes).value cfg w = src.value cfg w :=
  fromBytes_congr cfg.bigEndian fun _ hi => byte_memcpy_of_lt hi

theorem value_inj {a b : Buffer} :
    a.value cfg w = b.value cfg w ↔ ∀ i, i < w.bytes → a.byte i = b.byte i :=
  fromBytes_inj cfg.bigEndian

theorem memcpy_memcpy (a b c : Buffer) (n : ℕ) : memcpy a (memcpy b c n) n = memcpy a c n :=
  memcpy_congr fun _ hi => byte_memcpy_of_lt hi

/-- The union differs from `*expected` where the object does. -/
theorem memcmp_memcpy_ne_zero (current object expected : Buffer) (n : ℕ) :
    memcmp (memcpy current object n) expected n ≠ 0 ↔ memcpy expected object n ≠ expected := by
  rw [not_iff_not, memcmp_eq_zero_iff, memcpy_eq_self_iff]
  refine forall₂_congr fun i hi => ?_
  rw [byte_memcpy_of_lt hi]

/-- A step on bytes is the step that loads the bytes of the object and the rest of `*expected`. -/
theorem atomicWaitBytes_eq (f : WaitFrame Buffer) (ev : WaitEvent ByteLoad) :
    atomicWaitBytes cfg w.bytes f ev =
      atomicWaitGeneric cfg f (ev.map fun m => memcpy f.expected m.object w.bytes) := by
  cases ev with
  | load m =>
    have hcmp := memcmp_memcpy_ne_zero m.current m.object f.expected w.bytes
    simp only [atomicWaitBytes, atomicWaitGeneric, WaitEvent.map, atomicLoadGeneric_eq, Option.map_some]
    cases f.pc with
    | loadTop =>
      dsimp only
      rw [memcpy_memcpy]
      by_cases h : memcpy f.expected m.object w.bytes = f.expected
      · rw [if_neg (mt hcmp.mp (not_not_intro h)), if_neg (not_not_intro h)]
      · rw [if_pos (hcmp.mpr h), if_pos h]
    | loadLocked =>
      dsimp only
      rw [memcpy_memcpy]
      by_cases h : memcpy f.expected m.object w.bytes = f.expected
      · rw [if_neg (mt hcmp.mp (not_not_intro h)), if_neg (not_not_intro h)]
      · rw [if_pos (hcmp.mpr h), if_pos h]
    | _ => rfl
  | reload m =>
    simp only [atomicWaitBytes, atomicWaitGeneric, WaitEvent.map, atomicLoadGeneric_eq, Option.map_some]
    cases f.pc <;> rfl
  | _ => rfl

/-- A step on bytes is a step on numbers. -/
theorem atomicWaitGeneric_value (f : WaitFrame Buffer) (ev : WaitEvent ByteLoad) :
    atomicWaitGeneric cfg (f.map (Buffer.value cfg w)) (ev.map (ByteLoad.value cfg w)) =
      (atomicWaitBytes cfg w.bytes f ev).map (WaitFrame.map (Buffer.value cfg w)) := by
  rw [atomicWaitBytes_eq, ← atomicWaitGeneric_map]
  · cases ev with
    | load m | reload m =>
      simp only [WaitEvent.map, value_memcpy]
      rfl
    | _ => rfl
  · intro v hv
    cases ev with
    | load m =>
      obtain rfl := WaitEvent.load.inj hv
      rw [value_memcpy, value_inj, memcpy_eq_self_iff]
    | _ => cases hv

/-- A step takes the value it loads, or leaves `*expected` as it is. -/
theorem GenericStep.expected {V : Type} [DecidableEq V] {f f' : WaitFrame V} {ev : WaitEvent V}
    (h : GenericStep cfg f ev f') : f'.expected = f.expected ∨ ev = .load f'.expected := by
  have hbreak : ∀ g : WaitFrame V, g.breakLoop.expected = g.expected := by
    intro g
    unfold WaitFrame.breakLoop
    split
    · rfl
    · rfl
  have hpark : ∀ g : WaitFrame V, g.onToPark.expected = g.expected := fun g => g.onToPark_same.expected
  cases h with
  | topChangedReload | lockedChangedReload => exact .inr rfl
  | topChanged | lockedChanged => exact .inr (by rw [hbreak])
  | reloadTop | reloadLocked | timedOut | parkFailed => exact .inl (hbreak _)
  | topAgain | unlockRegistered => exact .inl (hpark _)
  | _ => exact .inl rfl

/-- Only the bytes of the value are written. -/
theorem atomicWaitBytes_frame {f f' : WaitFrame Buffer} {ev : WaitEvent ByteLoad}
    (h : atomicWaitBytes cfg w.bytes f ev = some f') (i : Fin 8) (hi : w.bytes ≤ i) :
    f'.expected i = f.expected i := by
  rw [atomicWaitBytes_eq] at h
  rcases (atomicWaitGeneric_cases h).expected with hsame | hload
  · rw [hsame]
  · cases ev with
    | load m =>
      rw [← WaitEvent.load.inj hload]
      exact if_neg (Nat.not_lt.mpr hi)
    | _ => cases hload

/-- **A wait on bytes is a wait on numbers.** At each width, in either byte order and whatever the union holds
before a load: the runs of `atomic_wait_generic` on bytes are those of `atomicWaitGeneric` on the numbers the
bytes represent, no load aborts, and no byte behind `*expected` is written. -/
theorem wait_bytes (cfg : Platform) (w : Width) (f : WaitFrame Buffer) (evs : List (WaitEvent ByteLoad)) :
    Lts.exec (atomicWaitGeneric cfg) (f.map (Buffer.value cfg w))
        (evs.map (WaitEvent.map (ByteLoad.value cfg w))) =
        (Lts.exec (atomicWaitBytes cfg w.bytes) f evs).map (WaitFrame.map (Buffer.value cfg w)) ∧
      ∀ f', Lts.exec (atomicWaitBytes cfg w.bytes) f evs = some f' →
        ∀ i : Fin 8, w.bytes ≤ i → f'.expected i = f.expected i := by
  constructor
  · rw [← Lts.exec_comap]
    exact Lts.exec_map _ _ atomicWaitGeneric_value f evs
  · intro f' hf' i hi
    refine Lts.exec_invariant _ (I := fun _ g => g.expected i = f.expected i) rfl ?_ hf'
    intro _ g ev g' hg hstep
    exact (atomicWaitBytes_frame hstep i hi).trans hg

end Runs

end AtomicWaits
