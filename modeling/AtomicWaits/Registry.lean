import AtomicWaits.HashTableOps
import AtomicWaits.Lib.Lts

/-!
# The registry: which thread may touch which proxy

What the table, its lock and the use counts are for, without the code of any thread. A thread has a
`Role`: whether it holds the lock, and which proxy it is counted on. `RegistryStep` lists what a
thread may do to the store in its role, and `RegistryInv` is what every such step keeps:

* the lock has one holder, and has a holder when it is set;
* the use count of a registered proxy is the number of threads counted on it;
* a key is registered as long as a thread is counted on its proxy, and no longer, except between the
  last decrement and the removal, both under one hold of the lock.
-/

namespace AtomicWaits

open Lib

/-- A thread, as the registry sees it. -/
inductive Role
  /-- Neither the lock nor a registration. -/
  | apart
  /-- The lock alone. -/
  | locked
  /-- Counted on the proxy `p` of `object`. -/
  | counted (object p : ℕ)
  /-- Counted, and holds the lock. -/
  | countedLocked (object p : ℕ)
  /-- Holds the lock and has taken the last count of `p`. -/
  | removing (object p : ℕ)
  /-- Holds the lock and has looked `p` up. -/
  | waking (object p : ℕ)
  deriving DecidableEq, Repr

namespace Role

def holds : Role → Bool
  | locked | countedLocked _ _ | removing _ _ | waking _ _ => true
  | apart | counted _ _ => false

/-- The object and the proxy the thread is counted on. -/
def registered : Role → Option (ℕ × ℕ)
  | counted o p | countedLocked o p => some (o, p)
  | _ => none

/-- The object and the proxy the thread may access. -/
def uses : Role → Option (ℕ × ℕ)
  | counted o p | countedLocked o p | waking o p => some (o, p)
  | _ => none

def acquire : Role → Role
  | apart => locked
  | counted o p => countedLocked o p
  | r => r

def release : Role → Role
  | locked | waking _ _ => apart
  | countedLocked o p => counted o p
  | r => r

theorem uses_of_registered {r : Role} {x : ℕ × ℕ} (h : r.registered = some x) :
    r.uses = some x := by
  cases r <;> first | exact h | cases h

theorem registered_or_waking {r : Role} {o p : ℕ} (h : r.uses = some (o, p)) :
    r.registered = some (o, p) ∨ r = waking o p := by
  cases r with
  | counted _ _ => exact .inl h
  | countedLocked _ _ => exact .inl h
  | waking _ _ =>
    cases h
    exact .inr rfl
  | _ => cases h

@[simp] theorem acquire_registered (r : Role) : r.acquire.registered = r.registered := by
  cases r <;> rfl

@[simp] theorem acquire_uses (r : Role) : r.acquire.uses = r.uses := by
  cases r <;> rfl

@[simp] theorem acquire_holds (r : Role) : r.acquire.holds = true := by
  cases r <;> rfl

@[simp] theorem release_registered (r : Role) : r.release.registered = r.registered := by
  cases r <;> rfl

theorem release_holds {r : Role} (h : ∀ o p, r ≠ removing o p) : r.release.holds = false := by
  cases r with
  | removing o p => exact absurd rfl (h o p)
  | _ => rfl

theorem uses_of_release {r : Role} {x : ℕ × ℕ} (h : r.release.uses = some x) :
    r.uses = some x := by
  cases r <;> first | exact h | cases h

end Role

/-- The lock, the table with its proxies, and the roles of the threads `τ`. -/
structure Registry (τ X : Type) where
  lock : Bool
  store : Store X
  role : τ → Role

section Registrations

variable {τ : Type} [Fintype τ]

/-- The number of threads counted on the proxy `p` of the object `o`. -/
def registrations (role : τ → Role) (o p : ℕ) : ℕ :=
  (Finset.univ.filter fun a => (role a).registered = some (o, p)).card

theorem registrations_pos {role : τ → Role} {a : τ} {o p : ℕ}
    (h : (role a).registered = some (o, p)) : 0 < registrations role o p :=
  Finset.card_pos.mpr ⟨a, Finset.mem_filter.mpr ⟨Finset.mem_univ a, h⟩⟩

theorem exists_registered {role : τ → Role} {o p : ℕ} (h : registrations role o p ≠ 0) :
    ∃ a, (role a).registered = some (o, p) := by
  obtain ⟨a, ha⟩ := Finset.card_pos.mp (Nat.pos_of_ne_zero h)
  exact ⟨a, (Finset.mem_filter.mp ha).2⟩

theorem registrations_eq_zero {role : τ → Role} {o p : ℕ} :
    registrations role o p = 0 ↔ ∀ a, (role a).registered ≠ some (o, p) := by
  constructor
  · intro h a ha
    have := registrations_pos ha
    omega
  · intro h
    by_contra hne
    obtain ⟨a, ha⟩ := exists_registered hne
    exact h a ha

variable [DecidableEq τ]

theorem registrations_update (role : τ → Role) (a : τ) (r : Role) (o p : ℕ) :
    registrations (Function.update role a r) o p
        + (if (role a).registered = some (o, p) then 1 else 0)
      = registrations role o p + (if r.registered = some (o, p) then 1 else 0) :=
  card_filter_update (fun r : Role => r.registered = some (o, p)) role a r

/-- A change of role between equal registrations changes no count. -/
theorem registrations_update_same (role : τ → Role) {a : τ} {r : Role}
    (h : r.registered = (role a).registered) (o p : ℕ) :
    registrations (Function.update role a r) o p = registrations role o p := by
  have := registrations_update role a r o p
  rw [h] at this
  omega

/-- A change of role keeps the counts of the objects it does not register. -/
theorem registrations_update_other {role : τ → Role} {a : τ} {r : Role} {o p : ℕ}
    (hold : (role a).registered ≠ some (o, p)) (hnew : r.registered ≠ some (o, p)) :
    registrations (Function.update role a r) o p = registrations role o p := by
  have := registrations_update role a r o p
  rwa [if_neg hold, if_neg hnew] at this

end Registrations

section Steps

variable {τ X : Type} (K : ProxyKind X) (E : ErrnoCodes)

/-- The use count that a decrement leaves. -/
def leftCount (st : Store X) (p : ℕ) : ℤ :=
  ((st.heap.cell p).map fun w => w.useCount - 1).getD 0

/-- What a thread may do in its role. -/
inductive RegistryStep [DecidableEq τ] (g : Registry τ X) : Registry τ X → Prop
  | acquire (a : τ) : g.lock = false →
      RegistryStep g ⟨true, g.store, Function.update g.role a (g.role a).acquire⟩
  | release (a : τ) : (g.role a).holds = true → (∀ o p, g.role a ≠ .removing o p) →
      RegistryStep g ⟨false, g.store, Function.update g.role a (g.role a).release⟩
  | register (a : τ) (o : ℕ) (env : AllocEnv) (errno : ℤ) (r : FindResult X) : 2 ≤ o →
      g.role a = .locked → hashTableFindOrCreate K E g.store o true env errno = some r →
      RegistryStep g ⟨g.lock, r.store,
        Function.update g.role a ((r.item.map (Role.countedLocked o)).getD .locked)⟩
  | lookup (a : τ) (o : ℕ) (env : AllocEnv) (errno : ℤ) (r : FindResult X) : 2 ≤ o →
      g.role a = .locked → hashTableFindOrCreate K E g.store o false env errno = some r →
      RegistryStep g ⟨g.lock, r.store,
        Function.update g.role a ((r.item.map (Role.waking o)).getD .locked)⟩
  | touch (a : τ) (o p : ℕ) (f : ProxyWaiter X → ProxyWaiter X) : (g.role a).uses = some (o, p) →
      (∀ w, (f w).useCount = w.useCount) →
      RegistryStep g ⟨g.lock, { g.store with heap := g.store.heap.modify p f }, g.role⟩
  | decrement (a : τ) (o p : ℕ) : g.role a = .countedLocked o p →
      RegistryStep g ⟨g.lock,
        { g.store with heap := g.store.heap.modify p fun w => { w with useCount := w.useCount - 1 } },
        Function.update g.role a (if leftCount g.store p = 0 then .removing o p else .locked)⟩
  | remove (a : τ) (o p : ℕ) : g.role a = .removing o p →
      RegistryStep g ⟨g.lock, hashTableRemoveItem g.store o, Function.update g.role a .locked⟩

/-- The lock is set while a thread holds it, and one thread holds it. -/
structure LockInv (lock : Bool) (role : τ → Role) : Prop where
  lock_iff : lock = true ↔ ∃ a, (role a).holds = true
  unique : ∀ a b, (role a).holds = true → (role b).holds = true → a = b

/-- **The registry invariant.** -/
structure RegistryInv [Fintype τ] (g : Registry τ X) : Prop where
  wf : StoreWf g.store
  lock : LockInv g.lock g.role
  uses : ∀ a o p, (g.role a).uses = some (o, p) → g.store.table.entry o = some p
  count : ∀ o p w, g.store.table.entry o = some p → g.store.heap.cell p = some w →
    w.useCount = registrations g.role o p
  kept : ∀ o p, g.store.table.entry o = some p →
    registrations g.role o p ≠ 0 ∨ ∃ a, g.role a = .removing o p
  removing : ∀ a o p, g.role a = .removing o p →
    g.store.table.entry o = some p ∧ registrations g.role o p = 0

/-- The holder changes to another locked role. -/
theorem LockInv.update [DecidableEq τ] {lock : Bool} {role : τ → Role} (h : LockInv lock role)
    {a : τ} {r : Role} (ha : (role a).holds = true) (hr : r.holds = true) :
    LockInv lock (Function.update role a r) := by
  have hholds : ∀ b, (Function.update role a r b).holds = (role b).holds := by
    intro b
    by_cases hba : b = a
    · rw [hba, Function.update_self, hr, ha]
    · rw [Function.update_of_ne hba]
  refine ⟨?_, ?_⟩
  · simp only [hholds]
    exact h.lock_iff
  · intro b c hb hc
    exact h.unique b c ((hholds b).symm.trans hb) ((hholds c).symm.trans hc)

variable {K E} [Fintype τ] {g : Registry τ X}

namespace RegistryInv

/-- The holder of the lock is the only thread in a locked role. -/
theorem role_not_holds (h : RegistryInv g) {a b : τ} (ha : (g.role a).holds = true) (hne : b ≠ a) :
    (g.role b).holds = false := by
  by_contra hb
  exact hne (h.lock.unique b a (by simpa using hb) ha)

theorem not_removing (h : RegistryInv g) {a : τ} (ha : (g.role a).holds = true)
    (hr : ∀ o p, g.role a ≠ .removing o p) (b : τ) (o p : ℕ) : g.role b ≠ .removing o p := by
  intro hb
  have hba : b = a := h.lock.unique b a (by rw [hb]; rfl) ha
  exact hr o p (hba ▸ hb)

theorem registered_entry (h : RegistryInv g) {a : τ} {o p : ℕ}
    (ha : (g.role a).registered = some (o, p)) : g.store.table.entry o = some p :=
  h.uses a o p (Role.uses_of_registered ha)

theorem entry_cell (h : RegistryInv g) {o p : ℕ} (he : g.store.table.entry o = some p) :
    ∃ w, g.store.heap.cell p = some w ∧ w.useCount = registrations g.role o p := by
  obtain ⟨w, hw⟩ := Option.isSome_iff_exists.mp (h.wf.alloc o p he)
  exact ⟨w, hw, h.count o p w he hw⟩

/-- The proxy a thread removes has no registration left. -/
theorem removing_useCount (h : RegistryInv g) {a : τ} {o p : ℕ} (ha : g.role a = .removing o p) :
    ∃ w, g.store.heap.cell p = some w ∧ w.useCount = 0 := by
  obtain ⟨he, hzero⟩ := h.removing a o p ha
  obtain ⟨w, hw, hcount⟩ := h.entry_cell he
  exact ⟨w, hw, by rw [hcount, hzero]; rfl⟩

/-! ### Accesses to a proxy -/

theorem touch (h : RegistryInv g) {a : τ} {o p : ℕ} {f : ProxyWaiter X → ProxyWaiter X}
    (ha : (g.role a).uses = some (o, p)) (hf : ∀ w, (f w).useCount = w.useCount) :
    RegistryInv ⟨g.lock, { g.store with heap := g.store.heap.modify p f }, g.role⟩ := by
  obtain ⟨w, hw, -⟩ := h.entry_cell (h.uses a o p ha)
  rw [ProxyHeap.modify_of_cell hw]
  refine ⟨h.wf.setCell hw, h.lock, h.uses, ?_, h.kept, h.removing⟩
  intro o' q w' he hw'
  have hw'' : Function.update g.store.heap.cell p (some (f w)) q = some w' := hw'
  by_cases hq : q = p
  · rw [hq, Function.update_self] at hw''
    cases hw''
    rw [hf]
    exact h.count o' q w he (hq ▸ hw)
  · rw [Function.update_of_ne hq] at hw''
    exact h.count o' q w' he hw''

variable [DecidableEq τ]

omit [DecidableEq τ] in
/-- While the lock is held for no removal, every key in the table is registered. -/
theorem registrations_ne_zero (h : RegistryInv g) {a : τ} (ha : (g.role a).holds = true)
    (hr : ∀ o p, g.role a ≠ .removing o p) {o p : ℕ} (he : g.store.table.entry o = some p) :
    registrations g.role o p ≠ 0 := by
  rcases h.kept o p he with hpos | ⟨b, hb⟩
  · exact hpos
  · exact absurd hb (h.not_removing ha hr b o p)

/-- What the threads use after a change of role. -/
theorem uses_update (h : RegistryInv g) {a : τ} {r : Role}
    (hr : ∀ o p, r.uses = some (o, p) → g.store.table.entry o = some p) {b : τ} {o p : ℕ}
    (hb : (Function.update g.role a r b).uses = some (o, p)) :
    g.store.table.entry o = some p := by
  by_cases hba : b = a
  · rw [hba, Function.update_self] at hb
    exact hr o p hb
  · rw [Function.update_of_ne hba] at hb
    exact h.uses b o p hb

/-! ### The lock -/

theorem acquire (h : RegistryInv g) (a : τ) (hfree : g.lock = false) :
    RegistryInv ⟨true, g.store, Function.update g.role a (g.role a).acquire⟩ := by
  have hnone : ∀ b, (g.role b).holds = false := by
    intro b
    by_contra hb
    have := h.lock.lock_iff.mpr ⟨b, by simpa using hb⟩
    rw [hfree] at this
    cases this
  have hholds : ∀ b, (Function.update g.role a (g.role a).acquire b).holds = true → b = a := by
    intro b hb
    by_contra hne
    rw [Function.update_of_ne hne, hnone b] at hb
    cases hb
  have hreg := registrations_update_same g.role (a := a) (g.role a).acquire_registered
  refine ⟨h.wf, ⟨⟨fun _ => ⟨a, by simp⟩, fun _ => rfl⟩, ?_⟩, ?_, ?_, ?_, ?_⟩
  · intro b c hb hc
    rw [hholds b hb, hholds c hc]
  · intro b o p hb
    exact h.uses_update (fun o p ha => h.uses a o p (by simpa using ha)) hb
  · intro o p w he hw
    rw [hreg]
    exact h.count o p w he hw
  · intro o p he
    rw [hreg]
    refine .inl ?_
    rcases h.kept o p he with hpos | ⟨b, hb⟩
    · exact hpos
    · have := hnone b
      rw [hb] at this
      cases this
  · intro b o p hb
    have hb : Function.update g.role a (g.role a).acquire b = .removing o p := hb
    obtain rfl : b = a := hholds b (by rw [hb]; rfl)
    have hb' : (g.role b).acquire = .removing o p := by simpa using hb
    have := hnone b
    cases hr : g.role b with
    | removing _ _ =>
      rw [hr] at this
      cases this
    | _ =>
      rw [hr] at hb'
      cases hb'

theorem release (h : RegistryInv g) {a : τ} (ha : (g.role a).holds = true)
    (hr : ∀ o p, g.role a ≠ .removing o p) :
    RegistryInv ⟨false, g.store, Function.update g.role a (g.role a).release⟩ := by
  have hnone : ∀ b, (Function.update g.role a (g.role a).release b).holds = false := by
    intro b
    by_cases hba : b = a
    · rw [hba, Function.update_self]
      exact Role.release_holds hr
    · rw [Function.update_of_ne hba]
      exact h.role_not_holds ha hba
  have hreg := registrations_update_same g.role (a := a) (g.role a).release_registered
  refine ⟨h.wf, ⟨⟨nofun, ?_⟩, ?_⟩, ?_, ?_, ?_, ?_⟩
  · rintro ⟨b, hb⟩
    exact absurd hb (by rw [hnone b]; decide)
  · intro b c hb
    exact absurd hb (by rw [hnone b]; decide)
  · intro b o p hb
    exact h.uses_update (fun o p ha => h.uses a o p (Role.uses_of_release ha)) hb
  · intro o p w he hw
    rw [hreg]
    exact h.count o p w he hw
  · intro o p he
    rw [hreg]
    exact .inl (h.registrations_ne_zero ha hr he)
  · intro b o p hb
    have := hnone b
    rw [show Function.update g.role a (g.role a).release b = .removing o p from hb] at this
    cases this

/-! ### A change of role under the lock -/

/-- The holder keeps the lock and changes to a role that removes nothing; the table keeps its
entries. -/
theorem underLock (h : RegistryInv g) {a : τ} {r : Role} {st : Store X}
    (ha : (g.role a).holds = true) (hr : ∀ o p, g.role a ≠ .removing o p) (hrh : r.holds = true)
    (hr' : ∀ o p, r ≠ .removing o p) (hreg : r.registered = (g.role a).registered)
    (huses : ∀ o p, r.uses = some (o, p) → g.store.table.entry o = some p) (hwf : StoreWf st)
    (hent : st.table.entry = g.store.table.entry) (hcell : st.heap.cell = g.store.heap.cell) :
    RegistryInv ⟨g.lock, st, Function.update g.role a r⟩ := by
  have hregs := registrations_update_same g.role hreg
  refine ⟨hwf, ?_, ?_, ?_, ?_, ?_⟩
  · exact h.lock.update ha hrh
  · intro b o p hb
    show st.table.entry o = some p
    rw [hent]
    exact h.uses_update huses hb
  · intro o p w he hw
    rw [hregs]
    exact h.count o p w (hent ▸ he) (hcell ▸ hw)
  · intro o p he
    rw [hregs]
    exact .inl (h.registrations_ne_zero ha hr (hent ▸ he))
  · intro b o p hb
    by_cases hba : b = a
    · subst hba
      exact absurd (by simpa using hb) (hr' o p)
    · exact absurd (by simpa [hba] using hb) (h.not_removing ha hr b o p)

/-! ### Registration and lookup -/

/-- The holder of the lock registers on `p`, whose count the store has raised. -/
theorem register (h : RegistryInv g) {a : τ} {o p : ℕ} {st : Store X} (ha : g.role a = .locked)
    (hwf : StoreWf st) (hself : st.table.entry o = some p)
    (hother : ∀ o', o' ≠ o → st.table.entry o' = g.store.table.entry o')
    (hold : ∀ q, g.store.table.entry o = some q → q = p)
    (hcell : ∀ q, q ≠ p → st.heap.cell q = g.store.heap.cell q)
    (hcount : ∀ w, st.heap.cell p = some w → w.useCount = registrations g.role o p + 1) :
    RegistryInv ⟨g.lock, st, Function.update g.role a (.countedLocked o p)⟩ := by
  have hah : (g.role a).holds = true := by rw [ha]; rfl
  have hnr : ∀ o' p', g.role a ≠ .removing o' p' := by
    intro o' p' he
    rw [ha] at he
    cases he
  have hreg_self : registrations (Function.update g.role a (.countedLocked o p)) o p
      = registrations g.role o p + 1 := by
    have := registrations_update g.role a (.countedLocked o p) o p
    simp only [ha, Role.registered, reduceCtorEq, if_false, if_true] at this
    omega
  have hreg_other : ∀ o' p', o' ≠ o →
      registrations (Function.update g.role a (.countedLocked o p)) o' p'
        = registrations g.role o' p' := by
    intro o' p' hne
    refine registrations_update_other ?_ ?_
    · rw [ha]
      exact nofun
    · intro he
      cases he
      exact hne rfl
  refine ⟨hwf, ?_, ?_, ?_, ?_, ?_⟩
  · exact h.lock.update hah rfl
  · intro b o' p' hb
    show st.table.entry o' = some p'
    by_cases hba : b = a
    · subst hba
      have hb' : (Role.countedLocked o p).uses = some (o', p') := by simpa using hb
      cases hb'
      exact hself
    · have he := h.uses b o' p' (by simpa [hba] using hb)
      by_cases ho : o' = o
      · subst ho
        rw [hself, hold p' he]
      · rw [hother o' ho]
        exact he
  · intro o' p' w he hw
    have he' : st.table.entry o' = some p' := he
    have hw' : st.heap.cell p' = some w := hw
    show w.useCount = (registrations (Function.update g.role a _) o' p' : ℤ)
    by_cases ho : o' = o
    · subst ho
      obtain rfl : p = p' := Option.some.inj (hself.symm.trans he')
      rw [hreg_self, hcount w hw']
      push_cast
      rfl
    · have hpp : p' ≠ p := fun heq => ho (hwf.inj o' o p (heq ▸ he') hself)
      rw [hreg_other o' p' ho]
      exact h.count o' p' w (hother o' ho ▸ he') (hcell p' hpp ▸ hw')
  · intro o' p' he
    refine .inl ?_
    show registrations (Function.update g.role a _) o' p' ≠ 0
    by_cases ho : o' = o
    · subst ho
      obtain rfl : p = p' := Option.some.inj (hself.symm.trans he)
      rw [hreg_self]
      omega
    · rw [hreg_other o' p' ho]
      exact h.registrations_ne_zero hah hnr ((hother o' ho).symm.trans he)
  · intro b o' p' hb
    by_cases hba : b = a
    · subst hba
      exact absurd hb (by simp)
    · exact absurd (by simpa [hba] using hb) (h.not_removing hah hnr b o' p')

theorem registerStep (h : RegistryInv g) {a : τ} {o : ℕ} {env : AllocEnv} {r : FindResult X}
    (ha : g.role a = .locked) (hspec : RegisterSpec K E g.store o env r) :
    RegistryInv ⟨g.lock, r.store,
      Function.update g.role a ((r.item.map (Role.countedLocked o)).getD .locked)⟩ := by
  cases hspec with
  | failed st' errno hwf hent hcell _ =>
    refine h.underLock (r := .locked) ?_ ?_ rfl ?_ ?_ ?_ hwf hent hcell
    · rw [ha]
      rfl
    · intro o' p' he
      rw [ha] at he
      cases he
    · intro _ _ he
      cases he
    · rw [ha]
    · intro _ _ he
      cases he
  | joined p w st' errno hp hw hwf hent hcell =>
    refine h.register ha hwf ?_ ?_ ?_ ?_ ?_
    · rw [hent, hp]
    · intro o' _
      rw [hent]
    · intro q hq
      exact Option.some.inj (hq.symm.trans hp)
    · intro q hq
      rw [hcell, Function.update_of_ne hq]
    · intro w' hw'
      rw [hcell, Function.update_self] at hw'
      cases hw'
      show w.useCount + 1 = _
      rw [h.count o p w hp hw]
  | created st' errno hnone hwf hent hcell =>
    refine h.register ha hwf ?_ ?_ ?_ ?_ ?_
    · rw [hent, Function.update_self]
    · intro o' ho
      rw [hent, Function.update_of_ne ho]
    · intro q hq
      rw [hnone] at hq
      cases hq
    · intro q hq
      rw [hcell, Function.update_of_ne hq]
    · intro w hw
      rw [hcell, Function.update_self] at hw
      cases hw
      have hzero : registrations g.role o g.store.heap.next = 0 := by
        apply registrations_eq_zero.mpr
        intro b hb
        have := h.registered_entry hb
        rw [hnone] at this
        cases this
      rw [hzero]
      rfl

theorem lookupStep (h : RegistryInv g) {a : τ} {o : ℕ} {r : FindResult X}
    (ha : g.role a = .locked) (hspec : LookupSpec g.store o r) :
    RegistryInv ⟨g.lock, r.store,
      Function.update g.role a ((r.item.map (Role.waking o)).getD .locked)⟩ := by
  have hitem := hspec.item
  refine h.underLock ?_ ?_ ?_ ?_ ?_ ?_ hspec.wf hspec.entry (by rw [hspec.heap])
  · rw [ha]
    rfl
  · intro o' p' he
    rw [ha] at he
    cases he
  · cases r.item <;> rfl
  · intro o' p'
    cases r.item <;> exact fun he => by cases he
  · rw [ha]
    cases r.item <;> rfl
  · intro o' p' he
    cases hri : r.item with
    | none =>
      rw [hri] at he
      cases he
    | some p =>
      rw [hri] at he hitem
      cases he
      exact hitem.symm

/-! ### Release -/

theorem decrement (h : RegistryInv g) {a : τ} {o p : ℕ} (ha : g.role a = .countedLocked o p) :
    RegistryInv ⟨g.lock,
      { g.store with heap := g.store.heap.modify p fun w => { w with useCount := w.useCount - 1 } },
      Function.update g.role a (if leftCount g.store p = 0 then .removing o p else .locked)⟩ := by
  have hareg : (g.role a).registered = some (o, p) := by rw [ha]; rfl
  have he := h.registered_entry hareg
  obtain ⟨w, hw, hcount⟩ := h.entry_cell he
  have hleft : leftCount g.store p = w.useCount - 1 := by
    show ((g.store.heap.cell p).map fun w => w.useCount - 1).getD 0 = _
    rw [hw]
    rfl
  have hah : (g.role a).holds = true := by rw [ha]; rfl
  have hnr : ∀ o' p', g.role a ≠ .removing o' p' := by
    intro o' p' hr
    rw [ha] at hr
    cases hr
  generalize hr : (if leftCount g.store p = 0 then Role.removing o p else .locked) = r
  have hrh : r.holds = true := by
    rw [← hr]
    split <;> rfl
  have hru : r.uses = none := by
    rw [← hr]
    split <;> rfl
  have hrr : r.registered = none := by
    rw [← hr]
    split <;> rfl
  have hreg_self : registrations (Function.update g.role a r) o p + 1 = registrations g.role o p := by
    have := registrations_update g.role a r o p
    rw [hareg, hrr, if_pos rfl, if_neg (by simp)] at this
    omega
  have hreg_other : ∀ o' p', o' ≠ o →
      registrations (Function.update g.role a r) o' p' = registrations g.role o' p' := by
    intro o' p' hne
    refine registrations_update_other ?_ (by rw [hrr]; exact nofun)
    rw [hareg]
    intro he'
    cases he'
    exact hne rfl
  rw [ProxyHeap.modify_of_cell hw]
  refine ⟨h.wf.setCell hw, ?_, ?_, ?_, ?_, ?_⟩
  · exact h.lock.update hah hrh
  · intro b o' p' hb
    refine h.uses_update (fun o'' p'' hr' => ?_) hb
    rw [hru] at hr'
    cases hr'
  · intro o' q w' he' hw'
    have he'' : g.store.table.entry o' = some q := he'
    have hw'' : Function.update g.store.heap.cell p _ q = some w' := hw'
    show w'.useCount = (registrations (Function.update g.role a r) o' q : ℤ)
    by_cases ho : o' = o
    · subst ho
      obtain rfl : p = q := Option.some.inj (he.symm.trans he'')
      rw [Function.update_self] at hw''
      cases hw''
      show w.useCount - 1 = _
      omega
    · have hq : q ≠ p := fun heq => ho (h.wf.inj o' o p (heq ▸ he'') he)
      rw [Function.update_of_ne hq] at hw''
      rw [hreg_other o' q ho]
      exact h.count o' q w' he'' hw''
  · intro o' q he'
    have he'' : g.store.table.entry o' = some q := he'
    show registrations (Function.update g.role a r) o' q ≠ 0 ∨ ∃ b, Function.update g.role a r b = _
    by_cases ho : o' = o
    · subst ho
      obtain rfl : p = q := Option.some.inj (he.symm.trans he'')
      by_cases hl : leftCount g.store p = 0
      · refine .inr ⟨a, ?_⟩
        rw [Function.update_self, ← hr, if_pos hl]
      · refine .inl ?_
        omega
    · rw [hreg_other o' q ho]
      exact .inl (h.registrations_ne_zero hah hnr he'')
  · intro b o' q hb
    have hb' : Function.update g.role a r b = .removing o' q := hb
    by_cases hba : b = a
    · rw [hba, Function.update_self, ← hr] at hb'
      split at hb'
      · next hl =>
        cases hb'
        refine ⟨he, ?_⟩
        show registrations (Function.update g.role a r) o p = 0
        omega
      · cases hb'
    · rw [Function.update_of_ne hba] at hb'
      exact absurd hb' (h.not_removing hah hnr b o' q)

theorem remove (h : RegistryInv g) {a : τ} {o p : ℕ} (ha : g.role a = .removing o p) :
    RegistryInv ⟨g.lock, hashTableRemoveItem g.store o, Function.update g.role a .locked⟩ := by
  obtain ⟨he, hzero⟩ := h.removing a o p ha
  obtain ⟨w, hw, huse⟩ := h.removing_useCount ha
  have hspec := hashTableRemoveItem_spec h.wf he hw huse
  have hah : (g.role a).holds = true := by rw [ha]; rfl
  have hregs := registrations_update_same g.role (a := a) (r := .locked) (by rw [ha]; rfl)
  -- a key that is still registered is another key
  have hsub : ∀ o' q, (hashTableRemoveItem g.store o).table.entry o' = some q →
      o' ≠ o ∧ g.store.table.entry o' = some q := by
    intro o' q hq
    rw [hspec.entry] at hq
    by_cases ho : o' = o
    · rw [ho, Function.update_self] at hq
      cases hq
    · rw [Function.update_of_ne ho] at hq
      exact ⟨ho, hq⟩
  refine ⟨hspec.wf, ?_, ?_, ?_, ?_, ?_⟩
  · exact h.lock.update hah rfl
  · intro b o' q hb
    show (hashTableRemoveItem g.store o).table.entry o' = some q
    have hba : b ≠ a := by
      intro hba
      rw [hba] at hb
      have hb' : Role.locked.uses = some (o', q) := by simpa using hb
      cases hb'
    have hb' : (g.role b).uses = some (o', q) := by simpa [hba] using hb
    have he' := h.uses b o' q hb'
    rw [hspec.entry]
    by_cases ho : o' = o
    · subst ho
      obtain rfl : p = q := Option.some.inj (he.symm.trans he')
      rcases Role.registered_or_waking hb' with hreg | hwake
      · exact absurd hreg (registrations_eq_zero.mp hzero b)
      · exact absurd (h.lock.unique b a (by rw [hwake]; rfl) hah) hba
    · rw [Function.update_of_ne ho]
      exact he'
  · intro o' q w' he' hw'
    obtain ⟨ho, hq⟩ := hsub o' q he'
    have hqp : q ≠ p := fun heq => ho (h.wf.inj o' o p (heq ▸ hq) he)
    have hw'' : (hashTableRemoveItem g.store o).heap.cell q = some w' := hw'
    rw [hspec.cell, Function.update_of_ne hqp] at hw''
    rw [hregs]
    exact h.count o' q w' hq hw''
  · intro o' q he'
    obtain ⟨ho, hq⟩ := hsub o' q he'
    rw [hregs]
    rcases h.kept o' q hq with hpos | ⟨b, hb⟩
    · exact .inl hpos
    · have hba : b = a := h.lock.unique b a (by rw [hb]; rfl) hah
      rw [hba, ha] at hb
      cases hb
      exact absurd rfl ho
  · intro b o' q hb
    have hb' : Function.update g.role a .locked b = .removing o' q := hb
    by_cases hba : b = a
    · rw [hba, Function.update_self] at hb'
      cases hb'
    · rw [Function.update_of_ne hba] at hb'
      exact absurd (h.lock.unique b a (by rw [hb']; rfl) hah) hba

/-- **Every step of a thread in its role keeps the registry invariant.** -/
theorem step (h : RegistryInv g) {g' : Registry τ X} (hs : RegistryStep K E g g') :
    RegistryInv g' := by
  cases hs with
  | acquire a hfree => exact h.acquire a hfree
  | release a ha hr => exact h.release ha hr
  | register a o env errno r hlive ha hcall =>
    obtain ⟨r', hr', hcase⟩ := hashTableFindOrCreate_cases K E env errno h.wf.table hlive true
    obtain rfl : r = r' := Option.some.inj (hcall.symm.trans hr')
    exact h.registerStep ha (hcase.register h.wf hlive)
  | lookup a o env errno r hlive ha hcall =>
    obtain ⟨r', hr', hcase⟩ := hashTableFindOrCreate_cases K E env errno h.wf.table hlive false
    obtain rfl : r = r' := Option.some.inj (hcall.symm.trans hr')
    exact h.lookupStep ha (hcase.lookup h.wf)
  | touch a o p f ha hf => exact h.touch ha hf
  | decrement a o p ha => exact h.decrement ha
  | remove a o p ha => exact h.remove ha

end RegistryInv

/-- Nothing is registered and nobody holds the lock. -/
theorem registryInv_zero : RegistryInv (⟨false, .zero, fun _ => .apart⟩ : Registry τ X) := by
  have hentry : (Store.zero : Store X).table.entry = fun _ => none := HashTable.entry_of_none rfl
  refine ⟨storeWf_zero, ⟨by simp [Role.holds], ?_⟩, ?_, ?_, ?_, ?_⟩
  · intro a b ha
    cases ha
  · intro a o p ha
    cases ha
  · intro o p w he
    have he' : (Store.zero : Store X).table.entry o = some p := he
    rw [hentry] at he'
    cases he'
  · intro o p he
    have he' : (Store.zero : Store X).table.entry o = some p := he
    rw [hentry] at he'
    cases he'
  · intro a o p ha
    cases ha

end Steps

end AtomicWaits
