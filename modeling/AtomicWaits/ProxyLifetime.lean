import AtomicWaits.SystemRegistry

/-!
# The lifetime of the proxies

What the registry invariant says about the threads of the system: what `use_count` counts, when a
key is registered, that no thread touches a freed proxy, and who holds the table lock.
-/

namespace AtomicWaits

open Lib

variable {ι κ V X : Type} [Fintype ι] [Fintype κ] {K : ProxyKind X} {cfg : Platform}
  {s : Sys ι κ V X}

/-- The object on which a wait is between its registration and its release. -/
def WaitThread.registeredOn (t : WaitThread V) : Option ℕ := t.role.registered.map Prod.fst

/-- Between `hash_table_lock` and `hash_table_unlock`. -/
def Sys.holdsLock (s : Sys ι κ V X) (a : ι ⊕ κ) : Bool := (s.registry.role a).holds

/-- What the proxies of a system live by. -/
structure ProxyLifetime (s : Sys ι κ V X) : Prop where
  entry_iff : s.shared.lock = false → ∀ object,
    s.shared.store.table.entry object ≠ none ↔ ∃ i, (s.waits i).registeredOn = some object
  useCount : ∀ object p, s.shared.store.table.entry object = some p →
    ∃ w, s.shared.store.heap.cell p = some w ∧
      w.useCount = (Finset.univ.filter fun i => (s.waits i).registeredOn = some object).card
  /-- No access so far was through a null or freed pointer, or removed a proxy in use. -/
  noFault : s.shared.store.heap.fault = none
  parked : ∀ i f, (s.waits i).frame = some f → f.pc = .park →
    ∃ p, f.item = some p ∧ s.shared.store.table.entry f.object = some p ∧
      (s.shared.store.heap.cell p).isSome = true
  removed : ∀ i f, s.waits i = .running f → f.pc = .removeItem →
    ∃ p w, f.item = some p ∧ s.shared.store.table.entry f.object = some p ∧
      s.shared.store.heap.cell p = some w ∧ w.useCount = 0
  lock_iff : s.shared.lock = true ↔ ∃ a, s.holdsLock a = true
  oneHolder : ∀ a b, s.holdsLock a = true → s.holdsLock b = true → a = b
  parkedFree : ∀ i f, (s.waits i).frame = some f → f.pc = .park ∨ f.pc = .returned →
    s.holdsLock (.inl i) = false
  returnedFree : ∀ j, (s.notifies j).pc = .returned → s.holdsLock (.inr j) = false
  noneLeft : (∀ i, (s.waits i).isFree = true) → ∀ object,
    s.shared.store.table.entry object = none

/-- Only waits are counted on a proxy. -/
theorem registrations_eq (h : SysInv s) {object p : ℕ}
    (he : s.shared.store.table.entry object = some p) :
    registrations s.registry.role object p
      = (Finset.univ.filter fun i => (s.waits i).registeredOn = some object).card := by
  have hmap : (Finset.univ.filter fun a => (s.registry.role a).registered = some (object, p))
      = (Finset.univ.filter fun i => (s.waits i).registeredOn = some object).map
          Function.Embedding.inl := by
    ext a
    rw [Finset.mem_map, Finset.mem_filter]
    constructor
    · rintro ⟨-, ha⟩
      cases a with
      | inl i =>
        refine ⟨i, Finset.mem_filter.mpr ⟨Finset.mem_univ i, ?_⟩, rfl⟩
        show (s.waits i).role.registered.map Prod.fst = some object
        rw [show (s.waits i).role.registered = some (object, p) from ha]
        rfl
      | inr j =>
        have hj : (s.notifies j).role.registered = some (object, p) := ha
        have hnone : (s.notifies j).role.registered = none := by
          unfold NotifyFrame.role
          cases (s.notifies j).pc <;> cases (s.notifies j).item <;> rfl
        rw [hnone] at hj
        cases hj
    · rintro ⟨i, hi, rfl⟩
      refine ⟨Finset.mem_univ _, ?_⟩
      obtain ⟨⟨o, q⟩, hq, ho⟩ := Option.map_eq_some_iff.mp (Finset.mem_filter.mp hi).2
      obtain rfl : o = object := ho
      have hentry := h.registry.registered_entry (a := .inl i) hq
      have hpq : q = p := Option.some.inj (hentry.symm.trans he)
      rw [← hpq]
      exact hq
  rw [registrations, hmap, Finset.card_map]

theorem SysInv.lifetime (h : SysInv s) : ProxyLifetime s := by
  have hregistered : ∀ {object p}, s.shared.store.table.entry object = some p →
      registrations s.registry.role object p ≠ 0 →
      ∃ i, (s.waits i).registeredOn = some object := by
    intro object p he hpos
    rw [registrations_eq h he] at hpos
    obtain ⟨i, hi⟩ := Finset.card_pos.mp (Nat.pos_of_ne_zero hpos)
    exact ⟨i, (Finset.mem_filter.mp hi).2⟩
  refine ⟨?_, ?_, h.registry.wf.fault, ?_, ?_, h.registry.lock.lock_iff, h.registry.lock.unique,
    ?_, ?_, ?_⟩
  · intro hfree object
    constructor
    · intro hne
      obtain ⟨p, he⟩ := Option.ne_none_iff_exists'.mp hne
      rcases h.registry.kept object p he with hpos | ⟨a, ha⟩
      · exact hregistered he hpos
      · have := h.registry.lock.lock_iff.mpr ⟨a, by rw [ha]; rfl⟩
        rw [show s.registry.lock = false from hfree] at this
        cases this
    · rintro ⟨i, hi⟩
      obtain ⟨⟨o, p⟩, hp, ho⟩ := Option.map_eq_some_iff.mp hi
      obtain rfl : o = object := ho
      have hentry := h.registry.registered_entry (a := .inl i) hp
      rw [show s.shared.store.table.entry o = some p from hentry]
      simp
  · intro object p he
    obtain ⟨w, hw, hcount⟩ := h.registry.entry_cell he
    exact ⟨w, hw, by rw [hcount, registrations_eq h he]⟩
  · intro i f hi hpc
    have hf := h.frames.of_frame hi
    obtain ⟨p, hp⟩ := hf.item_some (by rw [hpc]; rfl)
    have huses : (s.registry.role (.inl i)).uses = some (f.object, p) := by
      show (s.waits i).role.uses = _
      rw [WaitThread.role, hi]
      show f.role.uses = _
      simp only [WaitFrame.role, hpc]
      exact WaitFrame.outside_uses hp
    have hentry := h.registry.uses _ _ _ huses
    exact ⟨p, hp, hentry, h.registry.wf.alloc _ p hentry⟩
  · intro i f hi hpc
    obtain ⟨p, hp⟩ := (h.frames.running hi).item_some (by rw [hpc]; rfl)
    have hrole : s.registry.role (.inl i) = .removing f.object p := by
      show (s.waits i).role = _
      rw [hi]
      show f.role = _
      simp only [WaitFrame.role, hpc, hp]
      rfl
    obtain ⟨w, hw, huse⟩ := h.registry.removing_useCount hrole
    exact ⟨p, w, hp, (h.registry.removing _ _ _ hrole).1, hw, huse⟩
  · intro i f hi hpc
    show (s.waits i).role.holds = false
    rw [WaitThread.role, hi]
    show f.role.holds = false
    rcases hpc with hpc | hpc
    · simp only [WaitFrame.role, hpc, WaitFrame.outside]
      cases f.item <;> rfl
    · simp only [WaitFrame.role, hpc]
      rfl
  · intro j hpc
    show (s.notifies j).role.holds = false
    simp only [NotifyFrame.role, hpc]
    rfl
  · intro hfree object
    by_contra hne
    obtain ⟨p, he⟩ := Option.ne_none_iff_exists'.mp hne
    rcases h.registry.kept object p he with hpos | ⟨a, ha⟩
    · obtain ⟨i, hi⟩ := hregistered he hpos
      rw [WaitThread.registeredOn, WaitThread.role_of_isFree (hfree i)] at hi
      cases hi
    · cases a with
      | inl i =>
        have ha' : (s.waits i).role = .removing object p := ha
        rw [WaitThread.role_of_isFree (hfree i)] at ha'
        cases ha'
      | inr j =>
        have ha' : (s.notifies j).role = .removing object p := ha
        unfold NotifyFrame.role at ha'
        cases hpc : (s.notifies j).pc <;> rw [hpc] at ha' <;>
          cases hi : (s.notifies j).item <;> rw [hi] at ha' <;> cases ha'

/-- **Proxies live exactly as long as a wait is registered**, whatever the threads do. -/
theorem proxy_lifetime [DecidableEq ι] [DecidableEq κ] [DecidableEq V]
    (h : (waitSystem ι κ V K cfg).Reachable s) : ProxyLifetime s :=
  (sysInv_of_reachable h).lifetime

/-- One wait, parked on its proxy. -/
theorem proxy_lifetime_parked :
    ∃ s : Sys (Fin 1) (Fin 1) ℕ (BitVec 32), (s.waits 0).blockedOn (some 0) = true ∧
      ProxyLifetime s := by
  have hrun : (Lts.exec (sysStep (counterProxy (.lp64 .linux)) (.lp64 .linux))
      (Sys.start fun _ => 0) (callToPark 0 64 0)).any
        (fun s : Sys (Fin 1) (Fin 1) ℕ (BitVec 32) => (s.waits 0).blockedOn (some 0)) = true := by
    decide +kernel
  obtain ⟨s, hs, hpark⟩ := (Option.any_eq_true _ _).mp hrun
  exact ⟨s, hpark, proxy_lifetime (reachable_of_exec hs)⟩

end AtomicWaits
