import AtomicWaits.ProxyLifetime
import AtomicWaits.Lib.HappensBefore

/-!
# No data race

The table, the use counts and the proxies' memory are plain objects of C: two threads may not touch one of them,
one of them not atomically, unless a release and an acquire order the two accesses. `accesses_ordered` is that
order, for every run and any two accesses of different threads: the table lock is handed over between them. In
particular no thread initialises, or frees, a proxy while another one can reach it.
-/

namespace AtomicWaits

open Lib

variable {ι κ V X τ : Type} {K : ProxyKind X} {cfg : Platform} {s t : Sys ι κ V X}

/-- Memory that threads share, the objects apart, which are atomic. -/
inductive Location
  /-- The fields of `shared_global_hash_table` and its buckets. -/
  | table
  /-- The member `use_count` of a proxy. -/
  | useCount (p : ℕ)
  /-- The member `atomic` of a proxy: the counter, or what the proxy mutex protects. -/
  | waitState (p : ℕ)
  deriving DecidableEq, Repr

inductive AccessKind
  | atomic
  | plain
  deriving DecidableEq, Repr

/-- How the next access of a wait touches a location. Creating a proxy writes its members, and so does freeing
it. -/
def WaitFrame.touches (st : Store X) (f : WaitFrame V) : Location → Option AccessKind
  | .table => if f.pc = .findOrCreate ∨ f.pc = .removeItem then some .plain else none
  | .useCount p =>
    match f.pc with
    | .findOrCreate | .removeItem =>
      if (st.table.entry f.object).getD st.heap.next = p then some .plain else none
    | .decUseCount => if f.item = some p then some .plain else none
    | _ => none
  | .waitState p =>
    match f.pc with
    | .findOrCreate => if st.table.entry f.object = none ∧ st.heap.next = p then some .plain else none
    | .removeItem => if st.table.entry f.object = some p then some .plain else none
    | .getCounter | .getCounterAgain | .park => if f.item = some p then some .atomic else none
    | _ => none

/-- How the next access of a notify touches a location. -/
def NotifyFrame.touches (f : NotifyFrame) : Location → Option AccessKind
  | .table => if f.pc = .findOrCreate then some .plain else none
  | .useCount p => if f.pc = .wake ∧ f.item = some p then some .plain else none
  | .waitState p => if (f.pc = .wake ∨ f.pc = .signal) ∧ f.item = some p then some .atomic else none

/-- How the next access of a thread touches a location; one that is suspended in the park call still uses its
proxy. -/
def Sys.touches (s : Sys ι κ V X) (loc : Location) : ι ⊕ κ → Option AccessKind :=
  Sum.elim (fun i => (s.waits i).frame.bind fun f => f.touches s.shared.store loc)
    fun j => (s.notifies j).touches loc

/-! ### Roles -/

section Registry

variable [DecidableEq τ] {E : ErrnoCodes} {g g' : Registry τ X} {b c : τ}

/-- The thread may use the proxy. -/
def Registry.mayUse (g : Registry τ X) (p : ℕ) (b : τ) : Prop := ∃ o, (g.role b).uses = some (o, p)

/-- **Only the holder of the lock gets or gives up the use of a proxy.** -/
theorem RegistryStep.uses_of_not_holds (h : RegistryStep K E g g') (hb : (g.role b).holds = false) :
    (g'.role b).uses = (g.role b).uses := by
  -- the thread that moves is another one, or holds the lock
  have update : ∀ a r, (g.role a).holds = true ∨ r.uses = (g.role a).uses →
      (Function.update g.role a r b).uses = (g.role b).uses := by
    intro a r h
    by_cases hba : b = a
    · subst hba
      rw [Function.update_self]
      cases h with
      | inl h =>
        rw [hb] at h
        cases h
      | inr h => exact h
    · rw [Function.update_of_ne hba]
  cases h with
  | acquire a hfree => exact update a _ (.inr (Role.acquire_uses _))
  | release a hh hne => exact update a _ (.inl hh)
  | register a o env errno r hlive hl hr | lookup a o env errno r hlive hl hr =>
    exact update a _ (.inl (by rw [hl]; rfl))
  | touch => rfl
  | decrement a o p hl | remove a o p hl => exact update a _ (.inl (by rw [hl]; rfl))

/-- A step that releases the lock does not acquire it. -/
theorem RegistryStep.single (h : RegistryStep K E g g') (hb : (g.role b).holds = true)
    (hb' : (g'.role b).holds = false) (hc : (g'.role c).holds = true) : (g.role c).holds = true := by
  have keep : ∀ a r, (g.role a).holds = true → (Function.update g.role a r c).holds = true →
      (g.role c).holds = true := by
    intro a r ha h
    by_cases hca : c = a
    · rw [hca, ha]
    · rwa [Function.update_of_ne hca] at h
  cases h with
  | acquire a hfree =>
    have hkept : (Function.update g.role a (g.role a).acquire b).holds = true := by
      by_cases hba : b = a
      · rw [hba, Function.update_self, Role.acquire_holds]
      · rw [Function.update_of_ne hba, hb]
    exact absurd (hkept.symm.trans hb') (by simp)
  | release a hh hne => exact keep a _ hh hc
  | register a o env errno r hlive hl hr | lookup a o env errno r hlive hl hr =>
    exact keep a _ (by rw [hl]; rfl) hc
  | touch => exact hc
  | decrement a o p hl | remove a o p hl => exact keep a _ (by rw [hl]; rfl) hc

end Registry

/-! ### The lock orders the accesses -/

section Discipline

variable [DecidableEq ι] [DecidableEq κ] [DecidableEq V] [Fintype ι] [Fintype κ]

theorem lockDiscipline : Lts.LockDiscipline (sysStep K cfg)
    (SysInv : Sys ι κ V X → Prop) fun s b => s.holdsLock b = true where
  keep s a s' h hs := h.step (sysStep_cases hs)
  unique s b c h hb hc := h.registry.lock.unique b c hb hc
  single s a s' b c h hs hb hb' hc := by
    have hb'' : (s'.registry.role b).holds = false := by simpa [Sys.holdsLock] using hb'
    obtain hstep | hsame := (sysStep_registry h.frames (sysStep_cases hs)).2
    · exact hstep.single hb hb'' hc
    · have hc' : (s'.registry.role c).holds = true := hc
      rw [hsame] at hc'
      exact hc'

theorem guards_mayUse (p : ℕ) : Lts.LockDiscipline.Guards (sysStep K cfg) (SysInv : Sys ι κ V X → Prop)
    (fun s b => s.holdsLock b = true) fun s b => s.registry.mayUse p b := by
  intro s a s' b h hs hchange
  by_contra hnot
  have hb : (s.registry.role b).holds = false := by simpa [Sys.holdsLock] using hnot
  apply hchange
  have huses : (s'.registry.role b).uses = (s.registry.role b).uses := by
    obtain hstep | hsame := (sysStep_registry h.frames (sysStep_cases hs)).2
    · exact hstep.uses_of_not_holds hb
    · rw [hsame]
  show s.registry.mayUse p b ↔ s'.registry.mayUse p b
  rw [Registry.mayUse, Registry.mayUse, huses]

end Discipline

/-! ### The accesses -/

section Accesses

/-- What a wait touches not atomically it touches with the lock held. -/
theorem WaitFrame.holds_of_plain {st : Store X} {f : WaitFrame V} {loc : Location}
    (h : f.touches st loc = some .plain) : f.role.holds = true := by
  have hpc : f.pc = .findOrCreate ∨ f.pc = .decUseCount ∨ f.pc = .removeItem := by
    cases loc with
    | table =>
      simp only [touches, Option.ite_none_right_eq_some] at h
      rcases h.1 with hpc | hpc
      · exact .inl hpc
      · exact .inr (.inr hpc)
    | useCount p =>
      cases hpc : f.pc with
      | findOrCreate | decUseCount | removeItem => simp
      | _ => simp [touches, hpc] at h
    | waitState p =>
      cases hpc : f.pc with
      | findOrCreate | decUseCount | removeItem => simp
      | _ => simp [touches, hpc] at h
  rcases hpc with hpc | hpc | hpc
  · simp only [role, hpc, inside_holds]
  · simp only [role, hpc, inside_holds]
  · simp only [role, hpc]
    cases f.item <;> rfl

theorem NotifyFrame.holds_of_plain {f : NotifyFrame} {loc : Location} (h : f.touches loc = some .plain) :
    f.role.holds = true := by
  have hpc : f.pc = .findOrCreate ∨ f.pc = .wake := by
    cases loc with
    | table =>
      simp only [touches, Option.ite_none_right_eq_some] at h
      exact .inl h.1
    | useCount p =>
      simp only [touches, Option.ite_none_right_eq_some] at h
      exact .inr h.1.1
    | waitState p => simp [touches] at h
  rcases hpc with hpc | hpc
  · simp only [role, hpc]
    rfl
  · simp only [role, hpc]
    cases f.item <;> rfl

theorem Sys.holds_of_plain {loc : Location} {b : ι ⊕ κ} (h : s.touches loc b = some .plain) :
    s.holdsLock b = true := by
  cases b with
  | inl i =>
    obtain ⟨f, hf, hplain⟩ := Option.bind_eq_some_iff.mp h
    show (s.waits i).role.holds = true
    rw [WaitThread.role, hf]
    exact WaitFrame.holds_of_plain hplain
  | inr j => exact NotifyFrame.holds_of_plain h

/-- What a thread touches atomically is the state of a proxy it may use. -/
theorem Sys.mayUse_of_atomic {loc : Location} {b : ι ⊕ κ} (h : s.touches loc b = some .atomic) :
    ∃ p, loc = .waitState p ∧ s.registry.mayUse p b := by
  cases b with
  | inl i =>
    obtain ⟨f, hf, hatomic⟩ := Option.bind_eq_some_iff.mp h
    have hitem : ∃ p, loc = .waitState p ∧ f.item = some p ∧ f.pc.touchesItem = true := by
      cases loc with
      | table => simp [WaitFrame.touches] at hatomic
      | useCount p => cases hpc : f.pc <;> simp [WaitFrame.touches, hpc] at hatomic
      | waitState p =>
        refine ⟨p, rfl, ?_⟩
        cases hpc : f.pc with
        | getCounter | getCounterAgain | park =>
          simp only [WaitFrame.touches, hpc, Option.ite_none_right_eq_some] at hatomic
          exact ⟨hatomic.1, rfl⟩
        | _ => simp [WaitFrame.touches, hpc] at hatomic
    obtain ⟨p, rfl, hp, hpc⟩ := hitem
    refine ⟨p, rfl, f.object, ?_⟩
    show (s.waits i).role.uses = _
    rw [WaitThread.role, hf]
    exact WaitFrame.uses_of_item hp hpc
  | inr j =>
    cases loc with
    | table => simp [Sys.touches, NotifyFrame.touches] at h
    | useCount p => simp [Sys.touches, NotifyFrame.touches] at h
    | waitState p =>
      have hif : (if ((s.notifies j).pc = .wake ∨ (s.notifies j).pc = .signal) ∧ (s.notifies j).item = some p
          then some AccessKind.atomic else none) = some .atomic := h
      obtain ⟨⟨hpc, hp⟩, -⟩ := Option.ite_none_right_eq_some.mp hif
      refine ⟨p, rfl, (s.notifies j).object, ?_⟩
      show (s.notifies j).role.uses = _
      rcases hpc with hpc | hpc
      · simp only [NotifyFrame.role, hpc, hp]
        rfl
      · simp only [NotifyFrame.role, hpc, hp]
        rfl

/-- **Who initialises or frees a proxy is alone with it.** -/
theorem SysInv.alone_of_plain [Fintype ι] [Fintype κ] (h : SysInv s) {p : ℕ} {b c : ι ⊕ κ}
    (hb : s.touches (.waitState p) b = some .plain) (hbc : b ≠ c) : ¬ s.registry.mayUse p c := by
  intro hc
  obtain ⟨o, huses⟩ := hc
  have hentry := h.registry.uses c o p huses
  cases b with
  | inr j =>
    have hif : (if ((s.notifies j).pc = .wake ∨ (s.notifies j).pc = .signal) ∧ (s.notifies j).item = some p
        then some AccessKind.atomic else none) = some .plain := hb
    simp at hif
  | inl i =>
    obtain ⟨f, hf, hplain⟩ := Option.bind_eq_some_iff.mp hb
    cases hpc : f.pc with
    | findOrCreate =>
      simp only [WaitFrame.touches, hpc, Option.ite_none_right_eq_some] at hplain
      -- the address of a new proxy is no entry
      have hsome := h.registry.wf.alloc o p hentry
      have hfresh : s.registry.store.heap.cell p = none := h.registry.wf.fresh p hplain.1.2.le
      rw [hfresh] at hsome
      cases hsome
    | removeItem =>
      simp only [WaitFrame.touches, hpc, Option.ite_none_right_eq_some] at hplain
      obtain ⟨q, hq⟩ := (h.frames.of_frame hf).item_some (by rw [hpc]; rfl)
      have hrole : s.registry.role (.inl i) = .removing f.object q := by
        show (s.waits i).role = _
        rw [WaitThread.role, hf]
        show f.role = _
        simp only [WaitFrame.role, hpc, hq]
        rfl
      obtain ⟨hremoved, hzero⟩ := h.registry.removing _ _ _ hrole
      have hqp : q = p := Option.some.inj (hremoved.symm.trans hplain.1)
      obtain rfl : o = f.object := h.registry.wf.inj o f.object p hentry hplain.1
      rcases Role.registered_or_waking huses with hregistered | hwaking
      · have hpos := registrations_pos hregistered
        rw [← hqp, hzero] at hpos
        cases hpos
      · exact hbc (h.registry.lock.unique (.inl i) c (by rw [hrole]; rfl) (by rw [hwaking]; rfl))
    | _ => simp [WaitFrame.touches, hpc] at hplain

variable [DecidableEq ι] [DecidableEq κ] [DecidableEq V] [Fintype ι] [Fintype κ]

/-- **The table lock orders all accesses that are not both atomic.** When a thread is about to touch a location
in a reachable state, and another one in a state some run leads to from there, then in between the first thread
releases the table lock and after that the second one acquires it. With the empty run: no two threads are ever
about to make such accesses at once. -/
theorem accesses_ordered (h : (waitSystem ι κ V K cfg).Reachable s) {as : List (Action ι κ V)}
    (hrun : Lts.exec (sysStep K cfg) s as = some t) {b c : ι ⊕ κ} (hbc : b ≠ c) {loc : Location}
    {k k' : AccessKind} (hb : s.touches loc b = some k) (hc : t.touches loc c = some k')
    (hplain : k = .plain ∨ k' = .plain) :
    Lts.Handover (sysStep K cfg) (fun u a => u.holdsLock a = true) b c s as := by
  have hinv := sysInv_of_reachable h
  have hinv' := lockDiscipline.exec hinv hrun
  cases k with
  | plain =>
    have hholds := Sys.holds_of_plain hb
    cases k' with
    | plain => exact lockDiscipline.handover hinv hholds hbc hrun (Sys.holds_of_plain hc)
    | atomic =>
      obtain ⟨p, rfl, hmay⟩ := Sys.mayUse_of_atomic hc
      exact lockDiscipline.handover_of_gain (guards_mayUse p) hinv hholds hbc (hinv.alone_of_plain hb hbc) hrun
        hmay
  | atomic =>
    have hk' : k' = .plain := by simpa using hplain
    rw [hk'] at hc
    obtain ⟨p, rfl, hmay⟩ := Sys.mayUse_of_atomic hb
    exact lockDiscipline.handover_of_loss (guards_mayUse p) hinv hmay hbc hrun
      (hinv'.alone_of_plain hc hbc.symm) (Sys.holds_of_plain hc)

end Accesses

/-- The steps from the registration of one wait to the look-up of a notify. -/
def registerThenFind (i : ι) (j : κ) : List (Action ι κ ℕ) :=
  List.replicate 4 (.wait i .quiet) ++ [.callNotify j 64 wakeAll 0, .notify j .plenty ∅]

/-- Both touch the table. -/
theorem accesses_ordered_find :
    ∃ s t : Sys (Fin 1) (Fin 1) ℕ (BitVec 32), s.touches .table (.inl 0) = some .plain ∧
      t.touches .table (.inr 0) = some .plain ∧
      Lts.Handover (sysStep (counterProxy (.lp64 .linux)) (.lp64 .linux))
        (fun u a => u.holdsLock a = true) (.inl 0) (.inr 0) s (registerThenFind 0 0) := by
  have hrun : (Lts.exec (sysStep (counterProxy (.lp64 .linux)) (.lp64 .linux)) (Sys.start fun _ => 0)
      ((callToPark 0 64 0).take 3)).any (fun s : Sys (Fin 1) (Fin 1) ℕ (BitVec 32) =>
        s.touches .table (.inl 0) = some .plain &&
        (Lts.exec (sysStep (counterProxy (.lp64 .linux)) (.lp64 .linux)) s (registerThenFind 0 0)).any
          fun t => t.touches .table (.inr 0) = some .plain) = true := by
    decide +kernel
  obtain ⟨s, hs, hand⟩ := (Option.any_eq_true _ _).mp hrun
  obtain ⟨hfirst, hlater⟩ := Bool.and_eq_true_iff.mp hand
  obtain ⟨t, ht, hsecond⟩ := (Option.any_eq_true _ _).mp hlater
  have hb := of_decide_eq_true hfirst
  have hc := of_decide_eq_true hsecond
  exact ⟨s, t, hb, hc, accesses_ordered (reachable_of_exec hs) ht (by decide) hb hc (.inl rfl)⟩

end AtomicWaits
