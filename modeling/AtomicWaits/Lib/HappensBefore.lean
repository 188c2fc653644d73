import AtomicWaits.Lib.Lts

/-!
# Accesses ordered by a lock

Two accesses of different threads are ordered when between them the first thread releases a lock and the second
one acquires it (`Lts.Handover`). `LockDiscipline` says that the lock has one holder at a time and changes hands
only through its release. Then everything a thread does with the lock comes before everything another one does
with it later (`LockDiscipline.handover`), and so does what a thread does with a permission that only a holder
of the lock gets (`handover_of_gain`) or gives up (`handover_of_loss`).
-/

namespace AtomicWaits.Lib.Lts

variable {S A τ : Type*} {step : S → A → Option S}

/-! ### Points of a run -/

variable (step) in
/-- Some step of the run satisfies `E`, and what follows it satisfies `rest`. -/
def Occurs (E : S → A → S → Prop) (rest : S → List A → Prop) : S → List A → Prop
  | _, [] => False
  | s, a :: as => ∃ s', step s a = some s' ∧ (E s a s' ∧ rest s' as ∨ Occurs E rest s' as)

section Occurs

variable {E : S → A → S → Prop} {rest : S → List A → Prop} {s t : S} {as : List A}

/-- What occurs in the end of a run occurs in the run. -/
theorem Occurs.of_suffix {bs : List A} (hrun : exec step s as = some t) (h : Occurs step E rest t bs) :
    Occurs step E rest s (as ++ bs) := by
  induction as generalizing s with
  | nil =>
    obtain rfl : s = t := Option.some.inj hrun
    exact h
  | cons a as ih =>
    obtain ⟨u, hu, hrest⟩ := Option.bind_eq_some_iff.mp hrun
    exact ⟨u, hu, .inr (ih hrest)⟩

/-- What occurs in the beginning of a run occurs in the run. -/
theorem Occurs.append {bs : List A} (hrest : ∀ s as, rest s as → rest s (as ++ bs))
    (h : Occurs step E rest s as) : Occurs step E rest s (as ++ bs) := by
  induction as generalizing s with
  | nil => exact h.elim
  | cons a as ih =>
    obtain ⟨u, hu, hnow | hlater⟩ := h
    · exact ⟨u, hu, .inl ⟨hnow.1, hrest u as hnow.2⟩⟩
    · exact ⟨u, hu, .inr (ih hlater)⟩

/-- A step on which a property is lost. -/
theorem exists_change {P : S → Prop} (hs : P s) (ht : ¬ P t) (hrun : exec step s as = some t) :
    ∃ l a l' u u', as = l ++ a :: l' ∧ exec step s l = some u ∧ step u a = some u' ∧ P u ∧ ¬ P u' ∧
      exec step u' l' = some t := by
  induction as generalizing s with
  | nil =>
    obtain rfl : s = t := Option.some.inj hrun
    exact absurd hs ht
  | cons a as ih =>
    obtain ⟨u, hu, hrest⟩ := Option.bind_eq_some_iff.mp hrun
    by_cases hPu : P u
    · obtain ⟨l, b, l', v, v', heq, hl, hb, hv, hv', htail⟩ := ih hPu hrest
      refine ⟨a :: l, b, l', v, v', by rw [heq, List.cons_append], ?_, hb, hv, hv', htail⟩
      simp only [exec, hu, Option.bind_some, hl]
    · exact ⟨[], a, as, s, u, rfl, rfl, hu, hs, hPu, hrest⟩

/-- A property that is lost in a run is lost on one of its steps. -/
theorem occurs_of_change {P : S → Prop} (hs : P s) (ht : ¬ P t) (hrun : exec step s as = some t)
    (hE : ∀ u a u', P u → ¬ P u' → step u a = some u' → E u a u')
    (hrest : ∀ u l, exec step u l = some t → rest u l) : Occurs step E rest s as := by
  obtain ⟨l, a, l', u, u', rfl, hl, ha, hu, hu', htail⟩ := exists_change hs ht hrun
  exact .of_suffix hl ⟨u', ha, .inl ⟨hE u a u' hu hu' ha, hrest u' l' htail⟩⟩

end Occurs

/-! ### Handing over a lock -/

section Lock

variable {holds : S → τ → Prop} {b c : τ} {s t : S} {as bs : List A}

def Releases (holds : S → τ → Prop) (b : τ) (s : S) (_ : A) (s' : S) : Prop := holds s b ∧ ¬ holds s' b

def Acquires (holds : S → τ → Prop) (c : τ) (s : S) (_ : A) (s' : S) : Prop := ¬ holds s c ∧ holds s' c

variable (step holds b c) in
/-- In the run the thread `b` releases the lock, and after that `c` acquires it. -/
def Handover : S → List A → Prop :=
  Occurs step (Releases holds b) (Occurs step (Acquires holds c) fun _ _ => True)

theorem not_handover_nil : ¬ Handover step holds b c s [] := fun h => h

theorem Handover.append (h : Handover step holds b c s as) : Handover step holds b c s (as ++ bs) :=
  Occurs.append (fun _ _ hacquired => hacquired.append fun _ _ _ => trivial) h

theorem Handover.of_suffix (hrun : exec step s as = some t) (h : Handover step holds b c t bs) :
    Handover step holds b c s (as ++ bs) :=
  Occurs.of_suffix hrun h

variable (step) in
/-- In states with `I` the lock has one holder, and a step that releases it does not acquire it. -/
structure LockDiscipline (I : S → Prop) (holds : S → τ → Prop) : Prop where
  keep : ∀ s a s', I s → step s a = some s' → I s'
  unique : ∀ s b c, I s → holds s b → holds s c → b = c
  single : ∀ s a s' b c, I s → step s a = some s' → holds s b → ¬ holds s' b → holds s' c → holds s c

namespace LockDiscipline

variable {I : S → Prop} {may : S → τ → Prop}

theorem exec (h : LockDiscipline step I holds) (hs : I s) (hrun : Lts.exec step s as = some t) : I t :=
  exec_invariant step (I := fun _ u => I u) hs (fun _ u a u' hu ha => h.keep u a u' hu ha) hrun

/-- **Who holds the lock later has got it from who holds it now.** -/
theorem handover (h : LockDiscipline step I holds) (hs : I s) (hb : holds s b) (hbc : b ≠ c)
    (hrun : Lts.exec step s as = some t) (hc : holds t c) : Handover step holds b c s as := by
  have hlost : ¬ holds t b := fun hbt => hbc (h.unique t b c (h.exec hs hrun) hbt hc)
  obtain ⟨l, a, l', u, u', rfl, hl, ha, hu, hu', htail⟩ := exists_change (P := (holds · b)) hb hlost hrun
  have hIu := h.exec hs hl
  have hfree : ¬ holds u' c := fun hcu' =>
    hbc (h.unique u b c hIu hu (h.single u a u' b c hIu ha hu hu' hcu'))
  refine .of_suffix hl ⟨u', ha, .inl ⟨⟨hu, hu'⟩, ?_⟩⟩
  exact occurs_of_change (P := (¬ holds · c)) hfree (fun hn => hn hc) htail
    (fun v _ v' hv hv' _ => ⟨hv, not_not.mp hv'⟩) fun _ _ _ => trivial

/-- A permission that is got or given up only by a holder of the lock. -/
def Guards (step : S → A → Option S) (I : S → Prop) (holds may : S → τ → Prop) : Prop :=
  ∀ s a s' b, I s → step s a = some s' → ¬ (may s b ↔ may s' b) → holds s b

/-- **Who may later what he may not now has got the lock from who holds it now.** -/
theorem handover_of_gain (h : LockDiscipline step I holds) (hmay : Guards step I holds may) (hs : I s)
    (hb : holds s b) (hbc : b ≠ c) (hnot : ¬ may s c) (hrun : Lts.exec step s as = some t)
    (hc : may t c) : Handover step holds b c s as := by
  obtain ⟨l, a, l', u, u', rfl, hl, ha, hu, hu', -⟩ :=
    exists_change (P := (¬ may · c)) hnot (fun hn => hn hc) hrun
  have hholds : holds u c := hmay u a u' c (h.exec hs hl) ha fun hiff => hu' fun hm => hu (hiff.mpr hm)
  exact (h.handover hs hb hbc hl hholds).append

/-- **Who may no longer what he may now has given the lock to who holds it later.** -/
theorem handover_of_loss (h : LockDiscipline step I holds) (hmay : Guards step I holds may) (hs : I s)
    (hb : may s b) (hbc : b ≠ c) (hrun : Lts.exec step s as = some t) (hlost : ¬ may t b)
    (hc : holds t c) : Handover step holds b c s as := by
  obtain ⟨l, a, l', u, u', rfl, hl, ha, hu, hu', htail⟩ := exists_change (P := (may · b)) hb hlost hrun
  have hIu := h.exec hs hl
  have hholds : holds u b := hmay u a u' b hIu ha fun hiff => hu' (hiff.mp hu)
  refine .of_suffix hl (h.handover hIu hholds hbc ?_ hc)
  simp only [Lts.exec, ha, Option.bind_some, htail]

end LockDiscipline

end Lock

end AtomicWaits.Lib.Lts
