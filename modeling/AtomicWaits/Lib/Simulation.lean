import AtomicWaits.Lib.Lts

/-!
# Simulations

Two ways to say that one system does what another one does.

* Between step functions, along `Lts.trace`: a concrete action stands for a list of abstract ones, which
  may be empty. `exec_forward` carries a concrete run to an abstract one with that trace, and
  `exec_backward` finds a concrete run with a given trace.
* Between transition systems, as a relation: `Lts.Forward`. A concrete step is matched by any number of
  abstract ones, so what holds of the reachable abstract states holds of the concrete ones
  (`Forward.invariant`).
-/

namespace AtomicWaits.Lib.Lts

/-! ### Step functions -/

section Exec

variable {S A T B : Type*} (step : S → A → Option S) (view : S → A → List B)

/-- The abstract actions of a run, where the action `a` in the state `s` stands for `view s a`. -/
def trace : S → List A → List B
  | _, [] => []
  | s, a :: as => view s a ++ ((step s a).map fun s' => trace s' as).getD []

@[simp] theorem trace_nil (s : S) : trace step view s [] = [] := rfl

variable {step}

theorem trace_cons {s s' : S} {a : A} (h : step s a = some s') (as : List A) :
    trace step view s (a :: as) = view s a ++ trace step view s' as := by
  simp only [trace, h, Option.map_some, Option.getD_some]

theorem trace_append {s s' : S} {as : List A} (h : exec step s as = some s') (bs : List A) :
    trace step view s (as ++ bs) = trace step view s as ++ trace step view s' bs := by
  induction as generalizing s with
  | nil =>
    obtain rfl : s = s' := Option.some.inj h
    rfl
  | cons a as ih =>
    obtain ⟨t, ht, hrest⟩ := Option.bind_eq_some_iff.mp h
    rw [List.cons_append, trace_cons view ht, trace_cons view ht, ih hrest, List.append_assoc]

theorem exec_of_append {s t u : S} {as bs : List A} (h₁ : exec step s as = some t)
    (h₂ : exec step t bs = some u) : exec step s (as ++ bs) = some u := by
  rw [exec_append, h₁]
  exact h₂

variable {view} {step' : T → B → Option T} {R : S → T → Prop}

/-- **A forward simulation carries a run to the run of its trace.** Only the actions that meet `ok` need
to be matched. -/
theorem exec_forward (ok : A → Prop)
    (hstep : ∀ s t a s', ok a → R s t → step s a = some s' →
      ∃ t', exec step' t (view s a) = some t' ∧ R s' t')
    {s s' : S} {t : T} {as : List A} (hok : ∀ a ∈ as, ok a) (hR : R s t)
    (hrun : exec step s as = some s') :
    ∃ t', exec step' t (trace step view s as) = some t' ∧ R s' t' := by
  induction as generalizing s t with
  | nil =>
    obtain rfl : s = s' := Option.some.inj hrun
    exact ⟨t, rfl, hR⟩
  | cons a as ih =>
    obtain ⟨s₁, hs₁, hrest⟩ := Option.bind_eq_some_iff.mp hrun
    obtain ⟨t₁, ht₁, hR₁⟩ := hstep s t a s₁ (hok a (by simp)) hR hs₁
    obtain ⟨t', ht', hR'⟩ := ih (fun b hb => hok b (List.mem_cons_of_mem _ hb)) hR₁ hrest
    refine ⟨t', ?_, hR'⟩
    rw [trace_cons view hs₁]
    exact exec_of_append ht₁ ht'

/-- **A backward simulation finds a run for a trace**, all of whose actions meet `ok`. -/
theorem exec_backward (ok : A → Prop)
    (hstep : ∀ s t b t', R s t → step' t b = some t' →
      ∃ as s', (∀ a ∈ as, ok a) ∧ exec step s as = some s' ∧ trace step view s as = [b] ∧ R s' t')
    {s : S} {t t' : T} {bs : List B} (hR : R s t) (hrun : exec step' t bs = some t') :
    ∃ as s', (∀ a ∈ as, ok a) ∧ exec step s as = some s' ∧ trace step view s as = bs ∧ R s' t' := by
  induction bs generalizing s t with
  | nil =>
    obtain rfl : t = t' := Option.some.inj hrun
    exact ⟨[], s, nofun, rfl, rfl, hR⟩
  | cons b bs ih =>
    obtain ⟨t₁, ht₁, hrest⟩ := Option.bind_eq_some_iff.mp hrun
    obtain ⟨as₁, s₁, hok₁, hexec₁, htrace₁, hR₁⟩ := hstep s t b t₁ hR ht₁
    obtain ⟨as₂, s₂, hok₂, hexec₂, htrace₂, hR₂⟩ := ih hR₁ hrest
    refine ⟨as₁ ++ as₂, s₂, ?_, exec_of_append hexec₁ hexec₂, ?_, hR₂⟩
    · intro a ha
      rcases List.mem_append.mp ha with ha | ha
      · exact hok₁ a ha
      · exact hok₂ a ha
    · rw [trace_append view hexec₁, htrace₁, htrace₂]
      rfl

end Exec

/-! ### Transition systems -/

section Forward

variable {S A T B : Type*} {L : Lts S A} {M : Lts T B} {R : S → T → Prop}

variable (L M R) in
/-- `M` can follow every run of `L` with its states related by `R`. -/
structure Forward : Prop where
  init : ∀ s, L.init s → ∃ t, M.init t ∧ R s t
  step : ∀ s t a s', L.Reachable s → M.Reachable t → R s t → L.step s a s' →
    ∃ t', M.Steps t t' ∧ R s' t'

namespace Forward

/-- Every reachable concrete state is related to a reachable abstract one. -/
theorem reachable (h : Forward L M R) {s : S} (hs : L.Reachable s) :
    ∃ t, M.Reachable t ∧ R s t := by
  refine hs.invariant (I := fun s => ∃ t, M.Reachable t ∧ R s t) ?_ ?_
  · intro s hi
    obtain ⟨t, ht, hR⟩ := h.init s hi
    exact ⟨t, .of_init ht, hR⟩
  · intro s a s' hrs hI hstep
    obtain ⟨t, ht, hR⟩ := hI
    obtain ⟨t', hsteps, hR'⟩ := h.step s t a s' hrs ht hR hstep
    exact ⟨t', ht.steps hsteps, hR'⟩

/-- **What holds of the abstract states holds of the concrete ones related to them.** -/
theorem invariant (h : Forward L M R) {I : T → Prop} (hI : ∀ t, M.Reachable t → I t) {s : S}
    (hs : L.Reachable s) : ∃ t, R s t ∧ I t := by
  obtain ⟨t, ht, hR⟩ := h.reachable hs
  exact ⟨t, hR, hI t ht⟩

end Forward

end Forward

end AtomicWaits.Lib.Lts
