import Mathlib.Logic.Relation
import Mathlib.Data.Fintype.Card
import Mathlib.Data.Finset.Card

/-!
# Labelled transition systems

The runs of a system whose step is a partial function of the state and an action. Besides
reachability this file has three ways to talk about a part of a run:

* `Lts.restrict C`: the runs whose every step meets the condition `C` on the state before it;
* `Lts.withHistory`: the same system with a history variable, which observes and never blocks;
* `Lts.StepsWhile φ`: a run segment all of whose states satisfy `φ`.

Each has one induction rule (`Reachable.invariant`, `StepsWhile.invariant`) and safety results
are stated through these rules.
-/

namespace AtomicWaits.Lib

/-- A transition system: the initial states, and what action `a` does in state `s`. -/
structure Lts (S A : Type*) where
  init : S → Prop
  step : S → A → S → Prop

namespace Lts

variable {S A G : Type*} (L : Lts S A)

/-- The system of a partial step function. -/
def ofFun (init : S → Prop) (step : S → A → Option S) : Lts S A where
  init := init
  step s a s' := step s a = some s'

/-- One step by some action. -/
def Next (s s' : S) : Prop := ∃ a, L.step s a s'

/-- Finitely many steps. -/
def Steps : S → S → Prop := Relation.ReflTransGen L.Next

/-- A state some run from an initial state ends in. -/
def Reachable (s : S) : Prop := ∃ s₀, L.init s₀ ∧ L.Steps s₀ s

/-- A run all of whose states, its first and last included, satisfy `φ`. -/
def StepsWhile (φ : S → Prop) (s s' : S) : Prop :=
  φ s ∧ Relation.ReflTransGen (fun u v => L.Next u v ∧ φ v) s s'

/-- Only the steps that meet `C` in the state before them. -/
def restrict (C : S → A → Prop) : Lts S A where
  init := L.init
  step s a s' := L.step s a s' ∧ C s a

/-- The system with a history variable of type `G` beside its state. -/
def withHistory (g₀ : G) (upd : S → A → S → G → G) : Lts (S × G) A where
  init x := L.init x.1 ∧ x.2 = g₀
  step x a y := L.step x.1 a y.1 ∧ y.2 = upd x.1 a y.1 x.2

variable {L}

theorem Reachable.of_init {s : S} (h : L.init s) : L.Reachable s := ⟨s, h, .refl⟩

theorem Reachable.tail {s s' : S} {a : A} (h : L.Reachable s) (hs : L.step s a s') :
    L.Reachable s' := by
  obtain ⟨s₀, h₀, hr⟩ := h
  exact ⟨s₀, h₀, hr.tail ⟨a, hs⟩⟩

theorem Reachable.steps {s s' : S} (h : L.Reachable s) (hs : L.Steps s s') :
    L.Reachable s' := by
  obtain ⟨s₀, h₀, hr⟩ := h
  exact ⟨s₀, h₀, hr.trans hs⟩

/-- **The invariant rule.** What holds initially and is kept by each step from a reachable
state holds in every reachable state. -/
theorem Reachable.invariant {I : S → Prop} (h₀ : ∀ s, L.init s → I s)
    (hstep : ∀ s a s', L.Reachable s → I s → L.step s a s' → I s') {s : S}
    (h : L.Reachable s) : I s := by
  obtain ⟨s₀, hi, hr⟩ := h
  induction hr with
  | refl => exact h₀ _ hi
  | tail hpre hlast ih =>
    obtain ⟨a, ha⟩ := hlast
    exact hstep _ a _ ⟨s₀, hi, hpre⟩ ih ha

theorem StepsWhile.steps {φ : S → Prop} {s s' : S} (h : L.StepsWhile φ s s') : L.Steps s s' :=
  h.2.lift id fun _ _ hn => hn.1

theorem StepsWhile.refl {φ : S → Prop} {s : S} (h : φ s) : L.StepsWhile φ s s := ⟨h, .refl⟩

theorem StepsWhile.last {φ : S → Prop} {s s' : S} (h : L.StepsWhile φ s s') : φ s' := by
  obtain ⟨h₀, hr⟩ := h
  cases hr with
  | refl => exact h₀
  | tail _ hn => exact hn.2

theorem StepsWhile.tail {φ : S → Prop} {s s' s'' : S} {a : A} (h : L.StepsWhile φ s s')
    (hs : L.step s' a s'') (hφ : φ s'') : L.StepsWhile φ s s'' :=
  ⟨h.1, h.2.tail ⟨⟨a, hs⟩, hφ⟩⟩

theorem StepsWhile.imp {φ ψ : S → Prop} (hφψ : ∀ s, φ s → ψ s) {s s' : S}
    (h : L.StepsWhile φ s s') : L.StepsWhile ψ s s' :=
  ⟨hφψ s h.1, h.2.lift id fun _ _ hn => ⟨hn.1, hφψ _ hn.2⟩⟩

theorem StepsWhile.trans {φ : S → Prop} {s t u : S} (h₁ : L.StepsWhile φ s t)
    (h₂ : L.StepsWhile φ t u) : L.StepsWhile φ s u :=
  ⟨h₁.1, h₁.2.trans h₂.2⟩

/-- **The invariant rule inside a segment.** From a reachable state with `I`, a segment whose
states satisfy `φ` ends with `I` when each of its steps keeps `I`. -/
theorem StepsWhile.invariant {φ I : S → Prop} {s s' : S} (h : L.StepsWhile φ s s')
    (hr : L.Reachable s) (h₀ : I s)
    (hstep : ∀ u a v, L.Reachable u → φ u → φ v → I u → L.step u a v → I v) : I s' := by
  have key : ∀ v, Relation.ReflTransGen (fun u v => L.Next u v ∧ φ v) s v →
      L.Reachable v ∧ φ v ∧ I v := by
    intro v hv
    induction hv with
    | refl => exact ⟨hr, h.1, h₀⟩
    | tail _ hlast ih =>
      obtain ⟨hru, hφu, hIu⟩ := ih
      obtain ⟨⟨a, ha⟩, hφv⟩ := hlast
      exact ⟨hru.tail ha, hφv, hstep _ a _ hru hφu hφv hIu ha⟩
  exact (key s' h.2).2.2

/-! ### Requests -/

variable (L) in
/-- A request that begins and finishes while `φ` holds excludes `bad` as long as `φ` goes on
holding. -/
def Settles (φ begun finished bad : S → Prop) : Prop :=
  ∀ s₁ s₂ s₃, L.Reachable s₁ → begun s₁ → L.StepsWhile φ s₁ s₂ → finished s₂ →
    L.StepsWhile φ s₂ s₃ → ¬ bad s₃

/-- **The rule of the two phases.** `asked` holds from the begin of the request until it takes
effect, which is before it finishes, and `served` from there on. -/
theorem settles_of_phases {φ begun finished bad : S → Prop} (asked served : S → Prop)
    (hbegun : ∀ s, begun s → asked s)
    (hasked : ∀ s a s', L.Reachable s → φ s → φ s' → L.step s a s' → asked s →
      asked s' ∨ served s')
    (hserved : ∀ s a s', L.Reachable s → φ s → φ s' → L.step s a s' → served s → served s')
    (hunfinished : ∀ s, asked s → ¬ finished s)
    (hgood : ∀ s, L.Reachable s → served s → ¬ bad s) : L.Settles φ begun finished bad := by
  intro s₁ s₂ s₃ hr hbegin h₁₂ hfin h₂₃
  have hserved₂ : served s₂ := by
    have hphase : asked s₂ ∨ served s₂ := by
      refine h₁₂.invariant (I := fun s => asked s ∨ served s) hr (.inl (hbegun s₁ hbegin)) ?_
      intro s a s' hrs hφ hφ' hI hstep
      cases hI with
      | inl hI => exact hasked s a s' hrs hφ hφ' hstep hI
      | inr hI => exact .inr (hserved s a s' hrs hφ hφ' hstep hI)
    cases hphase with
    | inl h => exact absurd hfin (hunfinished s₂ h)
    | inr h => exact h
  have hr₂ := hr.steps h₁₂.steps
  have hserved₃ : served s₃ := by
    apply h₂₃.invariant (I := served) hr₂ hserved₂
    intro s a s' hrs hφ hφ' hI hstep
    exact hserved s a s' hrs hφ hφ' hstep hI
  exact hgood s₃ (hr₂.steps h₂₃.steps) hserved₃

/-! ### Restriction and history forget to the plain system -/

theorem Reachable.of_restrict {C : S → A → Prop} {s : S} (h : (L.restrict C).Reachable s) :
    L.Reachable s :=
  h.invariant (L := L.restrict C) (fun _ hi => Reachable.of_init (L := L) hi)
    (fun _ _ _ _ hr hs => hr.tail hs.1)

/-- **The frame rule for runs.** What each step that meets `C` relates, in a reflexive and transitive
relation, a whole run of such steps relates. -/
theorem Reachable.frame {C : S → A → Prop} {R : S → S → Prop} (hrefl : ∀ s, R s s)
    (htrans : ∀ s t u, R s t → R t u → R s u)
    (hstep : ∀ s a s', L.Reachable s → C s a → L.step s a s' → R s s') {s s' : S} (h : L.Reachable s)
    (hrun : (L.restrict C).Steps s s') : R s s' := by
  have key : L.Reachable s' ∧ R s s' := by
    induction hrun with
    | refl => exact ⟨h, hrefl s⟩
    | tail _ hlast ih =>
      obtain ⟨a, ha, hC⟩ := hlast
      exact ⟨ih.1.tail ha, htrans _ _ _ ih.2 (hstep _ a _ ih.1 hC ha)⟩
  exact key.2

/-- A condition that always holds restricts nothing. -/
theorem restrict_of_forall {C : S → A → Prop} (h : ∀ s a, C s a) : L.restrict C = L := by
  cases L with
  | mk init step =>
    simp only [restrict, mk.injEq, true_and]
    funext s a s'
    simp [h s a]

theorem Reachable.of_withHistory {g₀ : G} {upd : S → A → S → G → G} {x : S × G}
    (h : (L.withHistory g₀ upd).Reachable x) : L.Reachable x.1 :=
  h.invariant (L := L.withHistory g₀ upd) (I := fun x => L.Reachable x.1)
    (fun _ hi => Reachable.of_init (L := L) hi.1) (fun _ _ _ _ hr hs => hr.tail hs.1)

/-- Every run can be told with its history. -/
theorem Reachable.exists_history (g₀ : G) (upd : S → A → S → G → G) {s : S} (h : L.Reachable s) :
    ∃ g, (L.withHistory g₀ upd).Reachable (s, g) := by
  refine h.invariant (I := fun s => ∃ g, (L.withHistory g₀ upd).Reachable (s, g)) ?_ ?_
  · intro s hs
    exact ⟨g₀, .of_init ⟨hs, rfl⟩⟩
  · intro s a s' _ hg hs
    obtain ⟨g, hg⟩ := hg
    exact ⟨upd s a s' g, hg.tail ⟨hs, rfl⟩⟩

/-! ### Runs of a step function -/

variable (step : S → A → Option S)

/-- Perform a list of actions. -/
def exec : S → List A → Option S
  | s, [] => some s
  | s, a :: as => (step s a).bind fun s' => exec s' as

theorem exec_append (s : S) (as bs : List A) :
    exec step s (as ++ bs) = (exec step s as).bind fun s' => exec step s' bs := by
  induction as generalizing s with
  | nil => rfl
  | cons a as ih =>
    simp only [List.cons_append, exec]
    cases step s a with
    | none => rfl
    | some s' => exact ih s'

/-- A system embedded in another one has the same runs there. -/
theorem exec_map {T : Type*} {step' : T → A → Option T} (g : S → T)
    (hg : ∀ s a, step' (g s) a = (step s a).map g) (s : S) (as : List A) :
    exec step' (g s) as = (exec step s as).map g := by
  induction as generalizing s with
  | nil => rfl
  | cons a as ih =>
    simp only [exec, hg]
    cases step s a with
    | none => rfl
    | some s' => exact ih s'

/-- Renamed actions. -/
theorem exec_comap {B : Type*} (h : B → A) (s : S) (bs : List B) :
    exec (fun s b => step s (h b)) s bs = exec step s (bs.map h) := by
  induction bs generalizing s with
  | nil => rfl
  | cons b bs ih =>
    simp only [List.map_cons, exec]
    exact congrArg _ (funext ih)

/-- **The invariant rule for traces.** A relation between the actions performed so far and the
state, kept by each step, holds at the end of every run. -/
theorem exec_invariant {I : List A → S → Prop} {s₀ : S} (h₀ : I [] s₀)
    (hstep : ∀ as s a s', I as s → step s a = some s' → I (as ++ [a]) s') {as : List A} {s : S}
    (h : exec step s₀ as = some s) : I as s := by
  induction as using List.reverseRecOn generalizing s with
  | nil =>
    obtain rfl : s₀ = s := Option.some.inj h
    exact h₀
  | append_singleton as a ih =>
    rw [exec_append] at h
    obtain ⟨t, ht, hlast⟩ := Option.bind_eq_some_iff.mp h
    obtain ⟨u, hu, hnil⟩ := Option.bind_eq_some_iff.mp hlast
    obtain rfl : u = s := Option.some.inj hnil
    exact hstep as t a u (ih ht) hu

theorem steps_of_exec (init : S → Prop) {as : List A} {s s' : S} (h : exec step s as = some s') :
    (ofFun init step).Steps s s' := by
  induction as generalizing s with
  | nil =>
    obtain rfl : s = s' := Option.some.inj h
    exact .refl
  | cons a as ih =>
    obtain ⟨t, ht, hrest⟩ := Option.bind_eq_some_iff.mp h
    exact .head ⟨a, ht⟩ (ih hrest)

/-- The step function that makes only the steps that meet `C`. -/
def guarded (C : S → A → Prop) [∀ s a, Decidable (C s a)] (s : S) (a : A) : Option S :=
  if C s a then step s a else none

theorem restrict_steps_of_exec (init : S → Prop) {C : S → A → Prop} [∀ s a, Decidable (C s a)] {as : List A}
    {s s' : S} (h : exec (guarded step C) s as = some s') : ((ofFun init step).restrict C).Steps s s' := by
  have hsteps : (ofFun init (guarded step C)).Steps s s' := steps_of_exec (guarded step C) init h
  refine hsteps.lift id fun t u ht => ?_
  obtain ⟨a, ha⟩ := ht
  have hstep : (if C t a then step t a else none) = some u := ha
  split at hstep
  · next hC => exact ⟨a, hstep, hC⟩
  · cases hstep

/-- The step function of the system with a history variable. -/
def stepHistory (upd : S → A → S → G → G) (x : S × G) (a : A) : Option (S × G) :=
  (step x.1 a).map fun s' => (s', upd x.1 a s' x.2)

/-- A run of a system with a history variable, all of whose actions meet a condition. -/
theorem reachable_of_execHistory (init : S → Prop) {s₀ : S} {g₀ : G} {upd : S → A → S → G → G}
    {C : S × G → A → Prop} {as : List A} {x : S × G} (h₀ : init s₀)
    (hC : ∀ y, ∀ a ∈ as, C y a) (h : exec (stepHistory step upd) (s₀, g₀) as = some x) :
    (((ofFun init step).withHistory g₀ upd).restrict C).Reachable x := by
  have hinit : (((ofFun init step).withHistory g₀ upd).restrict C).Reachable (s₀, g₀) :=
    .of_init ⟨h₀, rfl⟩
  have hrun := exec_invariant (stepHistory step upd)
    (I := fun bs y => (∀ y, ∀ a ∈ bs, C y a) →
      (((ofFun init step).withHistory g₀ upd).restrict C).Reachable y) (fun _ => hinit) ?_ h
  · exact hrun hC
  · intro bs y a z ih hstep hbs
    obtain ⟨s', hs', rfl⟩ := Option.map_eq_some_iff.mp hstep
    have hy := ih fun u b hb => hbs u b (List.mem_append_left _ hb)
    exact hy.tail ⟨⟨hs', rfl⟩, hbs y a (by simp)⟩

/-- Perform a list of actions and check `φ` in every state passed, the first included. -/
def execWhile (φ : S → Bool) : S → List A → Option S
  | s, [] => if φ s then some s else none
  | s, a :: as => if φ s then (step s a).bind fun s' => execWhile φ s' as else none

theorem stepsWhile_of_execWhile (init : S → Prop) {φ : S → Bool} {as : List A} {s s' : S}
    (h : execWhile step φ s as = some s') :
    (ofFun init step).StepsWhile (fun u => φ u = true) s s' := by
  induction as generalizing s with
  | nil =>
    simp only [execWhile, Option.ite_none_right_eq_some, Option.some.injEq] at h
    obtain ⟨hφ, rfl⟩ := h
    exact .refl hφ
  | cons a as ih =>
    simp only [execWhile, Option.ite_none_right_eq_some] at h
    obtain ⟨hφ, h⟩ := h
    obtain ⟨t, ht, hrest⟩ := Option.bind_eq_some_iff.mp h
    have htail := ih hrest
    exact ⟨hφ, .head ⟨⟨a, ht⟩, htail.1⟩ htail.2⟩

theorem execWhile_true (s : S) (as : List A) : execWhile step (fun _ => true) s as = exec step s as := by
  induction as generalizing s with
  | nil => rfl
  | cons a as ih =>
    simp only [execWhile, exec, if_true]
    exact congrArg _ (funext ih)

end Lts

/-! ### Counting the indices with a property when one index changes -/

/-- Changing the value at `i` changes the count by the difference at `i`. -/
theorem card_filter_update {ι β : Type*} [Fintype ι] [DecidableEq ι] (P : β → Prop)
    [DecidablePred P] (f : ι → β) (i : ι) (b : β) :
    (Finset.univ.filter fun j => P (Function.update f i b j)).card + (if P (f i) then 1 else 0)
      = (Finset.univ.filter fun j => P (f j)).card + (if P b then 1 else 0) := by
  have split : ∀ g : ι → β, (Finset.univ.filter fun j => P (g j)).card
      = ((Finset.univ.erase i).filter fun j => P (g j)).card + (if P (g i) then 1 else 0) := by
    intro g
    have hu : (Finset.univ : Finset ι) = insert i (Finset.univ.erase i) :=
      (Finset.insert_erase (Finset.mem_univ i)).symm
    conv_lhs => rw [hu, Finset.filter_insert]
    by_cases hg : P (g i)
    · rw [if_pos hg, if_pos hg, Finset.card_insert_of_notMem (by simp)]
    · rw [if_neg hg, if_neg hg, Nat.add_zero]
  have same : ((Finset.univ.erase i).filter fun j => P (Function.update f i b j))
      = ((Finset.univ.erase i).filter fun j => P (f j)) := by
    apply Finset.filter_congr
    intro j hj
    rw [Function.update_of_ne (Finset.ne_of_mem_erase hj)]
  rw [split (Function.update f i b), split f, same, Function.update_self]
  omega

end AtomicWaits.Lib
