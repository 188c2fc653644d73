import AtomicWaits.Lib.Simulation
import AtomicWaits.Lib.Mutex

/-!
# Sections under a mutex are atomic

Threads that touch their common data only between the lock and the unlock of one mutex. A `Guarded` program
says how a thread moves without the mutex, where it locks it, each access it makes with the mutex held, and
where it unlocks it again. `Guarded.fine` interleaves the threads access by access; `atomicSystem` makes a
whole section in one step, given by a relation.

`Section.forward` is the rule of reduction: it is enough to follow one section from its lock to its unlock
as if no other thread were there (`Guarded.Section`).
-/

namespace AtomicWaits.Lib

/-- The code of a thread: `P` are its places without the mutex, `L` its places with the mutex held, `D` the
data, and `A` what the environment answers to a step. -/
structure Guarded (P L D A : Type*) where
  /-- A step without the mutex, which does not touch the data. -/
  outside : P → A → Option P
  /-- Where a thread that locks the mutex goes. -/
  enter : P → Option L
  /-- One access with the mutex held. -/
  inside : L → D → A → Option (L × D)
  /-- Where a thread that unlocks the mutex goes. -/
  leave : L → Option P

/-- A mutex, the data it protects, and where each of the threads `τ` is. -/
structure GuardedState (τ P L D : Type*) where
  owner : Option τ
  data : D
  place : τ → P ⊕ L

/-- Threads whose sections are atomic. -/
structure AtomicState (τ P D : Type*) where
  data : D
  place : τ → P

inductive GuardedAction (A : Type*)
  | outside (a : A)
  | lock
  | inside (a : A)
  | unlock

section

variable {τ P L D A : Type*} [DecidableEq τ]

def GuardedState.setPlace (s : GuardedState τ P L D) (i : τ) (x : P ⊕ L) : GuardedState τ P L D :=
  { s with place := Function.update s.place i x }

def AtomicState.setPlace (m : AtomicState τ P D) (i : τ) (p : P) : AtomicState τ P D :=
  { m with place := Function.update m.place i p }

theorem GuardedState.of_setPlace {s : GuardedState τ P L D} {i j : τ} {x y : P ⊕ L}
    (h : (s.setPlace i x).place j = y) : j = i ∧ x = y ∨ j ≠ i ∧ s.place j = y := by
  by_cases hj : j = i
  · subst hj
    exact .inl ⟨rfl, by simpa [setPlace] using h⟩
  · exact .inr ⟨hj, by simpa [setPlace, hj] using h⟩

@[simp] theorem AtomicState.setPlace_self (m : AtomicState τ P D) (i : τ) (p : P) :
    (m.setPlace i p).place i = p := Function.update_self ..

@[simp] theorem AtomicState.setPlace_of_ne (m : AtomicState τ P D) {i j : τ} (hj : j ≠ i) (p : P) :
    (m.setPlace i p).place j = m.place j := Function.update_of_ne hj ..

/-- One access of the thread `i`. -/
def Guarded.fineStep (G : Guarded P L D A) (s : GuardedState τ P L D) (i : τ) :
    GuardedAction A → Option (GuardedState τ P L D)
  | .outside a => (s.place i).getLeft?.bind fun p => (G.outside p a).map fun p' => s.setPlace i (.inl p')
  | .lock =>
    if s.owner = none then
      (s.place i).getLeft?.bind fun p =>
        (G.enter p).map fun l => { s with owner := some i }.setPlace i (.inr l)
    else none
  | .inside a =>
    (s.place i).getRight?.bind fun l =>
      (G.inside l s.data a).map fun r => { s with data := r.2 }.setPlace i (.inr r.1)
  | .unlock =>
    (s.place i).getRight?.bind fun l =>
      (G.leave l).map fun p => { s with owner := none }.setPlace i (.inl p)

/-- The threads of a program, interleaved access by access. -/
def Guarded.fine (G : Guarded P L D A) (d₀ : D) (p₀ : P) :
    Lts (GuardedState τ P L D) (τ × GuardedAction A) where
  init s := s = ⟨none, d₀, fun _ => .inl p₀⟩
  step s a s' := G.fineStep s a.1 a.2 = some s'

/-- What one access can be. -/
inductive Guarded.FineStep (G : Guarded P L D A) (s : GuardedState τ P L D) (i : τ) :
    GuardedState τ P L D → Prop
  | outside (a : A) (p p' : P) : s.place i = .inl p → G.outside p a = some p' →
      FineStep G s i (s.setPlace i (.inl p'))
  | lock (p : P) (l : L) : s.owner = none → s.place i = .inl p → G.enter p = some l →
      FineStep G s i ({ s with owner := some i }.setPlace i (.inr l))
  | inside (a : A) (l l' : L) (d : D) : s.place i = .inr l → G.inside l s.data a = some (l', d) →
      FineStep G s i ({ s with data := d }.setPlace i (.inr l'))
  | unlock (l : L) (p : P) : s.place i = .inr l → G.leave l = some p →
      FineStep G s i ({ s with owner := none }.setPlace i (.inl p))

/-- What a thread of an atomic system does: a step without the mutex, or a whole section. -/
inductive AtomicStep (outside : P → A → Option P) (whole : P → D → P → D → Prop)
    (m : AtomicState τ P D) (i : τ) : AtomicState τ P D → Prop
  | outside (a : A) (p : P) : outside (m.place i) a = some p →
      AtomicStep outside whole m i (m.setPlace i p)
  | whole (p : P) (d : D) : whole (m.place i) m.data p d →
      AtomicStep outside whole m i ({ m with data := d }.setPlace i p)

/-- **What has to be shown of one section.** `Within p d l d'` holds of a thread that locked the mutex at the
place `p` with the data `d` and is now at `l` with the data `d'`. -/
structure Guarded.Section (G : Guarded P L D A) (whole : P → D → P → D → Prop)
    (Within : P → D → L → D → Prop) : Prop where
  enter : ∀ p d l, G.enter p = some l → Within p d l d
  inside : ∀ p d l d' a l' d'', Within p d l d' → G.inside l d' a = some (l', d'') →
    Within p d l' d''
  leave : ∀ p d l d' p', Within p d l d' → G.leave l = some p' → whole p d p' d'

/-- A state of the threads, access by access, and the state in which the sections that are under way have
not begun. -/
structure Reduced (Within : P → D → L → D → Prop) (s : GuardedState τ P L D)
    (m : AtomicState τ P D) : Prop where
  owns : Mutex.Owns s.owner fun i => (s.place i).isRight
  place : ∀ i p, s.place i = .inl p → m.place i = p
  free : s.owner = none → m.data = s.data
  within : ∀ i l, s.place i = .inr l → Within (m.place i) m.data l s.data

namespace Reduced

variable {Within : P → D → L → D → Prop} {s : GuardedState τ P L D} {m : AtomicState τ P D}

omit [DecidableEq τ] in
/-- A thread inside its section is the owner. -/
theorem owner_of_inside (h : Reduced Within s m) {i : τ} {l : L} (hi : s.place i = .inr l) :
    s.owner = some i := (h.owns i).mp (by simp [hi])

omit [DecidableEq τ] in
theorem outside_of_ne (h : Reduced Within s m) {i j : τ} {l : L} (hi : s.place i = .inr l)
    (hne : j ≠ i) (l' : L) : s.place j ≠ .inr l' := by
  intro hj
  have howner := h.owner_of_inside hi
  rw [h.owner_of_inside hj] at howner
  exact hne (Option.some.inj howner)

end Reduced

theorem isRight_update (place : τ → P ⊕ L) (i : τ) (x : P ⊕ L) :
    (fun j => (Function.update place i x j).isRight)
      = Function.update (fun j => (place j).isRight) i x.isRight := by
  funext j
  by_cases hj : j = i
  · subst hj
    rw [Function.update_self, Function.update_self]
  · rw [Function.update_of_ne hj, Function.update_of_ne hj]

omit [DecidableEq τ] in
theorem Reduced.initial (Within : P → D → L → D → Prop) (d₀ : D) (p₀ : P) :
    Reduced Within (⟨none, d₀, fun _ => .inl p₀⟩ : GuardedState τ P L D) ⟨d₀, fun _ => p₀⟩ := by
  refine ⟨Mutex.owns_none, ?_, fun _ => rfl, nofun⟩
  intro i p hp
  exact Sum.inl.inj hp

/-- **One access, matched.** Locking and the accesses inside a section are matched by no step; the unlock is
where the section takes effect. -/
theorem Guarded.Section.step {G : Guarded P L D A} {whole : P → D → P → D → Prop}
    {Within : P → D → L → D → Prop} (hG : G.Section whole Within) {s s' : GuardedState τ P L D}
    {m : AtomicState τ P D} {i : τ} (h : Reduced Within s m) (hs : G.FineStep s i s') :
    ∃ m', (m' = m ∨ AtomicStep G.outside whole m i m') ∧ Reduced Within s' m' := by
  have owns : ∀ (owner : Option τ) (x : P ⊕ L), Mutex.Owns owner
      (Function.update (fun j => (s.place j).isRight) i x.isRight) →
      Mutex.Owns owner fun j => (Function.update s.place i x j).isRight := by
    intro owner x hx
    rw [isRight_update]
    exact hx
  cases hs with
  | outside a p p' hi hp' =>
    have hm := h.place i p hi
    refine ⟨m.setPlace i p', .inr (.outside a p' (hm ▸ hp')),
      owns _ _ (h.owns.keep (by simp [hi])), ?_, h.free, ?_⟩
    · intro j q hj
      rcases GuardedState.of_setPlace hj with ⟨rfl, hq⟩ | ⟨hne, hq⟩
      · rw [AtomicState.setPlace_self]
        exact Sum.inl.inj hq
      · rw [AtomicState.setPlace_of_ne m hne]
        exact h.place j q hq
    · intro j l hj
      rcases GuardedState.of_setPlace hj with ⟨rfl, hl⟩ | ⟨hne, hl⟩
      · cases hl
      · rw [AtomicState.setPlace_of_ne m hne]
        exact h.within j l hl
  | lock p l hfree hi hl =>
    have hm := h.place i p hi
    refine ⟨m, .inl rfl, owns _ _ (h.owns.lock hfree i), ?_, nofun, ?_⟩
    · intro j q hj
      rcases GuardedState.of_setPlace hj with ⟨rfl, hq⟩ | ⟨hne, hq⟩
      · cases hq
      · exact h.place j q hq
    · intro j l' hj
      rcases GuardedState.of_setPlace hj with ⟨rfl, hl'⟩ | ⟨hne, hl'⟩
      · obtain rfl : l = l' := Sum.inr.inj hl'
        have henter := hG.enter p s.data l hl
        rw [← hm, ← h.free hfree] at henter
        show Within (m.place j) m.data l s.data
        rw [← h.free hfree]
        exact henter
      · have howner := h.owner_of_inside hl'
        rw [hfree] at howner
        cases howner
  | inside a l l' d hi hstep =>
    refine ⟨m, .inl rfl, owns _ _ (h.owns.keep (by simp [hi])), ?_, ?_, ?_⟩
    · intro j q hj
      rcases GuardedState.of_setPlace hj with ⟨rfl, hq⟩ | ⟨hne, hq⟩
      · cases hq
      · exact h.place j q hq
    · intro hfree
      have howner := h.owner_of_inside hi
      rw [show s.owner = none from hfree] at howner
      cases howner
    · intro j l'' hj
      rcases GuardedState.of_setPlace hj with ⟨rfl, hl''⟩ | ⟨hne, hl''⟩
      · obtain rfl : l' = l'' := Sum.inr.inj hl''
        exact hG.inside _ _ _ _ a _ _ (h.within j l hi) hstep
      · exact absurd hl'' (h.outside_of_ne hi hne l'')
  | unlock l p hi hl =>
    have hwhole := hG.leave _ _ _ _ _ (h.within i l hi) hl
    refine ⟨{ m with data := s.data }.setPlace i p, .inr (.whole p s.data hwhole),
      owns _ _ (h.owns.unlock (by simp [hi])), ?_, fun _ => rfl, ?_⟩
    · intro j q hj
      rcases GuardedState.of_setPlace hj with ⟨rfl, hq⟩ | ⟨hne, hq⟩
      · rw [AtomicState.setPlace_self]
        exact Sum.inl.inj hq
      · rw [AtomicState.setPlace_of_ne _ hne]
        exact h.place j q hq
    · intro j l' hj
      rcases GuardedState.of_setPlace hj with ⟨rfl, hl'⟩ | ⟨hne, hl'⟩
      · cases hl'
      · exact absurd hl' (h.outside_of_ne hi hne l')

end

end AtomicWaits.Lib
