import AtomicWaits.Lib.Lts

/-!
# Coming to rest

Rules for what a system can still do, and how often. `steps_to_of_rank`: a goal is in reach when, short of it, some
steps lower a measure. `steps_to_rest`: all the parts of a system can come to rest when each one can without
disturbing those that have. `countP_le_of_potential`: an action that always lowers a potential occurs no more
often than that.
-/

namespace AtomicWaits.Lib.Lts

variable {S A : Type*} {L : Lts S A} {I : S → Prop}

theorem steps_to_of_rank {goal : S → Prop} (rank : S → ℕ)
    (hstep : ∀ s, I s → ¬ goal s → ∃ s', L.Steps s s' ∧ I s' ∧ rank s' < rank s) {s : S} (hs : I s) :
    ∃ s', L.Steps s s' ∧ I s' ∧ goal s' := by
  induction hn : rank s using Nat.strong_induction_on generalizing s with
  | _ n ih =>
    by_cases hg : goal s
    · exact ⟨s, .refl, hs, hg⟩
    · obtain ⟨t, hst, ht, hlt⟩ := hstep s hs hg
      obtain ⟨s', hsteps, hs', hg'⟩ := ih (rank t) (hn ▸ hlt) ht rfl
      exact ⟨s', hst.trans hsteps, hs', hg'⟩

theorem steps_to_rest {τ : Type*} [Fintype τ] {rest : τ → S → Prop}
    (hpart : ∀ s i, I s → ∃ s', L.Steps s s' ∧ I s' ∧ rest i s' ∧ ∀ j, rest j s → rest j s')
    {s : S} (hs : I s) : ∃ s', L.Steps s s' ∧ I s' ∧ ∀ i, rest i s' := by
  classical
  have key : ∀ T : Finset τ, ∃ s', L.Steps s s' ∧ I s' ∧ ∀ i ∈ T, rest i s' := by
    intro T
    induction T using Finset.induction_on with
    | empty => exact ⟨s, .refl, hs, by simp⟩
    | insert i T _ ih =>
      obtain ⟨t, hsteps, ht, hrest⟩ := ih
      obtain ⟨s', hsteps', hs', hi, hkeep⟩ := hpart t i ht
      refine ⟨s', hsteps.trans hsteps', hs', fun j hj => ?_⟩
      rcases Finset.mem_insert.mp hj with rfl | hj
      · exact hi
      · exact hkeep j (hrest j hj)
  obtain ⟨s', hsteps, hs', hrest⟩ := key Finset.univ
  exact ⟨s', hsteps, hs', fun i => hrest i (Finset.mem_univ i)⟩

/-! ### How often an action can occur -/

section Potential

variable {step : S → A → Option S} {φ : S → Bool} {counted : A → Bool}

/-- **The potential rule.** In a segment whose states satisfy `φ` and whose actions meet `ok`, no step raises
the potential and each counted one lowers it. -/
theorem countP_le_of_potential (ok : A → Prop) (potential : S → ℕ)
    (hstep : ∀ s a s', φ s = true → ok a → I s → step s a = some s' →
      I s' ∧ potential s' + (if counted a = true then 1 else 0) ≤ potential s)
    {s s' : S} {as : List A} (hs : I s) (hok : ∀ a ∈ as, ok a) (hrun : execWhile step φ s as = some s') :
    as.countP counted + potential s' ≤ potential s := by
  induction as generalizing s with
  | nil =>
    simp only [execWhile, Option.ite_none_right_eq_some, Option.some.injEq] at hrun
    rw [hrun.2, List.countP_nil, Nat.zero_add]
  | cons a as ih =>
    simp only [execWhile, Option.ite_none_right_eq_some] at hrun
    obtain ⟨hφ, hrun⟩ := hrun
    obtain ⟨t, ht, hrest⟩ := Option.bind_eq_some_iff.mp hrun
    obtain ⟨hIt, hpot⟩ := hstep s a t hφ (hok a (by simp)) hs ht
    have htail := ih hIt (fun b hb => hok b (List.mem_cons_of_mem a hb)) hrest
    rw [List.countP_cons]
    omega

/-- An action that occurs only at one level of a potential, and lowers it, occurs at most once. -/
theorem countP_le_one_of_level (ok : A → Prop) (potential : S → ℕ) (n : ℕ)
    (hstep : ∀ s a s', φ s = true → ok a → I s → step s a = some s' →
      I s' ∧ potential s' ≤ potential s ∧ (counted a = true → potential s = n ∧ potential s' < n))
    {s s' : S} {as : List A} (hs : I s) (hok : ∀ a ∈ as, ok a) (hrun : execWhile step φ s as = some s') :
    as.countP counted ≤ 1 := by
  have hcount : as.countP counted + (if n ≤ potential s' then 1 else 0)
      ≤ if n ≤ potential s then 1 else 0 := by
    refine countP_le_of_potential (I := I) ok (fun t => if n ≤ potential t then 1 else 0) ?_ hs hok hrun
    intro t a t' hφ hoka hI hstep'
    obtain ⟨hI', hle, hlevel⟩ := hstep t a t' hφ hoka hI hstep'
    refine ⟨hI', ?_⟩
    by_cases hcounted : counted a = true
    · obtain ⟨hn, hlt⟩ := hlevel hcounted
      rw [if_pos hcounted, if_neg (by omega), if_pos (by omega)]
    · rw [if_neg hcounted]
      split <;> split <;> omega
  have hone : (if n ≤ potential s then 1 else 0) ≤ 1 := by split <;> omega
  omega

end Potential

end AtomicWaits.Lib.Lts
