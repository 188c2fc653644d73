import Mathlib.Data.Nat.Bitwise
import Mathlib.Data.Nat.Prime.Basic
import Mathlib.Data.Nat.ModEq
import Mathlib.Data.Fintype.EquivFin
import Mathlib.Tactic.Ring
import Mathlib.Tactic.Linarith

/-!
# Triangular probing

The indices `h, h + 1, h + 3, h + 6, ...` modulo a power of two, and the loop that walks them by
adding a growing step under a mask. Two facts carry every use:

* **full period** (`probeIdx_inj`, `exists_probeIdx_eq`): for `n = 2 ^ k` the first `n` indices are
  pairwise distinct, so they cover all of `0, ..., n - 1`;
* **the loop walks the indices** (`probeLoop_eq_scan`): the incrementally masked loop is a scan of
  the list `probePath n h`.
-/

namespace AtomicWaits.Lib

/-- The `i`-th index of the triangular probe sequence from `h` in a table of `n` slots. -/
def probeIdx (n h i : ℕ) : ℕ := (h + i * (i + 1) / 2) % n

/-- The first `n` probe indices. -/
def probePath (n h : ℕ) : List ℕ := (List.range n).map (probeIdx n h)

theorem triangle_succ (i : ℕ) : (i + 1) * (i + 1 + 1) / 2 = i * (i + 1) / 2 + (i + 1) := by
  rw [show (i + 1) * (i + 1 + 1) = i * (i + 1) + (i + 1) * 2 by ring,
    Nat.add_mul_div_right _ _ (by decide)]

theorem two_mul_triangle (i : ℕ) : 2 * (i * (i + 1) / 2) = i * (i + 1) :=
  Nat.mul_div_cancel' (Nat.even_mul_succ_self i).two_dvd

theorem probeIdx_lt {n : ℕ} (hn : 0 < n) (h i : ℕ) : probeIdx n h i < n := Nat.mod_lt _ hn

@[simp] theorem probeIdx_zero (n h : ℕ) : probeIdx n h 0 = h % n := by simp [probeIdx]

/-- Advancing by the step under the mask is the next probe index. -/
theorem probeIdx_succ (k h i : ℕ) :
    (probeIdx (2 ^ k) h i + (i + 1)) &&& (2 ^ k - 1) = probeIdx (2 ^ k) h (i + 1) := by
  rw [Nat.and_two_pow_sub_one_eq_mod, probeIdx, probeIdx, triangle_succ, Nat.mod_add_mod,
    Nat.add_assoc]

/-! ### Full period -/

/-- A power of two that divides a product of two numbers of different parity divides one of
them. -/
theorem two_pow_dvd_of_odd_sum {m a b : ℕ} (hodd : (a + b) % 2 = 1) (hdvd : 2 ^ m ∣ a * b) :
    2 ^ m ∣ a ∨ 2 ^ m ∣ b := by
  rcases Nat.even_or_odd a with ha | ha
  · have hb : Nat.Coprime (2 ^ m) b :=
      Nat.Coprime.pow_left m (Nat.coprime_two_left.mpr (by
        rw [Nat.odd_iff]
        have := Nat.even_iff.mp ha
        omega))
    exact .inl (hb.dvd_of_dvd_mul_right hdvd)
  · have ha' : Nat.Coprime (2 ^ m) a := Nat.Coprime.pow_left m (Nat.coprime_two_left.mpr ha)
    exact .inr (ha'.dvd_of_dvd_mul_left hdvd)

/-- **No index repeats.** The first `2 ^ k` triangular offsets are distinct modulo `2 ^ k`. -/
theorem probeIdx_ne_of_lt {k h i j : ℕ} (hij : i < j) (hj : j < 2 ^ k) :
    probeIdx (2 ^ k) h i ≠ probeIdx (2 ^ k) h j := by
  intro heq
  have hmod : Nat.ModEq (2 ^ k) (h + i * (i + 1) / 2) (h + j * (j + 1) / 2) := heq
  have htri : Nat.ModEq (2 ^ k) (i * (i + 1) / 2) (j * (j + 1) / 2) :=
    Nat.ModEq.add_left_cancel' h hmod
  have hle : i * (i + 1) / 2 ≤ j * (j + 1) / 2 :=
    Nat.div_le_div_right (Nat.mul_le_mul hij.le (by omega))
  have hdvd : 2 ^ k ∣ j * (j + 1) / 2 - i * (i + 1) / 2 := (Nat.modEq_iff_dvd' hle).mp htri
  obtain ⟨d, rfl⟩ : ∃ d, j = i + d := ⟨j - i, by omega⟩
  -- twice the difference of the two triangular numbers is a product of opposite parities
  have hprod : 2 ^ (k + 1) ∣ d * (2 * i + d + 1) := by
    have hdouble : 2 * ((i + d) * (i + d + 1) / 2 - i * (i + 1) / 2) = d * (2 * i + d + 1) := by
      rw [Nat.mul_sub, two_mul_triangle, two_mul_triangle]
      have : (i + d) * (i + d + 1) = i * (i + 1) + d * (2 * i + d + 1) := by ring
      omega
    rw [pow_succ, Nat.mul_comm, ← hdouble]
    exact Nat.mul_dvd_mul_left 2 hdvd
  have hpow : 2 ^ (k + 1) = 2 * 2 ^ k := by ring
  rcases two_pow_dvd_of_odd_sum (by omega) hprod with hd | hd
  · have := Nat.le_of_dvd (by omega) hd
    omega
  · have := Nat.le_of_dvd (by omega) hd
    omega

theorem probeIdx_inj {k h i j : ℕ} (hi : i < 2 ^ k) (hj : j < 2 ^ k)
    (heq : probeIdx (2 ^ k) h i = probeIdx (2 ^ k) h j) : i = j := by
  rcases Nat.lt_trichotomy i j with hlt | he | hgt
  · exact absurd heq (probeIdx_ne_of_lt hlt hj)
  · exact he
  · exact absurd heq.symm (probeIdx_ne_of_lt hgt hi)

/-- **Every slot is visited.** An injection of `n` steps into `n` slots is onto. -/
theorem exists_probeIdx_eq (k h : ℕ) {j : ℕ} (hj : j < 2 ^ k) :
    ∃ i < 2 ^ k, probeIdx (2 ^ k) h i = j := by
  let f : Fin (2 ^ k) → Fin (2 ^ k) := fun i => ⟨probeIdx (2 ^ k) h i, probeIdx_lt (by positivity) h i⟩
  have hinj : Function.Injective f := fun a b hab =>
    Fin.ext (probeIdx_inj a.isLt b.isLt (congrArg Fin.val hab))
  obtain ⟨i, hi⟩ := (Finite.injective_iff_surjective.mp hinj) ⟨j, hj⟩
  exact ⟨i, i.isLt, congrArg Fin.val hi⟩

/-! ### The probe loop -/

variable {σ ρ : Type*}

/-- `for(;;) { body; step++; if(step >= n) break; idx = (idx + step) & (n - 1); }` where the body
at `idx` either leaves the loop with a result or goes on with a new state. The first argument
bounds the passes; `n` passes are all the loop ever makes. -/
def probeLoop (n : ℕ) (body : ℕ → σ → ρ ⊕ σ) : ℕ → ℕ → ℕ → σ → ρ ⊕ σ
  | 0, _, _, s => .inr s
  | passes + 1, idx, step, s =>
    match body idx s with
    | .inl r => .inl r
    | .inr s' =>
      if n ≤ step + 1 then .inr s'
      else probeLoop n body passes ((idx + (step + 1)) &&& (n - 1)) (step + 1) s'

/-- The same body run over a list of indices. -/
def scan (body : ℕ → σ → ρ ⊕ σ) : List ℕ → σ → ρ ⊕ σ
  | [], s => .inr s
  | i :: is, s =>
    match body i s with
    | .inl r => .inl r
    | .inr s' => scan body is s'

theorem probeLoop_eq_scan_range' (k h : ℕ) (body : ℕ → σ → ρ ⊕ σ) (passes : ℕ) :
    ∀ (step : ℕ) (s : σ), step + passes = 2 ^ k →
      probeLoop (2 ^ k) body passes (probeIdx (2 ^ k) h step) step s
        = scan body ((List.range' step passes).map (probeIdx (2 ^ k) h)) s := by
  induction passes with
  | zero => intro step s _; rfl
  | succ passes ih =>
    intro step s hs
    rw [List.range'_succ, List.map_cons, probeLoop, scan]
    cases body (probeIdx (2 ^ k) h step) s with
    | inl r => rfl
    | inr s' =>
      dsimp only
      by_cases hlast : 2 ^ k ≤ step + 1
      · -- the step limit ends the loop where the index list ends
        obtain rfl : passes = 0 := by omega
        rw [if_pos hlast]
        rfl
      · rw [if_neg hlast, probeIdx_succ]
        exact ih (step + 1) s' (by omega)

/-- **The loop is a scan of the probe path.** -/
theorem probeLoop_eq_scan (k : ℕ) {h : ℕ} (hh : h < 2 ^ k) (body : ℕ → σ → ρ ⊕ σ) (s : σ) :
    probeLoop (2 ^ k) body (2 ^ k) h 0 s = scan body (probePath (2 ^ k) h) s := by
  have hgen := probeLoop_eq_scan_range' k h body (2 ^ k) 0 s (by omega)
  rw [probeIdx_zero, Nat.mod_eq_of_lt hh] at hgen
  rw [hgen, probePath, List.range_eq_range']

/-! ### Searching a probe path for a predicate -/

/-- The body that stops at the first index with `p`. -/
def searchBody (p : ℕ → Prop) [DecidablePred p] (i : ℕ) (_ : Unit) : ℕ ⊕ Unit :=
  if p i then .inl i else .inr ()

/-- Searching the indices `f a, ..., f (a + m - 1)` stops at the first one with `p`. -/
theorem scan_search (p : ℕ → Prop) [DecidablePred p] (f : ℕ → ℕ) (m : ℕ) : ∀ a,
    (∃ s, a ≤ s ∧ s < a + m ∧ p (f s) ∧ (∀ r, a ≤ r → r < s → ¬ p (f r)) ∧
      scan (searchBody p) ((List.range' a m).map f) () = .inl (f s)) ∨
    ((∀ r, a ≤ r → r < a + m → ¬ p (f r)) ∧
      scan (searchBody p) ((List.range' a m).map f) () = .inr ()) := by
  induction m with
  | zero => intro a; exact .inr ⟨fun r h1 h2 => absurd h2 (by omega), rfl⟩
  | succ m ih =>
    intro a
    rw [List.range'_succ, List.map_cons, scan]
    by_cases hp : p (f a)
    · refine .inl ⟨a, le_rfl, by omega, hp, fun r h1 h2 => absurd h2 (by omega), ?_⟩
      simp only [searchBody, if_pos hp]
    · have hbody : searchBody p (f a) () = .inr () := if_neg hp
      rw [hbody]
      rcases ih (a + 1) with ⟨s, h1, h2, hs, hbefore, heq⟩ | ⟨hall, heq⟩
      · refine .inl ⟨s, by omega, by omega, hs, fun r hr1 hr2 => ?_, heq⟩
        rcases Nat.eq_or_lt_of_le hr1 with rfl | hlt
        · exact hp
        · exact hbefore r hlt hr2
      · refine .inr ⟨fun r hr1 hr2 => ?_, heq⟩
        rcases Nat.eq_or_lt_of_le hr1 with rfl | hlt
        · exact hp
        · exact hall r hlt (by omega)

/-- **A probe loop finds what is there.** It stops at the first probe index with `p`, and when it
ends by the step limit no slot of the table has `p`. -/
theorem probeLoop_search (k : ℕ) {h : ℕ} (hh : h < 2 ^ k) (p : ℕ → Prop) [DecidablePred p] :
    (∃ s < 2 ^ k, p (probeIdx (2 ^ k) h s) ∧ (∀ r < s, ¬ p (probeIdx (2 ^ k) h r)) ∧
      probeLoop (2 ^ k) (searchBody p) (2 ^ k) h 0 () = .inl (probeIdx (2 ^ k) h s)) ∨
    ((∀ i < 2 ^ k, ¬ p i) ∧ probeLoop (2 ^ k) (searchBody p) (2 ^ k) h 0 () = .inr ()) := by
  rw [probeLoop_eq_scan k hh, probePath, List.range_eq_range']
  rcases scan_search p (probeIdx (2 ^ k) h) (2 ^ k) 0 with
    ⟨s, _, h2, hs, hbefore, heq⟩ | ⟨hall, heq⟩
  · exact .inl ⟨s, by omega, hs, fun r hr => hbefore r (Nat.zero_le r) hr, heq⟩
  · refine .inr ⟨fun i hi => ?_, heq⟩
    obtain ⟨r, hr, rfl⟩ := exists_probeIdx_eq k h hi
    exact hall r (Nat.zero_le r) (by omega)

end AtomicWaits.Lib
