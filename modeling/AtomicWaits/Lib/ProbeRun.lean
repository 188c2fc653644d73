import AtomicWaits.Lib.TriangularProbe
import Mathlib.Data.List.Nodup

/-!
# Runs of a probe loop

`probeLoop` bounds its passes by an argument. `ProbeRun` is the same loop with no bound, as a
relation that lists the indices examined, so that it can be said what one run looks at.

* `probeRun_probeLoop`, `ProbeRun.det`: a start has exactly one run, which ends as `probeLoop` does,
  so the bound is never what ends the loop;
* `ProbeRun.once`, `ProbeRun.mem_of_limit`: over a power of two a run examines no index twice, and all
  of them when it ends by the step limit;
* `probeLoop_exhaustive`: what follows for a loop that looks for something.

`probeVars` is the pair of loop variables in unsigned arithmetic of a fixed width.
-/

namespace AtomicWaits.Lib

/-! ### The indices the loop produces -/

/-- `idx` after `i` passes of a probe loop begun at `h`. -/
def loopIdx (n h : ℕ) : ℕ → ℕ
  | 0 => h
  | i + 1 => (loopIdx n h i + (i + 1)) &&& (n - 1)

/-- `idx` in the passes with `step = 0, ..., n - 1`. -/
def probeIndices (n h : ℕ) : List ℕ := (List.range n).map (loopIdx n h)

@[simp] theorem length_probeIndices (n h : ℕ) : (probeIndices n h).length = n := by
  simp [probeIndices]

theorem loopIdx_eq_probeIdx {k h : ℕ} (hh : h < 2 ^ k) (i : ℕ) :
    loopIdx (2 ^ k) h i = probeIdx (2 ^ k) h i := by
  induction i with
  | zero => rw [loopIdx, probeIdx_zero, Nat.mod_eq_of_lt hh]
  | succ i ih => rw [loopIdx, ih, probeIdx_succ]

theorem probeIndices_eq_probePath {k h : ℕ} (hh : h < 2 ^ k) :
    probeIndices (2 ^ k) h = probePath (2 ^ k) h := by
  have hidx : loopIdx (2 ^ k) h = probeIdx (2 ^ k) h := funext (loopIdx_eq_probeIdx hh)
  rw [probeIndices, probePath, hidx]

/-- **The indices are pairwise distinct.** -/
theorem nodup_probeIndices {k h : ℕ} (hh : h < 2 ^ k) : (probeIndices (2 ^ k) h).Nodup := by
  rw [probeIndices_eq_probePath hh, probePath]
  refine List.nodup_range.map_on ?_
  intro i hi j hj heq
  exact probeIdx_inj (List.mem_range.mp hi) (List.mem_range.mp hj) heq

/-- **The indices are those of the table.** -/
theorem mem_probeIndices {k h : ℕ} (hh : h < 2 ^ k) (j : ℕ) :
    j ∈ probeIndices (2 ^ k) h ↔ j < 2 ^ k := by
  rw [probeIndices_eq_probePath hh, probePath, List.mem_map]
  constructor
  · intro hj
    obtain ⟨i, _, rfl⟩ := hj
    exact probeIdx_lt (by positivity) h i
  · intro hj
    obtain ⟨i, hi, heq⟩ := exists_probeIdx_eq k h hj
    exact ⟨i, List.mem_range.mpr hi, heq⟩

example : probeIndices 8 5 = [5, 6, 0, 3, 7, 4, 2, 1] := by decide

/-! ### The loop variables in unsigned arithmetic -/

/-- `idx` and `step`. -/
structure ProbeVars (w : ℕ) where
  idx : BitVec w
  step : BitVec w

/-- `step++; idx = (idx + step) & (n - 1);` -/
def ProbeVars.next {w : ℕ} (n : BitVec w) (v : ProbeVars w) : ProbeVars w :=
  ⟨(v.idx + (v.step + 1)) &&& (n - 1), v.step + 1⟩

/-- The loop variables after `i` passes from `h`. -/
def probeVars {w : ℕ} (n h : BitVec w) : ℕ → ProbeVars w
  | 0 => ⟨h, 0⟩
  | i + 1 => (probeVars n h i).next n

theorem probeVars_step {w : ℕ} (n h : BitVec w) (i : ℕ) (hi : i < 2 ^ w) :
    (probeVars n h i).step.toNat = i := by
  induction i with
  | zero => exact BitVec.toNat_zero
  | succ i ih =>
    have hstep := ih (by omega)
    have hw : w ≠ 0 := by
      rintro rfl
      omega
    have hone : (1 : BitVec w).toNat = 1 := BitVec.toNat_one (Nat.pos_of_ne_zero hw)
    rw [probeVars, ProbeVars.next, BitVec.toNat_add_of_lt, hstep, hone]
    rw [hstep, hone]
    exact hi

/-- **Nothing wraps.** Where the table size is a power of two, `idx` has the values of the unbounded
loop. -/
theorem probeVars_idx {w k : ℕ} {n h : BitVec w} (hn : n.toNat = 2 ^ k) (hh : h.toNat < 2 ^ k)
    (i : ℕ) (hi : i < 2 ^ k) : (probeVars n h i).idx.toNat = loopIdx (2 ^ k) h.toNat i := by
  have hw : k < w := (Nat.pow_lt_pow_iff_right (by decide)).mp (hn ▸ n.isLt)
  have hdouble : 2 * 2 ^ k ≤ 2 ^ w := by
    rw [← pow_succ']
    exact Nat.pow_le_pow_right (by decide) hw
  have hpos : 0 < 2 ^ k := by positivity
  have hmask : (n - 1).toNat = 2 ^ k - 1 := by
    have hone : (1 : BitVec w).toNat = 1 := BitVec.toNat_one (by omega)
    rw [BitVec.toNat_sub_of_le, hn, hone]
    rw [BitVec.le_def, hn, hone]
    exact hpos
  induction i with
  | zero => rfl
  | succ i ih =>
    have hidx := ih (by omega)
    have hlt : loopIdx (2 ^ k) h.toNat i < 2 ^ k := by
      rw [loopIdx_eq_probeIdx hh]
      exact probeIdx_lt hpos _ _
    have hstep := probeVars_step n h (i + 1) (by omega)
    have hsum : ((probeVars n h i).idx + (probeVars n h (i + 1)).step).toNat
        = loopIdx (2 ^ k) h.toNat i + (i + 1) := by
      rw [BitVec.toNat_add_of_lt, hidx, hstep]
      rw [hidx, hstep]
      omega
    rw [probeVars, ProbeVars.next, BitVec.toNat_and, hmask, loopIdx, ← hsum]
    rfl

/-! ### Runs -/

variable {σ ρ : Type*} {n : ℕ} {body : ℕ → σ → ρ ⊕ σ} {idx step : ℕ} {s : σ} {is : List ℕ}
  {out : ρ ⊕ σ}

/-- The loop of `probeLoop` with no bound on its passes. From `idx` and `step`, in the state `s`, it
examines the indices `is` in this order and ends as `out`. -/
inductive ProbeRun (n : ℕ) (body : ℕ → σ → ρ ⊕ σ) : ℕ → ℕ → σ → List ℕ → ρ ⊕ σ → Prop
  | stop {idx step : ℕ} {s : σ} {r : ρ} (hbody : body idx s = .inl r) :
      ProbeRun n body idx step s [idx] (.inl r)
  | limit {idx step : ℕ} {s t : σ} (hbody : body idx s = .inr t) (hlast : n ≤ step + 1) :
      ProbeRun n body idx step s [idx] (.inr t)
  | next {idx step : ℕ} {s t : σ} {is : List ℕ} {out : ρ ⊕ σ} (hbody : body idx s = .inr t)
      (hmore : step + 1 < n)
      (rest : ProbeRun n body ((idx + (step + 1)) &&& (n - 1)) (step + 1) t is out) :
      ProbeRun n body idx step s (idx :: is) out

/-- **One run from each start.** -/
theorem ProbeRun.det {is' : List ℕ} {out' : ρ ⊕ σ} (h : ProbeRun n body idx step s is out)
    (h' : ProbeRun n body idx step s is' out') : is' = is ∧ out' = out := by
  induction h generalizing is' out' with
  | stop hbody =>
    cases h' with
    | stop hbody' => exact ⟨rfl, hbody'.symm.trans hbody⟩
    | limit hbody' hlast => cases hbody.symm.trans hbody'
    | next hbody' hmore rest => cases hbody.symm.trans hbody'
  | limit hbody hlast =>
    cases h' with
    | stop hbody' => cases hbody.symm.trans hbody'
    | limit hbody' hlast' => exact ⟨rfl, hbody'.symm.trans hbody⟩
    | next hbody' hmore rest => omega
  | next hbody hmore rest ih =>
    cases h' with
    | stop hbody' => cases hbody.symm.trans hbody'
    | limit hbody' hlast => omega
    | next hbody' hmore' rest' =>
      cases Sum.inr.inj (hbody.symm.trans hbody')
      obtain ⟨rfl, rfl⟩ := ih rest'
      exact ⟨rfl, rfl⟩

/-- The bounded loop is a run, when the bound is the number of steps left. -/
theorem probeRun_probeLoop (passes idx step : ℕ) (s : σ) (hp : 0 < passes)
    (hs : step + passes = n) :
    ∃ is, ProbeRun n body idx step s is (probeLoop n body passes idx step s) := by
  induction passes generalizing idx step s with
  | zero => omega
  | succ passes ih =>
    rw [probeLoop]
    cases hbody : body idx s with
    | inl r => exact ⟨[idx], .stop hbody⟩
    | inr t =>
      dsimp only
      by_cases hlast : n ≤ step + 1
      · rw [if_pos hlast]
        exact ⟨[idx], .limit hbody hlast⟩
      · rw [if_neg hlast]
        obtain ⟨is, hrest⟩ := ih ((idx + (step + 1)) &&& (n - 1)) (step + 1) t (by omega) (by omega)
        exact ⟨idx :: is, .next hbody (by omega) hrest⟩

/-- The indices the loop produces from `step` on. -/
theorem map_loopIdx_range' (h : ℕ) (hs : step < n) :
    (List.range' step (n - step)).map (loopIdx n h) =
      loopIdx n h step :: (List.range' (step + 1) (n - (step + 1))).map (loopIdx n h) := by
  rw [show n - step = n - (step + 1) + 1 by omega, List.range'_succ, List.map_cons]

/-- A run examines the indices the loop produces, in their order. -/
theorem ProbeRun.prefix_range' {h : ℕ} (hrun : ProbeRun n body idx step s is out)
    (hidx : idx = loopIdx n h step) (hs : step < n) :
    is <+: (List.range' step (n - step)).map (loopIdx n h) := by
  induction hrun with
  | stop hbody =>
    rw [map_loopIdx_range' h hs, ← hidx]
    exact ⟨_, rfl⟩
  | limit hbody hlast =>
    rw [map_loopIdx_range' h hs, ← hidx]
    exact ⟨_, rfl⟩
  | next hbody hmore rest ih =>
    rw [map_loopIdx_range' h hs, ← hidx, List.cons_prefix_cons]
    exact ⟨rfl, ih (by rw [hidx, loopIdx]) hmore⟩

/-- A run that ends by the step limit examines all that are left of them. -/
theorem ProbeRun.eq_range'_of_limit {h : ℕ} {t : σ} (hrun : ProbeRun n body idx step s is (.inr t))
    (hidx : idx = loopIdx n h step) (hs : step < n) :
    is = (List.range' step (n - step)).map (loopIdx n h) := by
  generalize hout : (Sum.inr t : ρ ⊕ σ) = out at hrun
  induction hrun with
  | stop hbody => cases hout
  | limit hbody hlast =>
    rw [map_loopIdx_range' h hs, ← hidx, show n - (_ + 1) = 0 by omega]
    rfl
  | next hbody hmore rest ih =>
    rw [map_loopIdx_range' h hs, ← hidx, ih (by rw [hidx, loopIdx]) hmore hout]

theorem probeIndices_eq_range' (n h : ℕ) :
    probeIndices n h = (List.range' 0 (n - 0)).map (loopIdx n h) := by
  rw [probeIndices, List.range_eq_range', Nat.sub_zero]

/-- **No run over a power of two examines an index twice.** -/
theorem ProbeRun.once {k h : ℕ} (hh : h < 2 ^ k) (hrun : ProbeRun (2 ^ k) body h 0 s is out) :
    is.Nodup ∧ ∀ i ∈ is, i < 2 ^ k := by
  have hpre := hrun.prefix_range' rfl (by positivity)
  rw [← probeIndices_eq_range'] at hpre
  exact ⟨hpre.sublist.nodup (nodup_probeIndices hh), fun i hi =>
    (mem_probeIndices hh i).mp (hpre.subset hi)⟩

/-- **The step limit ends a run over a power of two after the whole table.** -/
theorem ProbeRun.mem_of_limit {k h : ℕ} {t : σ} (hh : h < 2 ^ k)
    (hrun : ProbeRun (2 ^ k) body h 0 s is (.inr t)) {i : ℕ} (hi : i < 2 ^ k) : i ∈ is := by
  rw [hrun.eq_range'_of_limit rfl (by positivity), ← probeIndices_eq_range']
  exact (mem_probeIndices hh i).mpr hi

/-! ### Loops that look for something -/

variable {target : ℕ → Prop} {slot : ρ → ℕ}

/-- The body leaves the loop at the indices with `target` and only there; `slot r` is the index the
result `r` is about. -/
structure Searches (body : ℕ → σ → ρ ⊕ σ) (target : ℕ → Prop) (slot : ρ → ℕ) : Prop where
  hit : ∀ {i s r}, body i s = .inl r → slot r = i ∧ target i
  miss : ∀ {i s t}, body i s = .inr t → ¬ target i

theorem searchBody_searches (p : ℕ → Prop) [DecidablePred p] : Searches (searchBody p) p id where
  hit := by
    intro i s r h
    by_cases hp : p i
    · rw [searchBody, if_pos hp] at h
      exact ⟨(Sum.inl.inj h).symm, hp⟩
    · rw [searchBody, if_neg hp] at h
      cases h
  miss := by
    intro i s t h hp
    rw [searchBody, if_pos hp] at h
    cases h

/-- A run that leaves the loop examined one index with `target`, the last. -/
theorem ProbeRun.hit (hb : Searches body target slot) {r : ρ}
    (hrun : ProbeRun n body idx step s is (.inl r)) :
    target (slot r) ∧ ∃ before, is = before ++ [slot r] ∧ ∀ i ∈ before, ¬ target i := by
  generalize hout : (Sum.inl r : ρ ⊕ σ) = out at hrun
  induction hrun with
  | stop hbody =>
    cases hout
    obtain ⟨heq, htarget⟩ := hb.hit hbody
    rw [heq]
    exact ⟨htarget, [], rfl, fun i hi => absurd hi List.not_mem_nil⟩
  | limit hbody hlast => cases hout
  | next hbody hmore rest ih =>
    obtain ⟨htarget, before, his, hbefore⟩ := ih hout
    rw [his]
    exact ⟨htarget, _ :: before, rfl, List.forall_mem_cons.mpr ⟨hb.miss hbody, hbefore⟩⟩

/-- A run that ends by the step limit examined none. -/
theorem ProbeRun.miss (hb : Searches body target slot) {t : σ}
    (hrun : ProbeRun n body idx step s is (.inr t)) : ∀ i ∈ is, ¬ target i := by
  generalize hout : (Sum.inr t : ρ ⊕ σ) = out at hrun
  induction hrun with
  | stop hbody => cases hout
  | limit hbody hlast => exact List.forall_mem_singleton.mpr (hb.miss hbody)
  | next hbody hmore rest ih => exact List.forall_mem_cons.mpr ⟨hb.miss hbody, ih hout⟩

/-- A loop over `n` indices from `h` in the state `s` that ends as `out`, looking for `target`. -/
structure Exhaustive (n : ℕ) (body : ℕ → σ → ρ ⊕ σ) (h : ℕ) (s : σ) (target : ℕ → Prop)
    (slot : ρ → ℕ) (out : ρ ⊕ σ) : Prop where
  ends : ∃ is, ProbeRun n body h 0 s is out
  /-- Every run ends as `out` and examines no index twice. -/
  once : ∀ is out', ProbeRun n body h 0 s is out' → out' = out ∧ is.Nodup ∧ ∀ i ∈ is, i < n
  /-- A run that ends by the step limit has examined them all. -/
  whole : ∀ is t, ProbeRun n body h 0 s is (.inr t) → ∀ i < n, i ∈ is ∧ ¬ target i
  /-- What is there is reached, and the first of it on the way. -/
  reaches : (∃ i < n, target i) → ∃ r before, out = .inl r ∧ slot r < n ∧ target (slot r) ∧
    ProbeRun n body h 0 s (before ++ [slot r]) out ∧ ∀ i ∈ before, ¬ target i

/-- **A probe loop over a power of two is exhaustive.** -/
theorem probeLoop_exhaustive {k h : ℕ} (hh : h < 2 ^ k) (hb : Searches body target slot) (s : σ) :
    Exhaustive (2 ^ k) body h s target slot (probeLoop (2 ^ k) body (2 ^ k) h 0 s) := by
  obtain ⟨js, hjs⟩ : ∃ js, ProbeRun (2 ^ k) body h 0 s js (probeLoop (2 ^ k) body (2 ^ k) h 0 s) :=
    probeRun_probeLoop (2 ^ k) h 0 s (by positivity) (by omega)
  refine ⟨⟨js, hjs⟩, ?_, ?_, ?_⟩
  · intro is out hrun
    exact ⟨(hjs.det hrun).2, hrun.once hh⟩
  · intro is t hrun i hi
    have hmem := hrun.mem_of_limit hh hi
    exact ⟨hmem, hrun.miss hb i hmem⟩
  · intro hex
    obtain ⟨i, hi, htarget⟩ := hex
    generalize probeLoop (2 ^ k) body (2 ^ k) h 0 s = out at hjs ⊢
    cases out with
    | inl r =>
      obtain ⟨hr, before, rfl, hbefore⟩ := hjs.hit hb
      have hlt := (hjs.once hh).2 (slot r) (List.mem_append_right _ List.mem_cons_self)
      exact ⟨r, before, rfl, hlt, hr, hjs, hbefore⟩
    | inr t => exact absurd htarget (hjs.miss hb i (hjs.mem_of_limit hh hi))

end AtomicWaits.Lib
