import Mathlib.Logic.Function.Basic

/-!
# A mutex with an owner

`Mutex.Owns owner holds`: of the threads `β` exactly the owner of the mutex is in a critical section. Each
way a thread can move keeps it: inside or outside (`keep`), into a critical section of a free mutex
(`lock`), and out of its own (`unlock`).
-/

namespace AtomicWaits.Lib.Mutex

variable {β : Type*}

/-- Exactly the owner is in a critical section. -/
def Owns (owner : Option β) (holds : β → Bool) : Prop := ∀ b, holds b = true ↔ owner = some b

variable {owner : Option β} {holds : β → Bool}

theorem owns_none : Owns none fun _ : β => false := by
  intro b
  simp

/-- No thread is in a critical section of a free mutex. -/
theorem Owns.not_holds (h : Owns owner holds) (ho : owner = none) (b : β) : holds b = false := by
  rw [Bool.eq_false_iff]
  intro hb
  rw [(h b).mp hb] at ho
  cases ho

variable [DecidableEq β]

theorem Owns.keep (h : Owns owner holds) {b : β} {v : Bool} (hv : v = holds b) :
    Owns owner (Function.update holds b v) := by
  rw [hv, Function.update_eq_self]
  exact h

theorem Owns.lock (h : Owns owner holds) (ho : owner = none) (b : β) :
    Owns (some b) (Function.update holds b true) := by
  intro c
  by_cases hc : c = b
  · subst hc
    simp
  · rw [Function.update_of_ne hc, h.not_holds ho c]
    simp [Ne.symm hc]

theorem Owns.unlock (h : Owns owner holds) {b : β} (hb : holds b = true) :
    Owns none (Function.update holds b false) := by
  intro c
  by_cases hc : c = b
  · subst hc
    simp
  · rw [Function.update_of_ne hc, h c, (h b).mp hb]
    simp [Ne.symm hc]

end AtomicWaits.Lib.Mutex
