import Mathlib.Algebra.BigOperators.Group.Finset.Piecewise
import Mathlib.Data.Nat.Count

/-! How many numbers below a bound are marked, when one mark changes, and sums of which one entry
changes. -/

namespace Sic

theorem count_congr {p q : Nat → Prop} [DecidablePred p] [DecidablePred q] {n : Nat}
    (h : ∀ k, k < n → (p k ↔ q k)) :
    Nat.count p n = Nat.count q n := by
  induction n with
  | zero => simp
  | succ n ih =>
    rw [Nat.count_succ, Nat.count_succ, ih fun k hk => h k (by omega), if_congr (h n (by omega)) rfl rfl]

def clearCount (m : Nat → Bool) (n : Nat) : Nat := Nat.count (fun k => m k = false) n

theorem clear_le (m : Nat → Bool) (n : Nat) : clearCount m n ≤ n := Nat.count_le _

variable {m : Nat → Bool} {b n : Nat}

theorem clear_set (hb : b < n) (hm : m b = false) :
    clearCount (Function.update m b true) n + 1 = clearCount m n := by
  induction n with
  | zero => omega
  | succ n ih =>
    rw [clearCount, clearCount, Nat.count_succ, Nat.count_succ]
    by_cases hn : b = n
    · subst hn
      rw [if_neg (by simp), if_pos hm]
      refine congrArg (· + 1) (count_congr fun k hk => ?_)
      rw [Function.update_of_ne (by omega)]
    · have hlt := ih (by omega)
      rw [clearCount, clearCount] at hlt
      rw [Function.update_of_ne (Ne.symm hn), ← hlt]
      omega

theorem clear_unset (hb : b < n) (hm : m b = true) :
    clearCount (Function.update m b false) n = clearCount m n + 1 := by
  have h := @clear_set (Function.update m b false) b n hb (Function.update_self ..)
  rw [Function.update_idem, ← hm, Function.update_eq_self] at h
  exact h.symm

theorem sum_update {β : Type*} [DecidableEq β] {s : Finset β} {b : β} (hb : b ∈ s) (w : β → Nat) (n : Nat) :
    ∑ c ∈ s, Function.update w b n c + w b = ∑ c ∈ s, w c + n := by
  rw [Finset.sum_update_of_mem hb, ← Finset.sum_sdiff (Finset.singleton_subset_iff.mpr hb), Finset.sum_singleton]
  omega

end Sic
