import Mathlib.Data.Int.Notation
import Mathlib.Algebra.Order.Ring.Nat
import Mathlib.Tactic.Common
import Mathlib.Tactic.IntervalCases

namespace Cyque.Library.Binary64

/-- The nearest number with 53 significant bits, ties to even: a natural
number as a `double`. -/
def round (n : ℕ) : ℕ :=
  let e := n.log2 - 52
  let q := n / 2 ^ e
  let r := n % 2 ^ e
  if 2 ^ e < 2 * r ∨ 2 * r = 2 ^ e ∧ q % 2 = 1 then (q + 1) * 2 ^ e else q * 2 ^ e

/-- A whole number that is a `double`, converted to a signed number of 64
bits. Out of range the processor delivers the least number. -/
def toInt64 (d : ℕ) : ℤ := if d < 2 ^ 63 then d else -2 ^ 63

theorem round_of_lt {n : ℕ} (h : n < 2 ^ 53) : round n = n := by
  have he : n.log2 - 52 = 0 := by
    by_cases hn : n = 0
    · subst hn
      rfl
    · have := (Nat.log2_lt hn).mpr h
      omega
  simp only [round, he, pow_zero, Nat.div_one, Nat.mod_one, mul_one]
  rw [if_neg]
  omega

theorem floor_le_round (n : ℕ) : n / 2 ^ (n.log2 - 52) * 2 ^ (n.log2 - 52) ≤ round n := by
  unfold round
  dsimp only
  split
  · exact Nat.mul_le_mul_right _ (Nat.le_succ _)
  · exact le_rfl

theorem le_round {n : ℕ} (h : 2 ^ 53 ≤ n) : 2 ^ 53 ≤ round n := by
  have hn : n ≠ 0 := by omega
  have hlog : 53 ≤ n.log2 := (Nat.le_log2 hn).mpr h
  refine le_trans ?_ (floor_le_round n)
  have hpow : 2 ^ (n.log2 - 52) * 2 ^ 52 ≤ n := by
    rw [← pow_add, Nat.sub_add_cancel (by omega)]
    exact Nat.log2_self_le hn
  have hq : 2 ^ 52 ≤ n / 2 ^ (n.log2 - 52) :=
    (Nat.le_div_iff_mul_le (Nat.two_pow_pos _)).mpr (by rwa [mul_comm] at hpow)
  calc 2 ^ 53 = 2 ^ 52 * 2 ^ 1 := pow_add 2 52 1
    _ ≤ n / 2 ^ (n.log2 - 52) * 2 ^ (n.log2 - 52) :=
      Nat.mul_le_mul hq (Nat.pow_le_pow_right (by decide) (by omega))

/-- Rounding stays in range below the last half step. -/
theorem round_lt {n : ℕ} (h : n < 2 ^ 63 - 512) : round n < 2 ^ 63 := by
  by_cases hn : n = 0
  · subst hn
    decide
  have hlog : n.log2 < 63 := (Nat.log2_lt hn).mpr (by omega)
  have he : n.log2 - 52 ≤ 10 := by omega
  have hlt : n.log2 - 52 = 10 ∨ n < 2 ^ 62 := by
    by_cases h62 : n.log2 = 62
    · exact .inl (by omega)
    · exact .inr ((Nat.log2_lt hn).mp (by omega))
  unfold round
  generalize n.log2 - 52 = e at he hlt
  dsimp only
  interval_cases e <;> split <;> omega

end Cyque.Library.Binary64
