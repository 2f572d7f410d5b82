-- SUMMARY: Numbers written anew: the digits in one base taken as digits in another, and back.
import Mathlib.Tactic.Common
import Mathlib.Algebra.Order.Group.Nat

/-!
# Digits

The lowest digits of a number in one base are taken as digits in another base. What was done can be
undone as far as the digits that are taken are digits in both bases.
-/

variable {b c n x : Nat}

/-- The number that has in base `c` the `n` lowest digits that `x` has in base `b`. -/
def rebase (b c : Nat) : Nat → Nat → Nat
  | 0, _ => 0
  | n + 1, x => x % b + c * rebase b c n (x / b)

/-- The digit of a number at a place. -/
def digitAt (b x k : Nat) : Nat := x / b ^ k % b

theorem digitAt_zero : digitAt b x 0 = x % b := by rw [digitAt, Nat.pow_zero, Nat.div_one]

theorem digitAt_succ (k : Nat) : digitAt b x (k + 1) = digitAt b (x / b) k := by
  rw [digitAt, digitAt, Nat.pow_succ', Nat.div_div_eq_div_mul]

/-- The highest digit that is taken. -/
theorem rebase_succ : rebase b c (n + 1) x = rebase b c n x + digitAt b x n * c ^ n := by
  induction n generalizing x with
  | zero => rw [rebase, rebase, rebase, digitAt_zero, Nat.mul_zero, Nat.pow_zero, Nat.mul_one,
      Nat.add_comm]
  | succ n ih =>
    rw [rebase, ih, rebase, digitAt_succ, Nat.mul_add, Nat.pow_succ', Nat.add_assoc,
      Nat.mul_left_comm]

/-- Taken back, the digits give the number without the digits that were not taken. -/
theorem rebase_rebase (hc : ∀ k < n, digitAt b x k < c) :
    rebase c b n (rebase b c n x) = x % b ^ n := by
  induction n generalizing x with
  | zero => rw [rebase, Nat.pow_zero, Nat.mod_one]
  | succ n ih =>
    have hlow : x % b < c := digitAt_zero (b := b) ▸ hc 0 (Nat.succ_pos n)
    have hrest : ∀ k < n, digitAt b (x / b) k < c := by
      intro k hk
      rw [← digitAt_succ]
      exact hc (k + 1) (Nat.succ_lt_succ hk)
    have hmod : (x % b + c * rebase b c n (x / b)) % c = x % b := by
      rw [Nat.add_mul_mod_self_left, Nat.mod_eq_of_lt hlow]
    have hdiv : (x % b + c * rebase b c n (x / b)) / c = rebase b c n (x / b) := by
      rw [Nat.add_mul_div_left _ _ (Nat.zero_lt_of_lt hlow), Nat.div_eq_of_lt hlow, Nat.zero_add]
    rw [rebase, rebase, hmod, hdiv, ih hrest, Nat.pow_succ', Nat.mod_mul]

theorem rebase_lt (hc : ∀ k < n, digitAt b x k < c) : rebase b c n x < c ^ n := by
  induction n generalizing x with
  | zero => exact Nat.one_pos
  | succ n ih =>
    have hlow : x % b < c := digitAt_zero (b := b) ▸ hc 0 (Nat.succ_pos n)
    have hrest := ih (x := x / b) fun k hk =>
      digitAt_succ (b := b) k ▸ hc (k + 1) (Nat.succ_lt_succ hk)
    rw [Nat.pow_succ']
    calc x % b + c * rebase b c n (x / b)
        < c + c * rebase b c n (x / b) := Nat.add_lt_add_right hlow _
      _ = c * (rebase b c n (x / b) + 1) := by rw [Nat.mul_succ, Nat.add_comm]
      _ ≤ c * c ^ n := Nat.mul_le_mul_left c hrest

/-- The digits of a number written anew. -/
theorem digitAt_rebase (hc : ∀ k < n, digitAt b x k < c) {k : Nat} (hk : k < n) :
    digitAt c (rebase b c n x) k = digitAt b x k := by
  induction n generalizing x k with
  | zero => cases hk
  | succ n ih =>
    have hlow : x % b < c := digitAt_zero (b := b) ▸ hc 0 (Nat.succ_pos n)
    have hrest : ∀ k < n, digitAt b (x / b) k < c := by
      intro k hk
      rw [← digitAt_succ]
      exact hc (k + 1) (Nat.succ_lt_succ hk)
    cases k with
    | zero =>
      rw [digitAt_zero, digitAt_zero, rebase, Nat.add_mul_mod_self_left, Nat.mod_eq_of_lt hlow]
    | succ k =>
      have hdiv : rebase b c (n + 1) x / c = rebase b c n (x / b) := by
        rw [rebase, Nat.add_mul_div_left _ _ (Nat.zero_lt_of_lt hlow), Nat.div_eq_of_lt hlow,
          Nat.zero_add]
      rw [digitAt_succ, digitAt_succ, hdiv]
      exact ih hrest (Nat.lt_of_succ_lt_succ hk)
