import Mathlib.Data.Nat.Digits.Defs
import Mathlib.Logic.Equiv.Defs

/-!
# Fixed-width positional notation over any alphabet

A number below `b ^ n` as exactly `n` letters, least significant first, for an alphabet with `b`
letters (`e : α ≃ Fin b`).

* `digits`, `value`   the two directions;
* `value_digits`      the value is kept modulo `b ^ n`;
* `digits_value`      and every word is the notation of its value.
-/

namespace Positional

section
variable {α : Type} {b : Nat} [NeZero b] (e : α ≃ Fin b)

/-- the `n` lowest digits of `v` -/
def digits : Nat → Nat → List α
  | 0, _ => []
  | n + 1, v => e.symm (Fin.ofNat b v) :: digits n (v / b)

omit [NeZero b] in
/-- the number that a word denotes -/
def value (l : List α) : Nat := Nat.ofDigits b (l.map fun a => (e a).val)

@[simp] theorem length_digits (n v : Nat) : (digits e n v).length = n := by
  induction n generalizing v with
  | zero => rfl
  | succ n ih => rw [digits, List.length_cons, ih]

omit [NeZero b] in
theorem value_cons (a : α) (l : List α) : value e (a :: l) = (e a).val + b * value e l := by
  rw [value, List.map_cons, Nat.ofDigits_cons]
  rfl

theorem value_digits (n v : Nat) : value e (digits e n v) = v % b ^ n := by
  induction n generalizing v with
  | zero => rw [Nat.pow_zero, Nat.mod_one]; rfl
  | succ n ih =>
    rw [digits, value_cons, ih, Equiv.apply_symm_apply, Nat.pow_succ', Nat.mod_mul]
    rfl

omit [NeZero b] in
theorem value_lt (l : List α) : value e l < b ^ l.length := by
  induction l with
  | nil => exact Nat.one_pos
  | cons a l ih =>
    rw [value_cons, List.length_cons, Nat.pow_succ']
    calc (e a).val + b * value e l < b + b * value e l := Nat.add_lt_add_right (e a).isLt _
      _ = b * (value e l + 1) := by rw [Nat.mul_add, Nat.mul_one, Nat.add_comm]
      _ ≤ b * b ^ l.length := Nat.mul_le_mul_left b ih

theorem digits_value (l : List α) : digits e l.length (value e l) = l := by
  induction l with
  | nil => rfl
  | cons a l ih =>
    have hdiv : value e (a :: l) / b = value e l := by
      rw [value_cons, Nat.add_mul_div_left _ _ (Nat.pos_of_neZero b),
        Nat.div_eq_of_lt (e a).isLt, Nat.zero_add]
    have hmod : Fin.ofNat b (value e (a :: l)) = e a := by
      apply Fin.ext
      show value e (a :: l) % b = (e a).val
      rw [value_cons, Nat.add_mul_mod_self_left, Nat.mod_eq_of_lt (e a).isLt]
    rw [List.length_cons, digits, hdiv, hmod, ih, Equiv.symm_apply_apply]

end

end Positional
