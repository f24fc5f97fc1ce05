import Mathlib.Algebra.BigOperators.Intervals
import Mathlib.Algebra.CharP.Two
import Mathlib.Tactic.LinearCombination
import Mathlib.Tactic.Ring

/-!
# Power-sum syndromes in characteristic two

The syndrome of a sequence at a node is the value there of the polynomial that
has the sequence as coefficients.  Clearing an entry changes the syndrome by
that entry times a power of the node, so up to three erased entries are the
solution of a Vandermonde system of their differences.
-/

namespace QfsRepair.Algebra

open Function Finset

variable {R : Type*} [CommRing R]

/-- `∑ node ^ index * values index` over the first `count` indices. -/
def syndrome (node : R) (values : ℕ → R) (count : ℕ) : R :=
  ∑ index ∈ Finset.range count, node ^ index * values index

theorem syndrome_succ (node : R) (values : ℕ → R) (count : ℕ) :
    syndrome node values (count + 1) =
      syndrome node values count + node ^ count * values count :=
  sum_range_succ _ _

variable {count : ℕ}

theorem syndrome_congr (node : R) {left right : ℕ → R}
    (hvalues : ∀ index < count, left index = right index) :
    syndrome node left count = syndrome node right count := by
  refine sum_congr rfl fun index hindex => ?_
  rw [hvalues index (mem_range.mp hindex)]

/-- Horner's rule, run from the top index down. -/
def horner (node : R) (values : ℕ → R) : ℕ → R → R
  | 0, accumulator => accumulator
  | index + 1, accumulator => horner node values index (node * accumulator + values index)

theorem horner_eq (node : R) (values : ℕ → R) (count : ℕ) (accumulator : R) :
    horner node values count accumulator =
      node ^ count * accumulator + syndrome node values count := by
  induction count generalizing accumulator with
  | zero => simp [horner, syndrome]
  | succ count ih =>
    rw [horner, ih, syndrome_succ]
    ring

theorem horner_top (node : R) (values : ℕ → R) (hcount : 0 < count) :
    horner node values (count - 1) (values (count - 1)) = syndrome node values count := by
  obtain ⟨count, rfl⟩ := Nat.exists_eq_succ_of_ne_zero hcount.ne'
  rw [horner_eq, Nat.succ_sub_one, syndrome_succ, add_comm]

variable [CharP R 2]

/-- Clearing one entry and adding the old syndrome leaves that entry, weighted. -/
theorem syndrome_update_zero (node : R) (values : ℕ → R) {index : ℕ} (hindex : index < count) :
    syndrome node (update values index 0) count =
      syndrome node values count + node ^ index * values index := by
  have hmem : index ∈ range count := mem_range.mpr hindex
  have hrest : ∑ other ∈ (range count).erase index,
        node ^ other * update values index 0 other =
      ∑ other ∈ (range count).erase index, node ^ other * values other := by
    refine sum_congr rfl fun other hother => ?_
    rw [update_of_ne (ne_of_mem_erase hother)]
  unfold syndrome
  rw [← add_sum_erase _ _ hmem, ← add_sum_erase _ _ hmem, hrest, update_self, mul_zero,
    add_right_comm, CharTwo.add_self_eq_zero]

/-! ## Two unknowns -/

section Pair

variable {first second inverse u v : R}

variable (hinverse : inverse * (first + second) = 1)

include hinverse

theorem solve_pair_first :
    inverse * second * (u + v) + inverse * (first * u + second * v) = u := by
  linear_combination u * hinverse + inverse * second * v * CharTwo.two_eq_zero (R := R)

theorem solve_pair_second :
    inverse * first * (u + v) + inverse * (first * u + second * v) = v := by
  linear_combination v * hinverse + inverse * first * u * CharTwo.two_eq_zero (R := R)

end Pair

/-! ## Three unknowns -/

section Triple

variable {a b c inverse u v w : R}

theorem solve_triple_first (hinverse : inverse * ((a + b) * ((a + c) * (b + c))) = 1) :
    inverse * (b * c ^ 2 + c * b ^ 2) * (u + v + w) +
      inverse * (b ^ 2 + c ^ 2) * (a * u + b * v + c * w) +
      inverse * (b + c) * (a ^ 2 * u + b ^ 2 * v + c ^ 2 * w) = u := by
  linear_combination u * hinverse +
    inverse * (b * c ^ 2 * v + b * c ^ 2 * w + c * b ^ 2 * v + c * b ^ 2 * w
      - a * b * c * u + b ^ 3 * v + c ^ 3 * w) * CharTwo.two_eq_zero (R := R)

end Triple

end QfsRepair.Algebra
