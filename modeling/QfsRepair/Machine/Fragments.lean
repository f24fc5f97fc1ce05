import Mathlib.Data.List.Basic
import Mathlib.Tactic.Linarith

/-!
# Buffers made of fragments

A buffer is a list of fragments, each with the address of its first value.
Skipping values moves on to the fragment that holds the next one, and copying
out collects values over fragment boundaries.  Both are described by what is
left to be read.
-/

namespace QfsRepair.Machine

open List

/-- Consecutive values in memory. -/
structure Fragment (Value : Type*) where
  address : ℕ
  values : List Value
  deriving DecidableEq

variable {Value : Type*}

/-- The values of a buffer. -/
def contents (fragments : List (Fragment Value)) : List Value :=
  fragments.flatMap Fragment.values

@[simp]
theorem contents_nil : contents ([] : List (Fragment Value)) = [] := rfl

@[simp]
theorem contents_cons (fragment : Fragment Value) (fragments : List (Fragment Value)) :
    contents (fragment :: fragments) = fragment.values ++ contents fragments := by
  simp [contents]

/-- Passes the fragments that end before `count` values are skipped; none if the
buffer ends before. -/
def skipFragments : List (Fragment Value) → ℤ → Option (List (Fragment Value) × ℤ)
  | [], _ => none
  | fragment :: fragments, count =>
    if (fragment.values.length : ℤ) ≤ count then
      skipFragments fragments (count - fragment.values.length)
    else some (fragment :: fragments, count)

/-- Copies `count` values: the values, the fragments from the last one read on,
and how many values of it were copied. -/
def copyOut : List (Fragment Value) → ℕ → Option (List Value × List (Fragment Value) × ℕ)
  | [], _ => none
  | fragment :: fragments, count =>
    if fragment.values.length < count then
      (copyOut fragments (count - fragment.values.length)).map fun copied =>
        (fragment.values ++ copied.1, copied.2)
    else some (fragment.values.take count, fragment :: fragments, count)

variable (fragments : List (Fragment Value))

/-- Skipping stops within a fragment, and what is left to be read is the buffer
without the skipped values. -/
theorem skipFragments_eq {count : ℕ} (hcount : count < (contents fragments).length) :
    ∃ (fragment : Fragment Value) (rest : List (Fragment Value)) (place : ℕ),
      skipFragments fragments count = some (fragment :: rest, (place : ℤ)) ∧
      place < fragment.values.length ∧
      fragment.values.drop place ++ contents rest = (contents fragments).drop count := by
  induction fragments generalizing count with
  | nil => simp at hcount
  | cons fragment fragments ih =>
    rw [contents_cons, length_append] at hcount
    rcases Nat.lt_or_ge count fragment.values.length with hlt | hge
    · refine ⟨fragment, fragments, count, ?_, hlt, ?_⟩
      · rw [skipFragments, if_neg (by omega)]
      · rw [contents_cons, drop_append_of_le_length hlt.le]
    · obtain ⟨next, rest, place, hskip, hplace, hleft⟩ :=
        @ih (count - fragment.values.length) (by omega)
      refine ⟨next, rest, place, ?_, hplace, ?_⟩
      · rw [skipFragments, if_pos (by omega), ← Nat.cast_sub hge, hskip]
      · rw [hleft, contents_cons, drop_append, drop_of_length_le hge, nil_append]

/-- Copying out gives the front of the buffer, and what is left to be read is the
rest. -/
theorem copyOut_eq {count : ℕ} (hpos : 0 < count) (hcount : count ≤ (contents fragments).length) :
    ∃ rest place, copyOut fragments count = some ((contents fragments).take count, rest, place) ∧
      place ≤ count ∧ (contents rest).drop place = (contents fragments).drop count := by
  induction fragments generalizing count with
  | nil => simp only [contents_nil, length_nil] at hcount; omega
  | cons fragment fragments ih =>
    rw [contents_cons, length_append] at hcount
    by_cases hlt : fragment.values.length < count
    · obtain ⟨rest, place, hcopy, hplace, hleft⟩ :=
        @ih (count - fragment.values.length) (by omega) (by omega)
      refine ⟨rest, place, ?_, by omega, ?_⟩
      · rw [copyOut, if_pos hlt, hcopy, contents_cons, take_append, take_of_length_le hlt.le]
        rfl
      · rw [hleft, contents_cons, drop_append, drop_of_length_le hlt.le, nil_append]
    · refine ⟨fragment :: fragments, count, ?_, le_rfl, rfl⟩
      rw [copyOut, if_neg hlt, contents_cons, take_append_of_le_length (Nat.le_of_not_lt hlt)]

end QfsRepair.Machine
