import Mathlib.Data.List.GetD
import Mathlib.Data.List.Range
import Mathlib.Order.MinMax

/-!
# Slices of a stream

The values of an infinite stream at consecutive places.  Cutting a slice and
joining neighbouring slices are described by their end points.
-/

namespace QfsRepair.Machine

open Function List

variable {Value : Type*}

/-- The values of `stream` at the places from `low` up to `high`. -/
def slice (stream : ℕ → Value) (low high : ℕ) : List Value :=
  (List.range' low (high - low)).map stream

section

variable (stream : ℕ → Value)

@[simp]
theorem length_slice (low high : ℕ) :
    (slice stream low high).length = high - low := by
  simp [slice]

theorem getElem?_slice {low high place : ℕ} (hplace : low + place < high) :
    (slice stream low high)[place]? = some (stream (low + place)) := by
  have hlt : place < high - low := by omega
  simp [slice, getElem?_range' hlt]

theorem slice_of_le {low high : ℕ} (hle : high ≤ low) :
    slice stream low high = [] :=
  length_eq_zero_iff.mp (by rw [length_slice]; omega)

@[simp]
theorem slice_self (place : ℕ) : slice stream place place = [] :=
  slice_of_le stream le_rfl

theorem slice_eq_nil_iff {stream : ℕ → Value} {low high : ℕ} :
    slice stream low high = [] ↔ high ≤ low := by
  rw [← length_eq_zero_iff, length_slice]
  omega

theorem slice_append_slice {low middle high : ℕ} (hlow : low ≤ middle) (hhigh : middle ≤ high) :
    slice stream low middle ++ slice stream middle high = slice stream low high := by
  have hmiddle : middle = low + 1 * (middle - low) := by omega
  have hlength : high - low = (middle - low) + (high - middle) := by omega
  rw [slice, slice, slice, ← map_append, hlength, ← range'_append, ← hmiddle]

theorem take_slice (low high count : ℕ) :
    (slice stream low high).take count = slice stream low (min high (low + count)) := by
  rcases le_total high (low + count) with hshort | hlong
  · rw [min_eq_left hshort]
    exact take_of_length_le (by rw [length_slice]; omega)
  · rw [min_eq_right hlong, ← slice_append_slice stream (Nat.le_add_right low count) hlong]
    exact take_left' (by rw [length_slice]; omega)

theorem drop_slice (low high count : ℕ) :
    (slice stream low high).drop count = slice stream (low + count) high := by
  rcases le_total high (low + count) with hshort | hlong
  · rw [slice_of_le stream hshort]
    exact drop_of_length_le (by rw [length_slice]; omega)
  · rw [← slice_append_slice stream (Nat.le_add_right low count) hlong]
    exact drop_left' (by rw [length_slice]; omega)

theorem slice_congr {left right : ℕ → Value} {low high : ℕ}
    (heq : ∀ place, low ≤ place → place < high → left place = right place) :
    slice left low high = slice right low high := by
  apply map_congr_left
  intro place hplace
  rw [mem_range'_1] at hplace
  exact heq place hplace.1 (by omega)

/-- Places counted from another origin. -/
theorem slice_shift (origin low high : ℕ) :
    slice (fun place => stream (origin + place)) low high =
      slice stream (origin + low) (origin + high) := by
  rw [slice, slice, Nat.add_sub_add_left, ← map_add_range', map_map]
  rfl

end

/-- A list is the slice of its values. -/
theorem slice_getD (values : List Value) (default : Value) :
    slice (fun place => values.getD place default) 0 values.length = values := by
  apply ext_getElem?
  intro place
  rcases Nat.lt_or_ge place values.length with hlt | hge
  · rw [getElem?_slice _ (by omega), Nat.zero_add, getD_eq_getElem,
      getElem?_eq_getElem hlt]
  · rw [getElem?_eq_none (by rw [length_slice]; omega), getElem?_eq_none hge]

/-! ## Functions changed on a range -/

theorem ite_range_zero (old new : ℕ → Value) (first : ℕ) :
    (fun index => if first ≤ index ∧ index < first + 0 then new index else old index) = old :=
  funext fun _ => if_neg (by omega)

/-- A loop changes the first value, then those behind it. -/
theorem ite_range_succ {old new new' : ℕ → Value} {value : Value} {first : ℕ} (count : ℕ)
    (hvalue : value = new first) (hnew : ∀ index, first < index → new' index = new index) :
    (fun index => if first + 1 ≤ index ∧ index < first + 1 + count then new' index
      else update old first value index) =
    fun index => if first ≤ index ∧ index < first + (count + 1) then new index
      else old index := by
  funext index
  by_cases heq : index = first
  · subst heq
    rw [if_neg (by omega), if_pos (by omega), update_self, hvalue]
  · rw [update_of_ne heq]
    by_cases hin : first + 1 ≤ index ∧ index < first + 1 + count
    · rw [if_pos hin, if_pos (by omega), hnew index (by omega)]
    · rw [if_neg hin, if_neg (by omega)]

end QfsRepair.Machine
