import Mathlib.Data.Nat.Bitwise
import Mathlib.Data.List.Basic
import Mathlib.Tactic.Ring

/-!
# Fields packed into a machine word

A machine word as a natural number with its bit operations, and the arithmetic
they amount to when a word is read through masks.  `pack` lays out a list of
fields from the most significant one down, above a number of low bits that
belong to nobody.
-/

namespace QfsRepair.Machine.PackedWord

variable {word high low value width shift bits : ℕ}

/-- `~value` in words of `bits` bits. -/
def complement (bits value : ℕ) : ℕ := 2 ^ bits - 1 - value

/-- Reading one field under its mask. -/
theorem and_mask (word width shift : ℕ) :
    word &&& ((2 ^ width - 1) <<< shift) = (word / 2 ^ shift % 2 ^ width) * 2 ^ shift := by
  rw [← Nat.shiftRight_eq_div_pow, ← Nat.shiftLeft_eq]
  apply Nat.eq_of_testBit_eq
  intro bit
  by_cases hbit : shift ≤ bit
  · simp [Nat.testBit_shiftLeft, Nat.testBit_shiftRight, hbit, Bool.and_comm]
  · simp [Nat.testBit_shiftLeft, hbit]

theorem and_mask_of_eq (hword : word = (high * 2 ^ width + value) * 2 ^ shift + low)
    (hvalue : value < 2 ^ width) (hlow : low < 2 ^ shift) :
    word &&& ((2 ^ width - 1) <<< shift) = value * 2 ^ shift := by
  have hdiv : word / 2 ^ shift = high * 2 ^ width + value := by
    rw [hword, mul_comm, Nat.mul_add_div (Nat.two_pow_pos shift), Nat.div_eq_of_lt hlow, add_zero]
  rw [and_mask, hdiv, mul_comm high, Nat.mul_add_mod, Nat.mod_eq_of_lt hvalue]

/-- Storing a field over zeros. -/
theorem or_field (hvalue : value < 2 ^ width) (hlow : low < 2 ^ shift) :
    (high * 2 ^ width * 2 ^ shift + low) ||| value * 2 ^ shift =
      (high * 2 ^ width + value) * 2 ^ shift + low := by
  have hfields : high * 2 ^ width + value = high * 2 ^ width ||| value := by
    rw [mul_comm, Nat.two_pow_add_eq_or_of_lt hvalue]
  have hword : ∀ top, top * 2 ^ shift + low = top <<< shift ||| low := by
    intro top
    rw [mul_comm, Nat.two_pow_add_eq_or_of_lt hlow, Nat.shiftLeft_eq, mul_comm]
  rw [hword, hword, hfields, ← Nat.shiftLeft_eq value, Nat.shiftLeft_or_distrib,
    Nat.or_assoc, Nat.or_assoc, Nat.or_comm low]

theorem or_low (hlow : low < 2 ^ shift) : high * 2 ^ shift ||| low = high * 2 ^ shift + low := by
  rw [mul_comm, Nat.two_pow_add_eq_or_of_lt hlow]

/-- Clearing the low bits. -/
theorem and_complement (hword : word < 2 ^ bits) (hshift : shift ≤ bits) :
    word &&& complement bits (2 ^ shift - 1) = word / 2 ^ shift * 2 ^ shift := by
  have hmask : complement bits (2 ^ shift - 1) = (2 ^ (bits - shift) - 1) <<< shift := by
    have hpow : 2 ^ (bits - shift) * 2 ^ shift = 2 ^ bits := by
      rw [← pow_add, Nat.sub_add_cancel hshift]
    have hpos := Nat.two_pow_pos shift
    rw [complement, Nat.shiftLeft_eq, Nat.sub_mul]
    omega
  have hsmall : word / 2 ^ shift < 2 ^ (bits - shift) := by
    rw [Nat.div_lt_iff_lt_mul (Nat.two_pow_pos shift), ← pow_add, Nat.sub_add_cancel hshift]
    exact hword
  rw [hmask, and_mask, Nat.mod_eq_of_lt hsmall]

/-- A mask together with all bits below it. -/
theorem mask_or_low (width shift : ℕ) :
    ((2 ^ width - 1) <<< shift) ||| (2 ^ shift - 1) = 2 ^ (shift + width) - 1 := by
  have hpos := Nat.two_pow_pos shift
  have hle : 2 ^ shift ≤ 2 ^ width * 2 ^ shift :=
    Nat.le_mul_of_pos_left _ (Nat.two_pow_pos width)
  rw [Nat.shiftLeft_eq, or_low (by omega), Nat.sub_mul, pow_add, mul_comm (2 ^ shift)]
  omega

/-! ## Packed lists -/

/-- The fields of `width` bits above `low` free bits, `count` of them, the
first one in the most significant bits. -/
def pack (width low : ℕ) : ℕ → List ℕ → ℕ
  | count + 1, field :: fields =>
    field * 2 ^ (low + width * count) + pack width low count fields
  | _, _ => 0

@[simp]
theorem pack_nil (width low count : ℕ) : pack width low count [] = 0 := by
  cases count <;> rfl

@[simp]
theorem pack_zero (width low : ℕ) (fields : List ℕ) : pack width low 0 fields = 0 := by
  cases fields <;> rfl

@[simp]
theorem pack_succ_cons (width low count field : ℕ) (fields : List ℕ) :
    pack width low (count + 1) (field :: fields) =
      field * 2 ^ (low + width * count) + pack width low count fields :=
  rfl

theorem pack_dvd (width low count : ℕ) (fields : List ℕ) :
    2 ^ low ∣ pack width low count fields := by
  induction count generalizing fields with
  | zero => simp [pack]
  | succ count ih =>
    cases fields with
    | nil => simp
    | cons field fields =>
      rw [pack_succ_cons, pow_add]
      exact Nat.dvd_add (Dvd.dvd.mul_left (Dvd.intro _ rfl) field) (ih fields)

variable {fields : List ℕ}

theorem pack_add_lt {width bits count : ℕ} (hfields : ∀ field ∈ fields, field < 2 ^ width)
    (hlow : low < 2 ^ bits) :
    pack width bits count fields + low < 2 ^ (bits + width * count) := by
  induction count generalizing fields with
  | zero => simpa [pack] using hlow
  | succ count ih =>
    have hpow : 2 ^ (bits + width * (count + 1)) =
        2 ^ width * 2 ^ (bits + width * count) := by ring
    cases fields with
    | nil =>
      rw [pack_nil, zero_add]
      exact hlow.trans_le (Nat.pow_le_pow_right (by omega) (by omega))
    | cons field fields =>
      have hrest := ih fun field hfield => hfields field (.tail _ hfield)
      have hfield : field + 1 ≤ 2 ^ width := hfields field (.head _)
      calc field * 2 ^ (bits + width * count) + pack width bits count fields + low
          < field * 2 ^ (bits + width * count) + 2 ^ (bits + width * count) := by omega
        _ = (field + 1) * 2 ^ (bits + width * count) := by ring
        _ ≤ 2 ^ width * 2 ^ (bits + width * count) := Nat.mul_le_mul_right _ hfield
        _ = 2 ^ (bits + width * (count + 1)) := hpow.symm

theorem pack_lt {width bits count : ℕ} (hfields : ∀ field ∈ fields, field < 2 ^ width) :
    pack width bits count fields < 2 ^ (bits + width * count) :=
  pack_add_lt hfields (Nat.two_pow_pos bits)

end QfsRepair.Machine.PackedWord
