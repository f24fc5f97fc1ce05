import Mathlib.Tactic.IntervalCases
import Mathlib.Tactic.Ring

/-!
# Decimal numbers

Numbers written in decimal, and the reader that takes the digits at the front
of a text.  Written numbers are read back, also where several of them stand one
after the other, and the number of digits grows with the number.
-/

namespace QfsRepair.Text

open List

def decimal (value : ℕ) : List Char := Nat.toDigits 10 value

/-- A number with its sign. -/
def decimalInt (value : ℤ) : List Char :=
  if value < 0 then '-' :: decimal value.natAbs else decimal value.natAbs

def decimalDigit (char : Char) : Option ℕ :=
  if '0' ≤ char ∧ char ≤ '9' then some (char.toNat - '0'.toNat) else none

/-- The number that the digits at the front of the text add to `value`. -/
def leadingNumber : ℕ → List Char → ℕ
  | value, [] => value
  | value, char :: chars =>
    match decimalDigit char with
    | none => value
    | some digit => leadingNumber (10 * value + digit) chars

def isSpace (char : Char) : Bool :=
  char = ' ' || ('\t' ≤ char && char ≤ '\r')

/-- The number at the front of the text, behind blanks and a sign. -/
def signedNumber (text : List Char) : ℤ :=
  match text.dropWhile isSpace with
  | '-' :: digits => -(leadingNumber 0 digits)
  | '+' :: digits => leadingNumber 0 digits
  | digits => leadingNumber 0 digits

/-- The number at the front of the text, or the closest one of 64 bits. -/
def strtoll (text : List Char) : ℤ := max (-2 ^ 63) (min (2 ^ 63 - 1) (signedNumber text))

/-- A digit stands at the front, behind blanks and a sign. -/
def startsNumber (text : List Char) : Bool :=
  match text.dropWhile isSpace with
  | '-' :: digits => (digits.head?.bind decimalDigit).isSome
  | '+' :: digits => (digits.head?.bind decimalDigit).isSome
  | digits => (digits.head?.bind decimalDigit).isSome

/-- The variable of a `sscanf` conversion, which keeps its value without a
number. -/
def scanNumber (value : ℤ) (text : List Char) : ℤ :=
  if startsNumber text then strtoll text else value

theorem decimalDigit_digitChar {digit : ℕ} (hdigit : digit < 10) :
    decimalDigit digit.digitChar = some digit := by
  interval_cases digit <;> rfl

variable {value : ℕ}

theorem decimal_of_lt (hvalue : value < 10) : decimal value = [value.digitChar] := by
  rw [decimal, Nat.toDigits_eq_if (by decide), if_pos hvalue]

theorem decimal_of_ge (hvalue : 10 ≤ value) :
    decimal value = decimal (value / 10) ++ [(value % 10).digitChar] := by
  rw [decimal, Nat.toDigits_eq_if (by decide), if_neg (Nat.not_lt.mpr hvalue), decimal]

theorem decimal_ne_nil (value : ℕ) : decimal value ≠ [] := by
  by_cases hvalue : value < 10
  · simp [decimal_of_lt hvalue]
  · simp [decimal_of_ge (Nat.le_of_not_lt hvalue)]

theorem leadingNumber_digit {digit : ℕ} (hdigit : digit < 10) (chars : List Char) :
    leadingNumber value (digit.digitChar :: chars) = leadingNumber (10 * value + digit) chars := by
  rw [leadingNumber, decimalDigit_digitChar hdigit]

/-- A number in front of a text is read, and the reading goes on behind it. -/
theorem leadingNumber_decimal (value written : ℕ) (chars : List Char) :
    leadingNumber value (decimal written ++ chars) =
      leadingNumber (value * 10 ^ (decimal written).length + written) chars := by
  induction written using Nat.strongRecOn generalizing chars with
  | ind written ih =>
    by_cases hsmall : written < 10
    · rw [decimal_of_lt hsmall, singleton_append, leadingNumber_digit hsmall]
      simp [mul_comm]
    · have hlarge : 10 ≤ written := Nat.le_of_not_lt hsmall
      rw [decimal_of_ge hlarge, append_assoc, ih (written / 10) (by omega),
        singleton_append, leadingNumber_digit (Nat.mod_lt written (by decide)),
        length_append, length_singleton]
      congr 1
      have hsplit : written = 10 * (written / 10) + written % 10 :=
        (Nat.div_add_mod written 10).symm
      calc
        10 * (value * 10 ^ (decimal (written / 10)).length + written / 10) + written % 10
            = value * (10 ^ (decimal (written / 10)).length * 10) +
                (10 * (written / 10) + written % 10) := by ring
        _ = value * (10 ^ (decimal (written / 10)).length * 10) + written := by rw [← hsplit]

variable {char : Char}

theorem decimalDigit_of_mem (hchar : char ∈ decimal value) :
    ∃ digit < 10, char = digit.digitChar := by
  induction value using Nat.strongRecOn with
  | ind value ih =>
    by_cases hsmall : value < 10
    · rw [decimal_of_lt hsmall, mem_singleton] at hchar
      exact ⟨value, hsmall, hchar⟩
    · have hlarge : 10 ≤ value := Nat.le_of_not_lt hsmall
      rw [decimal_of_ge hlarge, mem_append, mem_singleton] at hchar
      rcases hchar with hfront | hlast
      · exact ih (value / 10) (by omega) hfront
      · exact ⟨value % 10, Nat.mod_lt value (by decide), hlast⟩

/-- A number that stands at the front is read without blanks and sign. -/
theorem signedNumber_decimal (written : ℕ) (chars : List Char) :
    signedNumber (decimal written ++ chars) = leadingNumber written chars := by
  have hread := leadingNumber_decimal 0 written chars
  rw [zero_mul, zero_add] at hread
  obtain ⟨first, rest, hfirst⟩ := exists_cons_of_ne_nil (decimal_ne_nil written)
  have hmem : first ∈ decimal written := by rw [hfirst]; exact mem_cons_self
  rw [← hread, hfirst]
  obtain ⟨digit, hdigit, rfl⟩ := decimalDigit_of_mem hmem
  interval_cases digit <;> rfl

/-- A character that is no digit is not written. -/
theorem notMem_decimal (hchar : decimalDigit char = none) (value : ℕ) :
    char ∉ decimal value := by
  intro hmem
  obtain ⟨digit, hdigit, rfl⟩ := decimalDigit_of_mem hmem
  rw [decimalDigit_digitChar hdigit] at hchar
  exact absurd hchar (Option.some_ne_none digit)

theorem decimal_injective : Function.Injective decimal := by
  intro left right heq
  have hleft := leadingNumber_decimal 0 left []
  have hright := leadingNumber_decimal 0 right []
  rw [heq] at hleft
  simpa [leadingNumber] using hleft.symm.trans hright

theorem notMem_decimalInt (hdigit : decimalDigit char = none) (hsign : char ≠ '-') (value : ℤ) :
    char ∉ decimalInt value := by
  have hdigits := notMem_decimal hdigit value.natAbs
  unfold decimalInt
  split_ifs
  · simp [hsign, hdigits]
  · exact hdigits

theorem minus_mem_decimalInt {value : ℤ} : '-' ∈ decimalInt value ↔ value < 0 := by
  rw [decimalInt]
  split_ifs with hnegative
  · simp [hnegative]
  · exact iff_of_false (notMem_decimal rfl _) hnegative

theorem signedNumber_decimalInt (value : ℤ) : signedNumber (decimalInt value) = value := by
  rw [decimalInt]
  split_ifs with hnegative
  · have hread := leadingNumber_decimal 0 value.natAbs []
    rw [append_nil, zero_mul] at hread
    have hsign : signedNumber ('-' :: decimal value.natAbs) =
        -(leadingNumber 0 (decimal value.natAbs) : ℤ) := rfl
    rw [hsign, hread, leadingNumber]
    omega
  · have hread := signedNumber_decimal value.natAbs []
    rw [append_nil, leadingNumber] at hread
    omega

theorem strtoll_decimalInt {value : ℤ} (hlow : -2 ^ 63 ≤ value) (hhigh : value < 2 ^ 63) :
    strtoll (decimalInt value) = value := by
  rw [strtoll, signedNumber_decimalInt]
  omega

theorem startsNumber_decimalInt (value : ℤ) : startsNumber (decimalInt value) = true := by
  obtain ⟨first, rest, hfirst⟩ := exists_cons_of_ne_nil (decimal_ne_nil value.natAbs)
  have hmem : first ∈ decimal value.natAbs := by rw [hfirst]; exact mem_cons_self
  rw [decimalInt, hfirst]
  obtain ⟨digit, hdigit, rfl⟩ := decimalDigit_of_mem hmem
  split_ifs
  · interval_cases digit <;> rfl
  · interval_cases digit <;> rfl

theorem scanNumber_decimalInt (default : ℤ) {value : ℤ} (hlow : -2 ^ 63 ≤ value)
    (hhigh : value < 2 ^ 63) : scanNumber default (decimalInt value) = value := by
  rw [scanNumber, if_pos (startsNumber_decimalInt value), strtoll_decimalInt hlow hhigh]

theorem decimalInt_ne_nil (value : ℤ) : decimalInt value ≠ [] := by
  rw [decimalInt]
  split_ifs
  · exact cons_ne_nil _ _
  · exact decimal_ne_nil _

theorem decimalInt_injective : Function.Injective decimalInt := by
  have hsign : ∀ value : ℕ, '-' ∉ decimal value := notMem_decimal rfl
  intro left right heq
  unfold decimalInt at heq
  split_ifs at heq with hleft hright hright
  · have habs := decimal_injective (cons.inj heq).2
    omega
  · exact absurd (heq ▸ mem_cons_self) (hsign right.natAbs)
  · exact absurd (heq.symm ▸ mem_cons_self) (hsign left.natAbs)
  · have habs := decimal_injective heq
    omega

theorem length_decimal_mono {left right : ℕ} (hle : left ≤ right) :
    (decimal left).length ≤ (decimal right).length := by
  induction right using Nat.strongRecOn generalizing left with
  | ind right ih =>
    by_cases hleft : left < 10
    · rw [decimal_of_lt hleft]
      exact length_pos_iff.mpr (decimal_ne_nil right)
    · have hleft' : 10 ≤ left := Nat.le_of_not_lt hleft
      rw [decimal_of_ge hleft', decimal_of_ge (hleft'.trans hle)]
      simpa using ih (right / 10) (by omega) (Nat.div_le_div_right hle)

end QfsRepair.Text
