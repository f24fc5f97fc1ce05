import Mathlib.Tactic.IntervalCases
import Mathlib.Tactic.Ring

/-!
# Records of text

A record is a list of fields joined by a separator, a text is a list of lines
that each end in a terminator, and a number is written with hexadecimal digits.
Fields without separators, lines without terminators and digits are read back
as they were written.
-/

namespace QfsRepair.Text

open List Option

/-! ## Hexadecimal digits -/

/-- The value of a hexadecimal digit of either case. -/
def digitValue (char : Char) : Option ℕ :=
  if '0' ≤ char ∧ char ≤ '9' then some (char.toNat - '0'.toNat)
  else if 'a' ≤ char ∧ char ≤ 'f' then some (char.toNat - 'a'.toNat + 10)
  else if 'A' ≤ char ∧ char ≤ 'F' then some (char.toNat - 'A'.toNat + 10)
  else none

/-- The number that digits stand for, the most significant first. -/
def readDigits : List Char → ℕ → Option ℕ
  | [], value => some value
  | char :: chars, value =>
    (digitValue char).bind fun digit => readDigits chars (16 * value + digit)

theorem digitValue_digitChar {digit : ℕ} (hdigit : digit < 16) :
    digitValue digit.digitChar = some digit := by
  interval_cases digit <;> rfl

theorem readDigits_append (front back : List Char) (value : ℕ) :
    readDigits (front ++ back) value = (readDigits front value).bind (readDigits back) := by
  induction front generalizing value with
  | nil => rfl
  | cons char front ih =>
    simp only [cons_append, readDigits, bind_assoc, ih]

@[simp]
theorem readDigits_toDigits (value : ℕ) : readDigits (Nat.toDigits 16 value) 0 = some value := by
  induction value using Nat.strongRecOn with
  | ind value ih =>
    rw [Nat.toDigits_eq_if (by decide)]
    split_ifs with hsmall
    · simp [readDigits, digitValue_digitChar hsmall]
    · rw [readDigits_append, ih (value / 16) (by omega)]
      simp only [bind_some, readDigits,
        digitValue_digitChar (Nat.mod_lt value (by decide : 16 > 0))]
      rw [Nat.div_add_mod]

theorem digitValue_of_mem_toDigits {value : ℕ} {char : Char}
    (hchar : char ∈ Nat.toDigits 16 value) : digitValue char ≠ none := by
  induction value using Nat.strongRecOn with
  | ind value ih =>
    rw [Nat.toDigits_eq_if (by decide)] at hchar
    split_ifs at hchar with hsmall
    · rw [mem_singleton.mp hchar, digitValue_digitChar hsmall]
      exact some_ne_none _
    · rcases mem_append.mp hchar with hfront | hlast
      · exact ih (value / 16) (by omega) hfront
      · rw [mem_singleton.mp hlast, digitValue_digitChar (Nat.mod_lt value (by decide : 16 > 0))]
        exact some_ne_none _

/-- A character that is no digit is not written. -/
theorem not_mem_toDigits {char : Char} (hchar : digitValue char = none) (value : ℕ) :
    char ∉ Nat.toDigits 16 value :=
  fun hmem => digitValue_of_mem_toDigits hmem hchar

/-! ## Records and lines -/

variable {α : Type*} [DecidableEq α]

/-- The fields joined by a separator. -/
def record (separator : α) (fields : List (List α)) : List α := [separator].intercalate fields

variable {fields : List (List α)} {separator : α}

theorem splitOn_record (hne : fields ≠ []) (hfields : ∀ field ∈ fields, separator ∉ field) :
    (record separator fields).splitOn separator = fields :=
  splitOn_intercalate separator hfields hne

/-- A field has no separator in it. -/
theorem not_mem_of_mem_splitOn {text field : List α} (hfield : field ∈ text.splitOn separator) :
    separator ∉ field := by
  induction text generalizing field with
  | nil =>
    rw [splitOn_nil, mem_singleton] at hfield
    rw [hfield]
    exact not_mem_nil
  | cons char text ih =>
    rw [splitOn_cons_eq_if_modifyHead] at hfield
    split_ifs at hfield with hchar
    · rcases mem_cons.mp hfield with rfl | hrest
      · exact not_mem_nil
      · exact ih hrest
    · obtain ⟨first, rest, hsplit⟩ := exists_cons_of_ne_nil (splitOn_ne_nil separator text)
      rw [hsplit] at hfield
      rcases mem_cons.mp hfield with rfl | hrest
      · have hfirst := ih (hsplit ▸ mem_cons_self)
        intro hmem
        rcases mem_cons.mp hmem with rfl | hmem
        · exact hchar (beq_self_eq_true _)
        · exact hfirst hmem
      · exact ih (hsplit ▸ mem_cons_of_mem _ hrest)

omit [DecidableEq α] in
theorem mem_record {char : α} (hmem : char ∈ record separator fields) :
    char = separator ∨ ∃ field ∈ fields, char ∈ field := by
  induction fields with
  | nil => simp [record] at hmem
  | cons field rest ih =>
    cases rest with
    | nil =>
      rw [record, intercalate_singleton] at hmem
      exact .inr ⟨field, mem_cons_self, hmem⟩
    | cons second rest =>
      rw [record, intercalate_cons_cons, mem_append, mem_append] at hmem
      rcases hmem with (hfield | hseparator) | hrest
      · exact .inr ⟨field, mem_cons_self, hfield⟩
      · exact .inl (mem_singleton.mp hseparator)
      · rcases ih hrest with hseparator | ⟨other, hother, hchar⟩
        · exact .inl hseparator
        · exact .inr ⟨other, mem_cons_of_mem _ hother, hchar⟩

omit [DecidableEq α] in
theorem length_record_le {bound : ℕ} (hfields : ∀ field ∈ fields, field.length ≤ bound) :
    (record separator fields).length ≤ fields.length * (bound + 1) := by
  induction fields with
  | nil => simp [record]
  | cons field rest ih =>
    have hfield := hfields field mem_cons_self
    have hrest := ih fun other hother => hfields other (mem_cons_of_mem _ hother)
    rw [length_cons, add_one_mul]
    cases rest with
    | nil =>
      rw [record, intercalate_singleton]
      omega
    | cons second rest =>
      rw [record, intercalate_cons_cons, length_append, length_append, length_singleton]
      rw [record] at hrest
      omega

/-- The complete lines of a text that are not empty. -/
def lines (terminator : α) (text : List α) : List (List α) :=
  (text.splitOn terminator).dropLast.filter fun line => line ≠ []

@[simp]
theorem lines_nil (terminator : α) : lines terminator [] = [] := by
  simp [lines]

theorem lines_append {terminator : α} {line : List α} (hline : terminator ∉ line)
    (hne : line ≠ []) (rest : List α) :
    lines terminator (line ++ terminator :: rest) = line :: lines terminator rest := by
  rw [lines, splitOn_append_cons_self_of_not_mem hline,
    dropLast_cons_of_ne_nil (splitOn_ne_nil _ _), filter_cons, if_pos (by simp [hne]),
    lines]

end QfsRepair.Text
