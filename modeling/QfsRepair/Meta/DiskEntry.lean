import QfsRepair.Meta.Items
import QfsRepair.Striping.Addressing
import QfsRepair.Text.Records

/-!
# Entries of the log and the checkpoint

The text of the log and the checkpoint: lines of fields with slashes between
them, numbers in base 16.  The tokenizer and the `pop_` functions of
`DiskEntry.cc` read the fields back.
-/

namespace QfsRepair.Meta

open Striping (wrap64 wrap64_of_bounds)

/-! ## Writing -/

/-- An integer type of `width` bits in the output of a stream in base 16: a
negative number shows as its complement. -/
def showInt (width : ℕ) (value : ℤ) : Name := Nat.toDigits 16 (value % 2 ^ width).toNat

def microseconds : ℤ := 1000 * 1000

/-- `ShowTime`: seconds and microseconds. -/
def showTime (time : ℤ) : List Name :=
  [showInt 64 (time.tdiv microseconds), showInt 64 (time.tmod microseconds)]

/-- A line of the log. -/
def entry (fields : List Name) : Name := Text.record '/' fields ++ ['\n']

/-! ## Reading -/

/-- What is left of an entry.  `lastOk` falls when a number cannot be read, and
stays down in base 16. -/
structure Cursor where
  tokens : List Name
  lastOk : Bool
  deriving DecidableEq

def maxEntryTokens : ℕ := 2 ^ 10
def maxEntrySize : ℕ := 2 ^ 19

/-- `next`: the tokens of a line. -/
def nextEntry (line : Name) : Option Cursor :=
  let tokens := line.splitOn '/'
  if tokens.length ≤ maxEntryTokens ∧ line.length < maxEntrySize then some ⟨tokens, true⟩
  else none

/-- The digits after the sign in `hexToNumber`. -/
def readHex (digits : Name) : Option ℤ :=
  if 16 < digits.length then none
  else (Text.readDigits digits 0).map fun (value : ℕ) => wrap64 value

/-- `toNumber` in base 16; without a result `lastOk` falls. -/
def hexToNumber : Name → Option ℤ
  | [] => some (-1)
  | '-' :: digits => (readHex digits).map fun value => wrap64 (-value)
  | '+' :: digits => readHex digits
  | digits => readHex digits

/-- The result of a `pop_` function, none if it returns false, and what it
leaves of the entry. -/
abbrev Popped (α : Type) := Option α × Cursor

/-- The rest of a handler that returns false with the `pop_` function. -/
def Popped.required {α β : Type} (popped : Popped α) (rest : α → Cursor → Option β) : Option β :=
  popped.1.bind fun value => rest value popped.2

namespace Cursor

variable (cursor : Cursor) (tag : Name)

/-- `toNumber` of a token. -/
def toNumber (token : Name) : ℤ × Cursor :=
  match hexToNumber token with
  | some value => (value, cursor)
  | none => (-1, { cursor with lastOk := false })

/-- The common part of the functions that pop a number; `result` is what they
return for it, given `lastOk`. -/
def popNumber (result : Bool → ℤ → Option ℤ) : Popped ℤ :=
  match cursor.tokens with
  | front :: token :: rest =>
    if front = tag then
      let (value, cursor) := Cursor.toNumber { cursor with tokens := rest } token
      (result cursor.lastOk value, cursor)
    else (none, cursor)
  | _ => (none, cursor)

/-- `pop_fid` and `pop_offset`. -/
def popFid : Popped ℤ :=
  cursor.popNumber tag fun _ value => if value ≠ -1 then some value else none

/-- `pop_size`, whose result is unsigned and compared with a 32 bit number. -/
def popSize : Popped ℤ :=
  cursor.popNumber tag fun _ value =>
    if value % 2 ^ 64 ≠ 2 ^ 32 - 1 then some (value % 2 ^ 64) else none

/-- `pop_short`. -/
def popShort : Popped ℤ :=
  cursor.popNumber tag fun _ value =>
    if value.bmod (2 ^ 16) ≠ -1 then some (value.bmod (2 ^ 16)) else none

/-- `pop_num`. -/
def popNum : Popped ℤ :=
  cursor.popNumber tag fun lastOk value => if lastOk then some value else none

/-- `pop_time`. -/
def popTime : Popped ℤ :=
  match cursor.tokens with
  | front :: sec :: usec :: rest =>
    if front = tag then
      let (sec, cursor) := Cursor.toNumber { cursor with tokens := rest } sec
      let (usec, cursor) := cursor.toNumber usec
      (if sec ≠ -1 ∧ 0 ≤ usec ∧ usec ≤ microseconds then
        some (wrap64 (sec * microseconds + usec))
      else none, cursor)
    else (none, cursor)
  | _ => (none, cursor)

/-- `pop_name`; the name of the root shows as two empty tokens. -/
def popName : Popped Name :=
  match cursor.tokens with
  | front :: name :: rest =>
    if front = tag then
      if name ≠ [] then (some name, { cursor with tokens := rest })
      else
        match rest with
        | [] :: rest => (some ['/'], { cursor with tokens := rest })
        | _ => (none, { cursor with tokens := rest })
    else (none, cursor)
  | _ => (none, cursor)

/-- `pop_path`: the tokens up to an empty one, which stays. -/
def popPath : Popped Name :=
  match cursor.tokens with
  | front :: token :: rest =>
    if front = tag then
      let path := Text.record '/' (token :: rest.takeWhile fun token => token ≠ [])
      (if path ≠ [] then some path else none,
        { cursor with tokens := rest.dropWhile fun token => token ≠ [] })
    else (none, cursor)
  | _ => (none, cursor)

end Cursor

/-! ## Numbers are read back -/

theorem not_mem_showInt {char : Char} (hchar : Text.digitValue char = none) (width : ℕ)
    (value : ℤ) : char ∉ showInt width value :=
  Text.not_mem_toDigits hchar _

theorem hexToNumber_eq_readHex {token : Name} (hne : token ≠ []) (hminus : '-' ∉ token)
    (hplus : '+' ∉ token) : hexToNumber token = readHex token := by
  cases token with
  | nil => exact absurd rfl hne
  | cons char rest =>
    rw [List.mem_cons, not_or] at hminus hplus
    rw [hexToNumber]
    · exact hne
    · intro digits heq
      exact hminus.1 (List.cons.inj heq).1.symm
    · intro digits heq
      exact hplus.1 (List.cons.inj heq).1.symm

variable {width : ℕ}

theorem length_showInt_le (hwidth : width ≤ 64) (value : ℤ) :
    (showInt width value).length ≤ 16 := by
  rw [showInt, Nat.length_toDigits_le_iff (by decide) (by decide)]
  have hpow : (2 : ℤ) ^ width ≤ 2 ^ 64 := pow_le_pow_right₀ (by decide) hwidth
  omega

theorem hexToNumber_showInt (hwidth : width ≤ 64) (value : ℤ) :
    hexToNumber (showInt width value) = some (wrap64 (value % 2 ^ width)) := by
  have hnonneg : 0 ≤ value % 2 ^ width := Int.emod_nonneg _ (by positivity)
  have hlength : ¬ 16 < (showInt width value).length :=
    not_lt.mpr (length_showInt_le hwidth value)
  have hne : showInt width value ≠ [] := Nat.toDigits_ne_nil
  rw [hexToNumber_eq_readHex hne (not_mem_showInt rfl _ _) (not_mem_showInt rfl _ _), readHex,
    if_neg hlength, showInt, Text.readDigits_toDigits, Option.map_some, Int.toNat_of_nonneg hnonneg]

/-- A number of 64 bits. -/
def Fits64 (value : ℤ) : Prop := -2 ^ 63 ≤ value ∧ value < 2 ^ 63

instance (value : ℤ) : Decidable (Fits64 value) := inferInstanceAs (Decidable (_ ∧ _))

theorem hexToNumber_showInt64 {value : ℤ} (hvalue : Fits64 value) :
    hexToNumber (showInt 64 value) = some value := by
  have hmod : wrap64 (value % 2 ^ 64) = wrap64 value := Int.emod_bmod value (2 ^ 64)
  rw [hexToNumber_showInt le_rfl, hmod, wrap64_of_bounds hvalue.1 hvalue.2]

theorem hexToNumber_showInt_of_nonneg (hwidth : width < 64) {value : ℤ} (hnonneg : 0 ≤ value)
    (hsmall : value < 2 ^ width) :
    hexToNumber (showInt width value) = some value := by
  have hpow : (2 : ℤ) ^ width ≤ 2 ^ 63 := pow_le_pow_right₀ (by decide) (by omega)
  rw [hexToNumber_showInt hwidth.le, Int.emod_eq_of_lt hnonneg hsmall,
    wrap64_of_bounds (by omega) (by omega)]

/-! ## Fields are read back -/

@[simp]
theorem Popped.required_some {α β : Type} (value : α) (cursor : Cursor)
    (rest : α → Cursor → Option β) :
    Popped.required (some value, cursor) rest = rest value cursor := rfl

namespace Cursor

variable {tag token : Name} {rest : List Name} {lastOk : Bool} {value : ℤ}

section

variable (htoken : hexToNumber token = some value)

include htoken

theorem popNumber_cons {result : Bool → ℤ → Option ℤ} :
    popNumber ⟨tag :: token :: rest, lastOk⟩ tag result =
      (result lastOk value, ⟨rest, lastOk⟩) := by
  simp [popNumber, toNumber, htoken]

theorem popFid_cons :
    popFid ⟨tag :: token :: rest, lastOk⟩ tag =
      (if value ≠ -1 then some value else none, ⟨rest, lastOk⟩) :=
  popNumber_cons htoken

theorem popNum_cons :
    popNum ⟨tag :: token :: rest, true⟩ tag = (some value, ⟨rest, true⟩) :=
  popNumber_cons htoken

theorem popShort_cons :
    popShort ⟨tag :: token :: rest, lastOk⟩ tag =
      (if value.bmod (2 ^ 16) ≠ -1 then some (value.bmod (2 ^ 16)) else none, ⟨rest, lastOk⟩) :=
  popNumber_cons htoken

end

theorem popFid_showInt (hvalue : Fits64 value) (hne : value ≠ -1) :
    popFid ⟨tag :: showInt 64 value :: rest, lastOk⟩ tag = (some value, ⟨rest, lastOk⟩) := by
  rw [popFid_cons (hexToNumber_showInt64 hvalue), if_pos hne]

theorem popNum_showInt (hwidth : width < 64) (hnonneg : 0 ≤ value) (hsmall : value < 2 ^ width) :
    popNum ⟨tag :: showInt width value :: rest, true⟩ tag = (some value, ⟨rest, true⟩) :=
  popNum_cons (hexToNumber_showInt_of_nonneg hwidth hnonneg hsmall)

/-- The seconds and microseconds that `pop_time` takes for a time. -/
def TimeReadable (time : ℤ) : Prop := 0 ≤ time ∨ microseconds ∣ time ∧ time ≠ -microseconds

instance (time : ℤ) : Decidable (TimeReadable time) := inferInstanceAs (Decidable (_ ∨ _))

/-- Seconds and microseconds of a time have its sign. -/
theorem tdiv_tmod_microseconds (time : ℤ) :
    microseconds * time.tdiv microseconds + time.tmod microseconds = time ∧
      (0 ≤ time → 0 ≤ time.tmod microseconds) ∧ (time ≤ 0 → time.tmod microseconds ≤ 0) ∧
      -microseconds < time.tmod microseconds ∧ time.tmod microseconds < microseconds := by
  have hpos : 0 < microseconds := by decide
  have hnonpos : time ≤ 0 → time.tmod microseconds ≤ 0 := by
    intro htime
    have hneg := Int.tmod_nonneg microseconds (neg_nonneg.mpr htime)
    rw [Int.neg_tmod] at hneg
    omega
  have hlow := Int.tmod_lt_of_pos (-time) hpos
  rw [Int.neg_tmod] at hlow
  exact ⟨Int.mul_tdiv_add_tmod _ _, Int.tmod_nonneg _, hnonpos, by omega,
    Int.tmod_lt_of_pos _ hpos⟩

theorem timeReadable_iff (time : ℤ) :
    TimeReadable time ↔ time.tdiv microseconds ≠ -1 ∧ 0 ≤ time.tmod microseconds ∧
      time.tmod microseconds ≤ microseconds := by
  obtain ⟨hsum, hnonneg, hnonpos, hlow, hhigh⟩ := tdiv_tmod_microseconds time
  rw [TimeReadable]
  rw [microseconds] at *
  omega

theorem popTime_showTime {time : ℤ} (htime : Fits64 time) :
    popTime ⟨tag :: showTime time ++ rest, lastOk⟩ tag =
      (if TimeReadable time then some time else none, ⟨rest, lastOk⟩) := by
  obtain ⟨hsum, -, -, hlow, hhigh⟩ := tdiv_tmod_microseconds time
  obtain ⟨hmin, hmax⟩ := htime
  have hsec : Fits64 (time.tdiv microseconds) := by
    rw [Fits64]
    rw [microseconds] at *
    omega
  have husec : Fits64 (time.tmod microseconds) := by
    rw [Fits64]
    rw [microseconds] at *
    omega
  simp only [showTime, List.cons_append, List.nil_append, popTime, if_true, toNumber,
    hexToNumber_showInt64 hsec, hexToNumber_showInt64 husec, ← timeReadable_iff]
  rw [mul_comm, hsum, wrap64_of_bounds hmin hmax]

end Cursor

/-! ## Lines of a log -/

/-- A field that the tokenizer returns as it was written. -/
@[mk_iff]
structure Plain (field : Name) : Prop where
  noSlash : '/' ∉ field
  noNewline : '\n' ∉ field
  short : field.length ≤ 2 ^ 12

instance (field : Name) : Decidable (Plain field) := decidable_of_iff' _ (plain_iff field)

theorem plain_showInt (hwidth : width ≤ 64) (value : ℤ) :
    Plain (showInt width value) where
  noSlash := not_mem_showInt rfl _ _
  noNewline := not_mem_showInt rfl _ _
  short := (length_showInt_le hwidth value).trans (by decide)

theorem plain_showTime (time : ℤ) : ∀ field ∈ showTime time, Plain field := by
  simp [showTime, plain_showInt]

theorem lines_entry {fields : List Name} (hfields : ∀ field ∈ fields, '\n' ∉ field)
    (hne : Text.record '/' fields ≠ []) (rest : Name) :
    Text.lines '\n' (entry fields ++ rest) =
      Text.record '/' fields :: Text.lines '\n' rest := by
  rw [entry, List.append_assoc, List.singleton_append, Text.lines_append _ hne]
  intro hmem
  rcases Text.mem_record hmem with hslash | ⟨field, hfield, hchar⟩
  · exact absurd hslash (by decide)
  · exact hfields field hfield hchar

end QfsRepair.Meta
