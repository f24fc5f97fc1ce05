import Mathlib.Data.BitVec
import Mathlib.Data.Int.ModEq
import Mathlib.Tactic.Ring

/-!
# Integers as bytes

The low bytes of an integer, least or most significant byte first, and the loop
that shifts bytes back into a machine word.  An integer is taken with its sign,
so that shifting it right is what the machine does for signed and for unsigned
types; what comes back is the integer modulo the size of the word.
-/

namespace QfsRepair.Machine.ByteOrder

/-- The low bytes of an integer, the least significant one first. -/
def littleEndian : ℕ → ℤ → List (BitVec 8)
  | 0, _ => []
  | size + 1, value => BitVec.ofInt 8 value :: littleEndian size (value >>> (8 : ℕ))

/-- The low bytes of an integer, the most significant one first. -/
def bigEndian (size : ℕ) (value : ℤ) : List (BitVec 8) := (littleEndian size value).reverse

/-- Some bits shifted into a word from the right. -/
def shiftIn {width size : ℕ} (word : BitVec width) (bits : BitVec size) : BitVec width :=
  word <<< size ||| bits.setWidth width

def readWord (width : ℕ) (bytes : List (BitVec 8)) : BitVec width := bytes.foldl shiftIn 0

@[simp]
theorem length_littleEndian (size : ℕ) (value : ℤ) : (littleEndian size value).length = size := by
  induction size generalizing value with
  | zero => rfl
  | succ size ih => rw [littleEndian, List.length_cons, ih]

@[simp]
theorem length_bigEndian (size : ℕ) (value : ℤ) : (bigEndian size value).length = size := by
  rw [bigEndian, List.length_reverse, length_littleEndian]

theorem toNat_shiftIn {width size : ℕ} (word : BitVec width) (bits : BitVec size) :
    (shiftIn word bits).toNat = (word.toNat * 2 ^ size + bits.toNat) % 2 ^ width := by
  have hbits := bits.isLt
  rw [shiftIn, BitVec.toNat_or, BitVec.toNat_shiftLeft, BitVec.toNat_setWidth,
    ← Nat.or_mod_two_pow, ← Nat.shiftLeft_add_eq_or_of_lt hbits, Nat.shiftLeft_eq]

/-- Shifting bits in is a multiplication and an addition. -/
theorem shiftIn_ofInt {width size : ℕ} (value : ℤ) (bits : BitVec size) :
    shiftIn (BitVec.ofInt width value) bits =
      BitVec.ofInt width (value * 2 ^ size + bits.toNat) := by
  apply BitVec.eq_of_toNat_eq
  have hpos : (0 : ℤ) < 2 ^ width := Int.pow_pos (by decide)
  rw [toNat_shiftIn, BitVec.toNat_ofInt, BitVec.toNat_ofInt]
  apply Int.ofNat_inj.mp
  push_cast
  rw [Int.toNat_of_nonneg (Int.emod_nonneg _ hpos.ne'),
    Int.toNat_of_nonneg (Int.emod_nonneg _ hpos.ne')]
  exact ((Int.mod_modEq value (2 ^ width)).mul_right (2 ^ size)).add_right (bits.toNat : ℤ)

/-- The low bytes of an integer, as a number. -/
theorem emod_succ_bytes (value : ℤ) (size : ℕ) :
    value % (2 : ℤ) ^ (8 * (size + 1)) =
      (value >>> (8 : ℕ)) % (2 : ℤ) ^ (8 * size) * 2 ^ 8 + (BitVec.ofInt 8 value).toNat := by
  have hpow : (2 : ℤ) ^ (8 * (size + 1)) = 2 ^ 8 * 2 ^ (8 * size) := by ring
  have hbyte : ((BitVec.ofInt 8 value).toNat : ℤ) = value % 2 ^ 8 := by
    rw [BitVec.toNat_ofInt, Int.toNat_of_nonneg (Int.emod_nonneg _ (by decide))]
    rfl
  have hdiv : value / (2 ^ 8 * 2 ^ (8 * size)) = value / 2 ^ 8 / 2 ^ (8 * size) :=
    (Int.ediv_ediv_of_nonneg (by decide)).symm
  rw [hpow, Int.shiftRight_eq_div_pow, hbyte, Int.emod_def, Int.emod_def, Int.emod_def, hdiv]
  push_cast
  ring

/-- Reading the bytes of an integer gives the integer modulo what they hold. -/
theorem readWord_bigEndian_emod (width size : ℕ) (value : ℤ) :
    readWord width (bigEndian size value) = BitVec.ofInt width (value % 2 ^ (8 * size)) := by
  rw [readWord, bigEndian, List.foldl_reverse]
  induction size generalizing value with
  | zero => simp [littleEndian]
  | succ size ih =>
    rw [littleEndian, List.foldr_cons, ih, shiftIn_ofInt, ← emod_succ_bytes]

/-- A word of as many bytes holds all of the integer that it can. -/
theorem readWord_bigEndian {width size : ℕ} (hwidth : width = 8 * size) (value : ℤ) :
    readWord width (bigEndian size value) = BitVec.ofInt width value := by
  rw [readWord_bigEndian_emod, ← hwidth]
  apply BitVec.eq_of_toNat_eq
  rw [BitVec.toNat_ofInt, BitVec.toNat_ofInt]
  push_cast
  rw [Int.emod_emod]

/-- Words with the same bytes are the same. -/
theorem littleEndian_toInt_inj {width size : ℕ} (hwidth : width = 8 * size)
    {left right : BitVec width}
    (hbytes : littleEndian size left.toInt = littleEndian size right.toInt) : left = right := by
  have hread := congrArg (fun bytes => readWord width bytes.reverse) hbytes
  change readWord width (bigEndian size left.toInt) =
    readWord width (bigEndian size right.toInt) at hread
  rwa [readWord_bigEndian hwidth, readWord_bigEndian hwidth, BitVec.ofInt_toInt,
    BitVec.ofInt_toInt] at hread

end QfsRepair.Machine.ByteOrder
