import Mathlib.Data.BitVec
import Mathlib.Data.ZMod.Basic
import Mathlib.Tactic.LinearCombination

/-!
# The Adler-32 checksum

The checksum keeps two sums modulo the largest prime below `2 ^ 16`: the sum of
the bytes, and the sum of all the sums so far.  Both depend on the start of the
computation linearly, so the checksum of a joined text is a function of the
checksums of its parts and the length of the second one.
-/

namespace QfsRepair.Adler32

/-- The largest prime below `2 ^ 16`. -/
def base : ℕ := 65521

/-- The two sums of a checksum. -/
def sums (chksum : BitVec 32) : ℕ × ℕ := (chksum.toNat % 2 ^ 16, chksum.toNat / 2 ^ 16)

def ofSums (sums : ℕ × ℕ) : BitVec 32 := BitVec.ofNat 32 (sums.2 * 2 ^ 16 + sums.1)

def addByte (sums : ℕ × ℕ) (byte : BitVec 8) : ℕ × ℕ :=
  ((sums.1 + byte.toNat) % base, (sums.2 + (sums.1 + byte.toNat) % base) % base)

/-- The checksum continued over more bytes. -/
def adler32 (chksum : BitVec 32) (bytes : List (BitVec 8)) : BitVec 32 :=
  ofSums (bytes.foldl addByte (sums chksum))

/-! ## The two sums -/

section

variable (chksum : BitVec 32)

theorem sums_lt : (sums chksum).1 < 2 ^ 16 ∧ (sums chksum).2 < 2 ^ 16 := by
  have hlt := chksum.isLt
  constructor
  · exact Nat.mod_lt _ (by decide)
  · exact Nat.div_lt_of_lt_mul hlt

theorem sums_ofSums {pair : ℕ × ℕ} (hfirst : pair.1 < 2 ^ 16) (hsecond : pair.2 < 2 ^ 16) :
    sums (ofSums pair) = pair := by
  have hnat : (ofSums pair).toNat = pair.2 * 2 ^ 16 + pair.1 := by
    rw [ofSums, BitVec.toNat_ofNat]
    exact Nat.mod_eq_of_lt (by omega)
  rw [sums]
  ext
  · omega
  · omega

@[simp]
theorem ofSums_sums : ofSums (sums chksum) = chksum := by
  apply BitVec.eq_of_toNat_eq
  have hlt := chksum.isLt
  rw [ofSums, sums, BitVec.toNat_ofNat, Nat.div_add_mod', Nat.mod_eq_of_lt hlt]

theorem addByte_lt (pair : ℕ × ℕ) (byte : BitVec 8) :
    (addByte pair byte).1 < base ∧ (addByte pair byte).2 < base :=
  ⟨Nat.mod_lt _ (by decide), Nat.mod_lt _ (by decide)⟩

/-- A bound that holds at the start and for reduced sums holds at the end. -/
theorem foldl_addByte_lt {bound : ℕ} (hbound : base ≤ bound) (bytes : List (BitVec 8))
    {pair : ℕ × ℕ} (hpair : pair.1 < bound ∧ pair.2 < bound) :
    (bytes.foldl addByte pair).1 < bound ∧ (bytes.foldl addByte pair).2 < bound := by
  induction bytes generalizing pair with
  | nil => exact hpair
  | cons byte bytes ih =>
    obtain ⟨hfirst, hsecond⟩ := addByte_lt pair byte
    exact ih ⟨hfirst.trans_le hbound, hsecond.trans_le hbound⟩

theorem sums_adler32 (bytes : List (BitVec 8)) :
    sums (adler32 chksum bytes) = bytes.foldl addByte (sums chksum) := by
  obtain ⟨hfirst, hsecond⟩ := @foldl_addByte_lt (2 ^ 16) (by decide) bytes _ (sums_lt chksum)
  exact sums_ofSums hfirst hsecond

@[simp]
theorem adler32_nil : adler32 chksum [] = chksum := ofSums_sums chksum

/-- The checksum of a joined text continues the one of its first part. -/
theorem adler32_append (front back : List (BitVec 8)) :
    adler32 chksum (front ++ back) = adler32 (adler32 chksum front) back := by
  rw [adler32, List.foldl_append, ← sums_adler32]
  rfl

end

/-- The sums of a text are reduced. -/
theorem sums_adler32_lt (bytes : List (BitVec 8)) :
    (sums (adler32 1 bytes)).1 < base ∧ (sums (adler32 1 bytes)).2 < base := by
  rw [sums_adler32]
  exact foldl_addByte_lt le_rfl bytes (by decide)

/-! ## Combination -/

theorem cast_addByte_fst (pair : ℕ × ℕ) (byte : BitVec 8) :
    ((addByte pair byte).1 : ZMod base) = pair.1 + byte.toNat := by
  simp [addByte]

theorem cast_addByte_snd (pair : ℕ × ℕ) (byte : BitVec 8) :
    ((addByte pair byte).2 : ZMod base) = pair.2 + (pair.1 + byte.toNat) := by
  simp [addByte]

/-- Two computations over the same bytes differ by what they started with. -/
theorem foldl_addByte_linear (bytes : List (BitVec 8)) (left right : ℕ × ℕ) :
    ((bytes.foldl addByte left).1 + right.1 : ZMod base) =
        (bytes.foldl addByte right).1 + left.1 ∧
      ((bytes.foldl addByte left).2 + right.2 + bytes.length * right.1 : ZMod base) =
        (bytes.foldl addByte right).2 + left.2 + bytes.length * left.1 := by
  induction bytes generalizing left right with
  | nil => simp [add_comm]
  | cons byte bytes ih =>
    obtain ⟨hfirst, hsecond⟩ := ih (addByte left byte) (addByte right byte)
    rw [cast_addByte_fst, cast_addByte_fst] at hfirst
    rw [cast_addByte_fst, cast_addByte_fst, cast_addByte_snd, cast_addByte_snd] at hsecond
    rw [List.foldl_cons, List.foldl_cons, List.length_cons, Nat.cast_add]
    constructor
    · linear_combination hfirst
    · linear_combination hsecond

/-- Reduced sums are determined by their residues. -/
theorem eq_of_cast_eq {left right : ℕ} (hleft : left < base) (hright : right < base)
    (hcast : (left : ZMod base) = right) : left = right := by
  have hmod := (ZMod.natCast_eq_natCast_iff' left right base).mp hcast
  rwa [Nat.mod_eq_of_lt hleft, Nat.mod_eq_of_lt hright] at hmod

/-- The sums of a joined text, from the sums of its parts. -/
theorem sums_adler32_append {front back : List (BitVec 8)} {first second : ℕ}
    (hfirst : first < base) (hsecond : second < base)
    (hcastFirst : (first : ZMod base) = (sums (adler32 1 front)).1 + (sums (adler32 1 back)).1 - 1)
    (hcastSecond : (second : ZMod base) = back.length * (sums (adler32 1 front)).1 +
      (sums (adler32 1 front)).2 + (sums (adler32 1 back)).2 - back.length) :
    ofSums (first, second) = adler32 1 (front ++ back) := by
  obtain ⟨hsum, hweighted⟩ := foldl_addByte_linear back (sums (adler32 1 front)) (sums 1)
  rw [← sums_adler32, ← sums_adler32, ← adler32_append,
    show sums 1 = (1, 0) from rfl] at hsum hweighted
  obtain ⟨hfirstLt, hsecondLt⟩ := sums_adler32_lt (front ++ back)
  rw [eq_of_cast_eq hfirst hfirstLt (by linear_combination hcastFirst - hsum),
    eq_of_cast_eq hsecond hsecondLt (by linear_combination hcastSecond - hweighted)]
  exact ofSums_sums _

end QfsRepair.Adler32
