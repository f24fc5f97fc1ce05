import QfsRepair.Striping.Layout
import Mathlib.Tactic.Linarith

/-!
# The contents of the chunks of a striped file

Each place of a chunk block belongs to a data chunk and an offset in it.  A file
of a given length fills a front part of every data chunk; the recovery chunks
reach as far as the first data chunk and hold the code of the data, padded with
zeros.
-/

namespace QfsRepair.Striping

/-- The stream with zeros from `length` on. -/
def truncate {Value : Type*} [Zero Value] (stream : ℕ → Value) (length : ℕ) : ℕ → Value :=
  fun position => if position < length then stream position else 0

namespace Layout

variable (layout : Layout)

/-- Bytes of a stride. -/
def strideSize : ℕ := layout.stripeSize * layout.stripeCount

/-- The place in the chunk block of an offset of a data chunk. -/
def place (index chunkOffset : ℕ) : ℕ :=
  chunkOffset / layout.stripeSize * layout.strideSize + index * layout.stripeSize +
    chunkOffset % layout.stripeSize

/-- The logical position of an offset of a data chunk. -/
def positionAt (block index chunkOffset : ℕ) : ℕ :=
  block * layout.blockSize + layout.place index chunkOffset

/-- The address of a chunk. -/
def chunkStart (block index : ℕ) : ℕ :=
  (block * (layout.stripeCount + layout.recoveryCount) + index) * layout.chunkSize

/-- How much of a data chunk the first `length` places of its chunk block
fill. -/
def stripeLength (length index : ℕ) : ℕ :=
  length / layout.strideSize * layout.stripeSize +
    min layout.stripeSize (length % layout.strideSize - index * layout.stripeSize)

theorem strideSize_pos : 0 < layout.strideSize :=
  Nat.mul_pos layout.stripeSize_pos layout.stripeCount_pos

theorem blockSize_eq_strides : layout.blockSize = layout.strideSize * layout.strides := rfl

variable {layout} {index : ℕ}

section

variable (hindex : index < layout.stripeCount)

include hindex

theorem index_mul_add_le :
    index * layout.stripeSize + layout.stripeSize ≤ layout.strideSize := by
  rw [strideSize, mul_comm layout.stripeSize]
  exact mul_add_le_of_lt hindex _

theorem index_mul_add_lt {offset : ℕ} (hoffset : offset < layout.stripeSize) :
    index * layout.stripeSize + offset < layout.strideSize :=
  (Nat.add_lt_add_left hoffset _).trans_le (index_mul_add_le hindex)

omit hindex in
/-- Numbers in one base are compared by their digits. -/
theorem digits_lt_iff {base left right : ℕ} (low high : ℕ) (hleft : left < base)
    (hright : right < base) :
    low * base + left < high * base + right ↔ low < high ∨ low = high ∧ left < right := by
  rcases Nat.lt_trichotomy low high with hlt | heq | hgt
  · have hstep := mul_add_le_of_lt hlt base
    constructor <;> intro <;> omega
  · subst heq
    omega
  · have hstep := mul_add_le_of_lt hgt base
    constructor <;> intro <;> omega

/-- A file fills the front of a data chunk. -/
theorem place_lt_iff (length chunkOffset : ℕ) :
    layout.place index chunkOffset < length ↔ chunkOffset < layout.stripeLength length index := by
  have hoffset := Nat.mod_lt chunkOffset layout.stripeSize_pos
  have hhead := Nat.mod_lt length layout.strideSize_pos
  have hplace := digits_lt_iff (chunkOffset / layout.stripeSize) (length / layout.strideSize)
    (index_mul_add_lt hindex hoffset) hhead
  rw [Nat.div_add_mod', ← add_assoc] at hplace
  rw [place, hplace, stripeLength]
  conv_rhs => rw [← Nat.div_add_mod' chunkOffset layout.stripeSize]
  rcases Nat.lt_trichotomy (chunkOffset / layout.stripeSize) (length / layout.strideSize) with
    hlt | heq | hgt
  · have hstep := mul_add_le_of_lt hlt layout.stripeSize
    exact iff_of_true (.inl hlt) (by omega)
  · rw [heq]
    omega
  · have hstep := mul_add_le_of_lt hgt layout.stripeSize
    exact iff_of_false (by omega) (by omega)

/-- The front part in strides and the rest of a stride, which may be a full
one. -/
theorem stripeLength_eq (strides : ℕ) {head : ℕ} (hhead : head ≤ layout.strideSize) :
    layout.stripeLength (strides * layout.strideSize + head) index =
      strides * layout.stripeSize +
        min layout.stripeSize (head - index * layout.stripeSize) := by
  rcases hhead.lt_or_eq with hlt | rfl
  · rw [stripeLength, mul_comm strides layout.strideSize, Nat.mul_add_div layout.strideSize_pos,
      Nat.mul_add_mod, Nat.div_eq_of_lt hlt, Nat.mod_eq_of_lt hlt, add_zero]
  · have hrow := index_mul_add_le hindex
    have hsum : strides * layout.strideSize + layout.strideSize =
        layout.strideSize * (strides + 1) := by ring
    rw [hsum, stripeLength, Nat.mul_div_cancel_left _ layout.strideSize_pos, Nat.mul_mod_right,
      add_mul]
    omega

theorem stripeLength_strides (strides : ℕ) :
    layout.stripeLength (strides * layout.strideSize) index = strides * layout.stripeSize := by
  simpa using stripeLength_eq hindex strides (Nat.zero_le layout.strideSize)

theorem stripeLength_mono {length length' : ℕ} (hle : length ≤ length') :
    layout.stripeLength length index ≤ layout.stripeLength length' index := by
  by_contra hgt
  have hplace := (place_lt_iff hindex length (layout.stripeLength length' index)).mpr (by omega)
  exact absurd ((place_lt_iff hindex length' _).mp (hplace.trans_le hle)) (lt_irrefl _)

/-- Data that stays within a stripe goes to the chunk of that stripe. -/
theorem stripeLength_add {length amount : ℕ}
    (hamount : layout.offset length + amount ≤ layout.stripeSize) :
    layout.stripeLength (length + amount) index = layout.stripeLength length index +
      if index = layout.index length then amount else 0 := by
  have hstripe := layout.index_lt length
  have hdigits : length = length / layout.strideSize * layout.strideSize +
      (layout.index length * layout.stripeSize + layout.offset length) := by
    have hsplit := Nat.div_add_mod' length layout.stripeSize
    have hrow := Nat.div_add_mod' (length / layout.stripeSize) layout.stripeCount
    rw [strideSize, ← Nat.div_div_eq_div_mul, offset, Layout.index]
    calc
      length = (length / layout.stripeSize / layout.stripeCount * layout.stripeCount +
          length / layout.stripeSize % layout.stripeCount) * layout.stripeSize +
            length % layout.stripeSize := by rw [hrow, hsplit]
      _ = _ := by ring
  have hhead : layout.index length * layout.stripeSize + layout.offset length + amount ≤
      layout.strideSize := by
    have hrow := index_mul_add_le hstripe
    omega
  generalize length / layout.strideSize = strides at hdigits
  generalize layout.index length = current at *
  rw [hdigits, add_assoc, stripeLength_eq hindex strides hhead,
    stripeLength_eq hindex strides (by omega)]
  rcases Nat.lt_trichotomy index current with hlt | rfl | hgt
  · have hrow := mul_add_le_of_lt hlt layout.stripeSize
    rw [if_neg hlt.ne]
    omega
  · rw [if_pos rfl]
    omega
  · have hrow := mul_add_le_of_lt hgt layout.stripeSize
    rw [if_neg hgt.ne']
    omega

end

/-! ## Positions and addresses -/

/-- The offset in its chunk of a logical position. -/
def chunkOffset (layout : Layout) (position : ℕ) : ℕ :=
  layout.stride position * layout.stripeSize + layout.offset position

theorem positionAt_chunkOffset (position : ℕ) :
    layout.positionAt (layout.block position) (layout.index position)
      (layout.chunkOffset position) = position := by
  have hoffset := layout.offset_lt position
  have hdiv : layout.chunkOffset position / layout.stripeSize = layout.stride position := by
    rw [chunkOffset, mul_comm, Nat.mul_add_div layout.stripeSize_pos,
      Nat.div_eq_of_lt hoffset, add_zero]
  have hmod : layout.chunkOffset position % layout.stripeSize = layout.offset position := by
    rw [chunkOffset, mul_comm, Nat.mul_add_mod, Nat.mod_eq_of_lt hoffset]
  conv_rhs => rw [← layout.block_mul_add position]
  rw [positionAt, place, hdiv, hmod, blockPosition, strideSize]
  ring

theorem address_eq_chunkStart (position : ℕ) :
    layout.address position =
      layout.chunkStart (layout.block position) (layout.index position) +
        layout.chunkOffset position := by
  rw [address_eq, chunkStart, chunkOffset]
  ring

/-- Every address belongs to a chunk. -/
theorem exists_chunkStart (layout : Layout) (address : ℕ) :
    ∃ block index chunkOffset, index < layout.stripeCount + layout.recoveryCount ∧
      chunkOffset < layout.chunkSize ∧ address = layout.chunkStart block index + chunkOffset := by
  refine ⟨address / layout.chunkSize / (layout.stripeCount + layout.recoveryCount),
    address / layout.chunkSize % (layout.stripeCount + layout.recoveryCount),
    address % layout.chunkSize, Nat.mod_lt _ (Nat.add_pos_left layout.stripeCount_pos _),
    Nat.mod_lt _ layout.chunkSize_pos, ?_⟩
  rw [chunkStart, Nat.div_add_mod', Nat.div_add_mod']

/-! ## Expected contents -/

variable {Value : Type*} [Zero Value]

/-- One byte of every data stripe of a chunk block. -/
def column (layout : Layout) (stream : ℕ → Value) (block chunkOffset : ℕ) : ℕ → Value :=
  fun index =>
    if index < layout.stripeCount then stream (layout.positionAt block index chunkOffset) else 0

/-- The contents of one chunk when the first `length` bytes of the stream are
stored: a data chunk holds its part of the stream, a recovery chunk the code of
the data padded with zeros. -/
def chunkContents (layout : Layout) (encode : (ℕ → Value) → ℕ → Value) (stream : ℕ → Value)
    (length block index chunkOffset : ℕ) : Option Value :=
  if index < layout.stripeCount then
    if layout.positionAt block index chunkOffset < length then
      some (stream (layout.positionAt block index chunkOffset))
    else none
  else if layout.positionAt block 0 chunkOffset < length then
    some (encode (layout.column (truncate stream length) block chunkOffset)
      (index - layout.stripeCount))
  else none

/-- The contents at every address. -/
def storedContents (layout : Layout) (encode : (ℕ → Value) → ℕ → Value) (stream : ℕ → Value)
    (length : ℕ) (address : ℤ) : Option Value :=
  if address < 0 then none
  else
    let chunk := address.toNat / layout.chunkSize
    layout.chunkContents encode stream length
      (chunk / (layout.stripeCount + layout.recoveryCount))
      (chunk % (layout.stripeCount + layout.recoveryCount)) (address.toNat % layout.chunkSize)

theorem storedContents_chunkStart (encode : (ℕ → Value) → ℕ → Value) (stream : ℕ → Value)
    (length block : ℕ) {chunkOffset : ℕ}
    (hindex : index < layout.stripeCount + layout.recoveryCount)
    (hoffset : chunkOffset < layout.chunkSize) :
    layout.storedContents encode stream length
        (layout.chunkStart block index + chunkOffset : ℕ) =
      layout.chunkContents encode stream length block index chunkOffset := by
  have hdiv : (layout.chunkStart block index + chunkOffset) / layout.chunkSize =
      block * (layout.stripeCount + layout.recoveryCount) + index := by
    rw [chunkStart, mul_comm, Nat.mul_add_div layout.chunkSize_pos,
      Nat.div_eq_of_lt hoffset, add_zero]
  have hmod : (layout.chunkStart block index + chunkOffset) % layout.chunkSize = chunkOffset := by
    rw [chunkStart, mul_comm, Nat.mul_add_mod, Nat.mod_eq_of_lt hoffset]
  have hpos : 0 < layout.stripeCount + layout.recoveryCount :=
    Nat.add_pos_left layout.stripeCount_pos _
  rw [storedContents, if_neg (by omega)]
  simp only [Int.toNat_natCast, hdiv, hmod]
  rw [mul_comm, Nat.mul_add_div hpos, Nat.div_eq_of_lt hindex, Nat.mul_add_mod,
    Nat.mod_eq_of_lt hindex, add_zero]

end Layout

end QfsRepair.Striping
