import Mathlib.Data.Nat.ModEq
import Mathlib.Tactic.Ring

/-!
# Striped layouts

A striped file is dealt out to the data chunks of a chunk block stripe by
stripe: one stripe to every data chunk makes a stride, and when the chunks are
full the next chunk block follows, after the block's recovery chunks.  In
digits, a logical position counts blocks, strides, stripes of the stride
and bytes of the stripe, in this order; its address counts blocks, chunks,
strides and bytes.
-/

namespace QfsRepair.Striping

/-- The sizes of a layout; a chunk holds `strides` stripes. -/
structure Layout where
  stripeSize : ℕ
  strides : ℕ
  stripeCount : ℕ
  recoveryCount : ℕ
  stripeSize_pos : 0 < stripeSize
  strides_pos : 0 < strides
  stripeCount_pos : 0 < stripeCount

/-! ## Carries -/

/-- Within a digit the higher digits stay. -/
theorem add_within_digit {base value amount : ℕ} (hfits : value % base + amount < base) :
    (value + amount) / base = value / base ∧
      (value + amount) % base = value % base + amount := by
  have hvalue := Nat.div_add_mod value base
  have hsum : value + amount = base * (value / base) + (value % base + amount) := by omega
  have hbase : 0 < base := by omega
  rw [hsum, Nat.mul_add_div hbase, Nat.mul_add_mod, Nat.div_eq_of_lt hfits, Nat.mod_eq_of_lt hfits]
  exact ⟨rfl, rfl⟩

/-- Filling a digit carries one to the higher digits. -/
theorem add_carries {base value amount : ℕ} (hbase : 0 < base)
    (hfull : value % base + amount = base) :
    (value + amount) / base = value / base + 1 ∧ (value + amount) % base = 0 := by
  have hvalue := Nat.div_add_mod value base
  have hsum : value + amount = base * (value / base + 1) := by
    rw [mul_add]
    omega
  rw [hsum, Nat.mul_div_cancel_left _ hbase, Nat.mul_mod_right]
  exact ⟨rfl, rfl⟩

/-- A smaller higher digit leaves room for all of the lower one. -/
theorem mul_add_le_of_lt {low high : ℕ} (hlt : low < high) (base : ℕ) :
    low * base + base ≤ high * base := by
  rw [← add_one_mul]
  exact Nat.mul_le_mul_right _ hlt

namespace Layout

variable (layout : Layout)

def chunkSize : ℕ := layout.strides * layout.stripeSize

/-- Bytes of data in a chunk block. -/
def blockSize : ℕ := layout.stripeSize * layout.stripeCount * layout.strides

/-- Bytes of a chunk block with its recovery chunks. -/
def totalSize : ℕ := (layout.stripeCount + layout.recoveryCount) * layout.chunkSize

/-! ## The digits of a position -/

def offset (position : ℕ) : ℕ := position % layout.stripeSize

def index (position : ℕ) : ℕ := position / layout.stripeSize % layout.stripeCount

def stride (position : ℕ) : ℕ :=
  position / layout.stripeSize / layout.stripeCount % layout.strides

def block (position : ℕ) : ℕ :=
  position / layout.stripeSize / layout.stripeCount / layout.strides

/-- The position within its chunk block. -/
def blockPosition (position : ℕ) : ℕ :=
  (layout.stride position * layout.stripeCount + layout.index position) *
    layout.stripeSize + layout.offset position

/-- The position in the space of all chunks, recovery chunks included. -/
def address (position : ℕ) : ℕ :=
  layout.block position * layout.totalSize + layout.index position * layout.chunkSize +
    layout.stride position * layout.stripeSize + layout.offset position

section

variable (position : ℕ)

theorem offset_lt : layout.offset position < layout.stripeSize :=
  Nat.mod_lt _ layout.stripeSize_pos

theorem index_lt : layout.index position < layout.stripeCount :=
  Nat.mod_lt _ layout.stripeCount_pos

theorem stride_lt : layout.stride position < layout.strides :=
  Nat.mod_lt _ layout.strides_pos

/-- A position is its digits put together. -/
theorem block_mul_add :
    layout.block position * layout.blockSize + layout.blockPosition position = position := by
  have hoffset := Nat.div_add_mod position layout.stripeSize
  have hindex := Nat.div_add_mod (position / layout.stripeSize) layout.stripeCount
  have hstride := Nat.div_add_mod
    (position / layout.stripeSize / layout.stripeCount) layout.strides
  calc
    layout.block position * layout.blockSize + layout.blockPosition position =
        layout.stripeSize * (layout.stripeCount *
          (layout.strides * layout.block position + layout.stride position) +
            layout.index position) + layout.offset position := by
      simp only [blockPosition, blockSize]
      ring
    _ = position := by
      simp [block, stride, index, offset, hstride, hindex, hoffset]

theorem blockPosition_lt : layout.blockPosition position < layout.blockSize := by
  have hrow : layout.stride position * layout.stripeCount + layout.index position <
      layout.strides * layout.stripeCount := by
    have hindex := layout.index_lt position
    have hstride := mul_add_le_of_lt (layout.stride_lt position) layout.stripeCount
    omega
  calc
    layout.blockPosition position <
        (layout.stride position * layout.stripeCount + layout.index position + 1) *
          layout.stripeSize := by
      rw [add_mul, one_mul]
      exact Nat.add_lt_add_left (layout.offset_lt position) _
    _ ≤ layout.strides * layout.stripeCount * layout.stripeSize :=
      Nat.mul_le_mul_right _ hrow
    _ = layout.blockSize := by
      rw [blockSize]
      ring

theorem blockSize_pos : 0 < layout.blockSize :=
  Nat.mul_pos (Nat.mul_pos layout.stripeSize_pos layout.stripeCount_pos) layout.strides_pos

theorem mod_blockSize :
    position % layout.blockSize = layout.blockPosition position := by
  conv_lhs => rw [← layout.block_mul_add position]
  rw [mul_comm, Nat.mul_add_mod, Nat.mod_eq_of_lt (layout.blockPosition_lt position)]

theorem div_blockSize :
    position / layout.blockSize = layout.block position := by
  conv_lhs => rw [← layout.block_mul_add position]
  rw [mul_comm, Nat.mul_add_div layout.blockSize_pos,
    Nat.div_eq_of_lt (layout.blockPosition_lt position), add_zero]

theorem blockPosition_div_stripeSize :
    layout.blockPosition position / layout.stripeSize =
      layout.stride position * layout.stripeCount + layout.index position := by
  rw [blockPosition, mul_comm, Nat.mul_add_div layout.stripeSize_pos,
    Nat.div_eq_of_lt (layout.offset_lt position), add_zero]

theorem blockPosition_mod_stripeSize :
    layout.blockPosition position % layout.stripeSize = layout.offset position := by
  rw [blockPosition, mul_comm, Nat.mul_add_mod, Nat.mod_eq_of_lt (layout.offset_lt position)]

theorem blockPosition_index :
    layout.blockPosition position / layout.stripeSize % layout.stripeCount =
      layout.index position := by
  rw [blockPosition_div_stripeSize, mul_comm, Nat.mul_add_mod,
    Nat.mod_eq_of_lt (layout.index_lt position)]

theorem blockPosition_stride :
    layout.blockPosition position / (layout.stripeSize * layout.stripeCount) =
      layout.stride position := by
  rw [← Nat.div_div_eq_div_mul, blockPosition_div_stripeSize, mul_comm,
    Nat.mul_add_div layout.stripeCount_pos, Nat.div_eq_of_lt (layout.index_lt position), add_zero]

/-! ## Addresses -/

/-- The place of an address within its chunk. -/
theorem chunkOffset_lt :
    layout.stride position * layout.stripeSize + layout.offset position <
      layout.chunkSize := by
  have hstride := mul_add_le_of_lt (layout.stride_lt position) layout.stripeSize
  have hoffset := layout.offset_lt position
  rw [chunkSize]
  omega

theorem chunkSize_pos : 0 < layout.chunkSize :=
  Nat.mul_pos layout.strides_pos layout.stripeSize_pos

theorem address_eq :
    layout.address position = layout.chunkSize *
        ((layout.stripeCount + layout.recoveryCount) * layout.block position +
          layout.index position) +
      (layout.stride position * layout.stripeSize + layout.offset position) := by
  simp only [address, totalSize]
  ring

theorem address_mod_chunkSize :
    layout.address position % layout.chunkSize =
      layout.stride position * layout.stripeSize + layout.offset position := by
  rw [address_eq, Nat.mul_add_mod, Nat.mod_eq_of_lt (layout.chunkOffset_lt position)]

theorem address_div_chunkSize :
    layout.address position / layout.chunkSize =
      (layout.stripeCount + layout.recoveryCount) * layout.block position +
        layout.index position := by
  rw [address_eq, Nat.mul_add_div layout.chunkSize_pos,
    Nat.div_eq_of_lt (layout.chunkOffset_lt position), add_zero]

theorem index_lt_total :
    layout.index position < layout.stripeCount + layout.recoveryCount :=
  Nat.lt_add_right _ (layout.index_lt position)

/-- The chunk an address lies in is the one of its stripe. -/
theorem address_chunk :
    layout.address position / layout.chunkSize %
      (layout.stripeCount + layout.recoveryCount) = layout.index position := by
  rw [address_div_chunkSize, Nat.mul_add_mod, Nat.mod_eq_of_lt (layout.index_lt_total position)]

theorem address_block :
    layout.address position / layout.chunkSize /
      (layout.stripeCount + layout.recoveryCount) = layout.block position := by
  rw [address_div_chunkSize, Nat.mul_add_div (Nat.add_pos_left layout.stripeCount_pos _),
    Nat.div_eq_of_lt (layout.index_lt_total position), add_zero]

end

theorem address_injective : Function.Injective layout.address := by
  intro left right heq
  have hplace : layout.stride left * layout.stripeSize + layout.offset left =
      layout.stride right * layout.stripeSize + layout.offset right := by
    rw [← address_mod_chunkSize, ← address_mod_chunkSize, heq]
  have hoffset : layout.offset left = layout.offset right := by
    have hmod := congrArg (· % layout.stripeSize) hplace
    simpa only [mul_comm _ layout.stripeSize, Nat.mul_add_mod,
      Nat.mod_eq_of_lt (layout.offset_lt _)] using hmod
  have hstride : layout.stride left = layout.stride right := by
    rw [hoffset] at hplace
    exact Nat.eq_of_mul_eq_mul_right layout.stripeSize_pos (Nat.add_right_cancel hplace)
  have hindex : layout.index left = layout.index right := by
    rw [← address_chunk, ← address_chunk, heq]
  have hblock : layout.block left = layout.block right := by
    rw [← address_block, ← address_block, heq]
  rw [← layout.block_mul_add left, ← layout.block_mul_add right]
  simp [blockPosition, hblock, hstride, hindex, hoffset]

/-- The position with the given digits. -/
def compose (block stride index offset : ℕ) : ℕ :=
  layout.stripeSize * (layout.stripeCount * (layout.strides * block + stride) + index) + offset

theorem digits_compose (block : ℕ) {stride index offset : ℕ} (hstride : stride < layout.strides)
    (hindex : index < layout.stripeCount) (hoffset : offset < layout.stripeSize) :
    layout.block (layout.compose block stride index offset) = block ∧
      layout.stride (layout.compose block stride index offset) = stride ∧
      layout.index (layout.compose block stride index offset) = index ∧
      layout.offset (layout.compose block stride index offset) = offset := by
  have hq : layout.compose block stride index offset / layout.stripeSize =
      layout.stripeCount * (layout.strides * block + stride) + index := by
    rw [compose, Nat.mul_add_div layout.stripeSize_pos, Nat.div_eq_of_lt hoffset, add_zero]
  have ht : layout.compose block stride index offset / layout.stripeSize /
      layout.stripeCount = layout.strides * block + stride := by
    rw [hq, Nat.mul_add_div layout.stripeCount_pos, Nat.div_eq_of_lt hindex, add_zero]
  refine ⟨?_, ?_, ?_, ?_⟩
  · rw [Layout.block, ht, Nat.mul_add_div layout.strides_pos, Nat.div_eq_of_lt hstride, add_zero]
  · rw [Layout.stride, ht, Nat.mul_add_mod, Nat.mod_eq_of_lt hstride]
  · rw [Layout.index, hq, Nat.mul_add_mod, Nat.mod_eq_of_lt hindex]
  · rw [Layout.offset, compose, Nat.mul_add_mod, Nat.mod_eq_of_lt hoffset]

/-- The addresses in use are those of the data chunks. -/
theorem exists_address_iff (target : ℕ) :
    (∃ position, layout.address position = target) ↔
      target / layout.chunkSize % (layout.stripeCount + layout.recoveryCount) <
        layout.stripeCount := by
  constructor
  · rintro ⟨position, rfl⟩
    rw [address_chunk]
    exact layout.index_lt position
  · intro hdata
    have hplace : target % layout.chunkSize < layout.strides * layout.stripeSize :=
      Nat.mod_lt _ layout.chunkSize_pos
    have hstride : target % layout.chunkSize / layout.stripeSize < layout.strides :=
      Nat.div_lt_of_lt_mul (by rwa [mul_comm] at hplace)
    obtain ⟨hblock, hstride, hindex, hoffset⟩ := layout.digits_compose
      (target / layout.chunkSize / (layout.stripeCount + layout.recoveryCount)) hstride hdata
      (Nat.mod_lt (target % layout.chunkSize) layout.stripeSize_pos)
    refine ⟨layout.compose (target / layout.chunkSize / (layout.stripeCount + layout.recoveryCount))
      (target % layout.chunkSize / layout.stripeSize)
      (target / layout.chunkSize % (layout.stripeCount + layout.recoveryCount))
      (target % layout.chunkSize % layout.stripeSize), ?_⟩
    rw [address_eq, hblock, hstride, hindex, hoffset, Nat.div_add_mod, Nat.div_add_mod',
      Nat.div_add_mod]

/-! ## Advancing within a stripe -/

section Advance

variable {layout} {position amount : ℕ}

theorem advance_within (hfits : layout.offset position + amount < layout.stripeSize) :
    layout.block (position + amount) = layout.block position ∧
      layout.stride (position + amount) = layout.stride position ∧
      layout.index (position + amount) = layout.index position ∧
      layout.offset (position + amount) = layout.offset position + amount := by
  obtain ⟨hdiv, hmod⟩ := add_within_digit hfits
  simp [block, stride, index, offset, hdiv, hmod, and_self]

variable (hfull : layout.offset position + amount = layout.stripeSize)

include hfull

theorem advance_stripe (hindex : layout.index position + 1 < layout.stripeCount) :
    layout.block (position + amount) = layout.block position ∧
      layout.stride (position + amount) = layout.stride position ∧
      layout.index (position + amount) = layout.index position + 1 ∧
      layout.offset (position + amount) = 0 := by
  obtain ⟨hdiv, hmod⟩ := add_carries layout.stripeSize_pos hfull
  obtain ⟨hdiv', hmod'⟩ := add_within_digit hindex
  simp [block, stride, index, offset, hdiv, hmod, hdiv', hmod', and_self]

variable (hindex : layout.index position + 1 = layout.stripeCount)

include hindex

theorem advance_stride (hstride : layout.stride position + 1 < layout.strides) :
    layout.block (position + amount) = layout.block position ∧
      layout.stride (position + amount) = layout.stride position + 1 ∧
      layout.index (position + amount) = 0 ∧
      layout.offset (position + amount) = 0 := by
  obtain ⟨hdiv, hmod⟩ := add_carries layout.stripeSize_pos hfull
  obtain ⟨hdiv', hmod'⟩ := add_carries layout.stripeCount_pos hindex
  obtain ⟨hdiv'', hmod''⟩ := add_within_digit hstride
  simp [block, stride, index, offset, hdiv, hmod, hdiv', hmod', hdiv'', hmod'', and_self]

theorem advance_block (hstride : layout.stride position + 1 = layout.strides) :
    layout.block (position + amount) = layout.block position + 1 ∧
      layout.stride (position + amount) = 0 ∧
      layout.index (position + amount) = 0 ∧
      layout.offset (position + amount) = 0 := by
  obtain ⟨hdiv, hmod⟩ := add_carries layout.stripeSize_pos hfull
  obtain ⟨hdiv', hmod'⟩ := add_carries layout.stripeCount_pos hindex
  obtain ⟨hdiv'', hmod''⟩ := add_carries layout.strides_pos hstride
  simp [block, stride, index, offset, hdiv, hmod, hdiv', hmod', hdiv'', hmod'', and_self]

end Advance

end Layout

end QfsRepair.Striping
