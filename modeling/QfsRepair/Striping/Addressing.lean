import QfsRepair.Striping.Layout
import QfsRepair.Striping.RSStriper
import Mathlib.Tactic.LinearCombination

/-!
# The stripe iterator against the closed form

The incremental updates of `SeekStripe` and the divisions of `SetPos` are both
compared with the digits of the logical position in a striped layout.  They
agree as long as the two products and sums that the constructor takes in 32
bits do not wrap around.
-/

namespace QfsRepair.Striping

/-! ## Wrap-around -/

theorem wrap64_of_bounds {value : ℤ} (hlow : -2 ^ 63 ≤ value) (hhigh : value < 2 ^ 63) :
    wrap64 value = value := by
  apply Int.bmod_eq_of_le <;> omega

theorem wrap64_natCast {value : ℕ} (hvalue : value < 2 ^ 63) :
    wrap64 (value : ℤ) = value :=
  wrap64_of_bounds (by omega) (by exact_mod_cast hvalue)

theorem wrap32_of_bounds {value : ℤ} (hlow : -2 ^ 31 ≤ value) (hhigh : value < 2 ^ 31) :
    wrap32 value = value := by
  apply Int.bmod_eq_of_le <;> omega

theorem wrap32_lt (value : ℤ) : wrap32 value < 2 ^ 31 :=
  Int.bmod_lt (by decide)

theorem le_wrap32 (value : ℤ) : -2 ^ 31 ≤ wrap32 value :=
  Int.le_bmod (by decide)

theorem natAbs_wrap32_le (value : ℤ) : (wrap32 value).natAbs ≤ 2 ^ 31 := by
  have hlow := le_wrap32 value
  have hhigh := wrap32_lt value
  omega

/-- A product whose wrapped value still divides like it, up to a size of at
least the product, is the one that wraps to its negation. -/
theorem eq_of_div_wrap32 {product size : ℕ} (hlarge : 2 ^ 31 ≤ product)
    (hsize : product ≤ size) (hnonzero : wrap32 product ≠ 0)
    (hdivides : (wrap32 product).natAbs < size →
      ((wrap32 product).natAbs : ℤ).tdiv (wrap32 product) =
        ((wrap32 product).natAbs / product : ℕ)) :
    product = 2 ^ 31 ∧ size = 2 ^ 31 := by
  have hmagnitude := natAbs_wrap32_le product
  rcases Nat.lt_or_ge (wrap32 product).natAbs size with hlt | hge
  · have hquotient := hdivides hlt
    have hhigh := wrap32_lt product
    generalize wrap32 product = wrapped at *
    have hself : (wrapped.natAbs : ℤ).tdiv wrapped.natAbs = 1 :=
      Int.tdiv_self (by omega)
    rcases Int.natAbs_eq wrapped with hsign | hsign
    · -- a positive value is below the product
      rw [← hsign] at hquotient hself
      have hsmall : wrapped.natAbs / product = 0 := Nat.div_eq_of_lt (by omega)
      rw [hsmall, hself] at hquotient
      exact absurd hquotient (by decide)
    · -- a negative one gives a negative quotient
      have hnegative : (wrapped.natAbs : ℤ).tdiv wrapped = -1 := by
        conv_lhs => arg 2; rw [hsign]
        rw [Int.tdiv_neg, hself]
      have hnonneg := Int.natCast_nonneg (wrapped.natAbs / product)
      rw [← hquotient, hnegative] at hnonneg
      exact absurd hnonneg (by decide)
  · omega

theorem wrap64_wrap64_add (left right : ℤ) :
    wrap64 (wrap64 left + right) = wrap64 (left + right) :=
  Int.bmod_add_bmod

theorem wrap64_wrap64_sub (left right : ℤ) :
    wrap64 (wrap64 left - right) = wrap64 (left - right) := by
  rw [sub_eq_add_neg, wrap64_wrap64_add, ← sub_eq_add_neg]

/-! ## Iterator states that belong to a position -/

namespace Layout

variable (layout : Layout)

/-- The iterator state of a logical position. -/
def state (position : ℕ) : StripePosition where
  pos := position
  chunkBlockPos := layout.blockPosition position
  stripePos := layout.offset position
  stripeIdx := layout.index position
  chunkBlockStartFilePos := layout.block position * layout.totalSize
  filePos := layout.address position

theorem state_zero : layout.state 0 = RSStriper.start := by
  simp [state, RSStriper.start, blockPosition, offset, index, stride, block, address]

/-- The position and its address are 64 bit offsets. -/
def Addressable (position : ℕ) : Prop :=
  position < 2 ^ 63 ∧ layout.address position < 2 ^ 63

/-- The members of a striper are those of the layout, and dividing by its
stride size counts strides within a chunk block. -/
structure Implements (striper : RSStriper) : Prop where
  stripeSize : striper.stripeSize = layout.stripeSize
  stripeCount : striper.stripeCount = layout.stripeCount
  chunkBlockSize : striper.chunkBlockSize = layout.blockSize
  chunkBlockTotalSize : striper.chunkBlockTotalSize = layout.totalSize
  chunkSize : CHUNKSIZE = layout.chunkSize
  strideSize_ne_zero : striper.strideSize ≠ 0
  div_strideSize : ∀ position : ℕ, position < layout.blockSize →
    (position : ℤ).tdiv striper.strideSize =
      (position / (layout.stripeSize * layout.stripeCount) : ℕ)

variable {layout} {striper : RSStriper} {position : ℕ}

theorem block_mul_totalSize_le (position : ℕ) :
    layout.block position * layout.totalSize ≤ layout.address position := by
  rw [address]
  omega

/-- `SetPos` leaves the state of the position it is given. -/
theorem setPos_eq (himplements : layout.Implements striper)
    (haddressable : layout.Addressable position) {current : StripePosition}
    (hcurrent : current.pos = position → current = layout.state position) :
    striper.setPos current position = some (layout.state position) := by
  have hstart := layout.block_mul_totalSize_le position
  obtain ⟨-, haddress⟩ := haddressable
  have hblockPos : (position : ℤ).tmod striper.chunkBlockSize =
      layout.blockPosition position := by
    rw [himplements.chunkBlockSize, ← Int.ofNat_tmod, layout.mod_blockSize]
  have hblock : (position : ℤ).tdiv striper.chunkBlockSize = layout.block position := by
    rw [himplements.chunkBlockSize, ← Int.ofNat_tdiv, layout.div_blockSize]
  have hstripePos : (layout.blockPosition position : ℤ).tmod striper.stripeSize =
      layout.offset position := by
    rw [himplements.stripeSize, ← Int.ofNat_tmod, layout.blockPosition_mod_stripeSize]
  have hstripeIdx : ((layout.blockPosition position : ℤ).tdiv striper.stripeSize).tmod
      striper.stripeCount = layout.index position := by
    rw [himplements.stripeSize, himplements.stripeCount, ← Int.ofNat_tdiv,
      ← Int.ofNat_tmod, layout.blockPosition_index]
  have hstride : (layout.blockPosition position : ℤ).tdiv striper.strideSize =
      layout.stride position := by
    rw [himplements.div_strideSize _ (layout.blockPosition_lt position),
      layout.blockPosition_stride]
  have hstartFilePos :
      wrap64 (layout.block position * striper.chunkBlockTotalSize) =
        (layout.block position * layout.totalSize : ℕ) := by
    rw [himplements.chunkBlockTotalSize]
    apply wrap64_of_bounds <;> omega
  have hfilePos : wrap64 (((layout.block position * layout.totalSize : ℕ) : ℤ) +
      layout.stride position * striper.stripeSize + layout.index position * CHUNKSIZE +
        layout.offset position) = layout.address position := by
    have hsum : ((layout.block position * layout.totalSize : ℕ) : ℤ) +
        layout.stride position * striper.stripeSize + layout.index position * CHUNKSIZE +
          layout.offset position = (layout.address position : ℤ) := by
      rw [himplements.stripeSize, himplements.chunkSize, address]
      push_cast
      ring
    rw [hsum]
    apply wrap64_of_bounds <;> omega
  have hcompute : striper.computePos position = layout.state position := by
    simp only [RSStriper.computePos, hblockPos, hblock, hstripePos, hstripeIdx, hstride,
      hstartFilePos, hfilePos]
    simp [state]
  have hdivisors : ¬ (striper.chunkBlockSize = 0 ∨ striper.stripeSize = 0 ∨
      striper.stripeCount = 0 ∨ striper.strideSize = 0) := by
    rw [himplements.chunkBlockSize, himplements.stripeSize, himplements.stripeCount]
    have hsize := layout.blockSize_pos
    have hstripe := layout.stripeSize_pos
    have hcount := layout.stripeCount_pos
    have hstrideSize := himplements.strideSize_ne_zero
    omega
  rw [RSStriper.setPos, if_neg (by omega)]
  split_ifs with hsame
  · rw [hcurrent hsame]
  · rw [hcompute]

theorem blockSize_eq : layout.blockSize = layout.stripeCount * layout.chunkSize := by
  rw [blockSize, chunkSize]
  ring

theorem stripeSize_le_blockSize (layout : Layout) : layout.stripeSize ≤ layout.blockSize := by
  rw [blockSize, Nat.mul_assoc]
  exact Nat.le_mul_of_pos_right _ (Nat.mul_pos layout.stripeCount_pos layout.strides_pos)

section SeekStripe

variable {amount : ℕ} (himplements : layout.Implements striper)
variable (hsmall : layout.blockSize < 2 ^ 63)
variable (haddressable : layout.Addressable (position + amount))

include himplements hsmall haddressable

variable (hamount : layout.offset position + amount ≤ layout.stripeSize)

include hamount

/-- The assignments of `SeekStripe` move on to the state of the position they
reach and report whether that lies in another chunk block. -/
theorem advance_eq :
    striper.advance (layout.state position) amount =
      (layout.state (position + amount),
        decide (layout.block (position + amount) ≠ layout.block position)) := by
  have hsize : layout.stripeSize < 2 ^ 63 := layout.stripeSize_le_blockSize.trans_lt hsmall
  have hcount : layout.stripeCount < 2 ^ 63 := by
    refine lt_of_le_of_lt ?_ hsmall
    rw [blockSize_eq]
    exact Nat.le_mul_of_pos_right _ layout.chunkSize_pos
  have hpos : wrap64 ((position : ℤ) + amount) = ((position + amount : ℕ) : ℤ) :=
    wrap64_natCast haddressable.1
  have hstripePos : wrap64 ((layout.offset position : ℤ) + amount) =
      (layout.offset position + amount : ℕ) := wrap64_natCast (hamount.trans_lt hsize)
  have hstripeIdx : wrap64 ((layout.index position : ℤ) + 1) =
      (layout.index position + 1 : ℕ) :=
    wrap64_natCast (lt_of_le_of_lt (layout.index_lt position) hcount)
  have hfilePos : ∀ {value : ℤ}, value = layout.address (position + amount) →
      wrap64 value = layout.address (position + amount) := by
    rintro _ rfl
    exact wrap64_natCast haddressable.2
  have hblockPos : ∀ {value : ℤ}, value = layout.blockPosition (position + amount) →
      wrap64 value = layout.blockPosition (position + amount) := by
    rintro _ rfl
    exact wrap64_natCast ((layout.blockPosition_lt _).trans hsmall)
  rcases hamount.lt_or_eq with hwithin | hfull
  · obtain ⟨hblock, hstride, hindex, hoffset⟩ := advance_within hwithin
    simp only [RSStriper.advance, state, hpos, hstripePos, himplements.stripeSize,
      Nat.cast_lt, hwithin, if_true]
    rw [hblockPos, hfilePos]
    · simp [hblock, hindex, hoffset]
    · simp only [address, hblock, hstride, hindex, hoffset]
      push_cast
      ring
    · simp only [blockPosition, hstride, hindex, hoffset]
      push_cast
      ring
  · -- The stripe is full: the carry goes to the stripe index, then to the stride
    -- and at last to the chunk block.
    have hfullCast : (layout.offset position : ℤ) + amount = layout.stripeSize := by
      exact_mod_cast hfull
    have hchunk : (layout.chunkSize : ℤ) = layout.strides * layout.stripeSize := by
      rw [chunkSize, Nat.cast_mul]
    have hblockCast : (layout.blockSize : ℤ) = layout.stripeCount * layout.chunkSize := by
      rw [blockSize_eq, Nat.cast_mul]
    simp only [RSStriper.advance, state, hpos, hstripePos, hfull, himplements.stripeSize,
      lt_irrefl, if_false, hstripeIdx, himplements.stripeCount, Nat.cast_lt,
      himplements.chunkSize, himplements.chunkBlockSize, himplements.chunkBlockTotalSize,
      wrap64_wrap64_add, wrap64_wrap64_sub]
    rcases Nat.lt_or_eq_of_le
      (layout.index_lt position : layout.index position + 1 ≤ layout.stripeCount) with
      hindexLt | hindexEq
    · obtain ⟨hblock, hstride, hindex, hoffset⟩ := advance_stripe hfull hindexLt
      rw [if_pos hindexLt, hblockPos, hfilePos]
      · simp [hblock, hindex, hoffset]
      · simp only [address, hblock, hstride, hindex, hoffset]
        push_cast
        linear_combination hfullCast
      · simp only [blockPosition, hstride, hindex, hoffset]
        push_cast
        linear_combination hfullCast
    · have hindexCast : (layout.index position : ℤ) + 1 = layout.stripeCount := by
        exact_mod_cast hindexEq
      rw [if_neg (show ¬ layout.index position + 1 < layout.stripeCount from
        hindexEq.not_lt)]
      rcases Nat.lt_or_eq_of_le
        (layout.stride_lt position : layout.stride position + 1 ≤ layout.strides) with
        hstrideLt | hstrideEq
      · obtain ⟨hblock, hstride, hindex, hoffset⟩ := advance_stride hfull hindexEq hstrideLt
        have hcursor : wrap64 ((layout.blockPosition position : ℤ) + amount) =
            layout.blockPosition (position + amount) := by
          apply hblockPos
          simp only [blockPosition, hstride, hindex, hoffset]
          push_cast
          linear_combination hfullCast + layout.stripeSize * hindexCast
        have hinside : ¬ (layout.blockSize : ℤ) ≤ layout.blockPosition (position + amount) := by
          exact_mod_cast not_le.mpr (layout.blockPosition_lt _)
        rw [hcursor, if_neg hinside, hfilePos]
        · simp [hblock, hindex, hoffset]
        · simp only [address, hblock, hstride, hindex, hoffset]
          push_cast
          linear_combination hfullCast - hblockCast + layout.chunkSize * hindexCast
      · have hstrideCast : (layout.stride position : ℤ) + 1 = layout.strides := by
          exact_mod_cast hstrideEq
        obtain ⟨hblock, hstride, hindex, hoffset⟩ := advance_block hfull hindexEq hstrideEq
        have hend : wrap64 ((layout.blockPosition position : ℤ) + amount) =
            layout.blockSize := by
          have hsum : (layout.blockPosition position : ℤ) + amount = layout.blockSize := by
            rw [blockPosition, blockSize]
            push_cast
            linear_combination hfullCast + layout.stripeSize * hindexCast +
              layout.stripeSize * layout.stripeCount * hstrideCast
          rw [hsum]
          exact wrap64_natCast hsmall
        simp only [hend, le_refl, if_true]
        rw [hfilePos]
        · simp [hblock, hstride, hindex, hoffset, blockPosition, address]
        · simp only [address, hblock, hstride, hindex, hoffset]
          push_cast
          linear_combination hfullCast - hblockCast + layout.chunkSize * hindexCast +
            layout.stripeSize * hstrideCast - hchunk

theorem seekStripe_eq :
    striper.seekStripe (layout.state position) amount =
      some (layout.state (position + amount),
        decide (layout.block (position + amount) ≠ layout.block position)) := by
  rw [RSStriper.seekStripe, if_pos, advance_eq himplements hsmall haddressable hamount]
  have hsize : layout.stripeSize < 2 ^ 63 := layout.stripeSize_le_blockSize.trans_lt hsmall
  refine ⟨Int.natCast_nonneg amount, ?_⟩
  change wrap64 ((layout.offset position : ℤ) + amount) ≤ _
  rw [← Nat.cast_add, wrap64_natCast (hamount.trans_lt hsize), himplements.stripeSize]
  exact_mod_cast hamount

end SeekStripe

end Layout

/-! ## Parameters -/

/-- The iterator state computed directly from the logical position. -/
def directPosition (stripeSize stripeCount recoveryStripeCount pos : ℤ) : StripePosition :=
  let chunkBlockPos := pos % (CHUNKSIZE * stripeCount)
  let stripeIdx := chunkBlockPos / stripeSize % stripeCount
  let chunkBlockStartFilePos :=
    pos / (CHUNKSIZE * stripeCount) * (CHUNKSIZE * (stripeCount + recoveryStripeCount))
  { pos := pos
    chunkBlockPos := chunkBlockPos
    stripePos := chunkBlockPos % stripeSize
    stripeIdx := stripeIdx
    chunkBlockStartFilePos := chunkBlockStartFilePos
    filePos := chunkBlockStartFilePos +
      chunkBlockPos / (stripeSize * stripeCount) * stripeSize +
      stripeIdx * CHUNKSIZE + chunkBlockPos % stripeSize }

/-- Neither of the two `int` expressions of the constructor wraps around, or
the stride does so harmlessly: 32 stripes of a whole chunk each make one
stride, and any divisor of magnitude `2 ^ 31` counts no stride. -/
def MembersFit (stripeSize stripeCount recoveryStripeCount : ℤ) : Prop :=
  (stripeSize * stripeCount < 2 ^ 31 ∨ stripeSize = CHUNKSIZE ∧ stripeCount = 32) ∧
    stripeCount + recoveryStripeCount < 2 ^ 31

/-- Parameters of type `int` that `ValidateStripeParameters` accepts for a
striped file, with as many data stripes as a file attribute can hold. -/
structure ValidParameters (stripeSize stripeCount recoveryStripeCount : ℤ) : Prop where
  accepted : ∃ stripedFileType, stripedFileType ≠ stripedFileTypeNone ∧
    validateStripeParameters stripedFileType stripeCount recoveryStripeCount stripeSize = true
  stripeCount_le : stripeCount ≤ 511
  recoveryStripeCount_lt : recoveryStripeCount < 2 ^ 31

/-- The layout of valid parameters. -/
theorem ValidParameters.exists_layout {stripeSize stripeCount recoveryStripeCount : ℤ}
    (hvalid : ValidParameters stripeSize stripeCount recoveryStripeCount) :
    ∃ layout : Layout, stripeSize = layout.stripeSize ∧ stripeCount = layout.stripeCount ∧
      recoveryStripeCount = layout.recoveryCount ∧ CHUNKSIZE = layout.chunkSize ∧
      layout.stripeCount ≤ 511 ∧ 4096 ≤ layout.stripeSize := by
  obtain ⟨⟨stripedFileType, htype, haccepted⟩, hcount, -⟩ := hvalid
  simp only [validateStripeParameters, htype, decide_false, Bool.false_or, Bool.and_eq_true,
    decide_eq_true_eq] at haccepted
  obtain ⟨⟨⟨⟨⟨⟨-, hmin⟩, hmax⟩, hpos⟩, -⟩, hdivides⟩, hrecovery⟩ := haccepted
  rw [stripeAlignment] at hmin
  lift stripeSize to ℕ using by omega
  lift stripeCount to ℕ using by omega
  lift recoveryStripeCount to ℕ using hrecovery
  obtain ⟨strides, hstrides⟩ := Int.dvd_of_tmod_eq_zero hdivides
  have hstrides_pos : 0 < strides := by
    by_contra hle
    have hneg : (stripeSize : ℤ) * strides ≤ 0 :=
      Int.mul_nonpos_of_nonneg_of_nonpos (by omega) (by omega)
    omega
  lift strides to ℕ using hstrides_pos.le
  refine ⟨⟨stripeSize, strides, stripeCount, recoveryStripeCount, by omega, by omega,
    by omega⟩, rfl, rfl, rfl, ?_, by exact_mod_cast hcount, by exact_mod_cast hmin⟩
  rw [hstrides, Layout.chunkSize, Nat.cast_mul, mul_comm]

namespace Layout

variable {layout : Layout}

variable (hchunk : CHUNKSIZE = layout.chunkSize)

include hchunk

theorem blockSize_eq_chunks : CHUNKSIZE * (layout.stripeCount : ℤ) = layout.blockSize := by
  rw [hchunk, blockSize_eq, Nat.cast_mul, mul_comm]

theorem totalSize_eq_chunks :
    CHUNKSIZE * ((layout.stripeCount : ℤ) + layout.recoveryCount) = layout.totalSize := by
  rw [hchunk, totalSize, Nat.cast_mul, Nat.cast_add, mul_comm]

theorem directPosition_eq (position : ℕ) :
    directPosition layout.stripeSize layout.stripeCount layout.recoveryCount position =
      layout.state position := by
  simp only [directPosition, blockSize_eq_chunks hchunk, totalSize_eq_chunks hchunk,
    ← Int.natCast_emod, ← Int.natCast_ediv, layout.mod_blockSize, layout.div_blockSize,
    layout.blockPosition_mod_stripeSize, layout.blockPosition_index, ← Nat.cast_mul,
    layout.blockPosition_stride]
  simp only [state, address, StripePosition.mk.injEq, true_and]
  refine ⟨by push_cast; ring, ?_⟩
  rw [hchunk]
  push_cast
  ring

theorem chunkSize_eq : layout.chunkSize = 2 ^ 26 := by
  rw [CHUNKSIZE] at hchunk
  exact_mod_cast hchunk.symm

/-- A wrapped stride that still counts strides within a chunk block is harmless. -/
theorem stride_fits_of_div (hnonzero : wrap32 (layout.stripeSize * layout.stripeCount : ℕ) ≠ 0)
    (hdivides : ∀ position : ℕ, position < layout.blockSize →
      (position : ℤ).tmod (wrap32 (layout.stripeSize * layout.stripeCount : ℕ)) = 0 →
      (position : ℤ).tdiv (wrap32 (layout.stripeSize * layout.stripeCount : ℕ)) =
        (position / (layout.stripeSize * layout.stripeCount) : ℕ)) :
    (layout.stripeSize : ℤ) * layout.stripeCount < 2 ^ 31 ∨
      (layout.stripeSize : ℤ) = CHUNKSIZE ∧ (layout.stripeCount : ℤ) = 32 := by
  rcases Nat.lt_or_ge (layout.stripeSize * layout.stripeCount) (2 ^ 31) with hsmall | hlarge
  · exact .inl (by exact_mod_cast hsmall)
  · right
    have hsize : layout.stripeSize * layout.stripeCount ≤ layout.blockSize :=
      Nat.le_mul_of_pos_right _ layout.strides_pos
    obtain ⟨hproduct, hblock⟩ := eq_of_div_wrap32 hlarge hsize hnonzero
      (hdivides _ · (Int.tmod_eq_zero_of_dvd (Int.dvd_natAbs_self)))
    rw [blockSize_eq, chunkSize_eq hchunk] at hblock
    have hcount32 : layout.stripeCount = 32 := by omega
    rw [hcount32] at hproduct
    have hstripe : layout.stripeSize = layout.chunkSize := by
      rw [chunkSize_eq hchunk]
      omega
    rw [hstripe, hcount32]
    exact ⟨hchunk.symm, rfl⟩

variable (hcount : layout.stripeCount ≤ 511)

include hcount

theorem blockSize_lt : layout.blockSize < 2 ^ 35 := by
  rw [blockSize_eq, chunkSize_eq hchunk]
  omega

theorem blockSize_lt_offset : layout.blockSize < 2 ^ 63 := by
  have hlt := layout.blockSize_lt hchunk hcount
  have hpow : (2 : ℕ) ^ 35 < 2 ^ 63 := by norm_num
  exact hlt.trans hpow

theorem create_chunkBlockSize :
    (RSStriper.create layout.stripeSize layout.stripeCount
      layout.recoveryCount).chunkBlockSize = layout.blockSize := by
  simp only [RSStriper.create]
  rw [hchunk, mul_comm, ← Nat.cast_mul, ← blockSize_eq]
  exact wrap64_natCast (layout.blockSize_lt_offset hchunk hcount)

omit hcount in
/-- Dividing by the stride member counts strides within a chunk block. -/
theorem stride_divides
    (hstride : (layout.stripeSize : ℤ) * layout.stripeCount < 2 ^ 31 ∨
      (layout.stripeSize : ℤ) = CHUNKSIZE ∧ (layout.stripeCount : ℤ) = 32) :
    wrap32 ((layout.stripeSize : ℤ) * layout.stripeCount) ≠ 0 ∧
      ∀ position : ℕ, position < layout.blockSize →
        (position : ℤ).tdiv (wrap32 ((layout.stripeSize : ℤ) * layout.stripeCount)) =
            (position / (layout.stripeSize * layout.stripeCount) : ℕ) ∧
          (position : ℤ).tmod (wrap32 ((layout.stripeSize : ℤ) * layout.stripeCount)) =
            (position % (layout.stripeSize * layout.stripeCount) : ℕ) := by
  have hpositive : 0 < layout.stripeSize * layout.stripeCount :=
    Nat.mul_pos layout.stripeSize_pos layout.stripeCount_pos
  rcases hstride with hsmall | ⟨hsize, hcount32⟩
  · rw [← Nat.cast_mul] at hsmall ⊢
    rw [wrap32_of_bounds (by omega) hsmall]
    exact ⟨by omega, fun position _ => ⟨Int.ofNat_tdiv _ _, Int.ofNat_tmod _ _⟩⟩
  · have hcount' : layout.stripeCount = 32 := by exact_mod_cast hcount32
    have hproduct : layout.stripeSize * layout.stripeCount = 2 ^ 31 := by
      rw [CHUNKSIZE] at hsize
      rw [hcount']
      omega
    have hblock : layout.blockSize = 2 ^ 31 := by
      rw [blockSize_eq, chunkSize_eq hchunk, hcount']
      norm_num
    have hwrap : wrap32 ((2 ^ 31 : ℕ) : ℤ) = -((2 ^ 31 : ℕ) : ℤ) := by decide
    rw [← Nat.cast_mul, hproduct, hwrap, hblock]
    refine ⟨by decide, fun position hposition => ?_⟩
    rw [Int.tdiv_neg, Int.tmod_neg, ← Int.ofNat_tdiv, ← Int.ofNat_tmod, Nat.div_eq_of_lt hposition]
    exact ⟨rfl, rfl⟩

theorem implements_create
    (hfit : MembersFit layout.stripeSize layout.stripeCount layout.recoveryCount) :
    layout.Implements
      (RSStriper.create layout.stripeSize layout.stripeCount layout.recoveryCount) := by
  obtain ⟨hstride, htotal⟩ := hfit
  obtain ⟨hnonzero, hdivides⟩ := stride_divides hchunk hstride
  refine ⟨rfl, rfl, create_chunkBlockSize hchunk hcount, ?_, hchunk, ?_, ?_⟩
  · simp only [RSStriper.create]
    rw [wrap32_of_bounds (by omega) htotal, wrap64_of_bounds, hchunk, totalSize,
      Nat.cast_mul, Nat.cast_add, mul_comm]
    · rw [CHUNKSIZE]; omega
    · rw [CHUNKSIZE]; omega
  · simp only [RSStriper.create]
    exact hnonzero
  · simp only [RSStriper.create]
    exact fun position hposition => (hdivides position hposition).1

end Layout

end QfsRepair.Striping
