import QfsRepair.Striping.WriteFlush

/-!
# The expected size of a chunk

`GetChunkSize` tells from the file size how long a chunk of a chunk block is.
It is compared with counting the logical positions that `SetPos` sends to the
stripe.
-/

namespace QfsRepair.Striping

open Finset Layout

namespace RSStriper

variable (striper : RSStriper)

/-- `GetChunkSize`.  Both offsets are not negative where they are subtracted,
and the size is below that of a chunk block, so no value leaves 64 bits. -/
def getChunkSize (stripeIdx blockPos fileSize : ℤ) : Option ℤ :=
  if fileSize < 0 ∨ stripeIdx < 0 ∨ blockPos < 0 then some CHUNKSIZE
  else
    let size := fileSize - blockPos
    if size ≤ 0 ∨ striper.chunkBlockSize ≤ size then some CHUNKSIZE
    else if striper.strideSize = 0 ∨ striper.stripeSize = 0 then none
    else
      let strideCount := size.tdiv striper.strideSize
      let strideHead := size.tmod striper.strideSize
      let headIdx := strideHead.tdiv striper.stripeSize
      let idx := if stripeIdx < striper.stripeCount then stripeIdx else 0
      let chunkSize := strideCount * striper.stripeSize
      some (if idx < headIdx then chunkSize + striper.stripeSize
        else if idx = headIdx then chunkSize + strideHead.tmod striper.stripeSize
        else chunkSize)

/-- How many positions of a chunk block below the file size `SetPos` sends to a
data stripe. -/
def stripeBytes (block fileSize : ℕ) (stripeIdx : ℤ) : ℕ :=
  (range fileSize |>.filter fun pos : ℕ =>
    (pos : ℤ) / (CHUNKSIZE * striper.stripeCount) = block ∧
      (striper.setPos start pos).map StripePosition.stripeIdx = some stripeIdx).card

/-- In every chunk block that starts below the file size, the size of a data
stripe counts its positions, and a recovery stripe is as long as the first data
stripe; no size exceeds that of a chunk, and the data stripes share out the part
of the file in the chunk block. -/
def ChunkSizesCorrect : Prop :=
  ∀ block fileSize : ℕ, block * (CHUNKSIZE * striper.stripeCount) < fileSize →
    fileSize < 2 ^ 63 →
    (∀ stripeIdx : ℕ, stripeIdx < striper.stripeCount + striper.recoveryStripeCount →
      ∃ size : ℕ, size ≤ CHUNKSIZE ∧
        striper.getChunkSize stripeIdx (block * (CHUNKSIZE * striper.stripeCount)) fileSize =
          some (size : ℤ) ∧
        size = striper.stripeBytes block fileSize
          (if stripeIdx < striper.stripeCount then stripeIdx else 0)) ∧
    ∑ stripeIdx ∈ range striper.stripeCount.toNat, (striper.getChunkSize stripeIdx
        (block * (CHUNKSIZE * striper.stripeCount)) fileSize).getD 0 =
      min (fileSize - block * (CHUNKSIZE * striper.stripeCount)) (CHUNKSIZE * striper.stripeCount)

end RSStriper

namespace Layout

variable {layout : Layout} {index : ℕ}

/-! ## Counting positions -/

theorem index_block_add (block position : ℕ) :
    layout.index (block * layout.blockSize + position) = layout.index position := by
  rw [← blockPosition_index, ← mod_blockSize, Nat.mul_add_mod', mod_blockSize, blockPosition_index]

/-- The first places of a chunk block that belong to a stripe, one place at a
time. -/
theorem card_index_eq (hindex : index < layout.stripeCount) (length : ℕ) :
    #{position ∈ range length | layout.index position = index} =
      layout.stripeLength length index := by
  induction length with
  | zero => simpa using (stripeLength_strides hindex 0).symm
  | succ length ih =>
    rw [stripeLength_add hindex (layout.offset_lt length), ← ih, range_add_one, filter_insert]
    split_ifs with hsame hsame' hsame'
    · rw [card_insert_of_notMem (by simp)]
    · exact absurd hsame.symm hsame'
    · exact absurd hsame'.symm hsame
    · rw [add_zero]

/-- The rest of a stride, as `GetChunkSize` tells it apart. -/
theorem min_stripe_eq (head : ℕ) :
    min layout.stripeSize (head - index * layout.stripeSize) =
      if index < head / layout.stripeSize then layout.stripeSize
      else if index = head / layout.stripeSize then head % layout.stripeSize else 0 := by
  have hdigits := Nat.div_add_mod' head layout.stripeSize
  have hoffset := Nat.mod_lt head layout.stripeSize_pos
  rcases Nat.lt_trichotomy index (head / layout.stripeSize) with hlt | heq | hgt
  · have hrow := mul_add_le_of_lt hlt layout.stripeSize
    rw [if_pos hlt]
    omega
  · rw [if_neg heq.not_lt, if_pos heq, heq]
    omega
  · have hrow := mul_add_le_of_lt hgt layout.stripeSize
    rw [if_neg hgt.not_gt, if_neg hgt.ne']
    omega

section Sizes

/-- The striper has the members of the layout, the stride size apart. -/
structure Describes (layout : Layout) (striper : RSStriper) : Prop where
  stripeSize : striper.stripeSize = layout.stripeSize
  stripeCount : striper.stripeCount = layout.stripeCount
  recoveryStripeCount : striper.recoveryStripeCount = layout.recoveryCount
  chunkBlockSize : striper.chunkBlockSize = layout.blockSize
  dataSize : CHUNKSIZE * striper.stripeCount = layout.blockSize

variable {striper : RSStriper} (hdescribes : layout.Describes striper)
variable (hnonzero : striper.strideSize ≠ 0)

include hdescribes hnonzero

theorem setPos_stripeIdx (position : ℕ) :
    (striper.setPos RSStriper.start position).map StripePosition.stripeIdx =
      some (layout.index position : ℤ) := by
  obtain ⟨hstripe, hstripes, -, hblock, -⟩ := hdescribes
  have hsize := layout.blockSize_pos
  have hstripe_pos := layout.stripeSize_pos
  have hstripes_pos := layout.stripeCount_pos
  rw [RSStriper.setPos, if_neg (by omega)]
  split_ifs with hstart hzero
  · have hposition : position = 0 := Int.ofNat_inj.mp hstart.symm
    simp [hposition, RSStriper.start, index]
  · omega
  · simp only [Option.map_some, RSStriper.computePos, hblock, hstripe, hstripes,
      ← Int.ofNat_tmod, ← Int.ofNat_tdiv, layout.mod_blockSize, layout.blockPosition_index]

/-- The positions that `SetPos` sends to a stripe are counted by its length. -/
theorem stripeBytes_eq (block : ℕ) {length : ℕ} (hindex : index < layout.stripeCount) :
    striper.stripeBytes block (block * layout.blockSize + length) index =
      layout.stripeLength (min length layout.blockSize) index := by
  rw [← card_index_eq hindex, RSStriper.stripeBytes, hdescribes.dataSize]
  simp only [setPos_stripeIdx hdescribes hnonzero, ← Int.natCast_ediv, Nat.cast_inj,
    Option.some.injEq]
  refine (card_nbij (block * layout.blockSize + ·) ?_ ?_ ?_).symm
  · intro place hplace
    simp only [coe_filter, Set.mem_ofPred_eq, mem_range] at hplace ⊢
    rw [index_block_add, mul_comm, Nat.mul_add_div layout.blockSize_pos,
      Nat.div_eq_of_lt (by omega)]
    exact ⟨by omega, rfl, hplace.2⟩
  · intro left _ right _ heq
    exact Nat.add_left_cancel heq
  · intro position hposition
    simp only [coe_filter, Set.mem_ofPred_eq, mem_range] at hposition
    obtain ⟨hlt, hblock, hsame⟩ := hposition
    have hdigits := Nat.div_add_mod' position layout.blockSize
    have hmod := Nat.mod_lt position layout.blockSize_pos
    rw [hblock] at hdigits
    refine ⟨position % layout.blockSize, ?_, hdigits⟩
    rw [← hdigits, index_block_add] at hsame
    simp only [coe_filter, Set.mem_ofPred_eq, mem_range]
    exact ⟨by omega, hsame⟩

/-- The size within a chunk block, up to the divisions by the stride. -/
theorem getChunkSize_within {blockPos : ℤ} (hblockPos : 0 ≤ blockPos) {length head : ℕ}
    (hlength : 0 < length) (hsmall : length < layout.blockSize)
    (hhead : (length : ℤ).tmod striper.strideSize = head) {stripeIdx : ℕ}
    (hidx : (if stripeIdx < layout.stripeCount then stripeIdx else 0) = index) :
    striper.getChunkSize stripeIdx blockPos (blockPos + length) =
      some ((length : ℤ).tdiv striper.strideSize * layout.stripeSize +
        (min layout.stripeSize (head - index * layout.stripeSize) : ℕ)) := by
  obtain ⟨hstripe, hstripes, -, hblock, -⟩ := hdescribes
  have hstripe_pos := layout.stripeSize_pos
  have hidx' : (if (stripeIdx : ℤ) < layout.stripeCount then (stripeIdx : ℤ) else 0) = index := by
    rw [← hidx]
    split_ifs <;> omega
  rw [RSStriper.getChunkSize, if_neg (by omega), add_sub_cancel_left, if_neg (by omega),
    if_neg (by omega), min_stripe_eq, hhead, hstripe, hstripes, hidx']
  simp only [← Int.ofNat_tdiv, ← Int.ofNat_tmod, Nat.cast_lt, Nat.cast_inj]
  split_ifs <;> simp

theorem chunkSizesCorrect_of_divides (hchunk : CHUNKSIZE = layout.chunkSize)
    (hdivides : ∀ position : ℕ, position < layout.blockSize →
      (position : ℤ).tdiv striper.strideSize = (position / layout.strideSize : ℕ) ∧
        (position : ℤ).tmod striper.strideSize = (position % layout.strideSize : ℕ)) :
    striper.ChunkSizesCorrect := by
  intro block fileSize hstart _
  rw [hdescribes.dataSize, ← Nat.cast_mul] at hstart ⊢
  have hblockPos := Int.natCast_nonneg (block * layout.blockSize)
  obtain ⟨length, rfl⟩ := Nat.exists_eq_add_of_le (Int.ofNat_le.mp hstart.le)
  have hdata : ∀ stripeIdx, (if stripeIdx < layout.stripeCount then stripeIdx else 0) <
      layout.stripeCount := by
    intro stripeIdx
    have hpositive := layout.stripeCount_pos
    split_ifs <;> assumption
  have hsize : ∀ stripeIdx : ℕ, striper.getChunkSize stripeIdx (block * layout.blockSize : ℕ)
      (block * layout.blockSize + length : ℕ) = some (layout.stripeLength
        (min length layout.blockSize)
        (if stripeIdx < layout.stripeCount then stripeIdx else 0) : ℤ) := by
    intro stripeIdx
    rw [Nat.cast_add]
    rcases Nat.lt_or_ge length layout.blockSize with hsmall | hlarge
    · obtain ⟨hdiv, hmod⟩ := hdivides length hsmall
      rw [getChunkSize_within hdescribes hnonzero hblockPos (by omega) hsmall hmod
        rfl, min_eq_left hsmall.le, stripeLength, hdiv, ← Nat.cast_mul,
        ← Nat.cast_add]
    · have hblock := hdescribes.chunkBlockSize
      rw [RSStriper.getChunkSize, if_neg (by omega), if_pos (by omega),
        min_eq_right hlarge, stripeLength_blockSize (hdata stripeIdx), hchunk]
  refine ⟨fun stripeIdx _ => ⟨_, ?_, hsize stripeIdx, ?_⟩, ?_⟩
  · rw [hchunk, Nat.cast_le]
    exact stripeLength_le_chunkSize (hdata stripeIdx) (min_le_right _ _)
  · rw [← stripeBytes_eq hdescribes hnonzero block (hdata stripeIdx), hdescribes.stripeCount]
    congr 1
    split_ifs <;> omega
  · have hsizes : ∀ stripeIdx ∈ range layout.stripeCount, (striper.getChunkSize stripeIdx
        (block * layout.blockSize : ℕ) (block * layout.blockSize + length : ℕ)).getD 0 =
          (layout.stripeLength (min length layout.blockSize) stripeIdx : ℤ) := by
      intro stripeIdx hstripe
      rw [hsize, if_pos (mem_range.mp hstripe), Option.getD_some]
    rw [hdescribes.stripeCount, Int.toNat_natCast, sum_congr rfl hsizes, ← Nat.cast_sum,
      sum_stripeLength, Nat.cast_add, add_sub_cancel_left, Nat.cast_min]

omit hnonzero in
/-- The last data stripe of the first chunk block shows the number of strides. -/
theorem divides_of_sizes (hone : 1 < layout.blockSize) (hlimit : layout.blockSize < 2 ^ 63)
    (hcorrect : striper.ChunkSizesCorrect) :
    striper.strideSize ≠ 0 ∧ ∀ position : ℕ, position < layout.blockSize →
      (position : ℤ).tmod striper.strideSize = 0 →
      (position : ℤ).tdiv striper.strideSize = (position / layout.strideSize : ℕ) := by
  obtain ⟨last, hlast⟩ := Nat.exists_eq_add_of_lt layout.stripeCount_pos
  rw [zero_add] at hlast
  have hindex : last < layout.stripeCount := by omega
  have hblock := hdescribes.chunkBlockSize
  have hsize : ∀ length, 0 < length → length < layout.blockSize →
      striper.getChunkSize last 0 (0 + length) =
        some (striper.stripeBytes 0 (0 * layout.blockSize + length) last : ℤ) := by
    intro length hlength hsmall
    obtain ⟨size, -, hsize, hbytes⟩ := (hcorrect 0 length (by simpa using hlength)
      (hsmall.trans hlimit)).1 last (by
        rw [hdescribes.stripeCount, hdescribes.recoveryStripeCount]
        omega)
    rw [hdescribes.stripeCount, if_pos (by omega)] at hbytes
    rw [Nat.cast_zero, zero_mul] at hsize
    rw [zero_add, zero_mul, zero_add, hsize, hbytes]
  have hnonzero : striper.strideSize ≠ 0 := by
    intro hzero
    have hsome := hsize 1 Nat.one_pos hone
    rw [RSStriper.getChunkSize, if_neg (by omega), if_neg (by omega), if_pos (.inl hzero)]
      at hsome
    exact nomatch hsome
  refine ⟨hnonzero, fun length hsmall hhead => ?_⟩
  rcases length.eq_zero_or_pos with rfl | hlength
  · simp
  -- both sides are a number of stripes and a part of one
  have hrest : min layout.stripeSize (length % layout.strideSize - last * layout.stripeSize) <
      layout.stripeSize := by
    have hmod := Nat.mod_lt length layout.strideSize_pos
    have hstripe := layout.stripeSize_pos
    have hrow : layout.strideSize = last * layout.stripeSize + layout.stripeSize := by
      rw [strideSize, hlast]
      ring
    omega
  have hwithin := hsize length hlength hsmall
  rw [getChunkSize_within hdescribes hnonzero le_rfl hlength hsmall
    (show _ = ((0 : ℕ) : ℤ) from hhead) (if_pos hindex),
    stripeBytes_eq hdescribes hnonzero 0 hindex, min_eq_left hsmall.le, stripeLength,
    Nat.zero_sub, Nat.min_zero, Nat.cast_zero, add_zero, Option.some.injEq] at hwithin
  have hstripe : (layout.stripeSize : ℤ) ≠ 0 := by
    exact_mod_cast layout.stripeSize_pos.ne'
  rw [← Int.mul_ediv_cancel ((length : ℤ).tdiv _) hstripe, hwithin, ← Int.natCast_ediv,
    mul_comm, Nat.mul_add_div layout.stripeSize_pos, Nat.div_eq_of_lt hrest, add_zero]

end Sizes

end Layout

/-- For valid parameters, `GetChunkSize` counts the bytes that `SetPos` sends to
a stripe if and only if the stride size fits 32 bits or wraps harmlessly. -/
theorem chunkSizesCorrect_iff {stripeSize stripeCount recoveryStripeCount : ℤ}
    (hvalid : ValidParameters stripeSize stripeCount recoveryStripeCount) :
    (RSStriper.create stripeSize stripeCount recoveryStripeCount).ChunkSizesCorrect ↔
      stripeSize * stripeCount < 2 ^ 31 ∨ stripeSize = CHUNKSIZE ∧ stripeCount = 32 := by
  obtain ⟨layout, rfl, rfl, rfl, hchunk, hcount, -⟩ := hvalid.exists_layout
  have hdescribes : layout.Describes
      (RSStriper.create layout.stripeSize layout.stripeCount layout.recoveryCount) := by
    refine ⟨rfl, rfl, rfl, create_chunkBlockSize hchunk hcount, ?_⟩
    rw [hchunk, blockSize_eq, mul_comm]
    rfl
  have hstride : (RSStriper.create layout.stripeSize layout.stripeCount
      layout.recoveryCount).strideSize = wrap32 (layout.stripeSize * layout.stripeCount) := by
    simp [RSStriper.create]
  constructor
  · intro hcorrect
    have hone : 1 < layout.blockSize := by
      have hpositive := layout.stripeCount_pos
      rw [blockSize_eq, chunkSize_eq hchunk]
      omega
    obtain ⟨hnonzero, hdivides⟩ := divides_of_sizes hdescribes hone
      (layout.blockSize_lt_offset hchunk hcount) hcorrect
    apply stride_fits_of_div hchunk <;> rw [Nat.cast_mul, ← hstride]
    · exact hnonzero
    · exact hdivides
  · intro hfits
    obtain ⟨hnonzero, hdivides⟩ := stride_divides hchunk hfits
    rw [← hstride] at hnonzero hdivides
    exact chunkSizesCorrect_of_divides hdescribes hnonzero hchunk hdivides

theorem chunkSizesCorrect_six_three : (RSStriper.create 65536 6 3).ChunkSizesCorrect :=
  have hvalid : ValidParameters 65536 6 3 := ⟨⟨2, by decide, by decide⟩, by decide, by decide⟩
  (chunkSizesCorrect_iff hvalid).mpr (.inl (by decide))

/-- With 33 stripes of a whole chunk, a file that fills 31 of them has chunks of
negative size. -/
theorem not_chunkSizesCorrect_chunk_stripes :
    ValidParameters CHUNKSIZE 33 0 ∧
      (RSStriper.create CHUNKSIZE 33 0).getChunkSize 1 0 (31 * CHUNKSIZE) = some (-CHUNKSIZE) ∧
      ¬ (RSStriper.create CHUNKSIZE 33 0).ChunkSizesCorrect := by
  refine ⟨⟨⟨2, by decide, by decide⟩, by decide, by decide⟩, by decide, ?_⟩
  intro hcorrect
  obtain ⟨size, -, hsize, -⟩ :=
    (hcorrect 0 (31 * 2 ^ 26) (by decide) (by decide)).1 1 (by decide)
  have hnegative : (RSStriper.create CHUNKSIZE 33 0).getChunkSize (1 : ℕ)
      ((0 : ℕ) * (CHUNKSIZE * (RSStriper.create CHUNKSIZE 33 0).stripeCount))
      (31 * 2 ^ 26 : ℕ) = some (-CHUNKSIZE) := by decide
  rw [hnegative, Option.some.injEq, CHUNKSIZE] at hsize
  omega

end QfsRepair.Striping
