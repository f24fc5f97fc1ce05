import QfsRepair.Striping.WriteSteps

/-!
# What the stripe buffers hold

A data buffer holds the part of its chunk from the first byte that is not
written yet to the end of the data, a recovery buffer the rows of its chunk that
are encoded but not written.  Dealing out data prolongs the data buffers.
-/

namespace QfsRepair.Striping

open Function
open Machine Layout

namespace Layout

variable {layout : Layout} {position amount : ℕ}

theorem stripeLength_blockPosition (position : ℕ) :
    layout.stripeLength (layout.blockPosition position) (layout.index position) =
      layout.chunkOffset position := by
  have hindex := layout.index_lt position
  have hhead := (index_mul_add_lt hindex (layout.offset_lt position)).le
  have hplace : layout.blockPosition position = layout.stride position * layout.strideSize +
      (layout.index position * layout.stripeSize + layout.offset position) := by
    rw [blockPosition, strideSize]
    ring
  have hoffset := layout.offset_lt position
  rw [hplace, stripeLength_eq hindex _ hhead, chunkOffset]
  omega

theorem sub_block {block : ℕ} (hblock : layout.block position = block) :
    position - block * layout.blockSize = layout.blockPosition position := by
  have hsplit := layout.block_mul_add position
  rw [hblock] at hsplit
  omega

theorem toNat_stripeIdx_state (position : ℕ) :
    (layout.state position).stripeIdx.toNat = layout.index position := rfl

theorem filePos_state (position : ℕ) :
    (layout.state position).filePos = layout.address position := rfl

theorem positionAt_add (hamount : layout.offset position + amount < layout.stripeSize) :
    layout.positionAt (layout.block position) (layout.index position)
      (layout.chunkOffset position + amount) = position + amount := by
  obtain ⟨hblock, hstride, hindex, hoffset⟩ := advance_within hamount
  have hposition := @positionAt_chunkOffset layout (position + amount)
  rw [hblock, hindex, chunkOffset, hstride, hoffset, ← add_assoc] at hposition
  exact hposition

end Layout

variable (layout : Layout) (encode : (ℕ → Byte) → ℕ → Byte) (stream : ℕ → Byte)

/-- The bytes of a data chunk. -/
def stripeStream (block index : ℕ) : ℕ → Byte :=
  fun chunkOffset => stream (layout.positionAt block index chunkOffset)

/-- The bytes of a recovery chunk. -/
def recoveryStream (block recoveryIndex : ℕ) : ℕ → Byte :=
  fun chunkOffset => encode (layout.column stream block chunkOffset) recoveryIndex

/-- The data buffers hold the data of the first `length` places of the chunk
block, each from its own offset on. -/
structure HoldsData (block length : ℕ) (start : ℕ → ℕ) (buffers : ℕ → WriteBuffer) : Prop where
  start_le : ∀ index < layout.stripeCount, start index ≤ layout.stripeLength length index
  bytes : ∀ index < layout.stripeCount, (buffers index).bytes =
    slice (stripeStream layout stream block index) (start index)
      (layout.stripeLength length index)
  endPos : ∀ index < layout.stripeCount, start index < layout.stripeLength length index →
    (buffers index).endPos =
      (layout.chunkStart block index + layout.stripeLength length index : ℕ)

/-- The recovery buffers hold the rows from `low` up to `high`, all to be
written. -/
structure HoldsRecovery (block low high : ℕ) (buffers : ℕ → WriteBuffer) : Prop where
  low_le : low ≤ high
  bytes : ∀ index < layout.recoveryCount, (buffers (layout.stripeCount + index)).bytes =
    slice (recoveryStream layout encode stream block index) low high
  endPos : low < high → ∀ index < layout.recoveryCount,
    (buffers (layout.stripeCount + index)).endPos =
      (layout.chunkStart block (layout.stripeCount + index) + high : ℕ)
  writeLen : ∀ index < layout.recoveryCount,
    (buffers (layout.stripeCount + index)).writeLen = high - low

variable {layout encode stream} {block length : ℕ} {start : ℕ → ℕ} {buffers : ℕ → WriteBuffer}

namespace HoldsData

variable {buffers' : ℕ → WriteBuffer}

variable (hdata : HoldsData layout stream block length start buffers)

include hdata

theorem congr
    (hbytes : ∀ index < layout.stripeCount, (buffers' index).bytes = (buffers index).bytes)
    (hendPos : ∀ index < layout.stripeCount, (buffers' index).endPos = (buffers index).endPos) :
    HoldsData layout stream block length start buffers' where
  start_le := hdata.start_le
  bytes index hindex := (hbytes index hindex).trans (hdata.bytes index hindex)
  endPos index hindex hlt := (hendPos index hindex).trans (hdata.endPos index hindex hlt)

theorem length_bytes {index : ℕ} (hindex : index < layout.stripeCount) :
    (buffers index).bytes.length = layout.stripeLength length index - start index := by
  rw [hdata.bytes index hindex, length_slice]

end HoldsData

namespace HoldsRecovery

variable {low high : ℕ} {buffers' : ℕ → WriteBuffer}

theorem congr (hrecovery : HoldsRecovery layout encode stream block low high buffers)
    (hsame : ∀ index < layout.recoveryCount,
      buffers' (layout.stripeCount + index) = buffers (layout.stripeCount + index)) :
    HoldsRecovery layout encode stream block low high buffers' where
  low_le := hrecovery.low_le
  bytes index hindex := by rw [hsame index hindex, hrecovery.bytes index hindex]
  endPos hlt index hindex := by rw [hsame index hindex, hrecovery.endPos hlt index hindex]
  writeLen index hindex := by rw [hsame index hindex, hrecovery.writeLen index hindex]

theorem of_empty (hempty : ∀ index < layout.recoveryCount,
      (buffers (layout.stripeCount + index)).bytes = [] ∧
        (buffers (layout.stripeCount + index)).writeLen = 0) :
    HoldsRecovery layout encode stream block low low buffers where
  low_le := le_rfl
  bytes index hindex := by rw [(hempty index hindex).1, slice_self]
  endPos hlt := absurd hlt (lt_irrefl low)
  writeLen index hindex := by rw [(hempty index hindex).2, sub_self]

end HoldsRecovery

/-! ## Dealing out data -/

/-- What dealing out data changes: the bytes and ends of the data buffers, the
pending count and the iterator. -/
structure Dealt (layout : Layout) (stream : ℕ → Byte) (block : ℕ) (start : ℕ → ℕ)
    (initial : RSWriteStriper) (first position : ℕ) (state : RSWriteStriper) : Prop where
  first_le : first ≤ position
  block_le : block * layout.blockSize ≤ position
  iterator : state.position = layout.state position
  data : HoldsData layout stream block (position - block * layout.blockSize) start state.buffers
  pendingCount : state.pendingCount = initial.pendingCount + (position - first : ℕ)
  frame : state = { initial with
    pendingCount := state.pendingCount
    buffers := state.buffers
    position := state.position }
  writeLen : ∀ index, (state.buffers index).writeLen = (initial.buffers index).writeLen
  others : ∀ index, layout.stripeCount ≤ index → state.buffers index = initial.buffers index

/-- One round: the current buffer ends at the current position, so that the data
is appended to it. -/
theorem Dealt.round (env : WriteEnvironment) {initial state : RSWriteStriper}
    {first position amount : ℕ}
    (hdealt : Dealt layout stream block start initial first position state)
    (hblock : layout.block position = block)
    (hamount : layout.offset position + amount ≤ layout.stripeSize) :
    makeRoom env state = some state ∧
      Dealt layout stream block start initial first (position + amount)
        { moveData (slice stream position (position + amount)) state with
          position := layout.state (position + amount) } := by
  obtain ⟨hfirst, hle, hposition, hdata, hpending, hframe, hwriteLen, hothers⟩ := hdealt
  subst hblock
  have hindex := layout.index_lt position
  have hplace := @sub_block layout position _ rfl
  have hcurrent := layout.stripeLength_blockPosition position
  have hplace' : layout.index (layout.blockPosition position) = layout.index position :=
    layout.blockPosition_index position
  have hoffset' : layout.offset (layout.blockPosition position) = layout.offset position :=
    layout.blockPosition_mod_stripeSize position
  rw [hplace] at hdata
  have hlength : ∀ index < layout.stripeCount,
      layout.stripeLength (position + amount - layout.block position * layout.blockSize) index =
        layout.stripeLength (layout.blockPosition position) index +
          if index = layout.index position then amount else 0 := by
    intro index hindex'
    have hsum : position + amount - layout.block position * layout.blockSize =
        layout.blockPosition position + amount := by omega
    rw [hsum, stripeLength_add hindex' (by rwa [hoffset']), hplace']
  have hstripeIdx : state.position.stripeIdx.toNat = layout.index position := by
    rw [hposition, toNat_stripeIdx_state]
  have hfilePos : state.position.filePos =
      (layout.chunkStart (layout.block position) (layout.index position) +
        layout.chunkOffset position : ℕ) := by
    rw [hposition, filePos_state, address_eq_chunkStart]
  constructor
  · rw [makeRoom, hstripeIdx, if_neg]
    rintro ⟨hend, hbytes⟩
    rw [hdata.bytes _ hindex, Ne, slice_eq_nil_iff, not_le] at hbytes
    rw [hdata.endPos _ hindex hbytes, hcurrent, hfilePos] at hend
    exact hend rfl
  · have hmoved : slice stream position (position + amount) =
        slice (stripeStream layout stream (layout.block position) (layout.index position))
          (layout.chunkOffset position) (layout.chunkOffset position + amount) := by
      have hleft := slice_shift stream position 0 amount
      have hright := slice_shift (stripeStream layout stream (layout.block position)
        (layout.index position)) (layout.chunkOffset position) 0 amount
      rw [add_zero] at hleft hright
      rw [← hleft, ← hright]
      apply slice_congr
      intro place _ hplace
      rw [stripeStream, positionAt_add (by omega)]
    refine ⟨by omega, by omega, rfl, ⟨?_, ?_, ?_⟩, ?_, ?_, ?_, ?_⟩
    · intro index hindex'
      have := hdata.start_le index hindex'
      rw [hlength index hindex']
      omega
    · intro index hindex'
      simp only [moveData, hstripeIdx]
      rw [hlength index hindex']
      by_cases heq : index = layout.index position
      · subst heq
        have hstart := hdata.start_le _ hindex
        rw [hcurrent] at hstart
        rw [update_self, hdata.bytes _ hindex, hmoved, if_pos rfl, hcurrent]
        exact slice_append_slice _ hstart (Nat.le_add_right _ _)
      · rw [update_of_ne heq, hdata.bytes _ hindex', if_neg heq, add_zero]
    · intro index hindex' hlt
      simp only [moveData, hstripeIdx]
      rw [hlength index hindex'] at hlt ⊢
      by_cases heq : index = layout.index position
      · subst heq
        rw [update_self, length_slice]
        push_cast
        omega
      · rw [if_neg heq, add_zero] at hlt ⊢
        rw [update_of_ne heq, hdata.endPos _ hindex' hlt]
    · simp only [moveData, length_slice, hpending]
      omega
    · rw [hframe]
      rfl
    · intro index
      simp only [moveData, hstripeIdx]
      by_cases heq : index = layout.index position
      · subst heq
        rw [update_self]
        exact hwriteLen _
      · rw [update_of_ne heq]
        exact hwriteLen _
    · intro index hindex'
      simp only [moveData, hstripeIdx]
      rw [update_of_ne (by omega)]
      exact hothers _ hindex'

/-- `Stripe` deals out data up to the end of the chunk block. -/
theorem stripe_eq {env : WriteEnvironment} (hrealises : env.Realises layout)
    (hend : (block + 1) * layout.totalSize < 2 ^ 63) {state : RSWriteStriper}
    {place amount : ℕ} (hposition : ∃ current, state.position = layout.state current)
    (hdata : HoldsData layout stream block place start state.buffers)
    (hplace : place < layout.blockSize) (hamount : 0 < amount) :
    StripesInto env layout stream block place amount state
      (Dealt layout stream block start state (block * layout.blockSize + place)) := by
  refine stripe_rule hrealises hend (fun _ _ hdealt => hdealt.iterator)
    (fun position amount state hdealt hblock _ hamount => ?_) hposition ?_ hplace hamount
  · have hround := hdealt.round env hblock hamount
    exact ⟨state, hround.1, rfl, hround.2⟩
  · refine ⟨le_rfl, by omega, rfl, ?_, by simp, rfl, fun _ => rfl, fun _ _ => rfl⟩
    rwa [Nat.add_sub_cancel_left]

end QfsRepair.Striping
