import QfsRepair.Striping.WriteFilling
import Mathlib.Algebra.Order.BigOperators.Group.Finset

/-!
# Flushing full strides

The writes of a flush take the stored contents from one length of the file to a
larger one.  Writing all buffers stores everything that is encoded.
-/

namespace QfsRepair.Striping

open Machine List Layout WriteBuffer

variable {layout : Layout} {env : WriteEnvironment} {stream : ℕ → Byte}
variable {block place done flushed : ℕ} {start : ℕ → ℕ} {state : RSWriteStriper}

/-! ## Contents of a chunk block -/

namespace Layout

variable {length index chunkOffset : ℕ}

theorem chunk_cases (hindex : index < layout.stripeCount + layout.recoveryCount) :
    index < layout.stripeCount ∨
      ∃ recoveryIndex < layout.recoveryCount, index = layout.stripeCount + recoveryIndex := by
  rcases Nat.lt_or_ge index layout.stripeCount with hlt | hge
  · exact .inl hlt
  · exact .inr ⟨index - layout.stripeCount, by omega, by omega⟩

section

variable (hindex : index < layout.stripeCount)

include hindex

theorem stripeLength_blockSize :
    layout.stripeLength layout.blockSize index = layout.chunkSize := by
  rw [blockSize_eq_strides, mul_comm, stripeLength_strides hindex, chunkSize]

theorem stripeLength_le_chunkSize (hlength : length ≤ layout.blockSize) :
    layout.stripeLength length index ≤ layout.chunkSize := by
  rw [← stripeLength_blockSize hindex]
  exact stripeLength_mono hindex hlength

theorem positionAt_lt_iff (block length chunkOffset : ℕ) :
    layout.positionAt block index chunkOffset < block * layout.blockSize + length ↔
      chunkOffset < layout.stripeLength length index := by
  rw [← place_lt_iff hindex, positionAt]
  omega

end

/-- Positions of other chunk blocks lie before or behind the block as a whole. -/
theorem positionAt_lt_iff_of_ne {other : ℕ} (hother : other ≠ block)
    (hindex : index < layout.stripeCount) (hoffset : chunkOffset < layout.chunkSize)
    (hlength : length ≤ layout.blockSize) :
    layout.positionAt other index chunkOffset < block * layout.blockSize + length ↔
      other < block := by
  have hplace : layout.place index chunkOffset < layout.blockSize := by
    rw [place_lt_iff hindex, stripeLength_blockSize hindex]
    exact hoffset
  rw [positionAt]
  rcases Nat.lt_or_gt_of_ne hother with hlt | hgt
  · have hstep := mul_add_le_of_lt hlt layout.blockSize
    exact iff_of_true (by omega) hlt
  · have hstep := mul_add_le_of_lt hgt layout.blockSize
    exact iff_of_false (by omega) (by omega)

/-- Columns agree where the streams agree. -/
theorem column_congr {left right : ℕ → Byte}
    (heq : ∀ index < layout.stripeCount, left (layout.positionAt block index chunkOffset) =
      right (layout.positionAt block index chunkOffset)) :
    layout.column left block chunkOffset = layout.column right block chunkOffset := by
  funext index
  rw [column, column]
  split_ifs with hindex
  · exact heq index hindex
  · rfl

end Layout

section Contents

variable {encode : (ℕ → Byte) → ℕ → Byte} {target : ℕ} {index chunkOffset : ℕ}

theorem chunkContents_data (hindex : index < layout.stripeCount) (length : ℕ) :
    layout.chunkContents encode stream (block * layout.blockSize + length) block index
        chunkOffset =
      if chunkOffset < layout.stripeLength length index then
        some (stripeStream layout stream block index chunkOffset)
      else none := by
  simp [chunkContents, if_pos hindex, positionAt_lt_iff hindex, stripeStream]

theorem chunkContents_recovery (length recoveryIndex : ℕ) :
    layout.chunkContents encode stream (block * layout.blockSize + length) block
        (layout.stripeCount + recoveryIndex) chunkOffset =
      if chunkOffset < layout.stripeLength length 0 then
        some (recoveryStream layout encode
          (truncate stream (block * layout.blockSize + length)) block recoveryIndex chunkOffset)
      else none := by
  simp [chunkContents, positionAt_lt_iff layout.stripeCount_pos, recoveryStream]

/-- Other chunk blocks do not depend on how far this one is filled. -/
theorem chunkContents_other {other : ℕ} (hother : other ≠ block)
    (hoffset : chunkOffset < layout.chunkSize) (hflushed : flushed ≤ layout.blockSize)
    (htarget : target ≤ layout.blockSize) :
    layout.chunkContents encode stream (block * layout.blockSize + flushed) other index
        chunkOffset =
      layout.chunkContents encode stream (block * layout.blockSize + target) other index
        chunkOffset := by
  have hsame : ∀ index < layout.stripeCount,
      (layout.positionAt other index chunkOffset < block * layout.blockSize + flushed ↔
        layout.positionAt other index chunkOffset < block * layout.blockSize + target) :=
    fun index hindex => by
      rw [positionAt_lt_iff_of_ne hother hindex hoffset hflushed,
        positionAt_lt_iff_of_ne hother hindex hoffset htarget]
  have hcolumn : layout.column (truncate stream (block * layout.blockSize + flushed)) other
      chunkOffset = layout.column (truncate stream (block * layout.blockSize + target)) other
        chunkOffset :=
    column_congr fun index hindex => by
      simp [truncate, hsame index hindex]
  rw [chunkContents, chunkContents, hcolumn]
  by_cases hindex : index < layout.stripeCount
  · simp [if_pos hindex, hsame index hindex]
  · simp [if_neg hindex, hsame 0 layout.stripeCount_pos]

variable {recoveryIndex : ℕ}

theorem recoveryStream_congr {stream' : ℕ → Byte}
    (hagree : ∀ index < layout.stripeCount, stream (layout.positionAt block index chunkOffset) =
      stream' (layout.positionAt block index chunkOffset)) :
    recoveryStream layout encode stream block recoveryIndex chunkOffset =
      recoveryStream layout encode stream' block recoveryIndex chunkOffset :=
  congrArg (encode · recoveryIndex) (column_congr hagree)

/-- Rows of full strides do not depend on how far the block is filled behind
them. -/
theorem recoveryStream_truncate (hflushed : flushed ≤ target)
    (hrow : chunkOffset < flushed / layout.strideSize * layout.stripeSize) :
    recoveryStream layout encode (truncate stream (block * layout.blockSize + flushed)) block
        recoveryIndex chunkOffset =
      recoveryStream layout encode (truncate stream (block * layout.blockSize + target)) block
        recoveryIndex chunkOffset := by
  apply recoveryStream_congr
  intro index hindex
  have hlt : layout.positionAt block index chunkOffset < block * layout.blockSize + flushed := by
    rw [positionAt_lt_iff hindex]
    refine lt_of_lt_of_le hrow ?_
    rw [← stripeLength_strides hindex]
    exact stripeLength_mono hindex (Nat.div_mul_le_self _ _)
  rw [truncate, truncate, if_pos hlt, if_pos (by omega)]

/-- The write agrees with the contents of the file filled up to `target`. -/
def AgreesWith (layout : Layout) (encode : (ℕ → Byte) → ℕ → Byte) (stream : ℕ → Byte)
    (block target : ℕ) (queuedWrite : QueuedWrite) : Prop :=
  (∃ index < layout.stripeCount, ∃ low,
    queuedWrite.offset = (layout.chunkStart block index + low : ℕ) ∧
    queuedWrite.bytes = slice (stripeStream layout stream block index) low
      (layout.stripeLength target index)) ∨
  ∃ index < layout.recoveryCount, ∃ low,
    queuedWrite.offset = (layout.chunkStart block (layout.stripeCount + index) + low : ℕ) ∧
    queuedWrite.bytes = slice (recoveryStream layout encode
      (truncate stream (block * layout.blockSize + target)) block index) low
      (layout.stripeLength target 0)

/-- Some write stores the chunk from `low` up to `high`. -/
def WritesRange (layout : Layout) (writes : List QueuedWrite) (block chunk low high : ℕ) :
    Prop :=
  ∃ queuedWrite ∈ writes, queuedWrite.offset = (layout.chunkStart block chunk + low : ℕ) ∧
    queuedWrite.bytes.length = high - low

/-- The writes of a flush: they agree with the contents to be reached, the data
that is not stored is written, and the recovery rows from the last full stride
on. -/
structure Flushes (layout : Layout) (encode : (ℕ → Byte) → ℕ → Byte) (stream : ℕ → Byte)
    (block flushed target : ℕ) (writes : List QueuedWrite) : Prop where
  agrees : ∀ queuedWrite ∈ writes, AgreesWith layout encode stream block target queuedWrite
  data : ∀ index < layout.stripeCount, ∃ low ≤ layout.stripeLength flushed index,
    low < layout.stripeLength target index →
      WritesRange layout writes block index low (layout.stripeLength target index)
  recovery : ∀ index < layout.recoveryCount, ∃ low ≤ flushed / layout.strideSize *
      layout.stripeSize, low < layout.stripeLength target 0 →
    WritesRange layout writes block (layout.stripeCount + index) low
      (layout.stripeLength target 0)

/-- The writes of all chunks are those of a flush. -/
theorem Flushes.of_rangeWrites {dataWrites recoveryWrites : ℕ → List QueuedWrite}
    (hdata : ∀ index < layout.stripeCount, ∃ low ≤ layout.stripeLength flushed index,
      ∃ chunkIndex stripeIdentifier, dataWrites index =
        rangeWrites (layout.chunkStart block index) (stripeStream layout stream block index) low
          (layout.stripeLength target index) chunkIndex stripeIdentifier)
    (hrecovery : ∀ index < layout.recoveryCount, ∃ chunkIndex stripeIdentifier,
      recoveryWrites index = rangeWrites (layout.chunkStart block (layout.stripeCount + index))
        (recoveryStream layout encode (truncate stream (block * layout.blockSize + target)) block
          index) (flushed / layout.strideSize * layout.stripeSize) (layout.stripeLength target 0)
        chunkIndex stripeIdentifier) :
    Flushes layout encode stream block flushed target
      ((List.range layout.stripeCount).flatMap dataWrites ++
        (List.range layout.recoveryCount).flatMap recoveryWrites) := by
  refine ⟨fun queuedWrite hmem => ?_, fun index hindex => ?_, fun index hindex => ?_⟩
  · rw [mem_append, mem_flatMap, mem_flatMap] at hmem
    rcases hmem with ⟨index, hindex, hmem⟩ | ⟨index, hindex, hmem⟩
    · obtain ⟨low, -, chunkIndex, stripeIdentifier, hwrites⟩ := hdata index (mem_range.mp hindex)
      obtain ⟨-, rfl⟩ := mem_rangeWrites.mp (hwrites ▸ hmem)
      exact .inl ⟨index, mem_range.mp hindex, low, rfl, rfl⟩
    · obtain ⟨chunkIndex, stripeIdentifier, hwrites⟩ := hrecovery index (mem_range.mp hindex)
      obtain ⟨-, rfl⟩ := mem_rangeWrites.mp (hwrites ▸ hmem)
      exact .inr ⟨index, mem_range.mp hindex, _, rfl, rfl⟩
  · obtain ⟨low, hlow, chunkIndex, stripeIdentifier, hwrites⟩ := hdata index hindex
    refine ⟨low, hlow, fun hlt => ?_⟩
    have hmem := hwrites ▸ mem_rangeWrites.mpr ⟨hlt, rfl⟩
    exact ⟨_, mem_append_left _ (mem_flatMap.mpr ⟨index, mem_range.mpr hindex, hmem⟩), rfl,
      length_slice _ _ _⟩
  · obtain ⟨chunkIndex, stripeIdentifier, hwrites⟩ := hrecovery index hindex
    refine ⟨_, le_rfl, fun hlt => ?_⟩
    have hmem := hwrites ▸ mem_rangeWrites.mpr ⟨hlt, rfl⟩
    exact ⟨_, mem_append_right _ (mem_flatMap.mpr ⟨index, mem_range.mpr hindex, hmem⟩), rfl,
      length_slice _ _ _⟩

theorem AgreesWith.stored_eq {queuedWrite : QueuedWrite} (htarget : target ≤ layout.blockSize)
    (hagrees : AgreesWith layout encode stream block target queuedWrite) {count : ℕ}
    (hcount : count < queuedWrite.bytes.length) :
    layout.storedContents encode stream (block * layout.blockSize + target)
      (queuedWrite.offset + (count : ℕ)) = queuedWrite.bytes[count]? := by
  rcases hagrees with ⟨index, hindex, low, hoffset, hbytes⟩ | ⟨index, hindex, low, hoffset, hbytes⟩
  · have hle := stripeLength_le_chunkSize hindex htarget
    rw [hbytes, length_slice] at hcount
    rw [hoffset, ← Nat.cast_add, add_assoc,
      storedContents_chunkStart _ _ _ _ (by omega) (by omega), chunkContents_data hindex,
      if_pos (by omega), hbytes, getElem?_slice _ (by omega)]
  · have hle := stripeLength_le_chunkSize layout.stripeCount_pos htarget
    rw [hbytes, length_slice] at hcount
    rw [hoffset, ← Nat.cast_add, add_assoc,
      storedContents_chunkStart _ _ _ _ (by omega) (by omega), chunkContents_recovery,
      if_pos (by omega), hbytes, getElem?_slice _ (by omega)]

variable {writes : List QueuedWrite}

theorem WritesRange.covers {chunk low high : ℕ}
    (hrange : WritesRange layout writes block chunk low high) (hlow : low ≤ chunkOffset)
    (hhigh : chunkOffset < high) :
    ∃ queuedWrite ∈ writes,
      queuedWrite.Covers (layout.chunkStart block chunk + chunkOffset : ℕ) := by
  obtain ⟨queuedWrite, hmem, hoffset, hlength⟩ := hrange
  refine ⟨queuedWrite, hmem, ?_⟩
  rw [QueuedWrite.Covers]
  omega

/-- A flush stores the file up to its target. -/
theorem Flushes.stored_eq (hflushes : Flushes layout encode stream block flushed target writes)
    (hle : flushed ≤ target) (htarget : target ≤ layout.blockSize) :
    writes.foldl applyWrite
        (layout.storedContents encode stream (block * layout.blockSize + flushed)) =
      layout.storedContents encode stream (block * layout.blockSize + target) := by
  apply foldl_applyWrite_eq
  · exact fun queuedWrite hmem count hcount =>
      (hflushes.agrees queuedWrite hmem).stored_eq htarget hcount
  · intro address hnot
    rcases lt_or_ge address 0 with hneg | hnonneg
    · rw [storedContents, storedContents, if_pos hneg, if_pos hneg]
    lift address to ℕ using hnonneg
    obtain ⟨other, index, chunkOffset, hindex, hoffset, rfl⟩ := layout.exists_chunkStart address
    rw [storedContents_chunkStart _ _ _ _ hindex hoffset,
      storedContents_chunkStart _ _ _ _ hindex hoffset]
    rcases ne_or_eq other block with hother | rfl
    · exact chunkContents_other hother hoffset (hle.trans htarget) htarget
    rcases chunk_cases hindex with hdata | ⟨recoveryIndex, hrecovery, rfl⟩
    · obtain ⟨low, hlow, hrange⟩ := hflushes.data index hdata
      have hmono := stripeLength_mono hdata hle
      rw [chunkContents_data hdata, chunkContents_data hdata]
      by_cases hstored : chunkOffset < layout.stripeLength flushed index
      · rw [if_pos hstored, if_pos (by omega)]
      · rw [if_neg hstored, if_neg]
        intro hlt
        obtain ⟨queuedWrite, hmem, hcovers⟩ := (hrange (by omega)).covers (by omega) hlt
        exact hnot queuedWrite hmem hcovers
    · obtain ⟨low, hlow, hrange⟩ := hflushes.recovery recoveryIndex hrecovery
      have hmono := stripeLength_mono layout.stripeCount_pos hle
      rw [chunkContents_recovery, chunkContents_recovery]
      by_cases hrow : chunkOffset < layout.stripeLength target 0
      · by_cases hbefore : chunkOffset < low
        · have hfull : flushed / layout.strideSize * layout.stripeSize ≤
              layout.stripeLength flushed 0 := by
            rw [← stripeLength_strides layout.stripeCount_pos]
            exact stripeLength_mono layout.stripeCount_pos (Nat.div_mul_le_self _ _)
          rw [if_pos hrow, if_pos (by omega), recoveryStream_truncate hle (by omega)]
        · obtain ⟨queuedWrite, hmem, hcovers⟩ :=
            (hrange (by omega)).covers (Nat.le_of_not_lt hbefore) hrow
          exact absurd hcovers (hnot queuedWrite hmem)
      · rw [if_neg hrow, if_neg (by omega)]

end Contents

/-! ## Writing all buffers -/

/-- The state after all buffers are written. -/
def drainedState (layout : Layout) (stripeIdentifier : ℤ) (state : RSWriteStriper) :
    RSWriteStriper :=
  { state with
    pendingCount := state.pendingCount -
      ∑ index ∈ Finset.range (layout.stripeCount + layout.recoveryCount),
        (state.buffers index).writeLen
    buffers := fun index =>
      if index < layout.stripeCount + layout.recoveryCount then (state.buffers index).drained
      else state.buffers index
    queued := state.queued ++
      (List.range (layout.stripeCount + layout.recoveryCount)).flatMap fun index =>
        (state.buffers index).writes index stripeIdentifier }

namespace Filling

variable (hfilling : Filling layout env stream block place done flushed start state)

include hfilling

variable {index : ℕ}

theorem done_le_stripeLength (hindex : index < layout.stripeCount) :
    done * layout.stripeSize ≤ layout.stripeLength place index := by
  rw [← stripeLength_strides hindex]
  exact stripeLength_mono hindex hfilling.done_le

/-- Every buffer is ready to be written. -/
theorem ready (hindex : index < layout.stripeCount + layout.recoveryCount) :
    (state.buffers index).Ready := by
  rcases chunk_cases hindex with hdata | ⟨recoveryIndex, hrecovery, rfl⟩
  · have hstart := hfilling.start_le_done index hdata
    have hlength := hfilling.done_le_stripeLength hdata
    rw [WriteBuffer.Ready, hfilling.writeLen index hdata, hfilling.data.length_bytes hdata]
    omega
  · have hlow := hfilling.recovery.low_le
    rw [WriteBuffer.Ready, hfilling.recovery.writeLen recoveryIndex hrecovery,
      hfilling.recovery.bytes recoveryIndex hrecovery, length_slice]
    omega

theorem writeAll_eq_drainedState (hrealises : env.Realises layout) (haccepting : env.Accepting)
    (threshold stripeIdentifier : ℤ) :
    writeAll env threshold stripeIdentifier state =
      some (drainedState layout stripeIdentifier state) := by
  have hready : ∀ index < env.striper.dataCount + env.striper.recoveryCount,
      (state.buffers index).Ready := by
    rw [hrealises.dataCount, hrealises.recoveryCount]
    exact fun index hindex => hfilling.ready hindex
  rw [writeAll_eq haccepting hfilling.failures threshold stripeIdentifier hready,
    hrealises.dataCount, hrealises.recoveryCount]
  rfl

/-- With the strides encoded, the stored part reaches at least to them. -/
theorem max_flushed_div : max flushed (done * layout.strideSize) / layout.strideSize = done := by
  have hpos := layout.strideSize_pos
  have hstep : done * layout.strideSize < (done + 1) * layout.strideSize :=
    Nat.mul_lt_mul_of_pos_right (Nat.lt_succ_self done) hpos
  apply le_antisymm
  · exact Nat.lt_succ_iff.mp ((Nat.div_lt_iff_lt_mul hpos).mpr (max_lt hfilling.flushed_lt hstep))
  · exact (Nat.le_div_iff_mul_le hpos).mpr (le_max_right _ _)

theorem writes_data (hindex : index < layout.stripeCount) (stripeIdentifier : ℤ) :
    (state.buffers index).writes index stripeIdentifier =
      rangeWrites (layout.chunkStart block index) (stripeStream layout stream block index)
        (start index) (done * layout.stripeSize) index stripeIdentifier :=
  writes_eq_rangeWrites (hfilling.data.bytes index hindex)
    (hfilling.writeLen index hindex) (hfilling.data.endPos index hindex)
    (hfilling.start_le_done index hindex) (hfilling.done_le_stripeLength hindex) _ _

theorem writes_recovery (hindex : index < layout.recoveryCount) (stripeIdentifier : ℤ) :
    (state.buffers (layout.stripeCount + index)).writes (layout.stripeCount + index : ℕ)
        stripeIdentifier =
      rangeWrites (layout.chunkStart block (layout.stripeCount + index))
        (recoveryStream layout env.encode stream block index)
        (flushed / layout.strideSize * layout.stripeSize) (done * layout.stripeSize)
        (layout.stripeCount + index : ℕ) stripeIdentifier :=
  writes_eq_rangeWrites (hfilling.recovery.bytes index hindex)
    (hfilling.recovery.writeLen index hindex)
    (fun hlt => hfilling.recovery.endPos hlt index hindex) hfilling.recovery.low_le le_rfl _ _

section

variable (stripeIdentifier : ℤ)

/-- The buffers hold exactly what a flush of the full strides has to write. -/
theorem flushes :
    Flushes layout env.encode stream block flushed (done * layout.strideSize)
      ((List.range (layout.stripeCount + layout.recoveryCount)).flatMap fun index =>
        (state.buffers index).writes index stripeIdentifier) := by
  have hfull : ∀ index < layout.stripeCount,
      layout.stripeLength (done * layout.strideSize) index = done * layout.stripeSize :=
    fun index hindex => stripeLength_strides hindex done
  have hrows : ∀ index, slice (recoveryStream layout env.encode stream block index)
        (flushed / layout.strideSize * layout.stripeSize) (done * layout.stripeSize) =
      slice (recoveryStream layout env.encode
        (truncate stream (block * layout.blockSize + done * layout.strideSize)) block index)
        (flushed / layout.strideSize * layout.stripeSize) (done * layout.stripeSize) := by
    intro index
    refine slice_congr fun chunkOffset _ hlt => recoveryStream_congr fun index hindex => ?_
    have hposition : layout.positionAt block index chunkOffset <
        block * layout.blockSize + done * layout.strideSize := by
      rw [positionAt_lt_iff hindex, hfull index hindex]
      exact hlt
    rw [truncate, if_pos hposition]
  rw [range_add, flatMap_append, flatMap_map]
  refine .of_rangeWrites (fun index hindex =>
    ⟨start index, hfilling.start_le_flushed index hindex, index, stripeIdentifier, ?_⟩)
    fun index hindex => ⟨(layout.stripeCount + index : ℕ), stripeIdentifier, ?_⟩
  · rw [hfilling.writes_data hindex, hfull index hindex]
  · rw [hfilling.writes_recovery hindex, hfull 0 layout.stripeCount_pos, rangeWrites, hrows]
    rfl

/-- Writing all buffers stores all encoded strides. -/
theorem stored_drainedState :
    Striping.stored (drainedState layout stripeIdentifier state).queued =
      layout.storedContents env.encode stream
        (block * layout.blockSize + max flushed (done * layout.strideSize)) := by
  simp only [drainedState]
  rw [stored_append, hfilling.stored]
  rcases Nat.lt_or_ge (done * layout.strideSize) flushed with hlast | hle
  · obtain ⟨hfloor, hstart⟩ := hfilling.start_eq_of_lt hlast
    have hnone : (range (layout.stripeCount + layout.recoveryCount)).flatMap
        (fun index => (state.buffers index).writes index stripeIdentifier) = [] := by
      rw [flatMap_eq_nil_iff]
      intro index hindex
      rw [mem_range] at hindex
      rcases chunk_cases hindex with hdata | ⟨recoveryIndex, hrecovery, rfl⟩
      · rw [hfilling.writes_data hdata, hstart index hdata, rangeWrites_self]
      · rw [hfilling.writes_recovery hrecovery, hfloor, rangeWrites_self]
    rw [hnone, max_eq_left hlast.le, foldl_nil]
  · rw [max_eq_right hle]
    exact (hfilling.flushes stripeIdentifier).stored_eq hle
      (hfilling.done_le.trans hfilling.place_le)

theorem sum_writeLen :
    ∑ index ∈ Finset.range (layout.stripeCount + layout.recoveryCount),
        (state.buffers index).writeLen =
      (done * layout.strideSize : ℕ) -
          ∑ index ∈ Finset.range layout.stripeCount, (start index : ℤ) +
        layout.recoveryCount * ((done * layout.stripeSize : ℕ) -
          (flushed / layout.strideSize * layout.stripeSize : ℕ)) := by
  have hdata : ∀ index ∈ range layout.stripeCount, (state.buffers index).writeLen =
      (done * layout.stripeSize : ℕ) - (start index : ℤ) :=
    fun index hindex => hfilling.writeLen index (mem_range.mp hindex)
  have hrecovery : ∀ index ∈ Finset.range layout.recoveryCount,
      (state.buffers (layout.stripeCount + index)).writeLen =
        ((done * layout.stripeSize : ℕ) : ℤ) -
          (flushed / layout.strideSize * layout.stripeSize : ℕ) :=
    fun index hindex => hfilling.recovery.writeLen index (mem_range.mp hindex)
  rw [Finset.sum_range_add, Finset.sum_congr rfl hdata, Finset.sum_congr rfl hrecovery,
    Finset.sum_sub_distrib, sum_rows, Finset.sum_const, Finset.card_range, nsmul_eq_mul]

/-- After all buffers are written, only the data of the current stride is pending,
without what a partial flush has stored of it. -/
theorem pendingCount_drainedState :
    (drainedState layout stripeIdentifier state).pendingCount =
      (place : ℤ) - max flushed (done * layout.strideSize) := by
  simp only [drainedState]
  rw [hfilling.sum_writeLen, hfilling.pendingCount_eq]
  omega

theorem drainedState_data :
    HoldsData layout stream block place (fun _ => done * layout.stripeSize)
      (drainedState layout stripeIdentifier state).buffers := by
  have hdrained : ∀ index < layout.stripeCount,
      (drainedState layout stripeIdentifier state).buffers index =
        (state.buffers index).drained := fun index hindex => if_pos (by omega)
  refine ⟨fun index hindex => hfilling.done_le_stripeLength hindex, ?_, ?_⟩
  · intro index hindex
    have hstart := hfilling.start_le_done index hindex
    rw [hdrained index hindex, bytes_drained, hfilling.writeLen index hindex,
      hfilling.data.bytes index hindex, drop_slice]
    congr 1
    omega
  · intro index hindex hlt
    rw [hdrained index hindex]
    exact hfilling.data.endPos index hindex
      (lt_of_le_of_lt (hfilling.start_le_done index hindex) hlt)

theorem drainedState_recovery :
    HoldsRecovery layout env.encode stream block (done * layout.stripeSize)
      (done * layout.stripeSize) (drainedState layout stripeIdentifier state).buffers := by
  have hdrained : ∀ index < layout.recoveryCount,
      (drainedState layout stripeIdentifier state).buffers (layout.stripeCount + index) =
        (state.buffers (layout.stripeCount + index)).drained :=
    fun index hindex => if_pos (by omega)
  refine .of_empty fun index hindex => ?_
  rw [hdrained index hindex, bytes_drained, hfilling.recovery.writeLen index hindex,
    hfilling.recovery.bytes index hindex, drop_slice]
  exact ⟨slice_of_le _ (by omega), rfl⟩

/-- Writing all buffers keeps the invariant, with all encoded strides stored. -/
theorem drained :
    Filling layout env stream block place done (max flushed (done * layout.strideSize))
      (fun _ => done * layout.stripeSize) (drainedState layout stripeIdentifier state) := by
  have hfloor := hfilling.max_flushed_div
  have hdata := hfilling.drainedState_data stripeIdentifier
  have hrecovery := hfilling.drainedState_recovery stripeIdentifier
  refine
    { hfilling with
      flushed_le := max_le hfilling.flushed_le hfilling.done_le
      flushed_stride := hfloor.le
      low_le_start := fun index hindex => by rw [hfloor]
      start_le_flushed := fun index hindex => ?_
      start_le_done := fun index hindex => le_rfl
      data := hdata
      recovery := by rwa [hfloor]
      writeLen := fun index hindex => ?_
      pendingCount := ?_
      partialFlush := ?_
      stored := hfilling.stored_drainedState stripeIdentifier }
  · rw [← stripeLength_strides hindex]
    exact stripeLength_mono hindex (le_max_right _ _)
  · rw [sub_self, drainedState]
    simp only [if_pos (show index < layout.stripeCount + layout.recoveryCount by omega)]
    rfl
  · rw [hfilling.pendingCount_drainedState, hdata.bufferedBytes_eq, hrecovery.bufferedBytes_eq,
      sum_rows]
    omega
  · obtain ⟨last, hlast, hle, hmiddle⟩ := hfilling.partialFlush
    refine ⟨last, hlast, hle.trans (Nat.add_le_add_left (le_max_left _ _) _), fun hlt => ?_⟩
    rw [max_eq_left (by omega)]
    exact hmiddle (by omega)

end

/-! ## Pending bytes -/

theorem sum_start_le :
    ∑ index ∈ Finset.range layout.stripeCount, (start index : ℤ) ≤ flushed := by
  have hsum : ∑ index ∈ Finset.range layout.stripeCount, start index ≤ flushed := by
    rw [← @sum_stripeLength layout flushed]
    exact sum_le_sum fun index hindex =>
      hfilling.start_le_flushed index (mem_range.mp hindex)
  exact_mod_cast hsum

/-- What is dealt out and not stored is pending. -/
theorem place_sub_flushed_le : (place : ℤ) - flushed ≤ state.pendingCount := by
  have hpending := hfilling.pendingCount_eq
  rcases Nat.lt_or_ge (done * layout.strideSize) flushed with hlast | hle
  · obtain ⟨hfloor, hstart⟩ := hfilling.start_eq_of_lt hlast
    have hsum : ∑ index ∈ Finset.range layout.stripeCount, (start index : ℤ) =
        (done * layout.strideSize : ℕ) := by
      rw [← sum_rows]
      exact Finset.sum_congr rfl fun index hindex => by
        rw [hstart index (mem_range.mp hindex)]
    rw [hpending, hfloor]
    omega
  · have hrows : (0 : ℤ) ≤ layout.recoveryCount * ((done * layout.stripeSize : ℕ) -
        (flushed / layout.strideSize * layout.stripeSize : ℕ)) := by
      apply mul_nonneg (Int.natCast_nonneg _)
      have := hfilling.recovery.low_le
      omega
    have hsum := hfilling.sum_start_le
    omega

/-- If nothing is pending, everything is stored. -/
theorem flushed_eq_of_pendingCount (hpending : state.pendingCount = 0) : flushed = place := by
  have hle := hfilling.place_sub_flushed_le
  have := hfilling.flushed_le
  omega

end Filling

/-! ## Flush -/

section Flush

variable {env : WriteEnvironment} (hrealises : env.Realises layout)
variable (hrecoveryCount : 0 < layout.recoveryCount) (haccepting : env.Accepting)

include hrealises hrecoveryCount haccepting

/-- Either less than the threshold is pending in the end, or all encoded strides
are stored. -/
theorem flushLoop_eq (threshold stripeIdentifier : ℤ) (rounds : ℕ) {curThreshold : ℤ}
    (hrounds : curThreshold < rounds) (hnonneg : 0 ≤ curThreshold) {state : RSWriteStriper}
    {flushed : ℕ} {start : ℕ → ℕ}
    (hfilling : Filling layout env stream block place done flushed start state) :
    ∃ next flushed' start', Striping.flushLoop env threshold stripeIdentifier rounds curThreshold
        state = some next ∧
      Filling layout env stream block place done flushed' start' next ∧
      (next.pendingCount < threshold ∨ done * layout.strideSize ≤ flushed' ∧
        next.pendingCount = (place : ℤ) - flushed') := by
  induction rounds generalizing curThreshold state flushed start with
  | zero => omega
  | succ rounds ih =>
    rw [Striping.flushLoop]
    by_cases hfew : state.pendingCount < threshold
    · exact ⟨state, flushed, start, if_pos hfew, hfilling, .inl hfew⟩
    · have hdrained := hfilling.drained stripeIdentifier
      have hpending := hfilling.pendingCount_drainedState stripeIdentifier
      rw [if_neg hfew, hfilling.writeAll_eq_drainedState hrealises haccepting]
      simp only [Option.bind_eq_bind, Option.bind_some]
      by_cases hstop : (drainedState layout stripeIdentifier state).pendingCount < threshold ∨
          curThreshold ≤ 0
      · rw [if_pos hstop]
        exact ⟨_, _, _, rfl, hdrained, .inr ⟨le_max_right _ _, by rw [hpending]⟩⟩
      · rw [if_neg hstop, hrealises.dataCount, hrealises.recoveryCount]
        have hcount := layout.stripeCount_pos
        lift curThreshold to ℕ using hnonneg
        have hdiv : curThreshold / (layout.stripeCount + layout.recoveryCount) < curThreshold :=
          Nat.div_lt_self (by omega) (by omega)
        exact ih (by omega) (Int.natCast_nonneg _) hdrained

/-- `Flush` keeps the invariant; if all data is encoded and the threshold is at
most one byte, nothing is left pending. -/
theorem flush_eq (hfilling : Filling layout env stream block place done flushed start state)
    (threshold stripeIdentifier : ℤ) :
    ∃ next flushed start, flush env threshold stripeIdentifier state = some next ∧
      Filling layout env stream block place done flushed start next ∧
      (place = done * layout.strideSize → threshold ≤ 1 → next.pendingCount = 0) := by
  obtain ⟨next, flushed', start', hflush, hnext, hpending⟩ := flushLoop_eq hrealises
    hrecoveryCount haccepting (max 1 (max (wrap32 (state.offset - state.recoveryEndPos)) threshold))
    stripeIdentifier ((max 0 threshold).toNat + 1)
    (show max 0 threshold < ((max 0 threshold).toNat + 1 : ℕ) by omega) (by omega) hfilling
  refine ⟨next, flushed', start', hflush, hnext, fun hplace hthreshold => ?_⟩
  have hoffset : state.offset - state.recoveryEndPos = 0 := by
    rw [hfilling.offset, hfilling.recoveryEndPos]
    omega
  have hlow := hnext.place_sub_flushed_le
  have hle := hnext.flushed_le
  rw [hoffset, show wrap32 0 = 0 by decide] at hpending
  omega

end Flush

/-! ## The next chunk block -/

/-- A chunk block that is stored completely is left for the next one. -/
theorem Filling.nextBlock
    (hfilling : Filling layout env stream block layout.blockSize done layout.blockSize start state)
    (hdone : layout.blockSize < (done + 1) * layout.strideSize) :
    Filling layout env stream (block + 1) 0 0 0 (fun _ => 0) state := by
  have hpos := layout.strideSize_pos
  have hstrides : done = layout.strides := by
    have hle := hfilling.done_le
    rw [blockSize_eq_strides, mul_comm layout.strideSize] at hle hdone
    have hlower := Nat.le_of_mul_le_mul_right hle hpos
    have hupper := Nat.lt_of_mul_lt_mul_right hdone
    omega
  subst hstrides
  have hblock : layout.strides * layout.strideSize = layout.blockSize := by
    rw [blockSize_eq_strides, mul_comm]
  have hfloor : layout.blockSize / layout.strideSize = layout.strides := by
    rw [← hblock, Nat.mul_div_cancel _ hpos]
  have hstart := hfilling.start_eq hfloor
  have hempty : ∀ index < layout.stripeCount, layout.stripeLength 0 index = 0 := by
    intro index hindex
    have hzero := stripeLength_strides hindex 0
    rwa [zero_mul, zero_mul] at hzero
  have hdata : HoldsData layout stream (block + 1) 0 (fun _ => 0) state.buffers := by
    refine ⟨fun _ _ => Nat.zero_le _, ?_, ?_⟩
    · intro index hindex
      rw [hempty index hindex, hfilling.data.bytes index hindex, hstart index hindex,
        stripeLength_blockSize hindex]
      exact slice_self _ _
    · intro index hindex hlt
      rw [hempty index hindex] at hlt
      exact absurd hlt (lt_irrefl 0)
  have hrecovery : HoldsRecovery layout env.encode stream (block + 1) 0 0 state.buffers := by
    refine .of_empty fun index hindex => ?_
    rw [hfilling.recovery.bytes index hindex, hfilling.recovery.writeLen index hindex, hfloor]
    exact ⟨slice_self _ _, sub_self _⟩
  have hoffset := hfilling.offset
  have hend := hfilling.recoveryEndPos
  have hnext : (block + 1) * layout.blockSize = block * layout.blockSize + layout.blockSize := by
    rw [add_one_mul]
  rw [hblock] at hend
  refine
    { offset := by rw [hoffset, hnext, add_zero]
      recoveryEndPos := by rw [hend, hnext, zero_mul, add_zero]
      done_le := by rw [zero_mul]
      place_le := Nat.zero_le _
      flushed_le := le_rfl
      flushed_stride := by rw [Nat.zero_div]
      low_le_start := fun index _ => by rw [Nat.zero_div, zero_mul]
      start_le_flushed := fun index hindex => Nat.zero_le _
      start_le_done := fun index hindex => Nat.zero_le _
      data := hdata
      recovery := by rwa [Nat.zero_div, zero_mul]
      writeLen := fun index hindex => by
        rw [hfilling.writeLen index hindex, hstart index hindex, zero_mul, sub_self, sub_self]
      pendingCount := by
        rw [hfilling.pendingCount, hblock, Nat.sub_self, Nat.zero_sub]
      partialFlush := ?_
      iterator := hfilling.iterator
      fileSize := hfilling.fileSize
      failures := hfilling.failures
      stored := by rw [hfilling.stored, hnext, add_zero] }
  obtain ⟨last, hlast, hle, -⟩ := hfilling.partialFlush
  exact ⟨last, hlast, by omega, fun hlt => absurd hlt (by omega)⟩

end QfsRepair.Striping
