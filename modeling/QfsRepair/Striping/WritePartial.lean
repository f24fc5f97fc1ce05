import QfsRepair.Striping.WritePadding

/-!
# Writing a padded stride

The data buffers are written without the padding and keep the head of the
stride; the recovery buffers are written up to the end of the longest data
stripe.  Together these writes store all data that was dealt out.
-/

namespace QfsRepair.Striping

open Function List
open Machine Option Layout

variable {layout : Layout} {env : WriteEnvironment} {stream : ℕ → Byte}
variable {block place done flushed : ℕ} {start : ℕ → ℕ} {state : RSWriteStriper}

/-! ## Data buffers -/

section Data

variable (hrealises : env.Realises layout) (haccepting : env.Accepting)

include hrealises haccepting

variable {index : ℕ}

/-- One data buffer, which holds its chunk from `low` to the end of the padding. -/
theorem writePaddedStripe_eq {state : RSWriteStriper} (hfailures : state.writeFailures = [])
    {low full tail front chunk : ℕ} {chunkStream : ℕ → Byte}
    (hbytes : (state.buffers index).bytes = slice chunkStream low (full + layout.stripeSize))
    (hend : (state.buffers index).endPos = (chunk + (full + layout.stripeSize) : ℕ))
    (hlow : low ≤ full) (htail : tail ≤ layout.stripeSize)
    (hfront : low = full + tail → front = 0) :
    ∃ amount, amount ≤ front ∧ amount ≤ layout.stripeSize ∧ low + amount ≤ full + tail ∧
      writePaddedStripe env index tail front state =
        some (((front - layout.stripeSize : ℕ) : ℤ),
          { state with
            pendingCount := state.pendingCount - (full + tail - low : ℕ)
            buffers := update state.buffers index
              { endPos := if low < full + tail then (chunk + (full + tail) : ℕ) else 0
                bytes := slice chunkStream full (full + tail)
                writeLen := 0 }
            queued := state.queued ++
              rangeWrites chunk chunkStream (low + amount) (full + tail) (-1) (-1) }) := by
  have hlen : ((state.buffers index).bytes.length : ℤ) - (layout.stripeSize - tail) =
      ((full + tail - low : ℕ) : ℤ) := by
    rw [hbytes, length_slice]
    omega
  have htake : (state.buffers index).bytes.take (full + tail - low) =
      slice chunkStream low (full + tail) := by
    rw [hbytes, take_slice]
    congr 1
    omega
  have hendPos : (state.buffers index).endPos - ((layout.stripeSize : ℤ) - tail) =
      (chunk + (full + tail) : ℕ) := by
    omega
  simp only [writePaddedStripe, hrealises.implements.stripeSize, hlen, hendPos,
    Int.toNat_natCast, htake]
  by_cases hpos : low < full + tail
  · have hoffset : ((slice chunkStream low (full + tail)).length : ℤ) ≤
        (chunk + (full + tail) : ℕ) := by
      rw [length_slice]
      omega
    obtain ⟨amount, hfrontLe, hsizeLe, hlengthLe, htrimmed⟩ := @trimBufferFront_eq _ _ hrealises
      ⟨(chunk + (full + tail) : ℕ), slice chunkStream low (full + tail), (full + tail - low : ℕ)⟩
      hoffset front state.pendingCount
    simp only [length_slice] at hlengthLe
    refine ⟨amount, hfrontLe, hsizeLe, by omega, ?_⟩
    have hready : (WriteBuffer.trimmed ⟨(chunk + (full + tail) : ℕ),
        slice chunkStream low (full + tail), (full + tail - low : ℕ)⟩ amount).Ready := by
      simp only [WriteBuffer.Ready, WriteBuffer.trimmed, length_drop, length_slice]
      omega
    have hpending : state.pendingCount - amount - (((full + tail - low : ℕ) : ℤ) - amount) =
        state.pendingCount - (full + tail - low : ℕ) := by ring
    have hkept : ((full + tail - low : ℕ) - (tail : ℤ)).toNat = full - low := by omega
    rw [if_pos (by omega), htrimmed, write_eq haccepting (by exact hfailures) hready,
      @WriteBuffer.writes_eq_rangeWrites _ chunkStream chunk (low + amount) (full + tail)
        (full + tail) (drop_slice ..) (show ((full + tail - low : ℕ) : ℤ) - amount = _ by omega)
        (fun _ => rfl) (by omega) le_rfl]
    simp [map_some, RSWriteStriper.setBuffer, WriteBuffer.trimmed, drop_slice, hkept,
      Nat.add_sub_cancel' hlow, if_pos hpos, hpending]
  · have hzero : low = full + tail := by omega
    obtain rfl : tail = 0 := by omega
    rw [hfront hzero]
    simp [RSWriteStriper.setBuffer, hzero, rangeWrites_self]

/-- What is left of a data buffer. -/
def keptBuffer (layout : Layout) (stream : ℕ → Byte) (block done : ℕ) (head : ℕ)
    (start : ℕ → ℕ) (index : ℕ) : WriteBuffer where
  endPos :=
    if start index < done * layout.stripeSize + layout.stripeTail head index then
      (layout.chunkStart block index +
        (done * layout.stripeSize + layout.stripeTail head index) : ℕ)
    else 0
  bytes := slice (stripeStream layout stream block index) (done * layout.stripeSize)
    (done * layout.stripeSize + layout.stripeTail head index)
  writeLen := 0

/-- What is queued for a data buffer, of which `amounts` bytes are trimmed. -/
def paddedWrites (layout : Layout) (stream : ℕ → Byte) (block done : ℕ) (head : ℕ)
    (start amounts : ℕ → ℕ) (index : ℕ) : List QueuedWrite :=
  if start index + amounts index < done * layout.stripeSize + layout.stripeTail head index then
    [⟨(layout.chunkStart block index + (start index + amounts index) : ℕ),
      slice (stripeStream layout stream block index) (start index + amounts index)
        (done * layout.stripeSize + layout.stripeTail head index), -1, -1⟩]
  else []

theorem writePadded_eq {head front : ℕ} (hfront : front ≤ head)
    (hstart : ∀ index < layout.stripeCount, start index ≤ done * layout.stripeSize)
    (first count : ℕ) (hcount : first + count ≤ layout.stripeCount)
    {state : RSWriteStriper} (hfailures : state.writeFailures = [])
    (hbytes : ∀ index, first ≤ index → index < first + count → (state.buffers index).bytes =
      slice (stripeStream layout stream block index) (start index)
        (done * layout.stripeSize + layout.stripeSize))
    (hend : ∀ index, first ≤ index → index < first + count → (state.buffers index).endPos =
      (layout.chunkStart block index + (done * layout.stripeSize + layout.stripeSize) : ℕ)) :
    ∃ amounts : ℕ → ℕ, (∀ index, first ≤ index → index < first + count →
        amounts index ≤ layout.stripeTail front index) ∧
      writePadded env (List.range' first count) ((head - first * layout.stripeSize : ℕ) : ℤ)
          ((front - first * layout.stripeSize : ℕ) : ℤ) state =
        some { state with
          pendingCount := state.pendingCount - ∑ index ∈ Finset.range count,
            ((done * layout.stripeSize + layout.stripeTail head (first + index) -
              start (first + index) : ℕ) : ℤ)
          buffers := fun index =>
            if first ≤ index ∧ index < first + count then
              keptBuffer layout stream block done head start index
            else state.buffers index
          queued := state.queued ++ (List.range' first count).flatMap
            (paddedWrites layout stream block done head start amounts) } := by
  induction count generalizing first state with
  | zero =>
    refine ⟨fun _ => 0, fun _ _ _ => Nat.zero_le _, ?_⟩
    rw [range'_zero, writePadded, ite_range_zero]
    simp
  | succ count ih =>
    have hfirst : first < layout.stripeCount := by omega
    have hrest : front - first * layout.stripeSize - layout.stripeSize =
        front - (first + 1) * layout.stripeSize := by
      rw [add_one_mul, Nat.sub_sub]
    have hsize := layout.stripeSize_pos
    have hstartFirst := hstart first hfirst
    have htrimZero : start first =
        done * layout.stripeSize + layout.stripeTail head first →
          front - first * layout.stripeSize = 0 := by
      intro heq
      rw [stripeTail] at heq
      omega
    obtain ⟨amount, hamount, hamountSize, -, hwritten⟩ := writePaddedStripe_eq hrealises
      haccepting hfailures (hbytes first le_rfl (by omega)) (hend first le_rfl (by omega))
      hstartFirst (stripeTail_le head first) htrimZero
    obtain ⟨amounts, hamounts, hothers⟩ := @ih (first + 1) (by omega)
      { state with
        pendingCount := state.pendingCount -
          (done * layout.stripeSize + layout.stripeTail head first - start first : ℕ)
        buffers := update state.buffers first
          (keptBuffer layout stream block done head start first)
        queued := state.queued ++
          paddedWrites layout stream block done head start (fun _ => amount) first } hfailures
      (fun index hlow hhigh => by
        simp only [update_of_ne (show index ≠ first by omega)]
        exact hbytes index (by omega) (by omega))
      (fun index hlow hhigh => by
        simp only [update_of_ne (show index ≠ first by omega)]
        exact hend index (by omega) (by omega))
    refine ⟨update amounts first amount, ?_, ?_⟩
    · intro index hlow hhigh
      by_cases heq : index = first
      · subst heq
        rw [update_self, stripeTail]
        omega
      · rw [update_of_ne heq]
        exact hamounts index (by omega) (by omega)
    · rw [range'_succ, writePadded, hrealises.min_stripeTail, hwritten]
      rw [sub_stripeTail, hrest]
      refine hothers.trans ?_
      simp only [some.injEq, RSWriteStriper.mk.injEq, true_and]
      refine ⟨?_, ?_, ?_⟩
      · rw [Finset.sum_range_succ']
        simp only [add_zero, add_assoc, add_comm 1]
        ring
      · exact ite_range_succ count rfl fun _ _ => rfl
      · rw [flatMap_cons, ← append_assoc]
        congr 1
        · rw [paddedWrites, paddedWrites, update_self]
        · apply flatMap_congr
          intro index hindex
          rw [mem_range'_1] at hindex
          rw [paddedWrites, paddedWrites, update_of_ne (by omega)]

/-- The state after the data buffers are written. -/
def dataWrittenState (layout : Layout) (stream : ℕ → Byte) (block done head : ℕ)
    (start amounts : ℕ → ℕ) (state : RSWriteStriper) : RSWriteStriper :=
  { state with
    pendingCount := state.pendingCount - ((done * layout.strideSize + head : ℕ) -
      ∑ index ∈ Finset.range layout.stripeCount, (start index : ℤ))
    buffers := fun index =>
      if index < layout.stripeCount then keptBuffer layout stream block done head start index
      else state.buffers index
    queued := state.queued ++ (List.range layout.stripeCount).flatMap
      (paddedWrites layout stream block done head start amounts) }

theorem writePadded_range {head front : ℕ} (hfront : front ≤ head)
    (hhead : head ≤ layout.strideSize)
    (hstart : ∀ index < layout.stripeCount, start index ≤ done * layout.stripeSize)
    {state : RSWriteStriper} (hfailures : state.writeFailures = [])
    (hdata : HoldsData layout stream block ((done + 1) * layout.strideSize) start state.buffers) :
    ∃ amounts : ℕ → ℕ,
      (∀ index < layout.stripeCount, amounts index ≤ layout.stripeTail front index) ∧
      writePadded env (List.range layout.stripeCount) head front state =
        some (dataWrittenState layout stream block done head start amounts state) := by
  have hsize := layout.stripeSize_pos
  have hfull : ∀ index < layout.stripeCount,
      layout.stripeLength ((done + 1) * layout.strideSize) index =
        done * layout.stripeSize + layout.stripeSize := by
    intro index hindex
    rw [stripeLength_strides hindex, add_one_mul]
  obtain ⟨amounts, hamounts, hwritten⟩ := writePadded_eq hrealises haccepting hfront hstart 0
    layout.stripeCount (by omega) hfailures
    (fun index _ hindex => by rw [hdata.bytes index (by omega), hfull index (by omega)])
    (fun index _ hindex => by
      have := hstart index (by omega)
      rw [hdata.endPos index (by omega) (by rw [hfull index (by omega)]; omega),
        hfull index (by omega)])
  refine ⟨amounts, fun index hindex => hamounts index (by omega) (by omega), ?_⟩
  have hsum : ∑ index ∈ Finset.range layout.stripeCount,
      ((done * layout.stripeSize + layout.stripeTail head (0 + index) -
        start (0 + index) : ℕ) : ℤ) =
        (done * layout.strideSize + head : ℕ) -
          ∑ index ∈ Finset.range layout.stripeCount, (start index : ℤ) := by
    have hterm : ∀ index ∈ range layout.stripeCount,
        ((done * layout.stripeSize + layout.stripeTail head (0 + index) -
          start (0 + index) : ℕ) : ℤ) =
        (layout.stripeLength (done * layout.strideSize + head) index : ℤ) - start index := by
      intro index hindex
      have := hstart index (mem_range.mp hindex)
      rw [stripeLength_eq (mem_range.mp hindex) done hhead, zero_add, ← stripeTail]
      omega
    rw [Finset.sum_congr rfl hterm, Finset.sum_sub_distrib, ← Nat.cast_sum, sum_stripeLength]
  rw [hsum, ← range_eq_range'] at hwritten
  simp only [zero_mul, Nat.sub_zero, zero_le, true_and, zero_add] at hwritten
  exact hwritten

end Data

/-! ## Recovery buffers -/

/-- What is queued for a recovery buffer. -/
def recoveryWrite (layout : Layout) (encode : (ℕ → Byte) → ℕ → Byte) (stream : ℕ → Byte)
    (block low high index : ℕ) : QueuedWrite :=
  ⟨(layout.chunkStart block (layout.stripeCount + index) + low : ℕ),
    slice (recoveryStream layout encode stream block index) low high, -1, -1⟩

section Recovery

variable {low full tail index : ℕ}

/-- A buffer that holds its chunk from `low` on is written without the padding. -/
theorem writeRecovery_eq (haccepting : env.Accepting) {state : RSWriteStriper}
    (hfailures : state.writeFailures = []) (hlow : low < full + tail)
    (htail : tail ≤ layout.stripeSize) {chunk : ℕ} {chunkStream : ℕ → Byte}
    (hbuffer : state.buffers index = ⟨(chunk + (full + layout.stripeSize) : ℕ),
      slice chunkStream low (full + layout.stripeSize), (full + layout.stripeSize : ℕ) - low⟩) :
    writeRecovery env (layout.stripeSize - tail : ℕ) state index =
      some { state with
        pendingCount := state.pendingCount - ((full + layout.stripeSize : ℕ) - (low : ℤ))
        buffers := update state.buffers index ⟨(chunk + (full + tail) : ℕ), [], 0⟩
        queued := state.queued ++
          [⟨(chunk + low : ℕ), slice chunkStream low (full + tail), -1, -1⟩] } := by
  have hlen : ((full + layout.stripeSize : ℕ) : ℤ) - low - (layout.stripeSize - tail : ℕ) =
      (full + tail - low : ℕ) := by omega
  have htake : min (full + layout.stripeSize) (low + (full + tail - low)) = full + tail := by omega
  have hendPos : ((chunk + (full + layout.stripeSize) : ℕ) : ℤ) - (layout.stripeSize - tail : ℕ) =
      (chunk + (full + tail) : ℕ) := by omega
  have hready : WriteBuffer.Ready
      ⟨(chunk + (full + tail) : ℕ), slice chunkStream low (full + tail),
        (full + tail - low : ℕ)⟩ := by
    simp only [WriteBuffer.Ready, length_slice]
    omega
  simp only [writeRecovery, hbuffer, hlen, Int.toNat_natCast, take_slice, htake, hendPos,
    writeBuffer, RSWriteStriper.setBuffer, update_self]
  rw [write_eq haccepting (by exact hfailures) hready,
    @WriteBuffer.writes_eq_rangeWrites _ chunkStream chunk low (full + tail) (full + tail) rfl
      (show ((full + tail - low : ℕ) : ℤ) = _ by omega) (fun _ => rfl) hlow.le le_rfl, rangeWrites,
    if_pos hlow]
  simp only [map_some, WriteBuffer.drained, Int.toNat_natCast, drop_slice, update_idem,
    some.injEq, RSWriteStriper.mk.injEq, true_and, and_true]
  refine ⟨by omega, ?_⟩
  rw [slice_of_le _ (by omega)]

/-- The state after the recovery buffers are written. -/
def recoveryWrittenState (layout : Layout) (encode : (ℕ → Byte) → ℕ → Byte) (stream : ℕ → Byte)
    (block low full tail : ℕ) (state : RSWriteStriper) : RSWriteStriper :=
  { state with
    pendingCount := state.pendingCount -
      layout.recoveryCount * ((full + layout.stripeSize : ℕ) - (low : ℤ))
    buffers := fun index =>
      if layout.stripeCount ≤ index ∧ index < layout.stripeCount + layout.recoveryCount then
        { endPos := (layout.chunkStart block index + (full + tail) : ℕ)
          bytes := []
          writeLen := 0 }
      else state.buffers index
    queued := state.queued ++ (List.range layout.recoveryCount).map
      (recoveryWrite layout encode stream block low (full + tail)) }

theorem foldlM_writeRecovery_range (haccepting : env.Accepting) (hlow : low < full + tail)
    (htail : tail ≤ layout.stripeSize) {state : RSWriteStriper}
    (hfailures : state.writeFailures = [])
    (hrecovery : HoldsRecovery layout env.encode stream block low (full + layout.stripeSize)
      state.buffers) :
    (List.range' layout.stripeCount layout.recoveryCount).foldlM
        (writeRecovery env (layout.stripeSize - tail : ℕ)) state =
      some (recoveryWrittenState layout env.encode stream block low full tail state) := by
  refine (foldlM_stripes_eq hfailures nodup_range'
    (fun _ => (full + layout.stripeSize : ℕ) - (low : ℤ))
    (fun index => ⟨(layout.chunkStart block index + (full + tail) : ℕ), [], 0⟩)
    (fun index => [recoveryWrite layout env.encode stream block low (full + tail)
      (index - layout.stripeCount)]) fun index hindex current hnone hbuffer => ?_).trans ?_
  · obtain ⟨hge, hlt⟩ := mem_range'_1.mp hindex
    obtain ⟨offset, rfl⟩ := Nat.exists_eq_add_of_le hge
    rw [recoveryWrite, Nat.add_sub_cancel_left]
    refine writeRecovery_eq haccepting hnone hlow htail (hbuffer.trans ?_)
    rw [← hrecovery.bytes offset (by omega), ← hrecovery.endPos (by omega) offset (by omega),
      ← hrecovery.writeLen offset (by omega)]
  · have hwrites : (List.range' layout.stripeCount layout.recoveryCount).map (fun index =>
        recoveryWrite layout env.encode stream block low (full + tail)
          (index - layout.stripeCount)) = (List.range layout.recoveryCount).map
        (recoveryWrite layout env.encode stream block low (full + tail)) := by
      simp [range'_eq_map_range, comp_def]
    rw [← map_eq_flatMap, hwrites]
    simp [recoveryWrittenState]

end Recovery

/-! ## The padded stride -/

section Partial

variable {head : ℕ} {cut : ℕ → Byte}

section Encode

variable (hrealises : env.Realises layout) (hrecoveryCount : 0 < layout.recoveryCount)

include hrealises hrecoveryCount

variable {fragments : ℤ → ℕ → List Byte → List (Fragment Byte)}

/-- The zeros are dealt out and the stride is encoded; what a partial flush has
stored of the stride is left to be trimmed. -/
theorem pad_encode_eq (hend : (block + 1) * layout.totalSize < 2 ^ 63)
    (hfragments : ∀ offset, KeepsBytes (fragments offset)) {bufSize rounds align : ℕ}
    (hbufSize : 0 < bufSize)
    (hfilling : Filling layout env stream block (done * layout.strideSize + head) done flushed
      start state)
    (hcut : cut = truncate stream (block * layout.blockSize + (done * layout.strideSize + head)))
    (hhead : head ≤ layout.strideSize) (hfits : (done + 1) * layout.strideSize ≤ layout.blockSize)
    (hrounds : layout.strideSize - head + 1 ≤ rounds) :
    ∃ padded encoded,
      padLoop env bufSize rounds (layout.strideSize - head : ℕ) align [] state = some padded ∧
      computeRecovery env (fragments padded.offset) true padded =
        some (((flushed - done * layout.strideSize : ℕ) : ℤ), encoded) ∧
      encoded.fileSize = state.fileSize ∧
      Filling layout env cut block ((done + 1) * layout.strideSize) (done + 1) flushed start
        encoded := by
  have hpos := layout.strideSize_pos
  have hsum : done * layout.strideSize + head + (layout.strideSize - head) =
      (done + 1) * layout.strideSize := by
    rw [add_one_mul]
    omega
  have hcutFilling : Filling layout env cut block (done * layout.strideSize + head) done flushed
      start state :=
    hfilling.congr_stream fun position hlt => by rw [hcut, truncate, if_pos hlt]
  rw [hcut] at hcutFilling ⊢
  obtain ⟨padded, hpad, hfileSize, hpadded⟩ := padLoop_eq hrealises hend hbufSize rounds
    (show layout.strideSize - head + min 1 align ≤ rounds by omega) hcutFilling le_rfl
    (by omega)
  rw [hsum] at hpadded
  have hdiv : (done + 1) * layout.strideSize / layout.strideSize = done + 1 :=
    Nat.mul_div_cancel _ hpos
  have hsmall := hrealises.strideSize_lt hrecoveryCount
  obtain ⟨buffers, hcompute, hencoded⟩ := hpadded.encode hrealises hrecoveryCount
    (hfragments padded.offset) (by rw [hdiv]; omega)
    (by rw [hdiv, Nat.add_sub_cancel_left, one_mul]; exact hsmall) true
  rw [hdiv] at hcompute hencoded
  refine ⟨padded, encodedState layout block (done + 1) buffers padded, hpad, ?_, hfileSize,
    hencoded⟩
  obtain ⟨last, hlast, hle, hmiddle⟩ := hpadded.partialFlush
  rw [hcompute]
  rcases Nat.lt_or_ge (done * layout.strideSize) flushed with hlt | hge
  · obtain rfl := hmiddle hlt
    exact (Filling.trimFlushed_eq hrealises hrecoveryCount hencoded hlast hlt hfilling.flushed_lt
      (hfilling.start_eq_of_lt hlt).2).1
  · rw [Nat.sub_eq_zero_of_le hge]
    apply Filling.trimFlushed_of_le
    simp only [encodedState, hlast, hrealises.strideSize hrecoveryCount, add_one_mul]
    omega

end Encode

variable {index : ℕ}

/-- Up to its length a cut off stream has the data of the stream. -/
theorem slice_stripeStream_truncate (hindex : index < layout.stripeCount) (low length : ℕ) :
    slice (stripeStream layout (truncate stream (block * layout.blockSize + length)) block index)
        low (layout.stripeLength length index) =
      slice (stripeStream layout stream block index) low (layout.stripeLength length index) :=
  slice_congr fun chunkOffset _ hlt =>
    if_pos ((positionAt_lt_iff hindex block length chunkOffset).mpr hlt)

/-- The writes of a padded stride store all data, with the recovery rows of the
stride padded with zeros. -/
theorem flushes_padded {amounts : ℕ → ℕ} (hhead : head ≤ layout.strideSize)
    (hcut : cut = truncate stream (block * layout.blockSize + (done * layout.strideSize + head)))
    (hamounts : ∀ index < layout.stripeCount,
      start index + amounts index ≤ layout.stripeLength flushed index)
    (hlow : flushed / layout.strideSize * layout.stripeSize <
      done * layout.stripeSize + layout.stripeTail head 0) :
    Flushes layout env.encode stream block flushed (done * layout.strideSize + head)
      ((List.range layout.stripeCount).flatMap
          (paddedWrites layout cut block done head start amounts) ++
        (List.range layout.recoveryCount).map (recoveryWrite layout env.encode cut block
          (flushed / layout.strideSize * layout.stripeSize)
          (done * layout.stripeSize + layout.stripeTail head 0))) := by
  rw [map_eq_flatMap]
  refine .of_rangeWrites (fun index hindex => ⟨_, hamounts index hindex, -1, -1, ?_⟩)
    fun index hindex => ⟨-1, -1, ?_⟩
  · rw [rangeWrites, ← slice_stripeStream_truncate hindex, ← hcut,
      stripeLength_eq hindex done hhead]
    rfl
  · rw [stripeLength_eq layout.stripeCount_pos done hhead, ← hcut]
    exact (if_pos hlow).symm

/-! ## Undoing the padding -/

/-- The encoded state without the padding. -/
def unpaddedState (layout : Layout) (block done head : ℕ) (state : RSWriteStriper) :
    RSWriteStriper :=
  { state with
    offset := (block * layout.blockSize + (done * layout.strideSize + head) : ℕ)
    pendingCount := state.pendingCount - (layout.strideSize - head : ℕ)
    recoveryEndPos := (block * layout.blockSize + done * layout.strideSize : ℕ) }

/-- The state after all buffers are written. -/
def paddedState (layout : Layout) (encode : (ℕ → Byte) → ℕ → Byte) (cut : ℕ → Byte)
    (block done flushed head : ℕ) (start amounts : ℕ → ℕ) (state : RSWriteStriper) :
    RSWriteStriper :=
  recoveryWrittenState layout encode cut block (flushed / layout.strideSize * layout.stripeSize)
    (done * layout.stripeSize) (layout.stripeTail head 0)
    (dataWrittenState layout cut block done head start amounts
      (unpaddedState layout block done head state))

section Write

variable {amounts : ℕ → ℕ} {encoded : RSWriteStriper}
  (hpos : 0 < head) (hhead : head < layout.strideSize)
  (hfilling : Filling layout env stream block (done * layout.strideSize + head) done flushed start
    state)
  (hcut : cut = truncate stream (block * layout.blockSize + (done * layout.strideSize + head)))
  (hencoded : Filling layout env cut block ((done + 1) * layout.strideSize) (done + 1) flushed start
    encoded)
  (hamounts : ∀ index < layout.stripeCount,
    amounts index ≤ layout.stripeTail (flushed - done * layout.strideSize) index)

theorem paddedState_kept (hindex : index < layout.stripeCount) :
    (paddedState layout env.encode cut block done flushed head start amounts encoded).buffers
      index = keptBuffer layout cut block done head start index :=
  (if_neg (by omega)).trans (if_pos hindex)

include hhead hfilling hcut in
theorem paddedState_data : HoldsData layout stream block (done * layout.strideSize + head)
    (fun _ => done * layout.stripeSize)
    (paddedState layout env.encode cut block done flushed head start amounts encoded).buffers := by
  refine ⟨fun index hindex => hfilling.done_le_stripeLength hindex, ?_, ?_⟩
  · intro index hindex
    rw [paddedState_kept hindex, ← slice_stripeStream_truncate hindex, ← hcut,
      stripeLength_eq hindex done hhead.le]
    rfl
  · intro index hindex hlt
    rw [stripeLength_eq hindex done hhead.le] at hlt ⊢
    rw [paddedState_kept hindex]
    exact if_pos (lt_of_le_of_lt (hfilling.start_le_done index hindex) hlt)

theorem paddedState_recovery : HoldsRecovery layout env.encode stream block
    (done * layout.stripeSize) (done * layout.stripeSize)
    (paddedState layout env.encode cut block done flushed head start amounts encoded).buffers := by
  refine .of_empty fun index hindex => ?_
  simp only [paddedState, recoveryWrittenState, if_pos (show layout.stripeCount ≤
    layout.stripeCount + index ∧ layout.stripeCount + index <
      layout.stripeCount + layout.recoveryCount by omega), and_self]

include hhead hfilling hencoded in
theorem paddedState_pendingCount :
    (paddedState layout env.encode cut block done flushed head start amounts
      encoded).pendingCount = 0 := by
  have hflushed := hfilling.flushed_le
  have hpending := hencoded.pendingCount_eq
  have hzero : flushed - (done + 1) * layout.strideSize = 0 := by
    rw [add_one_mul]
    omega
  simp only [paddedState, recoveryWrittenState, dataWrittenState, unpaddedState, hpending, hzero]
  push_cast [Nat.cast_sub hhead.le]
  ring

include hpos hfilling in
theorem flushed_row_lt : flushed / layout.strideSize * layout.stripeSize <
    done * layout.stripeSize + layout.stripeTail head 0 := by
  have hrow := Nat.mul_le_mul_right layout.stripeSize hfilling.flushed_stride
  have hsize := layout.stripeSize_pos
  rw [Layout.stripeTail]
  omega

include hpos hhead hfilling hcut hencoded hamounts in
theorem paddedState_stored :
    stored (paddedState layout env.encode cut block done flushed head start amounts
      encoded).queued = layout.storedContents env.encode stream
        (block * layout.blockSize + (done * layout.strideSize + head)) := by
  have hle := hfilling.flushed_le
  have hagree : ∀ position < block * layout.blockSize + flushed,
      cut position = stream position := fun position hlt => by
    rw [hcut, truncate, if_pos (by omega)]
  have hbound : ∀ index < layout.stripeCount,
      start index + amounts index ≤ layout.stripeLength flushed index := by
    intro index hindex
    have hamount := hamounts index hindex
    rcases Nat.lt_or_ge (done * layout.strideSize) flushed with hlt | hge
    · rw [(hfilling.start_eq_of_lt hlt).2 index hindex,
        stripeLength_of_stride hindex hlt.le hfilling.flushed_lt.le]
      exact Nat.add_le_add_left hamount _
    · have hstart := hfilling.start_le_flushed index hindex
      rw [Nat.sub_eq_zero_of_le hge, Layout.stripeTail] at hamount
      omega
  simp only [paddedState, recoveryWrittenState, dataWrittenState, unpaddedState]
  rw [append_assoc, stored_append, hencoded.stored, storedContents_congr hagree]
  exact (flushes_padded hhead.le hcut hbound (flushed_row_lt hpos hfilling)).stored_eq hle
    hfilling.place_le

include hpos hhead hfilling hcut hencoded hamounts in
/-- All data is stored, and the head of the stride is kept. -/
theorem paddedState_filling (hfileSize : encoded.fileSize ≤
      (block * layout.blockSize + (done * layout.strideSize + head) : ℕ)) :
    Filling layout env stream block (done * layout.strideSize + head) done
      (done * layout.strideSize + head) (fun _ => done * layout.stripeSize)
      { paddedState layout env.encode cut block done flushed head start amounts encoded with
        lastPartialFlushPos := (block * layout.blockSize +
          (done * layout.strideSize + head) : ℕ) } := by
  have hfloor : (done * layout.strideSize + head) / layout.strideSize = done := by
    rw [mul_comm, Nat.mul_add_div layout.strideSize_pos, Nat.div_eq_of_lt hhead, add_zero]
  have hdata := @paddedState_data _ _ _ _ _ _ _ _ _ _ amounts encoded hhead hfilling hcut
  have hrecovery := @paddedState_recovery layout env stream block done flushed start head cut
    amounts encoded
  exact
    { offset := rfl
      recoveryEndPos := rfl
      done_le := hfilling.done_le
      place_le := hfilling.place_le
      flushed_le := le_rfl
      flushed_stride := hfloor.le
      low_le_start := fun index _ => by rw [hfloor]
      start_le_flushed := fun index hindex => hfilling.done_le_stripeLength hindex
      start_le_done := fun index hindex => le_rfl
      data := hdata
      recovery := by rw [hfloor]; exact hrecovery
      writeLen := fun index hindex => by simp only [paddedState_kept hindex, keptBuffer, sub_self]
      pendingCount := by
        rw [hdata.bufferedBytes_eq, hrecovery.bufferedBytes_eq, sum_rows, sub_self, mul_zero]
        refine (paddedState_pendingCount hhead hfilling hencoded).trans ?_
        omega
      partialFlush := ⟨_, rfl, le_rfl, fun _ => rfl⟩
      iterator := hencoded.iterator
      fileSize := hfileSize
      failures := hencoded.failures
      stored := paddedState_stored hpos hhead hfilling hcut hencoded hamounts }

end Write

/-- The padding is undone and all buffers are written. -/
theorem write_padded_eq (hrealises : env.Realises layout) (haccepting : env.Accepting)
    {encoded : RSWriteStriper} (hpos : 0 < head) (hhead : head < layout.strideSize)
    (hfilling : Filling layout env stream block (done * layout.strideSize + head) done flushed
      start state)
    (hencoded : Filling layout env cut block ((done + 1) * layout.strideSize) (done + 1) flushed
      start encoded) :
    ∃ amounts written, (∀ index < layout.stripeCount,
        amounts index ≤ layout.stripeTail (flushed - done * layout.strideSize) index) ∧
      writePadded env (List.range layout.stripeCount) head
          (flushed - done * layout.strideSize : ℕ) (unpaddedState layout block done head encoded) =
        some written ∧
      (List.range' layout.stripeCount layout.recoveryCount).foldlM
          (writeRecovery env (layout.stripeSize - layout.stripeTail head 0 : ℕ)) written =
        some (paddedState layout env.encode cut block done flushed head start amounts encoded) := by
  have hflushed := hfilling.flushed_le
  have hrecovery := hencoded.recovery
  rw [add_one_mul] at hrecovery
  obtain ⟨amounts, hamounts, hwritten⟩ := @writePadded_range layout env cut block done start
    hrealises haccepting head (flushed - done * layout.strideSize) (by omega) hhead.le
    hfilling.start_le_done (unpaddedState layout block done head encoded) hencoded.failures
    hencoded.data
  refine ⟨amounts, _, hamounts, hwritten, foldlM_writeRecovery_range haccepting
    (flushed_row_lt hpos hfilling) (stripeTail_le head 0) hencoded.failures
    (hrecovery.congr fun index _ => if_neg (by omega))⟩

end Partial

/-- The stripe and the offset in it of a place in the current stride. -/
theorem digits_head {head : ℕ} (hhead : head < layout.strideSize) :
    layout.index (block * layout.blockSize + (done * layout.strideSize + head)) =
        head / layout.stripeSize ∧
      layout.offset (block * layout.blockSize + (done * layout.strideSize + head)) =
        head % layout.stripeSize := by
  have hposition : block * layout.blockSize + (done * layout.strideSize + head) =
      layout.stripeSize * (layout.stripeCount * (block * layout.strides + done)) + head := by
    rw [blockSize, strideSize]
    ring
  have hindex : head / layout.stripeSize < layout.stripeCount :=
    Nat.div_lt_of_lt_mul hhead
  rw [index, offset, hposition, Nat.mul_add_div layout.stripeSize_pos,
    Nat.mul_add_mod, Nat.mul_add_mod, Nat.mod_eq_of_lt hindex]
  exact ⟨rfl, rfl⟩

variable {fragments : ℤ → ℕ → List Byte → List (Fragment Byte)}

/-- A flush within a stride stores all data. -/
theorem flushPartial_eq (hrealises : env.Realises layout)
    (hrecoveryCount : 0 < layout.recoveryCount) (haccepting : env.Accepting)
    (hend : (block + 1) * layout.totalSize < 2 ^ 63)
    (hfragments : ∀ offset, KeepsBytes (fragments offset))
    (hfilling : Filling layout env stream block place done flushed start state)
    (hlow : done * layout.strideSize < place) (hhigh : place < (done + 1) * layout.strideSize) :
    ∃ next, flushPartial env fragments state = some next ∧ next.pendingCount = 0 ∧
      Filling layout env stream block place done place (fun _ => done * layout.stripeSize)
        next := by
  have hstride := hrealises.strideSize hrecoveryCount
  have hstrideLt := hrealises.strideSize_lt hrecoveryCount
  have hfits : (done + 1) * layout.strideSize ≤ layout.blockSize := by
    have hlt := hlow.trans_le hfilling.place_le
    rw [blockSize_eq_strides, mul_comm layout.strideSize] at hlt ⊢
    exact Nat.mul_le_mul_right _ (Nat.lt_of_mul_lt_mul_right hlt)
  obtain ⟨head, rfl⟩ := Nat.exists_eq_add_of_le hlow.le
  have hhead : head < layout.strideSize := by
    rw [add_one_mul] at hhigh
    omega
  have hmod : state.offset.tmod layout.strideSize = head := by
    rw [hfilling.offset, tmod_strideSize _ _ hhead]
  have haddressable :
      layout.Addressable (block * layout.blockSize + (done * layout.strideSize + head)) := by
    apply addressable_of_le hend
    rw [add_one_mul]
    exact Nat.add_le_add_left hfilling.place_le _
  have hset : env.striper.setPos state.position state.offset = some
      (layout.state (block * layout.blockSize + (done * layout.strideSize + head))) := by
    obtain ⟨current, hcurrent⟩ := hfilling.iterator
    rw [hfilling.offset]
    apply setPos_eq hrealises.implements haddressable
    intro heq
    rw [hcurrent] at heq ⊢
    rw [Int.natCast_inj.mp heq]
  -- the state with the iterator set
  obtain ⟨placed, hplaced⟩ : ∃ placed : RSWriteStriper, placed = { state with
      position := layout.state (block * layout.blockSize + (done * layout.strideSize + head)) } :=
    ⟨_, rfl⟩
  have hfilling' : Filling layout env stream block (done * layout.strideSize + head) done flushed
      start placed := by
    rw [hplaced]
    exact { hfilling with iterator := ⟨_, rfl⟩ }
  have hrecoveryPadd :
      (if 0 < (layout.state (block * layout.blockSize +
          (done * layout.strideSize + head))).stripeIdx then 0
        else (stripeRemaining env placed : ℤ)) =
        ((layout.stripeSize - layout.stripeTail head 0 : ℕ) : ℤ) := by
    obtain ⟨hindex, hoffset⟩ := @digits_head layout block done _ hhead
    rw [hrealises.stripeRemaining_eq (show placed.position = _ by rw [hplaced]), Layout.state,
      hindex, stripeTail]
    have hdiv := Nat.div_add_mod head layout.stripeSize
    rcases Nat.eq_zero_or_pos (head / layout.stripeSize) with hzero | hsome
    · rw [hzero] at hdiv
      rw [hzero, if_neg (by simp)]
      omega
    · have hlarge := (Nat.le_div_iff_mul_le layout.stripeSize_pos).mp hsome
      rw [if_pos (by simp only; exact_mod_cast hsome)]
      omega
  obtain ⟨padded, encoded, hpad, hcompute, hfileSize, hencoded⟩ := pad_encode_eq hrealises
    hrecoveryCount hend hfragments
    (show 0 < (min ((layout.strideSize - head : ℕ) : ℤ) 4096).toNat by omega) hfilling' rfl
    hhead.le hfits le_rfl
  have hstateFileSize : encoded.fileSize ≤
      (block * layout.blockSize + (done * layout.strideSize + head) : ℕ) := by
    have hbefore := hfilling'.fileSize
    rw [hfilling'.offset] at hbefore
    rw [hfileSize]
    exact hbefore
  obtain ⟨amounts, written, hamounts, hwritten, hrecovered⟩ := write_padded_eq hrealises haccepting
    (show 0 < head by omega) hhead hfilling' hencoded
  have hpos : 0 < head := by omega
  refine ⟨_, ?_, ?_, paddedState_filling hpos hhead hfilling' rfl hencoded hamounts hstateFileSize⟩
  swap
  · exact paddedState_pendingCount hhead hfilling' hencoded
  have hoffset := hencoded.offset
  have hrecoveryEndPos := hencoded.recoveryEndPos
  have hendMod : encoded.offset.tmod layout.strideSize = 0 := by
    rw [hoffset]
    simpa using tmod_strideSize block (done + 1) layout.strideSize_pos
  have hpadd : (layout.strideSize : ℤ) - head = (layout.strideSize - head : ℕ) := by omega
  have hback : encoded.offset - (layout.strideSize - head : ℕ) =
      (block * layout.blockSize + (done * layout.strideSize + head) : ℕ) := by
    rw [hoffset, add_one_mul]
    omega
  have hback' : encoded.recoveryEndPos - layout.strideSize =
      (block * layout.blockSize + done * layout.strideSize : ℕ) := by
    omega
  have hheadSize : (layout.strideSize : ℤ) - (layout.strideSize - head : ℕ) = head := by omega
  rw [unpaddedState] at hwritten
  rw [hplaced] at hpad hrecoveryPadd
  rw [flushPartial]
  simp only [hstride, hmod, hpadd]
  rw [if_neg (by omega), wrap32_of_bounds (by omega) (by omega), hset]
  simp only [bind_eq_bind, bind_some, Int.toNat_natCast]
  rw [hpad]
  simp only [bind_some]
  rw [hcompute]
  simp only [bind_some]
  rw [if_neg (by rw [hendMod, hoffset, hrecoveryEndPos]; simp)]
  simp only [hback, hback', hheadSize, hrealises.dataCount, hrealises.recoveryCount, hwritten,
    bind_some, hrecoveryPadd, hrecovered]
  rfl

end QfsRepair.Striping
