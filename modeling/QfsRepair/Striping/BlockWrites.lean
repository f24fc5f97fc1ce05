import QfsRepair.Striping.WriteRuns

/-!
# Calls that write one chunk block

A call of `Process` that finds nothing pending and brings full strides of a single
chunk block writes only with `Flush`, whatever `QueueWrite` takes: all its writes
carry the identifier of the call and the index of their stripe.
-/

namespace QfsRepair.Striping

open Function List Option
open Machine Layout

variable {layout : Layout} {env : WriteEnvironment} {block : ℕ} {stripeIdentifier : ℤ}

/-- The buffered bytes belong to the chunk of the stripe. -/
def WriteBuffer.InChunk (layout : Layout) (block index : ℕ) (buffer : WriteBuffer) : Prop :=
  buffer.bytes ≠ [] →
    (layout.chunkStart block index : ℤ) ≤ buffer.endPos - buffer.bytes.length ∧
      buffer.endPos ≤ layout.chunkStart block index + layout.chunkSize

/-- All buffered bytes belong to the chunk block and may be written. -/
structure Holding (layout : Layout) (block : ℕ) (state : RSWriteStriper) : Prop where
  complete : ∀ index < layout.stripeCount + layout.recoveryCount, (state.buffers index).Complete
  inChunk : ∀ index < layout.stripeCount + layout.recoveryCount,
    (state.buffers index).InChunk layout block index
  pendingCount : state.pendingCount =
    bufferedBytes state.buffers (List.range (layout.stripeCount + layout.recoveryCount))
  failures : state.writeFailures = []

/-- A write to a chunk of the chunk block, under the identifier. -/
structure QueuedWrite.ToBlock (layout : Layout) (block : ℕ) (stripeIdentifier : ℤ)
    (queuedWrite : QueuedWrite) : Prop where
  identifier : queuedWrite.stripeIdentifier = stripeIdentifier
  chunk : ∃ index < layout.stripeCount + layout.recoveryCount, queuedWrite.chunkIndex = index ∧
    (layout.chunkStart block index : ℤ) ≤ queuedWrite.offset ∧
    queuedWrite.offset < layout.chunkStart block index + layout.chunkSize

/-- Writes to the chunk block are queued, and the buffers lose what is written. -/
structure Wrote (layout : Layout) (block : ℕ) (stripeIdentifier : ℤ)
    (before after : RSWriteStriper) : Prop where
  holding : Holding layout block after
  queued : ∃ writes, after.queued = before.queued ++ writes ∧
    ∀ queuedWrite ∈ writes, queuedWrite.ToBlock layout block stripeIdentifier
  frame : after = { before with
    pendingCount := after.pendingCount
    buffers := after.buffers
    queued := after.queued }

/-! ## Flush -/

namespace Wrote

theorem refl {state : RSWriteStriper} (hholding : Holding layout block state) :
    Wrote layout block stripeIdentifier state state :=
  ⟨hholding, ⟨[], by simp, by simp⟩, rfl⟩

theorem trans {first second third : RSWriteStriper}
    (hfirst : Wrote layout block stripeIdentifier first second)
    (hsecond : Wrote layout block stripeIdentifier second third) :
    Wrote layout block stripeIdentifier first third := by
  obtain ⟨-, ⟨writes, hwrites, hall⟩, hframe⟩ := hfirst
  obtain ⟨hholding, ⟨writes', hwrites', hall'⟩, hframe'⟩ := hsecond
  refine ⟨hholding, ⟨writes ++ writes', ?_, forall_mem_append.mpr ⟨hall, hall'⟩⟩, ?_⟩
  · rw [hwrites', hwrites, append_assoc]
  · rw [hframe', hframe]

end Wrote

variable {threshold : ℤ}

/-- `Write` of a complete buffer: nothing is taken, or a front part of it. -/
theorem write_cases {buffer buffer' : WriteBuffer} {state state' : RSWriteStriper}
    {chunkIndex : ℤ} (hfailures : state.writeFailures = []) (hcomplete : buffer.Complete)
    (hwrite : write env buffer threshold chunkIndex stripeIdentifier state =
      some (buffer', state')) :
    buffer' = buffer ∧ state' = state ∨
      ∃ size : ℕ, 0 < size ∧ size ≤ buffer.bytes.length ∧
        buffer' = { buffer with
          bytes := buffer.bytes.drop size
          writeLen := buffer.writeLen - size } ∧
        state' = { state with
          pendingCount := state.pendingCount - size
          queued := state.queued ++ [⟨buffer.endPos - buffer.bytes.length,
            buffer.bytes.take size, chunkIndex, stripeIdentifier⟩] } := by
  rw [write, if_neg (by rw [hcomplete]; omega)] at hwrite
  simp only [isChunkWriterFailed_eq_false hfailures, Bool.false_eq_true, if_false] at hwrite
  obtain ⟨taken, htaken⟩ : ∃ taken, taken = env.queueWrite state.queued
    (buffer.endPos - buffer.bytes.length) buffer.writeLen threshold := ⟨_, rfl⟩
  rw [← htaken] at hwrite
  split_ifs at hwrite with hmuch hnothing
  · left
    simpa [eq_comm] using hwrite
  · right
    lift taken to ℕ using by omega
    refine ⟨taken, by omega, by omega, ?_⟩
    simpa [eq_comm] using hwrite

theorem writeBuffer_wrote {before after : RSWriteStriper} {index : ℕ}
    (hholding : Holding layout block before)
    (hindex : index < layout.stripeCount + layout.recoveryCount)
    (hwrite : writeBuffer env index threshold index stripeIdentifier before = some after) :
    Wrote layout block stripeIdentifier before after := by
  rw [writeBuffer, map_eq_some_iff] at hwrite
  obtain ⟨⟨buffer, state⟩, hwrite, rfl⟩ := hwrite
  have hcomplete := hholding.complete index hindex
  rcases write_cases hholding.failures hcomplete hwrite with ⟨rfl, rfl⟩ | hsome
  · simp only [RSWriteStriper.setBuffer, update_eq_self]
    exact Wrote.refl hholding
  · obtain ⟨size, hpos, hle, rfl, rfl⟩ := hsome
    have hne : (before.buffers index).bytes ≠ [] := ne_nil_of_length_pos (by omega)
    obtain ⟨hlow, hhigh⟩ := hholding.inChunk index hindex hne
    refine ⟨⟨(forall_update_iff before.buffers fun index buffer =>
        index < layout.stripeCount + layout.recoveryCount → buffer.Complete).mpr
        ⟨fun _ => ?_, fun other _ => hholding.complete other⟩,
      (forall_update_iff before.buffers fun index buffer =>
        index < layout.stripeCount + layout.recoveryCount → buffer.InChunk layout block index).mpr
        ⟨fun _ _ => ?_, fun other _ => hholding.inChunk other⟩, ?_, hholding.failures⟩,
      ⟨_, rfl, forall_mem_singleton.mpr ?_⟩, rfl⟩
    · simp only [WriteBuffer.Complete, length_drop]
      rw [hcomplete]
      omega
    · simp only [length_drop]
      omega
    · simp only [RSWriteStriper.setBuffer]
      rw [bufferedBytes_update _ hindex, hholding.pendingCount, length_drop]
      omega
    · refine ⟨rfl, index, hindex, rfl, hlow, ?_⟩
      simp only
      omega

theorem writeAll_wrote (hrealises : env.Realises layout) {before after : RSWriteStriper}
    (hholding : Holding layout block before)
    (hwrite : writeAll env threshold stripeIdentifier before = some after) :
    Wrote layout block stripeIdentifier before after := by
  rw [writeAll, hrealises.dataCount, hrealises.recoveryCount] at hwrite
  obtain ⟨indices, hindices⟩ : ∃ indices, indices =
    range (layout.stripeCount + layout.recoveryCount) := ⟨_, rfl⟩
  have hbound : ∀ index ∈ indices, index < layout.stripeCount + layout.recoveryCount := by
    rw [hindices]
    exact fun index => mem_range.mp
  rw [← hindices] at hwrite
  clear hindices
  induction indices generalizing before with
  | nil =>
    cases hwrite
    exact Wrote.refl hholding
  | cons index indices ih =>
    rw [foldlM_cons, bind_eq_bind, bind_eq_some_iff] at hwrite
    obtain ⟨middle, hfirst, hrest⟩ := hwrite
    have hmiddle := writeBuffer_wrote hholding (hbound index (by simp)) hfirst
    exact hmiddle.trans (ih hmiddle.holding hrest fun other hother =>
      hbound other (by simp [hother]))

theorem flushLoop_wrote (hrealises : env.Realises layout) {curThreshold : ℤ} {rounds : ℕ}
    {before after : RSWriteStriper} (hholding : Holding layout block before)
    (hflush : flushLoop env threshold stripeIdentifier rounds curThreshold before = some after) :
    Wrote layout block stripeIdentifier before after := by
  induction rounds generalizing curThreshold before with
  | zero => exact absurd hflush (by simp [flushLoop])
  | succ rounds ih =>
    rw [flushLoop] at hflush
    split_ifs at hflush with hfew
    · cases hflush
      exact Wrote.refl hholding
    · rw [bind_eq_bind, bind_eq_some_iff] at hflush
      obtain ⟨middle, hwrite, hrest⟩ := hflush
      have hmiddle := writeAll_wrote hrealises hholding hwrite
      split_ifs at hrest
      · cases hrest
        exact hmiddle
      · exact hmiddle.trans (ih hmiddle.holding hrest)

theorem flush_of_pendingCount_eq_zero {state : RSWriteStriper} (hpending : state.pendingCount = 0)
    (threshold : ℤ) : flush env threshold stripeIdentifier state = some state := by
  rw [flush, flushLoop, if_pos (by omega)]

/-! ## The buffers of a full chunk block -/

theorem bufferedBytes_append (buffers : ℕ → WriteBuffer) (first second : ℕ) :
    bufferedBytes buffers (List.range (first + second)) =
      bufferedBytes buffers (List.range first) +
        bufferedBytes buffers (List.range' first second) := by
  rw [bufferedBytes, range_eq_range', ← range'_append_1, map_append,
    sum_append, zero_add, ← range_eq_range']
  rfl

theorem holding_of_holds {stream : ℕ → Byte} {place rows : ℕ} {state : RSWriteStriper}
    (hplace : place ≤ layout.blockSize) (hrows : rows ≤ layout.chunkSize)
    (hdata : HoldsData layout stream block place (fun _ => 0) state.buffers)
    (hwriteLen : ∀ index < layout.stripeCount, (state.buffers index).Complete)
    (hrecovery : HoldsRecovery layout env.encode stream block 0 rows state.buffers)
    (hpending : state.pendingCount = bufferedBytes state.buffers (List.range layout.stripeCount) +
      bufferedBytes state.buffers (List.range' layout.stripeCount layout.recoveryCount))
    (hfailures : state.writeFailures = []) : Holding layout block state := by
  refine ⟨?_, ?_, by rw [bufferedBytes_append, hpending], hfailures⟩
  · intro index hindex
    rcases chunk_cases hindex with hlt | ⟨recoveryIndex, hrecoveryIndex, rfl⟩
    · exact hwriteLen index hlt
    · rw [WriteBuffer.Complete, hrecovery.writeLen recoveryIndex hrecoveryIndex,
        hrecovery.bytes recoveryIndex hrecoveryIndex, length_slice]
      omega
  · intro index hindex hbytes
    rcases chunk_cases hindex with hlt | ⟨recoveryIndex, hrecoveryIndex, rfl⟩
    · rw [hdata.bytes index hlt, Ne, slice_eq_nil_iff, not_le] at hbytes
      have hle := stripeLength_le_chunkSize hlt hplace
      rw [hdata.endPos index hlt hbytes, hdata.bytes index hlt, length_slice]
      omega
    · rw [hrecovery.bytes recoveryIndex hrecoveryIndex, Ne, slice_eq_nil_iff, not_le] at hbytes
      rw [hrecovery.endPos hbytes recoveryIndex hrecoveryIndex,
        hrecovery.bytes recoveryIndex hrecoveryIndex, length_slice]
      omega

/-- Nothing is buffered. -/
def Drained (layout : Layout) (state : RSWriteStriper) : Prop :=
  ∀ index < layout.stripeCount + layout.recoveryCount,
    (state.buffers index).bytes = [] ∧ (state.buffers index).writeLen = 0

theorem Holding.drained {state : RSWriteStriper} (hholding : Holding layout block state)
    (hpending : state.pendingCount = 0) : Drained layout state := by
  intro index hindex
  rw [hholding.pendingCount, bufferedBytes_range,
    Finset.sum_eq_zero_iff_of_nonneg fun _ _ => Int.natCast_nonneg _] at hpending
  have hempty : (state.buffers index).bytes.length = 0 := by
    exact_mod_cast hpending index (mem_range.mpr hindex)
  exact ⟨length_eq_zero_iff.mp hempty, by rw [hholding.complete index hindex, hempty]; rfl⟩

namespace Drained

variable {state : RSWriteStriper} (hdrained : Drained layout state)

include hdrained

theorem holdsData (stream : ℕ → Byte) (block : ℕ) :
    HoldsData layout stream block 0 (fun _ => 0) state.buffers := by
  have hlength : ∀ index, layout.stripeLength 0 index = 0 := by simp [stripeLength]
  refine ⟨by simp, ?_, ?_⟩
  · intro index hindex
    rw [(hdrained index (by omega)).1, hlength, slice_self]
  · intro index _ hlt
    rw [hlength] at hlt
    exact absurd hlt (lt_irrefl 0)

theorem holding (block : ℕ) (hpending : state.pendingCount = 0)
    (hfailures : state.writeFailures = []) : Holding layout block state := by
  refine ⟨?_, ?_, ?_, hfailures⟩
  · intro index hindex
    obtain ⟨hbytes, hwriteLen⟩ := hdrained index hindex
    rw [WriteBuffer.Complete, hbytes, hwriteLen]
    rfl
  · intro index hindex hbytes
    exact absurd (hdrained index hindex).1 hbytes
  · rw [hpending, bufferedBytes_range, Finset.sum_eq_zero]
    intro index hindex
    rw [(hdrained index (mem_range.mp hindex)).1]
    rfl

end Drained

/-! ## One call -/

/-- The writer between two calls. -/
structure Settled (layout : Layout) (state : RSWriteStriper) : Prop where
  holding : ∃ block, Holding layout block state
  recoveryEndPos : state.recoveryEndPos = state.offset
  lastPartialFlushPos : state.lastPartialFlushPos = 0
  iterator : ∃ current, state.position = layout.state current

/-- Nothing is buffered, and no partial flush was made. -/
structure Idle (layout : Layout) (state : RSWriteStriper) : Prop where
  drained : Drained layout state
  pendingCount : state.pendingCount = 0
  failures : state.writeFailures = []
  lastPartialFlushPos : state.lastPartialFlushPos = 0
  iterator : ∃ current, state.position = layout.state current

theorem Settled.idle {state : RSWriteStriper} (hsettled : Settled layout state)
    (hpending : state.pendingCount = 0) : Idle layout state := by
  obtain ⟨block, hholding⟩ := hsettled.holding
  exact ⟨hholding.drained hpending, hpending, hholding.failures, hsettled.lastPartialFlushPos,
    hsettled.iterator⟩

theorem Idle.reposition {state : RSWriteStriper} (hidle : Idle layout state)
    (offset recoveryEndPos : ℤ) : Idle layout { state with offset, recoveryEndPos } :=
  ⟨hidle.drained, hidle.pendingCount, hidle.failures, hidle.lastPartialFlushPos, hidle.iterator⟩

/-- The call brings full strides of one chunk block. -/
structure OneBlock (layout : Layout) (block size : ℕ) : Prop where
  size_le : size ≤ layout.blockSize
  strides : 0 < layout.recoveryCount → layout.strideSize ∣ size ∧ size < 2 ^ 31
  addresses : (block + 1) * layout.totalSize < 2 ^ 63

section Call

variable (hrealises : env.Realises layout) {state : RSWriteStriper} {size : ℕ}
variable (hblock : OneBlock layout block size)

include hrealises

include hblock in
/-- Dealing out the data of the block and computing its recovery stripes. -/
theorem Idle.fillBlock_eq {stream : ℕ → Byte} {fragments : ℕ → List Byte → List (Fragment Byte)}
    (hfragments : KeepsBytes fragments) (hidle : Idle layout state)
    (hrecoveryEndPos : 0 < layout.recoveryCount →
      state.recoveryEndPos = (block * layout.blockSize : ℕ)) (hsize : 0 < size) :
    ∃ striped next,
      stripe env (slice stream (block * layout.blockSize) (block * layout.blockSize + size))
        (block * layout.blockSize : ℕ) state =
        some (((block * layout.blockSize + size : ℕ) : ℤ), [], striped) ∧
      computeRecovery env fragments false
          { striped with
            offset := (block * layout.blockSize + size : ℕ)
            fileSize := max striped.fileSize (block * layout.blockSize + size : ℕ) } =
        some (0, next) ∧
      Settled layout next ∧ Holding layout block next ∧ next.queued = state.queued := by
  obtain ⟨hle, hstrides, hend⟩ := hblock
  obtain ⟨hdrained, hpending, hfailures, hlast, hiterator⟩ := hidle
  obtain ⟨count, striped, hcount, hcountLe, -, hfull, hstripe, hdealt⟩ :=
    stripe_eq hrealises hend hiterator (hdrained.holdsData stream block) layout.blockSize_pos hsize
  obtain rfl : count = size := by omega
  simp only [add_zero, zero_add, slice_self] at hstripe hdealt
  have hdata := hdealt.data
  rw [Nat.add_sub_cancel_left] at hdata
  have hframe := hdealt.frame
  obtain ⟨dealt, hdealtState⟩ : ∃ dealt : RSWriteStriper, dealt = { striped with
      offset := (block * layout.blockSize + count : ℕ)
      fileSize := max striped.fileSize (block * layout.blockSize + count : ℕ) } := ⟨_, rfl⟩
  have hbuffers : dealt.buffers = striped.buffers := by rw [hdealtState]
  have hlast' : dealt.lastPartialFlushPos = 0 := by rw [hdealtState, hframe]; exact hlast
  have hfailures' : dealt.writeFailures = [] := by rw [hdealtState, hframe]; exact hfailures
  have hqueued : dealt.queued = state.queued := by rw [hdealtState, hframe]
  have hiterator' : dealt.position = layout.state (block * layout.blockSize + count) := by
    rw [hdealtState]
    exact hdealt.iterator
  rcases Nat.eq_zero_or_pos layout.recoveryCount with hzero | hpos
  · have hdata' : HoldsData layout stream block count (fun _ => 0)
        (completedState env dealt).buffers := by
      apply hdata.congr <;> intro index hindex <;>
        rw [buffers_completedState hrealises dealt hindex, hbuffers]
    have hholding : Holding layout block (completedState env dealt) := by
      refine @holding_of_holds layout env block stream count 0 _ hle (Nat.zero_le _) hdata'
        (fun index hindex => complete_completedState hrealises dealt hindex)
        ⟨le_rfl, by omega, by omega, by omega⟩ ?_ hfailures'
      rw [bufferedBytes_completedState hrealises, hbuffers, hdata.bufferedBytes_eq, hzero]
      simp [completedState, hdealtState, hdealt.pendingCount, hpending, bufferedBytes]
    refine ⟨striped, _, hstripe, computeRecovery_eq_completedState hrealises _ hzero _ _, ?_⟩
    rw [← hdealtState]
    exact ⟨⟨⟨block, hholding⟩, rfl, hlast', _, hiterator'⟩, hholding, hqueued⟩
  · obtain ⟨⟨strides, hcountEq⟩, hsmall⟩ := hstrides hpos
    have hstrideSize := hrealises.strideSize hpos
    have hstridePos := layout.strideSize_pos
    have hstridesPos : 0 < strides := Nat.pos_of_ne_zero (by rintro rfl; omega)
    have hcountEq' : count = strides * layout.strideSize + 0 := by
      rw [hcountEq, mul_comm, add_zero]
    have hrecovery : HoldsRecovery layout env.encode stream block 0 (0 * layout.stripeSize)
        dealt.buffers := by
      rw [zero_mul, hbuffers]
      refine .of_empty fun index hindex => ?_
      rw [hdealt.others _ (Nat.le_add_right _ _)]
      exact hdrained _ (by omega)
    have hoffset : dealt.offset =
        (block * layout.blockSize + (strides * layout.strideSize + 0) : ℕ) := by
      rw [hdealtState, hcountEq']
    have hencoded : dealt.recoveryEndPos =
        (block * layout.blockSize + 0 * layout.strideSize : ℕ) := by
      rw [hdealtState, hframe, zero_mul, add_zero]
      exact hrecoveryEndPos hpos
    rw [hcountEq', ← hbuffers] at hdata
    obtain ⟨buffers, hcompute, hdata', hwriteLen, hrecovery'⟩ :=
      computeRecovery_strides hrealises hpos hfragments hstridePos hstridesPos hoffset hencoded
        (by rw [Nat.sub_zero]; omega) hdata (fun _ _ => Nat.zero_le _) hrecovery false
    have hrows : strides * layout.stripeSize ≤ layout.chunkSize := by
      have hlength := stripeLength_le_chunkSize layout.stripeCount_pos hle
      rwa [hcountEq', add_zero, stripeLength_strides layout.stripeCount_pos] at hlength
    have hholding : Holding layout block (encodedState layout block strides buffers dealt) := by
      refine @holding_of_holds layout env block stream (strides * layout.strideSize + 0)
        (strides * layout.stripeSize) _ (by rw [← hcountEq']; exact hle) hrows hdata' ?_ hrecovery'
        rfl hfailures'
      intro index hindex
      simp only [encodedState, WriteBuffer.Complete]
      rw [hwriteLen index hindex, hdata'.length_bytes hindex, add_zero, stripeLength_strides hindex]
      omega
    have htrim := @Filling.trimFlushed_of_le env (encodedState layout block strides buffers dealt)
      false (by
        have hone := Nat.le_mul_of_pos_left layout.strideSize hstridesPos
        simp only [encodedState]
        rw [hstrideSize, hlast']
        omega)
    refine ⟨striped, encodedState layout block strides buffers dealt, hstripe, ?_,
      ⟨⟨block, hholding⟩, ?_, hlast', _, hiterator'⟩, hholding, hqueued⟩
    · rw [← hdealtState, hcompute, htrim]
    · simp only [encodedState]
      rw [hoffset, add_zero]

/-- Nothing is written before the data of the call is dealt out. -/
theorem Settled.reposition_eq (hsettled : Settled layout state) (hpending : state.pendingCount = 0)
    (call : ProcessCall) (stripeIdentifier : ℤ) (block : ℕ) :
    ∃ start, reposition env call stripeIdentifier (block * layout.blockSize : ℕ) state =
        some (some start) ∧
      start = { state with offset := start.offset, recoveryEndPos := start.recoveryEndPos } ∧
      start.recoveryEndPos = start.offset ∧
      (0 < layout.recoveryCount → start.offset = (block * layout.blockSize : ℕ)) := by
  have hsettledEnd := hsettled.recoveryEndPos
  by_cases hmoved : 0 < env.striper.recoveryStripeCount ∧
      ((block * layout.blockSize : ℕ) : ℤ) ≠ state.offset
  · have hpos : 0 < layout.recoveryCount := by
      have := hrealises.recoveryStripeCount
      omega
    have hstride := hrealises.strideSize hpos
    have hstridePos := layout.strideSize_pos
    have hmod : ((block * layout.blockSize : ℕ) : ℤ).tmod env.striper.strideSize = 0 := by
      rw [hstride, ← Int.ofNat_tmod, Nat.mod_eq_zero_of_dvd]
      · rfl
      · exact Dvd.dvd.mul_left (Nat.dvd_mul_right _ _) _
    refine ⟨{ state with
      offset := (block * layout.blockSize : ℕ)
      recoveryEndPos := (block * layout.blockSize : ℕ) }, ?_, rfl, rfl, fun _ => rfl⟩
    rw [reposition, if_pos hmoved, if_neg (by omega), if_neg (by rw [hmod]; omega),
      flush_of_pendingCount_eq_zero hpending]
    rfl
  · refine ⟨state, ?_, rfl, hsettledEnd, fun hpos => ?_⟩
    · rw [reposition, if_neg hmoved]
    · have := hrealises.recoveryStripeCount
      omega

include hblock in
/-- A call that finds nothing pending and brings full strides of one chunk block
queues writes to that block only, under its own identifier. -/
theorem Settled.process_wrote {call : ProcessCall} {count : ℤ} {result : ProcessResult}
    (hsize : call.inBuffer.length = size) (hsettled : Settled layout state)
    (hpending : state.pendingCount = 0)
    (hprocess : process env call count (block * layout.blockSize : ℕ) state = some result) :
    Settled layout result.state ∧ result.count = wrap32 (count + 1) ∧
      ∃ writes, result.state.queued = state.queued ++ writes ∧
        ∀ queuedWrite ∈ writes,
          queuedWrite.ToBlock layout block (stripeIdentifierOf call.now count) := by
  obtain ⟨start, hreposition, hstart, hstartEnd, hstartOffset⟩ :=
    hsettled.reposition_eq hrealises hpending call (stripeIdentifierOf call.now count) block
  have hidle : Idle layout start := by
    rw [hstart]
    exact (hsettled.idle hpending).reposition _ _
  have hqueued' : start.queued = state.queued := by rw [hstart]
  have hfilled : ∃ ioOffset filled, fillBlocks env call.fragments
      (stripeIdentifierOf call.now count) call.inBuffer.length call.inBuffer
      (block * layout.blockSize : ℕ) start = some (ioOffset, filled) ∧
      Settled layout filled ∧ Holding layout block filled ∧ filled.queued = state.queued := by
    rcases Nat.eq_zero_or_pos size with rfl | hpos
    · have hholding' := hidle.drained.holding block hidle.pendingCount hidle.failures
      refine ⟨(block * layout.blockSize : ℕ), start, ?_, ⟨⟨block, hholding'⟩, hstartEnd,
        hidle.lastPartialFlushPos, hidle.iterator⟩, hholding', hqueued'⟩
      rw [hsize, fillBlocks, if_pos (length_eq_zero_iff.mp hsize)]
    · obtain ⟨stream, hstream⟩ : ∃ stream : ℕ → Byte, stream =
        fun position => call.inBuffer.getD (position - block * layout.blockSize) 0 := ⟨_, rfl⟩
      have hinput : call.inBuffer =
          slice stream (block * layout.blockSize) (block * layout.blockSize + size) := by
        have hshift := slice_shift stream (block * layout.blockSize) 0 size
        rw [add_zero] at hshift
        rw [← hshift, hstream]
        simp only [Nat.add_sub_cancel_left]
        rw [← hsize, slice_getD]
      obtain ⟨striped, next, hstripe, hcompute, hnext, hnextHolding, hnextQueued⟩ :=
        @Idle.fillBlock_eq _ _ _ hrealises _ _ hblock stream _
          (fun index bytes => call.contents_fragments (block * layout.blockSize + size : ℕ) index
            bytes) hidle (fun hrecovery => hstartEnd.trans (hstartOffset hrecovery)) hpos
      obtain ⟨filled, hfill, rfl⟩ := @fillBlocks_rule env stream layout hrealises call.fragments
        (stripeIdentifierOf call.now count) (block * layout.blockSize + size)
        (fun length state => length = block * layout.blockSize ∧ state = start)
        (fun _ state => state = next)
        (by
          rintro _ _ ⟨rfl, rfl⟩ -
          refine ⟨size, striped, next, hpos, le_rfl, ?_⟩
          rw [slice_self]
          exact ⟨hstripe, hcompute, rfl, fun hlt => absurd hlt (lt_irrefl _)⟩)
        size (block * layout.blockSize) start ⟨rfl, rfl⟩ (by omega) le_rfl
      rw [← hinput] at hfill
      rw [hsize]
      exact ⟨_, filled, hfill, hnext, hnextHolding, hnextQueued.trans hqueued'⟩
  obtain ⟨ioOffset, filled, hfill, hsettled', hholding', hqueued⟩ := hfilled
  rw [process, if_neg (by omega)] at hprocess
  simp only [hreposition, bind_eq_bind, bind_some, hfill] at hprocess
  rw [if_pos (by rw [hsettled'.recoveryEndPos]; omega), bind_eq_some_iff] at hprocess
  obtain ⟨next, hflush, hresult⟩ := hprocess
  cases hresult
  have hwrote := flushLoop_wrote hrealises hholding' hflush
  refine ⟨⟨⟨block, hwrote.holding⟩, ?_, ?_, ?_⟩, rfl, ?_⟩
  · rw [hwrote.frame]
    exact hsettled'.recoveryEndPos
  · rw [hwrote.frame]
    exact hsettled'.lastPartialFlushPos
  · rw [hwrote.frame]
    exact hsettled'.iterator
  · rw [← hqueued]
    exact hwrote.queued

end Call

end QfsRepair.Striping
