import QfsRepair.Striping.WriteRecovery
import Mathlib.Algebra.BigOperators.Intervals
import Mathlib.Algebra.BigOperators.Ring.Finset

/-!
# A chunk block that is being filled

The invariant of a writer with recovery stripes: which part of the chunk block is
dealt out, encoded and flushed, what the buffers hold and what the queued writes
have stored.  Dealing out data and computing recovery stripes keep it.
-/

namespace QfsRepair.Striping

open Function
open Machine Layout Finset

/-! ## Sums over the stripes -/

namespace Layout

variable {layout : Layout}

theorem sum_stripeTail (head count : ℕ) :
    ∑ index ∈ Finset.range count, layout.stripeTail head index =
      min head (count * layout.stripeSize) := by
  induction count with
  | zero => simp
  | succ count ih =>
    rw [sum_range_succ, stripeTail, add_one_mul]
    omega

/-- The stripes share out the places of the chunk block. -/
theorem sum_stripeLength (length : ℕ) :
    ∑ index ∈ Finset.range layout.stripeCount, layout.stripeLength length index = length := by
  have hhead := Nat.mod_lt length layout.strideSize_pos
  have hlength : ∀ index ∈ range layout.stripeCount,
      layout.stripeLength length index = length / layout.strideSize * layout.stripeSize +
        layout.stripeTail (length % layout.strideSize) index := fun _ _ => rfl
  have hrows : layout.stripeCount * (length / layout.strideSize * layout.stripeSize) =
      length / layout.strideSize * layout.strideSize := by
    rw [strideSize]
    ring
  have hmin : min (length % layout.strideSize) (layout.stripeCount * layout.stripeSize) =
      length % layout.strideSize := by
    rw [mul_comm]
    exact min_eq_left hhead.le
  rw [sum_congr rfl hlength, sum_add_distrib, sum_const, card_range,
    smul_eq_mul, sum_stripeTail, hrows, hmin, Nat.div_add_mod']

theorem sum_rows (strides : ℕ) :
    ∑ _index ∈ Finset.range layout.stripeCount, ((strides * layout.stripeSize : ℕ) : ℤ) =
      (strides * layout.strideSize : ℕ) := by
  rw [sum_const, card_range, strideSize]
  push_cast
  ring

end Layout

theorem bufferedBytes_range (buffers : ℕ → WriteBuffer) (count : ℕ) :
    bufferedBytes buffers (List.range count) =
      ∑ index ∈ Finset.range count, ((buffers index).bytes.length : ℤ) := rfl

theorem bufferedBytes_range' (buffers : ℕ → WriteBuffer) (first count : ℕ) :
    bufferedBytes buffers (List.range' first count) =
      ∑ index ∈ Finset.range count, ((buffers (first + index)).bytes.length : ℤ) := by
  rw [bufferedBytes, List.range'_eq_map_range, List.map_map]
  rfl

variable {layout : Layout} {env : WriteEnvironment} {stream : ℕ → Byte}
variable {block place done flushed : ℕ} {start : ℕ → ℕ} {state : RSWriteStriper}
  {buffers : ℕ → WriteBuffer}

theorem HoldsData.bufferedBytes_eq (hdata : HoldsData layout stream block place start buffers) :
    bufferedBytes buffers (List.range layout.stripeCount) =
      place - ∑ index ∈ Finset.range layout.stripeCount, (start index : ℤ) := by
  have hlength : ∀ index ∈ range layout.stripeCount,
      ((buffers index).bytes.length : ℤ) =
        (layout.stripeLength place index : ℤ) - start index := by
    intro index hindex
    rw [mem_range] at hindex
    rw [hdata.length_bytes hindex, Nat.cast_sub (hdata.start_le index hindex)]
  rw [bufferedBytes_range, sum_congr rfl hlength, sum_sub_distrib, ← Nat.cast_sum, sum_stripeLength]

theorem HoldsRecovery.bufferedBytes_eq {encode : (ℕ → Byte) → ℕ → Byte} {low high : ℕ}
    (hrecovery : HoldsRecovery layout encode stream block low high buffers) :
    bufferedBytes buffers (List.range' layout.stripeCount layout.recoveryCount) =
      layout.recoveryCount * ((high : ℤ) - low) := by
  have hlength : ∀ index ∈ range layout.recoveryCount,
      ((buffers (layout.stripeCount + index)).bytes.length : ℤ) = (high : ℤ) - low := by
    intro index hindex
    rw [hrecovery.bytes index (mem_range.mp hindex), length_slice, Nat.cast_sub hrecovery.low_le]
  rw [bufferedBytes_range', sum_congr rfl hlength, sum_const, card_range, nsmul_eq_mul]

/-! ## The invariant -/

/-- Of the chunk block `place` bytes are dealt out, `done` strides are encoded, and
the first `flushed` bytes are stored with their recovery rows.  A data buffer
starts with data that is not stored, or with data of the last stored stride. -/
structure Filling (layout : Layout) (env : WriteEnvironment) (stream : ℕ → Byte)
    (block place done flushed : ℕ) (start : ℕ → ℕ) (state : RSWriteStriper) : Prop where
  offset : state.offset = (block * layout.blockSize + place : ℕ)
  recoveryEndPos : state.recoveryEndPos = (block * layout.blockSize + done * layout.strideSize : ℕ)
  done_le : done * layout.strideSize ≤ place
  place_le : place ≤ layout.blockSize
  flushed_le : flushed ≤ place
  flushed_stride : flushed / layout.strideSize ≤ done
  low_le_start : ∀ index < layout.stripeCount,
    flushed / layout.strideSize * layout.stripeSize ≤ start index
  start_le_flushed : ∀ index < layout.stripeCount, start index ≤ layout.stripeLength flushed index
  start_le_done : ∀ index < layout.stripeCount, start index ≤ done * layout.stripeSize
  data : HoldsData layout stream block place start state.buffers
  recovery : HoldsRecovery layout env.encode stream block
    (flushed / layout.strideSize * layout.stripeSize) (done * layout.stripeSize) state.buffers
  writeLen : ∀ index < layout.stripeCount,
    (state.buffers index).writeLen = (done * layout.stripeSize : ℕ) - start index
  /-- All buffered bytes, without the stored head of the stride that is kept. -/
  pendingCount : state.pendingCount =
    bufferedBytes state.buffers (List.range layout.stripeCount) +
      bufferedBytes state.buffers (List.range' layout.stripeCount layout.recoveryCount) -
      (flushed - done * layout.strideSize : ℕ)
  partialFlush : ∃ last : ℕ, state.lastPartialFlushPos = last ∧
    last ≤ block * layout.blockSize + flushed ∧
    (done * layout.strideSize < flushed → last = block * layout.blockSize + flushed)
  iterator : ∃ current, state.position = layout.state current
  fileSize : state.fileSize ≤ state.offset
  failures : state.writeFailures = []
  stored : stored state.queued =
    layout.storedContents env.encode stream (block * layout.blockSize + flushed)

namespace Filling

variable (hfilling : Filling layout env stream block place done flushed start state)

include hfilling

theorem pendingCount_eq :
    state.pendingCount = place - ∑ index ∈ Finset.range layout.stripeCount, (start index : ℤ) +
      layout.recoveryCount * ((done * layout.stripeSize : ℕ) -
        (flushed / layout.strideSize * layout.stripeSize : ℕ)) -
      (flushed - done * layout.strideSize : ℕ) := by
  rw [hfilling.pendingCount, hfilling.data.bufferedBytes_eq, hfilling.recovery.bufferedBytes_eq]

theorem flushed_lt :
    flushed < (done + 1) * layout.strideSize :=
  (Nat.div_lt_iff_lt_mul layout.strideSize_pos).mp (Nat.lt_succ_of_le hfilling.flushed_stride)

theorem start_eq (hfloor : flushed / layout.strideSize = done) :
    ∀ index < layout.stripeCount, start index = done * layout.stripeSize := by
  intro index hindex
  have hlower := hfilling.low_le_start index hindex
  rw [hfloor] at hlower
  exact le_antisymm (hfilling.start_le_done index hindex) hlower

/-- Behind a partial flush no data is ready to be written. -/
theorem start_eq_of_lt (hlast : done * layout.strideSize < flushed) :
    flushed / layout.strideSize = done ∧
      ∀ index < layout.stripeCount, start index = done * layout.stripeSize := by
  have hfloor : flushed / layout.strideSize = done :=
    le_antisymm hfilling.flushed_stride
      ((Nat.le_div_iff_mul_le layout.strideSize_pos).mpr hlast.le)
  exact ⟨hfloor, hfilling.start_eq hfloor⟩

/-! ## Dealing out data -/

/-- Data that is dealt out joins the part that is not encoded. -/
theorem deal {count : ℕ} {next : RSWriteStriper} {fileSize : ℤ}
    (hplace : place + count ≤ layout.blockSize)
    (hdealt : Dealt layout stream block start state (block * layout.blockSize + place)
      (block * layout.blockSize + (place + count)) next)
    (hfileSize : fileSize ≤ (block * layout.blockSize + (place + count) : ℕ)) :
    Filling layout env stream block (place + count) done flushed start
      { next with offset := (block * layout.blockSize + (place + count) : ℕ), fileSize } := by
  obtain ⟨-, -, hiterator, hdata, hpending, hframe, hwriteLen, hothers⟩ := hdealt
  rw [Nat.add_sub_cancel_left] at hdata
  have hrecovery : HoldsRecovery layout env.encode stream block
      (flushed / layout.strideSize * layout.stripeSize) (done * layout.stripeSize)
      next.buffers := hfilling.recovery.congr fun index _ => hothers _ (by omega)
  refine
    { offset := rfl
      recoveryEndPos := ?_
      done_le := hfilling.done_le.trans (Nat.le_add_right _ _)
      place_le := hplace
      flushed_le := hfilling.flushed_le.trans (Nat.le_add_right _ _)
      flushed_stride := hfilling.flushed_stride
      low_le_start := hfilling.low_le_start
      start_le_flushed := hfilling.start_le_flushed
      start_le_done := hfilling.start_le_done
      data := hdata
      recovery := hrecovery
      writeLen := fun index hindex => (hwriteLen index).trans (hfilling.writeLen index hindex)
      pendingCount := ?_
      partialFlush := ?_
      iterator := ⟨_, hiterator⟩
      fileSize := hfileSize
      failures := ?_
      stored := ?_ }
  · rw [hframe]
    exact hfilling.recoveryEndPos
  · have hbefore := hfilling.pendingCount_eq
    rw [hdata.bufferedBytes_eq, hrecovery.bufferedBytes_eq, hpending]
    omega
  · rw [hframe]
    exact hfilling.partialFlush
  · rw [hframe]
    exact hfilling.failures
  · rw [hframe]
    exact hfilling.stored

end Filling

/-! ## Trimming -/

/-- A buffer without its first bytes. -/
def WriteBuffer.trimmed (buffer : WriteBuffer) (count : ℕ) : WriteBuffer :=
  { buffer with bytes := buffer.bytes.drop count, writeLen := buffer.writeLen - count }

/-- At most the part of the stride that falls to the stripe is trimmed. -/
theorem trimBufferFront_eq (hrealises : env.Realises layout) {buffer : WriteBuffer}
    (hoffset : (buffer.bytes.length : ℤ) ≤ buffer.endPos) (trim : ℕ) (pendingCount : ℤ) :
    ∃ count : ℕ, count ≤ trim ∧ count ≤ layout.stripeSize ∧ count ≤ buffer.bytes.length ∧
      trimBufferFront env buffer trim pendingCount =
        (buffer.trimmed count, ((trim - layout.stripeSize : ℕ) : ℤ), pendingCount - count) := by
  rw [trimBufferFront, hrealises.implements.stripeSize]
  by_cases hzero : (trim : ℤ) ≤ 0
  · refine ⟨0, by omega, by omega, by omega, ?_⟩
    have hrest : ((trim - layout.stripeSize : ℕ) : ℤ) = trim := by omega
    rw [if_pos hzero, hrest]
    simp [WriteBuffer.trimmed]
  · have hrest : (trim : ℤ) - min (trim : ℤ) layout.stripeSize =
        ((trim - layout.stripeSize : ℕ) : ℤ) := by omega
    have hhead := Int.tmod_nonneg CHECKSUM_BLOCKSIZE
      (show 0 ≤ min (trim : ℤ) layout.stripeSize + buffer.endPos - buffer.bytes.length by omega)
    simp only [hrest, if_neg hzero]
    generalize (min (trim : ℤ) layout.stripeSize + buffer.endPos -
      buffer.bytes.length).tmod CHECKSUM_BLOCKSIZE = checksumHead at *
    by_cases hnothing : checksumHead ≤ min (trim : ℤ) layout.stripeSize ∧
        min (trim : ℤ) layout.stripeSize - checksumHead ≤ 0
    · refine ⟨0, by omega, by omega, by omega, ?_⟩
      rw [if_pos hnothing]
      simp [WriteBuffer.trimmed]
    · rw [if_neg hnothing]
      obtain ⟨count, hcount⟩ : ∃ count : ℕ, (count : ℤ) =
          min (if checksumHead ≤ min (trim : ℤ) layout.stripeSize then
            min (trim : ℤ) layout.stripeSize - checksumHead else min (trim : ℤ) layout.stripeSize)
            buffer.bytes.length := by
        refine ⟨_, Int.toNat_of_nonneg ?_⟩
        split_ifs <;> omega
      refine ⟨count, ?_, ?_, ?_, ?_⟩
      · split_ifs at hcount <;> omega
      · split_ifs at hcount <;> omega
      · split_ifs at hcount <;> omega
      · rw [← hcount]
        rfl

/-- The trimming loop trims the stripes by their parts of the stride. -/
theorem trimStripes_eq (hrealises : env.Realises layout) (trim first count : ℕ) (pendingCount : ℤ)
    (hoffset : ∀ index, first ≤ index → index < first + count →
      ((buffers index).bytes.length : ℤ) ≤ (buffers index).endPos) :
    ∃ amounts : ℕ → ℕ, (∀ index, amounts index ≤ layout.stripeTail trim index) ∧
      trimStripes env (List.range' first count) ((trim - first * layout.stripeSize : ℕ) : ℤ)
          pendingCount buffers =
        (pendingCount - ∑ index ∈ Finset.range count, (amounts (first + index) : ℤ),
          fun index =>
            if first ≤ index ∧ index < first + count then
              (buffers index).trimmed (amounts index)
            else buffers index) := by
  induction count generalizing first pendingCount buffers with
  | zero =>
    refine ⟨fun _ => 0, fun _ => Nat.zero_le _, ?_⟩
    rw [range_zero, sum_empty, sub_zero, Prod.mk.injEq]
    exact ⟨rfl, funext fun index => (if_neg (by omega)).symm⟩
  | succ count ih =>
    obtain ⟨amount, htrim, hsize, -, hfirst⟩ := trimBufferFront_eq hrealises
      (hoffset first le_rfl (by omega)) (trim - first * layout.stripeSize) pendingCount
    have hrest : trim - first * layout.stripeSize - layout.stripeSize =
        trim - (first + 1) * layout.stripeSize := by
      rw [add_one_mul, Nat.sub_sub]
    have hoffset' : ∀ index, first + 1 ≤ index → index < first + 1 + count →
        ((update buffers first ((buffers first).trimmed amount) index).bytes.length : ℤ) ≤
          (update buffers first ((buffers first).trimmed amount) index).endPos := by
      intro index hlow hhigh
      rw [update_of_ne (by omega)]
      exact hoffset index (by omega) (by omega)
    obtain ⟨amounts, hamounts, hothers⟩ := ih (first + 1) (pendingCount - amount) hoffset'
    refine ⟨update amounts first amount, ?_, ?_⟩
    · intro index
      by_cases heq : index = first
      · subst heq
        rw [update_self, stripeTail]
        omega
      · rw [update_of_ne heq]
        exact hamounts index
    · rw [List.range'_succ, trimStripes]
      simp only [hfirst, hrest, hothers, Prod.mk.injEq]
      constructor
      · have hzero : update amounts first amount (first + 0) = amount :=
          update_self first amount amounts
        have hsum : ∑ index ∈ range count, (amounts (first + 1 + index) : ℤ) =
            ∑ index ∈ range count,
              (update amounts first amount (first + (index + 1)) : ℤ) := by
          apply sum_congr rfl
          intro index _
          rw [update_of_ne (by omega), add_assoc, add_comm 1]
        rw [sum_range_succ', hzero, hsum]
        ring
      · refine ite_range_succ count (by rw [update_self]) fun index hlt => ?_
        rw [update_of_ne hlt.ne', update_of_ne hlt.ne']

/-- The first `count` buffers trimmed. -/
def trimmedBuffers (count : ℕ) (amounts : ℕ → ℕ) (buffers : ℕ → WriteBuffer) : ℕ → WriteBuffer :=
  fun index =>
    if index < count then (buffers index).trimmed (amounts index) else buffers index

theorem trimStripes_range (hrealises : env.Realises layout) (trim count : ℕ) (pendingCount : ℤ)
    (hoffset : ∀ index < count, ((buffers index).bytes.length : ℤ) ≤ (buffers index).endPos) :
    ∃ amounts : ℕ → ℕ, (∀ index, amounts index ≤ layout.stripeTail trim index) ∧
      trimStripes env (List.range count) trim pendingCount buffers =
        (pendingCount - ∑ index ∈ Finset.range count, (amounts index : ℤ),
          trimmedBuffers count amounts buffers) := by
  obtain ⟨amounts, hamounts, htrimmed⟩ := trimStripes_eq hrealises trim 0 count pendingCount
    fun index _ hindex => hoffset index (by omega)
  refine ⟨amounts, hamounts, ?_⟩
  simp only [zero_mul, Nat.sub_zero, zero_add, zero_le, true_and] at htrimmed
  rw [List.range_eq_range']
  exact htrimmed

namespace Filling

/-- Data that is stored already may be trimmed. -/
theorem trim (hfilling : Filling layout env stream block place done flushed start state)
    (amounts : ℕ → ℕ)
    (hflushed : ∀ index < layout.stripeCount,
      start index + amounts index ≤ layout.stripeLength flushed index)
    (hdone : ∀ index < layout.stripeCount, start index + amounts index ≤ done * layout.stripeSize) :
    Filling layout env stream block place done flushed (fun index => start index + amounts index)
      { state with
        pendingCount := state.pendingCount -
          ∑ index ∈ Finset.range layout.stripeCount, (amounts index : ℤ)
        buffers := trimmedBuffers layout.stripeCount amounts state.buffers } := by
  have hmono : ∀ index < layout.stripeCount,
      layout.stripeLength flushed index ≤ layout.stripeLength place index :=
    fun index hindex => stripeLength_mono hindex hfilling.flushed_le
  have htrimmed : ∀ index < layout.stripeCount,
      trimmedBuffers layout.stripeCount amounts state.buffers index =
        (state.buffers index).trimmed (amounts index) := fun index hindex => if_pos hindex
  have hdata : HoldsData layout stream block place (fun index => start index + amounts index)
      (trimmedBuffers layout.stripeCount amounts state.buffers) := by
    refine ⟨?_, ?_, ?_⟩
    · exact fun index hindex => (hflushed index hindex).trans (hmono index hindex)
    · intro index hindex
      rw [htrimmed index hindex, WriteBuffer.trimmed, hfilling.data.bytes index hindex, drop_slice]
    · intro index hindex hlt
      rw [htrimmed index hindex]
      exact hfilling.data.endPos index hindex (lt_of_le_of_lt (Nat.le_add_right _ _) hlt)
  have hrecovery : HoldsRecovery layout env.encode stream block
      (flushed / layout.strideSize * layout.stripeSize) (done * layout.stripeSize)
      (trimmedBuffers layout.stripeCount amounts state.buffers) :=
    hfilling.recovery.congr fun index _ => if_neg (by omega)
  exact
    { hfilling with
      low_le_start := fun index hindex =>
        (hfilling.low_le_start index hindex).trans (Nat.le_add_right _ _)
      start_le_flushed := hflushed
      start_le_done := hdone
      data := hdata
      recovery := hrecovery
      writeLen := fun index hindex => by
        have hbefore := hfilling.writeLen index hindex
        simp only [htrimmed index hindex, WriteBuffer.trimmed, hbefore]
        push_cast
        ring
      pendingCount := by
        have hbefore := hfilling.pendingCount_eq
        rw [hbefore, hdata.bufferedBytes_eq, hrecovery.bufferedBytes_eq]
        simp only [Nat.cast_add, sum_add_distrib]
        ring }

section Recover

variable (hrealises : env.Realises layout) (hrecoveryCount : 0 < layout.recoveryCount)
variable {fragments : ℕ → List Byte → List (Fragment Byte)} (hfragments : KeepsBytes fragments)
variable (hfilling : Filling layout env stream block place done flushed start state)

include hrealises hrecoveryCount hfragments hfilling

/-- The full strides are encoded. -/
theorem encode (hdone : done < place / layout.strideSize)
    (hsmall : (place / layout.strideSize - done) * layout.strideSize < 2 ^ 31) (padded : Bool) :
    ∃ buffers, computeRecovery env fragments padded state = trimFlushed env padded
        (encodedState layout block (place / layout.strideSize) buffers state) ∧
      Filling layout env stream block place (place / layout.strideSize) flushed start
        (encodedState layout block (place / layout.strideSize) buffers state) := by
  have hsplit := Nat.div_add_mod' place layout.strideSize
  have hoffset := hfilling.offset
  have hdata := hfilling.data
  rw [← hsplit] at hoffset hdata
  obtain ⟨buffers, hcompute, hdata', hwriteLen, hrecovery⟩ :=
    computeRecovery_strides hrealises hrecoveryCount hfragments
      (Nat.mod_lt place layout.strideSize_pos) hdone hoffset hfilling.recoveryEndPos hsmall hdata
      hfilling.start_le_done hfilling.recovery padded
  rw [hsplit] at hdata'
  have hflushed : flushed < place / layout.strideSize * layout.strideSize :=
    (Nat.div_lt_iff_lt_mul layout.strideSize_pos).mp (hfilling.flushed_stride.trans_lt hdone)
  have hzero : flushed - place / layout.strideSize * layout.strideSize = 0 := by omega
  refine ⟨buffers, hcompute, { hfilling with
      recoveryEndPos := rfl
      done_le := Nat.div_mul_le_self _ _
      flushed_stride := hfilling.flushed_stride.trans hdone.le
      start_le_done := fun index hindex => (hfilling.start_le_done index hindex).trans
        (Nat.mul_le_mul_right _ hdone.le)
      data := hdata'
      recovery := hrecovery
      writeLen := hwriteLen
      pendingCount := by rw [hzero]; simp [encodedState]
      partialFlush := ?_ }⟩
  obtain ⟨last, hlast, hle, -⟩ := hfilling.partialFlush
  exact ⟨last, hlast, hle, fun hlt => absurd hlt (by omega)⟩

omit hfragments hfilling in
/-- When the last stride was stored in part by a partial flush, that part is
trimmed, or its size is left to the caller. -/
theorem trimFlushed_eq
    (hfilling : Filling layout env stream block place (done + 1) flushed start state)
    (hlast : state.lastPartialFlushPos = (block * layout.blockSize + flushed : ℕ))
    (hlow : done * layout.strideSize < flushed) (hhigh : flushed < (done + 1) * layout.strideSize)
    (hstart : ∀ index < layout.stripeCount, start index = done * layout.stripeSize) :
    trimFlushed env true state =
        some (((flushed - done * layout.strideSize : ℕ) : ℤ), state) ∧
      ∃ next start, trimFlushed env false state = some (0, next) ∧
        Filling layout env stream block place (done + 1) flushed start next := by
  have hstride := hrealises.strideSize hrecoveryCount
  have hstrideLt := hrealises.strideSize_lt hrecoveryCount
  have hsize := layout.stripeSize_pos
  have hend := hfilling.recoveryEndPos
  have hlength : ∀ index < layout.stripeCount, layout.stripeLength flushed index =
      done * layout.stripeSize + layout.stripeTail (flushed - done * layout.strideSize) index :=
    fun index hindex => stripeLength_of_stride hindex hlow.le hhigh.le
  rw [add_one_mul] at hend hhigh
  have hoffset : ∀ index < layout.stripeCount,
      ((state.buffers index).bytes.length : ℤ) ≤ (state.buffers index).endPos := by
    intro index hindex
    have hfull : (done + 1) * layout.stripeSize ≤ layout.stripeLength place index := by
      rw [← stripeLength_strides hindex]
      exact stripeLength_mono hindex hfilling.done_le
    rw [add_one_mul] at hfull
    rw [hfilling.data.length_bytes hindex,
      hfilling.data.endPos index hindex (by rw [hstart index hindex]; omega)]
    omega
  have hhead : ((block * layout.blockSize + flushed : ℕ) : ℤ) + layout.strideSize -
      (block * layout.blockSize + (done * layout.strideSize + layout.strideSize) : ℕ) =
        (flushed - done * layout.strideSize : ℕ) := by omega
  obtain ⟨amounts, hamounts, htrimmed⟩ := trimStripes_range hrealises
    (flushed - done * layout.strideSize) layout.stripeCount state.pendingCount hoffset
  have hnext := hfilling.trim amounts
    (fun index hindex => by
      rw [hstart index hindex, hlength index hindex]
      exact Nat.add_le_add_left (hamounts index) _)
    (fun index hindex => by
      have hle := @stripeTail_le layout (flushed - done * layout.strideSize) index
      have := hamounts index
      rw [hstart index hindex, add_one_mul]
      omega)
  have hunfold : ∀ padded, trimFlushed env padded state =
      if padded = true then some (((flushed - done * layout.strideSize : ℕ) : ℤ), state)
      else some (0, { state with
        pendingCount := state.pendingCount -
          ∑ index ∈ Finset.range layout.stripeCount, (amounts index : ℤ)
        buffers := trimmedBuffers layout.stripeCount amounts state.buffers }) := by
    intro padded
    simp only [trimFlushed, hstride]
    rw [if_pos (by rw [hlast, hend]; omega), hlast, hend, hhead,
      wrap32_of_bounds (by omega) (by omega), if_neg (by omega), hrealises.dataCount, htrimmed,
      ← hend, ← hlast]
  exact ⟨hunfold true, _, _, hunfold false, hnext⟩

omit hrealises hrecoveryCount hfragments hfilling in
/-- Strides that were not stored in part are not trimmed. -/
theorem trimFlushed_of_le {state : RSWriteStriper} (padded : Bool)
    (hle : state.lastPartialFlushPos + env.striper.strideSize ≤ state.recoveryEndPos) :
    trimFlushed env padded state = some (0, state) := by
  rw [trimFlushed]
  exact if_neg (not_lt.mpr hle)

/-- `ComputeRecovery` encodes the full strides and trims what a partial flush has
stored of the first of them. -/
theorem recover (hsmall : (place / layout.strideSize - done) * layout.strideSize < 2 ^ 31) :
    ∃ next start, computeRecovery env fragments false state = some (0, next) ∧
      Filling layout env stream block place (place / layout.strideSize) flushed start next := by
  have hstride := hrealises.strideSize hrecoveryCount
  have hpos := layout.strideSize_pos
  have hle : done ≤ place / layout.strideSize :=
    (Nat.le_div_iff_mul_le hpos).mpr hfilling.done_le
  rcases hle.lt_or_eq with hlt | heq
  · obtain ⟨buffers, hcompute, hencoded⟩ :=
      hfilling.encode hrealises hrecoveryCount hfragments hlt hsmall false
    obtain ⟨last, hlast, hlastLe, hmiddle⟩ := hfilling.partialFlush
    have hflushed := hfilling.flushed_lt
    have hstrides := mul_add_le_of_lt hlt layout.strideSize
    rw [hcompute]
    by_cases htrim : block * layout.blockSize +
        place / layout.strideSize * layout.strideSize < last + layout.strideSize
    · -- the partial flush was in the stride `done`, which is the only new one
      have hlow : done * layout.strideSize < flushed := by omega
      obtain rfl := hmiddle hlow
      have hone : place / layout.strideSize = done + 1 := by
        have hlt' : place / layout.strideSize * layout.strideSize <
            (done + 2) * layout.strideSize := by
          rw [add_mul] at hflushed ⊢
          omega
        have := Nat.lt_of_mul_lt_mul_right hlt'
        omega
      rw [hone] at hencoded ⊢
      exact (trimFlushed_eq hrealises hrecoveryCount hencoded hlast hlow hflushed
        (hfilling.start_eq_of_lt hlow).2).2
    · refine ⟨_, start, trimFlushed_of_le false ?_, hencoded⟩
      simp only [encodedState, hlast, hstride]
      omega
  · refine ⟨state, start, ?_, heq ▸ hfilling⟩
    have hlt : place < (done + 1) * layout.strideSize := by
      rw [← Nat.div_lt_iff_lt_mul hpos]
      omega
    rw [add_one_mul] at hlt
    rw [computeRecovery]
    simp only [hrealises.recoveryStripeCount]
    rw [if_neg (by omega), if_pos]
    rw [hfilling.offset, hfilling.recoveryEndPos]
    omega

end Recover

end Filling

end QfsRepair.Striping
