import QfsRepair.Striping.WriteProcess
import QfsRepair.Striping.WriteUncoded

/-!
# Runs of the striping writer

A new file is written with sequential calls of `Process` and with calls of
`Flush`.  The data chunks then hold the bytes written, and the recovery chunks
the encoded columns of the bytes flushed, if the sizes fit the integer types of
the code and if no call starts a chunk block while data of the one before is
pending.
-/

namespace QfsRepair.Striping

open Machine List Layout

/-! ## The layout of a file -/

namespace ValidParameters

variable {stripeSize stripeCount recoveryStripeCount : ℤ}
variable (hvalid : ValidParameters stripeSize stripeCount recoveryStripeCount)

include hvalid

theorem stripeSize_pos : 0 < stripeSize.toNat := by
  obtain ⟨layout, rfl, -, -, -, -, hstripe⟩ := hvalid.exists_layout
  exact layout.stripeSize_pos

theorem strides_pos : 0 < (CHUNKSIZE / stripeSize).toNat := by
  obtain ⟨layout, rfl, -, -, hchunk, -, -⟩ := hvalid.exists_layout
  rw [hchunk, chunkSize, ← Int.natCast_ediv, Nat.mul_div_cancel _ layout.stripeSize_pos]
  exact layout.strides_pos

theorem stripeCount_pos : 0 < stripeCount.toNat := by
  obtain ⟨layout, -, rfl, -, -, -, -⟩ := hvalid.exists_layout
  exact layout.stripeCount_pos

/-- The layout that the parameters describe. -/
def layout : Layout where
  stripeSize := stripeSize.toNat
  strides := (CHUNKSIZE / stripeSize).toNat
  stripeCount := stripeCount.toNat
  recoveryCount := recoveryStripeCount.toNat
  stripeSize_pos := hvalid.stripeSize_pos
  strides_pos := hvalid.strides_pos
  stripeCount_pos := hvalid.stripeCount_pos

theorem stripeSize_eq : stripeSize = hvalid.layout.stripeSize := by
  obtain ⟨layout, hstripe, -⟩ := hvalid.exists_layout
  simp only [ValidParameters.layout]
  omega

theorem stripeCount_eq : stripeCount = hvalid.layout.stripeCount := by
  obtain ⟨layout, -, hcount, -⟩ := hvalid.exists_layout
  simp only [ValidParameters.layout]
  omega

theorem recoveryStripeCount_eq : recoveryStripeCount = hvalid.layout.recoveryCount := by
  obtain ⟨layout, -, -, hrecovery, -⟩ := hvalid.exists_layout
  simp only [ValidParameters.layout]
  omega

theorem chunkSize_eq : CHUNKSIZE = hvalid.layout.chunkSize := by
  obtain ⟨layout, hstripe, -, -, hchunk, -⟩ := hvalid.exists_layout
  have hstrides : (CHUNKSIZE / stripeSize).toNat = layout.strides := by
    rw [hchunk, hstripe, chunkSize, ← Int.natCast_ediv,
      Nat.mul_div_cancel _ layout.stripeSize_pos, Int.toNat_natCast]
  simp only [chunkSize, ValidParameters.layout, hstrides]
  rw [hstripe]
  exact hchunk

theorem aligned : kAlign ∣ hvalid.layout.stripeSize := by
  obtain ⟨⟨stripedFileType, htype, haccepted⟩, -, -⟩ := id hvalid
  simp only [validateStripeParameters, htype, decide_false, Bool.false_or, Bool.and_eq_true,
    decide_eq_true_eq] at haccepted
  obtain ⟨⟨⟨-, halign⟩, -⟩, -⟩ := haccepted
  have hdvd : (kAlign : ℤ) ∣ stripeSize :=
    (show (kAlign : ℤ) ∣ stripeAlignment by decide).trans (Int.dvd_of_tmod_eq_zero halign)
  rw [hvalid.stripeSize_eq] at hdvd
  exact_mod_cast hdvd

end ValidParameters

/-- The `int` expressions of the constructor do not wrap around; with recovery
stripes the stride size is used as a length as well. -/
structure WriterFits (stripeSize stripeCount recoveryStripeCount : ℤ) : Prop where
  members : MembersFit stripeSize stripeCount recoveryStripeCount
  stride : 0 < recoveryStripeCount → stripeSize * stripeCount < 2 ^ 31

variable {env : WriteEnvironment}

theorem WriterFits.realises_layout {layout : Layout}
    (hfits : WriterFits layout.stripeSize layout.stripeCount layout.recoveryCount)
    (hchunk : CHUNKSIZE = layout.chunkSize) (hcount : layout.stripeCount ≤ 511)
    (haligned : kAlign ∣ layout.stripeSize)
    (hstriper : env.striper =
      RSStriper.create layout.stripeSize layout.stripeCount layout.recoveryCount) :
    env.Realises layout := by
  have hstride : 0 < layout.recoveryCount → layout.strideSize < 2 ^ 31 := by
    intro hpos
    have hlt := hfits.stride (by omega)
    exact_mod_cast hlt
  refine ⟨?_, ?_, ?_, hstride, layout.blockSize_lt_offset hchunk hcount, haligned⟩
  · rw [hstriper]
    exact implements_create hchunk hcount hfits.members
  · rw [hstriper]
    rfl
  · intro hpos
    have hlt := hstride hpos
    rw [hstriper]
    simp only [RSStriper.create]
    rw [← Nat.cast_mul]
    exact wrap32_of_bounds (by omega) (by exact_mod_cast hlt)

theorem WriterFits.realises {stripeSize stripeCount recoveryStripeCount : ℤ}
    (hfits : WriterFits stripeSize stripeCount recoveryStripeCount)
    (hvalid : ValidParameters stripeSize stripeCount recoveryStripeCount)
    (hstriper : env.striper = RSStriper.create stripeSize stripeCount recoveryStripeCount) :
    env.Realises hvalid.layout := by
  have hlimit : hvalid.layout.stripeCount ≤ 511 := by
    have := hvalid.stripeCount_le
    have := hvalid.stripeCount_eq
    omega
  refine WriterFits.realises_layout ?_ hvalid.chunkSize_eq hlimit hvalid.aligned ?_
  · simpa only [← hvalid.stripeSize_eq, ← hvalid.stripeCount_eq, ← hvalid.recoveryStripeCount_eq]
      using hfits
  · simpa only [← hvalid.stripeSize_eq, ← hvalid.stripeCount_eq, ← hvalid.recoveryStripeCount_eq]
      using hstriper

/-! ## Calls -/

/-- A call of a client that writes a file from its start to its end. -/
inductive WriterCall where
  | process (call : ProcessCall)
  | flush (writeThreshold stripeIdentifier : ℤ)

def WriterCall.bytes : WriterCall → List Byte
  | .process call => call.inBuffer
  | .flush _ _ => []

/-- The writer, and the counter that all writers share. -/
structure WriterRun where
  count : ℤ
  state : RSWriteStriper

/-- One call; the run ends with a call that aborts or returns an error. -/
def WriterRun.step (env : WriteEnvironment) (run : WriterRun) : WriterCall → Option WriterRun
  | .process call =>
    (process env call run.count run.state.offset run.state).bind fun result =>
      if result.status = 0 then some ⟨result.count, result.state⟩ else none
  | .flush writeThreshold stripeIdentifier =>
    (flush env writeThreshold stripeIdentifier run.state).map fun state => ⟨run.count, state⟩

/-- All calls for a new file. -/
def runCalls (env : WriteEnvironment) (count : ℤ) (calls : List WriterCall) : Option WriterRun :=
  calls.foldlM (WriterRun.step env) ⟨count, RSWriteStriper.create 0⟩

/-- The bytes that the calls write. -/
def writtenBytes (calls : List WriterCall) : List Byte := calls.flatMap WriterCall.bytes

/-- The chunks hold the first `length` of the bytes and the recovery stripes of
these bytes, where zeros stand for what is missing. -/
structure StoresParity (layout : Layout) (encode : (ℕ → Byte) → ℕ → Byte) (bytes : List Byte)
    (length : ℕ) (memory : ℤ → Option Byte) : Prop where
  data : ∀ position < length, memory (layout.address position) = bytes[position]?
  recovery : ∀ block recoveryIndex chunkOffset, recoveryIndex < layout.recoveryCount →
    chunkOffset < layout.chunkSize →
    memory (layout.chunkStart block (layout.stripeCount + recoveryIndex) + chunkOffset : ℕ) =
      if layout.positionAt block 0 chunkOffset < length then
        some (encode (layout.column (truncate (bytes.getD · 0) length) block chunkOffset)
          recoveryIndex)
      else none
  /-- If the recovery stripes of zeros are zeros, this is so in the whole chunk. -/
  padded : (∀ index, encode (fun _ => 0) index = 0) →
    ∀ block recoveryIndex chunkOffset, recoveryIndex < layout.recoveryCount →
    chunkOffset < layout.chunkSize →
    (memory (layout.chunkStart block (layout.stripeCount + recoveryIndex) + chunkOffset : ℕ)).getD 0
      = encode (layout.column (truncate (bytes.getD · 0) length) block chunkOffset) recoveryIndex

/-- Stored data bytes are the bytes written; what is flushed is stored with its
recovery stripes, and that is everything if nothing is pending. -/
structure Consistent (layout : Layout) (encode : (ℕ → Byte) → ℕ → Byte) (bytes : List Byte)
    (state : RSWriteStriper) : Prop where
  sound : ∀ position byte, stored state.queued (layout.address position) = some byte →
    bytes[position]? = some byte
  flushed : ∃ length ≤ bytes.length, (state.pendingCount = 0 → length = bytes.length) ∧
    StoresParity layout encode bytes length (stored state.queued)

/-- The sizes of a call fit the types of the code, and no data is pending where it
starts a chunk block. -/
def CallFits (stripeCount recoveryStripeCount : ℤ) (state : RSWriteStriper) : WriterCall → Prop
  | .process call =>
    ((state.offset + call.inBuffer.length) / (CHUNKSIZE * stripeCount) + 1) *
        (CHUNKSIZE * (stripeCount + recoveryStripeCount)) < 2 ^ 63 ∧
      (0 < recoveryStripeCount →
        state.offset - state.recoveryEndPos + call.inBuffer.length < 2 ^ 31 ∧
          (call.inBuffer ≠ [] → state.offset % (CHUNKSIZE * stripeCount) = 0 →
            state.pendingCount = 0))
  | .flush _ _ => True

/-! ## What a step keeps -/

/-- The state of the writer after `length` bytes of the stream. -/
def Writes (layout : Layout) (env : WriteEnvironment) (stream : ℕ → Byte) (length : ℕ)
    (state : RSWriteStriper) : Prop :=
  0 < layout.recoveryCount ∧ Filled layout env stream length state ∨
    layout.recoveryCount = 0 ∧ Uncoded layout stream length state

section Step

variable {layout : Layout} {env : WriteEnvironment} {stream : ℕ → Byte}

theorem storedContents_zero (layout : Layout) (encode : (ℕ → Byte) → ℕ → Byte) :
    layout.storedContents encode stream 0 = fun _ => none := by
  funext address
  simp [storedContents, chunkContents]

theorem Filling.create (layout : Layout) (env : WriteEnvironment) (stream : ℕ → Byte) :
    Filling layout env stream 0 0 0 0 (fun _ => 0) (RSWriteStriper.create 0) where
  offset := by simp [RSWriteStriper.create]
  recoveryEndPos := by simp [RSWriteStriper.create]
  done_le := by simp
  place_le := Nat.zero_le _
  flushed_le := le_rfl
  flushed_stride := by simp
  low_le_start := by simp
  start_le_flushed := by simp
  start_le_done := by simp
  data := ⟨by simp, by simp [RSWriteStriper.create, stripeLength],
    by simp [stripeLength]⟩
  recovery := ⟨by simp, by simp [RSWriteStriper.create], by simp, by simp [RSWriteStriper.create]⟩
  writeLen := by simp [RSWriteStriper.create]
  pendingCount := by simp [RSWriteStriper.create, bufferedBytes]
  partialFlush := ⟨0, by simp [RSWriteStriper.create]⟩
  iterator := ⟨0, layout.state_zero.symm⟩
  fileSize := by simp [RSWriteStriper.create]
  failures := rfl
  stored := by
    rw [zero_mul, storedContents_zero]
    rfl

theorem Uncoded.create (layout : Layout) (stream : ℕ → Byte) :
    Uncoded layout stream 0 (RSWriteStriper.create 0) where
  buffered :=
    { denotes := by simp [WriteBuffer.Denotes, RSWriteStriper.create]
      ready := by simp [WriteBuffer.Ready, RSWriteStriper.create]
      held := by simp
      sound := by simp [stored, RSWriteStriper.create]
      pendingCount := by simp [RSWriteStriper.create, bufferedBytes]
      failures := rfl }
  complete := by simp [WriteBuffer.Complete, RSWriteStriper.create]
  offset := rfl
  recoveryEndPos := rfl
  iterator := ⟨0, layout.state_zero.symm⟩

namespace Writes

variable {length : ℕ} {state : RSWriteStriper}

theorem create (layout : Layout) (env : WriteEnvironment) (stream : ℕ → Byte) :
    Writes layout env stream 0 (RSWriteStriper.create 0) := by
  rcases Nat.eq_zero_or_pos layout.recoveryCount with hzero | hpos
  · exact .inr ⟨hzero, Uncoded.create layout stream⟩
  · refine .inl ⟨hpos, 0, 0, 0, 0, _, by simp, ?_, Filling.create layout env stream⟩
    simpa using layout.strideSize_pos

theorem offset_eq (hwrites : Writes layout env stream length state) : state.offset = length := by
  rcases hwrites with ⟨-, block, place, done, flushed, start, rfl, -, hfilling⟩ | ⟨-, huncoded⟩
  · exact hfilling.offset
  · exact huncoded.offset

variable (hrealises : env.Realises layout) (haccepting : env.Accepting)

include hrealises haccepting

theorem flush_eq (hwrites : Writes layout env stream length state)
    (threshold stripeIdentifier : ℤ) :
    ∃ next, flush env threshold stripeIdentifier state = some next ∧
      Writes layout env stream length next := by
  rcases hwrites with ⟨hpos, hfilled⟩ | ⟨hzero, huncoded⟩
  · obtain ⟨next, hflush, hnext⟩ :=
      hfilled.flush_eq hrealises hpos haccepting threshold stripeIdentifier
    exact ⟨next, hflush, .inl ⟨hpos, hnext⟩⟩
  · obtain ⟨next, hflush, hnext, -⟩ :=
      huncoded.flush_eq hrealises hzero haccepting threshold stripeIdentifier
    exact ⟨next, hflush, .inr ⟨hzero, hnext⟩⟩

theorem process_eq (hwrites : Writes layout env stream length state) {call : ProcessCall}
    (count : ℤ) (hinput : call.inBuffer = slice stream length (length + call.inBuffer.length))
    (hfits : CallFits layout.stripeCount layout.recoveryCount state (.process call)) :
    ∃ next, process env call count state.offset state =
        some ⟨0, wrap32 (count + 1), (length + call.inBuffer.length : ℕ), [], next⟩ ∧
      Writes layout env stream (length + call.inBuffer.length) next ∧
      (call.writeThreshold ≤ 1 → next.pendingCount = 0) := by
  obtain ⟨hend, hrecovery⟩ := hfits
  have hblock : CHUNKSIZE * (layout.stripeCount : ℤ) = layout.blockSize := by
    rw [hrealises.implements.chunkSize, blockSize_eq, Nat.cast_mul, mul_comm]
  have htotal : CHUNKSIZE * ((layout.stripeCount : ℤ) + layout.recoveryCount) =
      layout.totalSize := by
    rw [hrealises.implements.chunkSize, totalSize, Nat.cast_mul, Nat.cast_add, mul_comm]
  have hoffset := hwrites.offset_eq
  rw [hblock, htotal, hoffset] at hend
  have hend' : ((length + call.inBuffer.length) / layout.blockSize + 1) * layout.totalSize <
      2 ^ 63 := by exact_mod_cast hend
  rw [hoffset]
  rcases hwrites with ⟨hpos, hfilled⟩ | ⟨hzero, huncoded⟩
  · obtain ⟨hsmall, hboundary⟩ := hrecovery (by exact_mod_cast hpos)
    obtain ⟨next, hprocess, hnext, hpending⟩ := hfilled.process_eq hrealises hpos haccepting
      call.contents_fragments count rfl hinput
      (fun hdata hmod => hboundary hdata (by rw [hblock, hoffset]; exact_mod_cast hmod))
      hsmall hend'
    exact ⟨next, hprocess, .inl ⟨hpos, hnext⟩, hpending⟩
  · obtain ⟨next, hprocess, hnext, hpending⟩ := huncoded.process_eq hrealises hzero haccepting
      count hinput hend'
    exact ⟨next, hprocess, .inr ⟨hzero, hnext⟩, hpending⟩

end Writes

end Step

/-! ## What the chunks hold -/

section Contents

variable {layout : Layout} {env : WriteEnvironment} {stream : ℕ → Byte}
variable {encode : (ℕ → Byte) → ℕ → Byte} {length : ℕ} {bytes : List Byte}
variable {state : RSWriteStriper}

theorem storedContents_address (layout : Layout) (encode : (ℕ → Byte) → ℕ → Byte)
    (stream : ℕ → Byte) (length position : ℕ) :
    layout.storedContents encode stream length (layout.address position) =
      if position < length then some (stream position) else none := by
  have hoffset : layout.chunkOffset position < layout.chunkSize := layout.chunkOffset_lt position
  rw [address_eq_chunkStart, storedContents_chunkStart _ _ _ _
    (layout.index_lt_total position) hoffset, chunkContents,
    if_pos (layout.index_lt position), positionAt_chunkOffset]

/-- Where stripe 0 has no data, no stripe has. -/
theorem column_truncate_eq_zero {block chunkOffset : ℕ}
    (hlength : ¬ layout.positionAt block 0 chunkOffset < length) :
    layout.column (truncate stream length) block chunkOffset = fun _ => 0 := by
  funext index
  have hle : layout.positionAt block 0 chunkOffset ≤ layout.positionAt block index chunkOffset := by
    simp only [positionAt, place, zero_mul]
    omega
  simp only [column, truncate]
  rw [if_neg (show ¬ layout.positionAt block index chunkOffset < length by omega), ite_self]

theorem truncate_getD_slice {bound : ℕ} (hbound : bound ≤ length) :
    truncate ((slice stream 0 length).getD · 0) bound = truncate stream bound := by
  funext position
  simp only [truncate]
  by_cases hlt : position < bound
  · rw [if_pos hlt, if_pos hlt, getD_eq_getElem?_getD, getElem?_slice stream (by omega), zero_add]
    rfl
  · rw [if_neg hlt, if_neg hlt]

theorem storesParity_storedContents {bound : ℕ} (hbound : bound ≤ length) :
    StoresParity layout encode (slice stream 0 length) bound
      (layout.storedContents encode stream bound) := by
  have hrecovery : ∀ block recoveryIndex chunkOffset, recoveryIndex < layout.recoveryCount →
      chunkOffset < layout.chunkSize →
      layout.storedContents encode stream bound
          (layout.chunkStart block (layout.stripeCount + recoveryIndex) + chunkOffset : ℕ) =
        if layout.positionAt block 0 chunkOffset < bound then
          some (encode (layout.column (truncate stream bound) block chunkOffset) recoveryIndex)
        else none := by
    intro block recoveryIndex chunkOffset hindex hoffset
    rw [storedContents_chunkStart _ _ _ _ (by omega) hoffset, chunkContents,
      if_neg (by omega), Nat.add_sub_cancel_left]
  refine ⟨?_, ?_, ?_⟩
  · intro position hposition
    rw [storedContents_address, if_pos hposition, getElem?_slice stream (by omega), zero_add]
  · intro block recoveryIndex chunkOffset hindex hoffset
    rw [truncate_getD_slice hbound]
    exact hrecovery block recoveryIndex chunkOffset hindex hoffset
  · intro hzero block recoveryIndex chunkOffset hindex hoffset
    rw [truncate_getD_slice hbound, hrecovery block recoveryIndex chunkOffset hindex hoffset]
    by_cases hlt : layout.positionAt block 0 chunkOffset < bound
    · rw [if_pos hlt]
      rfl
    · rw [if_neg hlt, column_truncate_eq_zero hlt, hzero]
      rfl

theorem Filled.consistent (hfilled : Filled layout env stream length state) :
    Consistent layout env.encode (slice stream 0 length) state := by
  obtain ⟨block, place, done, flushed, start, rfl, -, hfilling⟩ := hfilled
  have hflushed := hfilling.flushed_le
  refine ⟨?_, block * layout.blockSize + flushed, ?_, ?_, ?_⟩
  · intro position byte hbyte
    rw [hfilling.stored, storedContents_address] at hbyte
    by_cases hlt : position < block * layout.blockSize + flushed
    · rw [if_pos hlt] at hbyte
      rw [getElem?_slice stream (by omega), zero_add, hbyte]
    · rw [if_neg hlt] at hbyte
      exact absurd hbyte (by simp)
  · rw [length_slice]
    omega
  · intro hpending
    rw [length_slice, hfilling.flushed_eq_of_pendingCount hpending, Nat.sub_zero]
  · rw [hfilling.stored]
    exact storesParity_storedContents (by omega)

theorem Uncoded.consistent (hrecoveryCount : layout.recoveryCount = 0)
    (huncoded : Uncoded layout stream length state) :
    Consistent layout encode (slice stream 0 length) state := by
  have hdata : state.pendingCount = 0 → ∀ position < length,
      stored state.queued (layout.address position) = some (stream position) := by
    intro hpending position hposition
    refine (huncoded.buffered.held position hposition).resolve_right ?_
    rintro ⟨index, hindex, hcovers⟩
    rw [huncoded.buffered.pendingCount, bufferedBytes_range,
      Finset.sum_eq_zero_iff_of_nonneg fun _ _ => Int.natCast_nonneg _] at hpending
    have hempty := hpending index (mem_range.mpr hindex)
    exact WriteBuffer.not_covers_of_nil (length_eq_zero_iff.mp (by exact_mod_cast hempty)) _
      hcovers
  have hnone : ∀ recoveryIndex, ¬ recoveryIndex < layout.recoveryCount := by
    omega
  refine ⟨?_, if state.pendingCount = 0 then length else 0, ?_, ?_, ⟨?_, ?_, ?_⟩⟩
  · intro position byte hbyte
    obtain ⟨other, hother, haddress, rfl⟩ := huncoded.buffered.sound _ _ hbyte
    rw [layout.address_injective (Int.natCast_inj.mp haddress), getElem?_slice stream (by omega),
      zero_add]
  · rw [length_slice]
    split_ifs <;> omega
  · intro hpending
    rw [if_pos hpending, length_slice, Nat.sub_zero]
  · intro position hposition
    by_cases hpending : state.pendingCount = 0
    · rw [if_pos hpending] at hposition
      rw [hdata hpending position hposition, getElem?_slice stream (by omega), zero_add]
    · rw [if_neg hpending] at hposition
      omega
  · intro _ recoveryIndex _ hindex
    exact absurd hindex (hnone recoveryIndex)
  · intro _ _ recoveryIndex _ hindex
    exact absurd hindex (hnone recoveryIndex)

theorem Writes.consistent (hwrites : Writes layout env stream length state) :
    Consistent layout env.encode (slice stream 0 length) state := by
  rcases hwrites with ⟨-, hfilled⟩ | ⟨hzero, huncoded⟩
  · exact hfilled.consistent
  · exact huncoded.consistent hzero

end Contents

/-! ## Runs -/

/-- Every call finds a state that it fits. -/
def CallsFit (stripeCount recoveryStripeCount : ℤ) (env : WriteEnvironment) (count : ℤ)
    (calls : List WriterCall) : Prop :=
  ∀ before call after, calls = before ++ call :: after →
    ∀ run, runCalls env count before = some run →
      CallFits stripeCount recoveryStripeCount run.state call

theorem writtenBytes_append_singleton (calls : List WriterCall) (call : WriterCall) :
    writtenBytes (calls ++ [call]) = writtenBytes calls ++ call.bytes := by
  simp [writtenBytes]

theorem runCalls_append_singleton (env : WriteEnvironment) (count : ℤ) (calls : List WriterCall)
    (call : WriterCall) :
    runCalls env count (calls ++ [call]) =
      (runCalls env count calls).bind fun run => run.step env call := by
  simp [runCalls]

section Runs

variable {layout : Layout} {env : WriteEnvironment} {stream : ℕ → Byte}
variable (hrealises : env.Realises layout) (haccepting : env.Accepting)

include hrealises haccepting

/-- One call. -/
theorem Writes.step_eq {run : WriterRun} {length : ℕ} {call : WriterCall}
    (hwrites : Writes layout env stream length run.state)
    (hinput : call.bytes = slice stream length (length + call.bytes.length))
    (hfits : CallFits layout.stripeCount layout.recoveryCount run.state call) :
    ∃ next, run.step env call = some next ∧
      Writes layout env stream (length + call.bytes.length) next.state ∧
      ∀ arguments, call = .process arguments → arguments.writeThreshold ≤ 1 →
        next.state.pendingCount = 0 := by
  cases call with
  | process arguments =>
    obtain ⟨next, hprocess, hnext, hpending⟩ :=
      hwrites.process_eq hrealises haccepting run.count hinput hfits
    refine ⟨⟨wrap32 (run.count + 1), next⟩, ?_, hnext, ?_⟩
    · rw [WriterRun.step, hprocess]
      rfl
    · rintro _ ⟨⟩ hthreshold
      exact hpending hthreshold
  | flush threshold stripeIdentifier =>
    obtain ⟨next, hflush, hnext⟩ :=
      hwrites.flush_eq hrealises haccepting threshold stripeIdentifier
    refine ⟨⟨run.count, next⟩, ?_, hnext, by simp⟩
    rw [WriterRun.step, hflush]
    rfl

theorem runCalls_eq {count : ℤ} {calls : List WriterCall}
    (hstream : writtenBytes calls = slice stream 0 (writtenBytes calls).length)
    (hfits : CallsFit layout.stripeCount layout.recoveryCount env count calls) :
    ∃ run, runCalls env count calls = some run ∧
      Writes layout env stream (writtenBytes calls).length run.state ∧
      ∀ before arguments, calls = before ++ [.process arguments] →
        arguments.writeThreshold ≤ 1 → run.state.pendingCount = 0 := by
  induction calls using reverseRecOn with
  | nil => exact ⟨_, rfl, Writes.create layout env stream, by simp⟩
  | append_singleton calls call ih =>
    rw [writtenBytes_append_singleton, length_append] at hstream ⊢
    have hbefore : writtenBytes calls = slice stream 0 (writtenBytes calls).length := by
      have htake := congrArg (take (writtenBytes calls).length) hstream
      rw [take_left, take_slice, zero_add, min_eq_right (by omega)] at htake
      exact htake
    have hafter : call.bytes = slice stream (writtenBytes calls).length
        ((writtenBytes calls).length + call.bytes.length) := by
      have hdrop := congrArg (drop (writtenBytes calls).length) hstream
      rw [drop_left, drop_slice, zero_add] at hdrop
      exact hdrop
    obtain ⟨run, hrun, hwrites, -⟩ := ih hbefore fun before earlier after hsplit =>
      hfits before earlier (after ++ [call]) (by rw [hsplit]; simp)
    obtain ⟨next, hstep, hnext, hpending⟩ := hwrites.step_eq hrealises haccepting hafter
      (hfits calls call [] rfl run hrun)
    refine ⟨next, ?_, hnext, ?_⟩
    · rw [runCalls_append_singleton, hrun]
      exact hstep
    · intro before arguments hsplit
      exact hpending arguments (singleton_inj.mp (append_inj' hsplit rfl).2)

end Runs

/-- A new file that is written with sequential calls, for parameters whose sizes
fit and with calls that fit: every call returns without an error and leaves the
chunks consistent with the bytes written so far.  A last write with the threshold
0 or 1 leaves nothing pending, so that all bytes are stored. -/
theorem runCalls_consistent {stripeSize stripeCount recoveryStripeCount : ℤ}
    (hvalid : ValidParameters stripeSize stripeCount recoveryStripeCount)
    (hfits : WriterFits stripeSize stripeCount recoveryStripeCount) {env : WriteEnvironment}
    (hstriper : env.striper = RSStriper.create stripeSize stripeCount recoveryStripeCount)
    (haccepting : env.Accepting) {count : ℤ} {calls : List WriterCall}
    (hcalls : CallsFit stripeCount recoveryStripeCount env count calls) :
    ∃ run, runCalls env count calls = some run ∧
      Consistent hvalid.layout env.encode (writtenBytes calls) run.state ∧
      ∀ before arguments, calls = before ++ [.process arguments] →
        arguments.writeThreshold ≤ 1 → run.state.pendingCount = 0 := by
  have hstream := slice_getD (writtenBytes calls) 0
  have hcalls' : CallsFit hvalid.layout.stripeCount hvalid.layout.recoveryCount env count
      calls := by
    rw [← hvalid.stripeCount_eq, ← hvalid.recoveryStripeCount_eq]
    exact hcalls
  obtain ⟨run, hrun, hwrites, hpending⟩ :=
    runCalls_eq (hfits.realises hvalid hstriper) haccepting hstream.symm hcalls'
  refine ⟨run, hrun, ?_, hpending⟩
  have hconsistent := hwrites.consistent
  rwa [hstream] at hconsistent

/-- A copy of the single data stripe as recovery stripe. -/
def mirrorEnvironment : WriteEnvironment :=
  ⟨RSStriper.create 65536 1 1, fun column _ => column 0, fun _ _ len _ => len⟩

/-- A call whose buffers stay in one fragment. -/
def wholeCall (inBuffer : List Byte) (writeThreshold : ℤ) : ProcessCall where
  inBuffer := inBuffer
  writeThreshold := writeThreshold
  now := 0
  fragments _ _ bytes := [⟨0, bytes⟩]
  contents_fragments _ _ bytes := by simp [contents]

theorem validParameters_mirror : ValidParameters 65536 1 1 :=
  ⟨⟨2, by decide, by decide⟩, by decide, by decide⟩

theorem writerFits_mirror : WriterFits 65536 1 1 := ⟨⟨by decide, by decide⟩, by decide⟩

/-- Three bytes, written through. -/
theorem runCalls_mirror_consistent : WriterFits 65536 1 1 ∧
    CallsFit 1 1 mirrorEnvironment 0 [.process (wholeCall [1, 2, 3] 1)] ∧
    ∃ run, runCalls mirrorEnvironment 0 [.process (wholeCall [1, 2, 3] 1)] = some run ∧
      Consistent validParameters_mirror.layout mirrorEnvironment.encode [1, 2, 3] run.state ∧
      run.state.pendingCount = 0 := by
  have hcalls : CallsFit 1 1 mirrorEnvironment 0 [.process (wholeCall [1, 2, 3] 1)] := by
    intro before call after hsplit run hrun
    cases before with
    | nil =>
      obtain ⟨rfl, -⟩ := cons.inj hsplit
      cases hrun
      exact ⟨by decide, fun _ => ⟨by decide, fun _ _ => rfl⟩⟩
    | cons first before =>
      obtain ⟨-, hrest⟩ := cons.inj hsplit
      exact absurd hrest (by simp)
  obtain ⟨run, hrun, hconsistent, hpending⟩ := runCalls_consistent validParameters_mirror
    writerFits_mirror rfl (fun _ _ _ _ => rfl) hcalls
  exact ⟨writerFits_mirror, hcalls, run, hrun, hconsistent, hpending [] _ rfl le_rfl⟩

/-! ## A pending chunk block -/

theorem reposition_offset (env : WriteEnvironment) (call : ProcessCall) (stripeIdentifier : ℤ)
    (state : RSWriteStriper) :
    reposition env call stripeIdentifier state.offset state = some (some state) :=
  if_neg fun hmoved => hmoved.2 rfl

section Pending

variable {layout : Layout} {env : WriteEnvironment} {stream : ℕ → Byte}
variable (hrealises : env.Realises layout) (hrecoveryCount : 0 < layout.recoveryCount)

include hrealises hrecoveryCount

variable {call : ProcessCall}

/-- A call that fills the first chunk block and stays below its threshold leaves
all of the block pending. -/
theorem process_block_pending (count : ℤ)
    (hinput : call.inBuffer = slice stream 0 layout.blockSize) (hend : layout.totalSize < 2 ^ 63)
    (hsmall : layout.blockSize < 2 ^ 31) (hthreshold : layout.totalSize < call.writeThreshold) :
    ∃ done start next, process env call count 0 (RSWriteStriper.create 0) =
        some ⟨0, wrap32 (count + 1), layout.blockSize, [], next⟩ ∧
      Filling layout env stream 0 layout.blockSize done 0 start next := by
  have hblockPos := layout.blockSize_pos
  obtain ⟨size, striped, next, start, hsize, hle, hfull, hstripe, hcompute, hfilling⟩ :=
    fillBlock_eq hrealises hrecoveryCount (fun offset => call.contents_fragments offset)
      (by omega) (Filling.create layout env stream) hblockPos hblockPos (by omega)
  obtain rfl : size = layout.blockSize := by omega
  simp only [zero_mul, zero_add, Nat.cast_zero] at hstripe hcompute hfilling
  obtain ⟨rounds, hrounds⟩ : ∃ rounds, call.inBuffer.length = rounds + 1 :=
    Nat.exists_eq_succ_of_ne_zero (by rw [hinput, length_slice]; omega)
  have hfill : fillBlocks env call.fragments (stripeIdentifierOf call.now count) (rounds + 1)
      call.inBuffer 0 (RSWriteStriper.create 0) = some ((layout.blockSize : ℤ), next) := by
    rw [fillBlocks, if_neg (ne_nil_of_length_pos (by omega)), hinput, hstripe]
    simp only [Option.bind_eq_bind, Option.bind_some, hcompute, slice_self, if_true]
  have hdone : layout.blockSize / layout.strideSize * layout.strideSize = layout.blockSize := by
    rw [blockSize_eq_strides, Nat.mul_div_cancel_left _ layout.strideSize_pos, mul_comm]
  have hpending : next.pendingCount ≤ layout.totalSize := by
    have hrows : layout.blockSize / layout.strideSize * layout.stripeSize = layout.chunkSize := by
      rw [blockSize_eq_strides, Nat.mul_div_cancel_left _ layout.strideSize_pos, chunkSize]
    have hstart : 0 ≤ ∑ index ∈ Finset.range layout.stripeCount, (start index : ℤ) :=
      Finset.sum_nonneg fun _ _ => Int.natCast_nonneg _
    rw [hfilling.pendingCount_eq, hrows, Nat.zero_div, zero_mul, totalSize,
      add_mul, ← blockSize_eq, Nat.cast_zero, sub_zero]
    omega
  have hflush : flush env call.writeThreshold (stripeIdentifierOf call.now count) next =
      some next := by
    rw [flush, flushLoop, if_pos (by omega)]
  have hreposition : reposition env call (stripeIdentifierOf call.now count) 0
      (RSWriteStriper.create 0) = some (some (RSWriteStriper.create 0)) :=
    reposition_offset env call _ (RSWriteStriper.create 0)
  refine ⟨_, start, next, ?_, hfilling⟩
  rw [process, if_neg (by omega)]
  simp only [hreposition, Option.bind_eq_bind, Option.bind_some, hrounds, hfill]
  rw [if_pos, hflush]
  · rfl
  · rw [hfilling.offset, hfilling.recoveryEndPos]
    omega

/-- Data for the next chunk block then finds the buffer of stripe 0 in use, and
the writer aborts. -/
theorem process_eq_none_of_pending {block done flushed : ℕ} {start : ℕ → ℕ} {state : RSWriteStriper}
    (count : ℤ) (hdata : call.inBuffer ≠ []) (hend : (block + 2) * layout.totalSize < 2 ^ 63)
    (hfilling : Filling layout env stream block layout.blockSize done flushed start state)
    (hstart : start 0 < layout.chunkSize) :
    process env call count state.offset state = none := by
  have hindex := layout.stripeCount_pos
  have hlength : layout.stripeLength layout.blockSize 0 = layout.chunkSize := by
    rw [blockSize_eq_strides, mul_comm, stripeLength_strides hindex, chunkSize]
  have hblock : layout.block ((block + 1) * layout.blockSize) = block + 1 := by
    rw [← div_blockSize, Nat.mul_div_cancel _ layout.blockSize_pos]
  have hfirst : layout.index ((block + 1) * layout.blockSize) = 0 := by
    simpa using (@digits_head layout (block + 1) 0 0 layout.strideSize_pos).1
  have hoffset : state.offset = ((block + 1) * layout.blockSize : ℕ) := by
    rw [hfilling.offset, add_one_mul]
  have hbytes : (state.buffers 0).bytes ≠ [] := by
    rw [hfilling.data.bytes 0 hindex, Ne, slice_eq_nil_iff, hlength, not_le]
    exact hstart
  have hendPos : (state.buffers 0).endPos =
      (layout.chunkStart block 0 + layout.chunkSize : ℕ) := by
    rw [hfilling.data.endPos 0 hindex (by rw [hlength]; exact hstart), hlength]
  have hset : env.striper.setPos state.position state.offset =
      some (layout.state ((block + 1) * layout.blockSize)) := by
    obtain ⟨current, hcurrent⟩ := hfilling.iterator
    rw [hoffset]
    apply setPos_eq hrealises.implements (addressable_of_le hend (by gcongr; omega))
    intro hpos
    rw [hcurrent] at hpos ⊢
    rw [Int.natCast_inj.mp hpos]
  have hnoRoom : makeRoom env
      { state with position := layout.state ((block + 1) * layout.blockSize) } = none := by
    have hne : (state.buffers 0).endPos ≠ layout.address ((block + 1) * layout.blockSize) := by
      rw [hendPos]
      intro heq
      have haddress := layout.address_block ((block + 1) * layout.blockSize)
      rw [← Int.natCast_inj.mp heq, hblock, chunkStart, Nat.add_zero, ← Nat.succ_mul,
        Nat.mul_div_cancel _ layout.chunkSize_pos, Nat.succ_eq_add_one, mul_comm,
        Nat.mul_add_div (by omega), Nat.div_eq_of_lt (by omega)] at haddress
      omega
    rw [makeRoom, toNat_stripeIdx_state, filePos_state, hfirst, if_pos ⟨hne, hbytes⟩, if_pos]
    rw [hrealises.recoveryStripeCount]
    exact_mod_cast hrecoveryCount
  obtain ⟨rounds, hrounds⟩ : ∃ rounds, call.inBuffer.length = rounds + 1 :=
    Nat.exists_eq_succ_of_ne_zero (by simpa using hdata)
  rw [process, if_neg (by omega)]
  simp only [reposition_offset, Option.bind_eq_bind, Option.bind_some, hrounds]
  rw [fillBlocks, if_neg hdata, stripe, if_neg hdata, hset]
  simp only [Option.bind_eq_bind, Option.bind_some, hrounds]
  rw [stripeLoop, hnoRoom]
  rfl

end Pending

/-- A first call that fills the chunk block with a threshold above it, and a second
one with a single byte more: the writer aborts in the second call. -/
theorem runCalls_block_pending_eq_none : ValidParameters 65536 1 1 ∧ WriterFits 65536 1 1 ∧
    mirrorEnvironment.Accepting ∧
    (∃ run, runCalls mirrorEnvironment 0
        [.process (wholeCall (List.replicate (2 ^ 26) 0) (2 ^ 31 - 1))] = some run) ∧
    runCalls mirrorEnvironment 0
      [.process (wholeCall (List.replicate (2 ^ 26) 0) (2 ^ 31 - 1)),
        .process (wholeCall [0] 0)] = none := by
  have hrealises : mirrorEnvironment.Realises validParameters_mirror.layout :=
    writerFits_mirror.realises validParameters_mirror rfl
  obtain ⟨layout, hlayout⟩ : ∃ layout, layout = validParameters_mirror.layout := ⟨_, rfl⟩
  rw [← hlayout] at hrealises
  have hcount : layout.stripeCount = 1 := by rw [hlayout]; rfl
  have hrecoveryCount : layout.recoveryCount = 1 := by rw [hlayout]; rfl
  have hchunk : layout.chunkSize = 2 ^ 26 := chunkSize_eq hrealises.implements.chunkSize
  have hblock : layout.blockSize = 2 ^ 26 := by
    rw [blockSize_eq, hcount, hchunk, one_mul]
  have htotal : layout.totalSize = 2 ^ 27 := by
    rw [totalSize, hcount, hrecoveryCount, hchunk]
    norm_num
  have hbytes : replicate (2 ^ 26) (0 : Byte) = slice (fun _ => 0) 0 layout.blockSize := by
    rw [slice, hblock, map_const', length_range', Nat.sub_zero]
  obtain ⟨done, start, next, hprocess, hfilling⟩ :=
    @process_block_pending layout mirrorEnvironment (fun _ => 0) hrealises (by omega)
      (wholeCall (replicate (2 ^ 26) 0) (2 ^ 31 - 1)) 0 (by rw [wholeCall]; exact hbytes)
      (by rw [htotal]; norm_num) (by rw [hblock]; norm_num)
      (by rw [htotal]; simp only [wholeCall]; norm_num)
  have hstart : start 0 < layout.chunkSize := by
    have hle := hfilling.start_le_flushed 0 layout.stripeCount_pos
    have hzero : layout.stripeLength 0 0 = 0 := by simp [stripeLength]
    omega
  have hnone := process_eq_none_of_pending hrealises (by omega) (wrap32 (0 + 1))
    (show (wholeCall [0] 0).inBuffer ≠ [] by simp [wholeCall]) (by rw [htotal]; norm_num)
    hfilling hstart
  have hfirst : WriterRun.step mirrorEnvironment ⟨0, RSWriteStriper.create 0⟩
      (.process (wholeCall (replicate (2 ^ 26) 0) (2 ^ 31 - 1))) =
        some ⟨wrap32 (0 + 1), next⟩ := by
    rw [WriterRun.step]
    simp only [RSWriteStriper.create] at hprocess ⊢
    rw [hprocess]
    rfl
  refine ⟨validParameters_mirror, writerFits_mirror, fun _ _ _ _ => rfl,
    ⟨⟨wrap32 (0 + 1), next⟩, ?_⟩, ?_⟩
  · rw [runCalls, foldlM_cons, hfirst]
    rfl
  · rw [runCalls, foldlM_cons, hfirst]
    simp only [Option.bind_eq_bind, Option.bind_some, foldlM_cons]
    rw [WriterRun.step]
    rw [hnone]
    rfl

end QfsRepair.Striping
