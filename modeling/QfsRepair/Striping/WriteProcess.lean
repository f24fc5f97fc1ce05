import QfsRepair.Striping.WritePartial

/-!
# Process with recovery stripes

The loop over the chunk blocks and the flush at the end of `Process` keep the
invariant of the chunk block that is being filled.
-/

namespace QfsRepair.Striping

open Machine

variable {layout : Layout} {env : WriteEnvironment} {stream : ℕ → Byte}
variable {block place done flushed : ℕ} {start : ℕ → ℕ} {state : RSWriteStriper}

/-- All full strides are encoded, and `length` bytes are dealt out. -/
def Filled (layout : Layout) (env : WriteEnvironment) (stream : ℕ → Byte) (length : ℕ)
    (state : RSWriteStriper) : Prop :=
  ∃ block place done flushed start, length = block * layout.blockSize + place ∧
    place < (done + 1) * layout.strideSize ∧
    Filling layout env stream block place done flushed start state

section Process

variable (hrealises : env.Realises layout) (hrecoveryCount : 0 < layout.recoveryCount)
variable (haccepting : env.Accepting)
variable {fragments : ℤ → ℕ → List Byte → List (Fragment Byte)}
variable (hfragments : ∀ offset, KeepsBytes (fragments offset))

include hrealises hrecoveryCount hfragments

variable {length : ℕ}

/-- One chunk block: data is dealt out and the full strides are encoded. -/
theorem fillBlock_eq (hend : (block + 1) * layout.totalSize < 2 ^ 63)
    (hfilling : Filling layout env stream block place done flushed start state)
    (hplace : place < layout.blockSize) (hlength : 0 < length)
    (hsmall : place - done * layout.strideSize + length < 2 ^ 31) :
    ∃ count striped next start, 0 < count ∧ count ≤ length ∧
      (count < length → place + count = layout.blockSize) ∧
      stripe env (slice stream (block * layout.blockSize + place)
          (block * layout.blockSize + place + length))
        (block * layout.blockSize + place : ℕ) state =
        some (((block * layout.blockSize + (place + count) : ℕ) : ℤ),
          slice stream (block * layout.blockSize + (place + count))
            (block * layout.blockSize + place + length), striped) ∧
      computeRecovery env (fragments (block * layout.blockSize + (place + count) : ℕ)) false
          { striped with
            offset := (block * layout.blockSize + (place + count) : ℕ)
            fileSize := max striped.fileSize (block * layout.blockSize + (place + count) : ℕ) } =
        some (0, next) ∧
      Filling layout env stream block (place + count) ((place + count) / layout.strideSize)
        flushed start next := by
  obtain ⟨count, striped, hcount, hle, hbound, hfull, hstripe, hdealt⟩ :=
    stripe_eq hrealises hend hfilling.iterator hfilling.data hplace hlength
  have hfileSize : max striped.fileSize ((block * layout.blockSize + (place + count) : ℕ) : ℤ) ≤
      (block * layout.blockSize + (place + count) : ℕ) := by
    have hbefore := hfilling.fileSize
    rw [hfilling.offset] at hbefore
    rw [hdealt.frame]
    exact max_le (hbefore.trans (by omega)) le_rfl
  have hdealt' := hfilling.deal hbound hdealt hfileSize
  have hsmall' : ((place + count) / layout.strideSize - done) * layout.strideSize < 2 ^ 31 := by
    have hfloor := Nat.div_mul_le_self (place + count) layout.strideSize
    rw [Nat.sub_mul]
    omega
  obtain ⟨next, start', hcompute, hnext⟩ :=
    hdealt'.recover hrealises hrecoveryCount (hfragments _) hsmall'
  exact ⟨count, striped, next, start', hcount, hle, hfull, hstripe, hcompute, hnext⟩

include haccepting in
/-- The loop over the chunk blocks. -/
theorem fillBlocks_eq (stripeIdentifier : ℤ) (hlength : 0 < length)
    (hfilling : Filling layout env stream block place done flushed start state)
    (hplace : place < layout.blockSize)
    (hsmall : place - done * layout.strideSize + length < 2 ^ 31)
    (hend : ((block * layout.blockSize + place + length) / layout.blockSize + 1) *
      layout.totalSize < 2 ^ 63) :
    ∃ next, fillBlocks env fragments stripeIdentifier length
        (slice stream (block * layout.blockSize + place)
          (block * layout.blockSize + place + length))
        (block * layout.blockSize + place : ℕ) state =
        some (((block * layout.blockSize + place + length : ℕ) : ℤ), next) ∧
      Filled layout env stream (block * layout.blockSize + place + length) next := by
  have hpos := layout.blockSize_pos
  have hstridePos := layout.strideSize_pos
  obtain ⟨total, htotal⟩ : ∃ total, total = block * layout.blockSize + place + length := ⟨_, rfl⟩
  rw [← htotal] at hend ⊢
  refine @fillBlocks_rule env stream layout hrealises fragments stripeIdentifier total
    (fun position state => ∃ block place done flushed start,
      position = block * layout.blockSize + place ∧ place < layout.blockSize ∧
      place - done * layout.strideSize + (total - position) < 2 ^ 31 ∧
      Filling layout env stream block place done flushed start state)
    (Filled layout env stream) ?_ length _ _
    ⟨block, place, done, flushed, start, rfl, hplace, by omega, hfilling⟩ (by omega) (by omega)
  rintro position state ⟨block, place, done, flushed, start, rfl, hplace, hsmall, hfilling⟩ hlt
  obtain ⟨rest, rfl⟩ : ∃ rest, total = block * layout.blockSize + place + rest :=
    ⟨_, (Nat.add_sub_cancel' hlt.le).symm⟩
  have hblock : (block + 1) * layout.totalSize < 2 ^ 63 := by
    refine lt_of_le_of_lt (Nat.mul_le_mul_right _ (Nat.succ_le_succ ?_)) hend
    rw [Nat.le_div_iff_mul_le hpos]
    omega
  obtain ⟨count, striped, next, start', hcount, hle, hfull, hstripe, hcompute, hnext⟩ :=
    fillBlock_eq hrealises hrecoveryCount hfragments hblock hfilling hplace
      (show 0 < rest by omega) (by omega)
  have hencoded : place + count < ((place + count) / layout.strideSize + 1) *
      layout.strideSize := by
    rw [← Nat.div_lt_iff_lt_mul hstridePos]
    omega
  rw [← add_assoc] at hstripe hcompute
  refine ⟨count, striped, next, hcount, by omega, hstripe, hcompute,
    ⟨block, place + count, _, flushed, start', add_assoc _ _ _, hencoded, hnext⟩, ?_⟩
  -- the chunk block is full: all of it is written before the next one starts
  intro hmore
  have hblockEnd := hfull (by omega)
  rw [hblockEnd] at hnext hencoded
  have hstrides : layout.blockSize / layout.strideSize * layout.strideSize =
      layout.blockSize := by
    rw [Layout.blockSize_eq_strides, Nat.mul_div_cancel_left _ hstridePos, mul_comm]
  have hdrained := hnext.drained stripeIdentifier
  rw [hstrides, max_eq_right hnext.flushed_le] at hdrained
  have hsum : block * layout.blockSize + place + count = (block + 1) * layout.blockSize := by
    rw [add_assoc, hblockEnd, add_one_mul]
  refine ⟨⟨block + 1, by rw [hsum, mul_comm]⟩, ?_, _,
    hnext.writeAll_eq_drainedState hrealises haccepting 0 stripeIdentifier,
    block + 1, 0, 0, 0, _, hsum, hpos, by omega, hdrained.nextBlock hencoded⟩
  rw [hnext.recoveryEndPos, hstrides, add_assoc, hblockEnd]

include haccepting in
/-- Data goes to the chunk block that is being filled, or to the next one when
nothing of a full one is pending. -/
theorem Filled.fillBlocks_eq (stripeIdentifier : ℤ) {size : ℕ}
    (hfilled : Filled layout env stream length state)
    (hboundary : 0 < size → length % layout.blockSize = 0 → state.pendingCount = 0)
    (hsmall : state.offset - state.recoveryEndPos + size < 2 ^ 31)
    (hend : ((length + size) / layout.blockSize + 1) * layout.totalSize < 2 ^ 63) :
    ∃ next, fillBlocks env fragments stripeIdentifier size
        (slice stream length (length + size)) length state =
        some (((length + size : ℕ) : ℤ), next) ∧
      Filled layout env stream (length + size) next := by
  rcases Nat.eq_zero_or_pos size with rfl | hsize
  · refine ⟨state, ?_, hfilled⟩
    rw [slice_of_le stream (add_zero _).le, fillBlocks, if_pos rfl, add_zero]
  obtain ⟨block, place, done, flushed, start, rfl, hencoded, hfilling⟩ := hfilled
  have hpos := layout.strideSize_pos
  have hdone := hfilling.done_le
  rw [hfilling.offset, hfilling.recoveryEndPos] at hsmall
  rcases hfilling.place_le.eq_or_lt with rfl | hplace
  · have hpending := hboundary hsize (by rw [← Nat.succ_mul, Nat.mul_mod_left])
    have hflushed := hfilling.flushed_eq_of_pendingCount hpending
    rw [hflushed] at hfilling
    have hnextBlock := hfilling.nextBlock hencoded
    have hsum : block * layout.blockSize + layout.blockSize =
        (block + 1) * layout.blockSize + 0 := by
      rw [add_one_mul, add_zero]
    rw [hsum] at hend ⊢
    exact Striping.fillBlocks_eq hrealises hrecoveryCount haccepting hfragments stripeIdentifier
      hsize hnextBlock layout.blockSize_pos (by omega) hend
  · exact Striping.fillBlocks_eq hrealises hrecoveryCount haccepting hfragments stripeIdentifier
      hsize hfilling hplace (by omega) hend

include haccepting in
/-- A sequential write. -/
theorem Filled.process_eq {call : ProcessCall} (count : ℤ) (hcall : call.fragments = fragments)
    (hfilled : Filled layout env stream length state)
    (hinput : call.inBuffer = slice stream length (length + call.inBuffer.length))
    (hboundary : call.inBuffer ≠ [] → length % layout.blockSize = 0 → state.pendingCount = 0)
    (hsmall : state.offset - state.recoveryEndPos + call.inBuffer.length < 2 ^ 31)
    (hend : ((length + call.inBuffer.length) / layout.blockSize + 1) * layout.totalSize < 2 ^ 63) :
    ∃ next, process env call count length state =
        some ⟨0, wrap32 (count + 1), (length + call.inBuffer.length : ℕ), [], next⟩ ∧
      Filled layout env stream (length + call.inBuffer.length) next ∧
      (call.writeThreshold ≤ 1 → next.pendingCount = 0) := by
  have hoffset : state.offset = length := by
    obtain ⟨block, place, done, flushed, start, rfl, -, hfilling⟩ := hfilled
    exact hfilling.offset
  obtain ⟨filled, hfill, block, place, done, flushed, start, hlength, hencoded, hfilling⟩ :=
    hfilled.fillBlocks_eq hrealises hrecoveryCount haccepting hfragments
      (stripeIdentifierOf call.now count)
      (fun hsize => hboundary (List.ne_nil_of_length_pos hsize)) hsmall hend
  have hreposition : reposition env call (stripeIdentifierOf call.now count) length state =
      some (some state) := by
    rw [reposition, if_neg (by omega)]
  rw [← hinput] at hfill
  rw [process, if_neg (by omega)]
  simp only [hreposition, Option.bind_eq_bind, Option.bind_some, hcall, hfill]
  by_cases hfew : filled.offset - filled.recoveryEndPos < max 1 call.writeThreshold
  · obtain ⟨next, flushed', start', hflush, hnext, hpending⟩ :=
      flush_eq hrealises hrecoveryCount haccepting hfilling call.writeThreshold
        (stripeIdentifierOf call.now count)
    refine ⟨next, ?_, ⟨block, place, done, flushed', start', hlength, hencoded, hnext⟩,
      fun hthreshold => hpending ?_ hthreshold⟩
    · rw [if_pos hfew, hflush]
      rfl
    · have hdone := hfilling.done_le
      rw [hfilling.offset, hfilling.recoveryEndPos] at hfew
      omega
  · have hlow : done * layout.strideSize < place := by
      rw [hfilling.offset, hfilling.recoveryEndPos] at hfew
      omega
    have hblock : (block + 1) * layout.totalSize < 2 ^ 63 := by
      refine lt_of_le_of_lt (Nat.mul_le_mul_right _ (Nat.succ_le_succ ?_)) hend
      rw [Nat.le_div_iff_mul_le layout.blockSize_pos]
      omega
    obtain ⟨next, hflush, hpending, hnext⟩ :=
      flushPartial_eq hrealises hrecoveryCount haccepting hblock hfragments hfilling hlow hencoded
    refine ⟨next, ?_, ⟨block, place, done, place, _, hlength, hencoded, hnext⟩, fun _ => hpending⟩
    rw [if_neg hfew, if_neg (not_lt.mpr hfilling.fileSize), hflush]
    rfl

end Process

variable {length : ℕ}

/-- `Flush` between two calls. -/
theorem Filled.flush_eq (hrealises : env.Realises layout)
    (hrecoveryCount : 0 < layout.recoveryCount) (haccepting : env.Accepting)
    (hfilled : Filled layout env stream length state) (threshold stripeIdentifier : ℤ) :
    ∃ next, flush env threshold stripeIdentifier state = some next ∧
      Filled layout env stream length next := by
  obtain ⟨block, place, done, flushed, start, hlength, hencoded, hfilling⟩ := hfilled
  obtain ⟨next, flushed', start', hflush, hnext, -⟩ :=
    Striping.flush_eq hrealises hrecoveryCount haccepting hfilling threshold stripeIdentifier
  exact ⟨next, hflush, block, place, done, flushed', start', hlength, hencoded, hnext⟩

end QfsRepair.Striping
