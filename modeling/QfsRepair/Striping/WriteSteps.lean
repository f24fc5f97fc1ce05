import QfsRepair.Machine.Slices
import QfsRepair.Striping.Addressing
import QfsRepair.Striping.ChunkContents
import QfsRepair.Striping.WriteStriper

/-!
# The steps of the striping writer

Queued writes applied in their order, the writing of all buffers when every
write is accepted, and an invariant rule for the loop that deals out data to the
stripe buffers.
-/

namespace QfsRepair.Striping

open Function List Option
open Machine Layout

/-! ## Stored bytes -/

/-- The address lies in the range of the write. -/
def QueuedWrite.Covers (queuedWrite : QueuedWrite) (address : ℤ) : Prop :=
  queuedWrite.offset ≤ address ∧ address < queuedWrite.offset + queuedWrite.bytes.length

instance (queuedWrite : QueuedWrite) (address : ℤ) : Decidable (queuedWrite.Covers address) :=
  inferInstanceAs (Decidable (_ ∧ _))

def applyWrite (memory : ℤ → Option Byte) (queuedWrite : QueuedWrite) : ℤ → Option Byte :=
  fun address =>
    if queuedWrite.Covers address then
      queuedWrite.bytes[(address - queuedWrite.offset).toNat]?
    else memory address

/-- The chunk bytes after the queued writes, applied in the order in which they
are queued. -/
def stored (queued : List QueuedWrite) : ℤ → Option Byte :=
  queued.foldl applyWrite fun _ => none

theorem stored_append (queued writes : List QueuedWrite) :
    stored (queued ++ writes) = writes.foldl applyWrite (stored queued) := by
  rw [stored, stored, foldl_append]

/-- Writes that agree with the target where they write, and leave alone only
what the target does not change, lead to the target. -/
theorem foldl_applyWrite_eq {before after : ℤ → Option Byte} {writes : List QueuedWrite}
    (hagree : ∀ queuedWrite ∈ writes, ∀ place < queuedWrite.bytes.length,
      after (queuedWrite.offset + (place : ℕ)) = queuedWrite.bytes[place]?)
    (hother : ∀ address, (∀ queuedWrite ∈ writes, ¬ queuedWrite.Covers address) →
      before address = after address) :
    writes.foldl applyWrite before = after := by
  induction writes generalizing before with
  | nil => exact funext fun address => hother address (by simp)
  | cons queuedWrite writes ih =>
    apply ih fun next hnext => hagree next (by simp [hnext])
    intro address haddress
    rw [applyWrite]
    split_ifs with hcovers
    · obtain ⟨hlow, hhigh⟩ := hcovers
      have hplace := hagree queuedWrite (by simp) (address - queuedWrite.offset).toNat (by omega)
      rw [← hplace]
      congr 1
      omega
    · apply hother
      simpa using ⟨hcovers, haddress⟩

/-! ## Writing with every write accepted -/

/-- `QueueWrite` takes all bytes it is given. -/
def WriteEnvironment.Accepting (env : WriteEnvironment) : Prop :=
  ∀ queued offset len threshold, env.queueWrite queued offset len threshold = len

/-- The length to write is within the buffer. -/
def WriteBuffer.Ready (buffer : WriteBuffer) : Prop :=
  0 ≤ buffer.writeLen ∧ buffer.writeLen ≤ buffer.bytes.length

/-- The write of a chunk from `low` up to `high`, if that is not empty. -/
def rangeWrites (chunk : ℕ) (stream : ℕ → Byte) (low high : ℕ) (chunkIndex stripeIdentifier : ℤ) :
    List QueuedWrite :=
  if low < high then [⟨(chunk + low : ℕ), slice stream low high, chunkIndex, stripeIdentifier⟩]
  else []

section

variable {chunk low high : ℕ} {stream : ℕ → Byte} {chunkIndex stripeIdentifier : ℤ}

theorem mem_rangeWrites {queuedWrite : QueuedWrite} :
    queuedWrite ∈ rangeWrites chunk stream low high chunkIndex stripeIdentifier ↔ low < high ∧
      queuedWrite = ⟨(chunk + low : ℕ), slice stream low high, chunkIndex, stripeIdentifier⟩ := by
  rw [rangeWrites]
  split_ifs with hlt <;> simp [hlt]

theorem rangeWrites_self : rangeWrites chunk stream low low chunkIndex stripeIdentifier = [] :=
  if_neg (lt_irrefl low)

end

namespace WriteBuffer

/-- What is queued when the buffer is written. -/
def writes (buffer : WriteBuffer) (chunkIndex stripeIdentifier : ℤ) : List QueuedWrite :=
  if 0 < buffer.writeLen then
    [⟨buffer.endPos - buffer.bytes.length, buffer.bytes.take buffer.writeLen.toNat, chunkIndex,
      stripeIdentifier⟩]
  else []

/-- The buffer after it is written. -/
def drained (buffer : WriteBuffer) : WriteBuffer :=
  { buffer with bytes := buffer.bytes.drop buffer.writeLen.toNat, writeLen := 0 }

/-- A buffer that holds its chunk from `low` to `high`, with the part up to `top`
to be written. -/
theorem writes_eq_rangeWrites {buffer : WriteBuffer} {stream : ℕ → Byte} {chunk low top high : ℕ}
    (hbytes : buffer.bytes = slice stream low high) (hwriteLen : buffer.writeLen = top - low)
    (hend : low < high → buffer.endPos = (chunk + high : ℕ)) (hlow : low ≤ top) (htop : top ≤ high)
    (chunkIndex stripeIdentifier : ℤ) :
    buffer.writes chunkIndex stripeIdentifier =
      rangeWrites chunk stream low top chunkIndex stripeIdentifier := by
  rw [writes, rangeWrites, hwriteLen]
  by_cases hlt : low < top
  · have hcount : ((top : ℤ) - low).toNat = top - low := by omega
    rw [if_pos (by omega), if_pos hlt, hbytes, length_slice, hcount, take_slice,
      Nat.add_sub_cancel' hlow, min_eq_right htop]
    congr 2
    omega
  · rw [if_neg (by omega), if_neg hlt]

@[simp]
theorem bytes_drained (buffer : WriteBuffer) :
    buffer.drained.bytes = buffer.bytes.drop buffer.writeLen.toNat := rfl

end WriteBuffer

theorem isChunkWriterFailed_eq_false {state : RSWriteStriper} (hfailures : state.writeFailures = [])
    (offset : ℤ) : state.isChunkWriterFailed offset = false := by
  rw [RSWriteStriper.isChunkWriterFailed, hfailures, any_nil]

section Accepting

variable {env : WriteEnvironment} (haccepting : env.Accepting)
variable {state : RSWriteStriper} (hfailures : state.writeFailures = [])

include haccepting hfailures

theorem write_eq {buffer : WriteBuffer} (hready : buffer.Ready)
    (threshold chunkIndex stripeIdentifier : ℤ) :
    write env buffer threshold chunkIndex stripeIdentifier state =
      some (buffer.drained, { state with
        pendingCount := state.pendingCount - buffer.writeLen
        queued := state.queued ++ buffer.writes chunkIndex stripeIdentifier }) := by
  obtain ⟨hnonneg, hle⟩ := hready
  rw [write, if_neg (by omega)]
  simp only [isChunkWriterFailed_eq_false hfailures, Bool.false_eq_true, if_false,
    haccepting _ _ _ _, WriteBuffer.drained, WriteBuffer.writes]
  rw [if_neg (by omega)]
  by_cases hpos : 0 < buffer.writeLen
  · rw [if_neg (by omega), if_pos hpos, sub_self]
  · have hzero : buffer.writeLen = 0 := by omega
    obtain ⟨endPos, bytes, writeLen⟩ := buffer
    simp only at hzero
    simp [hzero]

omit haccepting in
/-- A loop over different stripes whose steps change the pending count, the queue
and the buffer of their own stripe. -/
theorem foldlM_stripes_eq {step : RSWriteStriper → ℕ → Option RSWriteStriper} {indices : List ℕ}
    (hnodup : indices.Nodup) (written : ℕ → ℤ) (after : ℕ → WriteBuffer)
    (writes : ℕ → List QueuedWrite)
    (hstep : ∀ index ∈ indices, ∀ current : RSWriteStriper, current.writeFailures = [] →
      current.buffers index = state.buffers index → step current index = some { current with
        pendingCount := current.pendingCount - written index
        buffers := update current.buffers index (after index)
        queued := current.queued ++ writes index }) :
    indices.foldlM step state = some { state with
      pendingCount := state.pendingCount - (indices.map written).sum
      buffers := fun index => if index ∈ indices then after index else state.buffers index
      queued := state.queued ++ indices.flatMap writes } := by
  induction indices generalizing state with
  | nil => simp
  | cons first indices ih =>
    obtain ⟨hnotMem, hnodup⟩ := nodup_cons.mp hnodup
    rw [foldlM_cons, hstep first mem_cons_self state hfailures rfl]
    simp only [bind_eq_bind, bind_some]
    rw [ih (by exact hfailures) hnodup]
    · simp only [map_cons, sum_cons, flatMap_cons, append_assoc, some.injEq,
        RSWriteStriper.mk.injEq, true_and, and_true]
      refine ⟨by ring, ?_⟩
      funext index
      by_cases heq : index = first
      · subst heq
        rw [if_neg hnotMem, update_self, if_pos mem_cons_self]
      · simp only [mem_cons, heq, false_or, update_of_ne heq]
    · intro index hindex current hnone hbuffer
      refine hstep index (mem_cons_of_mem _ hindex) current hnone (hbuffer.trans ?_)
      exact update_of_ne (ne_of_mem_of_not_mem hindex hnotMem) _ _

/-- All buffers are written at once. -/
theorem writeAll_eq (threshold stripeIdentifier : ℤ)
    (hready : ∀ index < env.striper.dataCount + env.striper.recoveryCount,
      (state.buffers index).Ready) :
    writeAll env threshold stripeIdentifier state =
      some { state with
        pendingCount := state.pendingCount -
          ((List.range (env.striper.dataCount + env.striper.recoveryCount)).map fun index =>
            (state.buffers index).writeLen).sum
        buffers := fun index =>
          if index < env.striper.dataCount + env.striper.recoveryCount then
            (state.buffers index).drained
          else state.buffers index
        queued := state.queued ++
          (List.range (env.striper.dataCount + env.striper.recoveryCount)).flatMap fun index =>
            (state.buffers index).writes index stripeIdentifier } := by
  refine (foldlM_stripes_eq hfailures nodup_range (fun index => (state.buffers index).writeLen)
    (fun index => (state.buffers index).drained)
    (fun index => (state.buffers index).writes index stripeIdentifier)
    fun index hindex current hnone hbuffer => ?_).trans (by simp)
  rw [writeBuffer, hbuffer, write_eq haccepting hnone (hready index (mem_range.mp hindex))]
  rfl

end Accepting

/-! ## Dealing out data -/

namespace Layout

variable {layout : Layout} {position amount : ℕ}

theorem lt_block_succ_mul (position : ℕ) :
    position < (layout.block position + 1) * layout.blockSize := by
  have hsplit := layout.block_mul_add position
  have hlt := layout.blockPosition_lt position
  rw [add_one_mul]
  omega

/-- Data that stays within a stripe stays in its chunk block or ends it. -/
theorem advance_block_cases (hamount : layout.offset position + amount ≤ layout.stripeSize) :
    layout.block (position + amount) = layout.block position ∨
      position + amount = (layout.block position + 1) * layout.blockSize := by
  rcases hamount.lt_or_eq with hwithin | hfull
  · exact .inl (advance_within hwithin).1
  · rcases Nat.lt_or_eq_of_le (layout.index_lt position) with hindex | hindex
    · exact .inl (advance_stripe hfull hindex).1
    · rcases Nat.lt_or_eq_of_le (layout.stride_lt position) with hstride | hstride
      · exact .inl (advance_stride hfull hindex hstride).1
      · obtain ⟨hblock, hstride', hindex', hoffset'⟩ := advance_block hfull hindex hstride
        have hsplit := layout.block_mul_add (position + amount)
        rw [hblock, blockPosition, hstride', hindex', hoffset'] at hsplit
        exact .inr (by simpa using hsplit.symm)

variable {block : ℕ}

/-- The positions up to the end of a chunk block have 64 bit addresses if the end
has one. -/
theorem addressable_of_le (hend : (block + 1) * layout.totalSize < 2 ^ 63)
    (hposition : position ≤ (block + 1) * layout.blockSize) : layout.Addressable position := by
  have htotal : layout.blockSize ≤ layout.totalSize := by
    rw [blockSize_eq]
    exact Nat.mul_le_mul_right _ (Nat.le_add_right _ _)
  have hpos := layout.blockSize_pos
  refine ⟨lt_of_le_of_lt (hposition.trans (Nat.mul_le_mul_left _ htotal)) hend, ?_⟩
  refine lt_of_le_of_lt ?_ hend
  rcases hposition.lt_or_eq with hlt | rfl
  · have hblock : layout.block position ≤ block := by
      rw [← div_blockSize]
      exact Nat.lt_succ_iff.mp ((Nat.div_lt_iff_lt_mul hpos).mpr hlt)
    have hchunk : (layout.index position + 1) * layout.chunkSize ≤ layout.totalSize :=
      Nat.mul_le_mul_right _ (layout.index_lt_total position)
    have hstep : (layout.block position + 1) * layout.totalSize ≤ (block + 1) * layout.totalSize :=
      Nat.mul_le_mul_right _ (Nat.succ_le_succ hblock)
    have hoffset := layout.chunkOffset_lt position
    rw [add_mul] at hchunk hstep
    rw [address]
    omega
  · have hblock : layout.block ((block + 1) * layout.blockSize) = block + 1 := by
      rw [← div_blockSize, Nat.mul_div_cancel _ hpos]
    have hzero : layout.blockPosition ((block + 1) * layout.blockSize) = 0 := by
      rw [← mod_blockSize, Nat.mul_mod_left]
    rw [blockPosition, Nat.add_eq_zero_iff, Nat.mul_eq_zero, Nat.add_eq_zero_iff,
      Nat.mul_eq_zero] at hzero
    have hsize := layout.stripeSize_pos
    have hcount := layout.stripeCount_pos
    rw [address, hblock]
    obtain ⟨⟨hstride | hcount', hindex⟩ | hsize', hoffset⟩ := hzero
    · rw [hstride, hindex, hoffset]
      simp
    · omega
    · omega

end Layout

/-- The striper of the environment is that of the layout, and its stride size is
exact where recovery stripes are computed. -/
structure WriteEnvironment.Realises (env : WriteEnvironment) (layout : Layout) : Prop where
  implements : layout.Implements env.striper
  recoveryStripeCount : env.striper.recoveryStripeCount = layout.recoveryCount
  strideSize : 0 < layout.recoveryCount → env.striper.strideSize = layout.strideSize
  strideSize_lt : 0 < layout.recoveryCount → layout.strideSize < 2 ^ 31
  blockSize_lt : layout.blockSize < 2 ^ 63
  aligned : kAlign ∣ layout.stripeSize

namespace WriteEnvironment.Realises

variable {env : WriteEnvironment} {layout : Layout} (hrealises : env.Realises layout)

include hrealises

theorem dataCount : env.striper.dataCount = layout.stripeCount := by
  rw [RSStriper.dataCount, hrealises.implements.stripeCount, Int.toNat_natCast]

theorem recoveryCount : env.striper.recoveryCount = layout.recoveryCount := by
  rw [RSStriper.recoveryCount, hrealises.recoveryStripeCount, Int.toNat_natCast]

theorem stripeRemaining_eq {state : RSWriteStriper} {position : ℕ}
    (hposition : state.position = layout.state position) :
    stripeRemaining env state = layout.stripeSize - layout.offset position := by
  rw [stripeRemaining, hposition, hrealises.implements.stripeSize]
  simp only [Layout.state]
  omega

end WriteEnvironment.Realises

/-- `Stripe` deals out data of the stream from a place of a chunk block on, up to
the end of the data or of the chunk block, into a state that `Reached` describes. -/
def StripesInto (env : WriteEnvironment) (layout : Layout) (stream : ℕ → Byte)
    (block place amount : ℕ) (state : RSWriteStriper)
    (Reached : ℕ → RSWriteStriper → Prop) : Prop :=
  ∃ count next, 0 < count ∧ count ≤ amount ∧ place + count ≤ layout.blockSize ∧
    (count < amount → place + count = layout.blockSize) ∧
    stripe env (slice stream (block * layout.blockSize + place)
        (block * layout.blockSize + place + amount))
      (block * layout.blockSize + place : ℕ) state =
      some (((block * layout.blockSize + (place + count) : ℕ) : ℤ),
        slice stream (block * layout.blockSize + (place + count))
          (block * layout.blockSize + place + amount), next) ∧
    Reached (block * layout.blockSize + (place + count)) next

variable {env : WriteEnvironment} {stream : ℕ → Byte} {Invariant : ℕ → RSWriteStriper → Prop}
  {layout : Layout}

variable (hrealises : env.Realises layout)

include hrealises

section

variable {block : ℕ} (hend : (block + 1) * layout.totalSize < 2 ^ 63)
variable (hposition : ∀ position state, Invariant position state →
  state.position = layout.state position)
variable (hround : ∀ position amount state, Invariant position state →
  layout.block position = block → 0 < amount →
  layout.offset position + amount ≤ layout.stripeSize →
  ∃ next, makeRoom env state = some next ∧ next.position = state.position ∧
    Invariant (position + amount)
      { moveData (slice stream position (position + amount)) next with
        position := layout.state (position + amount) })

include hend hposition hround

/-- An invariant of the rounds of `stripeLoop` holds when the data is dealt out
or the chunk block is full. -/
theorem stripeLoop_rule {rounds position length : ℕ} {state : RSWriteStriper}
    (hrounds : length ≤ rounds) (hlength : 0 < length)
    (hinvariant : Invariant position state) (hblock : layout.block position = block) :
    ∃ amount next, 0 < amount ∧ amount ≤ length ∧
      position + amount ≤ (block + 1) * layout.blockSize ∧
      (amount < length → position + amount = (block + 1) * layout.blockSize) ∧
      stripeLoop env rounds (slice stream position (position + length)) state =
        some (slice stream (position + amount) (position + length), next) ∧
      Invariant (position + amount) next := by
  induction rounds generalizing position length state with
  | zero => omega
  | succ rounds ih =>
    have hoffset := layout.offset_lt position
    obtain ⟨amount, hamount⟩ : ∃ amount, amount =
      min length (layout.stripeSize - layout.offset position) := ⟨_, rfl⟩
    have hwithin : layout.offset position + amount ≤ layout.stripeSize := by omega
    obtain ⟨next, hroom, hnext, hmoved⟩ :=
      hround position amount state hinvariant hblock (by omega) hwithin
    have hcases := advance_block_cases hwithin
    rw [hblock] at hcases
    have hbound : position + amount ≤ (block + 1) * layout.blockSize := by
      rcases hcases with hsame | hfull
      · have hlt := @lt_block_succ_mul layout (position + amount)
        rw [hsame] at hlt
        exact hlt.le
      · exact hfull.le
    have htake : (slice stream position (position + length)).take
        (layout.stripeSize - layout.offset position) =
          slice stream position (position + amount) := by
      rw [take_slice]
      congr 1
      omega
    have hseek := seekStripe_eq hrealises.implements hrealises.blockSize_lt
      (addressable_of_le hend hbound) hwithin
    rw [stripeLoop, hroom]
    simp only [bind_eq_bind, bind_some]
    rw [hrealises.stripeRemaining_eq (hnext.trans (hposition _ _ hinvariant)), htake]
    simp only [length_slice, Nat.add_sub_cancel_left, drop_slice, slice_eq_nil_iff]
    have hstate : (moveData (slice stream position (position + amount)) next).position =
        layout.state position := hnext.trans (hposition _ _ hinvariant)
    rw [hstate, hseek]
    simp only [bind_some, decide_eq_true_eq, hblock]
    by_cases hstop : layout.block (position + amount) ≠ block ∨
        position + length ≤ position + amount
    · rw [if_pos hstop]
      refine ⟨amount, _, by omega, by omega, hbound, fun hlt => ?_, rfl, hmoved⟩
      rcases hcases with hsame | hfull
      · exact absurd hstop (by simp only [hsame]; omega)
      · exact hfull
    · rw [if_neg hstop]
      push Not at hstop
      obtain ⟨more, final, hmore, hle, hbound', hfull', hloop, hfinal⟩ :=
        @ih (position + amount) (length - amount) _ (by omega) (by omega) hmoved hstop.1
      have hsum : position + amount + (length - amount) = position + length := by omega
      rw [hsum] at hloop
      refine ⟨amount + more, final, by omega, by omega, by omega, fun hlt => ?_, ?_, ?_⟩
      · omega
      · rw [hloop, add_assoc]
      · rwa [← add_assoc]

/-- The same rule for `Stripe`, from a place of a chunk block on. -/
theorem stripe_rule {place amount : ℕ} {state : RSWriteStriper}
    (hiterator : ∃ current, state.position = layout.state current)
    (hinvariant : Invariant (block * layout.blockSize + place)
      { state with position := layout.state (block * layout.blockSize + place) })
    (hplace : place < layout.blockSize) (hamount : 0 < amount) :
    StripesInto env layout stream block place amount state Invariant := by
  obtain ⟨current, hcurrent⟩ := hiterator
  have hblock : layout.block (block * layout.blockSize + place) = block := by
    rw [← div_blockSize, mul_comm, Nat.mul_add_div layout.blockSize_pos,
      Nat.div_eq_of_lt hplace, add_zero]
  have hbound : block * layout.blockSize + place ≤ (block + 1) * layout.blockSize := by
    rw [add_one_mul]
    omega
  have hset : env.striper.setPos state.position (block * layout.blockSize + place : ℕ) =
      some (layout.state (block * layout.blockSize + place)) := by
    apply setPos_eq hrealises.implements (addressable_of_le hend hbound)
    intro hpos
    rw [hcurrent] at hpos ⊢
    rw [Int.natCast_inj.mp hpos]
  obtain ⟨count, next, hcount, hle, hplace', hfull, hloop, hnext⟩ :=
    stripeLoop_rule hrealises hend hposition hround (le_refl amount) hamount hinvariant hblock
  rw [add_one_mul] at hplace' hfull
  have hnonempty : slice stream (block * layout.blockSize + place)
      (block * layout.blockSize + place + amount) ≠ [] := by
    rw [Ne, slice_eq_nil_iff]
    omega
  refine ⟨count, next, hcount, hle, by omega, fun hlt => by have := hfull hlt; omega, ?_, ?_⟩
  · rw [stripe, if_neg hnonempty, hset]
    simp only [bind_eq_bind, bind_some, length_slice, Nat.add_sub_cancel_left]
    rw [hloop]
    simp [bind_some, hposition _ _ hnext, Layout.state, add_assoc]
  · rwa [add_assoc] at hnext

end

/-- Invariant rule for the loop over the chunk blocks: `Start` holds where a round
begins, `Finish` where its recovery stripes are computed. -/
theorem fillBlocks_rule {fragments : ℤ → ℕ → List Byte → List (Fragment Byte)}
    {stripeIdentifier : ℤ} {total : ℕ} {Start Finish : ℕ → RSWriteStriper → Prop}
    (hround : ∀ length state, Start length state → length < total →
      ∃ count striped next, 0 < count ∧ length + count ≤ total ∧
        stripe env (slice stream length total) length state =
          some (((length + count : ℕ) : ℤ), slice stream (length + count) total, striped) ∧
        computeRecovery env (fragments (length + count : ℕ)) false
            { striped with
              offset := (length + count : ℕ)
              fileSize := max striped.fileSize (length + count : ℕ) } = some (0, next) ∧
        Finish (length + count) next ∧
        (length + count < total → layout.blockSize ∣ length + count ∧
          next.recoveryEndPos = (length + count : ℕ) ∧
          ∃ written, writeAll env 0 stripeIdentifier next = some written ∧
            Start (length + count) written)) {rounds length : ℕ} {state : RSWriteStriper}
    (hstart : Start length state) (hlength : length < total) (hrounds : total ≤ length + rounds) :
    ∃ next, fillBlocks env fragments stripeIdentifier rounds (slice stream length total) length
        state = some ((total : ℤ), next) ∧
      Finish total next := by
  induction rounds generalizing length state with
  | zero => omega
  | succ rounds ih =>
    obtain ⟨count, striped, next, hcount, hle, hstripe, hcompute, hfinish, hmore⟩ :=
      hround length state hstart hlength
    have hnonempty : slice stream length total ≠ [] := by
      rw [Ne, slice_eq_nil_iff]
      omega
    rw [fillBlocks, if_neg hnonempty, hstripe]
    simp only [bind_eq_bind, bind_some]
    rw [hcompute]
    simp only [bind_some, slice_eq_nil_iff]
    rcases hle.lt_or_eq with hlt | heq
    · obtain ⟨hdvd, hrecoveryEndPos, written, hwrite, hnext⟩ := hmore hlt
      have hmod : ((length + count : ℕ) : ℤ).tmod (CHUNKSIZE * env.striper.stripeCount) = 0 := by
        have hsize : CHUNKSIZE * env.striper.stripeCount = (layout.blockSize : ℤ) := by
          rw [hrealises.implements.stripeCount, hrealises.implements.chunkSize,
            blockSize_eq, Nat.cast_mul, mul_comm]
        rw [hsize, ← Int.ofNat_tmod, Nat.mod_eq_zero_of_dvd hdvd]
        rfl
      rw [if_neg (by omega), if_neg (by rw [hmod, hrecoveryEndPos]; simp), hwrite]
      exact ih hnext hlt (by omega)
    · rw [if_pos heq.ge, heq]
      exact ⟨next, rfl, heq ▸ hfinish⟩

end QfsRepair.Striping
