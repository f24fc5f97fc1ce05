import QfsRepair.Striping.WriteFilling
import Mathlib.Algebra.Order.BigOperators.Group.Finset

/-!
# A writer without recovery stripes

Without recovery stripes a buffer may still hold data of the chunk block before
the current one, and is written when the next data for its stripe arrives.  What
the buffers hold is described by file addresses therefore: every byte dealt out
is stored or lies in a buffer.
-/

namespace QfsRepair.Striping

open Function List
open Machine Option Layout

theorem address_add {layout : Layout} {position amount : ℕ}
    (hamount : layout.offset position + amount < layout.stripeSize) :
    layout.address (position + amount) = layout.address position + amount := by
  obtain ⟨hblock, hstride, hindex, hoffset⟩ := advance_within hamount
  rw [address, hblock, hstride, hindex, hoffset, ← add_assoc]
  rfl

namespace WriteBuffer

/-- The addresses of the buffered bytes. -/
def Covers (buffer : WriteBuffer) (address : ℤ) : Prop :=
  buffer.endPos - buffer.bytes.length ≤ address ∧ address < buffer.endPos

instance (buffer : WriteBuffer) (address : ℤ) : Decidable (buffer.Covers address) :=
  inferInstanceAs (Decidable (_ ∧ _))

/-- Every byte of the buffer is the byte of the stream that belongs to its
address. -/
def Denotes (layout : Layout) (stream : ℕ → Byte) (length : ℕ) (buffer : WriteBuffer) : Prop :=
  ∀ place < buffer.bytes.length, ∃ position < length,
    buffer.endPos - buffer.bytes.length + place = layout.address position ∧
      buffer.bytes[place]? = some (stream position)

/-- All bytes may be written. -/
def Complete (buffer : WriteBuffer) : Prop := buffer.writeLen = buffer.bytes.length

theorem Denotes.mono {layout : Layout} {stream : ℕ → Byte} {length length' : ℕ}
    {buffer : WriteBuffer} (hdenotes : buffer.Denotes layout stream length)
    (hle : length ≤ length') : buffer.Denotes layout stream length' := by
  intro place hplace
  obtain ⟨position, hposition, hbyte⟩ := hdenotes place hplace
  exact ⟨position, hposition.trans_le hle, hbyte⟩

section Complete

variable {buffer : WriteBuffer} (hcomplete : buffer.Complete)

include hcomplete

theorem Complete.ready : buffer.Ready := by
  rw [Ready, hcomplete]
  omega

theorem Complete.bytes_drained : buffer.drained.bytes = [] := by
  rw [WriteBuffer.bytes_drained, hcomplete, Int.toNat_natCast, drop_length]

theorem Complete.stored_writes (queued : List QueuedWrite) (chunkIndex stripeIdentifier : ℤ)
    (address : ℤ) :
    stored (queued ++ buffer.writes chunkIndex stripeIdentifier) address =
      if buffer.Covers address then
        buffer.bytes[(address - (buffer.endPos - buffer.bytes.length)).toNat]?
      else stored queued address := by
  rw [stored_append, writes, hcomplete]
  by_cases hpos : 0 < (buffer.bytes.length : ℤ)
  · rw [if_pos hpos]
    simp only [foldl_cons, foldl_nil, applyWrite, QueuedWrite.Covers,
      Int.toNat_natCast, take_length, sub_add_cancel]
    exact if_congr Iff.rfl rfl rfl
  · rw [if_neg hpos, foldl_nil, if_neg]
    rintro ⟨hlow, hhigh⟩
    omega

end Complete

theorem complete_of_nil {buffer : WriteBuffer} (hready : buffer.Ready)
    (hbytes : buffer.bytes = []) :
    buffer.Complete := by
  obtain ⟨hlow, hhigh⟩ := hready
  rw [Complete, hbytes]
  rw [hbytes] at hhigh
  exact le_antisymm hhigh hlow

theorem not_covers_of_nil {buffer : WriteBuffer} (hbytes : buffer.bytes = []) (address : ℤ) :
    ¬ buffer.Covers address := by
  rintro ⟨hlow, hhigh⟩
  rw [hbytes, length_nil] at hlow
  omega

end WriteBuffer

/-- The first `length` bytes of the stream are stored or buffered, and nothing
else is. -/
structure Buffered (layout : Layout) (stream : ℕ → Byte) (length : ℕ) (state : RSWriteStriper) :
    Prop where
  denotes : ∀ index < layout.stripeCount, (state.buffers index).Denotes layout stream length
  ready : ∀ index < layout.stripeCount, (state.buffers index).Ready
  held : ∀ position < length,
    stored state.queued (layout.address position) = some (stream position) ∨
    ∃ index < layout.stripeCount, (state.buffers index).Covers (layout.address position)
  sound : ∀ address byte, stored state.queued address = some byte →
    ∃ position < length, address = layout.address position ∧ byte = stream position
  pendingCount : state.pendingCount = bufferedBytes state.buffers (List.range layout.stripeCount)
  failures : state.writeFailures = []

variable {layout : Layout} {env : WriteEnvironment} {stream : ℕ → Byte}
variable {length index : ℕ} {state : RSWriteStriper}

theorem bufferedBytes_update (buffers : ℕ → WriteBuffer) {count : ℕ} (hindex : index < count)
    (buffer : WriteBuffer) :
    bufferedBytes (update buffers index buffer) (List.range count) =
      bufferedBytes buffers (List.range count) - (buffers index).bytes.length +
        buffer.bytes.length := by
  rw [bufferedBytes_range, bufferedBytes_range,
    ← Finset.add_sum_erase _ _ (mem_range.mpr hindex),
    ← Finset.add_sum_erase _ (fun index => ((buffers index).bytes.length : ℤ))
      (mem_range.mpr hindex), update_self]
  have hothers : ∀ other ∈ (Finset.range count).erase index,
      ((update buffers index buffer other).bytes.length : ℤ) =
        (buffers other).bytes.length := by
    intro other hother
    rw [update_of_ne (Finset.ne_of_mem_erase hother)]
  rw [Finset.sum_congr rfl hothers]
  omega

/-! ## Writing buffers -/

namespace Buffered

variable (hbuffered : Buffered layout stream length state)

include hbuffered

/-- A buffered byte is found at its address. -/
theorem getElem?_of_covers (hindex : index < layout.stripeCount) {position : ℕ}
    (hcovers : (state.buffers index).Covers (layout.address position)) :
    (state.buffers index).bytes[(layout.address position - ((state.buffers index).endPos -
      (state.buffers index).bytes.length) : ℤ).toNat]? = some (stream position) := by
  obtain ⟨hlow, hhigh⟩ := hcovers
  obtain ⟨other, -, haddress, hbyte⟩ := hbuffered.denotes index hindex
    (layout.address position - ((state.buffers index).endPos -
      (state.buffers index).bytes.length) : ℤ).toNat (by omega)
  have heq : other = position := layout.address_injective (by omega)
  rw [hbyte, heq]

/-- What is buffered does not depend on the iterator. -/
theorem setPosition (position : StripePosition) :
    Buffered layout stream length { state with position } :=
  { hbuffered with }

/-- Writing a complete buffer moves its bytes from the buffer to the file. -/
theorem writeBuffer_eq (haccepting : env.Accepting) (hindex : index < layout.stripeCount)
    (hcomplete : (state.buffers index).Complete) (threshold chunkIndex stripeIdentifier : ℤ) :
    ∃ next, writeBuffer env index threshold chunkIndex stripeIdentifier state = some next ∧
      Buffered layout stream length next ∧ (next.buffers index).bytes = [] ∧
      (∀ other, other ≠ index → next.buffers other = state.buffers other) ∧
      next = { state with
        pendingCount := next.pendingCount
        buffers := next.buffers
        queued := next.queued } := by
  have hbytes := hcomplete.bytes_drained
  have hstored := hcomplete.stored_writes state.queued chunkIndex stripeIdentifier
  refine ⟨{ state with
      pendingCount := state.pendingCount - (state.buffers index).writeLen
      buffers := update state.buffers index (state.buffers index).drained
      queued := state.queued ++ (state.buffers index).writes chunkIndex stripeIdentifier },
    ?_, ⟨(forall_update_iff state.buffers fun index buffer =>
        index < layout.stripeCount → buffer.Denotes layout stream length).mpr
        ⟨fun _ place hplace => ?_, fun other _ => hbuffered.denotes other⟩,
      (forall_update_iff state.buffers fun index buffer =>
        index < layout.stripeCount → buffer.Ready).mpr
        ⟨fun _ => ⟨le_rfl, by simp [WriteBuffer.drained]⟩, fun other _ => hbuffered.ready other⟩,
      ?_, ?_, ?_, hbuffered.failures⟩, ?_, fun other hne => update_of_ne hne _ _, rfl⟩
  · rw [writeBuffer, write_eq haccepting hbuffered.failures (hbuffered.ready index hindex)]
    rfl
  · rw [hbytes] at hplace
    exact absurd hplace (Nat.not_lt_zero _)
  · intro position hposition
    by_cases hcovers : (state.buffers index).Covers (layout.address position)
    · exact .inl ((hstored _).trans ((if_pos hcovers).trans
        (hbuffered.getElem?_of_covers hindex hcovers)))
    · rcases hbuffered.held position hposition with hheld | ⟨other, hother, hheld⟩
      · exact .inl ((hstored _).trans ((if_neg hcovers).trans hheld))
      · have hne : other ≠ index := fun heq => hcovers (heq ▸ hheld)
        refine .inr ⟨other, hother, ?_⟩
        simpa only [update_of_ne hne] using hheld
  · intro address byte hbyte
    rw [hstored] at hbyte
    by_cases hcovers : (state.buffers index).Covers address
    · rw [if_pos hcovers] at hbyte
      obtain ⟨hlow, hhigh⟩ := hcovers
      obtain ⟨position, hposition, haddress, hvalue⟩ := hbuffered.denotes index hindex
        (address - ((state.buffers index).endPos -
          (state.buffers index).bytes.length)).toNat (by omega)
      refine ⟨position, hposition, by omega, ?_⟩
      rw [hvalue] at hbyte
      exact (some.inj hbyte).symm
    · rw [if_neg hcovers] at hbyte
      exact hbuffered.sound address byte hbyte
  · simp only [bufferedBytes_update _ hindex, hbytes, hbuffered.pendingCount]
    rw [hcomplete, length_nil, Nat.cast_zero, add_zero]
  · simp only [update_self, hbytes]

end Buffered

/-! ## Dealing out data -/

/-- Inside `Stripe`: a buffer ends at the current end of its stripe, or all of it
may be written. -/
structure Dealing (layout : Layout) (stream : ℕ → Byte) (block position : ℕ)
    (state : RSWriteStriper) : Prop where
  buffered : Buffered layout stream position state
  block_le : block * layout.blockSize ≤ position
  iterator : state.position = layout.state position
  current : ∀ index < layout.stripeCount,
    (state.buffers index).endPos = (layout.chunkStart block index +
      layout.stripeLength (position - block * layout.blockSize) index : ℕ) ∨
    (state.buffers index).Complete

namespace Buffered

variable {position amount : ℕ}

/-- Data is appended to a buffer that is empty or ends at the current position. -/
theorem moveData_eq (hbuffered : Buffered layout stream position state)
    (hiterator : state.position = layout.state position)
    (hroom : (state.buffers (layout.index position)).bytes = [] ∨
      (state.buffers (layout.index position)).endPos = layout.address position)
    (hamount : layout.offset position + amount ≤ layout.stripeSize) :
    Buffered layout stream (position + amount)
      (moveData (slice stream position (position + amount)) state) := by
  have hindex := layout.index_lt position
  obtain ⟨buffer, hbuffer⟩ : ∃ buffer, buffer = state.buffers (layout.index position) := ⟨_, rfl⟩
  obtain ⟨moved, hmoved⟩ : ∃ moved : WriteBuffer, moved = { buffer with
        bytes := buffer.bytes ++ slice stream position (position + amount)
        endPos := layout.address position + amount } := ⟨_, rfl⟩
  have hlength : moved.bytes.length = buffer.bytes.length + amount := by
    rw [hmoved, length_append, length_slice, Nat.add_sub_cancel_left]
  have hendPos : moved.endPos = layout.address position + amount := by rw [hmoved]
  have hstate : moveData (slice stream position (position + amount)) state =
      { state with
        pendingCount := state.pendingCount + amount
        buffers := update state.buffers (layout.index position) moved } := by
    simp [moveData, hiterator, toNat_stripeIdx_state, filePos_state, hmoved,
      hbuffer, length_slice]
  rw [← hbuffer] at hroom
  have hdenotes := hbuffered.denotes _ hindex
  have hready := hbuffered.ready _ hindex
  rw [← hbuffer] at hdenotes hready
  rw [hstate]
  refine ⟨(forall_update_iff state.buffers fun index buffer =>
      index < layout.stripeCount → buffer.Denotes layout stream (position + amount)).mpr
      ⟨fun _ place hplace => ?_, fun index _ hindex' =>
        (hbuffered.denotes index hindex').mono (by omega)⟩,
    (forall_update_iff state.buffers fun index buffer =>
      index < layout.stripeCount → buffer.Ready).mpr
      ⟨fun _ => ?_, fun index _ => hbuffered.ready index⟩, ?_, ?_, ?_, hbuffered.failures⟩
  · rcases Nat.lt_or_ge place buffer.bytes.length with hlt | hge
    · obtain ⟨other, hother, haddress, hbyte⟩ := hdenotes place hlt
      have hend : buffer.endPos = layout.address position := by
        refine hroom.resolve_left fun hnil => ?_
        rw [hnil] at hlt
        exact absurd hlt (Nat.not_lt_zero _)
      refine ⟨other, by omega, by omega, ?_⟩
      rw [hmoved, getElem?_append_left hlt, hbyte]
    · obtain ⟨rest, rfl⟩ := Nat.exists_eq_add_of_le hge
      refine ⟨position + rest, by omega, ?_, ?_⟩
      · rw [hlength, hendPos, address_add (by omega)]
        push_cast
        ring
      · rw [hmoved, getElem?_append_right hge, Nat.add_sub_cancel_left,
          getElem?_slice stream (by omega)]
  · obtain ⟨hlow, hhigh⟩ := hready
    have hwriteLen : moved.writeLen = buffer.writeLen := by rw [hmoved]
    rw [WriteBuffer.Ready]
    omega
  · intro other hother
    rcases Nat.lt_or_ge other position with hlt | hge
    · rcases hbuffered.held other hlt with hheld | ⟨index, hindex', hlow, hhigh⟩
      · exact .inl hheld
      · refine .inr ⟨index, hindex', ?_⟩
        by_cases heq : index = layout.index position
        · subst heq
          simp only [update_self]
          rw [← hbuffer] at hlow hhigh
          have hend : buffer.endPos = layout.address position := by
            refine hroom.resolve_left fun hnil => ?_
            rw [hnil, length_nil] at hlow
            omega
          rw [WriteBuffer.Covers]
          omega
        · simp only [update_of_ne heq]
          exact ⟨hlow, hhigh⟩
    · obtain ⟨rest, rfl⟩ := Nat.exists_eq_add_of_le hge
      refine .inr ⟨_, hindex, ?_⟩
      simp only [update_self]
      rw [WriteBuffer.Covers, address_add (by omega)]
      omega
  · intro address byte hbyte
    obtain ⟨other, hother, hrest⟩ := hbuffered.sound address byte hbyte
    exact ⟨other, by omega, hrest⟩
  · simp only [bufferedBytes_update _ hindex, hlength, ← hbuffer, hbuffered.pendingCount]
    omega

end Buffered

namespace Dealing

variable {block position amount : ℕ}

/-- A buffer with data of another chunk block is written first. -/
theorem makeRoom_eq (hrealises : env.Realises layout) (hrecoveryCount : layout.recoveryCount = 0)
    (haccepting : env.Accepting) (hdealing : Dealing layout stream block position state)
    (hblock : layout.block position = block) :
    ∃ next, makeRoom env state = some next ∧ Dealing layout stream block position next ∧
      ((next.buffers (layout.index position)).bytes = [] ∨
        (next.buffers (layout.index position)).endPos = layout.address position) := by
  have hindex := layout.index_lt position
  rw [makeRoom, hdealing.iterator, toNat_stripeIdx_state, filePos_state]
  by_cases hwrite : (state.buffers (layout.index position)).endPos ≠ layout.address position ∧
      (state.buffers (layout.index position)).bytes ≠ []
  · have hcomplete : (state.buffers (layout.index position)).Complete := by
      refine (hdealing.current _ hindex).resolve_left fun hcurrent => hwrite.1 ?_
      rw [hcurrent, sub_block hblock, layout.stripeLength_blockPosition, address_eq_chunkStart,
        hblock]
    obtain ⟨next, hnext, hbuffered, hbytes, hother, hframe⟩ :=
      hdealing.buffered.writeBuffer_eq haccepting hindex hcomplete 0 (-1) (-1)
    have hnoRecovery : ¬ 0 < env.striper.recoveryStripeCount := by
      rw [hrealises.recoveryStripeCount, hrecoveryCount]
      decide
    refine ⟨next, ?_, ⟨hbuffered, hdealing.block_le, ?_, ?_⟩, .inl hbytes⟩
    · rw [if_pos hwrite, if_neg hnoRecovery, hnext]
    · rw [hframe]
      exact hdealing.iterator
    · intro index hindex'
      by_cases heq : index = layout.index position
      · subst heq
        exact .inr (WriteBuffer.complete_of_nil (hbuffered.ready _ hindex) hbytes)
      · rw [hother index heq]
        exact hdealing.current index hindex'
  · refine ⟨state, if_neg hwrite, hdealing, ?_⟩
    tauto

/-- One round of the loop of `Stripe`. -/
theorem round (hrealises : env.Realises layout) (hrecoveryCount : layout.recoveryCount = 0)
    (haccepting : env.Accepting) (hdealing : Dealing layout stream block position state)
    (hblock : layout.block position = block)
    (hamount : layout.offset position + amount ≤ layout.stripeSize) :
    ∃ next, makeRoom env state = some next ∧ next.position = state.position ∧
      Dealing layout stream block (position + amount)
        { moveData (slice stream position (position + amount)) next with
          position := layout.state (position + amount) } := by
  obtain ⟨next, hroom, hnext, hspace⟩ :=
    hdealing.makeRoom_eq hrealises hrecoveryCount haccepting hblock
  have hle := hdealing.block_le
  have hmoved := hnext.buffered.moveData_eq hnext.iterator hspace hamount
  have hplace := sub_block hblock
  have hoffset : layout.offset (layout.blockPosition position) = layout.offset position :=
    layout.blockPosition_mod_stripeSize position
  have hplace' : layout.index (layout.blockPosition position) = layout.index position :=
    layout.blockPosition_index position
  refine ⟨next, hroom, hnext.iterator.trans hdealing.iterator.symm,
    ⟨hmoved.setPosition _, by omega, rfl, ?_⟩⟩
  intro index hindex'
  have hsum : position + amount - block * layout.blockSize =
      layout.blockPosition position + amount := by omega
  rw [hsum, stripeLength_add hindex' (by rwa [hoffset]), hplace']
  simp only [moveData, hnext.iterator, toNat_stripeIdx_state, filePos_state]
  by_cases heq : index = layout.index position
  · subst heq
    left
    rw [update_self, if_pos rfl, layout.stripeLength_blockPosition,
      address_eq_chunkStart, hblock, length_slice, Nat.add_sub_cancel_left]
    push_cast
    ring
  · have hcurrent := hnext.current index hindex'
    rw [hplace] at hcurrent
    rw [update_of_ne heq, if_neg heq]
    exact hcurrent

end Dealing

/-! ## Calls -/

/-- `ComputeRecovery` without recovery stripes: all data may be written. -/
def completedState (env : WriteEnvironment) (state : RSWriteStriper) : RSWriteStriper :=
  { state with
    buffers := fun index =>
      if index < env.striper.dataCount then
        { state.buffers index with writeLen := (state.buffers index).bytes.length }
      else state.buffers index
    recoveryEndPos := state.offset }

section Completed

variable (hrealises : env.Realises layout) (state : RSWriteStriper)

include hrealises

theorem computeRecovery_eq_completedState (hrecoveryCount : layout.recoveryCount = 0)
    (fragments : ℕ → List Byte → List (Fragment Byte)) (padded : Bool) :
    computeRecovery env fragments padded state = some (0, completedState env state) := by
  have hnoRecovery : env.striper.recoveryStripeCount ≤ 0 := by
    rw [hrealises.recoveryStripeCount, hrecoveryCount]
    decide
  rw [computeRecovery, if_pos hnoRecovery]
  rfl

theorem buffers_completedState (hindex : index < layout.stripeCount) :
    (completedState env state).buffers index =
      { state.buffers index with writeLen := (state.buffers index).bytes.length } := by
  rw [completedState]
  simp only
  rw [hrealises.dataCount, if_pos hindex]

theorem complete_completedState (hindex : index < layout.stripeCount) :
    ((completedState env state).buffers index).Complete := by
  rw [buffers_completedState hrealises state hindex]
  rfl

theorem bufferedBytes_completedState :
    bufferedBytes (completedState env state).buffers (List.range layout.stripeCount) =
      bufferedBytes state.buffers (List.range layout.stripeCount) := by
  rw [bufferedBytes_range]
  refine Finset.sum_congr rfl fun index hindex => ?_
  rw [buffers_completedState hrealises state (mem_range.mp hindex)]

end Completed

/-- Between two calls all buffered bytes may be written. -/
structure Uncoded (layout : Layout) (stream : ℕ → Byte) (length : ℕ) (state : RSWriteStriper) :
    Prop where
  buffered : Buffered layout stream length state
  complete : ∀ index < layout.stripeCount, (state.buffers index).Complete
  offset : state.offset = length
  recoveryEndPos : state.recoveryEndPos = length
  iterator : ∃ current, state.position = layout.state current

namespace Uncoded

variable (hrealises : env.Realises layout) (hrecoveryCount : layout.recoveryCount = 0)
variable (haccepting : env.Accepting)

include hrealises hrecoveryCount haccepting

variable (huncoded : Uncoded layout stream length state)

include huncoded

omit hrealises hrecoveryCount in
/-- Writing several buffers one after the other. -/
theorem foldlM_writeBuffer_eq (threshold stripeIdentifier : ℤ) {indices : List ℕ}
    (hindices : ∀ index ∈ indices, index < layout.stripeCount) :
    ∃ next, indices.foldlM
        (fun state (index : ℕ) => writeBuffer env index threshold index stripeIdentifier state)
        state = some next ∧
      Uncoded layout stream length next ∧
      ∀ index, index ∈ indices ∨ (state.buffers index).bytes = [] →
        (next.buffers index).bytes = [] := by
  induction indices generalizing state with
  | nil => exact ⟨state, rfl, huncoded, by simp⟩
  | cons first indices ih =>
    obtain ⟨hfirst, hindices⟩ := forall_mem_cons.mp hindices
    obtain ⟨middle, hwrite, hmiddle, hbytes, hother, hframe⟩ :=
      huncoded.buffered.writeBuffer_eq haccepting hfirst (huncoded.complete first hfirst) threshold
        first stripeIdentifier
    have hcomplete : ∀ index < layout.stripeCount, (middle.buffers index).Complete := by
      intro index hindex
      by_cases heq : index = first
      · subst heq
        exact WriteBuffer.complete_of_nil (hmiddle.ready index hindex) hbytes
      · rw [hother index heq]
        exact huncoded.complete index hindex
    obtain ⟨next, hfold, hnext, hempty⟩ := ih ⟨hmiddle, hcomplete,
      by rw [hframe]; exact huncoded.offset, by rw [hframe]; exact huncoded.recoveryEndPos,
      by rw [hframe]; exact huncoded.iterator⟩ hindices
    refine ⟨next, ?_, hnext, fun index hindex => hempty index ?_⟩
    · rw [foldlM_cons, hwrite]
      exact hfold
    · by_cases heq : index = first
      · subst heq
        exact .inr hbytes
      · rw [hother index heq]
        simpa [heq] using hindex

theorem writeAll_eq (threshold stripeIdentifier : ℤ) :
    ∃ next, writeAll env threshold stripeIdentifier state = some next ∧
      Uncoded layout stream length next ∧ next.pendingCount = 0 := by
  obtain ⟨next, hwrite, hnext, hempty⟩ := huncoded.foldlM_writeBuffer_eq haccepting threshold
    stripeIdentifier fun _ => (@mem_range _ layout.stripeCount).mp
  refine ⟨next, ?_, hnext, ?_⟩
  · rw [writeAll, hrealises.dataCount, hrealises.recoveryCount, hrecoveryCount, add_zero, hwrite]
  · rw [hnext.buffered.pendingCount, bufferedBytes_range]
    refine Finset.sum_eq_zero fun index hindex => ?_
    rw [hempty index (.inl (mem_range.mpr (mem_range.mp hindex)))]
    rfl

/-- One chunk block: the new data becomes complete. -/
theorem fillBlock_eq (fragments : ℤ → ℕ → List Byte → List (Fragment Byte)) {size : ℕ}
    (hend : (length / layout.blockSize + 1) * layout.totalSize < 2 ^ 63) (hsize : 0 < size) :
    ∃ count striped next, 0 < count ∧ count ≤ size ∧
      (count < size → layout.blockSize ∣ length + count) ∧
      stripe env (slice stream length (length + size)) length state =
        some (((length + count : ℕ) : ℤ), slice stream (length + count) (length + size),
          striped) ∧
      computeRecovery env (fragments (length + count : ℕ)) false
          { striped with
            offset := (length + count : ℕ)
            fileSize := max striped.fileSize (length + count : ℕ) } = some (0, next) ∧
      Uncoded layout stream (length + count) next := by
  have hsplit := Nat.div_add_mod' length layout.blockSize
  have hstart : Dealing layout stream (length / layout.blockSize) length
      { state with position := layout.state length } :=
    ⟨huncoded.buffered.setPosition _, Nat.div_mul_le_self _ _, rfl,
      fun index hindex => .inr (huncoded.complete index hindex)⟩
  obtain ⟨count, striped, hcount, hle, -, hfull, hstripe, hdealing⟩ :=
    @stripe_rule env stream (Dealing layout stream (length / layout.blockSize)) layout hrealises _
      hend
      (fun _ _ hdealing => hdealing.iterator)
      (fun position amount state hdealing hblock _ hamount =>
        hdealing.round hrealises hrecoveryCount haccepting hblock hamount)
      _ _ _ huncoded.iterator (by rwa [hsplit]) (Nat.mod_lt length layout.blockSize_pos) hsize
  rw [← add_assoc, hsplit] at hstripe hdealing
  have hblockEnd : count < size → layout.blockSize ∣ length + count := by
    intro hlt
    refine ⟨length / layout.blockSize + 1, ?_⟩
    rw [mul_add, mul_comm]
    omega
  refine ⟨count, striped, _, hcount, hle, hblockEnd, hstripe,
    computeRecovery_eq_completedState hrealises _ hrecoveryCount _ _, ?_⟩
  have hbuffered := hdealing.buffered
  refine ⟨⟨?_, ?_, ?_, hbuffered.sound, ?_, hbuffered.failures⟩,
    fun index hindex => complete_completedState hrealises _ hindex, rfl, rfl,
    ⟨_, hdealing.iterator⟩⟩
  · intro index hindex
    rw [buffers_completedState hrealises _ hindex]
    exact hbuffered.denotes index hindex
  · intro index hindex
    exact (complete_completedState hrealises _ hindex).ready
  · intro position hposition
    refine (hbuffered.held position hposition).imp_right fun hheld => ?_
    obtain ⟨index, hindex, hcovers⟩ := hheld
    refine ⟨index, hindex, ?_⟩
    rw [buffers_completedState hrealises _ hindex]
    exact hcovers
  · rw [bufferedBytes_completedState hrealises]
    exact hbuffered.pendingCount

/-- The loop over the chunk blocks. -/
theorem fillBlocks_eq (fragments : ℤ → ℕ → List Byte → List (Fragment Byte)) (stripeIdentifier : ℤ)
    {size : ℕ} (hend : ((length + size) / layout.blockSize + 1) * layout.totalSize < 2 ^ 63) :
    ∃ next, fillBlocks env fragments stripeIdentifier size
        (slice stream length (length + size)) length state =
        some (((length + size : ℕ) : ℤ), next) ∧
      Uncoded layout stream (length + size) next := by
  rcases Nat.eq_zero_or_pos size with rfl | hsize
  · refine ⟨state, ?_, huncoded⟩
    rw [slice_of_le stream (add_zero _).le, fillBlocks, if_pos rfl, add_zero]
  refine @fillBlocks_rule env stream layout hrealises fragments stripeIdentifier (length + size)
    (Uncoded layout stream) (Uncoded layout stream) ?_ size _ _ huncoded (by omega) le_rfl
  intro position state huncoded hlt
  obtain ⟨rest, hrest⟩ : ∃ rest, length + size = position + rest :=
    ⟨_, (Nat.add_sub_cancel' hlt.le).symm⟩
  have hblock : (position / layout.blockSize + 1) * layout.totalSize < 2 ^ 63 :=
    lt_of_le_of_lt (Nat.mul_le_mul_right _ (Nat.succ_le_succ (Nat.div_le_div_right hlt.le))) hend
  rw [hrest] at hlt ⊢
  obtain ⟨count, striped, next, hcount, hle, hfull, hstripe, hcompute, hnext⟩ :=
    huncoded.fillBlock_eq hrealises hrecoveryCount haccepting fragments hblock
      (show 0 < rest by omega)
  obtain ⟨written, hwrite, hwritten, -⟩ :=
    hnext.writeAll_eq hrealises hrecoveryCount haccepting 0 stripeIdentifier
  exact ⟨count, striped, next, hcount, by omega, hstripe, hcompute, hnext,
    fun hmore => ⟨hfull (by omega), hnext.recoveryEndPos, written, hwrite, hwritten⟩⟩

/-- `Flush`: everything is written, or too little is pending. -/
theorem flush_eq (threshold stripeIdentifier : ℤ) :
    ∃ next, flush env threshold stripeIdentifier state = some next ∧
      Uncoded layout stream length next ∧ (threshold ≤ 1 → next.pendingCount = 0) := by
  have hcount : 0 ≤ state.pendingCount := by
    rw [huncoded.buffered.pendingCount, bufferedBytes_range]
    exact Finset.sum_nonneg fun _ _ => Int.natCast_nonneg _
  have hlimit : max 1 (max (wrap32 (state.offset - state.recoveryEndPos)) threshold) =
      max 1 threshold := by
    rw [huncoded.offset, huncoded.recoveryEndPos, sub_self]
    have : wrap32 0 = 0 := rfl
    omega
  rw [flush, hlimit, flushLoop]
  by_cases hfew : state.pendingCount < max 1 threshold
  · exact ⟨state, if_pos hfew, huncoded, fun hthreshold => by omega⟩
  · obtain ⟨next, hwrite, hnext, hpending⟩ :=
      huncoded.writeAll_eq hrealises hrecoveryCount haccepting (max 0 threshold) stripeIdentifier
    refine ⟨next, ?_, hnext, fun _ => hpending⟩
    rw [if_neg hfew, hwrite]
    simp only [bind_eq_bind, bind_some]
    rw [if_pos (by omega)]

/-- A sequential write. -/
theorem process_eq {call : ProcessCall} (count : ℤ)
    (hinput : call.inBuffer = slice stream length (length + call.inBuffer.length))
    (hend : ((length + call.inBuffer.length) / layout.blockSize + 1) * layout.totalSize < 2 ^ 63) :
    ∃ next, process env call count length state =
        some ⟨0, wrap32 (count + 1), (length + call.inBuffer.length : ℕ), [], next⟩ ∧
      Uncoded layout stream (length + call.inBuffer.length) next ∧
      (call.writeThreshold ≤ 1 → next.pendingCount = 0) := by
  obtain ⟨filled, hfill, hfilled⟩ := huncoded.fillBlocks_eq hrealises hrecoveryCount haccepting
    call.fragments (stripeIdentifierOf call.now count) hend
  obtain ⟨next, hflush, hnext, hpending⟩ := hfilled.flush_eq hrealises hrecoveryCount haccepting
    call.writeThreshold (stripeIdentifierOf call.now count)
  have hreposition : reposition env call (stripeIdentifierOf call.now count) length state =
      some (some state) := by
    rw [reposition]
    rw [hrealises.recoveryStripeCount, hrecoveryCount]
    simp
  rw [← hinput] at hfill
  refine ⟨next, ?_, hnext, hpending⟩
  rw [process, if_neg (by omega)]
  simp only [hreposition, bind_eq_bind, bind_some, hfill]
  rw [if_pos (by rw [hfilled.offset, hfilled.recoveryEndPos]; omega), hflush]
  rfl

end Uncoded

end QfsRepair.Striping
