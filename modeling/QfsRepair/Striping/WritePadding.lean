import QfsRepair.Striping.WriteFlush

/-!
# Padding a stride

A flush within a stride fills the stride with zeros and encodes it.  The
invariant holds meanwhile for the stream cut off at the end of the data.
-/

namespace QfsRepair.Striping

open Machine Option

variable {layout : Layout} {env : WriteEnvironment} {stream : ℕ → Byte}
variable {block place done flushed length : ℕ} {start : ℕ → ℕ} {state : RSWriteStriper}
  {stream' : ℕ → Byte}

/-- Streams that agree up to a length have the same contents stored. -/
theorem storedContents_congr {encode : (ℕ → Byte) → ℕ → Byte}
    (hagree : ∀ position < length, stream position = stream' position) :
    layout.storedContents encode stream length = layout.storedContents encode stream' length := by
  have htruncate : truncate stream length = truncate stream' length := by
    funext position
    rw [truncate, truncate]
    split_ifs with hlt
    · exact hagree position hlt
    · rfl
  have hchunk : ∀ block index chunkOffset,
      layout.chunkContents encode stream length block index chunkOffset =
        layout.chunkContents encode stream' length block index chunkOffset := by
    intro block index chunkOffset
    rw [Layout.chunkContents, Layout.chunkContents, htruncate]
    split_ifs with hindex hlt
    · rw [hagree _ hlt]
    all_goals rfl
  funext address
  simp [Layout.storedContents, hchunk]

/-- The invariant depends on the data that is dealt out only. -/
theorem Filling.congr_stream
    (hfilling : Filling layout env stream block place done flushed start state)
    (hagree : ∀ position < block * layout.blockSize + place, stream position = stream' position) :
    Filling layout env stream' block place done flushed start state := by
  have hflushed := hfilling.flushed_le
  refine
    { hfilling with
      data := ⟨hfilling.data.start_le, fun index hindex => ?_, hfilling.data.endPos⟩
      recovery := ⟨hfilling.recovery.low_le, fun index hindex => ?_, hfilling.recovery.endPos,
        hfilling.recovery.writeLen⟩
      stored := ?_ }
  · rw [hfilling.data.bytes index hindex]
    apply slice_congr
    intro chunkOffset _ hlt
    exact hagree _ ((Layout.positionAt_lt_iff hindex block place chunkOffset).mpr hlt)
  · rw [hfilling.recovery.bytes index hindex]
    apply slice_congr
    intro chunkOffset _ hlt
    rw [recoveryStream]
    congr 1
    apply Layout.column_congr
    intro index hindex
    apply hagree
    rw [Layout.positionAt_lt_iff hindex]
    exact hlt.trans_le (hfilling.done_le_stripeLength hindex)
  · rw [hfilling.stored]
    exact storedContents_congr fun position hlt => hagree position (by omega)

/-- Behind the data the cut off stream is zero. -/
theorem slice_truncate {low : ℕ} (hlow : length ≤ low) (count : ℕ) :
    slice (truncate stream length) low (low + count) = List.replicate count 0 := by
  rw [List.eq_replicate_iff]
  refine ⟨by rw [length_slice, Nat.add_sub_cancel_left], fun byte hmem => ?_⟩
  rw [slice, List.mem_map] at hmem
  obtain ⟨position, hposition, rfl⟩ := hmem
  rw [List.mem_range'_1] at hposition
  rw [truncate, if_neg (by omega)]

section Padding

variable (hrealises : env.Realises layout) (hend : (block + 1) * layout.totalSize < 2 ^ 63)

include hrealises hend

/-- Dealing out data that stays in the chunk block. -/
theorem stripe_within {stream : ℕ → Byte}
    (hfilling : Filling layout env stream block place done flushed start state) {amount : ℕ}
    (hplace : place < layout.blockSize) (hamount : 0 < amount)
    (hfits : place + amount ≤ layout.blockSize) :
    ∃ next, stripe env (slice stream (block * layout.blockSize + place)
          (block * layout.blockSize + place + amount)) state.offset state =
        some (((block * layout.blockSize + (place + amount) : ℕ) : ℤ), [], next) ∧
      next.fileSize = state.fileSize ∧
      ∀ fileSize ≤ ((block * layout.blockSize + (place + amount) : ℕ) : ℤ),
        Filling layout env stream block (place + amount) done flushed start
          { next with
            offset := (block * layout.blockSize + (place + amount) : ℕ)
            fileSize := fileSize } := by
  obtain ⟨count, next, hpos, hle, hbound, hfull, hstripe, hdealt⟩ :=
    stripe_eq hrealises hend hfilling.iterator hfilling.data hplace hamount
  have hcount : count = amount := by
    omega
  subst hcount
  have hempty : slice stream (block * layout.blockSize + (place + count))
      (block * layout.blockSize + place + count) = [] := slice_of_le _ (by omega)
  rw [hempty] at hstripe
  rw [hfilling.offset]
  exact ⟨next, hstripe, by rw [hdealt.frame],
    fun fileSize hfileSize => hfilling.deal hbound hdealt hfileSize⟩

/-- The padding loop fills the stride with zeros. -/
theorem padLoop_eq {bufSize : ℕ} (hbufSize : 0 < bufSize) (rounds : ℕ) {rem align : ℕ}
    (hrounds : rem + min 1 align ≤ rounds) {place : ℕ} {state : RSWriteStriper}
    (hfilling : Filling layout env (truncate stream length) block place done flushed start state)
    (hlength : length ≤ block * layout.blockSize + place) (hfits : place + rem ≤ layout.blockSize) :
    ∃ next, padLoop env bufSize rounds rem align [] state = some next ∧
      next.fileSize = state.fileSize ∧
      Filling layout env (truncate stream length) block (place + rem) done flushed start next := by
  induction rounds generalizing rem align place state with
  | zero =>
    obtain rfl : rem = 0 := by omega
    exact ⟨state, by rw [padLoop, if_neg (by omega)], rfl, hfilling⟩
  | succ rounds ih =>
    rcases Nat.eq_zero_or_pos rem with rfl | hrem
    · exact ⟨state, by rw [padLoop, if_neg (by omega)], rfl, hfilling⟩
    obtain ⟨amount, hamount⟩ : ∃ amount, amount = min rem (bufSize - align) := ⟨_, rfl⟩
    have hpiece : (([] ++ List.replicate bufSize (0 : Byte)).drop align).take (rem : ℤ).toNat =
        List.replicate amount 0 := by
      rw [List.nil_append, List.drop_replicate, List.take_replicate, Int.toNat_natCast, hamount]
    rw [padLoop, if_pos (by omega), hpiece]
    rcases Nat.eq_zero_or_pos amount with hzero | hpos
    · -- the first piece is used up by the alignment
      have hnext := @ih rem 0 (by omega) place { state with offset := state.offset } hfilling
        hlength hfits
      simp only [hzero, List.replicate_zero, stripe, if_true, bind_eq_bind,
        bind_some, List.length_nil, Nat.cast_zero, sub_zero]
      exact hnext
    · obtain ⟨next, hstripe, hsize, hdealt⟩ := stripe_within hrealises hend hfilling
        (show place < layout.blockSize by omega) hpos (by omega)
      rw [slice_truncate hlength] at hstripe
      have hfileSize : next.fileSize ≤
          ((block * layout.blockSize + (place + amount) : ℕ) : ℤ) := by
        have := hfilling.fileSize
        rw [hfilling.offset] at this
        omega
      have hnext := @ih (rem - amount) 0 (by omega) (place + amount) _
        (hdealt next.fileSize hfileSize) (by omega) (by omega)
      have hsum : place + amount + (rem - amount) = place + rem := by omega
      have hcast : (rem : ℤ) - amount = ((rem - amount : ℕ) : ℤ) := by omega
      simpa only [hstripe, bind_eq_bind, bind_some, List.length_replicate, hsum,
        hcast, hsize] using hnext

end Padding

end QfsRepair.Striping
