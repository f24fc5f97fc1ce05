import QfsRepair.Striping.RecoveryColumns
import QfsRepair.Striping.WriteBuffers

/-!
# Recovery stripes of the buffered data

`ComputeRecovery` encodes the full strides that the data buffers hold and that
are not encoded yet, appends the rows to the recovery buffers, and marks the
data of these strides as ready to be written.
-/

namespace QfsRepair.Striping

open Function List
open Machine Layout

variable {layout : Layout} {stream : ℕ → Byte} {env : WriteEnvironment}
variable {block : ℕ} {start : ℕ → ℕ} {buffers : ℕ → WriteBuffer}

/-- The division into fragments keeps the bytes. -/
def KeepsBytes (fragments : ℕ → List Byte → List (Fragment Byte)) : Prop :=
  ∀ index bytes, Machine.contents (fragments index bytes) = bytes

/-! ## The data buffers -/

/-- The part of a stripe behind the full strides. -/
def Layout.stripeTail (layout : Layout) (head index : ℕ) : ℕ :=
  min layout.stripeSize (head - index * layout.stripeSize)

theorem stripeTail_le (head index : ℕ) :
    layout.stripeTail head index ≤ layout.stripeSize := min_le_left _ _

variable {index : ℕ}

theorem stripeLength_of_stride {place done : ℕ} (hindex : index < layout.stripeCount)
    (hlow : done * layout.strideSize ≤ place) (hhigh : place ≤ (done + 1) * layout.strideSize) :
    layout.stripeLength place index =
      done * layout.stripeSize + layout.stripeTail (place - done * layout.strideSize) index := by
  obtain ⟨head, rfl⟩ := Nat.exists_eq_add_of_le hlow
  rw [add_one_mul] at hhigh
  rw [stripeLength_eq hindex done (by omega), Nat.add_sub_cancel_left, stripeTail]

theorem WriteEnvironment.Realises.min_stripeTail (hrealises : env.Realises layout)
    (head index : ℕ) :
    min ((head - index * layout.stripeSize : ℕ) : ℤ) env.striper.stripeSize =
      (layout.stripeTail head index : ℕ) := by
  rw [hrealises.implements.stripeSize, ← Nat.cast_min, stripeTail, min_comm]

theorem sub_stripeTail (head index : ℕ) :
    ((head - index * layout.stripeSize : ℕ) : ℤ) - (layout.stripeTail head index : ℕ) =
      ((head - (index + 1) * layout.stripeSize : ℕ) : ℤ) := by
  rw [stripeTail, add_one_mul]
  omega

/-- The tails are taken off the head of the stride one after the other. -/
theorem startStripes_eq (hrealises : env.Realises layout)
    (fragments : ℕ → List Byte → List (Fragment Byte)) (size : ℤ) (head first count : ℕ)
    (buffers : ℕ → WriteBuffer) :
    startStripes env fragments size (List.range' first count)
        ((head - first * layout.stripeSize : ℕ) : ℤ) buffers =
      ((List.range' first count).map fun index =>
          ⟨fragments index (buffers index).bytes,
            (buffers index).bytes.length - (size + layout.stripeTail head index)⟩,
        fun index =>
          if first ≤ index ∧ index < first + count then
            { buffers index with
              writeLen := (buffers index).bytes.length -
                (size + layout.stripeTail head index) + size }
          else buffers index) := by
  induction count generalizing first buffers with
  | zero =>
    simp only [range'_zero, startStripes, map_nil, Prod.mk.injEq, true_and]
    exact (ite_range_zero _ _ _).symm
  | succ count ih =>
    rw [range'_succ, startStripes]
    simp only [hrealises.min_stripeTail, sub_stripeTail, ih, map_cons,
      Prod.mk.injEq, cons.injEq, true_and]
    constructor
    · apply map_congr_left
      intro index hindex
      rw [mem_range'_1] at hindex
      rw [update_of_ne (by omega)]
    · exact ite_range_succ count rfl fun index hlt => by rw [update_of_ne hlt.ne']

section Encoding

variable {done strides head : ℕ} (hhead : head ≤ layout.strideSize) (hdone : done ≤ strides)
variable (hdata : HoldsData layout stream block (strides * layout.strideSize + head) start buffers)
variable (hstart : ∀ index < layout.stripeCount, start index ≤ done * layout.stripeSize)

include hhead hdone hdata hstart

omit hdone hstart in
theorem length_stripe_bytes (hindex : index < layout.stripeCount) :
    (buffers index).bytes.length + start index =
      strides * layout.stripeSize + layout.stripeTail head index := by
  have hlength := hdata.length_bytes hindex
  have hle := hdata.start_le index hindex
  rw [stripeLength_eq hindex strides hhead] at hlength hle
  rw [Layout.stripeTail]
  omega

variable {fragments : ℕ → List Byte → List (Fragment Byte)}

/-- The cursors start at the rows that are not encoded yet. -/
theorem denotes_startStripes (hfragments : KeepsBytes fragments) :
    List.Forall₂ BufferCursor.Denotes
      ((List.range layout.stripeCount).map fun index =>
        ⟨fragments index (buffers index).bytes, (buffers index).bytes.length -
          (((strides - done) * layout.stripeSize : ℕ) + layout.stripeTail head index)⟩)
      ((List.range layout.stripeCount).map fun index =>
        slice (stripeStream layout stream block index) (done * layout.stripeSize)
          (strides * layout.stripeSize + layout.stripeTail head index)) := by
  rw [forall₂_map_left_iff, forall₂_map_right_iff, forall₂_same]
  intro index hindex
  rw [mem_range] at hindex
  have hlength := length_stripe_bytes hhead hdata hindex
  have hle := hstart index hindex
  have hsize : (strides - done) * layout.stripeSize + done * layout.stripeSize =
      strides * layout.stripeSize := by
    rw [← add_mul, Nat.sub_add_cancel hdone]
  have hskip : ((buffers index).bytes.length : ℤ) -
      (((strides - done) * layout.stripeSize : ℕ) + layout.stripeTail head index) =
        ((done * layout.stripeSize - start index : ℕ) : ℤ) := by
    omega
  rw [hskip]
  refine ⟨Int.natCast_nonneg _, ?_⟩
  rw [Int.toNat_natCast, hfragments, hdata.bytes index hindex, drop_slice,
    stripeLength_eq hindex strides hhead]
  congr 1
  omega

/-- The encoding loop gives the rows of the strides that are not encoded yet. -/
theorem encodeLoop_stripes (hfragments : KeepsBytes fragments)
    (haligned : kAlign ∣ layout.stripeSize) :
    encodeLoop env ((strides - done) * layout.stripeSize : ℕ)
        ((strides - done) * layout.stripeSize) 0
        ((List.range layout.stripeCount).map fun index =>
          ⟨fragments index (buffers index).bytes, (buffers index).bytes.length -
            (((strides - done) * layout.stripeSize : ℕ) + layout.stripeTail head index)⟩) =
      some (slice (fun chunkOffset => env.encode (layout.column stream block chunkOffset))
        (done * layout.stripeSize) (strides * layout.stripeSize)) := by
  have hsize : done * layout.stripeSize + (strides - done) * layout.stripeSize =
      strides * layout.stripeSize := by
    rw [← add_mul, Nat.add_sub_cancel' hdone]
  rw [encodeLoop_eq env (denotes_startStripes hhead hdone hdata hstart hfragments) le_rfl
    (by omega) (haligned.mul_left _)]
  · have hshift := slice_shift
      (fun chunkOffset => env.encode (layout.column stream block chunkOffset))
      (done * layout.stripeSize) 0 ((strides - done) * layout.stripeSize)
    rw [add_zero, hsize] at hshift
    rw [← hshift, slice, ← range_eq_range']
    congr 1
    apply map_congr_left
    intro row hrow
    rw [mem_range] at hrow
    refine congrArg env.encode (funext fun index => ?_)
    rw [column]
    split_ifs with hindex
    · rw [getD_eq_getElem?_getD, getD_eq_getElem?_getD, getElem?_map,
        getElem?_range hindex, Option.map_some, Option.getD_some,
        getElem?_slice _ (by omega)]
      rfl
    · rw [getD_eq_getElem?_getD, getD_eq_default _ _ (by simpa using hindex)]
      rfl
  · simp only [mem_map, mem_range, forall_exists_index, and_imp,
      forall_apply_eq_imp_iff₂, length_slice]
    omega

end Encoding

/-! ## The recovery buffers -/

theorem stripeSize_dvd_chunkStart (block index : ℕ) :
    layout.stripeSize ∣ layout.chunkStart block index := by
  exact (Nat.dvd_mul_left _ _).mul_left _

theorem chunkStart_succ (block index : ℕ) :
    layout.chunkStart block (index + 1) = layout.chunkStart block index + layout.chunkSize := by
  rw [chunkStart, chunkStart]
  ring

/-- The recovery buffers of the first `count` recovery stripes filled from `low` up
to `high`. -/
def filledRecovery (layout : Layout) (encode : (ℕ → Byte) → ℕ → Byte) (stream : ℕ → Byte)
    (block low high count : ℕ) (buffers : ℕ → WriteBuffer) : ℕ → WriteBuffer :=
  fun index =>
    if layout.stripeCount ≤ index ∧ index < layout.stripeCount + count then
      { endPos := (layout.chunkStart block index + high : ℕ)
        bytes := slice (recoveryStream layout encode stream block (index - layout.stripeCount))
          low high
        writeLen := (high - low : ℕ) }
    else buffers index

section Filled

variable {encode : (ℕ → Byte) → ℕ → Byte} {low high : ℕ}

theorem filledRecovery_data (hindex : index < layout.stripeCount) (count : ℕ) :
    filledRecovery layout encode stream block low high count buffers index = buffers index :=
  if_neg (by omega)

theorem holdsRecovery_filledRecovery (hle : low ≤ high) :
    HoldsRecovery layout encode stream block low high
      (filledRecovery layout encode stream block low high layout.recoveryCount buffers) := by
  have hfilled : ∀ index < layout.recoveryCount,
      filledRecovery layout encode stream block low high layout.recoveryCount buffers
        (layout.stripeCount + index) =
      { endPos := (layout.chunkStart block (layout.stripeCount + index) + high : ℕ)
        bytes := slice (recoveryStream layout encode stream block index) low high
        writeLen := (high - low : ℕ) } := by
    intro index hindex
    rw [filledRecovery, if_pos (by omega), Nat.add_sub_cancel_left]
  refine ⟨hle, ?_, ?_, ?_⟩
  · exact fun index hindex => by rw [hfilled index hindex]
  · exact fun _ index hindex => by rw [hfilled index hindex]
  · exact fun index hindex => by rw [hfilled index hindex, Nat.cast_sub hle]

theorem update_filledRecovery (count : ℕ) :
    update (filledRecovery layout encode stream block low high count buffers)
        (layout.stripeCount + count)
        { endPos := (layout.chunkStart block (layout.stripeCount + count) + high : ℕ)
          bytes := slice (recoveryStream layout encode stream block count) low high
          writeLen := (high - low : ℕ) } =
      filledRecovery layout encode stream block low high (count + 1) buffers := by
  funext index
  by_cases heq : index = layout.stripeCount + count
  · subst heq
    rw [update_self, filledRecovery, if_pos (by omega), Nat.add_sub_cancel_left]
  · rw [update_of_ne heq, filledRecovery, filledRecovery]
    by_cases hin : layout.stripeCount ≤ index ∧ index < layout.stripeCount + count
    · rw [if_pos hin, if_pos (by omega)]
    · rw [if_neg hin, if_neg (by omega)]

end Filled

section Extending

variable (hrealises : env.Realises layout) {low high high' tail : ℕ}
variable (hrecovery : HoldsRecovery layout env.encode stream block low high buffers)
variable (hlt : high < high') (hdvd : layout.stripeSize ∣ high') (htail : tail < layout.stripeSize)
variable (hlast : (buffers (layout.stripeCount - 1)).endPos =
  (layout.chunkStart block (layout.stripeCount - 1) + (high' + tail) : ℕ))

include hrealises hdvd htail hlast in
/-- An empty recovery buffer is placed behind the chunk before it; the end of the
last data chunk is rounded down to a full stripe. -/
theorem endPos_extendRecovery (count : ℕ) :
    (let pos := (filledRecovery layout env.encode stream block low high' count buffers
        (layout.stripeCount + count - 1)).endPos + CHUNKSIZE
      if count = 0 then pos - pos.tmod env.striper.stripeSize else pos) =
      (layout.chunkStart block (layout.stripeCount + count) + high' : ℕ) := by
  have hpos := layout.stripeCount_pos
  have hprevious : layout.chunkStart block (layout.stripeCount + count) =
      layout.chunkStart block (layout.stripeCount + count - 1) + layout.chunkSize := by
    rw [← chunkStart_succ, Nat.sub_add_cancel (by omega)]
  rcases Nat.eq_zero_or_pos count with rfl | hcount
  · rw [add_zero] at hprevious ⊢
    have hsum : (layout.chunkStart block (layout.stripeCount - 1) + (high' + tail) : ℕ) +
        CHUNKSIZE = ((layout.chunkStart block layout.stripeCount + high' + tail : ℕ) : ℤ) := by
      rw [hrealises.implements.chunkSize, hprevious]
      push_cast
      ring
    have hmod : (layout.chunkStart block layout.stripeCount + high' + tail) %
        layout.stripeSize = tail := by
      rw [Nat.add_mod, Nat.mod_eq_zero_of_dvd
        (Nat.dvd_add (stripeSize_dvd_chunkStart block layout.stripeCount) hdvd),
        zero_add, Nat.mod_mod, Nat.mod_eq_of_lt htail]
    simp only [if_true, filledRecovery_data (Nat.sub_lt hpos Nat.one_pos), hlast, hsum,
      hrealises.implements.stripeSize, ← Int.ofNat_tmod, hmod]
    push_cast
    ring
  · have hfilled : (filledRecovery layout env.encode stream block low high' count buffers
        (layout.stripeCount + count - 1)).endPos =
          (layout.chunkStart block (layout.stripeCount + count - 1) + high' : ℕ) := by
      rw [filledRecovery, if_pos (by omega)]
    simp only [if_neg hcount.ne', hfilled]
    rw [hrealises.implements.chunkSize, hprevious]
    push_cast
    ring

include hrealises hrecovery hlt hdvd htail hlast

/-- The rows are appended to the recovery buffers. -/
theorem foldl_extendRecovery_eq (count : ℕ) (hcount : count ≤ layout.recoveryCount) :
    (List.range count).foldl
        (extendRecovery env ((high' - high : ℕ) : ℤ)
          (slice (fun chunkOffset => env.encode (layout.column stream block chunkOffset))
            high high')) buffers =
      filledRecovery layout env.encode stream block low high' count buffers := by
  induction count with
  | zero =>
    funext index
    rw [filledRecovery, if_neg (by omega)]
    rfl
  | succ count ih =>
    have hcountLt : count < layout.recoveryCount := hcount
    have hlow := hrecovery.low_le
    have hencoded : (slice (fun chunkOffset =>
        env.encode (layout.column stream block chunkOffset)) high high').map
          (fun column => column count) =
        slice (recoveryStream layout env.encode stream block count) high high' := by
      rw [slice, map_map]
      rfl
    have hbuffer : filledRecovery layout env.encode stream block low high' count buffers
        (layout.stripeCount + count) = buffers (layout.stripeCount + count) :=
      if_neg (by omega)
    have hend := @endPos_extendRecovery _ stream _ _ _ hrealises low _ _ hdvd htail hlast count
    rw [range_succ, foldl_append, ih (by omega), foldl_cons, foldl_nil, ← update_filledRecovery]
    simp only [extendRecovery, hrealises.dataCount, hbuffer, hencoded]
    by_cases hempty : (buffers (layout.stripeCount + count)).bytes = []
    · rw [if_pos hempty, hend]
      rw [hrecovery.bytes count hcountLt, slice_eq_nil_iff] at hempty
      rw [le_antisymm hlow hempty]
    · have hnonempty : low < high := by
        rwa [hrecovery.bytes count hcountLt, slice_eq_nil_iff, not_le] at hempty
      rw [if_neg hempty, hrecovery.endPos hnonempty count hcountLt,
        hrecovery.writeLen count hcountLt, hrecovery.bytes count hcountLt,
        slice_append_slice _ hlow hlt.le]
      congr 2
      · push_cast [Nat.cast_sub hlt.le]
        ring
      · push_cast [Nat.cast_sub hlt.le, Nat.cast_sub (hlow.trans hlt.le)]
        ring

end Extending

/-! ## ComputeRecovery -/

/-- The state after the encoding, before data is trimmed. -/
def encodedState (layout : Layout) (block strides : ℕ) (buffers : ℕ → WriteBuffer)
    (state : RSWriteStriper) : RSWriteStriper :=
  { state with
    buffers := buffers
    pendingCount := bufferedBytes buffers (List.range layout.stripeCount) +
      bufferedBytes buffers (List.range' layout.stripeCount layout.recoveryCount)
    recoveryEndPos := (block * layout.blockSize + strides * layout.strideSize : ℕ) }

variable {fragments : ℕ → List Byte → List (Fragment Byte)}

theorem tmod_strideSize (block strides : ℕ) {head : ℕ} (hhead : head < layout.strideSize) :
    ((block * layout.blockSize + (strides * layout.strideSize + head) : ℕ) : ℤ).tmod
      layout.strideSize = head := by
  have hsum : block * layout.blockSize + (strides * layout.strideSize + head) =
      layout.strideSize * (block * layout.strides + strides) + head := by
    rw [blockSize_eq_strides]
    ring
  rw [← Int.ofNat_tmod, hsum, Nat.mul_add_mod, Nat.mod_eq_of_lt hhead]

/-- With a full stride at hand all full strides are encoded. -/
theorem computeRecovery_strides (hrealises : env.Realises layout)
    (hrecoveryCount : 0 < layout.recoveryCount) (hfragments : KeepsBytes fragments)
    {state : RSWriteStriper} {low done strides head : ℕ} (hhead : head < layout.strideSize)
    (hdone : done < strides)
    (hoffset : state.offset = (block * layout.blockSize + (strides * layout.strideSize + head) : ℕ))
    (hrecoveryEndPos : state.recoveryEndPos =
      (block * layout.blockSize + done * layout.strideSize : ℕ))
    (hsmall : (strides - done) * layout.strideSize < 2 ^ 31)
    (hdata : HoldsData layout stream block (strides * layout.strideSize + head) start state.buffers)
    (hstart : ∀ index < layout.stripeCount, start index ≤ done * layout.stripeSize)
    (hrecovery : HoldsRecovery layout env.encode stream block low (done * layout.stripeSize)
      state.buffers) (padded : Bool) :
    ∃ buffers, computeRecovery env fragments padded state =
        trimFlushed env padded (encodedState layout block strides buffers state) ∧
      HoldsData layout stream block (strides * layout.strideSize + head) start buffers ∧
      (∀ index < layout.stripeCount, (buffers index).writeLen =
        (strides * layout.stripeSize : ℕ) - start index) ∧
      HoldsRecovery layout env.encode stream block low (strides * layout.stripeSize) buffers := by
  have hstride := hrealises.strideSize hrecoveryCount
  have hcount := layout.stripeCount_pos
  have hsizePos := layout.stripeSize_pos
  have hgain := mul_add_le_of_lt hdone layout.strideSize
  have hmod : state.offset.tmod env.striper.strideSize = head := by
    rw [hoffset, hstride, tmod_strideSize _ _ hhead]
  have htotal : state.offset - head - state.recoveryEndPos =
      ((strides - done) * layout.strideSize : ℕ) := by
    rw [Nat.sub_mul]
    omega
  have hsize : (((strides - done) * layout.strideSize : ℕ) : ℤ).tdiv env.striper.stripeCount =
      ((strides - done) * layout.stripeSize : ℕ) := by
    rw [hrealises.implements.stripeCount, ← Int.ofNat_tdiv, strideSize, ← mul_assoc,
      Nat.mul_div_cancel _ hcount]
  have hsize_pos : 0 < (strides - done) * layout.stripeSize :=
    Nat.mul_pos (Nat.sub_pos_of_lt hdone) hsizePos
  have hdiff : (strides - done) * layout.stripeSize =
      strides * layout.stripeSize - done * layout.stripeSize := Nat.sub_mul _ _ _
  -- the buffers after the first column
  obtain ⟨started, hstarted⟩ : ∃ started : ℕ → WriteBuffer, started = fun index =>
      if 0 ≤ index ∧ index < 0 + layout.stripeCount then
        { state.buffers index with
          writeLen := (state.buffers index).bytes.length -
            (((strides - done) * layout.stripeSize : ℕ) + layout.stripeTail head index) +
              ((strides - done) * layout.stripeSize : ℕ) }
      else state.buffers index := ⟨_, rfl⟩
  have hstart_eq := startStripes_eq hrealises fragments ((strides - done) * layout.stripeSize : ℕ)
    head 0 layout.stripeCount state.buffers
  rw [← range_eq_range', zero_mul, Nat.sub_zero, ← hstarted] at hstart_eq
  have hdata' : HoldsData layout stream block (strides * layout.strideSize + head) start started :=
    hdata.congr (fun index hindex => by rw [hstarted]; simp [hindex])
      (fun index hindex => by rw [hstarted]; simp [hindex])
  have hrecovery' : HoldsRecovery layout env.encode stream block low (done * layout.stripeSize)
      started := hrecovery.congr fun index _ => by rw [hstarted]; simp
  have hlastIndex : layout.stripeCount - 1 < layout.stripeCount := by omega
  have htail : layout.stripeTail head (layout.stripeCount - 1) < layout.stripeSize := by
    have hrow : (layout.stripeCount - 1) * layout.stripeSize + layout.stripeSize =
        layout.strideSize := by
      rw [← Nat.succ_mul, Nat.succ_eq_add_one, Nat.sub_add_cancel hcount, strideSize,
        mul_comm]
    rw [stripeTail]
    omega
  have hlast : (started (layout.stripeCount - 1)).endPos =
      (layout.chunkStart block (layout.stripeCount - 1) + (strides * layout.stripeSize +
        layout.stripeTail head (layout.stripeCount - 1)) : ℕ) := by
    have hbound := hstart _ hlastIndex
    have hlength := stripeLength_eq hlastIndex strides hhead.le
    rw [hdata'.endPos _ hlastIndex (by rw [hlength]; omega), hlength, stripeTail]
  have hextend := foldl_extendRecovery_eq hrealises hrecovery'
    (show done * layout.stripeSize < strides * layout.stripeSize by omega)
    (Nat.dvd_mul_left _ _) htail hlast layout.recoveryCount le_rfl
  refine ⟨filledRecovery layout env.encode stream block low (strides * layout.stripeSize)
    layout.recoveryCount started, ?_, ?_, ?_, ?_⟩
  · rw [computeRecovery]
    simp only [hrealises.recoveryStripeCount, hmod, htotal, hsize,
      wrap32_of_bounds (show -2 ^ 31 ≤ (head : ℤ) by omega) (by omega),
      wrap32_of_bounds (show -2 ^ 31 ≤ (((strides - done) * layout.strideSize : ℕ) : ℤ) by omega)
        (by omega)]
    rw [if_neg (by omega), if_neg (by rw [hstride]; omega),
      if_neg (by rw [hstride]; omega), if_neg (by omega),
      if_pos (show 0 < (((strides - done) * layout.stripeSize : ℕ) : ℤ) by omega),
      hrealises.dataCount, hrealises.recoveryCount, hstart_eq, Int.toNat_natCast,
      encodeLoop_stripes hhead.le hdone.le hdata hstart hfragments hrealises.aligned]
    simp only [Option.bind_eq_bind, Option.bind_some]
    rw [hdiff, hextend]
    congr 1
    congr 1
    omega
  · apply hdata'.congr <;> exact fun index hindex => by rw [filledRecovery_data hindex]
  · intro index hindex
    have hlength := length_stripe_bytes hhead.le hdata hindex
    rw [filledRecovery_data hindex, hstarted]
    simp only [zero_le, zero_add, hindex, and_self, if_true]
    omega
  · have := hrecovery.low_le
    exact holdsRecovery_filledRecovery (by omega)

end QfsRepair.Striping
