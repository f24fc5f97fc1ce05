import QfsRepair.Striping.Addressing

/-!
# Runs of the stripe iterator

Sequences of `SetPos`, `SeekStripe` and `Seek` calls from a newly constructed
iterator.  For valid parameters the iterator always holds the closed form of
its logical position, and the closed form addresses the data chunks one to
one, exactly when the members that the constructor computes fit their types.
-/

namespace QfsRepair.Striping

open Option Layout

/-- The calls that move the iterator. -/
inductive StripeCall where
  | setPos (inPos : ℤ)
  | seekStripe (inCount : ℤ)
  | seek (inCount : ℤ)
  deriving DecidableEq

/-- The logical position a call asks for. -/
def StripeCall.target (state : StripePosition) : StripeCall → ℤ
  | setPos inPos => inPos
  | seekStripe inCount => state.pos + inCount
  | seek inCount => state.pos + inCount

namespace RSStriper

def perform (striper : RSStriper) (state : StripePosition) :
    StripeCall → Option (StripePosition × Bool)
  | .setPos inPos => (striper.setPos state inPos).map fun state => (state, false)
  | .seekStripe inCount => striper.seekStripe state inCount
  | .seek inCount => striper.seek state inCount

end RSStriper

section Runs

variable (stripeSize stripeCount recoveryStripeCount : ℤ)

/-- The logical position is not negative, and it and its file position are 64
bit offsets. -/
def Representable (pos : ℤ) : Prop :=
  0 ≤ pos ∧ pos < 2 ^ 63 ∧
    (directPosition stripeSize stripeCount recoveryStripeCount pos).filePos < 2 ^ 63

/-- A call to a representable position, for `SeekStripe` within the current
stripe. -/
def Admissible (state : StripePosition) (call : StripeCall) : Prop :=
  Representable stripeSize stripeCount recoveryStripeCount (call.target state) ∧
    ∀ inCount, call = .seekStripe inCount → 0 ≤ inCount ∧ state.stripePos + inCount ≤ stripeSize

/-- The states that sequences of admissible calls reach. -/
inductive Reachable : StripePosition → Prop
  | start : Reachable RSStriper.start
  | step {state next : StripePosition} {call : StripeCall} {flag : Bool} :
      Reachable state →
      Admissible stripeSize stripeCount recoveryStripeCount state call →
      (RSStriper.create stripeSize stripeCount recoveryStripeCount).perform state call =
        some (next, flag) →
      Reachable next

/-- The file position that `SetPos` computes for a logical position. -/
def filePosAt (pos : ℤ) : Option ℤ :=
  ((RSStriper.create stripeSize stripeCount recoveryStripeCount).setPos RSStriper.start pos).map
    StripePosition.filePos

/-- The iterator holds the closed form of its position along every run, and
`SetPos` maps positions one to one onto the data chunks. -/
structure AddressingCorrect : Prop where
  state_eq : ∀ state, Reachable stripeSize stripeCount recoveryStripeCount state →
    state = directPosition stripeSize stripeCount recoveryStripeCount state.pos
  perform_eq : ∀ state call, Reachable stripeSize stripeCount recoveryStripeCount state →
    Admissible stripeSize stripeCount recoveryStripeCount state call →
    ∃ flag, (RSStriper.create stripeSize stripeCount recoveryStripeCount).perform state call =
      some (directPosition stripeSize stripeCount recoveryStripeCount (call.target state), flag)
  seekStripe_flag : ∀ state inCount next flag,
    Reachable stripeSize stripeCount recoveryStripeCount state →
    Admissible stripeSize stripeCount recoveryStripeCount state (.seekStripe inCount) →
    (RSStriper.create stripeSize stripeCount recoveryStripeCount).seekStripe state inCount =
      some (next, flag) →
    (flag = true ↔
      next.pos / (CHUNKSIZE * stripeCount) ≠ state.pos / (CHUNKSIZE * stripeCount))
  filePosAt_injective : ∀ left right,
    Representable stripeSize stripeCount recoveryStripeCount left →
    Representable stripeSize stripeCount recoveryStripeCount right →
    filePosAt stripeSize stripeCount recoveryStripeCount left =
      filePosAt stripeSize stripeCount recoveryStripeCount right → left = right
  filePosAt_image : ∀ chunkBlock, 0 ≤ chunkBlock →
    (chunkBlock + 1) * (CHUNKSIZE * (stripeCount + recoveryStripeCount)) ≤ 2 ^ 63 →
    ∀ filePos, chunkBlock * (CHUNKSIZE * (stripeCount + recoveryStripeCount)) ≤ filePos →
    filePos < (chunkBlock + 1) * (CHUNKSIZE * (stripeCount + recoveryStripeCount)) →
    ((∃ pos, Representable stripeSize stripeCount recoveryStripeCount pos ∧
        filePosAt stripeSize stripeCount recoveryStripeCount pos = some filePos) ↔
      (filePos - chunkBlock * (CHUNKSIZE * (stripeCount + recoveryStripeCount))) / CHUNKSIZE <
        stripeCount)

end Runs

/-! ## Members that fit -/

namespace Layout

variable {layout : Layout} {striper : RSStriper}

theorem representable_iff (hchunk : CHUNKSIZE = layout.chunkSize) {pos : ℤ} :
    Representable layout.stripeSize layout.stripeCount layout.recoveryCount pos ↔
      ∃ position : ℕ, pos = position ∧ layout.Addressable position := by
  constructor
  · rintro ⟨hnonneg, hpos, hfilePos⟩
    lift pos to ℕ using hnonneg
    rw [directPosition_eq hchunk] at hfilePos
    change (layout.address pos : ℤ) < 2 ^ 63 at hfilePos
    exact ⟨pos, rfl, by exact_mod_cast hpos, by exact_mod_cast hfilePos⟩
  · rintro ⟨position, rfl, hposition, haddress⟩
    refine ⟨Int.natCast_nonneg position, by exact_mod_cast hposition, ?_⟩
    rw [directPosition_eq hchunk]
    change (layout.address position : ℤ) < 2 ^ 63
    exact_mod_cast haddress

theorem offset_le (position : ℕ) : layout.offset position ≤ position :=
  Nat.mod_le _ _

variable {position : ℕ}

/-- `Seek` reaches the state of the position it asks for. -/
theorem seek_eq (himplements : layout.Implements striper) (hsmall : layout.blockSize < 2 ^ 63)
    {target : ℕ} {inCount : ℤ} (htarget : (position : ℤ) + inCount = target)
    (haddressable : layout.Addressable target) :
    ∃ flag, striper.seek (layout.state position) inCount =
      some (layout.state target, flag) := by
  rw [RSStriper.seek]
  split_ifs with hwithin
  · obtain ⟨hnonneg, hfits⟩ := hwithin
    lift inCount to ℕ using hnonneg with amount
    have hsum : position + amount = target := by exact_mod_cast htarget
    subst hsum
    have hbound : layout.offset position + amount < 2 ^ 63 :=
      lt_of_le_of_lt (Nat.add_le_add_right (layout.offset_le position) amount) haddressable.1
    have hamount : layout.offset position + amount ≤ layout.stripeSize := by
      change wrap64 ((layout.offset position : ℤ) + amount) ≤ _ at hfits
      rw [← Nat.cast_add, wrap64_natCast hbound, himplements.stripeSize] at hfits
      exact_mod_cast hfits
    exact ⟨_, seekStripe_eq himplements hsmall haddressable hamount⟩
  · refine ⟨true, ?_⟩
    have hpos : wrap64 ((layout.state position).pos + inCount) = target := by
      change wrap64 ((position : ℤ) + inCount) = target
      rw [htarget]
      exact wrap64_natCast haddressable.1
    rw [hpos, setPos_eq himplements haddressable, map_some]
    intro hsame
    have heq : position = target := Int.ofNat_inj.mp hsame
    rw [heq]

/-- A position whose address lies in the first chunk blocks does so itself. -/
theorem lt_of_address_lt {blocks : ℕ}
    (haddress : layout.address position < blocks * layout.totalSize) :
    position < blocks * layout.totalSize := by
  have hblock : layout.block position < blocks :=
    lt_of_mul_lt_mul_right ((block_mul_totalSize_le position).trans_lt haddress) (Nat.zero_le _)
  have hsize : layout.blockSize ≤ layout.totalSize := by
    rw [blockSize_eq]
    exact Nat.mul_le_mul_right _ (Nat.le_add_right _ _)
  calc
    position < layout.block position * layout.blockSize + layout.blockSize := by
      conv_lhs => rw [← layout.block_mul_add position]
      exact Nat.add_lt_add_left (layout.blockPosition_lt position) _
    _ = (layout.block position + 1) * layout.blockSize := by ring
    _ ≤ blocks * layout.totalSize := Nat.mul_le_mul hblock hsize

section Fits

variable (hchunk : CHUNKSIZE = layout.chunkSize) (hcount : layout.stripeCount ≤ 511)
variable (himplements : layout.Implements
  (RSStriper.create layout.stripeSize layout.stripeCount layout.recoveryCount))

include hchunk hcount himplements

/-- One admissible call takes the state of a position to the state of the
position it asks for. -/
theorem perform_state {call : StripeCall}
    (hadmissible : Admissible layout.stripeSize layout.stripeCount layout.recoveryCount
      (layout.state position) call) :
    ∃ target : ℕ, call.target (layout.state position) = target ∧ ∃ flag,
      (RSStriper.create layout.stripeSize layout.stripeCount layout.recoveryCount).perform
        (layout.state position) call = some (layout.state target, flag) ∧
      ∀ inCount, call = .seekStripe inCount →
        flag = decide (layout.block target ≠ layout.block position) := by
  have hsmall := layout.blockSize_lt_offset hchunk hcount
  obtain ⟨hrepresentable, hwithin⟩ := hadmissible
  obtain ⟨target, htarget, haddressable⟩ := (representable_iff hchunk).mp hrepresentable
  refine ⟨target, htarget, ?_⟩
  cases call with
  | setPos inPos =>
    subst htarget
    refine ⟨false, ?_, fun _ h => nomatch h⟩
    rw [RSStriper.perform, setPos_eq himplements haddressable, map_some]
    intro hsame
    have heq : position = target := Int.ofNat_inj.mp hsame
    rw [heq]
  | seekStripe inCount =>
    obtain ⟨hnonneg, hfits⟩ := hwithin inCount rfl
    lift inCount to ℕ using hnonneg with amount
    change (position : ℤ) + amount = target at htarget
    change (layout.offset position : ℤ) + amount ≤ layout.stripeSize at hfits
    have hsum : position + amount = target := by exact_mod_cast htarget
    subst hsum
    exact ⟨_, seekStripe_eq himplements hsmall haddressable (by exact_mod_cast hfits),
      fun _ _ => rfl⟩
  | seek inCount =>
    obtain ⟨flag, hseek⟩ := seek_eq himplements hsmall htarget haddressable
    exact ⟨flag, hseek, fun _ h => nomatch h⟩

/-- Every reachable state is the state of a position. -/
theorem reachable_state {current : StripePosition}
    (hreachable : Reachable layout.stripeSize layout.stripeCount layout.recoveryCount current) :
    ∃ position, current = layout.state position := by
  induction hreachable with
  | start => exact ⟨0, layout.state_zero.symm⟩
  | step _ hadmissible hperform ih =>
    obtain ⟨position, rfl⟩ := ih
    obtain ⟨target, -, flag, hstep, -⟩ :=
      perform_state hchunk hcount himplements hadmissible
    rw [hstep] at hperform
    exact ⟨target, (congrArg Prod.fst (some.inj hperform)).symm⟩

omit hchunk hcount in
theorem filePosAt_eq (haddressable : layout.Addressable position) :
    filePosAt layout.stripeSize layout.stripeCount layout.recoveryCount position =
      some (layout.address position : ℤ) := by
  rw [filePosAt, setPos_eq himplements haddressable, map_some]
  · rfl
  · intro hzero
    have heq : 0 = position := Int.ofNat_inj.mp hzero
    rw [← heq, state_zero]

omit hcount in
/-- In a chunk block that is addressable as a whole, `SetPos` reaches exactly
the data chunks. -/
theorem exists_filePosAt_iff {chunkBlock target : ℕ}
    (hblock : (chunkBlock + 1) * layout.totalSize ≤ 2 ^ 63)
    (hlow : chunkBlock * layout.totalSize ≤ target)
    (hhigh : target < (chunkBlock + 1) * layout.totalSize) :
    (∃ pos, Representable layout.stripeSize layout.stripeCount layout.recoveryCount pos ∧
        filePosAt layout.stripeSize layout.stripeCount layout.recoveryCount pos =
          some (target : ℤ)) ↔
      (target - chunkBlock * layout.totalSize) / layout.chunkSize < layout.stripeCount := by
  have hdata : (target - chunkBlock * layout.totalSize) / layout.chunkSize =
      target / layout.chunkSize % (layout.stripeCount + layout.recoveryCount) := by
    have hrange : (target - chunkBlock * layout.totalSize) / layout.chunkSize <
        layout.stripeCount + layout.recoveryCount := by
      rw [Nat.div_lt_iff_lt_mul layout.chunkSize_pos]
      rw [add_one_mul] at hhigh
      exact (Nat.sub_lt_iff_lt_add hlow).mpr (by rwa [add_comm] at hhigh)
    have htarget : target = layout.chunkSize *
        ((layout.stripeCount + layout.recoveryCount) * chunkBlock) +
          (target - chunkBlock * layout.totalSize) := by
      rw [show layout.chunkSize * ((layout.stripeCount + layout.recoveryCount) * chunkBlock) =
        chunkBlock * layout.totalSize by rw [totalSize]; ring, Nat.add_sub_cancel' hlow]
    conv_rhs => rw [htarget]
    rw [Nat.mul_add_div layout.chunkSize_pos, Nat.mul_add_mod, Nat.mod_eq_of_lt hrange]
  rw [hdata, ← exists_address_iff]
  constructor
  · rintro ⟨pos, hrepresentable, hfilePos⟩
    obtain ⟨position, rfl, haddressable⟩ := (representable_iff hchunk).mp hrepresentable
    rw [filePosAt_eq himplements haddressable] at hfilePos
    exact ⟨position, Int.ofNat_inj.mp (Option.some.inj hfilePos)⟩
  · rintro ⟨position, rfl⟩
    have haddressable : layout.Addressable position :=
      ⟨(lt_of_address_lt hhigh).trans_le hblock, hhigh.trans_le hblock⟩
    exact ⟨position, (representable_iff hchunk).mpr ⟨position, rfl, haddressable⟩,
      filePosAt_eq himplements haddressable⟩

theorem addressingCorrect_of_implements :
    AddressingCorrect layout.stripeSize layout.stripeCount layout.recoveryCount := by
  constructor
  · intro current hreachable
    obtain ⟨position, rfl⟩ := reachable_state hchunk hcount himplements hreachable
    exact (directPosition_eq hchunk position).symm
  · intro current call hreachable hadmissible
    obtain ⟨position, rfl⟩ := reachable_state hchunk hcount himplements hreachable
    obtain ⟨target, htarget, flag, hperform, -⟩ :=
      perform_state hchunk hcount himplements hadmissible
    rw [htarget, directPosition_eq hchunk]
    exact ⟨flag, hperform⟩
  · intro current inCount next flag hreachable hadmissible hseek
    obtain ⟨position, rfl⟩ := reachable_state hchunk hcount himplements hreachable
    obtain ⟨target, -, reported, hperform, hflag⟩ :=
      perform_state hchunk hcount himplements hadmissible
    obtain ⟨rfl, rfl⟩ : layout.state target = next ∧ reported = flag := by
      simpa [RSStriper.perform, hseek] using hperform.symm
    rw [hflag inCount rfl, blockSize_eq_chunks hchunk, decide_eq_true_iff]
    change _ ↔ (target : ℤ) / layout.blockSize ≠ (position : ℤ) / layout.blockSize
    rw [← Int.natCast_ediv, ← Int.natCast_ediv, div_blockSize, div_blockSize, Ne, Ne, Nat.cast_inj]
  · intro left right hleft hright heq
    obtain ⟨leftPosition, rfl, haddressableLeft⟩ := (representable_iff hchunk).mp hleft
    obtain ⟨rightPosition, rfl, haddressableRight⟩ := (representable_iff hchunk).mp hright
    rw [filePosAt_eq himplements haddressableLeft, filePosAt_eq himplements haddressableRight]
      at heq
    rw [layout.address_injective (Int.ofNat_inj.mp (some.inj heq))]
  · rw [totalSize_eq_chunks hchunk]
    intro chunkBlock hnonneg hblock filePos hlow hhigh
    lift chunkBlock to ℕ using hnonneg
    lift filePos to ℕ using (Int.mul_nonneg (Int.natCast_nonneg _)
      (Int.natCast_nonneg _)).trans hlow
    have hlow' : chunkBlock * layout.totalSize ≤ filePos := by exact_mod_cast hlow
    rw [exists_filePosAt_iff hchunk himplements (by exact_mod_cast hblock) hlow'
      (by exact_mod_cast hhigh), hchunk, ← Nat.cast_mul, ← Nat.cast_sub hlow',
      ← Int.natCast_ediv, Nat.cast_lt]

end Fits

/-! ## Members that do not fit -/

section Correct

variable (hchunk : CHUNKSIZE = layout.chunkSize) (hcount : layout.stripeCount ≤ 511)
variable (hcorrect : AddressingCorrect layout.stripeSize layout.stripeCount layout.recoveryCount)

include hchunk hcorrect

/-- A first `SetPos` call divides and returns the state of its position. -/
theorem computePos_of_correct (hpositive : 0 < position)
    (haddressable : layout.Addressable position) :
    wrap32 (layout.stripeSize * layout.stripeCount : ℤ) ≠ 0 ∧
      (RSStriper.create layout.stripeSize layout.stripeCount
        layout.recoveryCount).computePos position = layout.state position := by
  have hadmissible : Admissible layout.stripeSize layout.stripeCount layout.recoveryCount
      RSStriper.start (.setPos position) :=
    ⟨(representable_iff hchunk).mpr ⟨position, rfl, haddressable⟩, fun _ h => nomatch h⟩
  obtain ⟨flag, hperform⟩ := hcorrect.perform_eq _ _ Reachable.start hadmissible
  rw [StripeCall.target, directPosition_eq hchunk, RSStriper.perform, map_eq_some_iff]
    at hperform
  obtain ⟨state, hsetPos, hstate⟩ := hperform
  obtain rfl : state = layout.state position := congrArg Prod.fst hstate
  have hmoves : ¬ RSStriper.start.pos = (position : ℤ) := by
    change ¬ ((0 : ℕ) : ℤ) = position
    rw [Nat.cast_inj]
    exact hpositive.ne
  rw [RSStriper.setPos, if_neg (not_lt.mpr (Int.natCast_nonneg position))]
    at hsetPos
  split_ifs at hsetPos with hzero
  simp only [not_or] at hzero
  obtain ⟨-, -, -, hstride⟩ := hzero
  simp only [RSStriper.create] at hstride
  exact ⟨hstride, some.inj hsetPos⟩

include hcount

/-- The start of the second chunk block shows the sum of the counts. -/
theorem counts_fit_of_correct (hrecovery : layout.recoveryCount < 2 ^ 31) :
    (layout.stripeCount : ℤ) + layout.recoveryCount < 2 ^ 31 := by
  have hchunkSize := chunkSize_eq hchunk
  have hdigit : layout.block layout.blockSize = 1 := by
    rw [← div_blockSize, Nat.div_self layout.blockSize_pos]
  have hstart : layout.blockPosition layout.blockSize = 0 := by
    rw [← mod_blockSize, Nat.mod_self]
  have haddress : layout.address layout.blockSize = layout.totalSize := by
    rw [address, hdigit, ← blockPosition_index, ← blockPosition_stride,
      ← blockPosition_mod_stripeSize, hstart]
    simp
  have haddressable : layout.Addressable layout.blockSize := by
    refine ⟨layout.blockSize_lt_offset hchunk hcount, ?_⟩
    rw [haddress, totalSize, hchunkSize]
    omega
  obtain ⟨-, hcompute⟩ :=
    computePos_of_correct hchunk hcorrect layout.blockSize_pos haddressable
  have hsecond := congrArg StripePosition.chunkBlockStartFilePos hcompute
  simp only [RSStriper.computePos, state] at hsecond
  rw [create_chunkBlockSize hchunk hcount, ← Int.ofNat_tdiv, Nat.div_self layout.blockSize_pos,
    hdigit, totalSize, hchunkSize] at hsecond
  simp only [RSStriper.create] at hsecond
  have hlow := le_wrap32 (layout.stripeCount + layout.recoveryCount)
  have hhigh := wrap32_lt (layout.stripeCount + layout.recoveryCount)
  generalize wrap32 (layout.stripeCount + layout.recoveryCount) = total at *
  have hmember : wrap64 (2 ^ 26 * total) = 2 ^ 26 * total :=
    wrap64_of_bounds (by omega) (by omega)
  rw [CHUNKSIZE, Nat.cast_one, one_mul, hmember] at hsecond
  omega

omit hchunk hcount hcorrect in
theorem block_eq_zero (hposition : position < layout.blockSize) :
    layout.block position = 0 := by
  rw [← div_blockSize, Nat.div_eq_of_lt hposition]

omit hcorrect in
/-- In the first chunk block only the stride comes from the wrapped member. -/
theorem computePos_filePos (hposition : position < layout.blockSize) :
    ((RSStriper.create layout.stripeSize layout.stripeCount
        layout.recoveryCount).computePos position).filePos =
      wrap64 ((position : ℤ).tdiv (wrap32 (layout.stripeSize * layout.stripeCount)) *
          layout.stripeSize + (layout.index position * layout.chunkSize +
            layout.offset position : ℕ)) := by
  simp only [RSStriper.computePos]
  rw [create_chunkBlockSize hchunk hcount]
  simp only [RSStriper.create, ← Int.ofNat_tmod, ← Int.ofNat_tdiv]
  rw [Nat.mod_eq_of_lt hposition, Nat.div_eq_of_lt hposition]
  have hzero : ∀ total : ℤ, wrap64 (((0 : ℕ) : ℤ) * total) = 0 := by
    intro total
    rw [Nat.cast_zero, zero_mul]
    rfl
  rw [hzero, hchunk, index, offset, zero_add, add_assoc, Nat.cast_add, Nat.cast_mul]

/-- The positions of the first chunk block show the stride size. -/
theorem div_stride_of_correct (hpositive : 0 < position) (hposition : position < layout.blockSize) :
    wrap32 (layout.stripeSize * layout.stripeCount : ℤ) ≠ 0 ∧
      (position : ℤ).tdiv (wrap32 (layout.stripeSize * layout.stripeCount)) =
        (position / (layout.stripeSize * layout.stripeCount) : ℕ) := by
  have hsize : layout.stripeSize ≤ 2 ^ 26 := by
    rw [← chunkSize_eq hchunk]
    exact Nat.le_mul_of_pos_left _ layout.strides_pos
  have hblock := layout.blockSize_lt hchunk hcount
  have hrest : layout.index position * layout.chunkSize + layout.offset position < 2 ^ 36 := by
    have hindex := layout.index_lt position
    have hoffset := layout.offset_lt position
    rw [chunkSize_eq hchunk]
    omega
  have hbounded : ∀ quotient : ℤ, quotient.natAbs ≤ position →
      (quotient * layout.stripeSize).natAbs ≤ 2 ^ 61 := by
    intro quotient hquotient
    rw [Int.natAbs_mul]
    calc
      quotient.natAbs * layout.stripeSize ≤ 2 ^ 35 * 2 ^ 26 :=
        Nat.mul_le_mul (hquotient.trans (hposition.trans hblock).le) hsize
      _ = 2 ^ 61 := by norm_num
  have haddress : layout.address position =
      position / (layout.stripeSize * layout.stripeCount) * layout.stripeSize +
        (layout.index position * layout.chunkSize + layout.offset position) := by
    have hstride : layout.stride position =
        position / (layout.stripeSize * layout.stripeCount) := by
      rw [← blockPosition_stride, ← mod_blockSize, Nat.mod_eq_of_lt hposition]
    rw [address, block_eq_zero hposition, hstride]
    ring
  have haddressable : layout.Addressable position := by
    have hstride := hbounded (position / (layout.stripeSize * layout.stripeCount) : ℕ)
      (Nat.div_le_self _ _)
    refine ⟨by omega, ?_⟩
    omega
  obtain ⟨hnonzero, hcompute⟩ := computePos_of_correct hchunk hcorrect hpositive haddressable
  refine ⟨hnonzero, ?_⟩
  have hfilePos := computePos_filePos hchunk hcount hposition
  rw [hcompute] at hfilePos
  change (layout.address position : ℤ) = _ at hfilePos
  have hquotient := hbounded
    ((position : ℤ).tdiv (wrap32 (layout.stripeSize * layout.stripeCount)))
    (by rw [Int.natAbs_tdiv]; exact Nat.div_le_self _ _)
  generalize (position : ℤ).tdiv (wrap32 (layout.stripeSize * layout.stripeCount)) = quotient
    at *
  rw [haddress, wrap64_of_bounds (by omega) (by omega), Nat.cast_add, add_left_inj] at hfilePos
  exact (mul_right_cancel₀ (Nat.cast_ne_zero.mpr layout.stripeSize_pos.ne') hfilePos).symm

theorem stride_fits_of_correct :
    (layout.stripeSize : ℤ) * layout.stripeCount < 2 ^ 31 ∨
      (layout.stripeSize : ℤ) = CHUNKSIZE ∧ (layout.stripeCount : ℤ) = 32 := by
  rcases Nat.lt_or_ge (layout.stripeSize * layout.stripeCount) (2 ^ 31) with hsmall | hlarge
  · exact .inl (by exact_mod_cast hsmall)
  · have hone : 1 < layout.blockSize :=
      (show 1 < 2 ^ 31 by decide).trans_le
        (hlarge.trans (Nat.le_mul_of_pos_right _ layout.strides_pos))
    apply stride_fits_of_div hchunk <;> rw [Nat.cast_mul]
    · exact (div_stride_of_correct hchunk hcount hcorrect Nat.one_pos hone).1
    · intro position hposition _
      rcases position.eq_zero_or_pos with rfl | hpositive
      · simp
      · exact (div_stride_of_correct hchunk hcount hcorrect hpositive hposition).2

end Correct

end Layout

/-! ## The main result -/

/-- For valid parameters, the iterator agrees with the closed form along every
run, and `SetPos` addresses exactly the data chunks, if and only if the 32 bit
members of the constructor fit. -/
theorem addressingCorrect_iff_membersFit {stripeSize stripeCount recoveryStripeCount : ℤ}
    (hvalid : ValidParameters stripeSize stripeCount recoveryStripeCount) :
    AddressingCorrect stripeSize stripeCount recoveryStripeCount ↔
      MembersFit stripeSize stripeCount recoveryStripeCount := by
  have hrecovery := hvalid.recoveryStripeCount_lt
  obtain ⟨layout, rfl, rfl, rfl, hchunk, hcount, -⟩ := hvalid.exists_layout
  constructor
  · intro hcorrect
    exact ⟨stride_fits_of_correct hchunk hcount hcorrect,
      counts_fit_of_correct hchunk hcount hcorrect (by exact_mod_cast hrecovery)⟩
  · intro hfit
    exact addressingCorrect_of_implements hchunk hcount
      (implements_create hchunk hcount hfit)

/-- The usual parameters: stripes of 64 KB, six data and three recovery
stripes. -/
theorem addressingCorrect_six_three : MembersFit 65536 6 3 ∧ AddressingCorrect 65536 6 3 :=
  have hvalid : ValidParameters 65536 6 3 := ⟨⟨2, by decide, by decide⟩, by decide, by decide⟩
  have hfit : MembersFit 65536 6 3 := ⟨.inl (by decide), by decide⟩
  ⟨hfit, (addressingCorrect_iff_membersFit hvalid).mpr hfit⟩

/-- With 33 stripes of a whole chunk the stride size wraps to a negative
number, and `SetPos` gives the stripes 30 and 31 the same file position. -/
theorem not_addressingCorrect_chunk_stripes :
    ValidParameters CHUNKSIZE 33 0 ∧
      filePosAt CHUNKSIZE 33 0 (31 * CHUNKSIZE) = some (30 * CHUNKSIZE) ∧
      filePosAt CHUNKSIZE 33 0 (30 * CHUNKSIZE) = some (30 * CHUNKSIZE) ∧
      ¬ AddressingCorrect CHUNKSIZE 33 0 := by
  refine ⟨⟨⟨2, by decide, by decide⟩, by decide, by decide⟩, by decide, by decide, ?_⟩
  intro hcorrect
  have hsame := hcorrect.filePosAt_injective (31 * CHUNKSIZE) (30 * CHUNKSIZE)
    ⟨by decide, by decide, by decide⟩ ⟨by decide, by decide, by decide⟩
    (by decide)
  exact absurd hsame (by decide)

end QfsRepair.Striping
