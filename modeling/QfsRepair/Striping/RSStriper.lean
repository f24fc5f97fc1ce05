import Mathlib.Tactic.Ring

/-!
# The stripe iterator of the client library

`ValidateStripeParameters` of `kfstypes.h` and the positioning part of the
class `RSStriper`.  Members of type `int` are integers wrapped to 32 bits
where the constructor computes them, `Offset` members are wrapped to 64 bits
after every assignment, and `/` and `%` truncate.  A failed assertion or a
division by zero has no result.
-/

namespace QfsRepair.Striping

def wrap32 (value : ℤ) : ℤ := Int.bmod value (2 ^ 32)

def wrap64 (value : ℤ) : ℤ := Int.bmod value (2 ^ 64)

/-- `CHUNKSIZE`, 64 MB. -/
def CHUNKSIZE : ℤ := 2 ^ 26

/-- `KFS_STRIPED_FILE_TYPE_NONE`; the two Reed-Solomon types follow it. -/
def stripedFileTypeNone : ℤ := 1

def stripedFileTypeCount : ℤ := 4

/-- `KFS_STRIPE_ALIGNMENT`, also the smallest stripe size. -/
def stripeAlignment : ℤ := 4096

/-- `ValidateStripeParameters`. -/
def validateStripeParameters (stripedFileType stripeCount recoveryStripeCount
    stripeSize : ℤ) : Bool :=
  stripedFileType = stripedFileTypeNone ||
    (0 < stripedFileType && stripedFileType < stripedFileTypeCount &&
      stripeAlignment ≤ stripeSize && stripeSize ≤ CHUNKSIZE && 0 < stripeCount &&
      stripeSize.tmod stripeAlignment = 0 && CHUNKSIZE.tmod stripeSize = 0 &&
      0 ≤ recoveryStripeCount)

/-- The constant members. -/
structure RSStriper where
  stripeSize : ℤ
  stripeCount : ℤ
  recoveryStripeCount : ℤ
  strideSize : ℤ
  chunkBlockSize : ℤ
  chunkBlockTotalSize : ℤ
  deriving DecidableEq

/-- The iterator members. -/
structure StripePosition where
  pos : ℤ
  chunkBlockPos : ℤ
  stripePos : ℤ
  stripeIdx : ℤ
  chunkBlockStartFilePos : ℤ
  filePos : ℤ
  deriving DecidableEq

namespace RSStriper

/-- The constructor; the products of `int`s and the sum of the counts are
taken in 32 bits. -/
def create (stripeSize stripeCount recoveryStripeCount : ℤ) : RSStriper where
  stripeSize := stripeSize
  stripeCount := stripeCount
  recoveryStripeCount := recoveryStripeCount
  strideSize := wrap32 (stripeSize * stripeCount)
  chunkBlockSize := wrap64 (CHUNKSIZE * stripeCount)
  chunkBlockTotalSize := wrap64 (CHUNKSIZE * wrap32 (stripeCount + recoveryStripeCount))

/-- The iterator as constructed. -/
def start : StripePosition := ⟨0, 0, 0, 0, 0, 0⟩

variable (striper : RSStriper)

/-- The assignments of `SetPos` in order. -/
def computePos (inPos : ℤ) : StripePosition :=
  let chunkBlockPos := inPos.tmod striper.chunkBlockSize
  let stripePos := chunkBlockPos.tmod striper.stripeSize
  let stripeIdx := (chunkBlockPos.tdiv striper.stripeSize).tmod striper.stripeCount
  let chunkBlockStartFilePos :=
    wrap64 (inPos.tdiv striper.chunkBlockSize * striper.chunkBlockTotalSize)
  { pos := inPos
    chunkBlockPos := chunkBlockPos
    stripePos := stripePos
    stripeIdx := stripeIdx
    chunkBlockStartFilePos := chunkBlockStartFilePos
    filePos := wrap64 (chunkBlockStartFilePos +
      chunkBlockPos.tdiv striper.strideSize * striper.stripeSize +
      stripeIdx * CHUNKSIZE + stripePos) }

def setPos (state : StripePosition) (inPos : ℤ) : Option StripePosition :=
  if inPos < 0 then none
  else if state.pos = inPos then some state
  else if striper.chunkBlockSize = 0 ∨ striper.stripeSize = 0 ∨
      striper.stripeCount = 0 ∨ striper.strideSize = 0 then none
  else some (striper.computePos inPos)

/-- The assignments of `SeekStripe` in order; the flag tells that the next
chunk block starts. -/
def advance (state : StripePosition) (inCount : ℤ) : StripePosition × Bool :=
  let state := { state with
    pos := wrap64 (state.pos + inCount)
    chunkBlockPos := wrap64 (state.chunkBlockPos + inCount)
    stripePos := wrap64 (state.stripePos + inCount)
    filePos := wrap64 (state.filePos + inCount) }
  if state.stripePos < striper.stripeSize then (state, false)
  else
    let state := { state with
      stripePos := 0
      filePos := wrap64 (state.filePos + (CHUNKSIZE - striper.stripeSize))
      stripeIdx := wrap64 (state.stripeIdx + 1) }
    if state.stripeIdx < striper.stripeCount then (state, false)
    else
      let state := { state with
        stripeIdx := 0
        filePos := wrap64 (state.filePos - (striper.chunkBlockSize - striper.stripeSize)) }
      if striper.chunkBlockSize ≤ state.chunkBlockPos then
        let filePos := wrap64 (state.filePos + (striper.chunkBlockTotalSize - CHUNKSIZE))
        ({ state with
          chunkBlockPos := 0
          filePos := filePos
          chunkBlockStartFilePos := filePos }, true)
      else (state, false)

/-- The condition under which `SeekStripe` may be called. -/
def WithinStripe (state : StripePosition) (inCount : ℤ) : Prop :=
  0 ≤ inCount ∧ wrap64 (state.stripePos + inCount) ≤ striper.stripeSize

instance (state : StripePosition) (inCount : ℤ) :
    Decidable (striper.WithinStripe state inCount) :=
  inferInstanceAs (Decidable (_ ∧ _))

def seekStripe (state : StripePosition) (inCount : ℤ) : Option (StripePosition × Bool) :=
  if striper.WithinStripe state inCount then some (striper.advance state inCount) else none

def seek (state : StripePosition) (inCount : ℤ) : Option (StripePosition × Bool) :=
  if striper.WithinStripe state inCount then striper.seekStripe state inCount
  else (striper.setPos state (wrap64 (state.pos + inCount))).map fun state => (state, true)

end RSStriper

end QfsRepair.Striping
