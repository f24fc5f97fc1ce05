import QfsRepair.Machine.Fragments
import QfsRepair.Striping.RSStriper
import QfsRepair.Text.Decimal
import Mathlib.Data.BitVec

/-!
# The striping writer of the client library

The class `RSWriteStriper`.  Data is dealt out to one buffer per data stripe,
the recovery buffers are filled stride by stride, and the buffers are handed to
the chunk writers with `QueueWrite`.  A flush within a stride pads the stride
with zeros, writes the data without the padding, and keeps the head of the
stride for the data that follows.

The division of a buffer into fragments is an argument of each call; all other
functions of an `IOBuffer` depend on its bytes only.  `QCRTASSERT`,
`InternalError` and the dereference of an end iterator have no result,
`QCASSERT` has no effect.
-/

namespace QfsRepair.Striping

open Function
open Machine Text

abbrev Byte := BitVec 8

/-- `CHECKSUM_BLOCKSIZE`. -/
def CHECKSUM_BLOCKSIZE : ℤ := 65536

/-- The encoder works on memory that is aligned to this size. -/
def kAlign : ℕ := 16

def kTempBufSize : ℤ := 256

/-- `-EINVAL`. -/
def kErrorParameters : ℤ := -22

/-- `Buffer`, without the iterator that every use sets first. -/
structure WriteBuffer where
  endPos : ℤ := 0
  bytes : List Byte := []
  writeLen : ℤ := 0
  deriving DecidableEq

/-- A chunk write as it is handed to the chunk writer. -/
structure QueuedWrite where
  offset : ℤ
  bytes : List Byte
  chunkIndex : ℤ
  stripeIdentifier : ℤ
  deriving DecidableEq

/-- The members that change, and the writes queued so far. -/
structure RSWriteStriper where
  fileSize : ℤ
  pendingCount : ℤ := 0
  offset : ℤ := 0
  recoveryEndPos : ℤ := 0
  lastPartialFlushPos : ℤ := 0
  writeFailures : List ℤ := []
  buffers : ℕ → WriteBuffer := fun _ => {}
  position : StripePosition := RSStriper.start
  queued : List QueuedWrite := []

/-- What the writer is given from outside. -/
structure WriteEnvironment where
  striper : RSStriper
  /-- The recovery bytes of one byte of every data stripe. -/
  encode : (ℕ → Byte) → ℕ → Byte
  /-- The bytes that `QueueWrite` takes, by the writes before, and the offset,
  length and threshold it is given. -/
  queueWrite : List QueuedWrite → ℤ → ℤ → ℤ → ℤ

/-- The arguments of one call of `Process`, the clock, and the division of the
stripe buffers into fragments, by the offset reached and the stripe. -/
structure ProcessCall where
  inBuffer : List Byte
  writeThreshold : ℤ
  now : ℤ
  fragments : ℤ → ℕ → List Byte → List (Fragment Byte)
  contents_fragments : ∀ offset index bytes,
    Machine.contents (fragments offset index bytes) = bytes

/-- Data stripes. -/
def RSStriper.dataCount (striper : RSStriper) : ℕ := striper.stripeCount.toNat

/-- Recovery stripes. -/
def RSStriper.recoveryCount (striper : RSStriper) : ℕ := striper.recoveryStripeCount.toNat

namespace RSWriteStriper

def create (fileSize : ℤ) : RSWriteStriper where
  fileSize := fileSize

def isChunkWriterFailed (state : RSWriteStriper) (inOffset : ℤ) : Bool :=
  state.writeFailures.any fun failure => failure ≤ inOffset ∧ inOffset < failure + CHUNKSIZE

def setBuffer (state : RSWriteStriper) (index : ℕ) (buffer : WriteBuffer) : RSWriteStriper :=
  { state with buffers := update state.buffers index buffer }

end RSWriteStriper

/-- The identifier of a call: the time and the counter written one after the
other, read as one number. -/
def stripeIdentifierOf (now count : ℤ) : ℤ := strtoll (decimalInt now ++ decimalInt count)

/-! ## Writing buffers -/

section

variable (env : WriteEnvironment)

/-- `Write`. -/
def write (inBuffer : WriteBuffer) (inWriteThreshold chunkIndex stripeIdentifier : ℤ)
    (state : RSWriteStriper) : Option (WriteBuffer × RSWriteStriper) :=
  if inBuffer.writeLen < 0 then some (inBuffer, state)
  else
    let offset := inBuffer.endPos - inBuffer.bytes.length
    if state.isChunkWriterFailed offset then
      let discCnt := min inBuffer.writeLen inBuffer.bytes.length
      some ({ inBuffer with
          bytes := inBuffer.bytes.drop discCnt.toNat
          writeLen := inBuffer.writeLen - discCnt },
        { state with pendingCount := state.pendingCount - discCnt })
    else
      let queuedCount := env.queueWrite state.queued offset inBuffer.writeLen inWriteThreshold
      if inBuffer.writeLen < queuedCount ∨ (inBuffer.bytes.length : ℤ) < queuedCount then none
      else if queuedCount ≤ 0 then some (inBuffer, state)
      else
        some ({ inBuffer with
            bytes := inBuffer.bytes.drop queuedCount.toNat
            writeLen := inBuffer.writeLen - queuedCount },
          { state with
            pendingCount := state.pendingCount - queuedCount
            queued := state.queued ++
              [⟨offset, inBuffer.bytes.take queuedCount.toNat, chunkIndex, stripeIdentifier⟩] })

/-- `Write(mBuffersPtr[index], ...)`. -/
def writeBuffer (index : ℕ) (inWriteThreshold chunkIndex stripeIdentifier : ℤ)
    (state : RSWriteStriper) : Option RSWriteStriper :=
  (write env (state.buffers index) inWriteThreshold chunkIndex stripeIdentifier state).map
    fun written => written.2.setBuffer index written.1

/-- The loop that writes all buffers. -/
def writeAll (inWriteThreshold stripeIdentifier : ℤ) (state : RSWriteStriper) :
    Option RSWriteStriper :=
  (List.range (env.striper.dataCount + env.striper.recoveryCount)).foldlM
    (fun state index => writeBuffer env index inWriteThreshold index stripeIdentifier state) state

def flushLoop (threshold stripeIdentifier : ℤ) :
    ℕ → ℤ → RSWriteStriper → Option RSWriteStriper
  | 0, _, _ => none
  | rounds + 1, curThreshold, state =>
    if state.pendingCount < threshold then some state
    else do
      let state ← writeAll env curThreshold stripeIdentifier state
      if state.pendingCount < threshold ∨ curThreshold ≤ 0 then some state
      else
        flushLoop threshold stripeIdentifier rounds
          (curThreshold.tdiv (env.striper.dataCount + env.striper.recoveryCount)) state

/-- `Flush`; a positive threshold that is divided does not last longer than its
value. -/
def flush (inWriteThreshold stripeIdentifier : ℤ) (state : RSWriteStriper) :
    Option RSWriteStriper :=
  flushLoop env (max 1 (max (wrap32 (state.offset - state.recoveryEndPos)) inWriteThreshold))
    stripeIdentifier ((max 0 inWriteThreshold).toNat + 1) (max 0 inWriteThreshold) state

/-! ## Dealing out data -/

/-- What `Stripe` does with the buffer of the current stripe before data is
moved there. -/
def makeRoom (state : RSWriteStriper) : Option RSWriteStriper :=
  let index := state.position.stripeIdx.toNat
  if (state.buffers index).endPos ≠ state.position.filePos ∧
      (state.buffers index).bytes ≠ [] then
    if 0 < env.striper.recoveryStripeCount then none
    else writeBuffer env index 0 (-1) (-1) state
  else some state

/-- The rest of the current stripe. -/
def stripeRemaining (state : RSWriteStriper) : ℕ :=
  (env.striper.stripeSize - state.position.stripePos).toNat

/-- Moves data to the buffer of the current stripe. -/
def moveData (moved : List Byte) (state : RSWriteStriper) : RSWriteStriper :=
  let index := state.position.stripeIdx.toNat
  let buffer := state.buffers index
  { state with
    pendingCount := state.pendingCount + moved.length
    buffers := update state.buffers index
      { buffer with
        bytes := buffer.bytes ++ moved
        endPos := state.position.filePos + moved.length } }

/-- The loop of `Stripe`; every round moves a byte at least. -/
def stripeLoop : ℕ → List Byte → RSWriteStriper → Option (List Byte × RSWriteStriper)
  | 0, _, _ => none
  | rounds + 1, inBuffer, state => do
      let state ← makeRoom env state
      let moved := inBuffer.take (stripeRemaining env state)
      let state := moveData moved state
      let next ← env.striper.seekStripe state.position moved.length
      let inBuffer := inBuffer.drop moved.length
      let state := { state with position := next.1 }
      if next.2 ∨ inBuffer = [] then some (inBuffer, state)
      else stripeLoop rounds inBuffer state

/-- `Stripe`: the offset reached, the data left, and the new state. -/
def stripe (inBuffer : List Byte) (inOffset : ℤ) (state : RSWriteStriper) :
    Option (ℤ × List Byte × RSWriteStriper) :=
  if inBuffer = [] then some (inOffset, inBuffer, state)
  else do
    let position ← env.striper.setPos state.position inOffset
    let striped ← stripeLoop env inBuffer.length inBuffer { state with position }
    some (striped.2.position.pos, striped)

/-! ## Recovery stripes -/

/-- `mCurIt` and `mCurPos` of a stripe buffer. -/
structure BufferCursor where
  fragments : List (Fragment Byte)
  skip : ℤ

/-- The memory that the encoder reads for one stripe, how many bytes of it at
most, and the cursor.  Fewer than `kAlign` bytes at the end of a fragment, and
bytes at an unaligned address, are copied. -/
def fetch (cursor : BufferCursor) (len : ℤ) : Option (List Byte × ℤ × BufferCursor) :=
  match skipFragments cursor.fragments cursor.skip with
  | none => none
  | some ([], _) => none
  | some (fragment :: rest, skip) =>
    if skip < 0 then none
    else
      let available := fragment.values.drop skip.toNat
      if available.length < kAlign then
        (copyOut rest (kAlign - available.length)).map fun copied =>
          -- the length is subtracted to cancel the step to the next column
          (available ++ copied.1, kAlign, ⟨copied.2.1, copied.2.2 - kAlign⟩)
      else
        let len := min len (available.length - available.length % kAlign : ℕ)
        if (fragment.address + skip.toNat) % kAlign ≠ 0 then
          let len := min kTempBufSize len
          some (available.take len.toNat, len, ⟨fragment :: rest, skip⟩)
        else some (available, len, ⟨fragment :: rest, skip⟩)

def fetchAll : ℤ → List BufferCursor → Option (List (List Byte) × ℤ × List BufferCursor)
  | len, [] => some ([], len, [])
  | len, cursor :: cursors => do
      let first ← fetch cursor len
      let others ← fetchAll first.2.1 cursors
      some (first.1 :: others.1, others.2.1, first.2.2 :: others.2.2)

/-- The encoding loop of `ComputeRecovery`: the recovery bytes of the columns
from `pos` on. -/
def encodeLoop (size : ℤ) : ℕ → ℤ → List BufferCursor → Option (List (ℕ → Byte))
  | 0, pos, _ => if pos < size then none else some []
  | rounds + 1, pos, cursors =>
    if pos < size then do
      let row ← fetchAll (size - pos) cursors
      let len := row.2.1
      let encoded := (List.range len.toNat).map fun column =>
        env.encode fun index => (row.1.getD index []).getD column 0
      let others ← encodeLoop size rounds (pos + len)
        (row.2.2.map fun cursor => ⟨cursor.fragments, cursor.skip + len⟩)
      some (encoded ++ others)
    else some []

/-- The first column of the encoding loop sets the cursors and the lengths to
write. -/
def startStripes (fragments : ℕ → List Byte → List (Fragment Byte)) (size : ℤ) :
    List ℕ → ℤ → (ℕ → WriteBuffer) → List BufferCursor × (ℕ → WriteBuffer)
  | [], _, buffers => ([], buffers)
  | index :: indices, strideHead, buffers =>
    let tail := min strideHead env.striper.stripeSize
    let buffer := buffers index
    let skip := buffer.bytes.length - (size + tail)
    let started := startStripes fragments size indices (strideHead - tail)
      (update buffers index { buffer with writeLen := skip + size })
    (⟨fragments index buffer.bytes, skip⟩ :: started.1, started.2)

/-- The new bytes of a recovery buffer; an empty one is placed behind the chunk
before. -/
def extendRecovery (size : ℤ) (columns : List (ℕ → Byte)) (buffers : ℕ → WriteBuffer)
    (recoveryIndex : ℕ) : ℕ → WriteBuffer :=
  let index := env.striper.dataCount + recoveryIndex
  let buffer := buffers index
  let encoded := columns.map fun column => column recoveryIndex
  if buffer.bytes = [] then
    let pos := (buffers (index - 1)).endPos + CHUNKSIZE
    let endPos := if recoveryIndex = 0 then pos - pos.tmod env.striper.stripeSize else pos
    update buffers index { endPos, bytes := encoded, writeLen := size }
  else
    update buffers index
      { endPos := buffer.endPos + size
        bytes := buffer.bytes ++ encoded
        writeLen := buffer.writeLen + size }

/-- Bytes in the buffers of the given stripes. -/
def bufferedBytes (buffers : ℕ → WriteBuffer) (indices : List ℕ) : ℤ :=
  (indices.map fun index => ((buffers index).bytes.length : ℤ)).sum

/-- `TrimBufferFront`: the buffer, the part of the stride left to trim, and the
pending count. -/
def trimBufferFront (inBuf : WriteBuffer) (strideTrim pendingCount : ℤ) :
    WriteBuffer × ℤ × ℤ :=
  if strideTrim ≤ 0 then (inBuf, strideTrim, pendingCount)
  else
    let trim := min strideTrim env.striper.stripeSize
    let rest := strideTrim - trim
    let checksumBlockHead :=
      (trim + inBuf.endPos - inBuf.bytes.length).tmod CHECKSUM_BLOCKSIZE
    if checksumBlockHead ≤ trim ∧ trim - checksumBlockHead ≤ 0 then (inBuf, rest, pendingCount)
    else
      let trim := if checksumBlockHead ≤ trim then trim - checksumBlockHead else trim
      let trim := min trim inBuf.bytes.length
      ({ inBuf with
          bytes := inBuf.bytes.drop trim.toNat
          writeLen := inBuf.writeLen - trim },
        rest, pendingCount - trim)

/-- The loop that trims the data buffers. -/
def trimStripes : List ℕ → ℤ → ℤ → (ℕ → WriteBuffer) → ℤ × (ℕ → WriteBuffer)
  | [], _, pendingCount, buffers => (pendingCount, buffers)
  | index :: indices, head, pendingCount, buffers =>
    let trimmed := trimBufferFront env (buffers index) head pendingCount
    trimStripes indices trimmed.2.1 trimmed.2.2 (update buffers index trimmed.1)

/-- The end of `ComputeRecovery`: data of the last stride that was written with a
partial flush is trimmed; with `padded` its size is left to the caller. -/
def trimFlushed (padded : Bool) (state : RSWriteStriper) : Option (ℤ × RSWriteStriper) :=
  let strideSize := env.striper.strideSize
  if state.recoveryEndPos < state.lastPartialFlushPos + strideSize then
    let head := wrap32 (state.lastPartialFlushPos + strideSize - state.recoveryEndPos)
    if head ≤ 0 ∨ strideSize ≤ head then none
    else if padded then some (head, state)
    else
      let trimmed := trimStripes env (List.range env.striper.dataCount) head state.pendingCount
        state.buffers
      some (0, { state with pendingCount := trimmed.1, buffers := trimmed.2 })
  else some (0, state)

/-- `ComputeRecovery`: the part of the stride that the caller has to trim, and
the state. -/
def computeRecovery (fragments : ℕ → List Byte → List (Fragment Byte)) (padded : Bool)
    (state : RSWriteStriper) : Option (ℤ × RSWriteStriper) :=
  let striper := env.striper
  if striper.recoveryStripeCount ≤ 0 then
    let buffers := fun index =>
      if index < striper.dataCount then
        { state.buffers index with writeLen := (state.buffers index).bytes.length }
      else state.buffers index
    some (0, { state with buffers, recoveryEndPos := state.offset })
  else if state.offset < state.recoveryEndPos + striper.strideSize then some (0, state)
  else if striper.strideSize = 0 then none
  else
    let strideHead := wrap32 (state.offset.tmod striper.strideSize)
    let totalSize := wrap32 (state.offset - strideHead - state.recoveryEndPos)
    let size := totalSize.tdiv striper.stripeCount
    if size < 0 then none
    else do
      let dataIndices := if 0 < size then List.range striper.dataCount else []
      let started := startStripes env fragments size dataIndices strideHead state.buffers
      let columns ← encodeLoop env size size.toNat 0 started.1
      let buffers := (List.range striper.recoveryCount).foldl
        (extendRecovery env size columns) started.2
      let pendingCount := bufferedBytes buffers dataIndices +
        bufferedBytes buffers (List.range' striper.dataCount striper.recoveryCount)
      trimFlushed env padded
        { state with buffers, pendingCount, recoveryEndPos := state.recoveryEndPos + totalSize }

/-! ## Process -/

/-- The loop of `Process` over the chunk blocks: the offset reached and the
state. -/
def fillBlocks (fragments : ℤ → ℕ → List Byte → List (Fragment Byte)) (stripeIdentifier : ℤ) :
    ℕ → List Byte → ℤ → RSWriteStriper → Option (ℤ × RSWriteStriper)
  | 0, inBuffer, ioOffset, state => if inBuffer = [] then some (ioOffset, state) else none
  | rounds + 1, inBuffer, ioOffset, state =>
    if inBuffer = [] then some (ioOffset, state)
    else do
      let striped ← stripe env inBuffer ioOffset state
      let offset := striped.1
      let state := { striped.2.2 with offset, fileSize := max striped.2.2.fileSize offset }
      let recovered ← computeRecovery env (fragments offset) false state
      let state := recovered.2
      if striped.2.1 = [] then some (offset, state)
      else if offset.tmod (CHUNKSIZE * env.striper.stripeCount) ≠ 0 ∨
          offset ≠ state.recoveryEndPos then none
      else do
        let state ← writeAll env 0 stripeIdentifier state
        fillBlocks fragments stripeIdentifier rounds striped.2.1 offset state

/-- The zeros behind the data, in pieces of `bufSize` bytes. -/
def padLoop (bufSize : ℕ) :
    ℕ → ℤ → ℕ → List Byte → RSWriteStriper → Option RSWriteStriper
  | 0, rem, _, _, state => if 0 < rem then none else some state
  | rounds + 1, rem, align, ioBuf, state =>
    if 0 < rem then do
      let ioBuf := ((ioBuf ++ List.replicate bufSize 0).drop align).take rem.toNat
      let striped ← stripe env ioBuf state.offset state
      padLoop bufSize rounds (rem - ioBuf.length) 0 striped.2.1
        { striped.2.2 with offset := striped.1 }
    else some state

/-- Writes a data buffer without the padding, and keeps the head of the stride; the
trim that is left for the next stripes is returned. -/
def writePaddedStripe (index : ℕ) (headSize frontTrim : ℤ) (state : RSWriteStriper) :
    Option (ℤ × RSWriteStriper) :=
  let bPaddSize := env.striper.stripeSize - headSize
  let buffer := state.buffers index
  let len := buffer.bytes.length - bPaddSize
  let bytes := buffer.bytes.take len.toNat
  if 0 < len then
    let endPos := buffer.endPos - bPaddSize
    let trimmed := trimBufferFront env { endPos, bytes, writeLen := len } frontTrim
      state.pendingCount
    (write env trimmed.1 0 (-1) (-1) { state with pendingCount := trimmed.2.2 }).map
      fun written => (trimmed.2.1, written.2.setBuffer index
        { endPos, bytes := bytes.drop (len - headSize).toNat, writeLen := 0 })
  else some (frontTrim, state.setBuffer index { endPos := 0, bytes, writeLen := 0 })

def writePadded : List ℕ → ℤ → ℤ → RSWriteStriper → Option RSWriteStriper
  | [], _, _, state => some state
  | index :: indices, strideHead, frontTrim, state => do
      let headSize := min strideHead env.striper.stripeSize
      let written ← writePaddedStripe env index headSize frontTrim state
      writePadded indices (strideHead - headSize) written.1 written.2

/-- Writes a recovery buffer without the part that stands for padding only. -/
def writeRecovery (recoveryPadd : ℤ) (state : RSWriteStriper) (index : ℕ) :
    Option RSWriteStriper :=
  let buffer := state.buffers index
  let writeLen := buffer.writeLen - recoveryPadd
  writeBuffer env index 0 (-1) (-1)
    ({ state with pendingCount := state.pendingCount - recoveryPadd }.setBuffer index
      { endPos := buffer.endPos - recoveryPadd
        bytes := buffer.bytes.take writeLen.toNat
        writeLen })

/-- The last part of `Process`: pads the stride, computes the recovery stripes,
undoes the padding and writes all buffers. -/
def flushPartial (fragments : ℤ → ℕ → List Byte → List (Fragment Byte))
    (state : RSWriteStriper) : Option RSWriteStriper := do
  let striper := env.striper
  if striper.strideSize = 0 then none
  else
    let paddSize := wrap32 (striper.strideSize - state.offset.tmod striper.strideSize)
    let align := (state.offset.tmod kAlign).toNat
    let bufSize := (min paddSize 4096).toNat
    let position ← striper.setPos state.position state.offset
    let state := { state with position }
    let recoveryPadd :=
      if 0 < position.stripeIdx then 0 else (stripeRemaining env state : ℤ)
    let state ← padLoop env bufSize (paddSize.toNat + 1) paddSize align [] state
    let recovered ← computeRecovery env (fragments state.offset) true state
    let state := recovered.2
    if state.offset ≠ state.recoveryEndPos ∨ state.offset.tmod striper.strideSize ≠ 0 then none
    else
      let state := { state with
        offset := state.offset - paddSize
        pendingCount := state.pendingCount - paddSize
        recoveryEndPos := state.recoveryEndPos - striper.strideSize }
      let state ← writePadded env (List.range striper.dataCount)
        (striper.strideSize - paddSize) recovered.1 state
      let state ← (List.range' striper.dataCount striper.recoveryCount).foldlM
        (writeRecovery env recoveryPadd) state
      some { state with lastPartialFlushPos := state.offset }

/-- A write elsewhere in the file: nothing may be left to encode, and the new
offset starts a stride.  `none` stands for an unsupported write. -/
def reposition (call : ProcessCall) (stripeIdentifier ioOffset : ℤ) (state : RSWriteStriper) :
    Option (Option RSWriteStriper) :=
  if 0 < env.striper.recoveryStripeCount ∧ ioOffset ≠ state.offset then
    if call.inBuffer ≠ [] ∧ state.offset ≤ state.recoveryEndPos ∧
        env.striper.strideSize = 0 then none
    else if call.inBuffer ≠ [] ∧ (state.recoveryEndPos < state.offset ∨
        ioOffset.tmod env.striper.strideSize ≠ 0) then some none
    else
      (flush env 0 stripeIdentifier state).map fun state =>
        some { state with offset := ioOffset, recoveryEndPos := ioOffset }
  else some (some state)

/-- What `Process` returns and leaves behind; `count` is the counter that all
writers share. -/
structure ProcessResult where
  status : ℤ
  count : ℤ
  ioOffset : ℤ
  inBuffer : List Byte
  state : RSWriteStriper

/-- `Process`. -/
def process (call : ProcessCall) (count ioOffset : ℤ) (state : RSWriteStriper) :
    Option ProcessResult :=
  if ioOffset < 0 ∧ call.inBuffer ≠ [] then
    some ⟨kErrorParameters, count, ioOffset, call.inBuffer, state⟩
  else do
    let stripeIdentifier := stripeIdentifierOf call.now count
    let count := wrap32 (count + 1)
    match ← reposition env call stripeIdentifier ioOffset state with
    | none => some ⟨kErrorParameters, count, ioOffset, call.inBuffer, state⟩
    | some state =>
      let filled ← fillBlocks env call.fragments stripeIdentifier call.inBuffer.length
        call.inBuffer ioOffset state
      let state := filled.2
      if state.offset - state.recoveryEndPos < max 1 call.writeThreshold then do
        let state ← flush env call.writeThreshold stripeIdentifier state
        some ⟨0, count, filled.1, [], state⟩
      else if state.offset < state.fileSize then
        some ⟨kErrorParameters, count, filled.1, [], state⟩
      else do
        let state ← flushPartial env call.fragments state
        some ⟨0, count, filled.1, [], state⟩

end

end QfsRepair.Striping
