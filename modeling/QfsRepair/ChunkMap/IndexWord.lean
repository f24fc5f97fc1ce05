import QfsRepair.Machine.PackedWord

/-!
# The server indices of a chunk

`CSMap::Entry` keeps the indices of the servers that host a chunk in one word
of 64 bits: three bits of state, one bit that tells the two forms apart and
either four indices of 15 bits or the address of an array of 16 bit slots.

`none` is undefined behaviour: an access outside the array, an array that is
not at the address in the word, or an array given back to the allocator at the
wrong address or with the wrong size.
-/

namespace QfsRepair.ChunkMap

open Machine.PackedWord

def kIdxBits : ℕ := 15
def kIdxMask : ℕ := 2 ^ kIdxBits - 1
def kFirstIdxShift : ℕ := 64 - kIdxBits
def kMaxNonAllocSrvs : ℕ := 64 / kIdxBits
def kMaxServers : ℕ := kIdxMask
def kSentinel : ℕ := 0
def kStateMask : ℕ := 2 ^ 3 - 1
def kAllocated : ℕ := 2 ^ 3
def kOtherBitsMask : ℕ := 2 ^ 4 - 1
def kAddrAlign : ℕ := 16
def kAddrCapacityPos : ℕ := 0
def kAddrSizePos : ℕ := 1
def kAddrIdxPos : ℕ := 2

/-- `CSMap::Entry::State`. -/
inductive ReplicationState where
  | none
  | checkReplication
  | pendingReplication
  | noDestination
  | pendingRecovery
  | delayedRecovery
  deriving DecidableEq, Repr

/-- The number that stands for a state. -/
def ReplicationState.code : ReplicationState → ℕ
  | none => 0
  | checkReplication => 1
  | pendingReplication => 2
  | noDestination => 3
  | pendingRecovery => 4
  | delayedRecovery => 5

/-! ## Arrays of slots -/

/-- `indexes[position] = value`. -/
def store (slots : List ℕ) (position value : ℕ) : Option (List ℕ) :=
  if position < slots.length then some (slots.set position (value % 2 ^ 16)) else none

/-- `memcpy(indexes + position, prev + start, count)`. -/
def copySlots (slots : List ℕ) (position : ℕ) (prev : List ℕ) (start count : ℕ) :
    Option (List ℕ) :=
  if position + count ≤ slots.length ∧ start + count ≤ prev.length then
    some (slots.take position ++ (prev.drop start).take count ++ slots.drop (position + count))
  else none

/-- `indexes[size++] = idx` for the array at `position`. -/
def appendSlot (slots : List ℕ) (position idx : ℕ) : Option (List ℕ) := do
  let size ← slots[position + kAddrSizePos]?
  let slots ← store slots (position + size) idx
  store slots (position + kAddrSizePos) (size + 1)

/-- The loop that looks for `idx` in `count` slots: the place where it stops. -/
def findSlot (slots : List ℕ) (idx : ℕ) : ℕ → ℕ → Option ℕ
  | 0, i => some i
  | count + 1, i => do
      if (← slots[i]?) = idx then some i else findSlot slots idx count (i + 1)

/-- The loop that moves `count` slots down over the slot `i`. -/
def shiftSlots (slots : List ℕ) : ℕ → ℕ → Option (List ℕ)
  | 0, _ => some slots
  | count + 1, i => do
      let value ← slots[i + 1]?
      let slots ← store slots i value
      shiftSlots slots count (i + 1)

/-- The offset of the array that `AddrGetArray` finds behind the address. -/
def arrayPosition (slots : List ℕ) : Option ℕ :=
  slots[0]?.map fun first => if first &&& complement 16 kIdxMask ≠ 0 then 1 else 0

/-- Memory from the allocator: its address, and what it happens to hold. -/
structure Allocation where
  address : ℕ
  content : ℕ → ℕ
  fits : address + kAddrAlign ≤ 2 ^ 64

/-- The bytes that `AllocateIndexes` skips to align the address. -/
def Allocation.offset (alloc : Allocation) : ℕ :=
  if 0 < alloc.address % kAddrAlign then kAddrAlign - alloc.address % kAddrAlign else 0

/-- An allocated array: the address and the size given to the allocator, the
address in the word, and the slots from there on. -/
structure Block where
  base : ℕ
  bytes : ℕ
  addr : ℕ
  slots : List ℕ

/-- `mIdxData` and the array that belongs to it. -/
structure Entry where
  idxData : ℕ
  block : Option Block

namespace Entry

/-- The constructor: no servers, `kStateNone`. -/
def empty : Entry := ⟨0, none⟩

variable (entry : Entry)

def getState : ℕ := entry.idxData &&& kStateMask

def setState (state : ReplicationState) : Entry :=
  { entry with idxData :=
      (entry.idxData &&& complement 64 kStateMask) ||| (kStateMask &&& state.code) }

def isAddr : Bool := entry.idxData &&& kAllocated ≠ 0

def addrGetIdxPtr : ℕ := entry.idxData &&& complement 64 kOtherBitsMask

/-- The slots that `AddrGetIdxPtr` points to. -/
def addrSlots : Option (List ℕ) :=
  entry.block.bind fun block =>
    if block.addr = entry.addrGetIdxPtr then some block.slots else none

def addrSet (block : Block) : Entry :=
  ⟨(entry.idxData &&& kStateMask) ||| block.addr ||| kAllocated, some block⟩

/-- The address and the size that `AddrClear` gives back to the allocator. -/
def released (addr : ℕ) (slots : List ℕ) : Option (ℤ × ℕ) := do
  let first ← slots[0]?
  if first &&& complement 16 kIdxMask ≠ 0 then
    let off := first &&& kIdxMask
    some ((addr : ℤ) - off, kAddrAlign + ((← slots[1]?) + 1) * 2)
  else some ((addr : ℤ), first * 2)

def addrClear : Option Entry := do
  let block ← entry.block
  let slots ← entry.addrSlots
  if (← released entry.addrGetIdxPtr slots) = ((block.base : ℤ), block.bytes) then
    some ⟨entry.idxData &&& kStateMask, none⟩
  else none

/-- A change of the slots the word points to. -/
def setSlots (slots : List ℕ) : Entry :=
  { entry with block := entry.block.map fun block => { block with slots := slots } }

/-- The indices in the word, as `AllocateIndexes` copies them: `count` of them
from the one at `shift` on. -/
def appendInline (position : ℕ) : ℕ → ℕ → List ℕ → Option (List ℕ)
  | 0, _, slots => some slots
  | count + 1, shift, slots => do
      let slots ← appendSlot slots position ((entry.idxData >>> shift) &&& kIdxMask)
      appendInline position count (shift - kIdxBits) slots

/-- The new array of `AllocateIndexes`, still without indices, and the offset
of the array in it. -/
def newBlock (capacity : ℕ) (alloc : Allocation) : Option (Block × ℕ) := do
  let alloccap := (capacity + 3 + 4 - 1) / 4 * 4
  let bytes := kAddrAlign + alloccap * 2
  let off := alloc.offset
  let fresh := (List.range ((bytes - off) / 2)).map alloc.content
  let marked ← if off ≠ 0 then store fresh 0 (off ||| 1 <<< kIdxBits) else some fresh
  let position := if off ≠ 0 then 1 else 0
  let alloccap := if off ≠ 0 then alloccap - 1 else alloccap + kAddrAlign / 2
  let slots ← store marked (position + kAddrCapacityPos) alloccap
  let slots ← store slots (position + kAddrSizePos) kAddrIdxPos
  some (⟨alloc.address, bytes, alloc.address + off, slots⟩, position)

def allocateIndexes (idx capacity : ℕ) (alloc : Allocation) : Option Entry := do
  let (block, position) ← newBlock capacity alloc
  if entry.isAddr then
    let prev ← entry.addrSlots
    let start ← arrayPosition prev
    let size ← prev[start + kAddrSizePos]?
    if size = 0 then none
    else
      let slots ← copySlots block.slots (position + kAddrSizePos) prev (start + kAddrSizePos)
        (size - 1)
      let slots ← if idx ≠ kSentinel then appendSlot slots position idx else some slots
      let cleared ← entry.addrClear
      some (cleared.addrSet { block with slots := slots })
  else
    let slots ← entry.appendInline position kMaxNonAllocSrvs kFirstIdxShift block.slots
    let slots ← appendSlot slots position idx
    some (entry.addrSet { block with slots := slots })

/-! ## Reading -/

def addrCount : Option ℕ := do
  let slots ← entry.addrSlots
  let size ← slots[(← arrayPosition slots) + kAddrSizePos]?
  some (((size : ℤ) - kAddrIdxPos) % 2 ^ 64).toNat

/-- The loop of `ServerCount` over the indices in the word. -/
def countInline : ℕ → ℕ → ℕ → ℕ
  | 0, _, count => count
  | fuel + 1, mask, count =>
    if mask &&& entry.idxData ≠ 0 then
      countInline fuel ((mask >>> kIdxBits) &&& complement 64 kOtherBitsMask) (count + 1)
    else count

def serverCount : Option ℕ :=
  if entry.isAddr then entry.addrCount
  else some (entry.countInline (kMaxNonAllocSrvs + 1) (kIdxMask <<< kFirstIdxShift) 0)

def addrHasIndex (idx : ℕ) : Option Bool := do
  let slots ← entry.addrSlots
  let position ← arrayPosition slots
  let size ← slots[position + kAddrSizePos]?
  let stop ← findSlot slots idx (size - kAddrIdxPos) (position + kAddrIdxPos)
  some (stop < position + size)

/-- The loop of `HasIndex` over the indices in the word. -/
def hasInline (data : ℕ) : ℕ → ℕ → ℕ → Bool
  | 0, _, _ => false
  | fuel + 1, id, mask =>
    if data &&& mask ≠ 0 then
      if data &&& mask = id then true
      else hasInline data fuel (id >>> kIdxBits) (mask >>> kIdxBits)
    else false

def hasIndex (idx : ℕ) : Option Bool :=
  if kMaxServers ≤ idx then some false
  else if entry.isAddr then entry.addrHasIndex (idx + 1)
  else some (hasInline (entry.idxData &&& complement 64 kOtherBitsMask) (kMaxNonAllocSrvs + 1)
    ((idx + 1) <<< kFirstIdxShift) (kIdxMask <<< kFirstIdxShift))

/-- `id - 1` in `size_t`. -/
def indexOfId (id : ℕ) : ℕ := (((id : ℤ) - 1) % 2 ^ 64).toNat

def indexAt (idx : ℕ) : Option ℕ :=
  if entry.isAddr then do
    let slots ← entry.addrSlots
    let id ← slots[(← arrayPosition slots) + (idx + kAddrIdxPos)]?
    some (indexOfId id)
  else if idx * kIdxBits ≤ kFirstIdxShift then
    some (indexOfId ((entry.idxData >>> (kFirstIdxShift - idx * kIdxBits)) &&& kIdxMask))
  else none

/-! ## Changes -/

def addrAddIndex (idx : ℕ) (alloc : Allocation) : Option (Bool × Entry) := do
  if ← entry.addrHasIndex idx then some (false, entry)
  else
    let slots ← entry.addrSlots
    let position ← arrayPosition slots
    let capacity ← slots[position + kAddrCapacityPos]?
    let size ← slots[position + kAddrSizePos]?
    if size < capacity then
      let slots ← appendSlot slots position idx
      some (true, entry.setSlots slots)
    else
      let entry ← entry.allocateIndexes idx (capacity + 1) alloc
      some (true, entry)

/-- The loop of `AddIndex` over the indices in the word; `none` if it ends
without a decision. -/
def addInline : ℕ → ℕ → ℕ → Option (Bool × Entry)
  | 0, _, _ => none
  | fuel + 1, id, mask =>
    if kIdxMask ≤ mask then
      if entry.idxData &&& mask = 0 then
        some (true, { entry with idxData := entry.idxData ||| id })
      else if entry.idxData &&& mask = id then some (false, entry)
      else addInline fuel (id >>> kIdxBits) (mask >>> kIdxBits)
    else none

def addIndex (idx : ℕ) (alloc : Allocation) : Option (Bool × Entry) :=
  if kMaxServers ≤ idx then some (false, entry)
  else if entry.isAddr then entry.addrAddIndex (idx + 1) alloc
  else
    match entry.addInline (kMaxNonAllocSrvs + 1) ((idx + 1) <<< kFirstIdxShift)
        (kIdxMask <<< kFirstIdxShift) with
    | some result => some result
    | none => (entry.allocateIndexes (idx + 1) (kMaxNonAllocSrvs + 1) alloc).map (true, ·)

/-- The loop of `AddrRemoveIndex` that packs `count` slots into a word. -/
def packSlots (slots : List ℕ) : ℕ → ℕ → ℕ → ℕ → Option ℕ
  | 0, _, _, data => some data
  | count + 1, i, shift, data => do
      let id ← slots[i]?
      packSlots slots count (i + 1) (shift - kIdxBits) (data ||| id <<< shift % 2 ^ 64)

/-- The end of `AddrRemoveIndex`: with `size` slots left the array is given up,
the indices move back into the word, or the array is made smaller. -/
def addrShrink (slots : List ℕ) (position capacity size : ℕ) (alloc : Allocation) :
    Option Entry :=
  if size ≤ kAddrIdxPos then entry.addrClear
  else if size ≤ kMaxNonAllocSrvs + kAddrIdxPos then do
    let data ← packSlots slots (size - kAddrIdxPos) (position + kAddrIdxPos) kFirstIdxShift 0
    let entry ← entry.addrClear
    some { entry with idxData := entry.idxData ||| data }
  else if size ≤ capacity / 2 then entry.allocateIndexes kSentinel (capacity / 2) alloc
  else some entry

def addrRemoveIndex (idx : ℕ) (alloc : Allocation) : Option (Bool × Entry) := do
  let slots ← entry.addrSlots
  let position ← arrayPosition slots
  let capacity ← slots[position + kAddrCapacityPos]?
  let size ← slots[position + kAddrSizePos]?
  let stop ← findSlot slots idx (size - kAddrIdxPos) (position + kAddrIdxPos)
  if position + size ≤ stop then some (false, entry)
  else
    let slots ← shiftSlots slots (position + size - (stop + 1)) stop
    let slots ← store slots (position + kAddrSizePos) (size - 1)
    let entry ← (entry.setSlots slots).addrShrink slots position capacity (size - 1) alloc
    some (true, entry)

/-- The loop of `RemoveIndex` over the indices in the word. -/
def removeInline (data : ℕ) : ℕ → ℕ → ℕ → ℕ → Bool × Entry
  | 0, _, _, _ => (false, entry)
  | fuel + 1, id, mask, shift =>
    if data &&& mask ≠ 0 then
      if data &&& mask = id then
        let lm := 2 ^ shift - 1
        (true, { entry with idxData :=
          (data &&& complement 64 (mask ||| lm)) ||| ((data &&& lm) <<< kIdxBits % 2 ^ 64) |||
            (entry.idxData &&& kOtherBitsMask) })
      else removeInline data fuel (id >>> kIdxBits) (mask >>> kIdxBits) (shift - kIdxBits)
    else (false, entry)

def removeIndex (idx : ℕ) (alloc : Allocation) : Option (Bool × Entry) :=
  if kMaxServers ≤ idx then some (false, entry)
  else if entry.isAddr then entry.addrRemoveIndex (idx + 1) alloc
  else some (entry.removeInline (entry.idxData &&& complement 64 kOtherBitsMask)
    (kMaxNonAllocSrvs + 1) ((idx + 1) <<< kFirstIdxShift) (kIdxMask <<< kFirstIdxShift)
    kFirstIdxShift)

end Entry

end QfsRepair.ChunkMap
