import QfsRepair.Striping.RSStriper
import Mathlib.Data.Prod.Lex

/-!
# Items of the metadata tree

The three kinds of leaves of the metadata tree, directory entries, file
attributes and chunk infos, as `meta.h` declares them.  A pointer to a file
attribute is the id of the attribute.  Identifiers, offsets and times are
integers; the bit fields of an attribute keep their widths where a value is
assigned to them.
-/

namespace QfsRepair.Meta

open Striping (CHUNKSIZE wrap64 stripedFileTypeNone validateStripeParameters)

abbrev Name := List Char

/-- `ROOTFID`. -/
def rootFid : ℤ := 2

def userRoot : ℕ := 0
def userNone : ℕ := 2 ^ 32 - 1
def groupRoot : ℕ := 0
def groupNone : ℕ := 2 ^ 32 - 1
def modeUndef : ℕ := 2 ^ 16 - 1

/-- `kKfsSTierMin`, `kKfsSTierMax` and `kKfsSTierUndef`. -/
def sTierMin : ℤ := 0
def sTierMax : ℤ := 15
def sTierUndef : ℤ := 127

/-- `chunkStartOffset`; the division is unsigned and `CHUNKSIZE` divides
`2 ^ 64`, so it rounds down for negative offsets as well. -/
def chunkStartOffset (offset : ℤ) : ℤ := offset / CHUNKSIZE * CHUNKSIZE

inductive FileType where
  | file
  | dir
  deriving DecidableEq

/-! ## File attributes -/

/-- `MetaFattr`.  `subcount1` is the number of chunks of a file and the number
of files below a directory, `subcount2` the next chunk offset and the number
of directories. -/
structure Fattr where
  id : ℤ
  type : FileType
  striperType : ℤ := stripedFileTypeNone
  numReplicas : ℤ
  numRecoveryStripes : ℤ := 0
  numStripes : ℤ := 0
  stripeSize : ℤ := 0
  mtime : ℤ
  ctime : ℤ
  crtime : ℤ
  subcount1 : ℤ := 0
  subcount2 : ℤ := 0
  filesize : ℤ := 0
  minSTier : ℤ := sTierMax
  maxSTier : ℤ := sTierMax
  user : ℕ
  group : ℕ
  mode : ℕ
  parent : Option ℤ := Option.none
  deriving DecidableEq

namespace Fattr

/-- The constructor of `MetaFattr` that takes the time of the clock. -/
def create (type : FileType) (id numReplicas : ℤ) (user group mode : ℕ) (now : ℤ) : Fattr where
  id := id
  type := type
  numReplicas := numReplicas % 2 ^ 14
  mtime := now
  ctime := now
  crtime := now
  user := user
  group := group
  mode := mode

variable (fattr : Fattr)

def chunkcount : ℤ := fattr.subcount1
def nextChunkOffset : ℤ := fattr.subcount2
def fileCount : ℤ := fattr.subcount1
def dirCount : ℤ := fattr.subcount2

def IsStriped : Prop := fattr.striperType ≠ stripedFileTypeNone

instance : Decidable fattr.IsStriped := inferInstanceAs (Decidable (_ ≠ _))

def chunkPosToChunkBlkIndex (offset : ℤ) : ℤ :=
  let idx := offset.tdiv CHUNKSIZE
  if fattr.numStripes ≤ 0 then idx
  else idx.tdiv (fattr.numStripes + fattr.numRecoveryStripes)

def filePosToChunkBlkIndex (offset : ℤ) : ℤ :=
  let idx := offset.tdiv CHUNKSIZE
  if fattr.numStripes ≤ 0 then idx else idx.tdiv fattr.numStripes

def chunkBlkSize : ℤ :=
  CHUNKSIZE * if fattr.numStripes ≤ 0 then 1
    else fattr.numStripes + fattr.numRecoveryStripes

def chunkPosToChunkBlkStartPos (offset : ℤ) : ℤ :=
  fattr.chunkPosToChunkBlkIndex offset * fattr.chunkBlkSize

def chunkPosToChunkBlkFileStartPos (offset : ℤ) : ℤ :=
  fattr.chunkPosToChunkBlkIndex offset * CHUNKSIZE * fattr.numStripes

def lastChunkBlkIndex : ℤ := fattr.chunkPosToChunkBlkIndex (fattr.nextChunkOffset - 1)

/-- `SetStriped`; without a result the parameters are refused. -/
def setStriped (type count recoveryCount size : ℤ) : Option Fattr :=
  if type = stripedFileTypeNone then
    some { fattr with
      striperType := stripedFileTypeNone
      numStripes := 0
      numRecoveryStripes := 0
      stripeSize := 0 }
  else if ¬ validateStripeParameters type count recoveryCount size then Option.none
  -- the comparisons with the bit fields of 9, 7 and 27 bits
  else if count ≠ count % 2 ^ 9 ∨ recoveryCount ≠ recoveryCount % 2 ^ 7 ∨
      size ≠ size % 2 ^ 27 then Option.none
  else
    some { fattr with
      striperType := type
      numStripes := count
      numRecoveryStripes := recoveryCount
      stripeSize := size }

/-- `getFileSize`: a size that is not known is kept as its complement. -/
def getFileSize : ℤ := if 0 ≤ fattr.filesize then fattr.filesize else -1 - fattr.filesize

def invalidateFileSize : Fattr := { fattr with filesize := -(fattr.filesize + 1) }

/-! ### Permissions -/

/-- `GetPermissions`; membership in groups is looked up in `isGroupMember`. -/
def getPermissions (isGroupMember : ℕ → ℕ → Bool) (euser egroup : ℕ) : ℕ :=
  if fattr.user = euser then fattr.mode >>> 6 &&& 7
  else if fattr.group = egroup ∨ isGroupMember euser fattr.group then fattr.mode >>> 3 &&& 7
  else fattr.mode &&& 7

def access (isGroupMember : ℕ → ℕ → Bool) (euser egroup permission : ℕ) : Bool :=
  euser = userRoot ||
    fattr.getPermissions isGroupMember euser egroup &&& permission ≠ 0

def canWrite (isGroupMember : ℕ → ℕ → Bool) (euser egroup : ℕ) : Bool :=
  fattr.access isGroupMember euser egroup 2

def canSearch (isGroupMember : ℕ → ℕ → Bool) (euser egroup : ℕ) : Bool :=
  fattr.access isGroupMember euser egroup 1

def isSticky : Bool := fattr.mode ≠ modeUndef && fattr.mode &&& 512 ≠ 0

@[simp]
theorem canSearch_root (isGroupMember : ℕ → ℕ → Bool) (egroup : ℕ) :
    fattr.canSearch isGroupMember userRoot egroup = true := by
  simp [canSearch, access]

end Fattr

/-! ## Directory entries and chunk infos -/

/-- `MetaDentry`: a name in the directory `dir` for the object `id`. -/
structure Dentry where
  id : ℤ
  dir : ℤ
  name : Name
  deriving DecidableEq

/-- `MetaChunkInfo`; `fid` is the id of the attribute it points to. -/
structure ChunkInfo where
  fid : ℤ
  offset : ℤ
  chunkId : ℤ
  chunkVersion : ℤ
  deriving DecidableEq

/-- A leaf of the tree. -/
inductive Item where
  | fattr (fattr : Fattr)
  | chunkInfo (chunk : ChunkInfo)
  | dentry (dentry : Dentry)
  deriving DecidableEq

/-! ## Keys -/

/-- The 16 bits `get16bits` reads. -/
def get16bits (low high : Char) : ℕ := high.toNat % 2 ^ 8 * 2 ^ 8 + low.toNat % 2 ^ 8

/-- The sign extension of a `char`, in 32 bits. -/
def signedChar (char : Char) : ℕ :=
  let byte := char.toNat % 2 ^ 8
  if byte < 2 ^ 7 then byte else 2 ^ 32 - 2 ^ 8 + byte

/-- The main loop and the end cases of `SuperFastHash`. -/
def superFastHashLoop : Name → ℕ → ℕ
  | char0 :: char1 :: char2 :: char3 :: rest, hash =>
    let hash := (hash + get16bits char0 char1) % 2 ^ 32
    let tmp := (get16bits char2 char3 <<< 11) ^^^ hash
    let hash := ((hash <<< 16) ^^^ tmp) % 2 ^ 32
    superFastHashLoop rest ((hash + hash >>> 11) % 2 ^ 32)
  | [char0, char1, char2], hash =>
    let hash := (hash + get16bits char0 char1) % 2 ^ 32
    let hash := (hash ^^^ (hash <<< 16)) % 2 ^ 32
    let hash := (hash ^^^ (signedChar char2 <<< 18)) % 2 ^ 32
    (hash + hash >>> 11) % 2 ^ 32
  | [char0, char1], hash =>
    let hash := (hash + get16bits char0 char1) % 2 ^ 32
    let hash := (hash ^^^ (hash <<< 11)) % 2 ^ 32
    (hash + hash >>> 17) % 2 ^ 32
  | [char0], hash =>
    let hash := (hash + signedChar char0) % 2 ^ 32
    let hash := (hash ^^^ (hash <<< 10)) % 2 ^ 32
    (hash + hash >>> 1) % 2 ^ 32
  | [], hash => hash

/-- `SuperFastHash`, the hash of the names of a directory. -/
def superFastHash (name : Name) : ℕ :=
  if name = [] then 0
  else
    let hash := superFastHashLoop name (name.length % 2 ^ 32)
    let hash := (hash ^^^ (hash <<< 3)) % 2 ^ 32
    let hash := (hash + hash >>> 5) % 2 ^ 32
    let hash := (hash ^^^ (hash <<< 4)) % 2 ^ 32
    let hash := (hash + hash >>> 17) % 2 ^ 32
    let hash := (hash ^^^ (hash <<< 25)) % 2 ^ 32
    (hash + hash >>> 6) % 2 ^ 32

/-- The order of `Key`: owner, then hash or offset without the four low bits,
then kind. -/
abbrev Key := ℤ ×ₗ ℤ ×ₗ ℕ

def Item.key : Item → Key
  | fattr fa => toLex (fa.id, toLex (0, 0))
  | chunkInfo ci => toLex (ci.fid, toLex (ci.offset / 2 ^ 4, 1))
  | dentry d => toLex (d.dir, toLex ((superFastHash d.name : ℤ), 2))

/-- `match` of an item against the item a deletion is given, besides the
keys. -/
def Item.matches : Item → Item → Bool
  | fattr left, fattr right => left.id = right.id
  | chunkInfo left, chunkInfo right => left.fid = right.fid
  | dentry left, dentry right => left.name = right.name
  | _, _ => false

end QfsRepair.Meta
