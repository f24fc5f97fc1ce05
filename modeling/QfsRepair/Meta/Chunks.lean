import QfsRepair.Meta.Namespace

/-!
# Operations on the chunks of files

`allocateChunkId`, `assignChunkId`, `coalesceBlocks`, `truncate` and
`pruneFromHead` of the metadata tree.  The sum of an offset and `CHUNKSIZE` is
taken in 64 bits.
-/

namespace QfsRepair.Meta

open Striping (CHUNKSIZE wrap64)

/-! ## Attributes -/

namespace Fattr

/-- The attribute of a file that gets a chunk at `boundary`; `keepSize` tells
that the chunk is appended to, so that the size of the file stays known. -/
def addChunk (boundary : ℤ) (keepSize : Bool) (fa : Fattr) : Fattr :=
  if fa.nextChunkOffset ≤ boundary then
    { fa with
      subcount1 := fa.chunkcount + 1
      subcount2 := wrap64 (boundary + CHUNKSIZE)
      filesize :=
        if ¬ fa.IsStriped ∧ 0 ≤ fa.filesize ∧ ¬ keepSize then -(fa.filesize + 1)
        else fa.filesize }
  else { fa with subcount1 := fa.chunkcount + 1 }

/-- The attribute of the destination of a moved chunk. -/
def takeChunk (boundary : ℤ) (fa : Fattr) : Fattr :=
  { fa with
    subcount1 := fa.chunkcount + 1
    subcount2 :=
      if fa.nextChunkOffset ≤ boundary then wrap64 (boundary + CHUNKSIZE)
      else fa.nextChunkOffset }

/-- The condition under which `coalesceBlocks` refuses striped files. -/
def StripesDiffer (srcFa dstFa : Fattr) : Prop :=
  (srcFa.IsStriped ∨ dstFa.IsStriped) ∧
    (srcFa.striperType ≠ dstFa.striperType ∨ srcFa.numStripes ≠ dstFa.numStripes ∨
      srcFa.numRecoveryStripes ≠ dstFa.numRecoveryStripes ∨
      srcFa.stripeSize ≠ dstFa.stripeSize ∨
      (0 < srcFa.chunkcount ∧ srcFa.filesize < 0) ∨
      (0 < dstFa.chunkcount ∧ dstFa.filesize < 0) ∨
      srcFa.chunkPosToChunkBlkStartPos srcFa.nextChunkOffset ≠ srcFa.nextChunkOffset ∨
      dstFa.chunkPosToChunkBlkStartPos dstFa.nextChunkOffset ≠ dstFa.nextChunkOffset)

instance (srcFa dstFa : Fattr) : Decidable (srcFa.StripesDiffer dstFa) :=
  inferInstanceAs (Decidable (_ ∧ _))

end Fattr

namespace Tree

variable (tree : Tree) (env : Environment)

def findChunk (fid offset : ℤ) : Option ChunkInfo :=
  (tree.getalloc fid).find? fun chunk => chunk.offset = offset

def setMtime (fid mtime : ℤ) : Tree := tree.modifyFattr fid fun fa => { fa with mtime := mtime }

/-! ## Allocation -/

/-- `allocateChunkId`: status, offset, chunk id and version.  The offset `-1`
asks for the next chunk of the file, and an id of zero for a new one. -/
def allocateChunkId (file offset chunkId chunkVersion : ℤ) (euser egroup : ℕ) :
    Status × ℤ × ℤ × ℤ × Tree :=
  if 0 < offset ∧ offset % CHUNKSIZE ≠ 0 then (.einval, offset, chunkId, chunkVersion, tree)
  else if offset < 0 ∧ offset ≠ -1 then (.einval, offset, chunkId, chunkVersion, tree)
  else
    match tree.getFattr file with
    | none => (.enoent, offset, chunkId, chunkVersion, tree)
    | some fa =>
      if fa.type ≠ .file then (.eisdir, offset, chunkId, chunkVersion, tree)
      else
        let offset := if offset < 0 then fa.nextChunkOffset else offset
        if ¬ fa.canWrite env.isGroupMember euser egroup then
          (.eacces, offset, chunkId, chunkVersion, tree)
        else
          match tree.findChunk file (chunkStartOffset offset) with
          | some chunk => (.eexist, offset, chunk.chunkId, chunk.chunkVersion, tree)
          | none =>
            if chunkId = 0 then
              (.ok, offset, tree.chunkIdSeed + 1, 1,
                { tree with chunkIdSeed := tree.chunkIdSeed + 1 })
            else (.ok, offset, chunkId, chunkVersion, tree)

/-- The size that an append gives to a file that is not striped. -/
def growFileSize (file size : ℤ) : Option Tree :=
  (tree.getFattr file).bind fun fa =>
    if ¬ fa.IsStriped ∧ fa.filesize < size then tree.setFileSize file size 0 0 else some tree

/-- The part of `assignChunkId` that adds a chunk. -/
def assignNewChunk (file boundary chunkId chunkVersion : ℤ) (append appendReplayFlag : Bool) :
    Option Tree :=
  if chunkId ∈ tree.chunkIds then none
  else
    let tree := tree.insert (.chunkInfo ⟨file, boundary, chunkId, chunkVersion⟩)
    let tree := tree.modifyFattr file (Fattr.addChunk boundary (append || appendReplayFlag))
    (if append || appendReplayFlag then
      (tree.getFattr file).bind fun fa => tree.growFileSize file fa.nextChunkOffset
    else some tree).map fun tree => tree.setMtime file env.now

/-- The part of `assignChunkId` that changes the version of a chunk. -/
def assignVersion (fa : Fattr) (boundary chunkVersion : ℤ) (appendReplayFlag : Bool) :
    Option Tree :=
  let tree := tree.modifyChunk fa.id boundary fun chunk =>
    { chunk with chunkVersion := chunkVersion }
  (if appendReplayFlag ∧ ¬ fa.IsStriped then
    tree.growFileSize fa.id (max fa.nextChunkOffset (wrap64 (boundary + CHUNKSIZE)))
  else if fa.nextChunkOffset ≤ wrap64 (boundary + CHUNKSIZE) ∧ ¬ fa.IsStriped ∧ 0 ≤ fa.filesize then
    some (tree.invalidateFileSize fa.id)
  else some tree).map fun tree => tree.setMtime fa.id env.now

/-- `assignChunkId`: status, offset and chunk id of the file's chunk, and the
tree.  With `append` a chunk that exists sends the new one to the end. -/
def assignChunkId (file offset chunkId chunkVersion : ℤ) (append appendReplayFlag : Bool) :
    Option (Status × ℤ × ℤ × Tree) :=
  match tree.getFattr file with
  | none => some (.enoent, offset, chunkId, tree)
  | some fa =>
    let boundary := chunkStartOffset offset
    match tree.findChunk file boundary with
    | none =>
      (tree.assignNewChunk env file boundary chunkId chunkVersion append
        appendReplayFlag).map fun tree => (.ok, offset, chunkId, tree)
    | some chunk =>
      if append then
        (tree.assignNewChunk env file fa.nextChunkOffset chunkId chunkVersion append
          appendReplayFlag).map fun tree => (.ok, fa.nextChunkOffset, chunkId, tree)
      else if chunk.chunkId ≠ chunkId ∨ chunk.chunkVersion = chunkVersion then
        some (.eexist, offset, chunk.chunkId, tree)
      else
        (tree.assignVersion env fa boundary chunkVersion appendReplayFlag).map fun tree =>
          (.ok, offset, chunk.chunkId, tree)

/-! ## Coalesce -/

/-- The loop of `coalesceBlocks` over the chunks of the source. -/
def moveChunks (dst dstStartPos : ℤ) : Tree → List ChunkInfo → Option Tree
  | tree, [] => some tree
  | tree, chunk :: chunks =>
    let boundary := chunkStartOffset (wrap64 (dstStartPos + chunk.offset))
    (tree.del (.chunkInfo chunk)).bind fun tree =>
      moveChunks dst dstStartPos
        ((tree.insert (.chunkInfo { chunk with fid := dst, offset := boundary })).modifyFattr
          dst (Fattr.takeChunk boundary))
        chunks

/-- The sizes of the two files after the chunks are moved. -/
def coalesceSizes (src dst dstStartPos dstStartOffset : ℤ) : Option Tree :=
  (tree.getFattr src).bind fun srcFa =>
  (tree.getFattr dst).bind fun dstFa =>
  (if dstStartPos < dstFa.nextChunkOffset then
    (tree.setFileSize dst (wrap64 (dstStartOffset + srcFa.getFileSize)) 0 0).map fun tree =>
      if srcFa.filesize < 0 then tree.invalidateFileSize dst else tree
  else some tree).bind fun tree =>
  (tree.modifyFattr src fun fa => { fa with subcount2 := 0, subcount1 := 0 }).setFileSize src 0 0 0

/-- `coalesceBlocks` of two attributes: status, start offset, number of chunks
moved, and the tree. -/
def coalesceFiles (srcFa dstFa : Fattr) (mtime : Option ℤ) (euser egroup : ℕ) :
    Option (Status × ℤ × ℤ × Tree) :=
  if srcFa.id = dstFa.id then some (.einval, -1, 0, tree)
  else if srcFa.type ≠ .file ∨ dstFa.type ≠ .file then some (.eisdir, -1, 0, tree)
  else if ¬ srcFa.canWrite env.isGroupMember euser egroup ∨
      ¬ dstFa.canWrite env.isGroupMember euser egroup then some (.eacces, -1, 0, tree)
  else if srcFa.StripesDiffer dstFa then some (.einval, -1, 0, tree)
  else
    let chunkInfo := tree.getalloc srcFa.id
    let dstStartPos := dstFa.nextChunkOffset
    let dstStartOffset :=
      if dstFa.IsStriped then dstFa.chunkPosToChunkBlkFileStartPos dstStartPos else dstStartPos
    (moveChunks dstFa.id dstStartPos tree chunkInfo).bind fun tree =>
    (tree.coalesceSizes srcFa.id dstFa.id dstStartPos dstStartOffset).map fun tree =>
      let mtime := mtime.getD env.now
      (.ok, dstStartOffset, chunkInfo.length,
        (tree.setMtime srcFa.id mtime).setMtime dstFa.id mtime)

/-- `coalesceBlocks` of two paths: also the ids of the two files. -/
def coalesceBlocks (srcPath dstPath : Name) (mtime : Option ℤ) (euser egroup : ℕ) :
    Option (Status × ℤ × ℤ × ℤ × ℤ × Tree) :=
  (tree.lookupPath env rootFid srcPath euser egroup).bind fun
    | .error status => some (status, -1, -1, -1, 0, tree)
    | .ok srcFa =>
      (tree.lookupPath env rootFid dstPath euser egroup).bind fun
        | .error status => some (status, -1, -1, -1, 0, tree)
        | .ok dstFa =>
          if srcPath = dstPath then some (.einval, -1, -1, -1, 0, tree)
          else
            (tree.coalesceFiles env srcFa dstFa mtime euser egroup).map
              fun (status, dstStartOffset, moved, tree) =>
                (status, srcFa.id, dstFa.id, dstStartOffset, moved, tree)

/-! ## Truncate -/

/-- The end of `truncate`: the attribute after the chunks are deleted. -/
def truncateSize (fa : Fattr) (offset endOffset : ℤ) : Option Tree :=
  let lco := chunkStartOffset offset
  if endOffset < 0 then
    (tree.modifyFattr fa.id fun fa => { fa with
      subcount2 := if lco < offset then wrap64 (lco + CHUNKSIZE) else lco }).setFileSize
        fa.id offset 0 0
  else if fa.filesize < endOffset then
    (tree.modifyFattr fa.id fun fa => { fa with subcount2 := endOffset }).setFileSize
      fa.id endOffset 0 0
  else some tree

/-- The chunks that `truncate` deletes: those from the chunk of `offset` on,
up to `endOffset` when there is one. -/
def truncatedChunks (file offset endOffset : ℤ) : List ChunkInfo :=
  ((tree.getalloc file).filter fun chunk => chunkStartOffset offset ≤ chunk.offset).takeWhile
    fun chunk => endOffset < 0 ∨ chunk.offset < endOffset

/-- The part of `truncate` that deletes chunks. -/
def deleteTruncated (fa : Fattr) (offset : ℤ) (mtime : Option ℤ) (endOffset : ℤ) :
    Option (Status × Tree) :=
  let chunkInfo := tree.truncatedChunks fa.id offset endOffset
  (tree.deleteChunks chunkInfo.reverse).bind fun tree =>
  let tree := tree.modifyFattr fa.id fun fa => { fa with
    subcount1 := fa.subcount1 - chunkInfo.length }
  (tree.truncateSize fa offset endOffset).map fun tree =>
    (.ok, match mtime with
      | none => tree
      | some mtime => tree.setMtime fa.id mtime)

/-- `truncate` of a file that has been found; `firstChunk` is its first chunk
from the chunk of `offset` on. -/
def truncateFile (fa : Fattr) (firstChunk : Option ChunkInfo) (offset : ℤ) (mtime : Option ℤ)
    (euser egroup : ℕ) (endOffset : ℤ) : Option (Status × Tree) :=
  if offset < 0 then some (.einval, tree)
  else if ¬ fa.canWrite env.isGroupMember euser egroup then some (.eacces, tree)
  else if fa.filesize = offset then some (.ok, tree)
  else if fa.IsStriped ∧ (0 < offset ∨ 0 ≤ endOffset) then
    if 0 ≤ endOffset ∨ offset < fa.filesize ∨
        fa.filePosToChunkBlkIndex (offset - 1) ≠ fa.lastChunkBlkIndex then some (.eacces, tree)
    else (tree.setFileSize fa.id offset 0 0).map fun tree => (.ok, tree)
  else if firstChunk.any (fun chunk => chunk.offset < offset) ∧ offset < fa.filesize then
    some (.eacces, tree)
  else tree.deleteTruncated fa offset mtime endOffset

/-- `truncate`; a negative `endOffset` stands for the end of the file. -/
def truncate (file offset : ℤ) (mtime : Option ℤ) (euser egroup : ℕ) (endOffset : ℤ)
    (setEofHintFlag : Bool) : Option (Status × Tree) :=
  let chunks := (tree.getalloc file).filter fun chunk => chunkStartOffset offset ≤ chunk.offset
  let searchFlag := (¬ setEofHintFlag ∨ 0 ≤ endOffset) ∧ CHUNKSIZE < offset
  if 0 ≤ endOffset ∧ (endOffset < offset ∨ endOffset % CHUNKSIZE ≠ 0) then some (.einval, tree)
  else
    match tree.getFattr file with
    | none => some (.enoent, tree)
    | some fa =>
      if fa.type = .file then
        tree.truncateFile env fa chunks.head? offset mtime euser egroup endOffset
      -- only the search for a chunk finds an attribute of another type
      else if searchFlag ∧ chunks ≠ [] then some (.eisdir, tree)
      else some (.enoent, tree)

/-- `pruneFromHead`. -/
def pruneFromHead (file offset : ℤ) (mtime : Option ℤ) (euser egroup : ℕ) :
    Option (Status × Tree) :=
  if offset < 0 then some (.einval, tree)
  else tree.truncate env file 0 mtime euser egroup (chunkStartOffset offset) false

end Tree

end QfsRepair.Meta
