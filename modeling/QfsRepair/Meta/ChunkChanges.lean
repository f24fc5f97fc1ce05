import QfsRepair.Meta.NamespaceChanges

/-!
# Changes of chunks

The handlers that replay the lines of `allocate`, `truncate`, with its variant
that prunes blocks from the head, and `coalesce`.
-/

namespace QfsRepair.Meta

open Striping (CHUNKSIZE)

namespace Tree

variable (tree : Tree) (env : Environment) (cursor : Cursor)

/-- The end of `replay_allocate`, for a file that is there. -/
def replayAllocateChunk (fa : Fattr) (offset logChunkId logChunkVersion : ℤ) (mtime : Option ℤ)
    (append : Bool) : Option Tree :=
  let tree :=
    match mtime with
    | none => tree
    | some mtime => tree.setMtime fa.id (max fa.mtime mtime)
  let (status, offset, cid, chunkVersion, tree) :=
    tree.allocateChunkId env fa.id offset logChunkId 0 userRoot groupRoot
  if fa.type = .file ∧ fa.IsStriped ∧ append then none
  else if status = .eexist ∧ cid ≠ logChunkId then none
  else if status = .eexist ∧ chunkVersion = logChunkVersion then some tree
  else if status ≠ .ok ∧ status ≠ .eexist then none
  else
    (tree.assignChunkId env fa.id offset logChunkId logChunkVersion false append).bind fun
      | (.ok, _, _, tree) =>
        let tree := { tree with chunkIdSeed := max tree.chunkIdSeed logChunkId }
        some (match mtime with
          | none => tree
          | some mtime => tree.setMtime fa.id mtime)
      | _ => none

/-- `replay_allocate`; an allocation for a file that is gone is passed over. -/
def replayAllocate : Option Tree :=
  (cursor.popFid "file".toList).required fun fid cursor =>
  (cursor.popFid "offset".toList).required fun offset cursor =>
  (cursor.popFid "chunkId".toList).required fun logChunkId cursor =>
  (cursor.popFid "chunkVersion".toList).required fun logChunkVersion cursor =>
  let (mtime, cursor) := cursor.popTime "mtime".toList
  let append := (cursor.popFid "append".toList).1.any fun flag => flag ≠ 0
  match tree.getFattr fid with
  | none => some tree
  | some fa => tree.replayAllocateChunk env fa offset logChunkId logChunkVersion mtime append

/-- `replay_coalesce`. -/
def replayCoalesce : Option Tree :=
  (cursor.popFid "old".toList).required fun srcFid cursor =>
  (cursor.popFid "new".toList).required fun dstFid cursor =>
  (cursor.popSize "count".toList).required fun count cursor =>
  let mtime := (cursor.popTime "mtime".toList).1
  (tree.getFattr srcFid).bind fun srcFa =>
  (tree.getFattr dstFid).bind fun dstFa =>
  (tree.coalesceFiles env srcFa dstFa mtime userRoot groupRoot).bind fun
    | (.ok, _, moved, tree) => if moved = count then some tree else none
    | _ => none

/-- `replay_truncate`. -/
def replayTruncate : Option Tree :=
  (cursor.popFid "file".toList).required fun fid cursor =>
  (cursor.popFid "offset".toList).required fun offset cursor =>
  let (mtime, cursor) := cursor.popTime "mtime".toList
  let endOffset :=
    if mtime.isSome then (cursor.popFid "endoff".toList).1.getD (-1) else -1
  (tree.truncate env fid offset mtime userRoot groupRoot endOffset true).bind fun
    | (.ok, tree) => some tree
    | _ => none

/-- `replay_pruneFromHead`. -/
def replayPruneFromHead : Option Tree :=
  (cursor.popFid "file".toList).required fun fid cursor =>
  (cursor.popFid "offset".toList).required fun offset cursor =>
  let mtime := (cursor.popTime "mtime".toList).1
  (tree.pruneFromHead env fid offset mtime userRoot groupRoot).bind fun
    | (.ok, tree) => some tree
    | _ => none

end Tree

end QfsRepair.Meta
