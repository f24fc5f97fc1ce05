import QfsRepair.Meta.Tree

/-!
# Operations on the namespace

`create`, `mkdir`, `remove`, `rmdir` and `rename` of the metadata tree, with
the dumpster that takes removed files whose chunks still have a lease.  The
counts of files and directories that the server only reports, and the path
cache, are left out.
-/

namespace QfsRepair.Meta.Tree

variable (tree : Tree) (env : Environment)

/-! ## Links -/

/-- `link` for the links `.` and `..`, which share the attribute of a
directory. -/
def linkDir (dir : ℤ) (fname : Name) (myID : ℤ) : Tree :=
  tree.insert (.dentry ⟨myID, dir, fname⟩)

/-- `link` for a new file; refused stripe parameters leave the tree as it
is. -/
def linkFile (dir : ℤ) (fname : Name) (myID numReplicas : ℤ)
    (striperType numStripes numRecoveryStripes stripeSize : ℤ) (user group mode : ℕ)
    (parent : ℤ) : Option Tree :=
  ((Fattr.create .file myID numReplicas user group mode env.now).setStriped
      striperType numStripes numRecoveryStripes stripeSize).map fun fa =>
    (tree.insert (.dentry ⟨myID, dir, fname⟩)).insert (.fattr { fa with parent := some parent })

/-- `unlink` of a name; a missing entry is a panic. -/
def unlinkName (dir : ℤ) (fname : Name) (fid : ℤ) : Option Tree :=
  tree.del (.dentry ⟨fid, dir, fname⟩)

/-- `unlink` of a name with its attribute. -/
def unlink (dir : ℤ) (fname : Name) (fa : Fattr) : Option Tree :=
  (tree.unlinkName dir fname fa.id).bind fun tree => tree.del (.fattr fa)

/-! ## Directories -/

/-- The entries and the attribute of a new directory. -/
def addDirectory (dir : ℤ) (dname : Name) (myID : ℤ) (user group mode : ℕ)
    (parent : Option Fattr) : Tree :=
  let fattr := { Fattr.create .dir myID 1 user group mode env.now with
    parent := parent.map Fattr.id }
  let tree := tree.insert (.dentry ⟨myID, dir, dname⟩)
  let tree := tree.insert (.fattr fattr)
  let tree := tree.linkDir myID thisDir myID
  tree.linkDir myID parentDir dir

/-- The part of `mkdir` that adds the directory; it takes the storage tiers of
its parent. -/
def attachDirectory (dir : ℤ) (dname : Name) (myID : ℤ) (user group mode : ℕ)
    (parent : Option Fattr) : Option Tree :=
  ((tree.addDirectory env dir dname myID user group mode parent).updateCounts
      myID 0 0 1).map fun tree =>
    match parent with
    | none => tree
    | some parent => tree.modifyFattr myID fun fa => { fa with
        minSTier := parent.minSTier
        maxSTier := parent.maxSTier }

/-- `mkdir`; the id of the new directory is taken from the generator when
`newFid` is zero. -/
def mkdir (dir : ℤ) (dname : Name) (user group mode euser egroup : ℕ) (newFid : ℤ) :
    Option (Status × ℤ × Tree) :=
  let parent := tree.getFattr dir
  if ¬ legalname dname ∧ (dir ≠ rootFid ∨ dname ≠ rootName) then some (.einval, newFid, tree)
  else if ¬ parent.any (fun fa => fa.type = .dir) ∧ dir ≠ rootFid ∧ dname ≠ rootName then
    some (.enotdir, newFid, tree)
  else if (tree.getDentry dir dname).isSome then some (.eexist, newFid, tree)
  else if parent.any (fun fa => ¬ fa.canWrite env.isGroupMember euser egroup) then
    some (.eacces, newFid, tree)
  else
    let (myID, tree) :=
      if newFid = 0 then if dname = rootName then (dir, tree) else tree.genFileId
      else (newFid, tree)
    (tree.attachDirectory env dir dname myID user group mode parent).map fun tree =>
      (.ok, myID, tree)

/-- The part of `rmdir` that deletes the directory with its own links. -/
def removeDir (dir : ℤ) (dname : Name) (fa : Fattr) : Option Tree :=
  (tree.setFileSize fa.id 0 0 (-1)).bind fun tree =>
  (tree.unlinkName fa.id thisDir fa.id).bind fun tree =>
  (tree.unlinkName fa.id parentDir fa.id).bind fun tree => tree.unlink dir dname fa

/-- `rmdir`. -/
def rmdir (dir : ℤ) (dname : Name) (euser egroup : ℕ) : Option (Status × Tree) :=
  (tree.lookupWithParent env dir dname euser egroup).bind fun
    | .error status => some (status, tree)
    | .ok (fa, parent) =>
      if dir = rootFid ∧ (dname = dumpsterDir ∨ dname = rootName) then some (.eperm, tree)
      else if dname = thisDir then some (.einval, tree)
      else if dname = parentDir then some (.enotempty, tree)
      else if fa.type ≠ .dir then some (.enotdir, tree)
      else if ¬ parent.canWrite env.isGroupMember euser egroup then some (.eacces, tree)
      else if isDeleteRestricted parent fa euser then some (.eperm, tree)
      else if ¬ tree.emptydir fa.id then some (.enotempty, tree)
      else (tree.removeDir dir dname fa).map fun tree => (.ok, tree)

/-! ## Renames -/

/-- `is_descendant`: the walk from `dst` to the root, first along `dotdot`. -/
def isDescendant (src : ℤ) : ℕ → ℤ → Option Fattr → Option Bool
  | 0, _, _ => none
  | fuel + 1, dst, dotdot =>
    if src = dst ∨ dst = rootFid then some (src = dst)
    else
      match dotdot.bind Fattr.parent with
      | some parent => (tree.getFattr parent).bind fun fa => isDescendant src fuel fa.id (some fa)
      | none =>
        (tree.lookup env dst parentDir userRoot groupRoot).bind fun
          | .error _ => some false
          | .ok fa => isDescendant src fuel fa.id (some fa)

/-- The destination of a rename: its directory, its name and, when the new name
has a slash, the attribute of the directory. -/
def renameTarget (parent : ℤ) (newname : Name) (euser egroup : ℕ) :
    Option (Except Status (ℤ × Name × Option Fattr)) :=
  if '/' ∉ newname then some (.ok (parent, newname, none))
  else
    let dname := (newname.reverse.takeWhile fun char => char ≠ '/').reverse
    let path := newname.take (max 1 (newname.length - dname.length - 1))
    (tree.lookupPath env parent path euser egroup).map fun
      | .error status => .error status
      | .ok ddfattr =>
        if ddfattr.type ≠ .dir then .error .enotdir
        else if ¬ ddfattr.canWrite env.isGroupMember euser egroup then .error .eacces
        else .ok (ddfattr.id, dname, some ddfattr)

/-- The counters of a rename to a directory that is given by its path. -/
def moveCounts (srcfid ddir : ℤ) : Option Tree :=
  (tree.getFattr srcfid).bind fun sfattr =>
    let fileCnt := if sfattr.type = .dir then sfattr.fileCount else 1
    let dirCnt := if sfattr.type = .dir then sfattr.dirCount + 1 else 0
    (tree.setFileSize srcfid 0 (-fileCnt) (-dirCnt)).bind fun tree =>
      ((tree.modifyFattr srcfid fun fa => { fa with parent := some ddir }).setFileSize
          srcfid sfattr.getFileSize fileCnt dirCnt).map fun tree =>
        tree.modifyFattr srcfid fun fa => { fa with filesize := sfattr.filesize }

/-- The part of a rename that moves the entry. -/
def moveEntry (parent : ℤ) (oldname : Name) (sfattr : Fattr) (ddir : ℤ) (dname : Name)
    (ddfattr : Option Fattr) : Option Tree :=
  let isDir := sfattr.type = .dir
  (if isDir ∧ ddfattr.isSome then tree.unlinkName sfattr.id parentDir sfattr.id
    else some tree).bind fun tree =>
  (tree.unlinkName parent oldname sfattr.id).bind fun tree =>
  let tree := tree.insert (.dentry ⟨sfattr.id, ddir, dname⟩)
  match ddfattr with
  | none => some tree
  | some ddfattr =>
    (tree.moveCounts sfattr.id ddfattr.id).map fun tree =>
      if isDir then tree.linkDir sfattr.id parentDir ddir else tree

/-- The check that a directory is not moved below itself. -/
def movesBelowItself (sfattr : Fattr) (ddir : ℤ) (dotdot : Option Fattr) : Option Bool :=
  if sfattr.type = .dir then
    tree.isDescendant env sfattr.id (tree.leaves.length + 2) ddir dotdot
  else some false

/-- The part of `rename` that replaces an existing destination `dfattr`;
`removeTarget` is the call that removes it. -/
def renameOnto (removeTarget : ℤ → Name → Fattr → Option (Status × ℤ × Tree))
    (parent : ℤ) (oldname : Name) (sfattr : Fattr) (ddir : ℤ) (dname : Name)
    (ddfattr : Option Fattr) (dfattr : Fattr) (overwrite : Bool) (todumpster : ℤ) :
    Option (Status × ℤ × Tree) :=
  if ¬ overwrite then some (.eexist, todumpster, tree)
  else if sfattr.type ≠ dfattr.type then
    some (if sfattr.type = .dir then .enotdir else .eisdir, todumpster, tree)
  else if sfattr.type = .dir ∧ ¬ tree.emptydir dfattr.id then some (.enotempty, todumpster, tree)
  else
    (tree.movesBelowItself env sfattr ddir (some dfattr)).bind fun inside =>
    if inside then some (.einval, todumpster, tree)
    else
      (removeTarget ddir dname sfattr).bind fun
        | (.ok, todumpster, tree) =>
          (tree.moveEntry parent oldname sfattr ddir dname ddfattr).map
            fun tree => (.ok, todumpster, tree)
        | result => some result

/-- The part of `rename` that follows when the destination is known. -/
def renameTo (removeTarget : ℤ → Name → Fattr → Option (Status × ℤ × Tree))
    (parent : ℤ) (oldname : Name) (sfattr : Fattr) (ddir : ℤ) (dname : Name)
    (ddfattr : Option Fattr) (overwrite : Bool) (todumpster : ℤ) (euser egroup : ℕ) :
    Option (Status × ℤ × Tree) :=
  if ¬ legalname dname then some (.einval, todumpster, tree)
  else if ddir = parent ∧ dname = oldname then some (.ok, todumpster, tree)
  else
    (tree.lookup env ddir dname euser egroup).bind fun
      | .error .enoent =>
        (tree.movesBelowItself env sfattr ddir none).bind fun inside =>
        if inside then some (.einval, todumpster, tree)
        else
          (tree.moveEntry parent oldname sfattr ddir dname ddfattr).map
            fun tree => (.ok, todumpster, tree)
      | .error status => some (status, todumpster, tree)
      | .ok dfattr =>
        tree.renameOnto env removeTarget parent oldname sfattr ddir dname ddfattr dfattr
          overwrite todumpster

/-- `rename`, given the call that removes an existing destination. -/
def renameWith (removeTarget : ℤ → Name → Fattr → Option (Status × ℤ × Tree))
    (parent : ℤ) (oldname newname : Name) (overwrite : Bool) (todumpster : ℤ)
    (euser egroup : ℕ) : Option (Status × ℤ × Tree) :=
  (tree.lookupWithParent env parent oldname euser egroup).bind fun
    | .error status => some (status, todumpster, tree)
    | .ok (sfattr, sdfattr) =>
      if ¬ sdfattr.canWrite env.isGroupMember euser egroup then
        some (.eacces, todumpster, tree)
      else
        (tree.renameTarget env parent newname euser egroup).bind fun
          | .error status => some (status, todumpster, tree)
          | .ok (ddir, dname, ddfattr) =>
            tree.renameTo env removeTarget parent oldname sfattr ddir dname ddfattr
              overwrite todumpster euser egroup

/-! ## The dumpster, removal and creation -/

/-- `makeDumpsterDir`. -/
def makeDumpsterDir : Option Tree :=
  (tree.mkdir env rootFid dumpsterDir userRoot groupRoot 0o700 userRoot groupRoot 0).map
    fun result => result.2.2

/-- The name of a file in the dumpster, its own name and its id. -/
def dumpsterName (fname : Name) (fid : ℤ) : Name :=
  rootName ++ dumpsterDir ++ rootName ++ fname ++ (toString fid).toList

/-- The rename into the dumpster, once the dumpster is there. -/
def renameToDumpster (dir : ℤ) (fname : Name) (todumpster dumpster : ℤ) :
    Option (Status × Tree) :=
  if dumpster = dir then some (.eexist, tree)
  else
    -- an existing destination is not overwritten
    (tree.renameWith env (fun _ _ _ => none) dir fname (dumpsterName fname todumpster) false (-1)
      userRoot groupRoot).map fun (status, _, tree) => (status, tree)

/-- `moveToDumpster`. -/
def moveToDumpster (dir : ℤ) (fname : Name) (todumpster : ℤ) : Option (Status × Tree) :=
  (tree.lookup env rootFid dumpsterDir userRoot groupRoot).bind fun
    | .ok fa => tree.renameToDumpster env dir fname todumpster fa.id
    | .error _ =>
      (tree.makeDumpsterDir env).bind fun tree =>
      (tree.lookup env rootFid dumpsterDir userRoot groupRoot).bind fun
        | .ok fa => tree.renameToDumpster env dir fname todumpster fa.id
        | .error _ => none

/-- `DeleteChunk` for every chunk info of a list. -/
def deleteChunks : Tree → List ChunkInfo → Option Tree
  | tree, [] => some tree
  | tree, chunk :: chunks =>
    (tree.del (.chunkInfo chunk)).bind fun tree => deleteChunks tree chunks

/-- The part of `remove` that deletes the file with its chunks. -/
def removeFile (dir : ℤ) (fname : Name) (fa : Fattr) : Option Tree :=
  (if 0 < fa.chunkcount then tree.deleteChunks (tree.getalloc fa.id) else some tree).bind
    fun tree => (tree.setFileSize fa.id 0 (-1) 0).bind fun tree => tree.unlink dir fname fa

/-- `remove`; the second result is `todumpster`, the id of the file when it
goes to the dumpster. -/
def remove (dir : ℤ) (fname : Name) (todumpster : ℤ) (euser egroup : ℕ) :
    Option (Status × ℤ × Tree) :=
  (tree.lookupWithParent env dir fname euser egroup).bind fun
    | .error status => some (status, todumpster, tree)
    | .ok (fa, parent) =>
      if fa.type ≠ .file then some (.eisdir, todumpster, tree)
      else if ¬ parent.canWrite env.isGroupMember euser egroup then
        some (.eacces, todumpster, tree)
      else if isDeleteRestricted parent fa euser then some (.eperm, todumpster, tree)
      else if 0 < fa.chunkcount ∧
          (0 < todumpster ∨ env.isValidLeaseIssued (tree.getalloc fa.id)) then
        (tree.moveToDumpster env dir fname fa.id).map fun (status, tree) =>
          (status, fa.id, tree)
      else
        (tree.removeFile dir fname fa).map fun tree => (.ok, todumpster, tree)

/-- `rename`; the second result is the id of a replaced file that goes to the
dumpster. -/
def rename (parent : ℤ) (oldname newname : Name) (overwrite : Bool) (todumpster : ℤ)
    (euser egroup : ℕ) : Option (Status × ℤ × Tree) :=
  tree.renameWith env (fun ddir dname sfattr =>
      if sfattr.type = .dir then
        (tree.rmdir env ddir dname euser egroup).map fun (status, tree) =>
          (status, todumpster, tree)
      else tree.remove env ddir dname todumpster euser egroup)
    parent oldname newname overwrite todumpster euser egroup

/-- What `create` does once an existing file is out of the way. -/
def createLink (dir : ℤ) (fname : Name) (newFid numReplicas : ℤ)
    (striperType numStripes numRecoveryStripes stripeSize : ℤ) (todumpster : ℤ)
    (user group mode : ℕ) (parent : Fattr) : Option (Status × ℤ × ℤ × Tree) :=
  let (newFid, tree) := if newFid = 0 then tree.genFileId else (newFid, tree)
  match tree.linkFile env dir fname newFid numReplicas striperType numStripes
      numRecoveryStripes stripeSize user group mode dir with
  | none => some (.einval, newFid, todumpster, tree)
  | some tree =>
    (tree.updateCounts newFid 0 1 0).map fun tree =>
      (.ok, newFid, todumpster, tree.modifyFattr newFid fun fa => { fa with
        minSTier := parent.minSTier
        maxSTier := parent.maxSTier })

/-- `create`: status, id of the new file, id of a replaced file that goes to the
dumpster, and the tree. -/
def create (dir : ℤ) (fname : Name) (newFid numReplicas : ℤ) (exclusive : Bool)
    (striperType numStripes numRecoveryStripes stripeSize : ℤ) (todumpster : ℤ)
    (user group mode euser egroup : ℕ) : Option (Status × ℤ × ℤ × Tree) :=
  if ¬ legalname fname then some (.einval, newFid, todumpster, tree)
  else if numReplicas ≤ 0 then some (.einval, newFid, todumpster, tree)
  else
    match tree.getFattr dir with
    | none => some (.enoent, newFid, todumpster, tree)
    | some parent =>
      if parent.type ≠ .dir then some (.enotdir, newFid, todumpster, tree)
      else if ¬ parent.canWrite env.isGroupMember euser egroup then
        some (.eacces, newFid, todumpster, tree)
      else
        (tree.lookup env dir fname euser egroup).bind fun
          | .error .enoent =>
            tree.createLink env dir fname newFid numReplicas striperType numStripes
              numRecoveryStripes stripeSize todumpster user group mode parent
          | .error status => some (status, newFid, todumpster, tree)
          | .ok fa =>
            if fa.type ≠ .file then some (.eisdir, newFid, todumpster, tree)
            else if exclusive then some (.eexist, newFid, todumpster, tree)
            else if isDeleteRestricted parent fa euser then
              some (.eperm, newFid, todumpster, tree)
            else
              (tree.remove env dir fname todumpster euser egroup).bind fun
                | (.ok, todumpster, tree) =>
                  tree.createLink env dir fname newFid numReplicas striperType numStripes
                    numRecoveryStripes stripeSize todumpster user group mode parent
                | (status, todumpster, tree) => some (status, newFid, todumpster, tree)

end QfsRepair.Meta.Tree
