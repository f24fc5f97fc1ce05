import QfsRepair.Meta.Items
import QfsRepair.Store.OrderedItems

/-!
# The metadata tree

The search tree as the list of its leaves in key order, with the searches, the
counters of directories and the lookups of names and paths.  A call that
panics, follows a pointer to an attribute that is not in the tree or runs
through a cycle of parents has no result: the server does not go on.
-/

namespace QfsRepair.Meta

/-- The status of a call: zero or a negative error number. -/
inductive Status where
  | ok
  | enoent
  | einval
  | eacces
  | eperm
  | eexist
  | eisdir
  | enotdir
  | enotempty
  deriving DecidableEq

/-- The leaves of the tree, the flag for directory sizes and the seeds of the
two id generators. -/
structure Tree where
  leaves : List Item
  updatePathSpaceUsage : Bool
  fileIdSeed : ℤ
  chunkIdSeed : ℤ
  deriving DecidableEq

/-- What a call asks of the clock, the user database and the leases. -/
structure Environment where
  now : ℤ
  isGroupMember : ℕ → ℕ → Bool
  isValidLeaseIssued : List ChunkInfo → Bool

/-- No lease is out, as while a log is replayed, and the clock stands still. -/
def Tree.quiet : Environment where
  now := 0
  isGroupMember := fun _ _ => false
  isValidLeaseIssued := fun _ => false

/-- What the server is configured with. -/
structure Settings where
  maxReplicasPerFile : ℤ := 64
  maxReplicasPerRSFile : ℤ := 64
  defaultUser : ℕ := userNone
  defaultGroup : ℕ := groupNone
  defaultFileMode : ℕ := 0o644
  defaultDirMode : ℕ := 0o755
  defaultLoadUser : ℕ := userRoot
  defaultLoadGroup : ℕ := groupRoot
  defaultLoadFileMode : ℕ := 0o666
  wormMode : Bool := false
  panicOnInvalidChunk : Bool := false
  createFileTypeExclude : ℤ → Bool := fun _ => false
  maxDataStripeCount : ℤ := 2 ^ 9 - 1
  maxRecoveryStripeCount : ℤ := 32
  maxRSDataStripeCount : ℤ := 64

namespace Item

/-! ## Views of the leaves -/

def fattrWith (fid : ℤ) : Item → Option Fattr
  | fattr fa => if fa.id = fid then some fa else none
  | _ => none

def chunkWith (fid : ℤ) : Item → Option ChunkInfo
  | chunkInfo ci => if ci.fid = fid then some ci else none
  | _ => none

def dentryWith (dir : ℤ) : Item → Option Dentry
  | dentry d => if d.dir = dir then some d else none
  | _ => none

def dentryNamed (dir : ℤ) (name : Name) (item : Item) : Option Dentry :=
  (item.dentryWith dir).filter fun d => d.name = name

def chunkIdOf : Item → Option ℤ
  | chunkInfo ci => some ci.chunkId
  | _ => none

/-- The leaf that a deletion of `item` removes. -/
def deletes (item leaf : Item) : Bool := leaf.key = item.key && item.matches leaf

/-- An update of an attribute in place. -/
def modifyFattr (fid : ℤ) (change : Fattr → Fattr) : Item → Item
  | fattr fa => if fa.id = fid then fattr (change fa) else fattr fa
  | item => item

/-- An update of a chunk info in place. -/
def modifyChunk (fid offset : ℤ) (change : ChunkInfo → ChunkInfo) : Item → Item
  | chunkInfo ci =>
    if ci.fid = fid ∧ ci.offset = offset then chunkInfo (change ci) else chunkInfo ci
  | item => item

end Item

namespace Tree

variable (tree : Tree)

/-! ## Insertion, deletion and updates in place -/

def insert (item : Item) : Tree :=
  { tree with leaves := tree.leaves.orderedInsert (fun left right => left.key ≤ right.key) item }

/-- `del`; every caller panics when nothing matches. -/
def del (item : Item) : Option Tree :=
  if tree.leaves.any item.deletes then
    some { tree with leaves := tree.leaves.eraseP item.deletes }
  else none

def modifyFattr (fid : ℤ) (change : Fattr → Fattr) : Tree :=
  { tree with leaves := tree.leaves.map (Item.modifyFattr fid change) }

def modifyChunk (fid offset : ℤ) (change : ChunkInfo → ChunkInfo) : Tree :=
  { tree with leaves := tree.leaves.map (Item.modifyChunk fid offset change) }

/-! ## Searches -/

def getFattr (fid : ℤ) : Option Fattr := tree.leaves.findSome? (Item.fattrWith fid)

def getDentry (dir : ℤ) (fname : Name) : Option Dentry :=
  tree.leaves.findSome? (Item.dentryNamed dir fname)

/-- `readdir` without a limit. -/
def readdir (dir : ℤ) : List Dentry := tree.leaves.filterMap (Item.dentryWith dir)

/-- The chunk infos of a file in the order of their offsets. -/
def getalloc (fid : ℤ) : List ChunkInfo := tree.leaves.filterMap (Item.chunkWith fid)

/-- The map from chunk ids has an entry for every chunk info of the tree. -/
def chunkIds : List ℤ := tree.leaves.filterMap Item.chunkIdOf

/-- `emptydir`: a directory has its two own links only. -/
def emptydir (dir : ℤ) : Bool := (tree.readdir dir).length = 2

/-- The seed of file ids after `genid`. -/
def genFileId : ℤ × Tree :=
  (tree.fileIdSeed + 1, { tree with fileIdSeed := tree.fileIdSeed + 1 })

/-! ## Sizes and counters -/

/-- A sum is no panic: one of `2 ^ 63` or more wraps to a negative number. -/
abbrev IsCount (sum : ℤ) : Prop := 0 ≤ sum ∧ sum < 2 ^ 63

/-- The loop of `updateCounts` over the parents of the attribute `fid`. -/
def addCounts (nbytes nfiles ndirs : ℤ) : ℕ → Tree → ℤ → Option Tree
  | 0, _, _ => none
  | fuel + 1, tree, fid =>
    (tree.getFattr fid).bind fun fa =>
      match fa.parent with
      | none => if fa.id = rootFid then some tree else none
      | some parentFid =>
        (tree.getFattr parentFid).bind fun parent =>
          if parent.type ≠ .dir ∨ ¬ IsCount (parent.filesize + nbytes) ∨
              ¬ IsCount (parent.fileCount + nfiles) ∨ ¬ IsCount (parent.dirCount + ndirs) then none
          else
            addCounts nbytes nfiles ndirs fuel
              (tree.modifyFattr parentFid fun fa => { fa with
                filesize := fa.filesize + nbytes
                subcount1 := fa.subcount1 + nfiles
                subcount2 := fa.subcount2 + ndirs }) parentFid

def updateCounts (fid nbytes nfiles ndirs : ℤ) : Option Tree :=
  if ¬ tree.updatePathSpaceUsage ∨ (nbytes = 0 ∧ nfiles = 0 ∧ ndirs = 0) then some tree
  else addCounts nbytes nfiles ndirs (tree.leaves.length + 1) tree fid

def setFileSize (fid size nfiles ndirs : ℤ) : Option Tree :=
  (tree.getFattr fid).bind fun fa =>
    if fa.filesize < 0 ∧ fa.type ≠ .file ∨ size < 0 then none
    else
      (tree.updateCounts fid (size - fa.getFileSize) nfiles ndirs).map fun tree =>
        tree.modifyFattr fid fun fa => { fa with filesize := size }

def invalidateFileSize (fid : ℤ) : Tree := tree.modifyFattr fid Fattr.invalidateFileSize

/-! ## Names -/

/-- `kThisDir`, `kParentDir` and `DUMPSTERDIR`. -/
def thisDir : Name := ['.']
def parentDir : Name := ['.', '.']
def rootName : Name := ['/']
def dumpsterDir : Name := "dumpster".toList

/-- `MAX_FILE_NAME_LENGTH`. -/
def maxFileNameLength : ℕ := 4096

def legalname (name : Name) : Bool :=
  0 < name.length && name.length ≤ maxFileNameLength && '/' ∉ name && '\n' ∉ name

/-- `IsDeleteRestricted`, the sticky bit. -/
def isDeleteRestricted (parent fa : Fattr) (euser : ℕ) : Bool :=
  euser ≠ userRoot && parent.isSticky && parent.user ≠ euser && fa.user ≠ euser

/-- The attribute whose search permission `canAccess` checks. -/
def accessParent (dir : ℤ) (fa : Fattr) : Option Fattr :=
  match fa.parent with
  | some parent => tree.getFattr parent
  | none => if dir = rootFid then some fa else tree.getFattr dir

variable (env : Environment)

/-- `lookup` for a caller that needs the parent. -/
def lookupWithParent (dir : ℤ) (fname : Name) (euser egroup : ℕ) :
    Option (Except Status (Fattr × Fattr)) :=
  match tree.getDentry dir fname with
  | none => some (.error .enoent)
  | some entry =>
    (tree.getFattr entry.id).bind fun fa =>
      (tree.accessParent dir fa).map fun parent =>
        if parent.canSearch env.isGroupMember euser egroup then .ok (fa, parent)
        else .error .eacces

/-- `lookup` for other callers; the root user needs no parent. -/
def lookup (dir : ℤ) (fname : Name) (euser egroup : ℕ) : Option (Except Status Fattr) :=
  if euser = userRoot then
    match tree.getDentry dir fname with
    | none => some (.error .enoent)
    | some entry => (tree.getFattr entry.id).map .ok
  else
    (tree.lookupWithParent env dir fname euser egroup).map fun result =>
      result.map Prod.fst

/-! ## Paths -/

/-- The components of a path; repeated slashes separate only once. -/
def pathComponents (path : Name) : List Name := (path.splitOn '/').filter fun name => name ≠ []

/-- The loop of `lookupPath` over the components; `start` is the directory it
begins with, and `trailing` tells that a slash follows the last component. -/
def lookupComponents (start : ℤ) (trailing : Bool) (euser egroup : ℕ) :
    ℤ → List Name → Option (Except Status Fattr)
  | _, [] => some (.error .enoent)
  | dir, [component] =>
    if trailing then
      match tree.getDentry dir component with
      | none => some (.error .enoent)
      | some entry =>
        (tree.getFattr entry.id).map fun fa =>
          if fa.type ≠ .dir then .error .enotdir else .ok fa
    -- the last directory was checked when it was entered
    else if start = dir then tree.lookup env dir component euser egroup
    else tree.lookup env dir component userRoot groupRoot
  | dir, component :: rest =>
    match tree.getDentry dir component with
    | none => some (.error .enoent)
    | some entry =>
      (tree.getFattr entry.id).bind fun fa =>
        if fa.type ≠ .dir then some (.error .enotdir)
        else if ¬ fa.canSearch env.isGroupMember euser egroup then some (.error .eacces)
        else lookupComponents start trailing euser egroup entry.id rest

/-- `lookupPath` without the path cache. -/
def lookupPath (rootdir : ℤ) (path : Name) (euser egroup : ℕ) : Option (Except Status Fattr) :=
  if path = [] then some (.error .enoent)
  else
    let start := if rootdir = 0 ∨ path.head? = some '/' then rootFid else rootdir
    if pathComponents path = [] then tree.lookup env start rootName euser egroup
    else
      tree.lookupComponents env start (path.getLast? = some '/') euser egroup start
        (pathComponents path)

end Tree

end QfsRepair.Meta
