import QfsRepair.Meta.Namespace

/-!
# The path cache

The cache from paths to file ids, with `lookupPath`, `invalidatePathCache` and
the calls on the namespace as they use it.  A cached path leads to the id of an
attribute; since ids are not used again, the pointer that the cache holds is
that of the attribute with the id, as long as there is one.  The time of the
last access is left out.
-/

namespace QfsRepair.Meta

/-- A tree with its path cache.  `allowFidToPathConversion` tells that the server
is up and can make paths of ids. -/
structure CachedTree where
  tree : Tree
  pathToFidCache : List (Name × ℤ)
  allowFidToPathConversion : Bool

namespace Tree

variable (tree : Tree)

/-- The loop of `getPathname` from `fid` to the root; the result is empty when a
parent has no entries. -/
def getPathnameFrom : ℕ → ℤ → Name → Option Name
  | 0, _, _ => none
  | fuel + 1, fid, path =>
    (tree.getFattr fid).bind fun fa =>
      match fa.parent with
      | none => if fa.id = rootFid then some ('/' :: path) else none
      | some parentFid =>
        (tree.getFattr parentFid).bind fun parent =>
          if parent.type ≠ .dir then none
          else if tree.readdir parentFid = [] then some []
          else
            getPathnameFrom fuel parentFid
              (match (tree.readdir parentFid).find? fun entry =>
                  entry.id = fid ∧ entry.name ≠ thisDir ∧ entry.name ≠ parentDir with
              | none => path
              | some entry => if path = [] then entry.name else entry.name ++ '/' :: path)

end Tree

namespace CachedTree

open Tree (rootName thisDir parentDir dumpsterDir dumpsterName legalname isDeleteRestricted)

variable (cached : CachedTree) (env : Environment)

/-- `getPathname`; empty while paths are not made of ids. -/
def getPathname (fid : ℤ) : Option Name :=
  if cached.allowFidToPathConversion then
    cached.tree.getPathnameFrom (cached.tree.leaves.length + 1) fid []
  else some []

/-! ## Lookups -/

/-- The condition under which a path is looked up in the cache: one slash at the
beginning, and no other after it. -/
def searchesCache (path : Name) : Bool :=
  path.head? = some '/' && path.tail.head?.any fun char => char ≠ '/'

/-- The condition under which the result for a path is cached: slashes separate
components that are not empty, of which only the last may be a link. -/
def isCacheable (path : Name) : Bool :=
  match path.splitOn '/' with
  | [] :: components =>
    components ≠ [] && components.all (fun name => name ≠ []) &&
      components.dropLast.all fun name => name ≠ thisDir && name ≠ parentDir
  | _ => false

def findPath (path : Name) : Option ℤ := cached.pathToFidCache.lookup path

def erasePath (path : Name) : CachedTree :=
  { cached with pathToFidCache := cached.pathToFidCache.filter fun entry => entry.1 ≠ path }

/-- The part of `lookupPath` that follows the path. -/
def walkPath (rootdir : ℤ) (path : Name) (euser egroup : ℕ) :
    Option (Except Status Fattr × CachedTree) :=
  (cached.tree.lookupPath env rootdir path euser egroup).map fun
    | .error status => (.error status, cached)
    | .ok fa =>
      (.ok fa,
        if isCacheable path then
          { cached with pathToFidCache := (path, fa.id) :: cached.pathToFidCache }
        else cached)

/-- `lookupPath` with the cache; what is found there is not checked for access. -/
def lookupPath (rootdir : ℤ) (path : Name) (euser egroup : ℕ) :
    Option (Except Status Fattr × CachedTree) :=
  match if searchesCache path then cached.findPath path else none with
  | none => cached.walkPath env rootdir path euser egroup
  | some fid =>
    match cached.tree.getFattr fid with
    | some fa => some (.ok fa, cached)
    | none => (cached.erasePath path).walkPath env rootdir path euser egroup

/-! ## Invalidation -/

/-- The part of `invalidatePathCache` that erases a path and, for a directory
that is moved, everything below it.  More than `1 << 10` paths clear the cache. -/
def eraseBelow (pn : Name) (belowFlag : Bool) : CachedTree :=
  let erased := cached.erasePath pn
  if ¬ belowFlag then erased
  else
    let dirPath := if pn.getLast? = some '/' then pn else pn ++ ['/']
    if 2 ^ 10 < (erased.pathToFidCache.filter fun entry => dirPath.isPrefixOf entry.1).length then
      { cached with pathToFidCache := [] }
    else
      { cached with pathToFidCache :=
          erased.pathToFidCache.filter fun entry => ¬ dirPath.isPrefixOf entry.1 }

/-- `invalidatePathCache`.  The path that the caller passes is not used: it is
asked for a slash in the string that it would be copied to. -/
def invalidatePathCache (name : Name) (fa : Fattr) (removeDirPrefixFlag : Bool) :
    Option CachedTree :=
  if cached.pathToFidCache = [] then some cached
  else
    (match fa.parent with
      | none => if fa.id = rootFid then some rootName else none
      | some parent => cached.getPathname parent).map fun pn =>
        if pn = [] then { cached with pathToFidCache := [] }
        else
          cached.eraseBelow (if pn = rootName then pn ++ name else pn ++ '/' :: name)
            (removeDirPrefixFlag && fa.type = FileType.dir)

/-! ## Calls -/

/-- `rmdir`. -/
def rmdir (dir : ℤ) (dname : Name) (euser egroup : ℕ) : Option (Status × CachedTree) :=
  (cached.tree.lookupWithParent env dir dname euser egroup).bind fun
    | .error status => some (status, cached)
    | .ok (fa, _) =>
      (cached.tree.rmdir env dir dname euser egroup).bind fun
        | (.ok, tree) =>
          (cached.invalidatePathCache dname fa false).map fun cached =>
            (.ok, { cached with tree })
        | (status, _) => some (status, cached)

/-- `mkdir` does not use the cache. -/
def mkdir (dir : ℤ) (dname : Name) (user group mode euser egroup : ℕ) (newFid : ℤ) :
    Option (Status × ℤ × CachedTree) :=
  (cached.tree.mkdir env dir dname user group mode euser egroup newFid).map
    fun (status, myID, tree) => (status, myID, { cached with tree })

/-- The destination of a rename. -/
def renameTarget (parent : ℤ) (newname : Name) (euser egroup : ℕ) :
    Option (Except Status (ℤ × Name × Option Fattr) × CachedTree) :=
  if '/' ∉ newname then some (.ok (parent, newname, none), cached)
  else
    let dname := (newname.reverse.takeWhile fun char => char ≠ '/').reverse
    let path := newname.take (max 1 (newname.length - dname.length - 1))
    (cached.lookupPath env parent path euser egroup).map fun
      | (.error status, cached) => (.error status, cached)
      | (.ok ddfattr, cached) =>
        if ddfattr.type ≠ .dir then (.error .enotdir, cached)
        else if ¬ ddfattr.canWrite env.isGroupMember euser egroup then (.error .eacces, cached)
        else (.ok (ddfattr.id, dname, some ddfattr), cached)

/-- The part of a rename that moves the entry. -/
def moveEntry (parent : ℤ) (oldname : Name) (sfattr : Fattr) (ddir : ℤ) (dname : Name)
    (ddfattr : Option Fattr) : Option CachedTree :=
  (cached.invalidatePathCache oldname sfattr true).bind fun cached =>
    (cached.tree.moveEntry parent oldname sfattr ddir dname ddfattr).map fun tree =>
      { cached with tree }

/-- The part of `rename` that replaces an existing destination. -/
def renameOnto (removeTarget : ℤ → Name → Fattr → Option (Status × ℤ × CachedTree))
    (parent : ℤ) (oldname : Name) (sfattr : Fattr) (ddir : ℤ) (dname : Name)
    (ddfattr : Option Fattr) (dfattr : Fattr) (overwrite : Bool) (todumpster : ℤ) :
    Option (Status × ℤ × CachedTree) :=
  if ¬ overwrite then some (.eexist, todumpster, cached)
  else if sfattr.type ≠ dfattr.type then
    some (if sfattr.type = .dir then .enotdir else .eisdir, todumpster, cached)
  else if sfattr.type = .dir ∧ ¬ cached.tree.emptydir dfattr.id then
    some (.enotempty, todumpster, cached)
  else
    (cached.tree.movesBelowItself env sfattr ddir (some dfattr)).bind fun inside =>
    if inside then some (.einval, todumpster, cached)
    else
      (removeTarget ddir dname sfattr).bind fun
        | (.ok, todumpster, cached) =>
          (cached.moveEntry parent oldname sfattr ddir dname ddfattr).map
            fun cached => (.ok, todumpster, cached)
        | result => some result

/-- The part of `rename` that follows when the destination is known. -/
def renameTo (removeTarget : ℤ → Name → Fattr → Option (Status × ℤ × CachedTree))
    (parent : ℤ) (oldname : Name) (sfattr : Fattr) (ddir : ℤ) (dname : Name)
    (ddfattr : Option Fattr) (overwrite : Bool) (todumpster : ℤ) (euser egroup : ℕ) :
    Option (Status × ℤ × CachedTree) :=
  if ¬ legalname dname then some (.einval, todumpster, cached)
  else if ddir = parent ∧ dname = oldname then some (.ok, todumpster, cached)
  else
    (cached.tree.lookup env ddir dname euser egroup).bind fun
      | .error .enoent =>
        (cached.tree.movesBelowItself env sfattr ddir none).bind fun inside =>
        if inside then some (.einval, todumpster, cached)
        else
          (cached.moveEntry parent oldname sfattr ddir dname ddfattr).map
            fun cached => (.ok, todumpster, cached)
      | .error status => some (status, todumpster, cached)
      | .ok dfattr =>
        cached.renameOnto env removeTarget parent oldname sfattr ddir dname ddfattr dfattr
          overwrite todumpster

/-- `rename`, given the call that removes an existing destination. -/
def renameWith (removeTarget : CachedTree → ℤ → Name → Fattr → Option (Status × ℤ × CachedTree))
    (parent : ℤ) (oldname newname : Name) (overwrite : Bool) (todumpster : ℤ)
    (euser egroup : ℕ) : Option (Status × ℤ × CachedTree) :=
  (cached.tree.lookupWithParent env parent oldname euser egroup).bind fun
    | .error status => some (status, todumpster, cached)
    | .ok (sfattr, sdfattr) =>
      if ¬ sdfattr.canWrite env.isGroupMember euser egroup then
        some (.eacces, todumpster, cached)
      else
        (cached.renameTarget env parent newname euser egroup).bind fun
          | (.error status, cached) => some (status, todumpster, cached)
          | (.ok (ddir, dname, ddfattr), cached) =>
            cached.renameTo env (removeTarget cached) parent oldname sfattr ddir dname ddfattr
              overwrite todumpster euser egroup

/-- The rename into the dumpster, once the dumpster is there. -/
def renameToDumpster (dir : ℤ) (fname : Name) (todumpster dumpster : ℤ) :
    Option (Status × CachedTree) :=
  if dumpster = dir then some (.eexist, cached)
  else
    (cached.renameWith env (fun _ _ _ _ => none) dir fname (dumpsterName fname todumpster) false
      (-1) userRoot groupRoot).map fun (status, _, cached) => (status, cached)

/-- `moveToDumpster`. -/
def moveToDumpster (dir : ℤ) (fname : Name) (todumpster : ℤ) : Option (Status × CachedTree) :=
  (cached.tree.lookup env rootFid dumpsterDir userRoot groupRoot).bind fun
    | .ok fa => cached.renameToDumpster env dir fname todumpster fa.id
    | .error _ =>
      (cached.tree.makeDumpsterDir env).bind fun tree =>
      let cached := { cached with tree }
      (cached.tree.lookup env rootFid dumpsterDir userRoot groupRoot).bind fun
        | .ok fa => cached.renameToDumpster env dir fname todumpster fa.id
        | .error _ => none

/-- `remove`. -/
def remove (dir : ℤ) (fname : Name) (todumpster : ℤ) (euser egroup : ℕ) :
    Option (Status × ℤ × CachedTree) :=
  (cached.tree.lookupWithParent env dir fname euser egroup).bind fun
    | .error status => some (status, todumpster, cached)
    | .ok (fa, parent) =>
      if fa.type ≠ .file then some (.eisdir, todumpster, cached)
      else if ¬ parent.canWrite env.isGroupMember euser egroup then
        some (.eacces, todumpster, cached)
      else if isDeleteRestricted parent fa euser then some (.eperm, todumpster, cached)
      else
        (cached.invalidatePathCache fname fa false).bind fun cached =>
        if 0 < fa.chunkcount ∧
            (0 < todumpster ∨ env.isValidLeaseIssued (cached.tree.getalloc fa.id)) then
          (cached.moveToDumpster env dir fname fa.id).map fun (status, cached) =>
            (status, fa.id, cached)
        else
          (cached.tree.removeFile dir fname fa).map fun tree =>
            (.ok, todumpster, { cached with tree })

/-- `rename`. -/
def rename (parent : ℤ) (oldname newname : Name) (overwrite : Bool) (todumpster : ℤ)
    (euser egroup : ℕ) : Option (Status × ℤ × CachedTree) :=
  cached.renameWith env (fun cached ddir dname sfattr =>
      if sfattr.type = .dir then
        (cached.rmdir env ddir dname euser egroup).map fun (status, cached) =>
          (status, todumpster, cached)
      else cached.remove env ddir dname todumpster euser egroup)
    parent oldname newname overwrite todumpster euser egroup

/-- `create`. -/
def create (dir : ℤ) (fname : Name) (newFid numReplicas : ℤ) (exclusive : Bool)
    (striperType numStripes numRecoveryStripes stripeSize : ℤ) (todumpster : ℤ)
    (user group mode euser egroup : ℕ) : Option (Status × ℤ × ℤ × CachedTree) :=
  if ¬ legalname fname then some (.einval, newFid, todumpster, cached)
  else if numReplicas ≤ 0 then some (.einval, newFid, todumpster, cached)
  else
    match cached.tree.getFattr dir with
    | none => some (.enoent, newFid, todumpster, cached)
    | some parent =>
      if parent.type ≠ .dir then some (.enotdir, newFid, todumpster, cached)
      else if ¬ parent.canWrite env.isGroupMember euser egroup then
        some (.eacces, newFid, todumpster, cached)
      else
        let createLink := fun (cached : CachedTree) (todumpster : ℤ) =>
          (cached.tree.createLink env dir fname newFid numReplicas striperType numStripes
            numRecoveryStripes stripeSize todumpster user group mode parent).map
              fun (status, fid, todumpster, tree) => (status, fid, todumpster,
                { cached with tree })
        (cached.tree.lookup env dir fname euser egroup).bind fun
          | .error .enoent => createLink cached todumpster
          | .error status => some (status, newFid, todumpster, cached)
          | .ok fa =>
            if fa.type ≠ .file then some (.eisdir, newFid, todumpster, cached)
            else if exclusive then some (.eexist, newFid, todumpster, cached)
            else if isDeleteRestricted parent fa euser then
              some (.eperm, newFid, todumpster, cached)
            else
              (cached.remove env dir fname todumpster euser egroup).bind fun
                | (.ok, todumpster, cached) => createLink cached todumpster
                | (status, todumpster, cached) => some (status, newFid, todumpster, cached)

end CachedTree

end QfsRepair.Meta
