import QfsRepair.Meta.AttributeChanges

/-!
# Changes of the namespace

The requests `create`, `mkdir`, `remove`, `rmdir` and `rename`: the live
handlers, with the line each but the last writes to the log, and the handlers
that replay the line.
-/

namespace QfsRepair.Meta

/-- The user a request is made for, after `SetEUserAndEGroup`, and the
authenticated user, if any. -/
structure Caller where
  euser : ℕ
  egroup : ℕ
  authUid : ℕ
  authGid : ℕ

/-- The users, groups and mode with which a file or directory is created. -/
structure Ownership where
  euser : ℕ
  egroup : ℕ
  user : ℕ
  group : ℕ
  mode : ℕ

/-- `CheckUserAndGroup`. -/
def checkUserAndGroup (env : Environment) (caller : Caller) (owner : Ownership) : Status :=
  let isMember :=
    if caller.authUid ≠ userNone then env.isGroupMember owner.user owner.group
    else owner.group ≠ groupNone
  if owner.user = userNone then .einval
  else if owner.group = groupNone then .einval
  else if owner.user ≠ owner.euser ∧ owner.euser ≠ userRoot then .eperm
  else if owner.euser ≠ userRoot ∧ ¬ isMember then .eperm
  else .ok

/-- `CheckCreatePerms`. -/
def checkCreatePerms (settings : Settings) (env : Environment) (caller : Caller)
    (user group mode : ℕ) (dirFlag : Bool) : Except Status Ownership :=
  let mode :=
    if mode = modeUndef then
      if dirFlag then settings.defaultDirMode else settings.defaultFileMode
    else mode
  let owner :=
    if caller.authUid = userNone then
      let euser := if caller.euser = userNone then settings.defaultUser else caller.euser
      let egroup := if caller.egroup = groupNone then settings.defaultGroup else caller.egroup
      ({ euser, egroup, mode
         user := if user = userNone then euser else user
         group := if group = groupNone then egroup else group } : Ownership)
    else
      { euser := caller.euser
        egroup := caller.egroup
        mode
        user := if user = userNone then caller.authUid else user
        group := if group = groupNone then caller.authGid else group }
  if ¬ isValidMode mode dirFlag then .error .einval
  else
    match checkUserAndGroup env caller owner with
    | .ok => .ok owner
    | status => .error status

/-- `IsWormMutationAllowed`. -/
def isWormMutationAllowed (pathname : Name) : Bool := ".tmp".toList.isSuffixOf pathname

/-! ## Requests -/

structure CreateRequest where
  dir : ℤ
  name : Name
  numReplicas : ℤ
  striperType : ℤ
  numStripes : ℤ
  numRecoveryStripes : ℤ
  stripeSize : ℤ
  exclusive : Bool
  user : ℕ
  group : ℕ
  mode : ℕ
  minSTier : ℤ
  maxSTier : ℤ

/-- What a create request holds when it is logged. -/
structure CreateLog extends CreateRequest where
  fid : ℤ
  todumpster : ℤ

inductive NamespaceRequest where
  | create (request : CreateRequest)
  | mkdir (dir : ℤ) (name : Name) (user group mode : ℕ)
  | remove (dir : ℤ) (name : Name)
  | rmdir (dir : ℤ) (name : Name)

/-! ## Live handlers -/

/-- `LayoutManager::Validate` of a create request. -/
def Settings.createAllowed (settings : Settings) (request : CreateRequest) : Prop :=
  ¬ settings.createFileTypeExclude request.striperType ∧
    request.numStripes ≤ settings.maxDataStripeCount ∧
    request.numRecoveryStripes ≤ settings.maxRecoveryStripeCount ∧
    (0 < request.numRecoveryStripes → request.numStripes ≤ settings.maxRSDataStripeCount)

instance (settings : Settings) (request : CreateRequest) :
    Decidable (settings.createAllowed request) :=
  inferInstanceAs (Decidable (_ ∧ _))

/-- The check of the storage tiers of a new file. -/
def TierRangeRefused (minSTier maxSTier : ℤ) : Prop :=
  maxSTier < minSTier ∨ minSTier < sTierMin ∨ sTierMax < minSTier ∨
    maxSTier < sTierMin ∨ sTierMax < maxSTier

instance (minSTier maxSTier : ℤ) : Decidable (TierRangeRefused minSTier maxSTier) :=
  inferInstanceAs (Decidable (_ ∨ _))

def invalidChunksPath : Name := "/proc/invalid_chunks".toList
def invalidChunksPrefix : Name := invalidChunksPath ++ ['/']

/-- The chunk id that the name of an invalid chunk gives, if it is a number of
64 bits. -/
def parseChunkId (name : Name) : Option ℤ :=
  if name ≠ [] ∧ name.all Char.isDigit then
    let value : ℤ := Nat.ofDigitChars 10 name 0
    if value < 2 ^ 63 then some value else none
  else none

namespace Tree

variable (tree : Tree) (settings : Settings) (env : Environment) (caller : Caller)

/-- `GetChunkFileId`: the attribute of the file of a chunk. -/
def chunkFattr (chunkId : ℤ) : Option Fattr :=
  (tree.leaves.findSome? fun
    | .chunkInfo chunk => if chunk.chunkId = chunkId then some chunk.fid else none
    | _ => none).bind tree.getFattr

/-- The end of `MetaCreate::handle`: the checks that need no lookup, and the
call of `create`. -/
def handleCreateChecked (request : CreateRequest) (euser egroup : ℕ) :
    Option (Status × CreateLog × Tree) :=
  let numReplicas := min request.numReplicas
    (if request.striperType ≠ Striping.stripedFileTypeNone ∧ 0 < request.numRecoveryStripes then
      settings.maxReplicasPerRSFile else settings.maxReplicasPerFile)
  let request := { request with numReplicas }
  let log : CreateLog := { request with fid := 0, todumpster := -1 }
  if TierRangeRefused request.minSTier request.maxSTier then some (.einval, log, tree)
  else if ¬ settings.createAllowed request then some (.eperm, log, tree)
  else
    (tree.create env request.dir request.name 0 request.numReplicas request.exclusive
        request.striperType request.numStripes request.numRecoveryStripes request.stripeSize (-1)
        request.user request.group request.mode euser egroup).bind
      fun (status, fid, todumpster, tree) =>
        let log := { log with fid, todumpster }
        if status ≠ .ok then some (status, log, tree)
        else if request.minSTier < sTierMax then
          some (.ok, log, tree.modifyFattr fid fun fa => { fa with
            minSTier := request.minSTier
            maxSTier := request.maxSTier })
        else
          (tree.getFattr fid).map fun fa =>
            (.ok, { log with minSTier := fa.minSTier, maxSTier := fa.maxSTier }, tree)

/-- `MetaCreate::handle` for a name that reports an invalid chunk. -/
def handleInvalidChunk (request : CreateRequest) : Option (Status × CreateLog × Tree) :=
  let request := { request with name := request.name.drop invalidChunksPrefix.length }
  let log : CreateLog := { request with fid := -1, todumpster := -1 }
  match parseChunkId request.name with
  | none => some (.einval, log, tree)
  | some chunkId =>
    match tree.chunkFattr chunkId with
    | none => some (.enoent, log, tree)
    | some cfa =>
      -- the request ends with the status it came with
      if cfa.filesize ≤ 0 then some (.ok, log, tree)
      else if settings.panicOnInvalidChunk then none
      else
        (tree.lookupPath env rootFid invalidChunksPath userRoot groupRoot).bind fun
          | .error status => some (status, log, tree)
          | .ok fa =>
            if fa.type ≠ .dir then some (.enoent, log, tree)
            else
              let unknown := request.user = userNone ∧ caller.authUid = userNone
              tree.handleCreateChecked settings env { request with
                  dir := fa.id
                  user :=
                    if unknown then
                      if caller.euser ≠ userNone then caller.euser else userRoot
                    else request.user
                  group :=
                    if unknown then
                      if caller.egroup ≠ groupNone then caller.egroup else groupRoot
                    else request.group
                  mode := 0
                  minSTier := sTierMax
                  maxSTier := sTierMax }
                (if caller.authUid = userNone then userRoot else caller.euser)
                caller.egroup

/-- `MetaCreate::handle`. -/
def handleCreate (request : CreateRequest) : Option (Status × CreateLog × Tree) :=
  if request.dir = rootFid ∧ invalidChunksPrefix.isPrefixOf request.name then
    tree.handleInvalidChunk settings env caller request
  else
    let log : CreateLog := { request with fid := -1, todumpster := -1 }
    match checkCreatePerms settings env caller request.user request.group request.mode false with
    | .error status => some (status, log, tree)
    | .ok owner =>
      if settings.wormMode ∧ ¬ isWormMutationAllowed request.name then some (.eperm, log, tree)
      else
        tree.handleCreateChecked settings env { request with
            user := owner.user
            group := owner.group
            mode := owner.mode } owner.euser owner.egroup

/-- `MetaMkdir::handle`: also the id of the directory and its owner. -/
def handleMkdir (dir : ℤ) (name : Name) (user group mode : ℕ) :
    Option (Status × ℤ × Ownership × Tree) :=
  match checkCreatePerms settings env caller user group mode true with
  | .error status => some (status, -1, ⟨caller.euser, caller.egroup, user, group, mode⟩, tree)
  | .ok owner =>
    (tree.mkdir env dir name owner.user owner.group owner.mode owner.euser owner.egroup 0).map
      fun (status, fid, tree) => (status, fid, owner, tree)

/-- `LookupAbsPath`: the directory and the name that an absolute path stands
for. -/
def lookupAbsPath (dir : ℤ) (name : Name) (euser egroup : ℕ) :
    Option (Except Status (ℤ × Name)) :=
  if dir ≠ rootFid ∨ name.head? ≠ some '/' ∨ name.getLast? = some '/' then some (.ok (dir, name))
  else
    let base := (name.reverse.takeWhile fun char => char ≠ '/').reverse
    let parent := ((name.reverse.drop base.length).dropWhile fun char => char = '/').reverse
    if parent = [] then some (.ok (dir, base))
    else
      (tree.lookupPath env rootFid parent euser egroup).map fun
        | .error status => .error status
        | .ok fa => if fa.type = .dir then .ok (fa.id, base) else .ok (dir, name)

/-- `MetaRemove::handle`: also the directory and the name that are logged and
`todumpster`. -/
def handleRemove (dir : ℤ) (name : Name) : Option (Status × ℤ × Name × ℤ × Tree) :=
  if settings.wormMode ∧ ¬ isWormMutationAllowed name then some (.eperm, dir, name, -1, tree)
  else
    (tree.lookupAbsPath env dir name caller.euser caller.egroup).bind fun
      | .error status => some (status, dir, name, -1, tree)
      | .ok (dir, name) =>
        (tree.remove env dir name (-1) caller.euser caller.egroup).map
          fun (status, todumpster, tree) => (status, dir, name, todumpster, tree)

/-- `MetaRmdir::handle`: also the directory and the name that are logged. -/
def handleRmdir (dir : ℤ) (name : Name) : Option (Status × ℤ × Name × Tree) :=
  if settings.wormMode ∧ ¬ isWormMutationAllowed name then some (.eperm, dir, name, tree)
  else
    (tree.lookupAbsPath env dir name caller.euser caller.egroup).bind fun
      | .error status => some (status, dir, name, tree)
      | .ok (dir, name) =>
        (tree.rmdir env dir name caller.euser caller.egroup).map
          fun (status, tree) => (status, dir, name, tree)

/-- `MetaRename::handle`: also the id of a replaced file that went to the
dumpster. -/
def handleRename (dir : ℤ) (oldname newname : Name) (overwrite : Bool) :
    Option (Status × ℤ × Tree) :=
  let rename := tree.rename env dir oldname newname overwrite (-1) caller.euser caller.egroup
  if settings.wormMode then
    if ¬ isWormMutationAllowed oldname then some (.eperm, -1, tree)
    else
      (tree.lookupPath env rootFid newname caller.euser caller.egroup).bind fun
        | .error .enoent => rename
        | .error status => some (status, -1, tree)
        | .ok _ => some (.eperm, -1, tree)
  else rename

end Tree

/-! ## Log lines -/

/-- `MetaCreate::log`. -/
def createEntry (log : CreateLog) (ctime : ℤ) : Name :=
  entry (["create".toList, "dir".toList, showInt 64 log.dir, "name".toList, log.name,
      "id".toList, showInt 64 log.fid, "numReplicas".toList, showInt 16 log.numReplicas,
      "ctime".toList] ++ showTime ctime ++
    (if log.striperType ≠ Striping.stripedFileTypeNone then
      ["striperType".toList, showInt 32 log.striperType,
        "numStripes".toList, showInt 32 log.numStripes,
        "numRecoveryStripes".toList, showInt 32 log.numRecoveryStripes,
        "stripeSize".toList, showInt 32 log.stripeSize]
    else []) ++
    (if 0 < log.todumpster then ["todumpster".toList, showInt 64 log.todumpster] else []) ++
    ["user".toList, showInt 32 log.user, "group".toList, showInt 32 log.group,
      "mode".toList, showInt 16 log.mode] ++
    (if log.minSTier < sTierMax then
      ["minTier".toList, showInt 32 log.minSTier, "maxTier".toList, showInt 32 log.maxSTier]
    else []))

/-- `MetaMkdir::log`. -/
def mkdirEntry (dir : ℤ) (name : Name) (fid ctime : ℤ) (owner : Ownership) : Name :=
  entry (["mkdir".toList, "dir".toList, showInt 64 dir, "name".toList, name,
      "id".toList, showInt 64 fid, "ctime".toList] ++ showTime ctime ++
    ["user".toList, showInt 32 owner.user, "group".toList, showInt 32 owner.group,
      "mode".toList, showInt 16 owner.mode])

/-- `MetaRemove::log`. -/
def removeEntry (dir : ℤ) (name : Name) (todumpster : ℤ) : Name :=
  entry (["remove".toList, "dir".toList, showInt 64 dir, "name".toList, name] ++
    if 0 < todumpster then ["todumpster".toList, showInt 64 todumpster] else [])

/-- `MetaRmdir::log`. -/
def rmdirEntry (dir : ℤ) (name : Name) : Name :=
  entry ["rmdir".toList, "dir".toList, showInt 64 dir, "name".toList, name]

/-- The status of a request, what it writes to the log and the tree after it;
the time in the log is the time of the clock. -/
def NamespaceRequest.handle (settings : Settings) (env : Environment) (caller : Caller)
    (tree : Tree) : NamespaceRequest → Option (Status × Name × Tree)
  | create request =>
    (tree.handleCreate settings env caller request).map fun (status, log, tree) =>
      (status, if status = .ok then createEntry log env.now else [], tree)
  | mkdir dir name user group mode =>
    (tree.handleMkdir settings env caller dir name user group mode).map
      fun (status, fid, owner, tree) =>
        (status, if status = .ok then mkdirEntry dir name fid env.now owner else [], tree)
  | remove dir name =>
    (tree.handleRemove settings env caller dir name).map
      fun (status, dir, name, todumpster, tree) =>
        (status, if status = .ok then removeEntry dir name todumpster else [], tree)
  | rmdir dir name =>
    (tree.handleRmdir settings env caller dir name).map fun (status, dir, name, tree) =>
      (status, if status = .ok then rmdirEntry dir name else [], tree)

/-! ## Replay -/

/-- The stripe parameters of `replay_create`; they are looked for only behind a
time.  The flag tells that the entry has been read so far. -/
def popStripes (gottime : Bool) (cursor : Cursor) : Option ((ℤ × ℤ × ℤ × ℤ) × Cursor) :=
  if ¬ gottime then some ((Striping.stripedFileTypeNone, 0, 0, 0), cursor)
  else
    match cursor.popFid "striperType".toList with
    | (none, rest) =>
      -- a value of -1 is stored before it is refused
      some ((if rest = cursor then Striping.stripedFileTypeNone else -1, 0, 0, 0), rest)
    | (some striperType, cursor) =>
      (cursor.popFid "numStripes".toList).required fun numStripes cursor =>
      (cursor.popFid "numRecoveryStripes".toList).required fun numRecoveryStripes cursor =>
      (cursor.popFid "stripeSize".toList).required fun stripeSize cursor =>
        some ((striperType, numStripes, numRecoveryStripes, stripeSize), cursor)

/-- Owner, group and mode in an entry, none of them undefined. -/
def popOwner (cursor : Cursor) : Option ((ℕ × ℕ × ℕ) × Cursor) :=
  (cursor.popNum "user".toList).required fun user cursor =>
  if (user % 2 ^ 32).toNat = userNone then none
  else
    (cursor.popNum "group".toList).required fun group cursor =>
    if (group % 2 ^ 32).toNat = groupNone then none
    else
      (cursor.popNum "mode".toList).required fun mode cursor =>
        some (((user % 2 ^ 32).toNat, (group % 2 ^ 32).toNat, (mode % 2 ^ 16).toNat), cursor)

/-- The storage tiers at the end of a create entry. -/
def popCreateTiers (cursor : Cursor) : Option (ℤ × ℤ) :=
  if cursor.tokens = [] then some (sTierMax, sTierMax)
  else
    (cursor.popNum "minTier".toList).required fun minSTier cursor =>
    (cursor.popNum "maxTier".toList).required fun maxSTier _ =>
      some (minSTier.bmod (2 ^ 8), maxSTier.bmod (2 ^ 8))

namespace Tree

variable (tree : Tree) (settings : Settings) (env : Environment) (cursor : Cursor)

/-- `updateSeed`; a seed that goes back is a panic. -/
def updateFileIdSeed (seed : ℤ) : Option Tree :=
  if seed < tree.fileIdSeed then none else some { tree with fileIdSeed := seed }

/-- The times of a replayed entry. -/
def setTimes (fid : ℤ) (ctime : Option ℤ) : Tree :=
  match ctime with
  | none => tree
  | some ctime => tree.modifyFattr fid fun fa => { fa with
      mtime := ctime
      ctime := ctime
      crtime := ctime }

/-- The end of `replay_create`, once the entry has been read. -/
def replayCreateFile (parent : ℤ) (myname : Name) (me numReplicas : ℤ) (ctime : Option ℤ)
    (stripes : ℤ × ℤ × ℤ × ℤ) (todumpster : ℤ) (owner : ℕ × ℕ × ℕ) (tiers : ℤ × ℤ) :
    Option Tree :=
  let (striperType, numStripes, numRecoveryStripes, stripeSize) := stripes
  let (user, group, mode) := owner
  let (minSTier, maxSTier) := tiers
  if user = userNone ∨ group = groupNone ∨ mode = modeUndef then none
  else if TierRangeRefused minSTier maxSTier then none
  else
    (tree.create env parent myname me numReplicas false (striperType.bmod (2 ^ 32))
        (numStripes.bmod (2 ^ 32)) (numRecoveryStripes.bmod (2 ^ 32)) (stripeSize.bmod (2 ^ 32))
        todumpster user group mode userRoot groupRoot).bind fun
      | (.ok, fid, _, tree) =>
        (tree.updateFileIdSeed fid).map fun tree =>
          let tree := tree.setTimes fid ctime
          let tree :=
            if ctime.isSome then tree.modifyFattr fid fun fa => { fa with
              filesize := if fa.IsStriped then 0 else fa.filesize }
            else tree
          if minSTier < sTierMax then tree.modifyFattr fid fun fa => { fa with
            minSTier := minSTier
            maxSTier := maxSTier }
          else tree
      | _ => none

/-- `replay_create`. -/
def replayCreate : Option Tree :=
  (cursor.popFid "dir".toList).required fun parent cursor =>
  (cursor.popName "name".toList).required fun myname cursor =>
  (cursor.popFid "id".toList).required fun me cursor =>
  (cursor.popShort "numReplicas".toList).required fun numReplicas cursor =>
  let (ctime, cursor) := cursor.popTime "ctime".toList
  (popStripes ctime.isSome cursor).bind fun (stripes, cursor) =>
  let (todumpster, cursor) := cursor.popFid "todumpster".toList
  (if cursor.tokens = [] then
    some ((settings.defaultLoadUser, settings.defaultLoadGroup, settings.defaultLoadFileMode),
      (sTierMax, sTierMax))
  else
    (popOwner cursor).bind fun (owner, cursor) =>
      (popCreateTiers cursor).map fun tiers => (owner, tiers)).bind fun (owner, tiers) =>
  tree.replayCreateFile env parent myname me numReplicas ctime stripes
    (todumpster.getD (-1)) owner tiers

/-- `replay_mkdir`. -/
def replayMkdir : Option Tree :=
  (cursor.popFid "dir".toList).required fun parent cursor =>
  (cursor.popName "name".toList).required fun myname cursor =>
  (cursor.popFid "id".toList).required fun me cursor =>
  let (ctime, cursor) := cursor.popTime "ctime".toList
  (if (cursor.popNum "user".toList).1.isSome then (popOwner cursor).map Prod.fst
  else
    some (settings.defaultLoadUser, settings.defaultLoadGroup, settings.defaultLoadFileMode)).bind
    fun (user, group, mode) =>
      if user = userNone ∨ group = groupNone ∨ mode = modeUndef then none
      else
        (tree.mkdir env parent myname user group mode userRoot groupRoot me).bind fun
          | (.ok, fid, tree) =>
            (tree.updateFileIdSeed fid).map fun tree => tree.setTimes fid ctime
          | _ => none

/-- `replay_remove`. -/
def replayRemove : Option Tree :=
  (cursor.popFid "dir".toList).required fun parent cursor =>
  (cursor.popName "name".toList).required fun myname cursor =>
  let todumpster := (cursor.popFid "todumpster".toList).1.getD (-1)
  (tree.remove env parent myname todumpster userRoot groupRoot).bind fun
    | (.ok, _, tree) => some tree
    | _ => none

/-- `replay_rmdir`. -/
def replayRmdir : Option Tree :=
  (cursor.popFid "dir".toList).required fun parent cursor =>
  (cursor.popName "name".toList).required fun myname _ =>
  (tree.rmdir env parent myname userRoot groupRoot).bind fun
    | (.ok, tree) => some tree
    | _ => none

/-- `replay_rename`. -/
def replayRename : Option Tree :=
  (cursor.popFid "dir".toList).required fun parent cursor =>
  (cursor.popName "old".toList).required fun oldname cursor =>
  (cursor.popPath "new".toList).required fun newpath cursor =>
  let todumpster := (cursor.popFid "todumpster".toList).1.getD (-1)
  (tree.rename env parent oldname newpath true todumpster userRoot groupRoot).bind fun
    | (.ok, _, tree) => some tree
    | _ => none

end Tree

end QfsRepair.Meta
