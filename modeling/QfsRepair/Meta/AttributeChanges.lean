import QfsRepair.Meta.Chunks
import QfsRepair.Meta.DiskEntry

/-!
# Changes of attributes

The requests that change the mode, the owner, the replication and the
modification time of a file: the live handlers with the line each writes to
the log, and the handlers that replay the line.  A request comes with the user
it is made for; the names of users and groups have been resolved.
-/

namespace QfsRepair.Meta

/-- `IsValidMode`. -/
def isValidMode (mode : ℕ) (dirFlag : Bool) : Bool :=
  let mask := if dirFlag then 0o1777 else 0o777
  mode ≠ modeUndef && mode &&& mask = mode

namespace Fattr

/-- The storage tiers that `changeFileReplication` makes of the current ones. -/
def newTiers (current : ℤ × ℤ) (minSTier maxSTier : ℤ) : ℤ × ℤ :=
  let raised :=
    if minSTier ≠ sTierUndef then
      (minSTier, if current.2 < minSTier then minSTier else current.2)
    else current
  if maxSTier ≠ sTierUndef then
    (if maxSTier < raised.1 then maxSTier else raised.1, maxSTier)
  else raised

/-- The part of `changeFileReplication` that sets the storage tiers. -/
def setTiers (fa : Fattr) (minSTier maxSTier : ℤ) : Fattr :=
  { fa with
    minSTier := (newTiers (fa.minSTier, fa.maxSTier) minSTier maxSTier).1
    maxSTier := (newTiers (fa.minSTier, fa.maxSTier) minSTier maxSTier).2 }

/-- A tier that is given and out of range. -/
def TierRefused (tier : ℤ) : Prop := tier ≠ sTierUndef ∧ (tier < sTierMin ∨ sTierMax < tier)

instance (tier : ℤ) : Decidable (TierRefused tier) := inferInstanceAs (Decidable (_ ∧ _))

/-- `changeFileReplication`. -/
def changeReplication (fa : Fattr) (numReplicas minSTier maxSTier : ℤ) : Status × Fattr :=
  if fa.type ≠ .file ∧ 0 < numReplicas then (.eisdir, fa)
  else if TierRefused minSTier ∨ TierRefused maxSTier then (.einval, fa)
  else
    let fa := fa.setTiers minSTier maxSTier
    if numReplicas ≤ 0 then
      (if minSTier ≠ sTierUndef ∨ maxSTier ≠ sTierUndef then .ok else .einval, fa)
    else if fa.numReplicas = numReplicas then (.ok, fa)
    else (.ok, { fa with numReplicas := numReplicas % 2 ^ 14 })

/-- The number of replicas that a request may ask for. -/
def limitReplicas (fa : Fattr) (settings : Settings) (numReplicas : ℤ) : ℤ :=
  if fa.type = .dir then numReplicas
  else
    min numReplicas (max fa.numReplicas
      (if fa.IsStriped ∧ 0 < fa.numRecoveryStripes then settings.maxReplicasPerRSFile
      else settings.maxReplicasPerFile))

end Fattr

/-! ## Requests -/

/-- A request after its validation.  `setMtime` names the file by its path;
`noteMtime` is the request that the server makes to log a time it has set.
`authenticated` selects the group database of the server. -/
inductive AttributeRequest where
  | chmod (fid : ℤ) (mode euser : ℕ)
  | chown (fid : ℤ) (user group euser : ℕ) (authenticated : Bool)
  | changeReplication (fid numReplicas minSTier maxSTier : ℤ) (stripedSupport : Bool)
      (euser egroup : ℕ)
  | setMtime (pathname : Name) (mtime : ℤ) (euser egroup : ℕ)
  | noteMtime (fid mtime : ℤ)

namespace Tree

variable (tree : Tree) (env : Environment)

/-- `MetaChmod::handle`. -/
def handleChmod (fid : ℤ) (mode euser : ℕ) : Status × Tree :=
  match tree.getFattr fid with
  | none => (.enoent, tree)
  | some fa =>
    if ¬ isValidMode mode (fa.type = .dir) then (.einval, tree)
    else if fa.user ≠ euser ∧ euser ≠ userRoot then (.eacces, tree)
    else (.ok, tree.modifyFattr fid fun fa => { fa with mode := mode })

/-- The change of owner and group. -/
def setOwner (fid : ℤ) (user group : ℕ) : Tree :=
  tree.modifyFattr fid fun fa => { fa with
    user := if user ≠ userNone then user else fa.user
    group := if group ≠ groupNone then group else fa.group }

/-- `MetaChown::handle`. -/
def handleChown (fid : ℤ) (user group euser : ℕ) (authenticated : Bool) : Status × Tree :=
  match tree.getFattr fid with
  | none => (.enoent, tree)
  | some fa =>
    let owner := if user = userNone then euser else user
    let isMember := if authenticated then env.isGroupMember owner group else group ≠ groupNone
    if fa.user ≠ euser ∧ euser ≠ userRoot then (.eacces, tree)
    else if user ≠ userNone ∧ euser ≠ user ∧ euser ≠ userRoot then (.eacces, tree)
    else if group ≠ groupNone ∧ euser ≠ userRoot ∧ ¬ isMember then (.eacces, tree)
    else (.ok, tree.setOwner fid user group)

/-- `MetaSetMtime::handle` for a path; also the id of the file. -/
def handleSetMtime (pathname : Name) (mtime : ℤ) (euser egroup : ℕ) :
    Option (Status × ℤ × Tree) :=
  (tree.lookupPath env rootFid pathname euser egroup).map fun
    | .error status => (status, -1, tree)
    | .ok fa =>
      if ¬ fa.canWrite env.isGroupMember euser egroup then (.eacces, -1, tree)
      else (.ok, fa.id, tree.setMtime fa.id mtime)

/-- What `MetaChangeFileReplication::handle` leaves to be logged: the number of
replicas and the tiers, if there is anything to log. -/
def replicationLog (before after : Fattr) : Option (ℤ × ℤ × ℤ) :=
  let numReplicas := if after.type = .dir then 0 else after.numReplicas
  if after.minSTier ≠ before.minSTier ∨ after.maxSTier ≠ before.maxSTier then
    some (numReplicas, after.minSTier, after.maxSTier)
  else if after.type ≠ .dir ∧ numReplicas ≠ before.numReplicas then
    some (numReplicas, sTierUndef, sTierUndef)
  else none

/-- `MetaChangeFileReplication::handle`. -/
def handleChangeReplication (settings : Settings)
    (fid numReplicas minSTier maxSTier : ℤ) (stripedSupport : Bool) (euser egroup : ℕ) :
    Status × Option (ℤ × ℤ × ℤ) × Tree :=
  match tree.getFattr fid with
  | none => (.enoent, none, tree)
  | some fa =>
    if fa.IsStriped ∧ ¬ stripedSupport then (.einval, none, tree)
    else if ¬ fa.canWrite env.isGroupMember euser egroup then (.eacces, none, tree)
    else if fa.type = .dir ∧ euser ≠ userRoot then (.eacces, none, tree)
    else
      let numReplicas := fa.limitReplicas settings numReplicas
      let (status, after) := fa.changeReplication numReplicas minSTier maxSTier
      (status, if status = .ok then replicationLog fa after else none,
        tree.modifyFattr fid fun fa => (fa.changeReplication numReplicas minSTier maxSTier).2)

end Tree

/-! ## Log lines -/

/-- `MetaChmod::log`. -/
def chmodEntry (fid : ℤ) (mode : ℕ) : Name :=
  entry ["chmod".toList, "file".toList, showInt 64 fid, "mode".toList, showInt 16 mode]

/-- `MetaChown::log`. -/
def chownEntry (fid : ℤ) (user group : ℕ) : Name :=
  entry ["chown".toList, "file".toList, showInt 64 fid, "user".toList, showInt 32 user,
    "group".toList, showInt 32 group]

/-- `MetaSetMtime::log`. -/
def setMtimeEntry (fid mtime : ℤ) : Name :=
  entry (["setmtime".toList, "file".toList, showInt 64 fid, "mtime".toList] ++ showTime mtime)

/-- `MetaChangeFileReplication::log`. -/
def setrepEntry (fid numReplicas minSTier maxSTier : ℤ) : Name :=
  entry (["setrep".toList, "file".toList, showInt 64 fid, "replicas".toList,
      showInt 16 numReplicas] ++
    if minSTier ≠ sTierUndef ∧ maxSTier ≠ sTierUndef then
      ["minTier".toList, showInt 32 minSTier, "maxTier".toList, showInt 32 maxSTier]
    else [])

/-- The status of a request, what it writes to the log and the tree after it;
only requests that succeed are logged. -/
def AttributeRequest.handle (settings : Settings) (env : Environment) (tree : Tree) :
    AttributeRequest → Option (Status × Name × Tree)
  | chmod fid mode euser =>
    let (status, tree) := tree.handleChmod fid mode euser
    some (status, if status = .ok then chmodEntry fid mode else [], tree)
  | chown fid user group euser authenticated =>
    let (status, tree) := tree.handleChown env fid user group euser authenticated
    some (status, if status = .ok then chownEntry fid user group else [], tree)
  | changeReplication fid numReplicas minSTier maxSTier stripedSupport euser egroup =>
    let (status, log, tree) := tree.handleChangeReplication env settings fid numReplicas
      minSTier maxSTier stripedSupport euser egroup
    some (status, match log with
      | some (numReplicas, minSTier, maxSTier) => setrepEntry fid numReplicas minSTier maxSTier
      | none => [], tree)
  | setMtime pathname mtime euser egroup =>
    (tree.handleSetMtime env pathname mtime euser egroup).map fun (status, fid, tree) =>
      (status, if status = .ok then setMtimeEntry fid mtime else [], tree)
  | noteMtime fid mtime => some (.ok, setMtimeEntry fid mtime, tree)

/-! ## Replay -/

namespace Tree

variable (tree : Tree) (cursor : Cursor)

/-- `replay_chmod`. -/
def replayChmod : Option Tree :=
  (cursor.popFid "file".toList).required fun fid cursor =>
  (cursor.popNum "mode".toList).required fun mode _ =>
  (tree.getFattr fid).map fun _ =>
    tree.modifyFattr fid fun fa => { fa with mode := (mode % 2 ^ 16).toNat }

/-- `replay_chown`; the group is stored as the owner. -/
def replayChown : Option Tree :=
  (cursor.popFid "file".toList).required fun fid cursor =>
  (cursor.popNum "user".toList).required fun user cursor =>
  (cursor.popNum "group".toList).required fun group _ =>
  let user := (user % 2 ^ 32).toNat
  let group := (group % 2 ^ 32).toNat
  if user = userNone ∧ group = groupNone then none
  else
    (tree.getFattr fid).map fun _ =>
      let tree :=
        if user ≠ userNone then tree.modifyFattr fid fun fa => { fa with user := user } else tree
      if group ≠ groupNone then tree.modifyFattr fid fun fa => { fa with user := group }
      else tree

/-- The optional tiers of `replay_setrep`. -/
def popTiers : Option (ℤ × ℤ) :=
  if cursor.tokens = [] then some (sTierUndef, sTierUndef)
  else
    (cursor.popNum "minTier".toList).required fun minSTier cursor =>
    (cursor.popNum "maxTier".toList).required fun maxSTier _ =>
      some (minSTier.bmod (2 ^ 8), maxSTier.bmod (2 ^ 8))

/-- `replay_setrep`. -/
def replaySetrep : Option Tree :=
  (cursor.popFid "file".toList).required fun fid cursor =>
  (cursor.popShort "replicas".toList).required fun numReplicas cursor =>
  (popTiers cursor).bind fun (minSTier, maxSTier) =>
  (tree.getFattr fid).bind fun fa =>
    if (fa.changeReplication numReplicas minSTier maxSTier).1 = .ok then
      some (tree.modifyFattr fid fun fa =>
        (fa.changeReplication numReplicas minSTier maxSTier).2)
    else none

/-- `replay_setmtime`; a file that is gone is passed over. -/
def replaySetmtime : Option Tree :=
  (cursor.popFid "file".toList).required fun fid cursor =>
  (cursor.popTime "mtime".toList).required fun mtime _ => some (tree.setMtime fid mtime)

end Tree

end QfsRepair.Meta
