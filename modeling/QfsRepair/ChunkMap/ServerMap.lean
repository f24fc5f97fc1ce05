import QfsRepair.ChunkMap.IndexWord
import QfsRepair.Store.Cursor

/-!
# The map from chunks to servers

`CSMap` gives every chunk server a slot and keeps for each chunk the slots of
the servers that host it.  A server that is removed leaves its slot at once, but
the slot stays in the entries until a scan of all entries, done in small steps,
has come to its end; only then the slot is given to another server.  A
hibernated server keeps its slot.

`none` is a panic or undefined behaviour.  Servers are known by a number in
place of a pointer.  The hash table of the entries is a function, the bits of
the hibernated slots as well; iteration over the entries of one state, the file
and the version of a chunk and the checks of the debug mode are left out.
-/

namespace QfsRepair.ChunkMap

open Function
open Store (prev lastBefore insertBefore)

/-- A node of the list of all entries: one of the heads `mLists`, between which
the entries of one state stand, or an entry. -/
inductive ListNode where
  | head (position : ℕ)
  | entry (chunkId : ℤ)
  deriving DecidableEq

def ListNode.isEntry : ListNode → Bool
  | head _ => false
  | entry _ => true

def kStateCount : ℕ := 6

/-- What the allocator returns during one call: to an entry, when it has so many
indices.  No call allocates twice for the same entry and the same number. -/
abbrev Memory := ℤ → ℕ → Allocation

namespace Entry

variable (entry : Entry)

/-- `ClearServers`, also what the destructor does. -/
def clearServers : Option Entry :=
  if entry.isAddr then entry.addrClear
  else some { entry with idxData := entry.idxData &&& kStateMask }

/-- `IndexAt` for all positions below `ServerCount`. -/
def indexes : Option (List ℕ) := do
  let count ← entry.serverCount
  (List.range count).mapM entry.indexAt

end Entry

/-- The slots: the server in each, those of removed servers that entries may
still refer to, those that are free, and the hibernated ones.  `index` is the
slot that a server is told. -/
structure SlotTable where
  servers : List (Option ℕ)
  index : ℕ → ℤ
  pendingRemove : List ℕ
  nullSlots : List ℕ
  serverCount : ℕ
  hibernated : ℕ → Bool
  hibernatedCount : ℕ

/-- `chunkCount` is the number of chunks that a server is told to host. -/
structure CSMap extends SlotTable where
  entries : ℤ → Option Entry
  order : List ListNode
  chunkCount : ℕ → ℕ
  removeServerScanPtr : Option ListNode

namespace CSMap

/-- The constructor; no server has a slot. -/
def empty : CSMap where
  entries := fun _ => none
  order := (List.range (kStateCount + 1)).map .head
  servers := []
  index := fun _ => -1
  chunkCount := fun _ => 0
  pendingRemove := []
  nullSlots := []
  serverCount := 0
  hibernated := fun _ => false
  hibernatedCount := 0
  removeServerScanPtr := none

variable (map : CSMap) (memory : Memory)

/-- `Validate` of a server. -/
def validate (server : ℕ) : Bool :=
  0 ≤ map.index server ∧ map.servers[(map.index server).toNat]? = some (some server)

/-! ## The scan -/

/-- `RemoveServerScanNext` from `ptr`: the scan goes back to the entry before it;
at the beginning of the list the slots of the removed servers are free. -/
def removeServerScanNext (ptr : ListNode) : CSMap :=
  match lastBefore ListNode.isEntry map.order ptr with
  | some node => { map with removeServerScanPtr := some node }
  | none => { map with
      removeServerScanPtr := none
      nullSlots := map.nullSlots ++ map.pendingRemove
      pendingRemove := [] }

/-- `RemoveServerScanFirst`. -/
def removeServerScanFirst : CSMap := map.removeServerScanNext (.head kStateCount)

/-- `RemoveServerScanCur`. -/
def removeServerScanCur : CSMap :=
  match map.removeServerScanPtr with
  | some (.head position) => map.removeServerScanNext (.head position)
  | _ => map

/-- The pointer of the scan when an entry is taken from its place. -/
def scanPtrWithout (chunkId : ℤ) : Option ListNode :=
  if map.removeServerScanPtr = some (.entry chunkId) then prev map.order (.entry chunkId)
  else map.removeServerScanPtr

/-- `SetStateSelf`: the entry goes to the end of the list of its state. -/
def setStateSelf (chunkId : ℤ) (entry : Entry) (state : ReplicationState) : CSMap :=
  { map with
    removeServerScanPtr := map.scanPtrWithout chunkId
    entries := update map.entries chunkId (some (entry.setState state))
    order := insertBefore (.entry chunkId) (.head (state.code + 1))
      (map.order.erase (.entry chunkId)) }

/-- The loop of `CleanupStaleServers`: `left` positions from `position` on.  The
results are the number of indices that stay, the servers and the number of
hibernated ones. -/
def cleanupLoop (allocs : ℕ → Allocation) :
    ℕ → ℕ → Entry → List ℕ → ℕ → Option (Entry × ℕ × List ℕ × ℕ)
  | 0, position, entry, servers, hibernatedCount =>
    some (entry, position, servers, hibernatedCount)
  | left + 1, position, entry, servers, hibernatedCount => do
      let idx ← entry.indexAt position
      match ← map.servers[idx]? with
      | some server =>
        cleanupLoop allocs left (position + 1) entry (servers ++ [server]) hibernatedCount
      | none =>
        if map.hibernated idx then
          cleanupLoop allocs left (position + 1) entry servers (hibernatedCount + 1)
        else
          let (_, entry) ← entry.removeIndex idx (allocs (position + (left + 1)))
          cleanupLoop allocs left position entry servers hibernatedCount

/-- `CleanupStaleServers`: the servers of a chunk, the number of hibernated ones
and the map without the indices of removed servers. -/
def cleanupStaleServers (chunkId : ℤ) (entry : Entry) : Option (List ℕ × ℕ × CSMap) := do
  let count ← entry.serverCount
  let (entry, kept, servers, hibernatedCount) ←
    map.cleanupLoop (memory chunkId) count 0 entry [] 0
  let map := { map with entries := update map.entries chunkId (some entry) }
  -- the chunk may need another replica
  if count ≠ kept ∧ entry.getState = ReplicationState.none.code then
    some (servers, hibernatedCount, map.setStateSelf chunkId entry .checkReplication)
  else some (servers, hibernatedCount, map)

/-- The loop of `RemoveServerCleanup`. -/
def cleanupScan : ℕ → CSMap → Option CSMap
  | 0, map => some map
  | count + 1, map =>
    match map.removeServerScanPtr with
    | some (.entry chunkId) => do
        let entry ← map.entries chunkId
        let map := { map with removeServerScanPtr := prev map.order (.entry chunkId) }
        let (_, _, map) ← map.cleanupStaleServers memory chunkId entry
        cleanupScan count map.removeServerScanCur
    | _ => some map

/-- `RemoveServerCleanup` with a bound on the entries that are visited. -/
def removeServerCleanup (maxScanCount : ℕ) : Option CSMap :=
  cleanupScan memory maxScanCount map.removeServerScanCur

/-! ## Servers -/

/-- `AddServer`. -/
def addServer (server : ℕ) : Option (Bool × CSMap) :=
  if map.validate server then some (false, map)
  else if kMaxServers ≤ map.serverCount + map.pendingRemove.length then some (false, map)
  else
    let added := { map with
      chunkCount := update map.chunkCount server 0
      serverCount := map.serverCount + 1 }
    match map.nullSlots.getLast? with
    | none =>
      some (true, { added with
        servers := map.servers ++ [some server]
        index := update map.index server map.servers.length })
    | some idx =>
      if map.servers[idx]? = some none then
        some (true, { added with
          nullSlots := map.nullSlots.dropLast
          servers := map.servers.set idx (some server)
          index := update map.index server idx })
      else none

/-- `RemoveServer`. -/
def removeServer (server : ℕ) : Bool × CSMap :=
  if ¬ map.validate server then (false, map)
  else
    let idx := (map.index server).toNat
    (true, removeServerScanFirst { map with
      servers := map.servers.set idx none
      pendingRemove := map.pendingRemove ++ [idx]
      index := update map.index server (-1)
      serverCount := map.serverCount - 1
      chunkCount := update map.chunkCount server 0 })

/-- `SetHibernated`. -/
def setHibernated (server : ℕ) : Bool × CSMap :=
  let idx := (map.index server).toNat
  if ¬ map.validate server ∨ map.hibernated idx then (false, map)
  else
    (true, { map with
      hibernated := update map.hibernated idx true
      hibernatedCount := map.hibernatedCount + 1
      servers := map.servers.set idx none
      index := update map.index server (-1) })

/-- `RemoveHibernatedServer`. -/
def removeHibernatedServer (idx : ℕ) : Bool × CSMap :=
  if kMaxServers ≤ idx ∨ ¬ map.hibernated idx then (false, map)
  else
    (true, removeServerScanFirst { map with
      hibernated := update map.hibernated idx false
      hibernatedCount := map.hibernatedCount - 1
      pendingRemove := map.pendingRemove ++ [idx]
      serverCount := map.serverCount - 1 })

/-! ## Servers of a chunk -/

/-- The loop of `GetServers` while there is no scan. -/
def listServers : List ℕ → Option (List ℕ × ℕ)
  | [] => some ([], 0)
  | idx :: rest => do
      match ← map.servers[idx]? with
      | some server =>
        let (servers, hibernatedCount) ← listServers rest
        some (server :: servers, hibernatedCount)
      | none =>
        if map.hibernatedCount = 0 then none
        else
          let (servers, hibernatedCount) ← listServers rest
          some (servers, hibernatedCount + 1)

/-- `GetServers`: the servers, the number of hibernated ones, and the map, which
the scan may have changed. -/
def getServers (chunkId : ℤ) (entry : Entry) : Option (List ℕ × ℕ × CSMap) :=
  if map.removeServerScanPtr.isSome then map.cleanupStaleServers memory chunkId entry
  else do
    let (servers, hibernatedCount) ← map.listServers (← entry.indexes)
    some (servers, hibernatedCount, map)

/-- `RemoveHosted` for the servers of an entry. -/
def removeHosted : List ℕ → (ℕ → ℕ) → Option (ℕ → ℕ)
  | [], chunkCount => some chunkCount
  | idx :: rest, chunkCount => do
      match ← map.servers[idx]? with
      | none => removeHosted rest chunkCount
      | some server =>
        if chunkCount server = 0 then none
        else removeHosted rest (update chunkCount server (chunkCount server - 1))

/-- An entry is cleaned up before it is used while there is a scan. -/
def cleanupDuringScan (chunkId : ℤ) (entry : Entry) : Option CSMap :=
  if map.removeServerScanPtr.isSome then
    (map.cleanupStaleServers memory chunkId entry).map fun result => result.2.2
  else some map

/-- `AddServer` for an entry. -/
def add (server : ℕ) (chunkId : ℤ) (entry : Entry) : Option (Bool × CSMap) :=
  if ¬ map.validate server then some (false, map)
  else do
    let map ← map.cleanupDuringScan memory chunkId entry
    let entry ← map.entries chunkId
    let (added, entry) ← entry.addIndex (map.index server).toNat (memory chunkId
      (← entry.serverCount))
    if ¬ added then some (false, map)
    else
      some (true, { map with
        entries := update map.entries chunkId (some entry)
        chunkCount := update map.chunkCount server (map.chunkCount server + 1) })

/-- `RemoveServer` for an entry. -/
def remove (server : ℕ) (chunkId : ℤ) (entry : Entry) : Option (Bool × CSMap) :=
  if ¬ map.validate server then some (false, map)
  else do
    let (removed, entry) ← entry.removeIndex (map.index server).toNat (memory chunkId
      (← entry.serverCount))
    if ¬ removed then some (false, map)
    else if map.chunkCount server = 0 then none
    else
      some (true, { map with
        entries := update map.entries chunkId (some entry)
        chunkCount := update map.chunkCount server (map.chunkCount server - 1) })

/-- The loop of `SetServers`. -/
def addAll (chunkId : ℤ) : List ℕ → CSMap → Option CSMap
  | [], map => some map
  | server :: servers, map => do
      let (_, map) ← map.add memory server chunkId (← map.entries chunkId)
      addAll chunkId servers map

/-- `SetServers`. -/
def setServers (servers : List ℕ) (chunkId : ℤ) (entry : Entry) : Option CSMap := do
  let chunkCount ← map.removeHosted (← entry.indexes) map.chunkCount
  let entry ← entry.clearServers
  addAll memory chunkId servers { map with
    chunkCount := chunkCount
    entries := update map.entries chunkId (some entry) }

/-! ## Entries -/

/-- `SetState`; as the entry may have left the part of the list that is still to
be scanned, it is cleaned up here. -/
def setState (chunkId : ℤ) (entry : Entry) (state : ReplicationState) : Option CSMap :=
  (map.setStateSelf chunkId entry state).cleanupDuringScan memory chunkId (entry.setState state)

/-- `Insert`. -/
def insert (chunkId : ℤ) : Bool × CSMap :=
  match map.entries chunkId with
  | some _ => (false, map)
  | none =>
    (true, { map with
      entries := update map.entries chunkId (some Entry.empty)
      order := insertBefore (.entry chunkId) (.head (ReplicationState.none.code + 1))
        map.order })

/-- `Erase`, with the observer `Erasing` and the destructor of the entry. -/
def erase (chunkId : ℤ) : Option (Bool × CSMap) :=
  match map.entries chunkId with
  | none => some (false, map)
  | some entry => do
      let chunkCount ← map.removeHosted (← entry.indexes) map.chunkCount
      let _ ← entry.clearServers
      some (true, { map with
        removeServerScanPtr := map.scanPtrWithout chunkId
        chunkCount := chunkCount
        entries := update map.entries chunkId none
        order := map.order.erase (.entry chunkId) })

end CSMap

/-! ## Calls -/

inductive MapCall where
  | addServer (server : ℕ)
  | removeServer (server : ℕ)
  | setHibernated (server : ℕ)
  | removeHibernatedServer (idx : ℕ)
  | add (server : ℕ) (chunkId : ℤ)
  | remove (server : ℕ) (chunkId : ℤ)
  | setServers (servers : List ℕ) (chunkId : ℤ)
  | getServers (chunkId : ℤ)
  | setState (chunkId : ℤ) (state : ReplicationState)
  | insert (chunkId : ℤ)
  | erase (chunkId : ℤ)
  | removeServerCleanup (further : ℕ)

namespace CSMap

/-- A call with its answer; calls for a chunk that is not in the map are not
made.  The bound of a cleanup is one or more, as zero stands for no bound. -/
def call (memory : Memory) (map : CSMap) : MapCall → Option (Bool × CSMap)
  | .addServer server => map.addServer server
  | .removeServer server => some (map.removeServer server)
  | .setHibernated server => some (map.setHibernated server)
  | .removeHibernatedServer idx => some (map.removeHibernatedServer idx)
  | .add server chunkId =>
    match map.entries chunkId with
    | none => some (false, map)
    | some entry => map.add memory server chunkId entry
  | .remove server chunkId =>
    match map.entries chunkId with
    | none => some (false, map)
    | some entry => map.remove memory server chunkId entry
  | .setServers servers chunkId =>
    match map.entries chunkId with
    | none => some (false, map)
    | some entry => (map.setServers memory servers chunkId entry).map fun map => (true, map)
  | .getServers chunkId =>
    match map.entries chunkId with
    | none => some (false, map)
    | some entry => (map.getServers memory chunkId entry).map fun result => (true, result.2.2)
  | .setState chunkId state =>
    match map.entries chunkId with
    | none => some (false, map)
    | some entry => (map.setState memory chunkId entry state).map fun map => (true, map)
  | .insert chunkId => some (map.insert chunkId)
  | .erase chunkId => map.erase chunkId
  | .removeServerCleanup further =>
    (map.removeServerCleanup memory (further + 1)).map fun map =>
      (map.removeServerScanPtr.isSome, map)

end CSMap

end QfsRepair.ChunkMap
