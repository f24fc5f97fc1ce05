import QfsRepair.Store.KeyedList
import QfsRepair.Text.Decimal

/-!
# The plan of a distributed repair

To repair a lost chunk the metaserver selects source servers of the stripe,
gives each of them a slot, servers with a cached chunk of the stripe first, and
fills a table that tells each server from which servers it fetches, and at
which time.  There is one table layout for each supported code.
-/

namespace QfsRepair.Repair

open Store Text KeyedList

abbrev Name := List Char

structure ServerLocation where
  hostname : Name
  port : ℤ
  deriving DecidableEq

/-- The address of a chunk server object: maps that are keyed by servers are
kept in the order of the addresses. -/
abbrev ChunkServerPtr := ℕ

structure ChunkServerRepairLoad where
  numOfActingSources : ℤ := 0
  numOfFinalRepairs : ℤ := 0

structure ChunkServer where
  location : ServerLocation
  sereverRepairLoad : ChunkServerRepairLoad := {}

def ServerLocation.hostPortStr (location : ServerLocation) : Name :=
  location.hostname ++ ':' :: decimalInt location.port

/-- The configured weights of `ChunkServer`, with their defaults. -/
structure RepairLoadWeights where
  cache : ℤ := 2
  numSrc : ℤ := 2
  numDst : ℤ := 1

/-- The part of the layout manager that repair plans read and change. -/
structure LayoutManager where
  repairLoadWeight : RepairLoadWeights := {}
  chunkServer : ChunkServerPtr → ChunkServer
  chunkIdToCacheServerMap : ℤ → Option Name
  serversBeingUsedMap : List (ChunkServerPtr × Bool) := []
  chunkRepairServersBeingUsed : List (ℤ × List (ChunkServerPtr × Bool)) := []

structure PartialDecodingInfo where
  decodingCoeff : ℤ
  hostingServer : Name
  deriving DecidableEq

abbrev OperationMap := List (ℕ × PartialDecodingInfo)

namespace LayoutManager

variable (layout : LayoutManager)

def getHostPortStr (server : ChunkServerPtr) : Name :=
  (layout.chunkServer server).location.hostPortStr

/-! ## Selection of the sources -/

def getRepairChoiceWeight (server : ChunkServerPtr) (hasCache : Bool) : ℤ :=
  let load := (layout.chunkServer server).sereverRepairLoad
  let weight := 0 - layout.repairLoadWeight.numSrc * load.numOfActingSources -
    layout.repairLoadWeight.numDst * load.numOfFinalRepairs
  if hasCache then weight + layout.repairLoadWeight.cache else weight

/-- The order in which servers are selected: a higher weight comes first. -/
def sortFunction (serversWithHotCache : List (Name × Bool)) (server1 server2 : ChunkServerPtr) :
    Bool :=
  let hasCache (server : ChunkServerPtr) : Bool :=
    (find (layout.getHostPortStr server) serversWithHotCache).isSome
  decide (layout.getRepairChoiceWeight server2 (hasCache server2) <
    layout.getRepairChoiceWeight server1 (hasCache server1))

def getServersWhichHaveCache (listOfRelatedChunkIds : List ℤ) (haveCache : List (Name × Bool)) :
    List (Name × Bool) :=
  listOfRelatedChunkIds.foldl
    (fun haveCache chunkId =>
      match layout.chunkIdToCacheServerMap chunkId with
      | some serverName => assign serverName true haveCache
      | none => haveCache)
    haveCache

/-- The loop over the sorted servers, which ends when enough are selected. -/
def selectServers (haveCache : List (Name × Bool)) (serverCountNeeded : ℕ) :
    List ChunkServerPtr → List (ChunkServerPtr × Bool) → List (ChunkServerPtr × Bool)
  | [], selectedSources => selectedSources
  | server :: rest, selectedSources =>
    let hasCache := (find (layout.getHostPortStr server) haveCache).isSome
    let selectedSources := assign server hasCache selectedSources
    if serverCountNeeded ≤ selectedSources.length then selectedSources
    else selectServers haveCache serverCountNeeded rest selectedSources

/-- `sort` stands for the library's sorting function. -/
def selectSetOfSourceServers
    (sort : (ChunkServerPtr → ChunkServerPtr → Bool) → List ChunkServerPtr → List ChunkServerPtr)
    (haveCache : List (Name × Bool)) (serverCountNeeded : ℕ)
    (availableSourceServeres : List (ℤ × ChunkServerPtr)) : List (ChunkServerPtr × Bool) :=
  layout.selectServers haveCache serverCountNeeded
    (sort (layout.sortFunction haveCache) (availableSourceServeres.map (·.2))) []

/-! ## Slots -/

def doesServerNameMatch (listOfServers : List (ChunkServerPtr × Bool)) (theName : Name) : Bool :=
  listOfServers.any fun entry => decide (layout.getHostPortStr entry.1 = theName)

end LayoutManager

/-- The variables `key1`, `key2`, ... and the count of assignments to them. -/
structure Slots where
  key : ℕ → Name := fun _ => []
  alreadyAssignedCount : ℕ := 0

namespace Slots

def allSlots (serverCountNeeded : ℕ) : List ℕ := List.range' 1 serverCountNeeded

def evenSlots (serverCountNeeded : ℕ) : List ℕ :=
  (List.range (serverCountNeeded / 2)).map (2 * · + 2)

def put (slots : Slots) (slot : ℕ) (name : Name) : Slots :=
  ⟨Function.update slots.key slot name, slots.alreadyAssignedCount + 1⟩

/-- The chains of `else if (key.empty())`. -/
def putFirstEmpty (slots : Slots) (candidates : List ℕ) (name : Name) : Slots :=
  match candidates.find? fun slot => decide (slots.key slot = []) with
  | some slot => slots.put slot name
  | none => slots

/-- Servers with a cached chunk: the first ones take the odd slots, the others
the even ones. -/
def putCached (serverCountNeeded : ℕ) (slots : Slots) (name : Name) : Slots :=
  if slots.alreadyAssignedCount < serverCountNeeded / 2 then
    slots.put (2 * slots.alreadyAssignedCount + 1) name
  else slots.putFirstEmpty (evenSlots serverCountNeeded) name

def putOther (serverCountNeeded : ℕ) (slots : Slots) (name : Name) : Slots :=
  slots.putFirstEmpty (allSlots serverCountNeeded) name

end Slots

namespace LayoutManager

variable (layout : LayoutManager)

def assignCachedServers (serverCountNeeded : ℕ) (haveCache : List (Name × Bool))
    (selectedSources : List (ChunkServerPtr × Bool)) : Slots :=
  haveCache.foldl
    (fun slots entry =>
      if layout.doesServerNameMatch selectedSources entry.1 then
        slots.putCached serverCountNeeded entry.1
      else slots)
    {}

def assignOtherServers (serverCountNeeded : ℕ) (selectedSources : List (ChunkServerPtr × Bool))
    (slots : Slots) : Slots :=
  selectedSources.foldl
    (fun slots entry =>
      if entry.2 then slots
      else slots.putOther serverCountNeeded (layout.getHostPortStr entry.1))
    slots

def assignServers (serverCountNeeded : ℕ) (haveCache : List (Name × Bool))
    (selectedSources : List (ChunkServerPtr × Bool)) : Slots :=
  let slots := layout.assignCachedServers serverCountNeeded haveCache selectedSources
  if slots.alreadyAssignedCount < serverCountNeeded then
    layout.assignOtherServers serverCountNeeded selectedSources slots
  else slots

/-! ## Marks of the servers in use -/

def addLoad (server : ChunkServerPtr) (change : ChunkServerRepairLoad → ChunkServerRepairLoad) :
    LayoutManager :=
  let chunkServer := layout.chunkServer server
  { layout with
    chunkServer := Function.update layout.chunkServer server
      { chunkServer with sereverRepairLoad := change chunkServer.sereverRepairLoad } }

def markServer (server : ChunkServerPtr) (change : ChunkServerRepairLoad → ChunkServerRepairLoad) :
    LayoutManager :=
  let layout := layout.addLoad server change
  { layout with serversBeingUsedMap := assign server true layout.serversBeingUsedMap }

def markServersBeingUsed (chunkId : ℤ) (selectedSources : List (ChunkServerPtr × Bool))
    (destinationServer : ChunkServerPtr) : LayoutManager :=
  let sources := selectedSources.map (·.1)
  let repairInfo := (sources ++ [destinationServer]).foldl
    (fun repairInfo server => assign server true repairInfo) []
  let layout := sources.foldl
    (fun layout server => layout.markServer server fun load =>
      { load with numOfActingSources := load.numOfActingSources + 1 })
    layout
  let layout := layout.markServer destinationServer fun load =>
    { load with numOfFinalRepairs := load.numOfFinalRepairs + 1 }
  { layout with
    chunkRepairServersBeingUsed :=
      assign chunkId repairInfo layout.chunkRepairServersBeingUsed }

end LayoutManager

/-! ## Operation tables -/

inductive Slot where
  | source (index : ℕ)
  | destination
  deriving DecidableEq

/-- For each server that gets operations, in the order of the assignments to
the table: the times, and the slots it fetches from. -/
abbrev PlanLayout := List (Slot × List (ℕ × Slot))

def operationMap (keyOf : Slot → Name) (operations : List (ℕ × Slot)) : OperationMap :=
  operations.foldl (fun opMap op => assign op.1 ⟨1, keyOf op.2⟩ opMap) []

def Slots.keyOf (slots : Slots) (dstKey : Name) : Slot → Name
  | .source index => slots.key index
  | .destination => dstKey

namespace LayoutManager

variable
  (sort : (ChunkServerPtr → ChunkServerPtr → Bool) → List ChunkServerPtr → List ChunkServerPtr)

/-- What the functions for the single codes have in common. -/
def populateOperationTable (serverCountNeeded : ℕ) (planLayout : PlanLayout)
    (layout : LayoutManager) (chunkId : ℤ) (listOfRelatedChunkIds : List ℤ)
    (operationMapForChunkServers : List (Name × OperationMap))
    (remainingSourceServeres : List (ℤ × ChunkServerPtr)) (destinationServer : ChunkServerPtr) :
    List (Name × OperationMap) × LayoutManager :=
  let haveCache := layout.getServersWhichHaveCache listOfRelatedChunkIds []
  let selectedSources :=
    layout.selectSetOfSourceServers sort haveCache serverCountNeeded remainingSourceServeres
  let slots := layout.assignServers serverCountNeeded haveCache selectedSources
  let keyOf := slots.keyOf (layout.getHostPortStr destinationServer)
  (planLayout.foldl
    (fun table row => assign (keyOf row.1) (operationMap keyOf row.2) table)
    operationMapForChunkServers,
    layout.markServersBeingUsed chunkId selectedSources destinationServer)

/-- The layout for 6+3 codes. -/
def populateDistributedRepairOperationTable := populateOperationTable sort 6
  [(.source 2, [(1, .source 1)]),
   (.source 4, [(1, .source 3), (2, .source 2)]),
   (.source 6, [(1, .source 5)]),
   (.destination, [(2, .source 6), (3, .source 4)])]

def populateDistributedRepairOperationTable_For_8_3 := populateOperationTable sort 8
  [(.source 2, [(1, .source 1)]),
   (.source 4, [(1, .source 3), (2, .source 2)]),
   (.source 6, [(1, .source 5)]),
   (.source 8, [(1, .source 7), (2, .source 6), (3, .source 4)]),
   (.destination, [(4, .source 8)])]

def populateDistributedRepairOperationTable_For_10_4 := populateOperationTable sort 10
  [(.source 2, [(1, .source 1)]),
   (.source 4, [(1, .source 3), (2, .source 2)]),
   (.source 6, [(1, .source 5)]),
   (.source 8, [(1, .source 7), (2, .source 6)]),
   (.source 10, [(1, .source 9)]),
   (.destination, [(2, .source 10), (3, .source 4), (4, .source 8)])]

def populateDistributedRepairOperationTable_For_12_4 := populateOperationTable sort 12
  [(.source 2, [(1, .source 1)]),
   (.source 4, [(1, .source 3), (2, .source 2)]),
   (.source 6, [(1, .source 5)]),
   (.source 8, [(1, .source 7), (2, .source 6), (3, .source 4)]),
   (.source 10, [(1, .source 9)]),
   (.source 12, [(1, .source 11), (2, .source 10)]),
   (.destination, [(3, .source 12), (4, .source 8)])]

end LayoutManager

end QfsRepair.Repair
