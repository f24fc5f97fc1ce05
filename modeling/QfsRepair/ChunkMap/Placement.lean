import QfsRepair.ChunkMap.ServerMap

/-!
# Servers and the chunks they host

What the map from chunks to servers is for, without slots: the servers that are
in the map, the chunks, and the servers of each chunk in the order in which they
were added.
-/

namespace QfsRepair.ChunkMap

/-- `asleep` are the servers that hosted chunks when they were set hibernated and
have not been added again. -/
structure Placement where
  live : List ℕ
  asleep : List ℕ
  chunks : List ℤ
  members : ℤ → List ℕ

namespace Placement

def empty : Placement := ⟨[], [], [], fun _ => []⟩

/-- A server that is in the map is added to those of a chunk. -/
def addMember (live : ℕ → Prop) [DecidablePred live] (members : List ℕ) (server : ℕ) : List ℕ :=
  if live server ∧ server ∉ members then members ++ [server] else members

variable (placement : Placement)

/-- The number of chunks that a server hosts. -/
def hostedCount (server : ℕ) : ℕ :=
  placement.chunks.countP fun chunkId => server ∈ placement.members chunkId

/-- A server leaves the map and all chunks. -/
def depart (server : ℕ) : Placement :=
  { placement with
    live := placement.live.filter fun other => other ≠ server
    members := fun chunkId => (placement.members chunkId).filter fun other => other ≠ server }

/-- Other servers for a chunk that is in the map. -/
def withMembers (chunkId : ℤ) (change : List ℕ → List ℕ) : Placement :=
  if chunkId ∈ placement.chunks then
    { placement with
      members := Function.update placement.members chunkId
        (change (placement.members chunkId)) }
  else placement

/-- What a call changes.  `answer` is what `AddServer` returned for a server, as
it refuses a server when there is no slot. -/
def call (answer : Bool) : MapCall → Placement
  | .addServer server =>
    if answer then
      { placement with
        live := server :: placement.live
        asleep := placement.asleep.filter fun other => other ≠ server }
    else placement
  | .removeServer server => placement.depart server
  | .setHibernated server =>
    if server ∈ placement.live then
      { placement.depart server with
        asleep :=
          if placement.hostedCount server = 0 then placement.asleep
          else server :: placement.asleep }
    else placement
  | .removeHibernatedServer _ => placement
  | .add server chunkId =>
    placement.withMembers chunkId fun members =>
      addMember (fun other => other ∈ placement.live) members server
  | .remove server chunkId =>
    placement.withMembers chunkId fun members => members.filter fun other => other ≠ server
  | .setServers servers chunkId =>
    placement.withMembers chunkId fun _ =>
      servers.foldl (addMember fun other => other ∈ placement.live) []
  | .getServers _ => placement
  | .setState _ _ => placement
  | .insert chunkId =>
    if chunkId ∈ placement.chunks then placement
    else { placement with chunks := chunkId :: placement.chunks }
  | .erase chunkId =>
    { placement with
      chunks := placement.chunks.filter fun other => other ≠ chunkId
      members := Function.update placement.members chunkId [] }
  | .removeServerCleanup _ => placement

end Placement

end QfsRepair.ChunkMap
