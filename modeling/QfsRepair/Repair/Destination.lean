import QfsRepair.Store.KeyedList
import QfsRepair.Text.Splitting

/-!
# The chunk server that repairs a chunk

The destination of a repair gets the operation list of the plan as a text.  It
requests a chunk for each operation, files the request under the stripe and the
time of the operation, and removes it when the response arrives; when no request
of the stripe is left it writes the missing chunk.
-/

namespace QfsRepair.Repair.Destination

open Function
open Store Text KeyedList

abbrev Byte := BitVec 8

/-! ## The operation list -/

/-- The variables that `ParseOperationString` fills. -/
structure OperationStrings where
  temporalTime : List Char := []
  chunkIdStr : List Char := []
  chunkVersion : List Char := []
  chunkSize : List Char := []
  decodeCoefficient : List Char := []
  hostname : List Char := []
  port : ℤ

/-- The parts of an operation; where a separator is missing, the variables
behind it keep their values.  `port` is the value of the variable before. -/
def parseOperationString (operationStr : List Char) (port : ℤ) : ℤ × OperationStrings :=
  match findText ['C'] operationStr with
  | none => (1, { port })
  | some chunkPos =>
  let temporalTime := operationStr.take chunkPos
  match findText ['V'] operationStr with
  | none => (1, { temporalTime, port })
  | some versionPos =>
  let chunkIdStr := substr operationStr (chunkPos + 1) versionPos
  match findText ['S'] operationStr with
  | none => (1, { temporalTime, chunkIdStr, port })
  | some sizePos =>
  let chunkVersion := substr operationStr (versionPos + 1) sizePos
  match findText ['D'] operationStr with
  | none => (1, { temporalTime, chunkIdStr, chunkVersion, port })
  | some opPos =>
  let chunkSize := substr operationStr (sizePos + 1) opPos
  -- A missing `-` is the largest position, and the one behind it is zero.
  let ipPos := findText ['-'] operationStr
  let decodeCoefficient := substr operationStr (opPos + 1) (ipPos.getD operationStr.length)
  let hostnameAndPort := operationStr.drop ((ipPos.map (· + 1)).getD 0)
  let colonPos := findText [':'] hostnameAndPort
  let hostname := hostnameAndPort.take (colonPos.getD hostnameAndPort.length)
  let portStr := hostnameAndPort.drop ((colonPos.map (· + 1)).getD 0)
  (0, { temporalTime, chunkIdStr, chunkVersion, chunkSize, decodeCoefficient, hostname,
        port := atoi portStr })

/-! ## The queue of issued requests -/

structure SendChunkForDistributedRepairOp where
  missingChunkId : ℤ
  missingChunkVersion : ℤ
  chunkId : ℤ
  chunkVersion : ℤ
  chunkSize : ℤ
  stripeIdentifier : ℤ
  fileId : ℤ
  temporalTime : ℤ
  decodingCoefficient : ℤ
  deriving DecidableEq

/-- Requests are numbered in the order of their creation; the number stands for
the pointer. -/
abbrev OpPtr := ℕ

structure StripeRepairRequestInfo where
  /-- The reader that waits for the stripe on this server. -/
  upstreamReadOp : Option OpPtr := none
  /-- By time and chunk: the requests of this server. -/
  downstreamReadOp : List (ℤ × List (ℤ × OpPtr)) := []

abbrev OpQueue := List (ℤ × StripeRepairRequestInfo)

/-- A second request for a time is not filed. -/
def insertIntoPartialDecodingOpQueue (stripe time chunkId : ℤ) (op : OpPtr) (queue : OpQueue) :
    ℤ × OpQueue :=
  match find stripe queue with
  | none => (0, assign stripe { downstreamReadOp := [(time, [(chunkId, op)])] } queue)
  | some info =>
    match find time info.downstreamReadOp with
    | none =>
      let downstream := assign time [(chunkId, op)] info.downstreamReadOp
      (0, assign stripe { info with downstreamReadOp := downstream } queue)
    | some ops => (if (find chunkId ops).isSome then 1 else 0, queue)

/-- Removes a request, its time when it was the last one of the time, and the
stripe when no time is left. -/
def deleteFromPartialDecodingOpQueue (stripe time chunkId : ℤ) (queue : OpQueue) : ℤ × OpQueue :=
  match find stripe queue with
  | none => (-1, queue)
  | some info =>
    match find time info.downstreamReadOp with
    | none => (-1, queue)
    | some ops =>
      if (find chunkId ops).isNone then (-1, queue)
      else
        let ops := erase chunkId ops
        let downstream :=
          if ops = [] then erase time info.downstreamReadOp
          else assign time ops info.downstreamReadOp
        if downstream = [] then (0, erase stripe queue)
        else (0, assign stripe { info with downstreamReadOp := downstream } queue)

/-- The lowest time of the stripe, `-1` if there is none. -/
def getLowestTemporalTimeInPartialDecodingOpQueue (stripe : ℤ) (queue : OpQueue) : ℤ :=
  match find stripe queue with
  | none => -1
  | some info =>
    match info.downstreamReadOp with
    | [] => -1
    | (time, _) :: _ => time

def getIssuedOperationsDownstream (stripe : ℤ) (queue : OpQueue) : List OpPtr :=
  match find stripe queue with
  | none => []
  | some info => info.downstreamReadOp.flatMap fun entry => entry.2.map (·.2)

def getOperationUpstream (stripe : ℤ) (queue : OpQueue) : Option OpPtr :=
  (find stripe queue).bind (·.upstreamReadOp)

/-! ## Requests and responses -/

/-- A write of the missing chunk. -/
structure ChunkWrite where
  chunkId : ℤ
  chunkVersion : ℤ
  offset : ℤ
  data : List Byte
  deriving DecidableEq

structure Server where
  ops : List SendChunkForDistributedRepairOp := []
  /-- The data that the response of a request has brought. -/
  dataBuf : OpPtr → List Byte := fun _ => []
  partialDecodingOpQueue : OpQueue := []
  /-- The replies to waiting readers. -/
  replies : List (OpPtr × List Byte) := []
  writes : List ChunkWrite := []

/-- A new request has no data. -/
def Server.create (server : Server) (op : SendChunkForDistributedRepairOp) : Server :=
  { server with
    ops := server.ops ++ [op]
    dataBuf := update server.dataBuf server.ops.length [] }

/-- The request of the metaserver. -/
structure DistributedRepairChunkOp where
  chunkId : ℤ
  chunkVersion : ℤ
  fid : ℤ
  stripeIdentifier : ℤ
  theSequenceString : List Char

def DistributedRepairChunkOp.requestOf (op : DistributedRepairChunkOp)
    (strings : OperationStrings) : SendChunkForDistributedRepairOp where
  missingChunkId := op.chunkId
  missingChunkVersion := op.chunkVersion
  chunkId := atoi strings.chunkIdStr
  chunkVersion := atoi strings.chunkVersion
  chunkSize := atoi strings.chunkSize
  stripeIdentifier := op.stripeIdentifier
  fileId := op.fid
  temporalTime := atoi strings.temporalTime
  decodingCoefficient := atoi strings.decodeCoefficient

/-- The default of the operation list. -/
def stillEmpty : List Char := "STILL EMPTY".toList

/-- One round of `Execute`: no request is made where the peer is not found. -/
def executeOperation (findServer : List Char → ℤ → Bool) (port : ℤ) (op : DistributedRepairChunkOp)
    (state : Server × List (OpPtr × SendChunkForDistributedRepairOp)) (operationStr : List Char) :
    Server × List (OpPtr × SendChunkForDistributedRepairOp) :=
  if operationStr = stillEmpty then state
  else
    let strings := (parseOperationString operationStr port).2
    let request := op.requestOf strings
    let opPtr := state.1.ops.length
    let server := state.1.create request
    if findServer strings.hostname strings.port then
      ({ server with
          partialDecodingOpQueue := (insertIntoPartialDecodingOpQueue op.stripeIdentifier
            request.temporalTime request.chunkId opPtr server.partialDecodingOpQueue).2 },
        state.2 ++ [(opPtr, request)])
    else (server, state.2)

/-- The server after `Execute`, and the requests that were sent. -/
def execute (findServer : List Char → ℤ → Bool) (port : ℤ) (op : DistributedRepairChunkOp)
    (server : Server) : Server × List (OpPtr × SendChunkForDistributedRepairOp) :=
  (split op.theSequenceString ['T', 'I', 'M', 'E']).foldl (executeOperation findServer port op)
    (server, [])

def chunkSize : ℕ := 2 ^ 26

/-- The reply of a server in the middle of the tree: when all its requests have
data it sends a chunk of ones, the combination of the data is switched off. -/
def xorFromAllTheIssuedOperation (stripe : ℤ) (upstream : OpPtr) (server : Server) : Server :=
  let issued := getIssuedOperationsDownstream stripe server.partialDecodingOpQueue
  if issued.all fun opPtr => decide (server.dataBuf opPtr ≠ []) then
    { server with
      partialDecodingOpQueue := erase stripe server.partialDecodingOpQueue
      replies :=
        if issued = [] then server.replies
        else server.replies ++ [(upstream, List.replicate chunkSize 1)] }
  else server

/-- The write of the missing chunk takes the data of the request. -/
def handleWrite (opPtr : OpPtr) (op : SendChunkForDistributedRepairOp) (server : Server) : Server :=
  { server with
    writes := server.writes ++
      [⟨op.missingChunkId, op.missingChunkVersion, 0, server.dataBuf opPtr⟩]
    dataBuf := update server.dataBuf opPtr [] }

def handleDone (opPtr : OpPtr) (op : SendChunkForDistributedRepairOp) (server : Server) : Server :=
  match getOperationUpstream op.stripeIdentifier server.partialDecodingOpQueue with
  | some upstream =>
    if server.dataBuf opPtr = [] then server
    else xorFromAllTheIssuedOperation op.stripeIdentifier upstream server
  | none =>
    if server.dataBuf opPtr = [] then server
    else
      let queue := (deleteFromPartialDecodingOpQueue op.stripeIdentifier op.temporalTime
        op.chunkId server.partialDecodingOpQueue).2
      let server := { server with partialDecodingOpQueue := queue }
      if getLowestTemporalTimeInPartialDecodingOpQueue op.stripeIdentifier queue = -1 then
        handleWrite opPtr op server
      else server

/-- A response arrives; a failed request has no data. -/
def receive (server : Server) (response : OpPtr × List Byte) : Server :=
  match server.ops[response.1]? with
  | none => server
  | some op =>
    handleDone response.1 op
      { server with
        dataBuf := update server.dataBuf response.1
          (server.dataBuf response.1 ++ response.2) }

/-- The responses arrive in the order of the list. -/
def receiveAll (server : Server) (responses : List (OpPtr × List Byte)) : Server :=
  responses.foldl receive server

end QfsRepair.Repair.Destination
