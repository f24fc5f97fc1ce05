import QfsRepair.Repair.OperationQueue
import Mathlib.Data.List.Perm.Basic

/-!
# What the destination writes

The destination writes the data of a single response, the one after which no
request of the stripe is filed any more.  So the missing chunk is the bytewise
combination of all responses, written once and after the last response, for
every order of the responses only if each request is filed by itself, nothing
else stays filed for the stripe, and all responses are the same, an odd number of
times or zero.
-/

namespace QfsRepair.Repair.Destination

open Function List
open Store KeyedList

/-! ## Bytewise combination -/

def maxLength (buffers : List (List Byte)) : ℕ :=
  buffers.foldr (fun buffer length => max buffer.length length) 0

def xorAt (buffers : List (List Byte)) (index : ℕ) : Byte :=
  buffers.foldr (fun buffer byte => buffer.getD index 0 ^^^ byte) 0

/-- The bytewise exclusive or, with zeros behind the end of a buffer. -/
def combine (buffers : List (List Byte)) : List Byte :=
  (List.range (maxLength buffers)).map (xorAt buffers)

theorem maxLength_replicate (count : ℕ) (data : List Byte) :
    maxLength (List.replicate (count + 1) data) = data.length := by
  induction count with
  | zero => simp [maxLength]
  | succ count ih =>
    change max data.length (maxLength (replicate (count + 1) data)) = data.length
    rw [ih, max_self]

theorem xorAt_replicate (count : ℕ) (data : List Byte) (index : ℕ) :
    xorAt (List.replicate count data) index = if Odd count then data.getD index 0 else 0 := by
  induction count with
  | zero => simp [xorAt]
  | succ count ih =>
    change data.getD index 0 ^^^ xorAt (replicate count data) index = _
    rw [ih]
    by_cases hodd : Odd count <;> simp [hodd, Nat.odd_add_one]

/-- Equal buffers combine to one of them if their number is odd or they are
zero. -/
theorem combine_replicate_eq_iff (count : ℕ) (data : List Byte) :
    combine (List.replicate (count + 1) data) = data ↔
      Odd (count + 1) ∨ ∀ byte ∈ data, byte = 0 := by
  have hcombine : combine (replicate (count + 1) data) =
      (range data.length).map fun index =>
        if Odd (count + 1) then data.getD index 0 else 0 := by
    rw [combine, maxLength_replicate]
    exact map_congr_left fun index _ => xorAt_replicate (count + 1) data index
  have hself : (range data.length).map (fun index => data.getD index 0) = data := by
    refine ext_getElem (by simp) fun index hleft hright => ?_
    simp [getElem?_eq_getElem hright]
  rw [hcombine]
  by_cases hodd : Odd (count + 1)
  · simp only [hodd, if_true, hself, true_or]
  · simp only [hodd, if_false, false_or]
    rw [map_const', length_range]
    constructor
    · intro heq byte hbyte
      rw [← heq] at hbyte
      exact eq_of_mem_replicate hbyte
    · intro hzero
      exact (eq_replicate_iff.mpr ⟨rfl, hzero⟩).symm

/-! ## What is filed for a stripe -/

/-- Requests by time and chunk. -/
abbrev Filing := ℤ → ℤ → Prop

/-- Nothing is filed, or the least time is the one that stands for nothing. -/
def LooksEmpty (filing : Filing) : Prop :=
  (∀ time chunkId, ¬ filing time chunkId) ∨
    (∃ chunkId, filing (-1) chunkId) ∧ ∀ time chunkId, filing time chunkId → -1 ≤ time

/-- What the queue has filed for a stripe. -/
def filedFor (stripe : ℤ) (queue : OpQueue) : Filing := fun time chunkId =>
  (lookupRequest queue stripe time chunkId).isSome = true

/-- The queue of a destination, which no reader of the stripe waits for. -/
structure Files (stripe : ℤ) (queue : OpQueue) (filing : Filing) : Prop where
  sound : ∀ stripe info, find stripe queue = some info → info.Sound
  upstream : getOperationUpstream stripe queue = none
  filed : ∀ time chunkId, filedFor stripe queue time chunkId ↔ filing time chunkId

variable {stripe time chunkId : ℤ} {queue : OpQueue} {filing before : Filing} {opPtr : OpPtr}

/-- The table that a queue stands for. -/
theorem represents_self (hsound : ∀ stripe info, find stripe queue = some info → info.Sound) :
    Represents queue ⟨lookupRequest queue, fun stripe => getOperationUpstream stripe queue⟩ :=
  ⟨hsound, fun _ => rfl, fun _ => rfl⟩

theorem sound_performQueueCall (call : QueueCall)
    (hsound : ∀ stripe info, find stripe queue = some info → info.Sound) :
    ∀ stripe info, find stripe (performQueueCall queue call) = some info → info.Sound := by
  have hrepresents := represents_self hsound
  cases call with
  | insert stripe time chunkId op =>
    by_cases hdrops : DropsRequest stripe time chunkId queue
    · rwa [performQueueCall, Represents.insert_of_dropsRequest hdrops]
    · exact (hrepresents.insert hdrops).sound
  | insertUpstream stripe op => exact hrepresents.insertUpstream.sound
  | delete stripe time chunkId =>
    by_cases hdrops : DropsReader stripe time chunkId queue
    · rw [performQueueCall, Represents.delete_of_dropsReader hdrops]
      intro other info hfind
      have hne : other ≠ stripe := by
        rintro rfl
        rw [find_erase_self] at hfind
        cases hfind
      exact hsound other info (find_erase_of_ne hne queue ▸ hfind)
    · exact (hrepresents.delete hdrops).sound
  | deleteStripe stripe => exact hrepresents.deleteStripe.sound

section

variable (hfiles : Files stripe queue filing)

include hfiles

theorem Files.lowest :
    getLowestTemporalTimeInPartialDecodingOpQueue stripe queue = -1 ↔ LooksEmpty filing := by
  rcases (represents_self hfiles.sound).behavesAs.lowest stripe with
    ⟨⟨chunkId, hchunk⟩, hleast⟩ | ⟨hnone, hlowest⟩
  · constructor
    · intro hlowest
      rw [hlowest] at hchunk hleast
      exact .inr ⟨⟨chunkId, (hfiles.filed _ _).mp hchunk⟩, fun time chunkId hfiled =>
        hleast time chunkId ((hfiles.filed _ _).mpr hfiled)⟩
    · rintro (hempty | ⟨⟨other, hother⟩, hbound⟩)
      · exact absurd ((hfiles.filed _ _).mp hchunk) (hempty _ _)
      · have hle := hleast _ other ((hfiles.filed _ _).mpr hother)
        have hge := hbound _ chunkId ((hfiles.filed _ _).mp hchunk)
        omega
  · refine iff_of_true hlowest (.inl fun time chunkId hfiled => ?_)
    have hsome := (hfiles.filed time chunkId).mpr hfiled
    rw [filedFor, show lookupRequest queue stripe time chunkId = none from hnone time chunkId]
      at hsome
    cases hsome

/-- A request is filed if its time is new. -/
theorem Files.insert : Files stripe
    (insertIntoPartialDecodingOpQueue stripe time chunkId opPtr queue).2
    fun time' chunkId' => filing time' chunkId' ∨
      time' = time ∧ chunkId' = chunkId ∧ ∀ other, ¬ filing time other := by
  by_cases hdrops : DropsRequest stripe time chunkId queue
  · rw [Represents.insert_of_dropsRequest hdrops]
    obtain ⟨info, ops, hfind, htime, -⟩ := hdrops
    have hinfo := hfiles.sound stripe info hfind
    obtain ⟨⟨other, op⟩, hop⟩ := exists_mem_of_ne_nil _ (hinfo.nonempty _ (mem_of_find htime))
    have hother : filing time other := by
      refine (hfiles.filed _ _).mp ?_
      rw [filedFor, lookupRequest_of_find hfind, hinfo.lookup_of_mem (mem_of_find htime) hop]
      rfl
    refine ⟨hfiles.sound, hfiles.upstream, fun time' chunkId' => ?_⟩
    rw [hfiles.filed]
    exact ⟨.inl, fun hfiled => hfiled.resolve_right fun hnew => hnew.2.2 other hother⟩
  · have hinserted := @Represents.insert _ _ _ _ _ opPtr (represents_self hfiles.sound) hdrops
    refine ⟨hinserted.sound, (hinserted.upstream stripe).trans hfiles.upstream, ?_⟩
    intro time' chunkId'
    rw [filedFor, hinserted.downstream, OperationTable.downstream_insert]
    by_cases hplace : time' = time ∧ chunkId' = chunkId
    · obtain ⟨rfl, rfl⟩ := hplace
      simp only [and_self, if_true, true_and]
      -- A time with another chunk would have dropped the request.
      refine iff_of_true (by simp) (or_iff_not_imp_left.mpr fun hnot other hother => hdrops ?_)
      obtain ⟨op, hop⟩ := Option.isSome_iff_exists.mp ((hfiles.filed _ _).mpr hother)
      obtain ⟨info, hfind, hlookup⟩ := Option.bind_eq_some_iff.mp hop
      obtain ⟨ops, htime, -⟩ := Option.bind_eq_some_iff.mp hlookup
      have hmissing := mt (hfiles.filed _ _).mp hnot
      rw [filedFor, lookupRequest_of_find hfind, StripeRepairRequestInfo.lookup, htime] at hmissing
      exact ⟨info, ops, hfind, htime, by simpa using hmissing⟩
    · simp only [if_neg hplace]
      refine (hfiles.filed time' chunkId').trans ?_
      exact ⟨.inl, fun hfiled => hfiled.resolve_right fun hnew => hplace ⟨hnew.1, hnew.2.1⟩⟩

theorem Files.delete : Files stripe
    (deleteFromPartialDecodingOpQueue stripe time chunkId queue).2
    fun time' chunkId' => filing time' chunkId' ∧ ¬ (time' = time ∧ chunkId' = chunkId) := by
  have hkeeps : ¬ DropsReader stripe time chunkId queue := by
    rintro ⟨info, op, hfind, hreader, -⟩
    have hupstream := hfiles.upstream
    rw [getOperationUpstream, hfind, Option.bind_some] at hupstream
    rw [hupstream] at hreader
    cases hreader
  have hdeleted := (represents_self hfiles.sound).delete hkeeps
  refine ⟨hdeleted.sound, (hdeleted.upstream stripe).trans hfiles.upstream, ?_⟩
  intro time' chunkId'
  rw [filedFor, hdeleted.downstream, OperationTable.downstream_delete]
  by_cases hplace : time' = time ∧ chunkId' = chunkId
  · simp [hplace]
  · simp only [hplace, if_false, not_false_eq_true, and_true]
    exact hfiles.filed _ _

end

/-! ## Issued requests -/

abbrev Request := OpPtr × SendChunkForDistributedRepairOp

/-- The request is for the chunk at the time. -/
def Names (request : Request) (time chunkId : ℤ) : Prop :=
  time = request.2.temporalTime ∧ chunkId = request.2.chunkId

/-- A request of the repair is sent, and nothing has come back. -/
structure Sent (op : DistributedRepairChunkOp) (ops : List SendChunkForDistributedRepairOp)
    (dataBuf : OpPtr → List Byte) (request : Request) : Prop where
  known : ops[request.1]? = some request.2
  stripe : request.2.stripeIdentifier = op.stripeIdentifier
  missing : request.2.missingChunkId = op.chunkId ∧
    request.2.missingChunkVersion = op.chunkVersion
  empty : dataBuf request.1 = []

/-- The server waits for the responses to the requests. -/
structure Waiting (op : DistributedRepairChunkOp) (server : Server) (requests : List Request)
    (filing : Filing) : Prop where
  files : Files op.stripeIdentifier server.partialDecodingOpQueue filing
  sent : ∀ request ∈ requests, Sent op server.ops server.dataBuf request
  pointers : (requests.map (·.1)).Nodup

/-- Moreover what was filed before still is, and at each new time one of the
issued requests is. -/
structure Issued (before : Filing) (op : DistributedRepairChunkOp) (server : Server)
    (issued : List Request) (filing : Filing) : Prop extends Waiting op server issued filing where
  kept : ∀ time chunkId, before time chunkId → filing time chunkId
  added : ∀ time chunkId, filing time chunkId → before time chunkId ∨
    (∀ other, ¬ before time other) ∧ ∃ request ∈ issued, Names request time chunkId
  single : ∀ time chunkId other, (∀ chunkId, ¬ before time chunkId) → filing time chunkId →
    filing time other → chunkId = other
  complete : ∀ request ∈ issued, ∃ chunkId, filing request.2.temporalTime chunkId

variable {op : DistributedRepairChunkOp} {server : Server} {issued : List Request}

theorem Issued.create (hissued : Issued before op server issued filing)
    (request : SendChunkForDistributedRepairOp) :
    Issued before op (server.create request) issued filing where
  __ := hissued
  sent other hother := by
    obtain ⟨hop, hstripe, hmissing, hempty⟩ := hissued.sent other hother
    have hlt := (List.getElem?_eq_some_iff.mp hop).1
    exact ⟨(getElem?_append_left hlt).trans hop, hstripe, hmissing,
      (update_of_ne (Nat.ne_of_lt hlt) _ _).trans hempty⟩

section

variable (findServer : List Char → ℤ → Bool)

theorem Issued.executeOperation (port : ℤ) {state : Server × List Request}
    (hissued : Issued before op state.1 state.2 filing) (operationStr : List Char) :
    ∃ filing', Issued before op (executeOperation findServer port op state operationStr).1
      (executeOperation findServer port op state operationStr).2 filing' := by
  rw [Destination.executeOperation]
  by_cases hempty : operationStr = stillEmpty
  · rw [if_pos hempty]
    exact ⟨filing, hissued⟩
  rw [if_neg hempty]
  set strings := (parseOperationString operationStr port).2
  set request := op.requestOf strings
  have hcreated := hissued.create request
  by_cases hpeer : findServer strings.hostname strings.port
  swap
  · simp only [if_neg hpeer]
    exact ⟨filing, hcreated⟩
  simp only [if_pos hpeer]
  have hall : ∀ {P : Request → Prop}, (∀ other ∈ state.2, P other) →
      P (state.1.ops.length, request) →
        ∀ other ∈ state.2 ++ [(state.1.ops.length, request)], P other :=
    fun hold hnew => forall_mem_append.mpr ⟨hold, forall_mem_singleton.mpr hnew⟩
  refine ⟨_, ⟨hcreated.files.insert, hall hcreated.sent
    ⟨getElem?_concat_length, rfl, ⟨rfl, rfl⟩, update_self _ _ _⟩, ?_⟩, ?_, ?_, ?_, ?_⟩
  · rw [map_append, map_singleton, ← concat_eq_append, nodup_concat]
    refine ⟨?_, hissued.pointers⟩
    intro hmem
    obtain ⟨other, hother, heq⟩ := mem_map.mp hmem
    exact Nat.ne_of_lt (List.getElem?_eq_some_iff.mp (hissued.sent other hother).known).1 heq
  · exact fun time chunkId hbefore => .inl (hissued.kept time chunkId hbefore)
  · rintro time chunkId (hold | ⟨rfl, rfl, hnew⟩)
    · refine (hissued.added time chunkId hold).imp_right fun ⟨hfresh, other, hother, hnames⟩ => ?_
      exact ⟨hfresh, other, mem_append_left _ hother, hnames⟩
    · exact .inr ⟨fun other hbefore => hnew other (hissued.kept _ other hbefore), _,
        mem_append_right _ (mem_singleton.mpr rfl), rfl, rfl⟩
  · rintro time chunkId other hfresh (hold | ⟨rfl, rfl, hnew⟩) (hother | ⟨htime, rfl, hnew'⟩)
    · exact hissued.single time chunkId other hfresh hold hother
    · exact absurd (htime ▸ hold) (hnew' chunkId)
    · exact absurd hother (hnew other)
    · rfl
  · refine hall (fun other hold => ?_) ?_
    · obtain ⟨chunkId, hfiled⟩ := hissued.complete other hold
      exact ⟨chunkId, .inl hfiled⟩
    · by_cases hnew : ∀ other, ¬ filing request.temporalTime other
      · exact ⟨request.chunkId, .inr ⟨rfl, rfl, hnew⟩⟩
      · push Not at hnew
        obtain ⟨other, hother⟩ := hnew
        exact ⟨other, .inl hother⟩

/-- After `Execute` on a server that is a destination for the stripe. -/
theorem exists_issued_execute (port : ℤ)
    (hfiles : Files op.stripeIdentifier server.partialDecodingOpQueue before) :
    ∃ filing, Issued before op (execute findServer port op server).1
      (execute findServer port op server).2 filing := by
  refine foldlRecOn
    (motive := fun state : Server × _ => ∃ filing, Issued before op state.1 state.2 filing)
    _ _ ?_ ?_
  · exact ⟨before, ⟨hfiles, by simp, nodup_nil⟩, fun _ _ => id,
      fun _ _ => .inl, fun _ _ _ hfresh hfiled => absurd hfiled (hfresh _), by simp⟩
  · rintro state ⟨filing, hissued⟩ part -
    exact hissued.executeOperation findServer port part

end

/-! ## Responses -/

variable {requests front rest : List Request} {request : Request} {response : OpPtr → List Byte}

theorem Waiting.perm (hwaiting : Waiting op server issued filing) (hperm : requests.Perm issued) :
    Waiting op server requests filing where
  files := hwaiting.files
  sent request hrequest := hwaiting.sent request (hperm.mem_iff.mp hrequest)
  pointers := (hperm.map _).nodup_iff.mpr hwaiting.pointers

/-- The filing after a response; a response without data changes nothing. -/
def arrive (response : OpPtr → List Byte) (filing : Filing) (request : Request) : Filing :=
  fun time chunkId => filing time chunkId ∧
    (response request.1 ≠ [] → ¬ Names request time chunkId)

open Classical in
/-- The write that a response causes. -/
noncomputable def writeOf (op : DistributedRepairChunkOp) (data : List Byte) (filing : Filing) :
    List ChunkWrite :=
  if data ≠ [] ∧ LooksEmpty filing then [⟨op.chunkId, op.chunkVersion, 0, data⟩] else []

/-- The destination has no reader that waits for the stripe. -/
theorem handleDone_of_data {sent : SendChunkForDistributedRepairOp}
    (hupstream : getOperationUpstream sent.stripeIdentifier server.partialDecodingOpQueue = none)
    (hdata : server.dataBuf opPtr ≠ []) (hqueue : (deleteFromPartialDecodingOpQueue
      sent.stripeIdentifier sent.temporalTime sent.chunkId server.partialDecodingOpQueue).2 =
      queue) :
    handleDone opPtr sent server =
      if getLowestTemporalTimeInPartialDecodingOpQueue sent.stripeIdentifier queue = -1 then
        handleWrite opPtr sent { server with partialDecodingOpQueue := queue }
      else { server with partialDecodingOpQueue := queue } := by
  simp only [handleDone, hupstream, hdata, if_false, hqueue]

theorem Waiting.step (hwaiting : Waiting op server (request :: rest) filing) :
    Waiting op (receive server (request.1, response request.1)) rest
      (arrive response filing request) ∧
    (receive server (request.1, response request.1)).writes =
      server.writes ++ writeOf op (response request.1) (arrive response filing request) := by
  obtain ⟨hpointer, hpointers⟩ := nodup_cons.mp hwaiting.pointers
  obtain ⟨hop, hstripe, ⟨hmissing, hversion⟩, hempty⟩ := hwaiting.sent request mem_cons_self
  have hother : ∀ other ∈ rest, other.1 ≠ request.1 := by
    intro other hmem heq
    exact hpointer (mem_map.mpr ⟨other, hmem, heq⟩)
  set filled : Server :=
    { server with dataBuf := update server.dataBuf request.1 (response request.1) }
    with hfilled
  have hbuffer : filled.dataBuf request.1 = response request.1 := update_self _ _ _
  have hothers : ∀ other ∈ rest, filled.dataBuf other.1 = [] := fun other hmem =>
    (update_of_ne (hother other hmem) _ _).trans
      (hwaiting.sent other (mem_cons_of_mem _ hmem)).empty
  have hreceive : receive server (request.1, response request.1) =
      handleDone request.1 request.2 filled := by
    simp only [receive, hop, hempty, nil_append, hfilled]
  have hrest : ∀ (next : Server) (filing' : Filing),
      Files op.stripeIdentifier next.partialDecodingOpQueue filing' → next.ops = server.ops →
      (∀ other ∈ rest, next.dataBuf other.1 = []) → Waiting op next rest filing' :=
    fun next filing' hfiles hops hbuffers =>
      ⟨hfiles, fun other hmem => by
        obtain ⟨hop, hstripe, hmissing, -⟩ := hwaiting.sent other (mem_cons_of_mem _ hmem)
        exact ⟨hops ▸ hop, hstripe, hmissing, hbuffers other hmem⟩, hpointers⟩
  have hupstream : getOperationUpstream request.2.stripeIdentifier
      filled.partialDecodingOpQueue = none := by
    rw [hstripe]
    exact hwaiting.files.upstream
  by_cases hdata : response request.1 = []
  · have hdone : handleDone request.1 request.2 filled = filled := by
      simp only [handleDone, hupstream, hbuffer, hdata, if_true]
    rw [hreceive, hdone, writeOf, if_neg (by simp [hdata]), append_nil]
    refine ⟨hrest _ _ ⟨hwaiting.files.sound, hwaiting.files.upstream, fun time chunkId => ?_⟩ rfl
      hothers, rfl⟩
    rw [hwaiting.files.filed, arrive]
    exact ⟨fun hfiled => ⟨hfiled, fun hne => absurd hdata hne⟩, And.left⟩
  · set queue := (deleteFromPartialDecodingOpQueue op.stripeIdentifier request.2.temporalTime
      request.2.chunkId server.partialDecodingOpQueue).2 with hqueue
    have hfiles : Files op.stripeIdentifier queue (arrive response filing request) := by
      obtain ⟨hsound, hupstream, hfiled⟩ := hwaiting.files.delete
      refine ⟨hsound, hupstream, fun time chunkId => (hfiled time chunkId).trans ?_⟩
      exact and_congr_right fun _ => ⟨fun hnames _ => hnames, fun hnames => hnames hdata⟩
    have hdelete : (deleteFromPartialDecodingOpQueue request.2.stripeIdentifier
        request.2.temporalTime request.2.chunkId filled.partialDecodingOpQueue).2 = queue := by
      rw [hstripe]
    rw [hreceive, handleDone_of_data hupstream (hbuffer ▸ hdata) hdelete, hstripe, writeOf]
    by_cases hlowest : LooksEmpty (arrive response filing request)
    · rw [if_pos (hfiles.lowest.mpr hlowest), if_pos ⟨hdata, hlowest⟩]
      refine ⟨hrest _ _ hfiles rfl fun other hmem => ?_, ?_⟩
      · exact (update_of_ne (hother other hmem) _ _).trans (hothers other hmem)
      · simp only [handleWrite, hmissing, hversion, hfilled, update_self]
    · rw [if_neg (mt hfiles.lowest.mp hlowest), if_neg fun hboth => hlowest hboth.2, append_nil]
      exact ⟨hrest _ _ hfiles rfl hothers, rfl⟩

/-- The responses to the requests, in their order. -/
def responses (response : OpPtr → List Byte)
    (requests : List Request) : List (OpPtr × List Byte) :=
  requests.map fun request => (request.1, response request.1)

theorem Waiting.run (hwaiting : Waiting op server (front ++ rest) filing) :
    Waiting op (receiveAll server (responses response front)) rest
      (front.foldl (arrive response) filing) := by
  induction front generalizing server filing with
  | nil => exact hwaiting
  | cons request front ih => exact ih hwaiting.step.1

/-- The writes up to a response are those before it and the one it causes. -/
theorem Waiting.writes_snoc (hwaiting : Waiting op server (front ++ request :: rest) filing) :
    (receiveAll server (responses response (front ++ [request]))).writes =
      (receiveAll server (responses response front)).writes ++
        writeOf op (response request.1) ((front ++ [request]).foldl (arrive response) filing) := by
  have hrun : Waiting op (receiveAll server (responses response front)) (request :: rest)
      (front.foldl (arrive response) filing) := hwaiting.run
  have hstep := (@Waiting.step _ _ _ _ _ response hrun).2
  rw [responses, map_append, receiveAll, foldl_append, foldl_append]
  exact hstep

theorem arrive_foldl_iff :
    front.foldl (arrive response) filing time chunkId ↔
      filing time chunkId ∧
        ∀ other ∈ front, response other.1 ≠ [] → ¬ Names other time chunkId := by
  induction front generalizing filing with
  | nil => simp
  | cons first front ih => rw [foldl_cons, ih, arrive, forall_mem_cons, and_assoc]

/-! ## The combination of all responses -/

/-- For every order of the responses: nothing is written before the last one,
and then the combination of all of them is. -/
def CombinesAll (op : DistributedRepairChunkOp) (server : Server)
    (issued : List Request) (response : OpPtr → List Byte) : Prop :=
  ∀ order, order.Perm issued →
    (∀ count < order.length,
      (receiveAll server (responses response (order.take count))).writes = server.writes) ∧
    (receiveAll server (responses response order)).writes = server.writes ++
      [⟨op.chunkId, op.chunkVersion, 0, combine (issued.map fun request => response request.1)⟩]

/-- What was filed before and is not asked for again. -/
def stale (before : Filing) (issued : List Request) : Filing := fun time chunkId =>
  before time chunkId ∧ ∀ request ∈ issued, ¬ Names request time chunkId

/-- A request is filed by itself: it was filed before, or no other request has its
time; and as long as it is not answered the queue does not look empty. -/
structure Alone (before : Filing) (issued : List Request) (request : Request) : Prop where
  filed : before request.2.temporalTime request.2.chunkId ∨
    (∀ other, ¬ before request.2.temporalTime other) ∧
      ∀ other ∈ issued, other.2.temporalTime = request.2.temporalTime → other = request
  unique : ∀ other ∈ issued, Names other request.2.temporalTime request.2.chunkId →
    other = request
  waits : ¬ LooksEmpty fun time chunkId =>
    stale before issued time chunkId ∨ Names request time chunkId

/-- The responses are the same data, an odd number of times or zero, several
requests are filed each by itself, and nothing else keeps the queue from looking
empty. -/
structure AllAlike (before : Filing) (issued : List Request) (response : OpPtr → List Byte) :
    Prop where
  nonempty : issued ≠ []
  data : ∀ request ∈ issued, response request.1 ≠ []
  alike : ∀ left ∈ issued, ∀ right ∈ issued, response left.1 = response right.1
  combination : Odd issued.length ∨ ∀ request ∈ issued, ∀ byte ∈ response request.1, byte = 0
  others : LooksEmpty (stale before issued)
  several : 1 < issued.length → ∀ request ∈ issued, Alone before issued request

/-- Responses that are alike combine to one of them, if there is an odd number of
them or they are zero. -/
theorem combine_alike_iff (hrequest : request ∈ issued)
    (halike : ∀ other ∈ issued, response other.1 = response request.1) :
    combine (issued.map fun request => response request.1) = response request.1 ↔
      Odd issued.length ∨ ∀ byte ∈ response request.1, byte = 0 := by
  have hreplicate : (issued.map fun request => response request.1) =
      replicate issued.length (response request.1) := by
    refine eq_replicate_iff.mpr ⟨length_map _, ?_⟩
    exact forall_mem_map.mpr halike
  obtain ⟨count, hcount⟩ : ∃ count, issued.length = count + 1 :=
    Nat.exists_eq_succ_of_ne_zero (length_pos_of_mem hrequest).ne'
  rw [hreplicate, hcount, combine_replicate_eq_iff]

theorem perm_erase_concat (hrequest : request ∈ issued) :
    (issued.erase request ++ [request]).Perm issued :=
  perm_append_comm.trans (perm_cons_erase hrequest).symm

section

variable (hissued : Issued before op server issued filing)

include hissued

theorem stale_of_arrive (hperm : (front ++ rest).Perm issued)
    (hdata : ∀ request ∈ issued, response request.1 ≠ [])
    (hleft : front.foldl (arrive response) filing time chunkId) :
    stale before issued time chunkId ∨ ∃ request ∈ rest, Names request time chunkId := by
  obtain ⟨hfiled, hfront⟩ := arrive_foldl_iff.mp hleft
  have hrest : ∀ request ∈ issued, Names request time chunkId → request ∈ rest := by
    intro request hrequest hnames
    refine (mem_append.mp (hperm.mem_iff.mpr hrequest)).resolve_left fun hmem => ?_
    exact hfront request hmem (hdata request hrequest) hnames
  by_cases hnamed : ∃ request ∈ issued, Names request time chunkId
  · obtain ⟨request, hrequest, hnames⟩ := hnamed
    exact .inr ⟨request, hrest request hrequest hnames, hnames⟩
  · push Not at hnamed
    refine .inl ⟨(hissued.added time chunkId hfiled).resolve_right ?_, hnamed⟩
    rintro ⟨-, request, hrequest, hnames⟩
    exact hnamed request hrequest hnames

theorem arrive_of_stale (hperm : (front ++ rest).Perm issued)
    (hstale : stale before issued time chunkId) :
    front.foldl (arrive response) filing time chunkId :=
  arrive_foldl_iff.mpr ⟨hissued.kept _ _ hstale.1, fun other hother _ =>
    hstale.2 other (hperm.mem_iff.mp (mem_append_left _ hother))⟩

/-- When all are answered, what nobody asked for is left. -/
theorem arrive_all (hperm : requests.Perm issued)
    (hdata : ∀ request ∈ issued, response request.1 ≠ []) :
    requests.foldl (arrive response) filing = stale before issued := by
  have hperm : (requests ++ []).Perm issued := by rwa [append_nil]
  funext time chunkId
  refine propext ⟨fun hleft => ?_, arrive_of_stale hissued hperm⟩
  exact (stale_of_arrive hissued hperm hdata hleft).resolve_right (by simp)

end

section Necessary

variable (hissued : Issued before op server issued filing)
  (hcombines : CombinesAll op server issued response)
include hissued hcombines

omit hissued in
theorem writes_front (hperm : (front ++ request :: rest).Perm issued) :
    (receiveAll server (responses response front)).writes = server.writes := by
  have hfront := (hcombines _ hperm).1 front.length (by simp)
  rwa [take_left] at hfront

/-- Any request may be the last one that is answered. -/
theorem response_last (hperm : (front ++ [request]).Perm issued) :
    response request.1 ≠ [] ∧ LooksEmpty ((front ++ [request]).foldl (arrive response) filing) ∧
      response request.1 = combine (issued.map fun request => response request.1) := by
  have hafter := (hcombines _ hperm).2
  rw [(hissued.toWaiting.perm hperm).writes_snoc, writes_front hcombines hperm] at hafter
  have hwrite := append_cancel_left hafter
  unfold writeOf at hwrite
  split_ifs at hwrite with hcause
  exact ⟨hcause.1, hcause.2, (ChunkWrite.mk.inj (cons.inj hwrite).1).2.2.2⟩

theorem response_ne_nil (hrequest : request ∈ issued) : response request.1 ≠ [] :=
  (response_last hissued hcombines (perm_erase_concat hrequest)).1

/-- Before the last response the queue does not look empty. -/
theorem not_looksEmpty_front (hperm : (front ++ [request]).Perm issued) (hfront : front ≠ []) :
    ¬ LooksEmpty (front.foldl (arrive response) filing) := by
  obtain ⟨before, last, rfl⟩ := (eq_nil_or_concat' front).resolve_left hfront
  have hsplit : (before ++ last :: [request]).Perm issued := by simpa using hperm
  have hlast := response_ne_nil hissued hcombines (hsplit.mem_iff.mp (by simp) : last ∈ issued)
  have hwrites := writes_front hcombines hperm
  rw [(hissued.toWaiting.perm hsplit).writes_snoc, writes_front hcombines hsplit] at hwrites
  intro hlooks
  rw [writeOf, if_pos ⟨hlast, hlooks⟩] at hwrites
  simp at hwrites

theorem looksEmpty_stale (hrequest : request ∈ issued) : LooksEmpty (stale before issued) := by
  have hperm := perm_erase_concat hrequest
  rw [← arrive_all hissued hperm fun _ => response_ne_nil hissued hcombines]
  exact (response_last hissued hcombines hperm).2.1

/-- With another request, each one is filed and named by no other. -/
theorem filed_of_several (hseveral : 1 < issued.length) (hrequest : request ∈ issued) :
    (issued.erase request).foldl (arrive response) filing request.2.temporalTime
        request.2.chunkId ∧
      ¬ LooksEmpty fun time chunkId =>
        stale before issued time chunkId ∨ Names request time chunkId := by
  have hperm := perm_erase_concat hrequest
  have hdata : ∀ request ∈ issued, response request.1 ≠ [] := fun _ =>
    response_ne_nil hissued hcombines
  have hothers : issued.erase request ≠ [] := by
    rw [ne_eq, ← length_eq_zero_iff, length_erase_of_mem hrequest]
    omega
  have hlooks := not_looksEmpty_front hissued hcombines hperm hothers
  set left := (issued.erase request).foldl (arrive response) filing
  have hleft : left = fun time chunkId => stale before issued time chunkId ∨
      Names request time chunkId ∧ left request.2.temporalTime request.2.chunkId := by
    funext time chunkId
    refine propext ⟨fun hfiled => ?_, ?_⟩
    · refine (stale_of_arrive hissued hperm hdata hfiled).imp_right ?_
      rintro ⟨other, hother, rfl, rfl⟩
      rw [mem_singleton.mp hother] at hfiled ⊢
      exact ⟨⟨rfl, rfl⟩, hfiled⟩
    · rintro (hstale | ⟨⟨rfl, rfl⟩, hfiled⟩)
      · exact arrive_of_stale hissued hperm hstale
      · exact hfiled
  rw [hleft] at hlooks
  by_cases hfiled : left request.2.temporalTime request.2.chunkId
  · exact ⟨hfiled, by simpa only [hfiled, and_true] using hlooks⟩
  · simp only [hfiled, and_false, or_false] at hlooks
    exact absurd (looksEmpty_stale hissued hcombines hrequest) hlooks

theorem Alone.of_combinesAll (hseveral : 1 < issued.length) (hrequest : request ∈ issued) :
    Alone before issued request := by
  have hunique : ∀ request ∈ issued, ∀ other ∈ issued,
      Names other request.2.temporalTime request.2.chunkId → other = request := by
    intro request hrequest other hother hnames
    by_contra hne
    obtain ⟨-, hfront⟩ := arrive_foldl_iff.mp
      (filed_of_several hissued hcombines hseveral hrequest).1
    exact hfront other ((mem_erase_of_ne hne).mpr hother)
      (response_ne_nil hissued hcombines hother) hnames
  obtain ⟨hleft, hwaits⟩ := filed_of_several hissued hcombines hseveral hrequest
  have hfiled := (arrive_foldl_iff.mp hleft).1
  refine ⟨(hissued.added _ _ hfiled).imp_right ?_, hunique request hrequest, hwaits⟩
  rintro ⟨hfresh, -⟩
  refine ⟨hfresh, fun other hother htime => ?_⟩
  have hother' := (arrive_foldl_iff.mp
    (filed_of_several hissued hcombines hseveral hother).1).1
  rw [htime] at hother'
  exact hunique request hrequest other hother
    ⟨htime.symm, hissued.single _ _ _ hfresh hfiled hother'⟩

theorem AllAlike.of_combinesAll : AllAlike before issued response := by
  have hlast : ∀ request ∈ issued,
      response request.1 = combine (issued.map fun request => response request.1) :=
    fun request hrequest => (response_last hissued hcombines (perm_erase_concat hrequest)).2.2
  have halike : ∀ left ∈ issued, ∀ right ∈ issued, response left.1 = response right.1 :=
    fun left hleft right hright => (hlast left hleft).trans (hlast right hright).symm
  have hnonempty : issued ≠ [] := by
    rintro rfl
    have hnone := (hcombines [] (Perm.refl [])).2
    simp [responses, receiveAll] at hnone
  obtain ⟨request, hrequest⟩ := exists_mem_of_ne_nil issued hnonempty
  refine ⟨hnonempty, fun _ => response_ne_nil hissued hcombines, halike, ?_,
    looksEmpty_stale hissued hcombines hrequest, fun hseveral _ =>
      Alone.of_combinesAll hissued hcombines hseveral⟩
  have hcombined := (combine_alike_iff hrequest fun other hother =>
    halike other hother request hrequest).mp (hlast request hrequest).symm
  refine hcombined.imp_right fun hzero other hother => ?_
  rwa [halike other hother request hrequest]

end Necessary

/-! ## Sufficiency -/

section Sufficient

variable (hissued : Issued before op server issued filing)
  (halike : AllAlike before issued response)
include hissued halike

/-- A request that is not answered yet is filed. -/
theorem AllAlike.arrive_of_mem_rest (hseveral : 1 < issued.length)
    (hperm : (front ++ rest).Perm issued) (hrequest : request ∈ rest) :
    front.foldl (arrive response) filing request.2.temporalTime request.2.chunkId := by
  have hmem : request ∈ issued := hperm.mem_iff.mp (mem_append_right _ hrequest)
  have halone := halike.several hseveral request hmem
  have hnodup : (front ++ rest).Nodup :=
    hperm.nodup_iff.mpr (Nodup.of_map _ hissued.pointers)
  refine arrive_foldl_iff.mpr ⟨?_, fun other hother _ hnames => ?_⟩
  · rcases halone.filed with hbefore | ⟨hfresh, honly⟩
    · exact hissued.kept _ _ hbefore
    · obtain ⟨chunkId, hfiled⟩ := hissued.complete request hmem
      obtain ⟨-, other, hother, htime, hchunk⟩ :=
        (hissued.added _ _ hfiled).resolve_left (hfresh chunkId)
      rw [honly other hother htime.symm] at hchunk
      rwa [← hchunk]
  · have heq := halone.unique other (hperm.mem_iff.mp (mem_append_left _ hother)) hnames
    exact (nodup_append.mp hnodup).2.2 other hother request hrequest heq

/-- A request that is not answered yet keeps the queue from looking empty. -/
theorem AllAlike.not_looksEmpty (hperm : (front ++ request :: rest).Perm issued)
    (hfront : front ≠ []) : ¬ LooksEmpty (front.foldl (arrive response) filing) := by
  have hseveral : 1 < issued.length := by
    rw [← hperm.length_eq, length_append, length_cons]
    have := length_pos_iff.mpr hfront
    omega
  have hfiled : ∀ other ∈ request :: rest,
      front.foldl (arrive response) filing other.2.temporalTime other.2.chunkId :=
    fun other => halike.arrive_of_mem_rest hissued hseveral hperm
  rintro (hnone | ⟨⟨chunkId, hminus⟩, hbound⟩)
  · exact hnone _ _ (hfiled request mem_cons_self)
  -- One more request beside what is left at the time `-1` would look empty too.
  have hcontradiction : ∀ other ∈ request :: rest,
      ¬ (stale before issued (-1) chunkId ∨ Names other (-1) chunkId) := by
    intro other hother hleft
    refine (halike.several hseveral other (hperm.mem_iff.mp (mem_append_right _ hother))).waits
      (.inr ⟨⟨chunkId, hleft⟩, ?_⟩)
    rintro time chunkId (hstale | ⟨rfl, rfl⟩)
    · exact hbound _ _ (arrive_of_stale hissued hperm hstale)
    · exact hbound _ _ (hfiled other hother)
  rcases stale_of_arrive hissued hperm halike.data hminus with hstale | ⟨other, hother, hnames⟩
  · exact hcontradiction request mem_cons_self (.inl hstale)
  · exact hcontradiction other hother (.inr hnames)

theorem AllAlike.combinesAll : CombinesAll op server issued response := by
  intro order hperm
  have hwaiting := hissued.toWaiting.perm hperm
  have hbefore : ∀ front rest, order = front ++ rest → rest ≠ [] →
      (receiveAll server (responses response front)).writes = server.writes := by
    intro front
    induction front using reverseRecOn with
    | nil => exact fun _ _ _ => rfl
    | append_singleton front request ih =>
      intro rest horder hrest
      obtain ⟨next, rest, rfl⟩ := exists_cons_of_ne_nil hrest
      have hsplit : order = front ++ request :: next :: rest := by simpa using horder
      have hlooks := halike.not_looksEmpty hissued (horder ▸ hperm) (by simp)
      have hsplit' : Waiting op server (front ++ request :: next :: rest) filing :=
        hsplit ▸ hwaiting
      rw [hsplit'.writes_snoc, ih _ hsplit (cons_ne_nil _ _), writeOf,
        if_neg fun hcause => hlooks hcause.2, append_nil]
  refine ⟨?_, ?_⟩
  · intro count hcount
    refine hbefore (order.take count) (order.drop count) (take_append_drop count order).symm ?_
    intro hnil
    have := drop_eq_nil_iff.mp hnil
    omega
  · have hnonempty : order ≠ [] := by
      rintro rfl
      exact halike.nonempty hperm.nil_eq.symm
    obtain ⟨front, request, rfl⟩ := (eq_nil_or_concat' order).resolve_left hnonempty
    have hrequest : request ∈ issued := hperm.mem_iff.mp (by simp)
    have hlooks : LooksEmpty ((front ++ [request]).foldl (arrive response) filing) := by
      rw [arrive_all hissued hperm halike.data]
      exact halike.others
    have hcombined : combine (issued.map fun request => response request.1) =
        response request.1 :=
      (combine_alike_iff hrequest fun other hother =>
        halike.alike other hother request hrequest).mpr
        (halike.combination.imp_right fun hzero => hzero request hrequest)
    rw [hwaiting.writes_snoc, hbefore front [request] rfl (cons_ne_nil _ _), writeOf,
      if_pos ⟨halike.data request hrequest, hlooks⟩, hcombined]

end Sufficient

/-- A repair of chunk 9 of stripe 7 with the operations of the text. -/
def sampleOp (theSequenceString : List Char) : DistributedRepairChunkOp :=
  ⟨9, 1, 4, 7, theSequenceString⟩

def oneOperation : List Char := "TIME2C5V1S8D1-h:1".toList

def otherOperation : List Char := "TIME3C6V1S8D1-h:2".toList

end QfsRepair.Repair.Destination
