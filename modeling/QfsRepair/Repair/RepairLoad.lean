import QfsRepair.Machine.GuardedRuns
import QfsRepair.Repair.Selection

/-!
# The load of unfinished repairs

The start of a repair marks its sources and its destination as servers in use
and counts the repair in their loads; the reply takes the marks of its servers
away.  The marks are a set, so that a reply also takes away the marks of other
repairs, and no reply touches the loads.
-/

namespace QfsRepair.Repair

open Store Machine List KeyedList

/-! ## Replies -/

/-- What `handleReply` reads of a reply. -/
structure ReplicateReply where
  status : ℤ
  numRecoveryStripes : ℤ
  chunkVersion : ℤ

/-- A recovery that reports a version ends before the marks are taken away. -/
def ReplicateReply.Refused (reply : ReplicateReply) : Prop :=
  reply.status = 0 ∧ 0 < reply.numRecoveryStripes ∧ reply.chunkVersion ≠ 0

instance (reply : ReplicateReply) : Decidable reply.Refused :=
  inferInstanceAs (Decidable (_ ∧ _))

/-- The loop over the servers of the repair; a server without a mark fails an
assertion. -/
def releaseServers : List ChunkServerPtr → List (ChunkServerPtr × Bool) →
    Option (List (ChunkServerPtr × Bool))
  | [], serversBeingUsedMap => some serversBeingUsedMap
  | server :: servers, serversBeingUsedMap =>
    if server ∈ KeyedList.keys serversBeingUsedMap then
      releaseServers servers (erase server serversBeingUsedMap)
    else none

namespace LayoutManager

/-- The part of `MetaChunkReplicate::handleReply` about the servers in use.  A
repair without an entry fails an assertion. -/
def handleReply (layout : LayoutManager) (chunkId : ℤ) (reply : ReplicateReply) :
    Option LayoutManager :=
  if reply.Refused then some layout
  else
    match find chunkId layout.chunkRepairServersBeingUsed with
    | none => none
    | some repairInfo =>
      (releaseServers (KeyedList.keys repairInfo) layout.serversBeingUsedMap).map
        fun serversBeingUsedMap =>
          { layout with
            serversBeingUsedMap := serversBeingUsedMap
            chunkRepairServersBeingUsed :=
              erase chunkId layout.chunkRepairServersBeingUsed }

end LayoutManager

/-! ## Repairs -/

/-- The choices of a repair; the sources are a map. -/
structure ChunkRepair where
  chunkId : ℤ
  sources : List (ChunkServerPtr × Bool)
  destination : ChunkServerPtr
  nodup : (KeyedList.keys sources).Nodup
  deriving DecidableEq

def ChunkRepair.servers (repair : ChunkRepair) : List ChunkServerPtr :=
  KeyedList.keys repair.sources ++ [repair.destination]

inductive RepairEvent where
  | start (repair : ChunkRepair)
  | reply (repair : ChunkRepair) (reply : ReplicateReply)

/-- The layout manager after an event; there is none after a failed assertion. -/
def repairStep (layout : Option LayoutManager) : RepairEvent → Option LayoutManager
  | .start repair => layout.map fun layout =>
    layout.markServersBeingUsed repair.chunkId repair.sources repair.destination
  | .reply repair reply => layout.bind fun layout => layout.handleReply repair.chunkId reply

/-- The repairs that were started and not replied to. -/
def unfinishedStep (unfinished : List ChunkRepair) : RepairEvent → List ChunkRepair
  | .start repair => repair :: unfinished
  | .reply repair _ => unfinished.erase repair

/-- Replies are to unfinished repairs. -/
def RepliesToUnfinished : List ChunkRepair → List RepairEvent → Prop
  | _, [] => True
  | unfinished, .start repair :: events => RepliesToUnfinished (repair :: unfinished) events
  | unfinished, .reply repair _ :: events =>
    repair ∈ unfinished ∧ RepliesToUnfinished (unfinished.erase repair) events

/-- The marks are those of the unfinished repairs. -/
def MarksUnfinished (unfinished : List ChunkRepair) (layout : LayoutManager) : Prop :=
  ∀ server, server ∈ KeyedList.keys layout.serversBeingUsedMap ↔
    ∃ repair ∈ unfinished, server ∈ repair.servers

/-- The loads count the unfinished repairs. -/
def CountsUnfinished (unfinished : List ChunkRepair) (layout : LayoutManager) : Prop :=
  ∀ server, (layout.chunkServer server).sereverRepairLoad.numOfActingSources =
      unfinished.countP (fun repair => decide (server ∈ KeyedList.keys repair.sources)) ∧
    (layout.chunkServer server).sereverRepairLoad.numOfFinalRepairs =
      unfinished.countP (fun repair => decide (repair.destination = server))

/-- The layout manager before the first repair. -/
structure Idle (layout : LayoutManager) : Prop where
  serversBeingUsedMap : layout.serversBeingUsedMap = []
  chunkRepairServersBeingUsed : layout.chunkRepairServersBeingUsed = []
  load : ∀ server, (layout.chunkServer server).sereverRepairLoad = {}

/-! ## Starts -/

namespace LayoutManager

variable (layout : LayoutManager)

theorem load_markServer (server other : ChunkServerPtr)
    (change : ChunkServerRepairLoad → ChunkServerRepairLoad) :
    ((layout.markServer server change).chunkServer other).sereverRepairLoad =
      if other = server then change (layout.chunkServer other).sereverRepairLoad
      else (layout.chunkServer other).sereverRepairLoad := by
  rw [markServer, addLoad]
  by_cases hother : other = server
  · rw [hother]
    simp
  · rw [if_neg hother]
    simp [Function.update_of_ne hother]

theorem mem_markServer {server other : ChunkServerPtr}
    {change : ChunkServerRepairLoad → ChunkServerRepairLoad} :
    other ∈ KeyedList.keys (layout.markServer server change).serversBeingUsedMap ↔
      other = server ∨ other ∈ KeyedList.keys layout.serversBeingUsedMap :=
  mem_keys_assign

/-- The loop over the sources. -/
def markSources (servers : List ChunkServerPtr) : LayoutManager :=
  servers.foldl
    (fun layout server => layout.markServer server fun load =>
      { load with numOfActingSources := load.numOfActingSources + 1 })
    layout

variable {servers : List ChunkServerPtr}

theorem mem_markSources {other : ChunkServerPtr} :
    other ∈ KeyedList.keys (layout.markSources servers).serversBeingUsedMap ↔
      other ∈ servers ∨ other ∈ KeyedList.keys layout.serversBeingUsedMap := by
  induction servers generalizing layout with
  | nil => simp [markSources]
  | cons server servers ih =>
    rw [markSources, foldl_cons, ← markSources, ih, mem_markServer, mem_cons]
    tauto

theorem load_markSources (hnodup : servers.Nodup) (other : ChunkServerPtr) :
    ((layout.markSources servers).chunkServer other).sereverRepairLoad.numOfActingSources =
        (layout.chunkServer other).sereverRepairLoad.numOfActingSources +
          (if other ∈ servers then 1 else 0) ∧
      ((layout.markSources servers).chunkServer other).sereverRepairLoad.numOfFinalRepairs =
        (layout.chunkServer other).sereverRepairLoad.numOfFinalRepairs := by
  induction servers generalizing layout with
  | nil => simp [markSources]
  | cons server servers ih =>
    obtain ⟨hserver, hservers⟩ := nodup_cons.mp hnodup
    obtain ⟨hacting, hfinal⟩ := ih (layout.markServer server fun load =>
      { load with numOfActingSources := load.numOfActingSources + 1 }) hservers
    rw [markSources, foldl_cons, ← markSources, hacting, hfinal, load_markServer]
    by_cases hother : other = server
    · rw [hother, if_neg hserver]
      simp
    · simp [hother]

theorem chunkRepair_markSources (servers : List ChunkServerPtr) :
    (layout.markSources servers).chunkRepairServersBeingUsed =
      layout.chunkRepairServersBeingUsed := by
  induction servers generalizing layout with
  | nil => rfl
  | cons server servers ih =>
    rw [markSources, foldl_cons, ← markSources, ih]
    rfl

section Mark

variable (chunkId : ℤ) (sources : List (ChunkServerPtr × Bool)) (destination : ChunkServerPtr)

theorem chunkServer_markServersBeingUsed :
    (layout.markServersBeingUsed chunkId sources destination).chunkServer =
      ((layout.markSources (KeyedList.keys sources)).markServer destination fun load =>
        { load with numOfFinalRepairs := load.numOfFinalRepairs + 1 }).chunkServer :=
  rfl

theorem mem_markServersBeingUsed {server : ChunkServerPtr} :
    server ∈ KeyedList.keys
        (layout.markServersBeingUsed chunkId sources destination).serversBeingUsedMap ↔
      server = destination ∨ server ∈ KeyedList.keys sources ∨
        server ∈ KeyedList.keys layout.serversBeingUsedMap := by
  rw [← mem_markSources]
  exact (layout.markSources (KeyedList.keys sources)).mem_markServer

theorem chunkRepair_markServersBeingUsed :
    (layout.markServersBeingUsed chunkId sources destination).chunkRepairServersBeingUsed =
      assign chunkId ((KeyedList.keys sources ++ [destination]).foldl
        (fun repairInfo server => assign server true repairInfo) [])
        layout.chunkRepairServersBeingUsed := by
  rw [← layout.chunkRepair_markSources]
  rfl

end Mark

end LayoutManager

/-- The planning of a repair, for each of the codes, is the start of one. -/
theorem populateOperationTable_start
    (sort : (ChunkServerPtr → ChunkServerPtr → Bool) → List ChunkServerPtr → List ChunkServerPtr)
    (count : ℕ) (plan : PlanLayout) (layout : LayoutManager) (chunkId : ℤ) (chunkIds : List ℤ)
    (operations : List (Name × OperationMap)) (sources : List (ℤ × ChunkServerPtr))
    (destination : ChunkServerPtr) :
    ∃ repair : ChunkRepair, repair.chunkId = chunkId ∧ repair.destination = destination ∧
      repairStep (some layout) (.start repair) = some (layout.populateOperationTable sort count
        plan chunkId chunkIds operations sources destination).2 :=
  ⟨⟨chunkId, layout.selectSetOfSourceServers sort (layout.getServersWhichHaveCache chunkIds [])
      count sources, destination, layout.nodup_selectServers count _ nodup_nil⟩, rfl, rfl, rfl⟩

variable {layout layout' : LayoutManager} {unfinished : List ChunkRepair} {repair : ChunkRepair}
variable {reply : ReplicateReply}

theorem MarksUnfinished.start (hmarks : MarksUnfinished unfinished layout) :
    MarksUnfinished (repair :: unfinished)
      (layout.markServersBeingUsed repair.chunkId repair.sources repair.destination) := by
  intro server
  rw [LayoutManager.mem_markServersBeingUsed, hmarks]
  simp only [mem_cons, exists_eq_or_imp, ChunkRepair.servers, mem_append, not_mem_nil, or_false]
  rw [or_left_comm, or_assoc]

theorem CountsUnfinished.start (hcounts : CountsUnfinished unfinished layout) :
    CountsUnfinished (repair :: unfinished)
      (layout.markServersBeingUsed repair.chunkId repair.sources repair.destination) := by
  intro server
  obtain ⟨hacting, hfinal⟩ := hcounts server
  obtain ⟨hacting', hfinal'⟩ := layout.load_markSources repair.nodup server
  rw [LayoutManager.chunkServer_markServersBeingUsed, LayoutManager.load_markServer,
    countP_cons]
  by_cases hdestination : server = repair.destination
  · simp [hdestination] at hacting hfinal hacting' hfinal' ⊢
    rw [hacting', hfinal', hacting, hfinal]
    exact ⟨rfl, rfl⟩
  · rw [if_neg hdestination, hacting', hfinal', hacting, hfinal]
    simp [Ne.symm hdestination]

/-! ## Replies and loads -/

variable {chunkId : ℤ}

theorem chunkServer_handleReply (hreply : layout.handleReply chunkId reply = some layout') :
    layout'.chunkServer = layout.chunkServer := by
  rw [LayoutManager.handleReply] at hreply
  split_ifs at hreply
  · rw [Option.some.inj hreply]
  · cases hfind : find chunkId layout.chunkRepairServersBeingUsed with
    | none =>
      rw [hfind] at hreply
      exact absurd hreply (Option.some_ne_none _).symm
    | some repairInfo =>
      rw [hfind] at hreply
      obtain ⟨used, -, rfl⟩ := Option.map_eq_some_iff.mp hreply
      rfl

/-- The destination of the repair stays counted. -/
theorem not_countsUnfinished_reply (hcounts : CountsUnfinished unfinished layout)
    (hmem : repair ∈ unfinished) (hreply : layout.handleReply chunkId reply = some layout') :
    ¬ CountsUnfinished (unfinished.erase repair) layout' := by
  intro hafter
  have hbefore := (hcounts repair.destination).2
  have hcounted := (hafter repair.destination).2
  rw [chunkServer_handleReply hreply] at hcounted
  have hcount : unfinished.countP (fun other => decide (other.destination = repair.destination)) =
      (unfinished.erase repair).countP
        (fun other => decide (other.destination = repair.destination)) + 1 := by
    rw [(perm_cons_erase hmem).countP_eq]
    simp
  omega

/-- The bookkeeping of the unfinished repairs is right, and no assertion has
failed. -/
def BookkeepingCorrect (layout : Option LayoutManager) (unfinished : List ChunkRepair) : Prop :=
  ∃ current, layout = some current ∧ MarksUnfinished unfinished current ∧
    CountsUnfinished unfinished current

def IsStart : RepairEvent → Prop
  | .start _ => True
  | .reply _ _ => False

theorem guarded_repairs :
    Guarded repairStep unfinishedStep BookkeepingCorrect (fun _ event => IsStart event)
      (fun layout unfinished events => BookkeepingCorrect layout unfinished ∧
        RepliesToUnfinished unfinished events) where
  behaves := fun _ _ _ hrelated => hrelated.1
  keeps := by
    rintro layout unfinished event events ⟨⟨current, rfl, hmarks, hcounts⟩, hreplies⟩ hstart
    cases event with
    | start repair => exact ⟨⟨_, rfl, hmarks.start, hcounts.start⟩, hreplies⟩
    | reply repair reply => exact hstart.elim
  needed := by
    rintro layout unfinished event events ⟨⟨current, rfl, hmarks, hcounts⟩, hreplies⟩ hafter
    cases event with
    | start repair => trivial
    | reply repair reply =>
      obtain ⟨next, hnext, -, hcounted⟩ := hafter
      exact not_countsUnfinished_reply hcounts hreplies.1 hnext hcounted

/-! ## Repairs that share no server -/

/-- A repair is started for a chunk without one, and replied to with a report
that is not refused while no other unfinished repair has one of its servers. -/
def Separate (unfinished : List ChunkRepair) : RepairEvent → Prop
  | .start repair => ∀ other ∈ unfinished, other.chunkId ≠ repair.chunkId
  | .reply repair reply => ¬ reply.Refused ∧
      ∀ other ∈ unfinished.erase repair, ∀ server ∈ other.servers, server ∉ repair.servers

/-- The servers of each unfinished repair are recorded under its chunk. -/
structure Recorded (unfinished : List ChunkRepair) (layout : LayoutManager) : Prop where
  chunks : (unfinished.map ChunkRepair.chunkId).Nodup
  info : ∀ repair ∈ unfinished, ∃ repairInfo,
    find repair.chunkId layout.chunkRepairServersBeingUsed = some repairInfo ∧
      (KeyedList.keys repairInfo).Nodup ∧
      ∀ server, server ∈ KeyedList.keys repairInfo ↔ server ∈ repair.servers

theorem repairInfo_servers (servers : List ChunkServerPtr)
    (repairInfo : List (ChunkServerPtr × Bool)) (hnodup : (KeyedList.keys repairInfo).Nodup) :
    (KeyedList.keys (servers.foldl
        (fun repairInfo server => assign server true repairInfo) repairInfo)).Nodup ∧
      ∀ server, server ∈ KeyedList.keys (servers.foldl
          (fun repairInfo server => assign server true repairInfo) repairInfo) ↔
        server ∈ servers ∨ server ∈ KeyedList.keys repairInfo := by
  induction servers generalizing repairInfo with
  | nil => simpa using hnodup
  | cons first rest ih =>
    obtain ⟨hrestNodup, hrest⟩ :=
      ih (assign first true repairInfo) (nodup_keys_assign hnodup)
    refine ⟨hrestNodup, fun server => ?_⟩
    rw [foldl_cons, hrest, mem_keys_assign, mem_cons]
    tauto

theorem Recorded.start (hrecorded : Recorded unfinished layout)
    (hseparate : ∀ other ∈ unfinished, other.chunkId ≠ repair.chunkId) :
    Recorded (repair :: unfinished)
      (layout.markServersBeingUsed repair.chunkId repair.sources repair.destination) where
  chunks := by
    rw [map_cons, nodup_cons]
    refine ⟨?_, hrecorded.chunks⟩
    rw [mem_map]
    rintro ⟨other, hother, heq⟩
    exact hseparate other hother heq
  info := by
    intro other hother
    rw [LayoutManager.chunkRepair_markServersBeingUsed]
    rcases mem_cons.mp hother with rfl | hold
    · obtain ⟨hnodup, hmem⟩ := repairInfo_servers other.servers [] nodup_nil
      refine ⟨_, find_assign_self _ _ _, hnodup, fun server => ?_⟩
      exact (hmem server).trans (or_iff_left not_mem_nil)
    · rw [find_assign_of_ne (hseparate other hold)]
      exact hrecorded.info other hold

variable {servers : List ChunkServerPtr}

theorem releaseServers_eq (hnodup : servers.Nodup) {used : List (ChunkServerPtr × Bool)}
    (hused : ∀ server ∈ servers, server ∈ KeyedList.keys used) :
    ∃ remaining, releaseServers servers used = some remaining ∧
      ∀ server, server ∈ KeyedList.keys remaining ↔
        server ∈ KeyedList.keys used ∧ server ∉ servers := by
  induction servers generalizing used with
  | nil => exact ⟨used, rfl, by simp⟩
  | cons first rest ih =>
    obtain ⟨hfirst, hrest⟩ := nodup_cons.mp hnodup
    have herased : ∀ server, server ∈ KeyedList.keys (erase first used) ↔
        server ∈ KeyedList.keys used ∧ server ≠ first := by
      simp [KeyedList.keys, erase]
    have hremaining : ∀ server ∈ rest,
        server ∈ KeyedList.keys (erase first used) := by
      intro server hserver
      rw [herased]
      exact ⟨hused server (mem_cons_of_mem _ hserver), fun heq => hfirst (heq ▸ hserver)⟩
    obtain ⟨remaining, hrelease, hmem⟩ := ih hrest hremaining
    refine ⟨remaining, ?_, fun server => ?_⟩
    · rw [releaseServers, if_pos (hused first mem_cons_self), hrelease]
    · rw [hmem, herased, mem_cons]
      tauto

/-- The reply takes away the marks of its own servers only. -/
theorem Recorded.handleReply (hrecorded : Recorded unfinished layout)
    (hmarks : MarksUnfinished unfinished layout) (hmem : repair ∈ unfinished)
    (hseparate : Separate unfinished (.reply repair reply)) :
    ∃ next, layout.handleReply repair.chunkId reply = some next ∧
      Recorded (unfinished.erase repair) next ∧
      MarksUnfinished (unfinished.erase repair) next := by
  obtain ⟨haccepted, hdisjoint⟩ := hseparate
  obtain ⟨repairInfo, hfind, hnodup, hservers⟩ := hrecorded.info repair hmem
  have hperm := perm_cons_erase hmem
  obtain ⟨remaining, hrelease, hremaining⟩ := releaseServers_eq hnodup
    (fun server hserver => (hmarks server).mpr ⟨repair, hmem, (hservers server).mp hserver⟩)
  refine ⟨{ layout with
    serversBeingUsedMap := remaining
    chunkRepairServersBeingUsed :=
      erase repair.chunkId layout.chunkRepairServersBeingUsed }, ?_, ⟨?_, ?_⟩, ?_⟩
  · rw [LayoutManager.handleReply, if_neg haccepted, hfind]
    dsimp only
    rw [hrelease, Option.map_some]
  · exact hrecorded.chunks.sublist (erase_sublist.map _)
  · intro other hother
    have hchunks := (hperm.map ChunkRepair.chunkId).nodup_iff.mp hrecorded.chunks
    have hne : other.chunkId ≠ repair.chunkId := by
      intro heq
      refine (nodup_cons.mp hchunks).1 ?_
      exact mem_map.mpr ⟨other, hother, heq⟩
    obtain ⟨otherInfo, hotherFind, hother'⟩ := hrecorded.info other (mem_of_mem_erase hother)
    exact ⟨otherInfo, (find_erase_of_ne hne _).trans hotherFind, hother'⟩
  · intro server
    rw [hremaining, hmarks, hservers]
    constructor
    · rintro ⟨⟨other, hother, hserver⟩, hnot⟩
      rcases mem_cons.mp (hperm.mem_iff.mp hother) with rfl | hrest
      · exact absurd hserver hnot
      · exact ⟨other, hrest, hserver⟩
    · rintro ⟨other, hother, hserver⟩
      exact ⟨⟨other, mem_of_mem_erase hother, hserver⟩, hdisjoint other hother server hserver⟩

/-- The marks are right, and no assertion has failed. -/
def MarksCorrect (layout : Option LayoutManager) (unfinished : List ChunkRepair) : Prop :=
  ∃ current, layout = some current ∧ MarksUnfinished unfinished current

/-- The invariant of a run of separate repairs. -/
def SeparateRun (layout : Option LayoutManager) (unfinished : List ChunkRepair)
    (events : List RepairEvent) : Prop :=
  RepliesToUnfinished unfinished events ∧ ∃ current, layout = some current ∧
    MarksUnfinished unfinished current ∧ Recorded unfinished current

theorem SeparateRun.step (layout : Option LayoutManager) (unfinished : List ChunkRepair)
    (event : RepairEvent) (events : List RepairEvent)
    (hrun : SeparateRun layout unfinished (event :: events))
    (hseparate : Separate unfinished event) :
    SeparateRun (repairStep layout event) (unfinishedStep unfinished event) events := by
  obtain ⟨hreplies, current, rfl, hmarks, hrecorded⟩ := hrun
  cases event with
  | start repair => exact ⟨hreplies, _, rfl, hmarks.start, hrecorded.start hseparate⟩
  | reply repair reply =>
    obtain ⟨next, hnext, hrecorded', hmarks'⟩ :=
      hrecorded.handleReply hmarks hreplies.1 hseparate
    exact ⟨hreplies.2, next, hnext, hmarks', hrecorded'⟩

theorem marksUnfinished_of_idle (hidle : Idle layout) : MarksUnfinished [] layout := by
  intro server
  rw [hidle.serversBeingUsedMap]
  simp [KeyedList.keys]

theorem countsUnfinished_of_idle (hidle : Idle layout) : CountsUnfinished [] layout := by
  intro server
  rw [hidle.load]
  exact ⟨rfl, rfl⟩

/-- The marks and the loads are right in every state of a run exactly when no
repair is replied to; the marks are, and no assertion fails, where the repairs
that are replied to share no server with others. -/
theorem bookkeepingCorrect_iff (hidle : Idle layout) (events : List RepairEvent)
    (hreplies : RepliesToUnfinished [] events) :
    ((∀ front, front <+: events → BookkeepingCorrect (front.foldl repairStep (some layout))
        (front.foldl unfinishedStep [])) ↔
      ∀ front event, front ++ [event] <+: events → IsStart event) ∧
    ((∀ front event, front ++ [event] <+: events →
        Separate (front.foldl unfinishedStep []) event) →
      ∀ front, front <+: events → MarksCorrect (front.foldl repairStep (some layout))
        (front.foldl unfinishedStep [])) := by
  have hmarks := marksUnfinished_of_idle hidle
  constructor
  · exact guarded_repairs.behaves_iff
      ⟨⟨layout, rfl, hmarks, countsUnfinished_of_idle hidle⟩, hreplies⟩
  · intro hseparate front hfront
    have hstart : SeparateRun (some layout) [] events :=
      ⟨hreplies, layout, rfl, hmarks, nodup_nil, by simp⟩
    obtain ⟨rest, -, current, hcurrent, hmarks', -⟩ :=
      related_of_guard SeparateRun.step hstart hseparate hfront
    exact ⟨current, hcurrent, hmarks'⟩

/-! ## Runs -/

/-- No repair yet; the servers are at the locations `h:0`. -/
def idleLayout : LayoutManager where
  chunkServer := fun _ => { location := ⟨['h'], 0⟩ }
  chunkIdToCacheServerMap := fun _ => none

theorem idleLayout_idle : Idle idleLayout := ⟨rfl, rfl, fun _ => rfl⟩

/-- A repair of chunk 5 from server 1 to server 3. -/
def firstRepair : ChunkRepair := ⟨5, [(1, false)], 3, by decide⟩

/-- A repair of chunk 6 from server 2 to server 3. -/
def secondRepair : ChunkRepair := ⟨6, [(2, false)], 3, by decide⟩

def plainReply : ReplicateReply := ⟨0, 0, 1⟩

/-- The bookkeeping of one repair is right until the reply, and its marks are right
after it, too. -/
theorem bookkeepingCorrect_one_repair :
    (∀ front, front <+: [RepairEvent.start firstRepair] →
        BookkeepingCorrect (front.foldl repairStep (some idleLayout))
          (front.foldl unfinishedStep [])) ∧
      ∀ front, front <+: [RepairEvent.start firstRepair, .reply firstRepair plainReply] →
        MarksCorrect (front.foldl repairStep (some idleLayout))
          (front.foldl unfinishedStep []) := by
  constructor
  · refine (bookkeepingCorrect_iff idleLayout_idle [.start firstRepair] trivial).1.mpr ?_
    simp [forall_prefix_cons_iff, IsStart]
  · refine (bookkeepingCorrect_iff idleLayout_idle
      [.start firstRepair, .reply firstRepair plainReply] ⟨mem_cons_self, trivial⟩).2 ?_
    rw [forall_prefix_cons_iff, forall_prefix_cons_iff]
    refine ⟨by simp [Separate], ⟨by decide, by simp [unfinishedStep]⟩, by simp⟩

/-- Two repairs with the same destination, and the replies to them. -/
def sharedDestination : List RepairEvent :=
  [.start firstRepair, .start secondRepair, .reply firstRepair plainReply,
    .reply secondRepair plainReply]

/-- One reply leaves the destination loaded; where two repairs have the same
destination, the reply to the first takes the mark that the second needs, and
the reply to the second fails an assertion. -/
theorem not_bookkeepingCorrect_shared_destination :
    RepliesToUnfinished [] sharedDestination ∧
      ¬ BookkeepingCorrect ([.start firstRepair, .reply firstRepair plainReply].foldl repairStep
        (some idleLayout)) ([.start firstRepair, .reply firstRepair plainReply].foldl
          unfinishedStep []) ∧
      ¬ MarksCorrect ((sharedDestination.take 3).foldl repairStep (some idleLayout))
        ((sharedDestination.take 3).foldl unfinishedStep []) ∧
      ¬ MarksCorrect (sharedDestination.foldl repairStep (some idleLayout))
        (sharedDestination.foldl unfinishedStep []) := by
  refine ⟨?_, ?_, ?_, ?_⟩
  · simp [sharedDestination, RepliesToUnfinished, firstRepair, secondRepair]
  · rintro ⟨layout, hlayout, -, hcounts⟩
    have hload := (hcounts 3).2
    cases hlayout
    exact absurd hload (by decide)
  · rintro ⟨layout, hlayout, hmarks⟩
    have hmark := (hmarks 3).mpr ⟨secondRepair, by decide, by decide⟩
    cases hlayout
    exact absurd hmark (by decide)
  · rintro ⟨layout, hlayout, -⟩
    cases hlayout

end QfsRepair.Repair
