import QfsRepair.Meta.Items
import Mathlib.Data.List.Nodup

/-!
# Chunk blocks that can be recovered

Before a chunk is recovered from the other chunks of its block,
`CanReplicateChunkNow` walks over the block.  It gives recovery information only
for a block without write leases and unstable chunks, whose holes lie behind the
data, and of which enough stripes are available.
-/

namespace QfsRepair.Recovery

open List
open Meta (Fattr ChunkInfo chunkStartOffset)
open Striping (CHUNKSIZE stripedFileTypeNone)

abbrev Server := ℕ

/-- A file and its chunks, one for an offset and in the order of the offsets, as
the metadata tree keeps them. -/
structure FileLayout where
  fattr : Fattr
  chunks : List ChunkInfo
  sorted : chunks.Pairwise (·.offset < ·.offset)
  aligned : ∀ chunk ∈ chunks, CHUNKSIZE ∣ chunk.offset

/-- The chunk that `getalloc` finds, with the chunks of its block and the start of
the block. -/
def FileLayout.getalloc (layout : FileLayout) (offset : ℤ) :
    Option (ChunkInfo × List ChunkInfo × ℤ) :=
  if offset < 0 then none
  else
    let boundary := chunkStartOffset offset
    let start := layout.fattr.chunkPosToChunkBlkStartPos boundary
    let last := start + layout.fattr.chunkBlkSize - CHUNKSIZE
    let chunkBlock := layout.chunks.filter fun chunk =>
      start ≤ chunk.offset ∧ chunk.offset ≤ last
    (chunkBlock.find? fun chunk => chunk.offset = boundary).map fun chunk =>
      (chunk, chunkBlock, start)

/-- What is read of the layout manager and of the servers. -/
structure LayoutManager where
  /-- `GetWriteLease`: the time at which the lease of a chunk expires. -/
  writeLease : ℤ → Option ℤ
  nonStableChunks : List ℤ
  /-- `GetServers`: the servers of a chunk and how many more are hibernated. -/
  getServers : ℤ → List Server × ℕ
  /-- The servers with modifications of a chunk in flight. -/
  inFlight : ℤ → List Server
  replicationReadLoad : Server → ℤ
  isEvacuationScheduled : Server → ℤ → Bool
  /-- `UpdateReadLeaseReplicationCheck`. -/
  readLeaseReplicationCheck : ℤ → Bool
  useEvacuationRecoveryFlag : Bool
  maxConcurrentReadReplicationsPerNode : ℤ
  pastEofRecoveryDelay : ℤ
  timeNow : ℤ

inductive ReplicationState where
  | pendingReplication
  | noDestination
  | pendingRecovery
  | delayedRecovery

/-- The defaults are what `Clear` sets. -/
structure ChunkRecoveryInfo where
  offset : ℤ := -1
  version : ℤ := -1
  striperType : ℤ := stripedFileTypeNone
  numStripes : ℤ := 0
  numRecoveryStripes : ℤ := 0
  stripeSize : ℤ := 0
  fileSize : ℤ := -1
  deriving DecidableEq

/-- The value that is returned, what is stored through the arguments, and the
states that are set. -/
structure Outcome where
  canReplicate : Bool := false
  extraReplicas : ℤ := 0
  hibernatedReplicaCount : ℕ := 0
  recoveryInfo : ChunkRecoveryInfo := {}
  excluded : List (List Server × ℤ) := []
  states : List (ℤ × ReplicationState) := []

/-! ## The walk over the chunk block -/

structure Scan where
  good : ℕ := 0
  notStable : ℤ := 0
  excluded : List (List Server × ℤ) := []

section Check

variable (manager : LayoutManager) (layout : FileLayout)

/-- A chunk with a write lease, valid or expired, or that is not stable. -/
def LayoutManager.InUse (chunkId : ℤ) : Prop :=
  (manager.writeLease chunkId).isSome ∨ chunkId ∈ manager.nonStableChunks

instance (chunkId : ℤ) : Decidable (manager.InUse chunkId) := inferInstanceAs (Decidable (_ ∨ _))

/-- The servers of a chunk and, for the other chunks, those with modifications in
flight. -/
def LayoutManager.excludes (chunkId curChunkId : ℤ) : List Server :=
  let servers := (manager.getServers curChunkId).1
  if chunkId = curChunkId then servers
  else (manager.inFlight curChunkId).foldl
    (fun servers server => if server ∈ servers then servers else servers ++ [server]) servers

/-- The loop over the positions of the block, for `rounds` positions. -/
def scanBlock (chunkId : ℤ) : ℕ → ℤ → ℕ → Bool → List ChunkInfo → Scan → Scan
  | 0, _, _, _, _, scan => scan
  | _ + 1, _, _, _, [], scan => { scan with notStable := -1 }
  | rounds + 1, pos, stripeIdx, holeFlag, chunk :: rest, scan =>
    if pos < chunk.offset then
      if layout.fattr.numStripes ≤ stripeIdx then { scan with notStable := -1 }
      else scanBlock chunkId rounds (pos + CHUNKSIZE) (stripeIdx + 1) true (chunk :: rest)
        { scan with good := scan.good + 1 }
    else if holeFlag ∧ stripeIdx < layout.fattr.numStripes then { scan with notStable := -1 }
    else if manager.InUse chunk.chunkId then { scan with notStable := scan.notStable + 1 }
    else scanBlock chunkId rounds (pos + CHUNKSIZE) (stripeIdx + 1) holeFlag rest
      { scan with
        good := if (manager.getServers chunk.chunkId).1 = [] then scan.good else scan.good + 1
        excluded := scan.excluded ++ [(manager.excludes chunkId chunk.chunkId, chunk.chunkId)] }

/-- `ChunkBlkSize` is a multiple of the chunk size. -/
def FileLayout.positions : ℕ := (layout.fattr.chunkBlkSize / CHUNKSIZE).toNat

/-! ## The check -/

def hasRecovery (fattr : Fattr) : Prop := fattr.IsStriped ∧ 0 < fattr.numRecoveryStripes

instance (fattr : Fattr) : Decidable (hasRecovery fattr) := inferInstanceAs (Decidable (_ ∧ _))

/-- The only server of the chunk is busy and to be evacuated. -/
def LayoutManager.evacuates (chunkId : ℤ) : Bool :=
  match (manager.getServers chunkId).1 with
  | [server] => manager.maxConcurrentReadReplicationsPerNode ≤ manager.replicationReadLoad server ∧
      manager.isEvacuationScheduled server chunkId
  | _ => false

/-- The last part: the number of replicas to make or to remove. -/
def countReplicas (chunkId : ℤ) (wantsRecovery : Bool) (outcome : Outcome) : Outcome :=
  let servers := (manager.getServers chunkId).1
  let hibernatedCount := (manager.getServers chunkId).2
  let numRetiringServers := servers.countP fun server =>
    manager.isEvacuationScheduled server chunkId
  let needed := layout.fattr.numReplicas + numRetiringServers - servers.length
  let extraReplicas :=
    if needed ≤ 0 then needed - numRetiringServers
    else if wantsRecovery ∧ hibernatedCount ≤ needed then needed - hibernatedCount
    else needed
  if wantsRecovery ∧ extraReplicas < 0 ∧ manager.readLeaseReplicationCheck chunkId then
    { outcome with extraReplicas, states := [(chunkId, .pendingReplication)] }
  else { outcome with extraReplicas, canReplicate := true }

/-- `CanReplicateChunkNow`; `wantsRecovery` says that there is a `recoveryInfo` to
fill.  Without a result the metaserver stops. -/
def canReplicateChunkNow (chunk : ChunkInfo) (wantsRecovery forceRecoveryFlag : Bool) :
    Option Outcome :=
  let chunkId := chunk.chunkId
  let fattr := layout.fattr
  let servers := (manager.getServers chunkId).1
  let delayed : List (ℤ × ReplicationState) :=
    if wantsRecovery then [(chunkId, .pendingReplication)] else []
  if manager.InUse chunkId then some { states := delayed }
  else
    let outcome : Outcome := { hibernatedReplicaCount := (manager.getServers chunkId).2 }
    if forceRecoveryFlag ∨
        servers = [] ∧ (¬ wantsRecovery ∨ outcome.hibernatedReplicaCount = 0) ∨
        manager.useEvacuationRecoveryFlag ∧ wantsRecovery ∧ manager.evacuates chunkId ∧
          fattr.numReplicas = 1 ∧ hasRecovery fattr then
      if ¬ wantsRecovery ∨ ¬ hasRecovery fattr then some { outcome with states := delayed }
      else do
        let (found, chunkBlock, start) ← layout.getalloc chunk.offset
        if found ≠ chunk then none
        else
          let scan := scanBlock manager layout chunkId layout.positions start 0 false chunkBlock {}
          let outcome := { outcome with excluded := scan.excluded }
          if 0 < scan.notStable ∨ scan.notStable = 0 ∧ scan.good < fattr.numStripes then
            if servers ≠ [] then some { outcome with states := [(chunkId, .noDestination)] }
            else some { outcome with
              states := (chunkBlock.filter fun other =>
                (manager.getServers other.chunkId).1 = [] ∨ manager.InUse other.chunkId).map
                  fun other => (other.chunkId, .pendingRecovery) }
          else if scan.notStable ≠ 0 ∨
              fattr.filesize ≤ fattr.chunkPosToChunkBlkFileStartPos start ∧
                manager.timeNow * 1000000 < fattr.mtime + manager.pastEofRecoveryDelay then
            if servers ≠ [] then some { outcome with states := [(chunkId, .noDestination)] }
            else some { outcome with states := [(chunkId, .delayedRecovery)] }
          else some (countReplicas manager layout chunkId wantsRecovery { outcome with
            recoveryInfo :=
              { offset := chunk.offset
                version := chunk.chunkVersion
                striperType := fattr.striperType
                numStripes := fattr.numStripes
                numRecoveryStripes := fattr.numRecoveryStripes
                stripeSize := fattr.stripeSize
                fileSize := fattr.filesize } })
    else some (countReplicas manager layout chunkId wantsRecovery outcome)

end Check

/-! ## Recoverable blocks -/

/-- The position is a hole, or its chunk has a live server. -/
def Available (manager : LayoutManager) (layout : FileLayout) (start : ℤ) (index : ℕ) : Prop :=
  ∀ chunk ∈ layout.chunks, chunk.offset = start + index * CHUNKSIZE →
    (manager.getServers chunk.chunkId).1 ≠ []

instance (manager : LayoutManager) (layout : FileLayout) (start : ℤ) (index : ℕ) :
    Decidable (Available manager layout start index) :=
  inferInstanceAs (Decidable (∀ chunk ∈ layout.chunks, _))

/-- The position holds a chunk, or it is a position of a data stripe behind the
last data of the block. -/
def Filled (layout : FileLayout) (start : ℤ) (index : ℕ) : Prop :=
  (∃ chunk ∈ layout.chunks, chunk.offset = start + index * CHUNKSIZE) ∨
    index < layout.fattr.numStripes ∧ ∀ chunk ∈ layout.chunks,
      start + index * CHUNKSIZE ≤ chunk.offset →
        start + layout.fattr.numStripes * CHUNKSIZE ≤ chunk.offset

/-- No chunk of the block is in use, every position is filled, and there are as
many stripes as data stripes. -/
structure Recoverable (manager : LayoutManager) (layout : FileLayout) (start : ℤ) : Prop where
  stable : ∀ chunk ∈ layout.chunks, start ≤ chunk.offset →
    chunk.offset < start + layout.fattr.chunkBlkSize →
      manager.writeLease chunk.chunkId = none ∧ chunk.chunkId ∉ manager.nonStableChunks
  filled : ∀ index < layout.positions, Filled layout start index
  available : layout.fattr.numStripes ≤
    (List.range layout.positions).countP fun index => Available manager layout start index

/-! ## What the walk has seen -/

variable {manager : LayoutManager} {layout : FileLayout} {chunkId start : ℤ} {index rounds : ℕ}
  {holeFlag : Bool} {chunk : ChunkInfo} {rest : List ChunkInfo} {scan : Scan}

/-- The chunks at the next `rounds` positions. -/
structure Remaining (layout : FileLayout) (start : ℤ) (index rounds : ℕ)
    (rest : List ChunkInfo) : Prop where
  sorted : rest.Pairwise (·.offset < ·.offset)
  mem_iff : ∀ chunk, chunk ∈ rest ↔ chunk ∈ layout.chunks ∧
    start + index * CHUNKSIZE ≤ chunk.offset ∧
      chunk.offset < start + (index + rounds : ℕ) * CHUNKSIZE

section

variable (hstart : CHUNKSIZE ∣ start)

include hstart

/-- Chunks start at multiples of the chunk size. -/
theorem next_le_offset (hchunk : chunk ∈ layout.chunks)
    (hlt : start + index * CHUNKSIZE < chunk.offset) :
    start + (index + 1 : ℕ) * CHUNKSIZE ≤ chunk.offset := by
  have haligned := layout.aligned chunk hchunk
  simp only [CHUNKSIZE] at *
  omega

variable (hremaining : Remaining layout start index (rounds + 1) (chunk :: rest))

include hremaining

theorem Remaining.skip (hlt : start + index * CHUNKSIZE < chunk.offset) :
    Remaining layout start (index + 1) rounds (chunk :: rest) where
  sorted := hremaining.sorted
  mem_iff other := by
    have hsum : index + 1 + rounds = index + (rounds + 1) := by omega
    rw [hremaining.mem_iff, hsum]
    refine and_congr_right fun hother => and_congr_left fun hhigh => ⟨fun hlow => ?_,
      fun hlow => ?_⟩
    · refine next_le_offset hstart hother (hlt.trans_le ?_)
      rcases mem_cons.mp ((hremaining.mem_iff other).mpr ⟨hother, hlow, hhigh⟩) with rfl | hrest
      · exact le_rfl
      · exact (rel_of_pairwise_cons hremaining.sorted hrest).le
    · simp only [CHUNKSIZE] at *
      omega

theorem Remaining.next (hle : ¬ start + index * CHUNKSIZE < chunk.offset) :
    chunk ∈ layout.chunks ∧ chunk.offset = start + index * CHUNKSIZE ∧
      Remaining layout start (index + 1) rounds rest := by
  obtain ⟨hchunk, hlow, -⟩ := (hremaining.mem_iff chunk).mp mem_cons_self
  have hoffset : chunk.offset = start + index * CHUNKSIZE := by omega
  refine ⟨hchunk, hoffset, Pairwise.of_cons hremaining.sorted, fun other => ?_⟩
  have hsum : index + 1 + rounds = index + (rounds + 1) := by omega
  have hcons := hremaining.mem_iff other
  rw [hsum]
  constructor
  · intro hrest
    have hbehind := rel_of_pairwise_cons hremaining.sorted hrest
    obtain ⟨hother, -, hhigh⟩ := hcons.mp (mem_cons_of_mem _ hrest)
    exact ⟨hother, next_le_offset hstart hother (hoffset ▸ hbehind), hhigh⟩
  · rintro ⟨hother, hlow', hhigh⟩
    have hbehind : chunk.offset < other.offset := by
      simp only [CHUNKSIZE] at *
      omega
    refine (mem_cons.mp (hcons.mpr ⟨hother, by omega, hhigh⟩)).resolve_left ?_
    rintro rfl
    exact lt_irrefl _ hbehind

end

theorem available_of_servers (hchunk : chunk ∈ layout.chunks)
    (hoffset : chunk.offset = start + index * CHUNKSIZE)
    (hservers : (manager.getServers chunk.chunkId).1 ≠ []) :
    Available manager layout start index := by
  intro other hother heq
  have hnodup : (layout.chunks.map (·.offset)).Nodup :=
    pairwise_map.mpr (layout.sorted.imp ne_of_lt)
  rwa [inj_on_of_nodup_map hnodup hother hchunk (heq.trans hoffset.symm)]

/-- What the walk has found out about the positions when it does not break off. -/
structure Scanned (manager : LayoutManager) (layout : FileLayout) (start : ℤ) (index rounds : ℕ)
    (holeFlag : Bool) (rest : List ChunkInfo) (before good : ℕ) : Prop where
  stable : ∀ chunk ∈ rest, ¬ manager.InUse chunk.chunkId
  filled : ∀ position, index ≤ position → position < index + rounds →
    Filled layout start position
  /-- Behind a hole there is no data. -/
  holes : holeFlag = true → ∀ chunk ∈ rest,
    start + layout.fattr.numStripes * CHUNKSIZE ≤ chunk.offset
  good_le : good ≤ before + (List.range' index rounds).countP fun index =>
    Available manager layout start index

theorem scanned_scanBlock (hstart : CHUNKSIZE ∣ start)
    (hremaining : Remaining layout start index rounds rest)
    (htotal : layout.fattr.numStripes ≤ (index + rounds : ℕ))
    (hresult : (scanBlock manager layout chunkId rounds (start + index * CHUNKSIZE) index holeFlag
      rest scan).notStable = 0) (hscan : scan.notStable = 0) :
    Scanned manager layout start index rounds holeFlag rest scan.good
      (scanBlock manager layout chunkId rounds (start + index * CHUNKSIZE) index holeFlag rest
        scan).good := by
  induction rounds generalizing index holeFlag rest scan with
  | zero =>
    have hnone : ∀ chunk, chunk ∉ rest := by
      intro chunk hchunk
      have hrange := ((hremaining.mem_iff chunk).mp hchunk).2
      rw [add_zero] at hrange
      omega
    exact ⟨fun chunk hchunk => absurd hchunk (hnone chunk), fun _ _ _ => by omega,
      fun _ chunk hchunk => absurd hchunk (hnone chunk), Nat.le_add_right _ _⟩
  | succ rounds ih =>
    have hpos : start + index * CHUNKSIZE + CHUNKSIZE = start + (index + 1 : ℕ) * CHUNKSIZE := by
      push_cast
      ring
    have htotal' : layout.fattr.numStripes ≤ (index + 1 + rounds : ℕ) := by
      rwa [add_assoc, add_comm 1]
    cases rest with
    | nil => simp [scanBlock] at hresult
    | cons chunk rest =>
      rw [scanBlock] at hresult ⊢
      by_cases hhole : start + index * CHUNKSIZE < chunk.offset
      · rw [if_pos hhole] at hresult ⊢
        by_cases hrecovery : layout.fattr.numStripes ≤ index
        · simp [hrecovery] at hresult
        rw [if_neg hrecovery, hpos] at hresult ⊢
        have hscanned := ih (hremaining.skip hstart hhole) htotal' hresult hscan
        -- the chunks at and behind the hole are those of the recovery stripes
        have hbehind : ∀ other ∈ layout.chunks, start + index * CHUNKSIZE ≤ other.offset →
            start + (index + 1 : ℕ) * CHUNKSIZE ≤ other.offset ∧
              start + layout.fattr.numStripes * CHUNKSIZE ≤ other.offset := by
          intro other hother hlow
          rcases lt_or_ge other.offset (start + (index + (rounds + 1) : ℕ) * CHUNKSIZE) with
            hhigh | hhigh
          · have hmem := (hremaining.mem_iff other).mpr ⟨hother, hlow, hhigh⟩
            exact ⟨(((hremaining.skip hstart hhole).mem_iff other).mp hmem).2.1,
              hscanned.holes rfl other hmem⟩
          · simp only [CHUNKSIZE] at *
            omega
        have hindex : Available manager layout start index := fun other hother heq => by
          have := (hbehind other hother heq.ge).1
          simp only [CHUNKSIZE] at *
          omega
        refine ⟨hscanned.stable, fun position hlow hhigh => ?_, fun _ => hscanned.holes rfl, ?_⟩
        · rcases hlow.eq_or_lt with rfl | hlt
          · exact .inr ⟨by omega, fun other hother hle => (hbehind other hother hle).2⟩
          · exact hscanned.filled position hlt (by omega)
        · refine hscanned.good_le.trans ?_
          rw [range'_succ, countP_cons_of_pos (by simpa using hindex)]
          dsimp only
          omega
      · rw [if_neg hhole] at hresult ⊢
        by_cases hdata : holeFlag = true ∧ (index : ℤ) < layout.fattr.numStripes
        · simp [hdata] at hresult
        rw [if_neg hdata] at hresult ⊢
        by_cases huse : manager.InUse chunk.chunkId
        · simp [huse, hscan] at hresult
        rw [if_neg huse, hpos] at hresult ⊢
        obtain ⟨hchunk, hoffset, hnext⟩ := hremaining.next hstart hhole
        have hscanned := ih hnext htotal' hresult hscan
        refine ⟨forall_mem_cons.mpr ⟨huse, hscanned.stable⟩,
          fun position hlow hhigh => ?_, fun hflag => forall_mem_cons.mpr
            ⟨?_, hscanned.holes hflag⟩, hscanned.good_le.trans ?_⟩
        · rcases hlow.eq_or_lt with rfl | hlt
          · exact .inl ⟨chunk, hchunk, hoffset⟩
          · exact hscanned.filled position hlt (by omega)
        · have hge : layout.fattr.numStripes ≤ index := by
            by_contra hlt
            exact hdata ⟨hflag, by omega⟩
          rw [hoffset]
          simp only [CHUNKSIZE]
          omega
        · rw [range'_succ, countP_cons]
          by_cases hservers : (manager.getServers chunk.chunkId).1 = []
          · simp only [if_pos hservers]
            omega
          · have hindex := available_of_servers hchunk hoffset hservers
            simp only [if_neg hservers, hindex, decide_true, if_true]
            omega

/-! ## Recovery information -/

theorem remaining_getalloc {offset : ℤ} {found : ChunkInfo} {chunkBlock : List ChunkInfo}
    (halloc : layout.getalloc offset = some (found, chunkBlock, start)) :
    start = layout.fattr.chunkPosToChunkBlkStartPos (chunkStartOffset offset) ∧
      CHUNKSIZE ∣ start ∧ Remaining layout start 0 layout.positions chunkBlock := by
  rw [FileLayout.getalloc] at halloc
  split_ifs at halloc
  obtain ⟨chunk, -, heq⟩ := Option.map_eq_some_iff.mp halloc
  cases heq
  have hstart : CHUNKSIZE ∣ layout.fattr.chunkPosToChunkBlkStartPos (chunkStartOffset offset) :=
    (Int.dvd_mul_right _ _).mul_left _
  refine ⟨rfl, hstart, layout.sorted.filter _, fun chunk => ?_⟩
  rw [mem_filter, decide_eq_true_eq, FileLayout.positions, Fattr.chunkBlkSize,
    Int.mul_ediv_cancel_left _ (by decide)]
  refine and_congr_right fun hchunk => ?_
  have haligned := layout.aligned chunk hchunk
  simp only [CHUNKSIZE] at *
  omega

theorem FileLayout.numStripes_le_positions (hrecovery : 0 < layout.fattr.numRecoveryStripes) :
    layout.fattr.chunkBlkSize = layout.positions * CHUNKSIZE ∧
      layout.fattr.numStripes ≤ layout.positions := by
  rw [positions, Fattr.chunkBlkSize]
  simp only [CHUNKSIZE]
  split_ifs <;> omega

theorem recoveryInfo_countReplicas (wantsRecovery : Bool) (outcome : Outcome) :
    (countReplicas manager layout chunkId wantsRecovery outcome).recoveryInfo =
      outcome.recoveryInfo := by
  simp only [countReplicas]
  split_ifs <;> rfl

/-- Recovery information is given only for blocks that can be recovered. -/
theorem canReplicateChunkNow_recoverable {wantsRecovery forceRecoveryFlag : Bool}
    {outcome : Outcome}
    (hcan : canReplicateChunkNow manager layout chunk wantsRecovery forceRecoveryFlag =
      some outcome) (hinfo : outcome.recoveryInfo ≠ {}) :
    Recoverable manager layout
      (layout.fattr.chunkPosToChunkBlkStartPos (chunkStartOffset chunk.offset)) := by
  obtain ⟨-, hcan⟩ | ⟨-, hcan⟩ := ite_eq_iff.mp hcan
  · cases hcan
    exact absurd rfl hinfo
  obtain ⟨-, hcan⟩ | ⟨-, hcan⟩ := ite_eq_iff.mp hcan
  swap
  · cases hcan
    rw [recoveryInfo_countReplicas] at hinfo
    exact absurd rfl hinfo
  obtain ⟨-, hcan⟩ | ⟨hrecovery, hcan⟩ := ite_eq_iff.mp hcan
  · cases hcan
    exact absurd rfl hinfo
  obtain ⟨⟨found, chunkBlock, start⟩, halloc, hcan⟩ := Option.bind_eq_some_iff.mp hcan
  obtain ⟨hstart, hdvd, hremaining⟩ := remaining_getalloc halloc
  dsimp only at hcan
  split_ifs at hcan with hfound hfew hservers hwait hservers
  iterate 4
    · cases hcan
      exact absurd rfl hinfo
  rw [← hstart]
  obtain ⟨-, hrecovery⟩ := not_not.mp (not_or.mp hrecovery).2
  obtain ⟨hsize, htotal⟩ := FileLayout.numStripes_le_positions hrecovery
  rw [← zero_add layout.positions] at htotal
  have hscanned := @scanned_scanBlock manager layout chunk.chunkId start 0 layout.positions false
    chunkBlock {} hdvd hremaining htotal
  rw [Nat.cast_zero, zero_mul, add_zero] at hscanned
  obtain ⟨hstable, hfilled, -, hgood⟩ := hscanned (by omega) rfl
  refine ⟨fun other hother hlow hhigh => ?_, fun index hindex => hfilled index (Nat.zero_le _)
    (by omega), ?_⟩
  · rw [hsize] at hhigh
    have hmem := (hremaining.mem_iff other).mpr ⟨hother, by simpa using hlow, by simpa using hhigh⟩
    simpa [LayoutManager.InUse] using hstable other hmem
  · rw [range_eq_range']
    dsimp only at hgood
    omega

/-- A manager for which only the second chunk has a server. -/
def sampleManager : LayoutManager where
  writeLease _ := none
  nonStableChunks := []
  getServers chunkId := if chunkId = 12 then ([5], 0) else ([], 0)
  inFlight _ := []
  replicationReadLoad _ := 0
  isEvacuationScheduled _ _ := false
  readLeaseReplicationCheck _ := false
  useEvacuationRecoveryFlag := false
  maxConcurrentReadReplicationsPerNode := 10
  pastEofRecoveryDelay := 0
  timeNow := 0

/-- A file with one data and one recovery stripe. -/
def sampleLayout : FileLayout where
  fattr :=
    { Fattr.create .file 3 1 0 0 0 0 with
      striperType := 2, numStripes := 1, numRecoveryStripes := 1, stripeSize := 65536,
      filesize := 7 }
  chunks := [⟨3, 0, 11, 1⟩, ⟨3, CHUNKSIZE, 12, 1⟩]
  sorted := by decide
  aligned := by decide

theorem canReplicateChunkNow_sample :
    (∃ outcome, canReplicateChunkNow sampleManager sampleLayout ⟨3, 0, 11, 1⟩ true false =
      some outcome ∧ outcome.recoveryInfo ≠ {}) ∧ Recoverable sampleManager sampleLayout 0 :=
  ⟨⟨_, rfl, by decide⟩, canReplicateChunkNow_recoverable (show canReplicateChunkNow sampleManager
    sampleLayout ⟨3, 0, 11, 1⟩ true false = some _ from rfl) (by decide)⟩

end QfsRepair.Recovery
