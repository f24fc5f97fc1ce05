import QfsRepair.ChunkMap.ServerMapCalls

/-!
# Runs of the map from chunks to servers

The map is compared with the placement of chunks on servers after every run of
calls.  The only calls that are left out are those that add a server to an entry
whose array of slots may then grow beyond what its first word can count.
-/

namespace QfsRepair.ChunkMap

open Function List Option
open Entry (addFirst alignedMemory)
open Placement (addMember)
open Store (insertBefore)

/-- A call with what the allocator returns during it. -/
structure MapStep where
  memory : Memory
  call : MapCall

namespace CSMap

/-- The map beside the placement after some calls. -/
def run : List MapStep → CSMap × Placement → Option (CSMap × Placement)
  | [], state => some state
  | step :: steps, (map, placement) => do
      let (answer, map) ← map.call step.memory step.call
      run steps (map, placement.call answer step.call)

/-- A server is added only to an entry with at most 32750 slots. -/
def Admits (map : CSMap) : MapCall → Prop
  | .add _ chunkId => ∀ entry, map.entries chunkId = some entry →
      ∀ count, entry.serverCount = some count → count ≤ 32750
  | .setServers servers _ => servers.length ≤ 32751
  | _ => True

instance (map : CSMap) (call : MapCall) : Decidable (map.Admits call) :=
  match call with
  | .add _ chunkId => decidable_of_iff (∀ entry ∈ map.entries chunkId,
      ∀ count ∈ entry.serverCount, count ≤ 32750) Iff.rfl
  | .setServers servers _ => inferInstanceAs (Decidable (servers.length ≤ 32751))
  | .addServer _ | .removeServer _ | .setHibernated _ | .removeHibernatedServer _ | .remove _ _
  | .getServers _ | .setState _ _ | .insert _ | .erase _ | .removeServerCleanup _ => isTrue trivial

/-- The map shows the placement: `GetServers` returns the servers of a chunk, no
entry refers to the slot that the next server gets, and the servers that are not
asleep are told how many chunks they host. -/
structure Shows (map : CSMap) (placement : Placement) : Prop where
  present : ∀ chunkId, (map.entries chunkId).isSome ↔ chunkId ∈ placement.chunks
  getServers : ∀ memory chunkId entry, map.entries chunkId = some entry →
    ∃ count next, map.getServers memory chunkId entry =
      some (placement.members chunkId, count, next)
  reuse : ∀ server next, map.addServer server = some (true, next) →
    ∀ chunkId entry, map.entries chunkId = some entry →
      ∃ indexes, entry.indexes = some indexes ∧ (next.index server).toNat ∉ indexes
  awake : ∀ server ∉ placement.asleep, map.chunkCount server = placement.hostedCount server

/-- All servers are told how many chunks they host. -/
structure Correct (map : CSMap) (placement : Placement) : Prop extends Shows map placement where
  hosted : ∀ server, map.chunkCount server = placement.hostedCount server

structure Reflects (map : CSMap) (sets : ℤ → Option ServerSet) (placement : Placement) :
    Prop where
  sound : map.Sound sets placement.asleep
  live : ∀ server, server ∈ placement.live ↔ 0 ≤ map.index server
  nodup : placement.chunks.Nodup
  chunks : ∀ chunkId, chunkId ∈ placement.chunks ↔ (sets chunkId).isSome
  members : ∀ chunkId, placement.members chunkId = map.serversOf (refs sets chunkId)

namespace Reflects

variable {map next : CSMap} {sets : ℤ → Option ServerSet} {placement : Placement} {chunkId : ℤ}
  {entry : Entry} {set : ServerSet} {server : ℕ}

theorem withMembers_id (placement : Placement) (chunkId : ℤ) :
    placement.withMembers chunkId (fun members => members) = placement := by
  rw [Placement.withMembers, update_eq_self]
  split_ifs <;> rfl

theorem empty : Reflects CSMap.empty (fun _ => none) Placement.empty where
  sound := empty_sound
  live := fun server => by simp [Placement.empty, CSMap.empty]
  nodup := nodup_nil
  chunks := fun chunkId => by simp [Placement.empty]
  members := fun _ => rfl

variable (reflects : Reflects map sets placement)

include reflects

theorem mem_members {idx : ℕ} (hslot : map.servers[idx]? = some (some server)) (chunkId : ℤ) :
    server ∈ placement.members chunkId ↔ idx ∈ refs sets chunkId := by
  rw [reflects.members]
  exact reflects.sound.slots.mem_serversOf hslot

theorem not_mem_members (hindex : map.index server < 0) (chunkId : ℤ) :
    server ∉ placement.members chunkId := by
  rw [reflects.members]
  intro hserver
  obtain ⟨idx, -, hslot⟩ := mem_filterMap.mp hserver
  have hat := (reflects.sound.slots.index server idx).mp (SlotTable.serverAt_eq_some.mp hslot)
  omega

theorem hostedCount_of_live {idx : ℕ} (hslot : map.servers[idx]? = some (some server)) :
    map.chunkCount server = placement.hostedCount server := by
  have hperm : placement.chunks.Perm (chunksOf map.order) := by
    refine (perm_ext_iff_of_nodup reflects.nodup
      (chunksOf_nodup reflects.sound.listing.nodup)).mpr fun chunkId => ?_
    rw [mem_chunksOf, reflects.sound.listing.mem_entry, reflects.chunks]
  rw [Placement.hostedCount, reflects.sound.hosted server idx hslot, hperm.countP_eq]
  refine countP_congr fun chunkId _ => ?_
  simp only [decide_eq_true_eq]
  exact (reflects.mem_members hslot chunkId).symm

theorem hostedCount_of_absent (hindex : map.index server < 0) :
    placement.hostedCount server = 0 := by
  rw [Placement.hostedCount, countP_eq_zero]
  intro chunkId _
  simpa using reflects.not_mem_members hindex chunkId

/-- A server is told how many chunks it hosts unless it is asleep. -/
theorem chunkCount_eq_iff (server : ℕ) :
    map.chunkCount server = placement.hostedCount server ↔ server ∉ placement.asleep := by
  rw [reflects.sound.idle]
  by_cases hlive : 0 ≤ map.index server
  · have hslot := (reflects.sound.slots.index server (map.index server).toNat).mpr (by omega)
    rw [reflects.hostedCount_of_live hslot]
    simp [hlive]
  · rw [reflects.hostedCount_of_absent (by omega)]
    simp [not_le.mp hlive]

theorem shows : Shows map placement where
  present := by
    intro chunkId
    rw [reflects.chunks]
    cases hentry : map.entries chunkId with
    | none => simp [reflects.sound.filed.eq_none hentry]
    | some entry =>
      obtain ⟨set, hset, -⟩ := reflects.sound.filed.exists_set hentry
      simp [hset]
  getServers := by
    intro memory chunkId entry hentry
    obtain ⟨set, hset, -⟩ := reflects.sound.filed.exists_set hentry
    obtain ⟨count, next, -, hget, -⟩ := reflects.sound.getServers hset hentry memory
    rw [reflects.members, refs_of_eq_some hset]
    exact ⟨count, next, hget⟩
  reuse := by
    intro server next hadd chunkId entry hentry
    obtain ⟨set, hset, represents, proper⟩ := reflects.sound.filed.exists_set hentry
    refine ⟨set.indices, represents.indexes_eq proper, ?_⟩
    rcases reflects.sound.addServer server with hrefused |
      ⟨added, idx, hadded, -, hindex, -, hfresh, -⟩
    · rw [hrefused] at hadd
      cases hadd
    · rw [hadded] at hadd
      cases hadd
      rw [hindex, update_self, ← refs_of_eq_some hset]
      exact hfresh chunkId
  awake := fun server => (reflects.chunkCount_eq_iff server).mpr

theorem correct_iff : Correct map placement ↔ placement.asleep = [] := by
  constructor
  · intro correct
    exact eq_nil_iff_forall_not_mem.mpr fun server =>
      (reflects.chunkCount_eq_iff server).mp (correct.hosted server)
  · intro hawake
    refine ⟨reflects.shows, fun server => (reflects.chunkCount_eq_iff server).mpr ?_⟩
    rw [hawake]
    exact not_mem_nil

/-! ## Steps -/

/-- Another set for one chunk. -/
theorem withSet {changed : ServerSet} (change : List ℕ → List ℕ) (hset : sets chunkId = some set)
    (hresets : map.Resets next sets placement.asleep chunkId changed
      (change (map.serversOf set.indices))) :
    Reflects next (update sets chunkId (some changed))
      (placement.withMembers chunkId change) := by
  obtain ⟨hsound, htable, hservers⟩ := hresets
  have hin : chunkId ∈ placement.chunks := by
    rw [reflects.chunks, hset]
    rfl
  rw [Placement.withMembers, if_pos hin]
  refine ⟨hsound, ?_, reflects.nodup, ?_, ?_⟩
  · intro server
    rw [htable]
    exact reflects.live server
  · intro other
    rw [reflects.chunks]
    by_cases heq : other = chunkId
    · subst heq
      simp [hset]
    · rw [update_of_ne heq]
  · intro other
    rw [htable]
    dsimp only
    by_cases heq : other = chunkId
    · subst heq
      rw [update_self, refs_update_some, hservers, reflects.members, refs_of_eq_some hset]
    · rw [update_of_ne heq, refs_update_of_ne heq]
      exact reflects.members other

theorem withMembers_of_absent (hentry : map.entries chunkId = none) (change : List ℕ → List ℕ) :
    placement.withMembers chunkId change = placement := by
  refine if_neg ?_
  rw [reflects.chunks, reflects.sound.filed.eq_none hentry]
  decide

theorem addMember_validate :
    addMember (fun other => map.validate other = true) =
      addMember fun other => other ∈ placement.live := by
  funext members server
  simp only [addMember, reflects.live, reflects.sound.validate_iff]

/-- A server leaves its slot. -/
theorem depart {idx : ℕ} {asleep : List ℕ}
    (hsound : next.Sound sets asleep) (hslot : map.servers[idx]? = some (some server))
    (hservers : next.servers = map.servers.set idx none)
    (hindex : next.index = update map.index server (-1)) :
    Reflects next sets { placement.depart server with asleep := asleep } := by
  refine ⟨hsound, ?_, reflects.nodup, reflects.chunks, ?_⟩
  · intro other
    rw [Placement.depart, hindex, mem_filter, reflects.live]
    by_cases heq : other = server <;> simp [heq]
  · intro chunkId
    change (placement.members chunkId).filter _ = _
    rw [reflects.members]
    exact (reflects.sound.slots.serversOf_set_none hslot hservers).symm

theorem depart_of_not_live (hinvalid : map.validate server = false) :
    placement.depart server = placement := by
  have hindex : ¬ 0 ≤ map.index server := by
    rw [← reflects.sound.validate_iff, hinvalid]
    decide
  have hkept : ∀ list : List ℕ, server ∉ list → list.filter (fun other => other ≠ server) = list :=
    fun list hnot => filter_eq_self.mpr fun other hother =>
      decide_eq_true (ne_of_mem_of_not_mem hother hnot)
  have hmembers : (fun chunkId => (placement.members chunkId).filter fun other => other ≠ server) =
      placement.members :=
    funext fun chunkId => hkept _ (reflects.not_mem_members (by omega) chunkId)
  rw [Placement.depart, hmembers, hkept _ (by rwa [reflects.live])]

theorem addServer (server : ℕ) :
    ∃ answer next, map.addServer server = some (answer, next) ∧
      Reflects next sets (placement.call answer (.addServer server)) := by
  rcases reflects.sound.addServer server with hrefused |
    ⟨next, idx, hadded, hsound, hindex, -, -, hservers⟩
  · exact ⟨false, map, hrefused, reflects⟩
  · refine ⟨true, next, hadded, hsound, ?_, reflects.nodup, reflects.chunks, ?_⟩
    · intro other
      rw [Placement.call, if_pos rfl, mem_cons, hindex, reflects.live]
      by_cases heq : other = server <;> simp [heq]
    · intro chunkId
      rw [hservers]
      exact reflects.members chunkId

theorem removeServer (server : ℕ) :
    Reflects (map.removeServer server).2 sets (placement.depart server) := by
  rcases reflects.sound.removeServer server with ⟨hinvalid, hrefused⟩ |
    ⟨next, idx, hremoved, hsound, hslot, hservers, hindex⟩
  · rw [hrefused, reflects.depart_of_not_live hinvalid]
    exact reflects
  · rw [hremoved]
    exact reflects.depart hsound hslot hservers hindex

theorem setHibernated (server : ℕ) (answer : Bool) :
    Reflects (map.setHibernated server).2 sets
      (placement.call answer (.setHibernated server)) := by
  rw [Placement.call]
  rcases reflects.sound.setHibernated server with ⟨hinvalid, hrefused⟩ |
    ⟨next, idx, hremoved, hsound, hslot, hservers, hindex⟩
  · rw [hrefused, if_neg]
    · exact reflects
    · rw [reflects.live, ← reflects.sound.validate_iff, hinvalid]
      decide
  · have hat := (reflects.sound.slots.index server idx).mp hslot
    rw [reflects.hostedCount_of_live hslot] at hsound
    rw [hremoved, if_pos ((reflects.live server).mpr (by omega))]
    exact reflects.depart hsound hslot hservers hindex

/-- The slots of the chunks change but not their servers. -/
theorem withSlots {changed : ℤ → Option ServerSet} (hsound : next.Sound changed placement.asleep)
    (hservers : next.servers = map.servers) (hindex : next.index = map.index)
    (hchunks : ∀ chunkId, (changed chunkId).isSome = (sets chunkId).isSome ∧
      map.serversOf (refs changed chunkId) = map.serversOf (refs sets chunkId)) :
    Reflects next changed placement := by
  refine ⟨hsound, ?_, reflects.nodup, ?_, ?_⟩
  · rw [hindex]
    exact reflects.live
  · intro chunkId
    rw [(hchunks chunkId).1]
    exact reflects.chunks chunkId
  · intro chunkId
    rw [SlotTable.serversOf_eq_of_servers hservers, (hchunks chunkId).2]
    exact reflects.members chunkId

theorem insert (chunkId : ℤ) (answer : Bool) :
    ∃ changed, Reflects (map.insert chunkId).2 changed
      (placement.call answer (.insert chunkId)) := by
  rw [Placement.call]
  cases hentry : map.entries chunkId with
  | some entry =>
    obtain ⟨set, hset, -⟩ := reflects.sound.filed.exists_set hentry
    rw [CSMap.insert, hentry, if_pos]
    · exact ⟨sets, reflects⟩
    · rw [reflects.chunks, hset]
      rfl
  | none =>
    obtain ⟨next, hinsert, hsound, htable⟩ := reflects.sound.insert hentry
    have hset := reflects.sound.filed.eq_none hentry
    have hfresh : chunkId ∉ placement.chunks := by
      rw [reflects.chunks, hset]
      decide
    rw [hinsert, if_neg hfresh]
    refine ⟨_, hsound, ?_, nodup_cons.mpr ⟨hfresh, reflects.nodup⟩, ?_, ?_⟩
    · rw [htable]
      exact reflects.live
    · intro other
      rw [mem_cons, reflects.chunks]
      by_cases heq : other = chunkId <;> simp [heq]
    · intro other
      rw [htable]
      rw [reflects.members]
      by_cases heq : other = chunkId
      · rw [heq, refs_update_some, refs_of_eq_none hset]
        rfl
      · rw [refs_update_of_ne heq]

theorem erase (chunkId : ℤ) :
    ∃ answer next changed, map.erase chunkId = some (answer, next) ∧
      Reflects next changed (placement.call answer (.erase chunkId)) := by
  have hview : ∀ {next : CSMap}, next.Sound (update sets chunkId none) placement.asleep →
      next.toSlotTable = map.toSlotTable → ∀ answer,
      Reflects next (update sets chunkId none)
        (placement.call answer (.erase chunkId)) := by
    intro next hsound htable answer
    rw [Placement.call]
    refine ⟨hsound, ?_, reflects.nodup.filter _, ?_, ?_⟩
    · rw [htable]
      exact reflects.live
    · intro other
      rw [mem_filter, reflects.chunks]
      by_cases heq : other = chunkId <;> simp [heq]
    · intro other
      rw [htable]
      dsimp only
      by_cases heq : other = chunkId
      · rw [heq, update_self, refs_update_self]
        rfl
      · rw [update_of_ne heq, refs_update_of_ne heq, reflects.members]
  cases hentry : map.entries chunkId with
  | none =>
    have hsound := reflects.sound
    rw [← update_eq_self chunkId sets, reflects.sound.filed.eq_none hentry] at hsound
    exact ⟨false, map, _, by rw [CSMap.erase, hentry], hview hsound rfl false⟩
  | some entry =>
    obtain ⟨next, herase, hsound, htable⟩ := reflects.sound.erase hentry
    exact ⟨true, next, _, herase, hview hsound htable true⟩

/-- A call for one chunk, which has no effect when the chunk has no entry. -/
theorem entryCall (result : Option (Bool × CSMap)) (change : List ℕ → List ℕ)
    (habsent : map.entries chunkId = none → result = some (false, map))
    (hpresent : ∀ entry set, map.entries chunkId = some entry → sets chunkId = some set →
      ∃ answer next changed, result = some (answer, next) ∧
        map.Resets next sets placement.asleep chunkId changed
          (change (map.serversOf set.indices))) :
    ∃ answer next changed, result = some (answer, next) ∧
      Reflects next changed (placement.withMembers chunkId change) := by
  cases hentry : map.entries chunkId with
  | none =>
    refine ⟨false, map, sets, habsent hentry, ?_⟩
    rwa [reflects.withMembers_of_absent hentry]
  | some entry =>
    obtain ⟨set, hset, -⟩ := reflects.sound.filed.exists_set hentry
    obtain ⟨answer, next, changed, hcall, hresets⟩ := hpresent entry set hentry hset
    exact ⟨answer, next, _, hcall, reflects.withSet change hset hresets⟩

theorem call (memory : Memory) {call : MapCall} (hadmits : map.Admits call) :
    ∃ answer next changed, map.call memory call = some (answer, next) ∧
      Reflects next changed (placement.call answer call) := by
  have sound := reflects.sound
  cases call with
  | addServer server =>
    obtain ⟨answer, next, hadded, hnext⟩ := reflects.addServer server
    exact ⟨answer, next, sets, hadded, hnext⟩
  | removeServer server => exact ⟨_, _, sets, rfl, reflects.removeServer server⟩
  | setHibernated server => exact ⟨_, _, sets, rfl, reflects.setHibernated server _⟩
  | removeHibernatedServer idx =>
    obtain ⟨answer, next, hremoved, hsound, hservers, hindex⟩ :=
      sound.removeHibernatedServer idx
    exact ⟨answer, next, sets, congrArg some hremoved,
      reflects.withSlots hsound hservers hindex fun _ => ⟨rfl, rfl⟩⟩
  | add server chunkId =>
    refine reflects.entryCall _ (addMember _ · server) (fun hentry => by rw [CSMap.call, hentry])
      fun entry set hentry hset => ?_
    obtain ⟨represents, proper⟩ := sound.filed.represents_entry hset hentry
    have hfew := hadmits entry hentry _ (represents.agrees proper).serverCount
    obtain ⟨answer, next, changed, hadd, hresets, -⟩ := sound.add hset hentry memory server hfew
    rw [reflects.addMember_validate] at hresets
    exact ⟨answer, next, changed, by rw [CSMap.call, hentry]; exact hadd, hresets⟩
  | remove server chunkId =>
    refine reflects.entryCall _ _ (fun hentry => by rw [CSMap.call, hentry])
      fun entry set hentry hset => ?_
    obtain ⟨answer, next, changed, hremove, hresets⟩ := sound.remove hset hentry memory server
    exact ⟨answer, next, changed, by rw [CSMap.call, hentry]; exact hremove, hresets⟩
  | setServers servers chunkId =>
    refine reflects.entryCall _ (fun _ => servers.foldl (addMember _) [])
      (fun hentry => by rw [CSMap.call, hentry]) fun entry set hentry hset => ?_
    obtain ⟨next, changed, hreplaced, hresets⟩ := sound.setServers hset hentry memory hadmits
    rw [reflects.addMember_validate] at hresets
    exact ⟨true, next, changed, by simp only [CSMap.call, hentry, hreplaced, map_some], hresets⟩
  | getServers chunkId =>
    have hcall := reflects.entryCall (map.call memory (.getServers chunkId))
      (fun members => members) (fun hentry => by rw [CSMap.call, hentry])
      fun entry set hentry hset => by
        obtain ⟨count, next, changed, hget, hresets⟩ := sound.getServers hset hentry memory
        exact ⟨true, next, changed, by simp only [CSMap.call, hentry, hget, map_some], hresets⟩
    rwa [withMembers_id] at hcall
  | setState chunkId state =>
    have hcall := reflects.entryCall (map.call memory (.setState chunkId state))
      (fun members => members) (fun hentry => by rw [CSMap.call, hentry])
      fun entry set hentry hset => by
        obtain ⟨next, changed, hmoved, hresets⟩ := sound.setState hset hentry memory state
        exact ⟨true, next, changed, by simp only [CSMap.call, hentry, hmoved, map_some], hresets⟩
    rwa [withMembers_id] at hcall
  | insert chunkId =>
    obtain ⟨changed, hnext⟩ := reflects.insert chunkId (map.insert chunkId).1
    exact ⟨_, _, changed, rfl, hnext⟩
  | erase chunkId => exact reflects.erase chunkId
  | removeServerCleanup further =>
    obtain ⟨next, cleaned, hscan, hsound, hservers, hindex, hchunks⟩ :=
      sound.scanCur.cleanupScan memory (further + 1)
    rw [removeServerScanCur_servers] at hservers
    rw [removeServerScanCur_index] at hindex
    rw [SlotTable.serversOf_eq_of_servers (removeServerScanCur_servers map)] at hchunks
    refine ⟨next.removeServerScanPtr.isSome, next, cleaned, ?_,
      reflects.withSlots hsound hservers hindex hchunks⟩
    rw [CSMap.call, CSMap.removeServerCleanup, hscan]
    rfl

omit reflects in
theorem run {map : CSMap} {placement : Placement} (steps : List MapStep)
    (reflects : Reflects map sets placement)
    (hadmits : ∀ before step after, steps = before ++ step :: after → ∀ state,
      CSMap.run before (map, placement) = some state → state.1.Admits step.call) :
    ∃ state changed, CSMap.run steps (map, placement) = some state ∧
      Reflects state.1 changed state.2 := by
  induction steps generalizing map sets placement with
  | nil => exact ⟨(map, placement), sets, rfl, reflects⟩
  | cons step steps ih =>
    obtain ⟨answer, next, changed, hcall, hnext⟩ :=
      reflects.call step.memory (hadmits [] step steps rfl _ rfl)
    obtain ⟨state, final, hrun, hstate⟩ := ih hnext fun before other after hsteps state hbefore =>
      hadmits (step :: before) other after (by rw [hsteps, cons_append]) state (by
        rw [CSMap.run, hcall]
        exact hbefore)
    refine ⟨state, final, ?_, hstate⟩
    rw [CSMap.run, hcall]
    exact hrun

end Reflects

/-- Every run in which servers are added only to entries with at most 32750
slots is defined, and the map then shows the placement; the numbers of hosted
chunks are right for all servers exactly when none is asleep. -/
theorem run_correct (steps : List MapStep)
    (hadmits : ∀ before step after, steps = before ++ step :: after → ∀ state,
      run before (empty, .empty) = some state → state.1.Admits step.call) :
    ∃ state, run steps (empty, .empty) = some state ∧ state.1.Shows state.2 ∧
      (state.1.Correct state.2 ↔ state.2.asleep = []) := by
  obtain ⟨state, changed, hrun, hstate⟩ := Reflects.empty.run steps hadmits
  exact ⟨state, hrun, hstate.shows, hstate.correct_iff⟩

/-- A server is removed and, after the scan, its slot is given to another. -/
def slotReuse : List MapStep :=
  ([.addServer 7, .addServer 8, .insert 5, .add 7 5, .add 8 5, .removeServer 7,
    .removeServerCleanup 0, .addServer 9, .add 9 5] : List MapCall).map
      fun call => ⟨fun _ _ => alignedMemory, call⟩

theorem run_correct_slotReuse :
    ∃ state, run slotReuse (empty, .empty) = some state ∧ state.1.Correct state.2 ∧
      state.1.index 9 = 0 ∧ state.2.members 5 = [8, 9] := by
  have hadmitted : ∀ position < slotReuse.length,
      ∀ state ∈ run (slotReuse.take position) (empty, .empty),
      ∀ step ∈ slotReuse[position]?, state.1.Admits step.call := by decide +kernel
  obtain ⟨state, hrun, -, hcorrect⟩ := run_correct slotReuse fun before step _ hsteps state
      hbefore => by
    refine hadmitted before.length ?_ state ?_ step ?_
    · rw [hsteps]
      simp
    · rw [hsteps, take_left]
      exact hbefore
    · rw [hsteps]
      simp
  have hresult : (run slotReuse (empty, .empty)).map (fun state =>
      (state.1.index 9, state.2.members 5, state.2.asleep)) = some (0, [8, 9], []) := by
    decide +kernel
  rw [hrun] at hresult
  obtain ⟨hindex, hplacement⟩ := Prod.mk.inj (some.inj hresult)
  obtain ⟨hmembers, hasleep⟩ := Prod.mk.inj hplacement
  exact ⟨state, hrun, hcorrect.mpr hasleep, hindex, hmembers⟩

/-! ## An entry with too many slots -/

theorem run_append (steps rest : List MapStep) (state : CSMap × Placement) :
    run (steps ++ rest) state = (run steps state).bind (run rest) := by
  induction steps generalizing state with
  | nil => rfl
  | cons step steps ih =>
    rw [cons_append, run, run]
    cases state.1.call step.memory step.call with
    | none => rfl
    | some result => exact ih _

/-- The map of the first servers with one chunk that `count` of them host. -/
def hosting (servers count : ℕ) (entry : Entry) : CSMap :=
  { empty with
    servers := (List.range servers).map some
    index := fun server => if server < servers then server else -1
    serverCount := servers
    entries := update (fun _ => none) 0 (some entry)
    order := insertBefore (.entry 0) (.head (ReplicationState.none.code + 1)) empty.order
    chunkCount := fun server => if server < count then 1 else 0 }

variable {count : ℕ} {entry next : Entry}

theorem addServer_hosting (hcount : count < kMaxServers) :
    (hosting count count entry).addServer count = some (true, hosting (count + 1) count entry) := by
  have hinvalid : (hosting count count entry).validate count = false := by simp [validate, hosting]
  have hindex : update (hosting count count entry).index count (count : ℤ) =
      (hosting (count + 1) count entry).index := by
    funext server
    simp only [hosting, update_apply]
    split_ifs <;> omega
  have hroom : ¬ kMaxServers ≤ (hosting count count entry).serverCount +
      (hosting count count entry).pendingRemove.length := by
    change ¬ kMaxServers ≤ count + 0
    omega
  rw [addServer, if_neg (by rw [hinvalid]; decide), if_neg hroom]
  have hlength : (hosting count count entry).servers.length = count := by simp [hosting]
  have hservers : (hosting count count entry).servers ++ [some count] =
      (hosting (count + 1) count entry).servers := by simp [hosting, range_succ]
  have hchunks : update (hosting count count entry).chunkCount count 0 =
      (hosting count count entry).chunkCount := update_eq_self_iff.mpr (by simp [hosting])
  rw [hlength, hservers, hindex, hchunks]
  rfl

theorem add_hosting {number : ℕ} (hnumber : entry.serverCount = some number)
    (hnext : entry.addIndex count alignedMemory = some (true, next)) :
    (hosting (count + 1) count entry).add (fun _ _ => alignedMemory) count 0 entry =
      some (true, hosting (count + 1) (count + 1) next) := by
  have hvalid : (hosting (count + 1) count entry).validate count = true := by
    simp [validate, hosting]
  have hindex : ((hosting (count + 1) count entry).index count).toNat = count := by simp [hosting]
  have hentry : (hosting (count + 1) count entry).entries 0 = some entry := by simp [hosting]
  have hcounts : update (hosting (count + 1) count entry).chunkCount count
      ((hosting (count + 1) count entry).chunkCount count + 1) =
      (hosting (count + 1) (count + 1) next).chunkCount := by
    funext server
    simp only [hosting, update_apply]
    split_ifs <;> omega
  have hentries : update (hosting (count + 1) count entry).entries 0 (some next) =
      (hosting (count + 1) (count + 1) next).entries := update_idem ..
  have hidle : (hosting (count + 1) count entry).cleanupDuringScan (fun _ _ => alignedMemory) 0
      entry = some (hosting (count + 1) count entry) := rfl
  rw [add, if_neg (not_not.mpr hvalid)]
  simp only [hidle, hentry, hnumber, hindex, hnext, bind_eq_bind, bind_some]
  rw [hcounts, hentries]
  rfl

def alignedStep (call : MapCall) : MapStep := ⟨fun _ _ => alignedMemory, call⟩

/-- A chunk is added, and servers, each of them to the chunk. -/
def overfull (count : ℕ) : List MapStep :=
  alignedStep (.insert 0) :: (List.range count).flatMap fun server =>
    [alignedStep (.addServer server), alignedStep (.add server 0)]

theorem run_overfull (hcount : count ≤ 32763) :
    ∃ answers entry, Entry.empty.run (addFirst count) = some (answers, entry) ∧
      run (overfull count) (empty, .empty) = some (hosting count count entry,
        ⟨(List.range count).reverse, [], [0], update (fun _ => []) 0 (List.range count)⟩) := by
  induction count with
  | zero =>
    refine ⟨[], Entry.empty, rfl, ?_⟩
    rw [range_zero, show update (fun _ : ℤ => ([] : List ℕ)) 0 [] = fun _ => [] from
      update_eq_self ..]
    rfl
  | succ count ih =>
    obtain ⟨answers, entry, hentry, hrun⟩ := ih (by omega)
    obtain ⟨_, found, capacity, hfound, hstored, hfill⟩ :=
      Entry.run_addFirst (show count ≤ 32763 by omega)
    obtain ⟨-, rfl⟩ := Prod.mk.inj (some.inj (hentry.symm.trans hfound))
    have hlimit : kMaxServers = 32767 := rfl
    have hids := Entry.isId_range hcount
    obtain ⟨next, -, -, hnext, -⟩ := hstored.addIndex_not_mem hids (by omega) (hfill.lt hcount)
      (show count < kMaxServers by omega) alignedMemory (by simp)
    refine ⟨_, next, Entry.run_addFirst_succ hentry hnext, ?_⟩
    have hadd := add_hosting (hstored.serverCount_eq hids (by omega) (hfill.lt hcount)) hnext
    have hhosting : (hosting (count + 1) count entry).entries 0 = some entry := by simp [hosting]
    have hsteps : overfull (count + 1) = overfull count ++
        [alignedStep (.addServer count), alignedStep (.add count 0)] := by
      simp [overfull, range_succ]
    rw [hsteps, run_append, hrun, bind_some]
    simp only [run, alignedStep, call, addServer_hosting (show count < kMaxServers by omega),
      hhosting, hadd, bind_eq_bind, bind_some, Placement.call, Placement.withMembers,
      Placement.addMember, mem_singleton, if_true, update_self, update_idem]
    simp [range_succ]

theorem length_of_mapM {Item Value : Type*} {list : List Item} {value : Item → Option Value}
    {result : List Value} (hresult : list.mapM value = some result) :
    result.length = list.length := by
  induction list generalizing result with
  | nil =>
    cases hresult
    rfl
  | cons item list ih =>
    rw [mapM_cons] at hresult
    obtain ⟨first, -, hrest⟩ := bind_eq_some_iff.mp hresult
    obtain ⟨rest, hmap, hcons⟩ := bind_eq_some_iff.mp hrest
    cases hcons
    rw [length_cons, length_cons, ih hmap]

theorem length_of_listServers {map : CSMap} (hhibernated : map.hibernatedCount = 0)
    {indices servers : List ℕ} (hlist : map.listServers indices = some (servers, count)) :
    servers.length = indices.length := by
  induction indices generalizing servers count with
  | nil =>
    cases hlist
    rfl
  | cons idx rest ih =>
    obtain ⟨slot, -, hslot⟩ := bind_eq_some_iff.mp hlist
    cases slot with
    | none =>
      rw [if_pos hhibernated] at hslot
      cases hslot
    | some server =>
      obtain ⟨⟨others, number⟩, hothers, hcons⟩ := bind_eq_some_iff.mp hslot
      cases hcons
      rw [length_cons, length_cons, ih hothers]

/-- With 32763 servers `GetServers` does not return the servers of the chunk. -/
theorem not_correct_overfull :
    ∃ state, run (overfull 32763) (empty, .empty) = some state ∧ ¬ state.1.Correct state.2 := by
  generalize hcount : 32763 = count
  obtain ⟨answers, entry, hentry, hrun⟩ := run_overfull (show count ≤ 32763 by omega)
  refine ⟨_, hrun, fun correct => ?_⟩
  obtain ⟨number, next, hget⟩ := correct.getServers (fun _ _ => alignedMemory) 0 entry (by
    simp [hosting])
  obtain ⟨previous, rfl⟩ : ∃ previous, count = previous + 1 := ⟨32762, hcount.symm⟩
  obtain ⟨total, htotal, hserverCount⟩ : ∃ total, total = 2 ^ 64 - 1 ∧
      entry.serverCount = some total :=
    ⟨_, rfl, Entry.serverCount_addFirst (show previous = 32762 by omega) hentry⟩
  obtain ⟨indexes, hindexes, hlisted⟩ := bind_eq_some_iff.mp hget
  obtain ⟨⟨servers, sleeping⟩, hservers, hresult⟩ := bind_eq_some_iff.mp hlisted
  have hlength := length_of_listServers rfl hservers
  rw [Entry.indexes, hserverCount] at hindexes
  have hindexLength := length_of_mapM hindexes
  have hsame : servers = range (previous + 1) := by
    have := (Prod.mk.inj (some.inj hresult)).1
    simpa using this
  rw [hsame, hindexLength, length_range, length_range] at hlength
  omega

end CSMap

end QfsRepair.ChunkMap
