import QfsRepair.ChunkMap.Placement
import QfsRepair.ChunkMap.ServerMapSteps

/-!
# Calls of the map from chunks to servers

One lemma for each call: on a map that keeps the invariant it returns a map that
keeps it, and changes the servers of the chunks as the specification does.
-/

namespace QfsRepair.ChunkMap.CSMap

open Function List Option SlotTable
open Placement (addMember)
open Store (before prev lastBefore insertBefore)

variable {map : CSMap} {sets : ℤ → Option ServerSet} {asleep : List ℕ} {chunkId : ℤ}
  {entry : Entry} {set : ServerSet} {server : ℕ}

/-- The map after a call that leaves `servers` as the servers of a chunk. -/
structure Resets (map next : CSMap) (sets : ℤ → Option ServerSet) (asleep : List ℕ)
    (chunkId : ℤ) (changed : ServerSet) (servers : List ℕ) : Prop where
  sound : next.Sound (update sets chunkId (some changed)) asleep
  table : next.toSlotTable = map.toSlotTable
  servers : map.serversOf changed.indices = servers

namespace Sound

variable (sound : Sound map sets asleep) (hset : sets chunkId = some set)

include sound hset

theorem chunkCount_ne_zero {idx : ℕ} (hslot : map.servers[idx]? = some (some server))
    (hidx : idx ∈ set.indices) :
    map.chunkCount server ≠ 0 := by
  have hpos : 0 < (chunksOf map.order).countP fun chunkId => idx ∈ refs sets chunkId :=
    countP_pos_iff.mpr ⟨chunkId, mem_chunksOf.mpr (sound.listing.mem_order hset), by
      rw [refs_of_eq_some hset]
      exact decide_eq_true hidx⟩
  rw [sound.hosted server idx hslot]
  omega

/-- A server that hosts the chunk from now on. -/
theorem addSlot {idx : ℕ} (hslot : map.servers[idx]? = some (some server))
    (hidx : idx ∉ set.indices)
    (represents : entry.Represents { set with indices := set.indices ++ [idx] }) :
    Sound { map with
        entries := update map.entries chunkId (some entry)
        chunkCount := update map.chunkCount server (map.chunkCount server + 1) }
      (update sets chunkId (some { set with indices := set.indices ++ [idx] }))
      asleep := by
  have hproper := sound.filed.proper chunkId set hset
  have hlt := (List.getElem?_eq_some_iff.mp hslot).1
  have hbelow : idx < kMaxServers := lt_of_lt_of_le hlt sound.slots.bound
  have hvacant : idx ∉ map.vacant := fun hvacant => by
    rw [((sound.slots.mem_vacant idx).mp hvacant).1] at hslot
    cases hslot
  rw [SlotTable.vacant, mem_append, not_or] at hvacant
  have hadded : ∀ other ∈ set.indices ++ [idx], other ∈ set.indices ∨ other = idx := by
    simp
  refine ⟨sound.toConsistent.replace hset represents ?_ ?_ ?_ ?_, sound.scanning.subset ?_⟩
  · have hcall := @ServerSet.Proper.call set hproper (.addIndex idx) hbelow
    rwa [ServerSet.call, if_neg hidx] at hcall
  · intro other hother
    rcases hadded other hother with hold | rfl
    · exact sound.referred chunkId other (refs_of_eq_some hset ▸ hold)
    · exact ⟨hlt, hvacant.2⟩
  · intro other slot hother
    by_cases heq : other = server
    · subst heq
      obtain rfl := sound.slots.server_unique hother hslot
      simp [hidx]
    · have hne := slot_ne hslot hother heq
      simp [hne, heq]
  · intro other hother
    refine update_of_ne ?_ _ _
    rintro rfl
    rw [(sound.slots.index other idx).mp hslot] at hother
    omega
  · intro other hother
    rcases hadded other hother with hold | rfl
    · exact .inl (refs_of_eq_some hset ▸ hold)
    · exact .inr hvacant.1

variable (hentry : map.entries chunkId = some entry)

include hentry

omit sound in
/-- The entry of a chunk is cleaned up while there is a scan. -/
theorem cleanupDuringScan (consistent : Consistent map sets asleep) (memory : Memory)
    (scanning : Scanning map.order map.pendingRemove map.removeServerScanPtr sets [chunkId]) :
    ∃ tidied changed, map.cleanupDuringScan memory chunkId entry = some tidied ∧
      map.Resets tidied sets asleep chunkId changed (map.serversOf set.indices) ∧
      changed.indices.length ≤ set.indices.length := by
  obtain ⟨represents, -⟩ := consistent.filed.represents_entry hset hentry
  rw [CSMap.cleanupDuringScan]
  cases hptr : map.removeServerScanPtr with
  | some node =>
    obtain ⟨count, cleaned, changed, hcleanup, hindices, hsound, htable⟩ :=
      consistent.cleanup memory hset represents scanning
    refine ⟨cleaned, changed, by rw [hcleanup]; rfl, ⟨hsound, htable, ?_⟩, ?_⟩
    · rw [hindices]
      exact serversOf_filter_isStale
    · rw [hindices]
      exact length_filter_le ..
  | none =>
    refine ⟨map, set, rfl, ⟨?_, rfl, rfl⟩, le_rfl⟩
    rw [← hset, update_eq_self]
    refine ⟨consistent, scanning.idle, scanning.mem_order, ?_⟩
    intro node hnode
    rw [hptr] at hnode
    cases hnode

section

variable (memory : Memory)

/-- `AddServer` for an entry. -/
theorem add (server : ℕ) (hfew : set.indices.length ≤ 32750) :
    ∃ answer next changed, map.add memory server chunkId entry = some (answer, next) ∧
      map.Resets next sets asleep chunkId changed
        (addMember (fun other => map.validate other = true) (map.serversOf set.indices) server) ∧
      changed.indices.length ≤ set.indices.length + 1 := by
  rw [CSMap.add, addMember]
  by_cases hvalid : map.validate server = true
  swap
  · refine ⟨false, map, set, if_pos hvalid, ⟨?_, rfl, (if_neg fun h => hvalid h.1).symm⟩, by omega⟩
    rwa [← hset, update_eq_self]
  obtain ⟨idx, hindex, hslot⟩ := exists_slot hvalid
  obtain ⟨tidied, changed, htidy, ⟨htidied, htable, hservers⟩, hlength⟩ :=
    cleanupDuringScan hset hentry sound.toConsistent memory (sound.scanning.except chunkId)
  have hchanged : update sets chunkId (some changed) chunkId = some changed :=
    update_self ..
  obtain ⟨entry', hentry', hrepresents, hproper⟩ := htidied.filed.exists_entry hchanged
  have hslot' : tidied.servers[idx]? = some (some server) := by rwa [htable]
  have hindex' : (tidied.index server).toNat = idx := by rwa [htable]
  have hmember : server ∈ map.serversOf set.indices ↔ idx ∈ changed.indices := by
    rw [← hservers]
    exact sound.slots.mem_serversOf hslot
  obtain ⟨added, hadded, haddedRep⟩ :=
    @Entry.Represents.call entry' changed hrepresents hproper
      ⟨.addIndex idx, memory chunkId changed.indices.length⟩
      (lt_of_lt_of_le (List.getElem?_eq_some_iff.mp hslot).1 sound.slots.bound)
      fun _ _ => by omega
  simp only [Entry.call] at hadded
  rw [if_neg (by simpa using hvalid), htidy]
  simp only [bind_eq_bind, bind_some, hentry', hindex',
    (hrepresents.agrees hproper).serverCount, hadded]
  by_cases hin : idx ∈ changed.indices
  · refine ⟨false, tidied, changed, by simp [ServerSet.call, hin], ⟨htidied, htable, ?_⟩, by omega⟩
    rw [if_neg fun h => h.2 (hmember.mpr hin), hservers]
  · simp only [ServerSet.call, if_neg hin] at haddedRep ⊢
    have hsound := htidied.addSlot hchanged hslot' hin haddedRep
    rw [update_idem] at hsound
    refine ⟨true, _, _, rfl, ⟨hsound, htable, ?_⟩, ?_⟩
    · rw [if_pos ⟨hvalid, fun h => hin (hmember.mp h)⟩, ← hservers, SlotTable.serversOf]
      simp [SlotTable.serversOf, serverAt_eq_some.mpr hslot]
    · rw [length_append, length_singleton]
      omega

/-- `RemoveServer` for an entry. -/
theorem remove (server : ℕ) :
    ∃ answer next changed, map.remove memory server chunkId entry = some (answer, next) ∧
      map.Resets next sets asleep chunkId changed
        ((map.serversOf set.indices).filter fun other => other ≠ server) := by
  obtain ⟨represents, proper⟩ := sound.filed.represents_entry hset hentry
  have hsame : Sound map (update sets chunkId (some set)) asleep := by
    rwa [← hset, update_eq_self]
  rw [CSMap.remove]
  by_cases hvalid : map.validate server = true
  swap
  · refine ⟨false, map, set, if_pos hvalid, hsame, rfl, (filter_eq_self.mpr ?_).symm⟩
    intro other hother
    refine decide_eq_true ?_
    rintro rfl
    obtain ⟨idx, -, hidx⟩ := mem_filterMap.mp hother
    have hindex := (sound.slots.index other idx).mp (serverAt_eq_some.mp hidx)
    exact hvalid (sound.validate_iff.mpr (by omega))
  obtain ⟨idx, hindex, hslot⟩ := exists_slot hvalid
  rw [if_neg (by simpa using hvalid)]
  simp only [bind_eq_bind, bind_some, hindex, (represents.agrees proper).serverCount]
  by_cases hin : idx ∈ set.indices
  · obtain ⟨removed, hremoved, hrepresents, hproper⟩ := removeIndex_represents
      (memory chunkId set.indices.length) represents proper hin
    have hcount := sound.chunkCount_ne_zero hset hslot hin
    simp only [hremoved, bind_some, not_true_eq_false, if_false, if_neg hcount]
    refine ⟨true, _, _, rfl, ⟨sound.toConsistent.replace hset hrepresents hproper ?_ ?_ ?_,
      sound.scanning.subset ?_⟩, rfl, sound.slots.serversOf_erase hslot proper.nodup⟩
    · intro other hother
      exact sound.referred chunkId other (refs_of_eq_some hset ▸ mem_of_mem_erase hother)
    · intro other slot hother
      by_cases heq : other = server
      · subst heq
        obtain rfl := sound.slots.server_unique hother hslot
        simp only [update_self, if_pos hin, if_neg proper.nodup.not_mem_erase]
        omega
      · have hne := slot_ne hslot hother heq
        rw [update_of_ne heq]
        simp only [mem_erase_of_ne hne]
    · intro other hother
      refine update_of_ne ?_ _ _
      rintro rfl
      exact absurd (sound.validate_iff.mp hvalid) (by omega)
    · intro other hother
      exact .inl (refs_of_eq_some hset ▸ mem_of_mem_erase hother)
  · have hvalidCall : (EntryCall.removeIndex idx).Valid :=
      lt_of_lt_of_le (List.getElem?_eq_some_iff.mp hslot).1 sound.slots.bound
    obtain ⟨removed, hremoved, -⟩ := @Entry.Represents.call entry set represents proper
      ⟨.removeIndex idx, memory chunkId set.indices.length⟩ hvalidCall (by rintro _ ⟨⟩)
    simp only [Entry.call, ServerSet.call, if_neg hin] at hremoved
    rw [hremoved]
    refine ⟨false, map, set, rfl, hsame, rfl, (filter_eq_self.mpr ?_).symm⟩
    intro other hother
    refine decide_eq_true ?_
    rintro rfl
    exact hin ((sound.slots.mem_serversOf hslot).mp hother)

/-! ## All servers of a chunk -/

omit hset hentry in
theorem removeHosted_spec {indices : List ℕ} (chunkCount : ℕ → ℕ) (hnodup : indices.Nodup)
    (hslots : ∀ idx ∈ indices, idx < map.servers.length)
    (hpos : ∀ server ∈ map.serversOf indices, chunkCount server ≠ 0) :
    ∃ result, map.removeHosted indices chunkCount = some result ∧
      ∀ server, result server =
        if server ∈ map.serversOf indices then chunkCount server - 1 else chunkCount server := by
  induction indices generalizing chunkCount with
  | nil => exact ⟨chunkCount, rfl, fun server => by simp [SlotTable.serversOf]⟩
  | cons idx rest ih =>
    obtain ⟨hfresh, hrest⟩ := nodup_cons.mp hnodup
    have hslot := hslots idx mem_cons_self
    have hslots' := fun other hother => hslots other (mem_cons_of_mem idx hother)
    rw [removeHosted, List.getElem?_eq_getElem hslot]
    simp only [bind_eq_bind, bind_some]
    cases hserver : map.servers[idx] with
    | none =>
      have hcons : map.serversOf (idx :: rest) = map.serversOf rest :=
        filterMap_cons_none (by
          rw [SlotTable.serverAt, List.getElem?_eq_getElem hslot, hserver]
          rfl)
      rw [hcons] at hpos ⊢
      exact ih chunkCount hrest hslots' hpos
    | some server =>
      have hat : map.servers[idx]? = some (some server) := by
        rw [List.getElem?_eq_getElem hslot, hserver]
      have hcons : map.serversOf (idx :: rest) = server :: map.serversOf rest :=
        filterMap_cons_some (serverAt_eq_some.mpr hat)
      have hnot : server ∉ map.serversOf rest := by
        rwa [sound.slots.mem_serversOf hat]
      rw [hcons] at hpos ⊢
      dsimp only
      rw [if_neg (hpos server mem_cons_self)]
      obtain ⟨result, hresult, hcounts⟩ := ih
        (update chunkCount server (chunkCount server - 1)) hrest hslots'
        fun other hother => by
          rw [update_of_ne (ne_of_mem_of_not_mem hother hnot)]
          exact hpos other (mem_cons_of_mem server hother)
      refine ⟨result, hresult, fun other => ?_⟩
      rw [hcounts]
      by_cases heq : other = server
      · subst heq
        simp [hnot]
      · simp [heq]

/-- The numbers of hosted chunks without one chunk. -/
theorem removeHosted_entry :
    ∃ chunkCount cleared, entry.indexes = some set.indices ∧
      map.removeHosted set.indices map.chunkCount = some chunkCount ∧
      entry.clearServers = some cleared ∧
      cleared.Represents { set with indices := [] } ∧
      (∀ server idx : ℕ, map.servers[idx]? = some (some server) →
        chunkCount server + (if idx ∈ set.indices then 1 else 0) = map.chunkCount server) ∧
      ∀ server, map.index server < 0 → chunkCount server = map.chunkCount server := by
  obtain ⟨represents, proper⟩ := sound.filed.represents_entry hset hentry
  have hreferred := sound.referred chunkId
  rw [refs_of_eq_some hset] at hreferred
  obtain ⟨cleared, hcleared, hrepresents⟩ := represents.clearServers
  obtain ⟨chunkCount, hcount, hcounts⟩ := sound.removeHosted_spec map.chunkCount
    proper.nodup (fun idx hidx => (hreferred idx hidx).1) fun server hserver => by
      obtain ⟨idx, hidx, hslot⟩ := mem_filterMap.mp hserver
      exact sound.chunkCount_ne_zero hset (serverAt_eq_some.mp hslot) hidx
  refine ⟨chunkCount, cleared, represents.indexes_eq proper, hcount, hcleared, hrepresents, ?_, ?_⟩
  · intro server idx hslot
    simp only [hcounts, sound.slots.mem_serversOf hslot]
    split_ifs with hidx
    · have hpos := sound.chunkCount_ne_zero hset hslot hidx
      omega
    · omega
  · intro server hindex
    rw [hcounts, if_neg]
    intro hserver
    obtain ⟨idx, -, hslot⟩ := mem_filterMap.mp hserver
    have := (sound.slots.index server idx).mp (serverAt_eq_some.mp hslot)
    omega

omit hentry in
theorem addAll (servers : List ℕ) (hfew : set.indices.length + servers.length ≤ 32751) :
    ∃ next changed, CSMap.addAll memory chunkId servers map = some next ∧
      map.Resets next sets asleep chunkId changed
        (servers.foldl (addMember fun other => map.validate other = true)
          (map.serversOf set.indices)) := by
  induction servers generalizing map sets set with
  | nil =>
    refine ⟨map, set, rfl, ?_, rfl, rfl⟩
    rwa [← hset, update_eq_self]
  | cons server servers ih =>
    rw [length_cons] at hfew
    obtain ⟨entry, hentry, -⟩ := sound.filed.exists_entry hset
    obtain ⟨answer, added, changed, hadd, ⟨hsound, htable, hservers⟩, hlength⟩ :=
      sound.add hset hentry memory server (by omega)
    obtain ⟨next, last, hall, hnext, hnextTable, hlast⟩ :=
      ih hsound (update_self ..) (by omega)
    refine ⟨next, last, ?_, by rwa [update_idem] at hnext, hnextTable.trans htable, ?_⟩
    · simp only [CSMap.addAll, hentry, bind_eq_bind, bind_some, hadd, hall]
    · have hvalidate : added.validate = map.validate := by
        funext other
        simp only [validate, htable]
      rw [htable, hservers, hvalidate] at hlast
      exact hlast

/-- `SetServers`. -/
theorem setServers {servers : List ℕ} (hfew : servers.length ≤ 32751) :
    ∃ next changed, map.setServers memory servers chunkId entry = some next ∧
      map.Resets next sets asleep chunkId changed
        (servers.foldl (addMember fun other => map.validate other = true) []) := by
  obtain ⟨chunkCount, cleared, hindexes, hcount, hcleared, hrepresents, hcounts, hidle⟩ :=
    sound.removeHosted_entry hset hentry
  have hempty : Sound { map with
        chunkCount := chunkCount
        entries := update map.entries chunkId (some cleared) }
      (update sets chunkId (some { set with indices := [] })) asleep := by
    refine ⟨sound.toConsistent.replace hset hrepresents ⟨nodup_nil, by simp⟩ (by simp) ?_
      hidle, sound.scanning.subset (by simp)⟩
    intro server idx hslot
    rw [hcounts server idx hslot]
    simp
  obtain ⟨next, changed, hall, hnext, htable, hservers⟩ :=
    hempty.addAll (update_self ..) memory servers (by simpa using hfew)
  rw [update_idem] at hnext
  refine ⟨next, changed, ?_, hnext, htable, hservers⟩
  simp only [CSMap.setServers, hindexes, bind_eq_bind, bind_some, hcount, hcleared]
  exact hall

omit hset in
/-- `Erase`. -/
theorem erase :
    ∃ next, map.erase chunkId = some (true, next) ∧
      next.Sound (update sets chunkId none) asleep ∧
      next.toSlotTable = map.toSlotTable := by
  obtain ⟨set, hset, -⟩ := sound.filed.exists_set hentry
  obtain ⟨chunkCount, cleared, hindexes, hcount, hcleared, -, hcounts, hidle⟩ :=
    sound.removeHosted_entry hset hentry
  have hlisted := sound.listing.mem_order hset
  have herase : map.erase chunkId = some (true, { map with
      removeServerScanPtr := map.scanPtrWithout chunkId
      chunkCount := chunkCount
      entries := update map.entries chunkId none
      order := map.order.erase (.entry chunkId) }) := by
    simp only [CSMap.erase, hentry, hindexes, bind_eq_bind, bind_some, hcount, hcleared]
  refine ⟨_, herase, ⟨⟨sound.slots, sound.listing.erase chunkId, sound.filed.erase chunkId,
    forall_refs_update (by simp) fun other _ => sound.referred other, ?_, ?_⟩, ?_⟩, rfl⟩
  · intro server idx hslot
    have hold := sound.hosted server idx hslot
    have hnew := hcounts server idx hslot
    rw [countP_chunksOf hlisted, refs_of_eq_some hset] at hold
    change chunkCount server = _
    rw [countP_refs_update sound.listing.nodup]
    simp only [decide_eq_true_eq] at hold
    omega
  · intro server
    exact (sound.idle server).trans (and_congr_right fun hindex => by rw [← hidle server hindex])
  · exact ((sound.scanning.except chunkId).unlink sound.listing).clean none (by simp)

/-- `GetServers`: the servers of a chunk. -/
theorem getServers :
    ∃ count next changed, map.getServers memory chunkId entry =
        some (map.serversOf set.indices, count, next) ∧
      map.Resets next sets asleep chunkId changed (map.serversOf set.indices) := by
  obtain ⟨represents, proper⟩ := sound.filed.represents_entry hset hentry
  rw [CSMap.getServers]
  cases hptr : map.removeServerScanPtr with
  | some node =>
    obtain ⟨count, cleaned, changed, hcleanup, hindices, hsound, htable⟩ :=
      sound.toConsistent.cleanup memory hset represents (sound.scanning.except chunkId)
    refine ⟨count, cleaned, changed, hcleanup, hsound, htable, ?_⟩
    rw [hindices]
    exact serversOf_filter_isStale
  | none =>
    have hreferred := sound.referred chunkId
    rw [refs_of_eq_some hset] at hreferred
    have hpending := sound.scanning.idle hptr
    have hlist : ∀ indices : List ℕ, (∀ idx ∈ indices, idx ∈ set.indices) →
        ∃ count, map.listServers indices = some (map.serversOf indices, count) := by
      intro indices hindices
      induction indices with
      | nil => exact ⟨0, rfl⟩
      | cons idx rest ih =>
        obtain ⟨hlt, hnull⟩ := hreferred idx (hindices idx mem_cons_self)
        obtain ⟨count, hrest⟩ := ih fun other hother =>
          hindices other (mem_cons_of_mem idx hother)
        rw [listServers, getElem?_eq_getElem hlt]
        simp only [bind_eq_bind, bind_some, hrest]
        cases hserver : map.servers[idx] with
        | some server =>
          refine ⟨count, ?_⟩
          have hat : map.serverAt idx = some server := by
            rw [serverAt_eq_some, getElem?_eq_getElem hlt, hserver]
          rw [SlotTable.serversOf, SlotTable.serversOf, filterMap_cons_some hat]
        | none =>
          have hat : map.serverAt idx = none := by
            rw [SlotTable.serverAt, getElem?_eq_getElem hlt, hserver]
            rfl
          -- no slot waits for the scan, so this one is hibernated
          have hstale := sound.slots.isStale_eq hlt hnull
          rw [hpending, SlotTable.isStale, hat] at hstale
          have hhibernated : map.hibernated idx = true := by simpa using hstale
          refine ⟨count + 1, ?_⟩
          rw [if_neg (sound.slots.hibernatedCount_pos hhibernated), SlotTable.serversOf,
            SlotTable.serversOf, filterMap_cons_none hat]
    obtain ⟨count, hservers⟩ := hlist set.indices fun _ hidx => hidx
    refine ⟨count, map, set, ?_, ?_, rfl, rfl⟩
    · simp only [isSome_none, Bool.false_eq_true, if_false, represents.indexes_eq proper,
        bind_eq_bind, bind_some, hservers]
    · rwa [← hset, update_eq_self]

/-- `SetState`. -/
theorem setState (state : ReplicationState) :
    ∃ next changed, map.setState memory chunkId entry state = some next ∧
      map.Resets next sets asleep chunkId changed (map.serversOf set.indices) := by
  obtain ⟨represents, proper⟩ := sound.filed.represents_entry hset hentry
  obtain ⟨hmoved, hscanning⟩ := sound.toConsistent.setStateSelf hset represents proper state
    (sound.scanning.except chunkId)
  have hentryMoved : (map.setStateSelf chunkId entry state).entries chunkId =
      some (entry.setState state) :=
    update_self ..
  obtain ⟨next, changed, hnext, ⟨hsound, htable, hservers⟩, -⟩ :=
    cleanupDuringScan (update_self ..) hentryMoved hmoved memory hscanning
  rw [update_idem] at hsound
  exact ⟨next, changed, hnext, hsound, htable, hservers⟩

end

omit hset hentry in
/-- `Insert`. -/
theorem insert (hentry : map.entries chunkId = none) :
    ∃ next, map.insert chunkId = (true, next) ∧
      next.Sound (update sets chunkId (some ServerSet.empty)) asleep ∧
      next.toSlotTable = map.toSlotTable := by
  have hset := sound.filed.eq_none hentry
  have hlisted : ListNode.entry chunkId ∉ map.order := by
    rw [sound.listing.mem_entry, hset]
    decide
  have hinsert : map.insert chunkId = (true, { map with
      entries := update map.entries chunkId (some Entry.empty)
      order := insertBefore (.entry chunkId) (.head (ReplicationState.none.code + 1))
        map.order }) := by
    rw [CSMap.insert, hentry]
  refine ⟨_, hinsert, ⟨⟨sound.slots, sound.listing.insert hset ServerSet.empty .none,
    sound.filed.update Entry.represents_empty ⟨nodup_nil, by simp [ServerSet.empty]⟩ chunkId,
    forall_refs_update (by simp [ServerSet.empty]) fun other _ => sound.referred other,
    ?_, sound.idle⟩, ?_⟩, rfl⟩
  · intro server idx hslot
    have hothers : ((chunksOf map.order).countP fun other =>
        idx ∈ refs (update sets chunkId (some ServerSet.empty)) other) =
        (chunksOf map.order).countP fun other => idx ∈ refs sets other :=
      countP_congr fun other hother => by
        rw [refs_update_of_ne]
        rintro rfl
        exact hlisted (mem_chunksOf.mp hother)
    rw [(chunksOf_perm_cons Store.insertBefore_perm).countP_eq, countP_cons_of_neg, hothers]
    · exact sound.hosted server idx hslot
    · rw [refs_update_some]
      simp [ServerSet.empty]
  · exact ((sound.scanning.except chunkId).link hlisted _).clean _ (by simp [ServerSet.empty])

end Sound

end QfsRepair.ChunkMap.CSMap
