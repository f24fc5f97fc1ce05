import QfsRepair.ChunkMap.ServerMapInvariant

/-!
# Steps of the map from chunks to servers

Every call succeeds on a map that keeps the invariant, keeps it, and changes the
sets of slots in the way given here.
-/

namespace QfsRepair.ChunkMap

open Function List Option SlotTable
open Store (before prev lastBefore insertBefore)

theorem Entry.Represents.setState {entry : Entry} {set : ServerSet}
    (represents : entry.Represents set) (proper : set.Proper) (state : ReplicationState) :
    (entry.setState state).Represents { set with state := state } := by
  obtain ⟨marker, capacity, stored, hcapacity⟩ := represents
  exact ⟨marker, capacity, stored.setState proper.isId set.state.code_lt state, hcapacity⟩

namespace CSMap

/-- The part of the invariant that does not speak of the scan.  `asleep` are
the servers without a slot whose number of hosted chunks is not zero. -/
structure Consistent (map : CSMap) (sets : ℤ → Option ServerSet) (asleep : List ℕ) : Prop where
  slots : map.toSlotTable.Sound
  listing : Listing map.order sets
  filed : Filed map.entries sets
  referred : ∀ chunkId, ∀ idx ∈ refs sets chunkId, idx < map.servers.length ∧ idx ∉ map.nullSlots
  hosted : Hosted map.toSlotTable map.chunkCount map.order sets
  idle : ∀ server, server ∈ asleep ↔ map.index server < 0 ∧ map.chunkCount server ≠ 0

structure Sound (map : CSMap) (sets : ℤ → Option ServerSet) (asleep : List ℕ) : Prop extends
    Consistent map sets asleep where
  scanning : Scanning map.order map.pendingRemove map.removeServerScanPtr sets []

variable {map : CSMap} {sets : ℤ → Option ServerSet} {asleep : List ℕ} {chunkId : ℤ}
  {entry : Entry} {set : ServerSet} {server : ℕ}

theorem empty_sound : empty.Sound (fun _ => none) [] where
  slots := by
    refine ⟨by decide, ?_, ?_, rfl, by decide, rfl, ?_⟩
    · simp [SlotTable.vacant, empty]
    · intro idx hidx
      cases hidx
    · intro server idx
      constructor
      · intro hidx
        cases hidx
      · intro hidx
        have hnegative : (-1 : ℤ) = idx := hidx
        omega
  listing := by
    refine ⟨by decide, rfl, rfl, ?_, ?_⟩
    · intro position hposition
      exact mem_map_of_mem (mem_range.mpr (by omega))
    · simp [empty]
  filed := ⟨fun _ => .none, nofun⟩
  referred := fun _ idx hidx => by cases hidx
  hosted := fun server idx hidx => by cases hidx
  idle := fun _ => by simp [empty]
  scanning := ⟨fun _ => rfl, nofun, nofun⟩

namespace Consistent

variable {changed : ServerSet}

variable (consistent : Consistent map sets asleep)

include consistent

/-- Another set for a chunk, with the numbers of hosted chunks that follow. -/
theorem replace (hset : sets chunkId = some set) (represents : entry.Represents changed)
    (proper : changed.Proper)
    (hreferred : ∀ idx ∈ changed.indices, idx < map.servers.length ∧ idx ∉ map.nullSlots)
    {chunkCount : ℕ → ℕ}
    (hcount : ∀ server idx : ℕ, map.servers[idx]? = some (some server) →
      chunkCount server + (if idx ∈ set.indices then 1 else 0) =
        map.chunkCount server + if idx ∈ changed.indices then 1 else 0)
    (hidle : ∀ server, map.index server < 0 → chunkCount server = map.chunkCount server) :
    Consistent { map with
        entries := update map.entries chunkId (some entry)
        chunkCount := chunkCount }
      (update sets chunkId (some changed)) asleep where
  slots := consistent.slots
  listing := consistent.listing.change hset changed
  filed := consistent.filed.update represents proper chunkId
  referred := forall_refs_update hreferred fun other _ => consistent.referred other
  hosted := by
    intro server idx hidx
    have hentry := consistent.listing.mem_order hset
    have hold := consistent.hosted server idx hidx
    have hnew := hcount server idx hidx
    rw [countP_chunksOf hentry, refs_of_eq_some hset] at hold
    rw [countP_chunksOf hentry, countP_refs_update consistent.listing.nodup, refs_update_some]
    simp only [decide_eq_true_eq] at hold ⊢
    omega
  idle := fun server => (consistent.idle server).trans
    (and_congr_right fun hindex => by rw [← hidle server hindex])

/-- Another set with the same servers. -/
theorem change (hset : sets chunkId = some set) (represents : entry.Represents changed)
    (proper : changed.Proper) (hsubset : ∀ idx ∈ changed.indices, idx ∈ set.indices)
    (hlive : ∀ server idx : ℕ, map.servers[idx]? = some (some server) →
      (idx ∈ changed.indices ↔ idx ∈ set.indices)) :
    Consistent { map with entries := update map.entries chunkId (some entry) }
      (update sets chunkId (some changed)) asleep := by
  refine consistent.replace hset represents proper ?_ ?_ fun _ _ => rfl
  · intro idx hidx
    exact consistent.referred chunkId idx (refs_of_eq_some hset ▸ hsubset idx hidx)
  · intro server idx hidx
    simp only [hlive server idx hidx]

/-! ## The scan -/

theorem scanNext {ptr : ListNode} (hptr : ptr ∈ map.order)
    (hahead : ∀ chunkId, ∀ idx ∈ refs sets chunkId, idx ∈ map.pendingRemove →
      .entry chunkId ∈ before map.order ptr) :
    Sound (map.removeServerScanNext ptr) sets asleep := by
  rw [removeServerScanNext]
  cases hlast : lastBefore ListNode.isEntry map.order ptr with
  | some node =>
    obtain ⟨-, hnode, hbefore⟩ := Store.lastBefore_spec consistent.listing.nodup hptr hlast
    refine ⟨⟨consistent.slots, consistent.listing, consistent.filed, consistent.referred,
      consistent.hosted, consistent.idle⟩, by simp, ?_, ?_⟩
    · rintro _ ⟨⟩
      exact Store.mem_of_mem_before hnode
    · rintro _ ⟨⟩ chunkId - idx hidx hpending
      exact hbefore _ (hahead chunkId idx hidx hpending) rfl
  | none =>
    refine ⟨⟨consistent.slots.release, consistent.listing, consistent.filed, ?_,
      consistent.hosted, consistent.idle⟩, fun _ => rfl, by simp, by simp⟩
    intro chunkId idx hidx
    obtain ⟨hlt, hnull⟩ := consistent.referred chunkId idx hidx
    refine ⟨hlt, ?_⟩
    rw [mem_append, or_iff_right hnull]
    intro hpending
    cases Store.lastBefore_eq_none hlast _ (hahead chunkId idx hidx hpending)

theorem scanFirst :
    Sound map.removeServerScanFirst sets asleep := by
  refine consistent.scanNext (consistent.listing.heads _ le_rfl) ?_
  intro chunkId idx hidx _
  refine Store.mem_before_getLast consistent.listing.nodup consistent.listing.last ?_ (by simp)
  rw [consistent.listing.mem_entry]
  cases hset : sets chunkId with
  | none =>
    rw [refs_of_eq_none hset] at hidx
    cases hidx
  | some => rfl

end Consistent

theorem removeServerScanNext_servers (map : CSMap) (ptr : ListNode) :
    (map.removeServerScanNext ptr).servers = map.servers := by
  rw [removeServerScanNext]
  split <;> rfl

theorem removeServerScanNext_index (map : CSMap) (ptr : ListNode) :
    (map.removeServerScanNext ptr).index = map.index := by
  rw [removeServerScanNext]
  split <;> rfl

theorem Sound.scanCur (sound : Sound map sets asleep) :
    Sound map.removeServerScanCur sets asleep := by
  rw [removeServerScanCur]
  split
  · rename_i position hptr
    refine sound.toConsistent.scanNext (sound.scanning.mem_order _ hptr) ?_
    intro chunkId idx hidx hpending
    exact (sound.scanning.ahead _ hptr chunkId not_mem_nil idx hidx hpending).resolve_left
      (by simp)
  · exact sound

theorem removeServerScanCur_servers (map : CSMap) :
    map.removeServerScanCur.servers = map.servers := by
  rw [removeServerScanCur]
  split
  · exact removeServerScanNext_servers ..
  · rfl

theorem removeServerScanCur_index (map : CSMap) :
    map.removeServerScanCur.index = map.index := by
  rw [removeServerScanCur]
  split
  · exact removeServerScanNext_index ..
  · rfl

/-! ## States and stale indices -/

namespace Consistent

theorem setStateSelf (consistent : Consistent map sets asleep) (hset : sets chunkId = some set)
    (represents : entry.Represents set) (proper : set.Proper) (state : ReplicationState)
    (scanning : Scanning map.order map.pendingRemove map.removeServerScanPtr sets [chunkId]) :
    Consistent (map.setStateSelf chunkId entry state)
        (update sets chunkId (some { set with state := state })) asleep ∧
      Scanning (map.setStateSelf chunkId entry state).order map.pendingRemove
        (map.setStateSelf chunkId entry state).removeServerScanPtr
        (update sets chunkId (some { set with state := state })) [chunkId] := by
  have hentry := consistent.listing.mem_order hset
  have hchanged := consistent.change hset (represents.setState proper state)
    ⟨proper.nodup, proper.lt⟩ (fun _ hidx => hidx) fun _ _ _ => Iff.rfl
  have hperm : (map.setStateSelf chunkId entry state).order.Perm map.order :=
    Store.insertBefore_perm.trans (perm_cons_erase hentry).symm
  refine ⟨⟨consistent.slots, consistent.listing.move chunkId _ state, hchanged.filed,
    hchanged.referred, ?_, hchanged.idle⟩, ?_⟩
  · intro server idx hidx
    rw [chunksOf, (hperm.filterMap _).countP_eq]
    exact hchanged.hosted server idx hidx
  · exact ((scanning.unlink consistent.listing).link
      consistent.listing.nodup.not_mem_erase _).change _

/-- The entry of a chunk loses the slots of removed servers. -/
theorem cleanup (consistent : Consistent map sets asleep) (memory : Memory)
    (hset : sets chunkId = some set) (represents : entry.Represents set)
    (scanning : Scanning map.order map.pendingRemove map.removeServerScanPtr sets [chunkId]) :
    ∃ count cleaned changed, map.cleanupStaleServers memory chunkId entry =
        some (map.serversOf set.indices, count, cleaned) ∧
      changed.indices = set.indices.filter (fun idx => !map.isStale idx) ∧
      cleaned.Sound (update sets chunkId (some changed)) asleep ∧
      cleaned.toSlotTable = map.toSlotTable := by
  have proper := consistent.filed.proper chunkId set hset
  have hreferred := consistent.referred chunkId
  rw [refs_of_eq_some hset] at hreferred
  obtain ⟨cleaned, count, hloop, hcleaned⟩ :=
    @cleanupLoop_spec map entry set (memory chunkId) [] set.indices [] 0 represents proper rfl
      fun idx hidx => (hreferred idx hidx).1
  simp only [nil_append, length_nil, Nat.zero_add] at hloop hcleaned
  generalize hkept : set.indices.filter (fun idx => !map.isStale idx) = kept at *
  have hmem : ∀ idx, idx ∈ kept ↔ idx ∈ set.indices ∧ map.isStale idx = false := by
    intro idx
    rw [← hkept, mem_filter, Bool.not_eq_true']
  have hproper : ({ set with indices := kept } : ServerSet).Proper :=
    ⟨hkept ▸ proper.nodup.filter _, fun idx hidx => proper.lt idx ((hmem idx).mp hidx).1⟩
  have hfresh : ∀ idx ∈ kept, idx ∉ map.pendingRemove := by
    intro idx hidx
    obtain ⟨hin, hstale⟩ := (hmem idx).mp hidx
    rw [consistent.slots.isStale_eq (hreferred idx hin).1 (hreferred idx hin).2] at hstale
    exact of_decide_eq_false hstale
  have hchanged := consistent.change hset hcleaned hproper (fun idx hidx => ((hmem idx).mp hidx).1)
    fun server idx hidx => by
      rw [hmem]
      simp [SlotTable.isStale, serverAt_eq_some.mpr hidx]
  have hscanning : Scanning map.order map.pendingRemove map.removeServerScanPtr
      (update sets chunkId (some { set with indices := kept })) [] :=
    scanning.clean _ hfresh
  rw [cleanupStaleServers, (represents.agrees proper).serverCount]
  simp only [bind_eq_bind, bind_some, hloop]
  split_ifs
  · obtain ⟨hmoved, hpending⟩ := hchanged.setStateSelf (update_self ..) hcleaned hproper
      .checkReplication (hscanning.except chunkId)
    have hsound := hpending.clean (some ⟨kept, .checkReplication⟩) hfresh
    rw [update_idem] at hmoved hsound
    rw [update_idem] at hsound
    exact ⟨count, _, _, rfl, rfl, ⟨hmoved, hsound⟩, rfl⟩
  · exact ⟨count, _, _, rfl, rfl, ⟨hchanged, hscanning⟩, rfl⟩

end Consistent

namespace Sound

theorem exists_slot (hvalid : map.validate server = true) :
    ∃ idx, (map.index server).toNat = idx ∧ map.servers[idx]? = some (some server) :=
  ⟨_, rfl, (of_decide_eq_true hvalid).2⟩

variable (sound : Sound map sets asleep)

include sound

theorem validate_iff :
    map.validate server = true ↔ 0 ≤ map.index server := by
  constructor
  · exact fun hvalid => (of_decide_eq_true hvalid).1
  · intro hindex
    have hslot := (sound.slots.index server (map.index server).toNat).mpr (by omega)
    simp [validate, hindex, hslot]

variable {idx : ℕ}

omit sound in
theorem slot_ne {slot other : ℕ} (hidx : map.servers[idx]? = some (some server))
    (hslot : map.servers[slot]? = some (some other)) (hne : other ≠ server) : slot ≠ idx := by
  rintro rfl
  rw [hidx] at hslot
  exact hne (Option.some.inj (Option.some.inj hslot)).symm

/-- The loop of `RemoveServerCleanup` keeps the servers of every chunk. -/
theorem cleanupScan (memory : Memory) (count : ℕ) :
    ∃ next cleaned, CSMap.cleanupScan memory count map = some next ∧
      next.Sound cleaned asleep ∧ next.servers = map.servers ∧ next.index = map.index ∧
      ∀ chunkId, (cleaned chunkId).isSome = (sets chunkId).isSome ∧
        map.serversOf (refs cleaned chunkId) = map.serversOf (refs sets chunkId) := by
  induction count generalizing map sets with
  | zero => exact ⟨map, sets, rfl, sound, rfl, rfl, fun _ => ⟨rfl, rfl⟩⟩
  | succ count ih =>
    rw [CSMap.cleanupScan]
    split
    · rename_i chunkId hptr
      have hlisted := sound.scanning.mem_order _ hptr
      obtain ⟨set, hset⟩ := isSome_iff_exists.mp
        ((sound.listing.mem_entry chunkId).mp hlisted)
      obtain ⟨entry, hentry, represents, -⟩ := sound.filed.exists_entry hset
      have hscanning := sound.scanning.except chunkId
      rw [hptr] at hscanning
      have hback : Consistent
          { map with removeServerScanPtr := prev map.order (.entry chunkId) } sets asleep :=
        ⟨sound.slots, sound.listing, sound.filed, sound.referred, sound.hosted, sound.idle⟩
      obtain ⟨number, cleaned, changed, hcleanup, hindices, hsound, htable⟩ :=
        hback.cleanup memory hset represents (hscanning.stepBack sound.listing)
      obtain ⟨next, final, hnext, hfinal, hservers, hindex, hchunks⟩ := ih hsound.scanCur
      rw [removeServerScanCur_servers] at hservers
      rw [removeServerScanCur_index] at hindex
      have hsame : cleaned.servers = map.servers := by rw [htable]
      refine ⟨next, final, ?_, hfinal, by rw [hservers, htable], by rw [hindex, htable], ?_⟩
      · simp only [hentry, bind_eq_bind, bind_some, hcleanup]
        exact hnext
      · intro other
        obtain ⟨hpresent, hother⟩ := hchunks other
        rw [serversOf_eq_of_servers ((removeServerScanCur_servers cleaned).trans hsame)] at hother
        rw [hpresent, hother]
        by_cases heq : other = chunkId
        · subst heq
          rw [update_self, refs_update_some, hset, refs_of_eq_some hset, hindices]
          exact ⟨rfl, serversOf_filter_isStale⟩
        · rw [update_of_ne heq, refs_update_of_ne heq]
          exact ⟨rfl, rfl⟩
    · exact ⟨map, sets, rfl, sound, rfl, rfl, fun _ => ⟨rfl, rfl⟩⟩

/-! ## Servers -/

variable {table : SlotTable}

/-- A slot that no entry refers to is given to a server. -/
theorem withServer (slots : table.Sound) (hindex : table.index = update map.index server idx)
    (hlength : map.servers.length ≤ table.servers.length)
    (hnull : ∀ slot ∈ table.nullSlots, slot ∈ map.nullSlots)
    (hpending : table.pendingRemove = map.pendingRemove)
    (hfresh : ∀ chunkId, idx ∉ refs sets chunkId) :
    Sound { map with
        toSlotTable := table
        chunkCount := update map.chunkCount server 0 }
      sets (asleep.filter fun other => other ≠ server) := by
  refine ⟨⟨slots, sound.listing, sound.filed, ?_, ?_, ?_⟩, ?_⟩
  · intro chunkId slot hslot
    obtain ⟨hlt, hused⟩ := sound.referred chunkId slot hslot
    exact ⟨lt_of_lt_of_le hlt hlength, fun hfree => hused (hnull slot hfree)⟩
  · intro other slot hslot
    change update map.chunkCount server 0 other = _
    by_cases heq : other = server
    · subst heq
      have hat := (slots.index other slot).mp hslot
      rw [hindex, update_self] at hat
      obtain rfl : idx = slot := Int.ofNat.inj hat
      rw [update_self, eq_comm, countP_eq_zero]
      intro chunkId _
      simpa using hfresh chunkId
    · rw [update_of_ne heq]
      refine sound.hosted other slot ((sound.slots.index other slot).mpr ?_)
      rw [← (slots.index other slot).mp hslot, hindex, update_of_ne heq]
  · intro other
    change _ ↔ table.index other < 0 ∧ update map.chunkCount server 0 other ≠ 0
    rw [mem_filter, sound.idle, hindex]
    by_cases heq : other = server <;> simp [heq]
  · have hscanning := sound.scanning
    rw [← hpending] at hscanning
    exact hscanning

/-- `AddServer`: the slot is one that no entry refers to. -/
theorem addServer (server : ℕ) :
    map.addServer server = some (false, map) ∨
      ∃ (next : CSMap) (idx : ℕ), map.addServer server = some (true, next) ∧
        next.Sound sets (asleep.filter fun other => other ≠ server) ∧
        next.index = update map.index server idx ∧ map.index server < 0 ∧
        (∀ chunkId, idx ∉ refs sets chunkId) ∧
        ∀ chunkId, next.serversOf (refs sets chunkId) = map.serversOf (refs sets chunkId) := by
  rw [CSMap.addServer]
  by_cases hvalid : map.validate server = true
  · exact .inl (if_pos hvalid)
  rw [if_neg hvalid]
  split_ifs with hfull
  · exact .inl rfl
  right
  have hnegative : map.index server < 0 := by
    rw [sound.validate_iff] at hvalid
    omega
  have hnew : ∀ idx : ℕ, map.servers[idx]? ≠ some (some server) := by
    intro idx hidx
    have hindex := (sound.slots.index server idx).mp hidx
    omega
  cases hlast : map.nullSlots.getLast? with
  | none =>
    have hnull : map.nullSlots = [] := getLast?_eq_none_iff.mp hlast
    have hslots := sound.slots.push hnew hnull (by omega)
    have hfresh : ∀ chunkId, map.servers.length ∉ refs sets chunkId := by
      intro chunkId hmem
      exact absurd (sound.referred chunkId _ hmem).1 (by omega)
    refine ⟨_, map.servers.length, rfl, sound.withServer hslots rfl ?_ (fun _ h => h) rfl hfresh,
      rfl, hnegative, hfresh, ?_⟩
    · rw [length_append]
      omega
    · intro chunkId
      refine serversOf_congr fun slot hslot => ?_
      rw [SlotTable.serverAt, SlotTable.serverAt,
        getElem?_append_left (sound.referred chunkId slot hslot).1]
  | some idx =>
    have hmem : idx ∈ map.nullSlots := mem_of_getLast? hlast
    have hempty := ((sound.slots.mem_vacant idx).mp (mem_append_right _ hmem)).1
    have hslots := sound.slots.reuse hnew hlast
    have hfresh : ∀ chunkId, idx ∉ refs sets chunkId := fun chunkId hidx =>
      (sound.referred chunkId idx hidx).2 hmem
    dsimp only
    rw [if_pos hempty]
    refine ⟨_, idx, rfl, sound.withServer hslots rfl ?_ ?_ rfl hfresh, rfl, hnegative, hfresh, ?_⟩
    · rw [length_set]
    · exact fun slot hslot => dropLast_subset _ hslot
    · intro chunkId
      refine serversOf_congr fun slot hslot => ?_
      have hne : idx ≠ slot := by
        rintro rfl
        exact hfresh chunkId hslot
      rw [SlotTable.serverAt, SlotTable.serverAt, getElem?_set_ne hne]

/-- A server leaves its slot empty. -/
theorem withoutServer {chunkCount : ℕ → ℕ} (slots : table.Sound)
    (hslot : map.servers[idx]? = some (some server))
    (hservers : table.servers = map.servers.set idx none)
    (hindex : table.index = update map.index server (-1)) (hnull : table.nullSlots = map.nullSlots)
    (hcount : ∀ other ≠ server, chunkCount other = map.chunkCount other) {sleeping : List ℕ}
    (hserver : server ∈ sleeping ↔ chunkCount server ≠ 0)
    (hothers : ∀ other ≠ server, (other ∈ sleeping ↔ other ∈ asleep)) :
    Consistent { map with toSlotTable := table, chunkCount := chunkCount } sets sleeping := by
  have hlt := (List.getElem?_eq_some_iff.mp hslot).1
  refine ⟨slots, sound.listing, sound.filed, ?_, ?_, ?_⟩
  · intro chunkId slot hin
    rw [hservers, length_set, hnull]
    exact sound.referred chunkId slot hin
  · intro other slot hother
    rw [hservers, getElem?_set_eq_some hlt] at hother
    rcases hother with ⟨hne, hother⟩ | ⟨-, hnone⟩
    · change chunkCount other = _
      rw [hcount, sound.hosted other slot hother]
      rintro rfl
      exact hne (sound.slots.server_unique hother hslot)
    · cases hnone
  · intro other
    change _ ↔ table.index other < 0 ∧ chunkCount other ≠ 0
    rw [hindex]
    by_cases heq : other = server
    · simp [heq, hserver]
    · rw [hothers other heq, sound.idle, update_of_ne heq, hcount other heq]

/-- `RemoveServer`. -/
theorem removeServer (server : ℕ) :
    map.validate server = false ∧ map.removeServer server = (false, map) ∨
      ∃ (next : CSMap) (idx : ℕ), map.removeServer server = (true, next) ∧
        next.Sound sets asleep ∧ map.servers[idx]? = some (some server) ∧
        next.servers = map.servers.set idx none ∧
        next.index = update map.index server (-1) := by
  rw [CSMap.removeServer]
  by_cases hvalid : map.validate server = true
  swap
  · exact .inl ⟨by simpa using hvalid, if_pos hvalid⟩
  obtain ⟨idx, hindex, hslot⟩ := exists_slot hvalid
  rw [if_neg (by simpa using hvalid), hindex]
  refine .inr ⟨_, idx, rfl, Consistent.scanFirst ?_, hslot, removeServerScanNext_servers ..,
    removeServerScanNext_index ..⟩
  refine sound.withoutServer (sound.slots.vacate hslot) hslot rfl rfl rfl
    (fun other hne => update_of_ne hne _ _) ?_ fun _ _ => Iff.rfl
  have hnonneg := sound.validate_iff.mp hvalid
  rw [sound.idle, update_self]
  omega

/-- `SetHibernated`. -/
theorem setHibernated (server : ℕ) :
    map.validate server = false ∧ map.setHibernated server = (false, map) ∨
      ∃ (next : CSMap) (idx : ℕ), map.setHibernated server = (true, next) ∧
        next.Sound sets (if map.chunkCount server = 0 then asleep else server :: asleep) ∧
        map.servers[idx]? = some (some server) ∧
        next.servers = map.servers.set idx none ∧
        next.index = update map.index server (-1) := by
  rw [CSMap.setHibernated]
  by_cases hvalid : map.validate server = true
  swap
  · exact .inl ⟨by simpa using hvalid, if_pos (.inl hvalid)⟩
  obtain ⟨idx, hindex, hslot⟩ := exists_slot hvalid
  have hawake : map.hibernated idx = false := sound.slots.hibernated_eq_false (by simp [hslot])
  rw [if_neg (by simp [hvalid, hindex, hawake]), hindex]
  refine .inr ⟨_, idx, rfl, ⟨?_, sound.scanning⟩, hslot, rfl, rfl⟩
  refine sound.withoutServer (sound.slots.hibernate hslot) hslot rfl rfl rfl (fun _ _ => rfl) ?_ ?_
  · split_ifs with hzero
    · rw [sound.idle]
      omega
    · simp [hzero]
  · intro other hne
    split_ifs
    · rfl
    · simp [hne]

/-- `RemoveHibernatedServer`. -/
theorem removeHibernatedServer (idx : ℕ) :
    ∃ answer next, map.removeHibernatedServer idx = (answer, next) ∧ next.Sound sets asleep ∧
      next.servers = map.servers ∧ next.index = map.index := by
  rw [CSMap.removeHibernatedServer]
  by_cases hrefused : kMaxServers ≤ idx ∨ ¬ map.hibernated idx = true
  · exact ⟨false, map, if_pos hrefused, sound, rfl, rfl⟩
  · rw [if_neg hrefused]
    have hhibernated : map.hibernated idx = true := by simpa using (not_or.mp hrefused).2
    refine ⟨true, _, rfl, Consistent.scanFirst ?_, removeServerScanNext_servers ..,
      removeServerScanNext_index ..⟩
    exact ⟨sound.slots.forget hhibernated, sound.listing, sound.filed, sound.referred,
      sound.hosted, sound.idle⟩

end Sound

end CSMap

end QfsRepair.ChunkMap
