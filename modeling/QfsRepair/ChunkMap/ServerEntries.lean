import QfsRepair.ChunkMap.IndexRuns
import QfsRepair.ChunkMap.ServerMap
import Mathlib.Data.List.Induction

/-!
# Entries of the map from chunks to servers

What the map does with the entry of one chunk, in terms of the list of indices
that the entry represents: all indices are read, all are dropped, or those of
removed servers are.
-/

namespace QfsRepair.ChunkMap

open Machine.PackedWord List

theorem mapM_range_eq {Item : Type*} {list : List Item} {value : ℕ → Option Item}
    (hvalue : ∀ (position : ℕ) (h : position < list.length), value position = some list[position]) :
    (List.range list.length).mapM value = some list := by
  induction list using reverseRecOn with
  | nil => rfl
  | append_singleton list last ih =>
    have hlist := ih fun position h => by
      rw [hvalue position (by rw [length_append]; omega), getElem_append_left]
    have hlast := hvalue list.length (by simp)
    rw [getElem_concat_length rfl] at hlast
    rw [length_append, length_singleton, range_succ, mapM_append, hlist, mapM_cons, hlast]
    rfl

namespace Entry

variable {entry : Entry} {set : ServerSet}

theorem Represents.indexes_eq (represents : Represents entry set) (proper : set.Proper) :
    entry.indexes = some set.indices := by
  have agrees := represents.agrees proper
  rw [indexes, agrees.serverCount]
  exact mapM_range_eq agrees.indexAt

theorem Represents.clearServers (represents : Represents entry set) :
    ∃ cleared, entry.clearServers = some cleared ∧
      Represents cleared { set with indices := [] } := by
  obtain ⟨marker, capacity, stored, hcapacity⟩ := represents
  have hstate := set.state.code_lt
  have hempty : Represents ⟨set.state.code, none⟩ { set with indices := [] } := by
    have hinline : Stored ⟨wordAt 4 0 [] set.state.code, none⟩ [] 0 [] set.state.code :=
      .inline (by simp)
    exact ⟨[], 0, by simpa [wordAt] using hinline, by omega⟩
  have hget := stored.getState_eq hstate
  cases stored with
  | inline hlength =>
    refine ⟨_, ?_, hempty⟩
    rw [Entry.clearServers, if_neg (by rw [isAddr_inline hstate]; decide)]
    exact congrArg (fun word => some (Entry.mk word none)) hget
  | allocated holds hlength =>
    refine ⟨_, ?_, hempty⟩
    rw [Entry.clearServers, if_pos (isAddr_allocated holds.aligned hstate)]
    exact addrClear_eq holds hstate hcapacity

end Entry

namespace SlotTable

variable (table : SlotTable)

/-- The server in a slot. -/
def serverAt (idx : ℕ) : Option ℕ := table.servers[idx]?.join

/-- The slot is that of a removed server. -/
def isStale (idx : ℕ) : Bool := table.serverAt idx = none && !table.hibernated idx

/-- The servers in some slots. -/
def serversOf (indices : List ℕ) : List ℕ := indices.filterMap table.serverAt

end SlotTable

namespace CSMap

open SlotTable (serverAt isStale serversOf)

variable {map : CSMap} {entry : Entry} {set : ServerSet}

theorem removeIndex_represents {idx : ℕ} (alloc : Allocation)
    (represents : entry.Represents set) (proper : set.Proper) (hidx : idx ∈ set.indices) :
    ∃ removed, entry.removeIndex idx alloc = some (true, removed) ∧
      removed.Represents { set with indices := set.indices.erase idx } ∧
      ({ set with indices := set.indices.erase idx } : ServerSet).Proper := by
  have hvalid : (EntryCall.removeIndex idx).Valid := proper.lt idx hidx
  have hproper := proper.call hvalid
  obtain ⟨removed, hremoved, hrepresents⟩ :=
    @Entry.Represents.call entry set represents proper ⟨.removeIndex idx, alloc⟩ hvalid
      (by rintro _ ⟨⟩)
  simp only [ServerSet.call, if_pos hidx] at hremoved hrepresents hproper
  exact ⟨removed, hremoved, hrepresents, hproper⟩

/-- From a position on, the loop drops the indices of removed servers and lists
the servers of the others. -/
theorem cleanupLoop_spec (allocs : ℕ → Allocation) {kept rest servers : List ℕ}
    {hibernatedCount : ℕ} (represents : entry.Represents set) (proper : set.Proper)
    (hindices : set.indices = kept ++ rest) (hslots : ∀ idx ∈ rest, idx < map.servers.length) :
    ∃ cleaned count, map.cleanupLoop allocs rest.length kept.length entry servers hibernatedCount =
        some (cleaned, kept.length + (rest.filter fun idx => !map.isStale idx).length,
          servers ++ map.serversOf rest, count) ∧
      cleaned.Represents
        { set with indices := kept ++ rest.filter fun idx => !map.isStale idx } := by
  induction rest generalizing kept servers hibernatedCount entry set with
  | nil =>
    refine ⟨entry, hibernatedCount, by simp [cleanupLoop, serversOf], ?_⟩
    rw [filter_nil, ← hindices]
    exact represents
  | cons idx rest ih =>
    have agrees := represents.agrees proper
    have hposition : kept.length < set.indices.length := by
      rw [hindices, length_append, length_cons]
      omega
    have hat : entry.indexAt kept.length = some idx := by
      rw [agrees.indexAt kept.length hposition]
      simp [hindices]
    have hslot := hslots idx mem_cons_self
    have hrest := fun other hother => hslots other (mem_cons_of_mem idx hother)
    have hsplit : set.indices = (kept ++ [idx]) ++ rest := by
      rw [hindices, append_assoc, singleton_append]
    rw [length_cons, cleanupLoop, hat]
    simp only [Option.bind_eq_bind, Option.bind_some, getElem?_eq_getElem hslot]
    cases hserver : map.servers[idx] with
    | some server =>
      have hfound : map.serverAt idx = some server := by
        rw [serverAt, getElem?_eq_getElem hslot, hserver]
        rfl
      have hkept : map.isStale idx = false := by simp [isStale, hfound]
      obtain ⟨cleaned, count, hloop, hcleaned⟩ :=
        @ih entry set (kept ++ [idx]) (servers ++ [server]) hibernatedCount represents proper
          hsplit hrest
      refine ⟨cleaned, count, ?_, ?_⟩
      · rw [length_append, length_singleton] at hloop
        dsimp only
        rw [hloop, filter_cons_of_pos (by simp [hkept]), length_cons, serversOf,
          serversOf, filterMap_cons_some hfound, append_assoc,
          singleton_append, add_assoc, add_comm 1]
      · rwa [append_assoc, singleton_append, ← filter_cons_of_pos (by simp [hkept])] at hcleaned
    | none =>
      have hfound : map.serverAt idx = none := by
        rw [serverAt, getElem?_eq_getElem hslot, hserver]
        rfl
      by_cases hhibernated : map.hibernated idx = true
      · have hkept : map.isStale idx = false := by simp [isStale, hhibernated]
        obtain ⟨cleaned, count, hloop, hcleaned⟩ :=
          @ih entry set (kept ++ [idx]) servers (hibernatedCount + 1) represents proper hsplit
            hrest
        refine ⟨cleaned, count, ?_, ?_⟩
        · rw [length_append, length_singleton] at hloop
          rw [if_pos hhibernated, hloop, filter_cons_of_pos (by simp [hkept]),
            length_cons, serversOf, serversOf, filterMap_cons_none hfound,
            add_assoc, add_comm 1]
        · rwa [append_assoc, singleton_append, ← filter_cons_of_pos (by simp [hkept])] at hcleaned
      · have hmem : idx ∈ set.indices := hindices ▸ mem_append_right _ mem_cons_self
        have hnot : idx ∉ kept := by
          have hnodup := proper.nodup
          rw [hindices] at hnodup
          exact fun hkept => disjoint_of_nodup_append hnodup hkept mem_cons_self
        obtain ⟨removed, hremoved, hrepresents, hproper⟩ := removeIndex_represents
          (allocs (kept.length + (rest.length + 1))) represents proper hmem
        have herase : set.indices.erase idx = kept ++ rest := by
          rw [hindices, erase_append_right _ hnot, erase_cons_head]
        have hstale : map.isStale idx = true := by simp [isStale, hfound, hhibernated]
        obtain ⟨cleaned, count, hloop, hcleaned⟩ :=
          @ih removed { set with indices := set.indices.erase idx } kept servers
            hibernatedCount hrepresents hproper herase hrest
        refine ⟨cleaned, count, ?_, ?_⟩
        · rw [if_neg hhibernated, hremoved]
          dsimp only [Option.bind_some]
          rw [hloop, filter_cons_of_neg (by simp [hstale]), serversOf, serversOf,
            filterMap_cons_none hfound]
        · rw [filter_cons_of_neg (by simp [hstale])]
          exact hcleaned

end CSMap

end QfsRepair.ChunkMap
