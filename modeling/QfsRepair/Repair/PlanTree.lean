import QfsRepair.Graph.TimedTree
import QfsRepair.Repair.Selection

/-!
# Repair plans are reduction trees

The layout of each code is a reduction tree over its slots, and the slots hold
the names of the selected servers, so the operation table is a reduction tree
over the selected servers.
-/

namespace QfsRepair.Repair

open Store Graph List KeyedList

namespace LayoutManager

variable (layout : LayoutManager) {serverCountNeeded : ℕ} {haveCache : List (Name × Bool)}
  {selectedSources : List (ChunkServerPtr × Bool)}

/-! ## The slots of the selected servers -/

theorem nodup_getServersWhichHaveCache (chunkIds : List ℤ)
    (hnodup : (KeyedList.keys haveCache).Nodup) :
    (KeyedList.keys (layout.getServersWhichHaveCache chunkIds haveCache)).Nodup := by
  induction chunkIds generalizing haveCache with
  | nil => exact hnodup
  | cons chunkId chunkIds ih =>
    rw [getServersWhichHaveCache, foldl_cons]
    cases layout.chunkIdToCacheServerMap chunkId with
    | none => exact ih hnodup
    | some serverName => exact ih (nodup_keys_assign hnodup)

/-- The names of selected servers that have a cached chunk. -/
def cachedNames (haveCache : List (Name × Bool)) (selectedSources : List (ChunkServerPtr × Bool)) :
    List Name :=
  (KeyedList.keys haveCache).filter (layout.doesServerNameMatch selectedSources)

/-- The names of selected servers that are not marked as having one. -/
def otherNames (selectedSources : List (ChunkServerPtr × Bool)) : List Name :=
  (selectedSources.filter (!·.2)).map fun entry => layout.getHostPortStr entry.1

theorem ne_nil_of_match {name : Name}
    (hmatch : layout.doesServerNameMatch selectedSources name = true) : name ≠ [] := by
  obtain ⟨entry, -, hname⟩ := any_eq_true.mp hmatch
  rw [← of_decide_eq_true hname]
  exact hostPortStr_ne_nil _

variable {names : List Name} {slots : Slots}

theorem holds_assignCached (heven : serverCountNeeded % 2 = 0)
    (hholds : Slots.HoldsCached serverCountNeeded slots names)
    (hroom : (layout.cachedNames haveCache selectedSources).length + names.length ≤
      serverCountNeeded) :
    Slots.HoldsCached serverCountNeeded
      (haveCache.foldl
        (fun slots entry =>
          if layout.doesServerNameMatch selectedSources entry.1 then
            slots.putCached serverCountNeeded entry.1
          else slots)
        slots)
      ((layout.cachedNames haveCache selectedSources).reverse ++ names) := by
  induction haveCache generalizing slots names with
  | nil => exact hholds
  | cons entry rest ih =>
    rw [foldl_cons]
    by_cases hmatch : layout.doesServerNameMatch selectedSources entry.1 = true
    · have hcons : layout.cachedNames (entry :: rest) selectedSources =
          entry.1 :: layout.cachedNames rest selectedSources := filter_cons_of_pos hmatch
      rw [hcons, length_cons] at hroom
      rw [if_pos hmatch, hcons, reverse_cons, append_assoc, singleton_append]
      refine ih (hholds.putCached heven (by omega) (layout.ne_nil_of_match hmatch)) ?_
      rw [length_cons]
      omega
    · have hskip : layout.cachedNames (entry :: rest) selectedSources =
          layout.cachedNames rest selectedSources := filter_cons_of_neg hmatch
      rw [if_neg hmatch, hskip]
      exact ih hholds (hskip ▸ hroom)

theorem holds_assignOther (hholds : Slots.Holds serverCountNeeded slots names)
    (hroom : (layout.otherNames selectedSources).length + names.length ≤ serverCountNeeded) :
    Slots.Holds serverCountNeeded
      (layout.assignOtherServers serverCountNeeded selectedSources slots)
      ((layout.otherNames selectedSources).reverse ++ names) := by
  induction selectedSources generalizing slots names with
  | nil => exact hholds
  | cons entry rest ih =>
    obtain ⟨server, flag⟩ := entry
    cases flag with
    | true => exact ih hholds hroom
    | false =>
      have hcons : layout.otherNames ((server, false) :: rest) =
          layout.getHostPortStr server :: layout.otherNames rest := rfl
      rw [hcons, length_cons] at hroom
      rw [hcons, reverse_cons, append_assoc, singleton_append]
      refine ih (hholds.putOther (by omega) (hostPortStr_ne_nil _)) ?_
      rw [length_cons]
      omega

/-- The selected servers with the cached ones first. -/
theorem cached_append_other_perm (hcache : (KeyedList.keys haveCache).Nodup)
    (hflags : ∀ entry ∈ selectedSources, entry.2 = layout.hasCache haveCache entry.1)
    (hnames : ((KeyedList.keys selectedSources).map layout.getHostPortStr).Nodup) :
    (layout.cachedNames haveCache selectedSources ++ layout.otherNames selectedSources).Perm
      ((KeyedList.keys selectedSources).map layout.getHostPortStr) := by
  have hsplit : ((selectedSources.filter (·.2) ++ selectedSources.filter (!·.2)).map
      fun entry => layout.getHostPortStr entry.1).Perm
      ((KeyedList.keys selectedSources).map layout.getHostPortStr) := by
    rw [KeyedList.keys, map_map]
    exact (filter_append_perm (·.2) selectedSources).map _
  rw [map_append] at hsplit
  refine Perm.trans (Perm.append_right _ ?_) hsplit
  have hflagged := (nodup_append.mp (hsplit.nodup_iff.mpr hnames)).1
  refine (perm_ext_iff_of_nodup (hcache.filter _) hflagged).mpr fun name => ?_
  simp only [mem_filter, doesServerNameMatch, any_eq_true, decide_eq_true_eq, mem_map]
  constructor
  · rintro ⟨hmem, entry, hentry, rfl⟩
    refine ⟨entry, ⟨hentry, ?_⟩, rfl⟩
    rw [hflags entry hentry, hasCache, isSome_find]
    exact hmem
  · rintro ⟨entry, ⟨hentry, hflag⟩, rfl⟩
    rw [hflags entry hentry, hasCache, isSome_find] at hflag
    exact ⟨hflag, entry, hentry, rfl⟩

/-- The slots hold the names of the selected servers, each of them once. -/
theorem assignServers_perm (heven : serverCountNeeded % 2 = 0)
    (hcache : (KeyedList.keys haveCache).Nodup)
    (hflags : ∀ entry ∈ selectedSources, entry.2 = layout.hasCache haveCache entry.1)
    (hnames : ((KeyedList.keys selectedSources).map layout.getHostPortStr).Nodup)
    (hlength : selectedSources.length = serverCountNeeded) :
    ((Slots.allSlots serverCountNeeded).map
        (layout.assignServers serverCountNeeded haveCache selectedSources).key).Perm
      ((KeyedList.keys selectedSources).map layout.getHostPortStr) := by
  have hperm := layout.cached_append_other_perm hcache hflags hnames
  have hcount : (layout.cachedNames haveCache selectedSources).length +
      (layout.otherNames selectedSources).length = serverCountNeeded := by
    rw [← length_append, hperm.length_eq, length_map, KeyedList.keys, length_map, hlength]
  have hempty : Slots.HoldsCached serverCountNeeded {} [] := by
    refine ⟨⟨?_, rfl⟩, fun _ _ => rfl, fun index hindex => absurd hindex (Nat.not_lt_zero index)⟩
    rw [Slots.held, filter_eq_nil_iff.mpr (by simp)]
  have hcached : Slots.HoldsCached serverCountNeeded
      (layout.assignCachedServers serverCountNeeded haveCache selectedSources)
      ((layout.cachedNames haveCache selectedSources).reverse ++ []) := by
    refine layout.holds_assignCached heven hempty ?_
    rw [length_nil]
    omega
  rw [append_nil] at hcached
  have hfilled : ∃ names, names.Perm (layout.cachedNames haveCache selectedSources ++
      layout.otherNames selectedSources) ∧ Slots.Holds serverCountNeeded
        (layout.assignServers serverCountNeeded haveCache selectedSources) names := by
    by_cases hmore : (layout.assignCachedServers serverCountNeeded haveCache
        selectedSources).alreadyAssignedCount < serverCountNeeded
    · simp only [assignServers, if_pos hmore]
      refine ⟨_, ?_, layout.holds_assignOther hcached.toHolds ?_⟩
      · exact ((reverse_perm _).append (reverse_perm _)).trans perm_append_comm
      · rw [length_reverse]
        omega
    · simp only [assignServers, if_neg hmore]
      have hfull := hcached.count
      rw [length_reverse] at hfull
      have hnone : layout.otherNames selectedSources = [] :=
        length_eq_zero_iff.mp (by omega)
      refine ⟨_, ?_, hcached.toHolds⟩
      rw [hnone, append_nil]
      exact reverse_perm _
  obtain ⟨names, hsame, hholds⟩ := hfilled
  have hheld := hholds.perm.trans (hsame.trans hperm)
  rw [Slots.map_key_of_full]
  · exact hheld
  · rw [hheld.length_eq, length_map, KeyedList.keys, length_map, hlength]

end LayoutManager

/-! ## The operation table -/

def planEdges (planLayout : PlanLayout) : List (TimedEdge Slot) :=
  planLayout.flatMap fun row => row.2.map fun op => ⟨row.1, op.1, op.2⟩

/-- The table read as edges: the server fetches from the hosting server at the
time. -/
def operationEdges (table : List (Name × OperationMap)) : List (TimedEdge Name) :=
  table.flatMap fun row => row.2.map fun op => ⟨row.1, op.1, op.2.hostingServer⟩

theorem operationMap_perm (keyOf : Slot → Name) {operations : List (ℕ × Slot)}
    (hnodup : (operations.map (·.1)).Nodup) :
    (operationMap keyOf operations).Perm (operations.map fun op => (op.1, ⟨1, keyOf op.2⟩)) := by
  have hassigned := @foldl_assign_perm _ _ _ _ _ []
    (operations.map fun op => (op.1, (⟨1, keyOf op.2⟩ : PartialDecodingInfo)))
    (by rw [KeyedList.keys, map_map]; exact hnodup)
    (fun _ _ => not_mem_nil)
  rwa [foldl_map, append_nil] at hassigned

/-- Where the rows have different keys, the table has the edges of the layout
under the names of the slots. -/
theorem operationEdges_perm (keyOf : Slot → Name) {planLayout : PlanLayout}
    (hrows : (planLayout.map fun row => keyOf row.1).Nodup)
    (htimes : ∀ row ∈ planLayout, (row.2.map (·.1)).Nodup) :
    (operationEdges (planLayout.foldl
        (fun table row => assign (keyOf row.1) (operationMap keyOf row.2) table) [])).Perm
      ((planEdges planLayout).map (TimedEdge.map keyOf)) := by
  have hassigned := @foldl_assign_perm _ _ _ _ _ []
    (planLayout.map fun row => (keyOf row.1, operationMap keyOf row.2))
    (by rw [KeyedList.keys, map_map]; exact hrows)
    (fun _ _ => not_mem_nil)
  rw [foldl_map, append_nil] at hassigned
  refine (hassigned.flatMap_right _).trans ?_
  rw [flatMap_map, planEdges, map_flatMap]
  refine Perm.flatMap_left _ fun row hrow => ?_
  have hrowperm := (operationMap_perm keyOf (htimes row hrow)).map
    fun op => (⟨keyOf row.1, op.1, op.2.hostingServer⟩ : TimedEdge Name)
  rw [map_map] at hrowperm ⊢
  exact hrowperm

/-- What a layout has to meet, for slots in place of servers. -/
@[mk_iff]
structure PlanLayout.IsTree (serverCountNeeded : ℕ) (planLayout : PlanLayout) : Prop where
  positive : 0 < serverCountNeeded
  even : serverCountNeeded % 2 = 0
  rows : (planLayout.map (·.1)).Nodup
  slots : ∀ row ∈ planLayout,
    row.1 = .destination ∨ row.1 ∈ (Slots.allSlots serverCountNeeded).map .source
  times : ∀ row ∈ planLayout, (row.2.map (·.1)).Nodup
  tree : LocalTree (planEdges planLayout) ((Slots.allSlots serverCountNeeded).map .source)
    .destination

instance (serverCountNeeded : ℕ) (planLayout : PlanLayout) :
    Decidable (planLayout.IsTree serverCountNeeded) :=
  decidable_of_iff' _ (PlanLayout.isTree_iff serverCountNeeded planLayout)

/-- The names of the slots and of the destination are different. -/
theorem keyOf_injOn {serverCountNeeded : ℕ} {slots : Slots} {dstKey : Name}
    (hnodup : ((Slots.allSlots serverCountNeeded).map slots.key).Nodup)
    (hdst : dstKey ∉ (Slots.allSlots serverCountNeeded).map slots.key) :
    Set.InjOn (slots.keyOf dstKey)
      {slot | slot = .destination ∨ slot ∈ (Slots.allSlots serverCountNeeded).map .source} := by
  have hsource : ∀ slot, slot ∈ (Slots.allSlots serverCountNeeded).map Slot.source →
      ∃ index ∈ Slots.allSlots serverCountNeeded, slot = .source index := by
    intro slot hslot
    obtain ⟨index, hindex, rfl⟩ := mem_map.mp hslot
    exact ⟨index, hindex, rfl⟩
  rintro left (rfl | hleft) right (rfl | hright) heq
  · rfl
  · obtain ⟨index, hindex, rfl⟩ := hsource right hright
    exact absurd (mem_map.mpr ⟨index, hindex, heq.symm⟩) hdst
  · obtain ⟨index, hindex, rfl⟩ := hsource left hleft
    exact absurd (mem_map.mpr ⟨index, hindex, heq⟩) hdst
  · obtain ⟨index, hindex, rfl⟩ := hsource left hleft
    obtain ⟨other, hother, rfl⟩ := hsource right hright
    exact congrArg Slot.source (inj_on_of_nodup_map hnodup hindex hother heq)

section Populate

variable
  {sort : (ChunkServerPtr → ChunkServerPtr → Bool) → List ChunkServerPtr → List ChunkServerPtr}
  {serverCountNeeded : ℕ} {planLayout : PlanLayout} {sources : List (ℤ × ChunkServerPtr)}
  {destination : ChunkServerPtr}

theorem populateOperationTable_tree (hplan : planLayout.IsTree serverCountNeeded)
    (hsort : IsSort sort) (layout : LayoutManager) (chunkId : ℤ) (chunkIds : List ℤ)
    (hdistinct : ∀ left ∈ sources.map (·.2), ∀ right ∈ sources.map (·.2),
      (layout.chunkServer left).location = (layout.chunkServer right).location → left = right)
    (henough : serverCountNeeded ≤ (sources.map (·.2)).toFinset.card)
    (hdestination : ∀ server ∈ sources.map (·.2),
      (layout.chunkServer server).location ≠ (layout.chunkServer destination).location) :
    ∃ selected : List ChunkServerPtr, selected.Nodup ∧ selected ⊆ sources.map (·.2) ∧
      selected.length = serverCountNeeded ∧
      ReductionTree
        (operationEdges (layout.populateOperationTable sort serverCountNeeded planLayout chunkId
          chunkIds [] sources destination).1)
        (selected.map layout.getHostPortStr) (layout.getHostPortStr destination) := by
  set haveCache := layout.getServersWhichHaveCache chunkIds [] with hhaveCache
  set selectedSources :=
    layout.selectSetOfSourceServers sort haveCache serverCountNeeded sources with hselected
  have hcache : (KeyedList.keys haveCache).Nodup :=
    layout.nodup_getServersWhichHaveCache chunkIds nodup_nil
  have hsorted := hsort.perm _ (layout.sortFunction_isStrictWeakOrder haveCache)
    (sources.map (·.2))
  have hnodup : (KeyedList.keys selectedSources).Nodup :=
    layout.nodup_selectServers _ _ nodup_nil
  have hlength : selectedSources.length = serverCountNeeded := by
    refine layout.length_selectServers _ nodup_nil hplan.positive ?_
    rw [KeyedList.keys, map_nil, nil_append, toFinset_eq_of_perm _ _ hsorted]
    exact henough
  have hmem : ∀ entry ∈ selectedSources, entry.1 ∈ sources.map (·.2) ∧
      entry.2 = layout.hasCache haveCache entry.1 := by
    intro entry hentry
    rcases layout.mem_selectServers _ _ hentry with hnil | ⟨hserver, hflag⟩
    · cases hnil
    · exact ⟨hsorted.mem_iff.mp hserver, hflag⟩
  have hsubset : ∀ server ∈ KeyedList.keys selectedSources, server ∈ sources.map (·.2) := by
    intro server hserver
    obtain ⟨entry, hentry, rfl⟩ := mem_map.mp hserver
    exact (hmem entry hentry).1
  have hnames : ((KeyedList.keys selectedSources).map layout.getHostPortStr).Nodup := by
    refine Nodup.map_on ?_ hnodup
    intro left hleft right hright heq
    exact hdistinct left (hsubset left hleft) right (hsubset right hright)
      (hostPortStr_injective heq)
  have hslots := layout.assignServers_perm hplan.even hcache (fun entry hentry =>
    (hmem entry hentry).2) hnames hlength
  have hdst : layout.getHostPortStr destination ∉ (Slots.allSlots serverCountNeeded).map
      (layout.assignServers serverCountNeeded haveCache selectedSources).key := by
    rw [hslots.mem_iff]
    intro hname
    obtain ⟨server, hserver, heq⟩ := mem_map.mp hname
    exact hdestination server (hsubset server hserver) (hostPortStr_injective heq)
  have hinjective := keyOf_injOn (hslots.nodup_iff.mpr hnames) hdst
  have hrows : (planLayout.map fun row => (layout.assignServers serverCountNeeded haveCache
      selectedSources).keyOf (layout.getHostPortStr destination) row.1).Nodup := by
    have hmapped := Nodup.map_on (fun left hleft right hright heq =>
      hinjective ?_ ?_ heq) hplan.rows
    · rwa [map_map] at hmapped
    · obtain ⟨row, hrow, rfl⟩ := mem_map.mp hleft
      exact hplan.slots row hrow
    · obtain ⟨row, hrow, rfl⟩ := mem_map.mp hright
      exact hplan.slots row hrow
  have hvertices : (((Slots.allSlots serverCountNeeded).map Slot.source).map
      ((layout.assignServers serverCountNeeded haveCache selectedSources).keyOf
        (layout.getHostPortStr destination))).Perm
      ((KeyedList.keys selectedSources).map layout.getHostPortStr) := by
    rw [map_map]
    exact hslots
  have htree := (hplan.tree.map _ hinjective).perm
    (operationEdges_perm _ hrows hplan.times).symm hvertices
  refine ⟨KeyedList.keys selectedSources, hnodup, hsubset, ?_, htree.reductionTree⟩
  rw [KeyedList.keys, length_map, hlength]

end Populate

/-! ## The supported codes -/

inductive RepairCode where
  | code_6_3
  | code_8_3
  | code_10_4
  | code_12_4

namespace RepairCode

/-- The number of data stripes. -/
def stripes : RepairCode → ℕ
  | code_6_3 => 6
  | code_8_3 => 8
  | code_10_4 => 10
  | code_12_4 => 12

/-- The function that plans repairs for the code. -/
def populate :
    RepairCode →
    ((ChunkServerPtr → ChunkServerPtr → Bool) → List ChunkServerPtr → List ChunkServerPtr) →
    LayoutManager → ℤ → List ℤ → List (Name × OperationMap) → List (ℤ × ChunkServerPtr) →
    ChunkServerPtr → List (Name × OperationMap) × LayoutManager
  | code_6_3 => LayoutManager.populateDistributedRepairOperationTable
  | code_8_3 => LayoutManager.populateDistributedRepairOperationTable_For_8_3
  | code_10_4 => LayoutManager.populateDistributedRepairOperationTable_For_10_4
  | code_12_4 => LayoutManager.populateDistributedRepairOperationTable_For_12_4

/-- The operation table of a repair is a reduction tree over as many distinct
source servers as the code has data stripes, rooted at the destination. -/
theorem populate_reductionTree (code : RepairCode)
    {sort : (ChunkServerPtr → ChunkServerPtr → Bool) → List ChunkServerPtr → List ChunkServerPtr}
    (hsort : IsSort sort) (layout : LayoutManager) (chunkId : ℤ) (chunkIds : List ℤ)
    {sources : List (ℤ × ChunkServerPtr)} {destination : ChunkServerPtr}
    (hdistinct : ∀ left ∈ sources.map (·.2), ∀ right ∈ sources.map (·.2),
      (layout.chunkServer left).location = (layout.chunkServer right).location → left = right)
    (henough : code.stripes ≤ (sources.map (·.2)).toFinset.card)
    (hdestination : ∀ server ∈ sources.map (·.2),
      (layout.chunkServer server).location ≠ (layout.chunkServer destination).location) :
    ∃ selected : List ChunkServerPtr, selected.Nodup ∧ selected ⊆ sources.map (·.2) ∧
      selected.length = code.stripes ∧
      ReductionTree
        (operationEdges (code.populate sort layout chunkId chunkIds [] sources destination).1)
        (selected.map layout.getHostPortStr) (layout.getHostPortStr destination) := by
  -- each code has a plan of its own, that is checked to be a tree
  cases code <;>
    exact populateOperationTable_tree (by decide) hsort layout chunkId chunkIds hdistinct henough
      hdestination

end RepairCode

/-- A merge sort is such a sorting function. -/
theorem isSort_mergeSort :
    IsSort fun less servers => servers.mergeSort fun left right => !less right left where
  perm less _ servers := mergeSort_perm servers _
  ordered less hless servers := by
    have htrans : ∀ left middle right : ChunkServerPtr, (!less middle left) = true →
        (!less right middle) = true → (!less right left) = true := by
      simp only [Bool.not_eq_true', ← Bool.not_eq_true]
      intro left middle right hleft hright hless'
      have hmiddle : ¬ less left middle = true := fun hlower =>
        hright (hless.trans right left middle hless' hlower)
      have hright' : ¬ less middle right = true := fun hlower =>
        hleft (hless.trans middle right left hlower hless')
      exact (hless.incomp_trans left middle right ⟨hmiddle, hleft⟩ ⟨hright', hright⟩).2 hless'
    have htotal : ∀ left right : ChunkServerPtr, (!less right left || !less left right) = true := by
      intro left right
      by_contra hboth
      simp only [Bool.or_eq_true, Bool.not_eq_true', not_or, Bool.not_eq_false] at hboth
      exact hless.irrefl left (hless.trans left right left hboth.2 hboth.1)
    refine (pairwise_mergeSort htrans htotal servers).imp ?_
    simp

/-- Servers with the addresses as their ports; chunk 5 is cached by server 3,
chunk 6 by a server that is no source. -/
def sampleLayout : LayoutManager where
  chunkServer server := { location := ⟨['s'], server⟩ }
  chunkIdToCacheServerMap chunkId :=
    if chunkId = 5 then some (ServerLocation.hostPortStr ⟨['s'], 3⟩)
    else if chunkId = 6 then some (ServerLocation.hostPortStr ⟨['s'], 9⟩)
    else none

def sampleSources : List (ℤ × ChunkServerPtr) :=
  [(1, 1), (2, 2), (3, 3), (4, 4), (5, 5), (6, 6), (7, 7)]

theorem populate_reductionTree_sample :
    ∃ selected : List ChunkServerPtr, selected.Nodup ∧ selected ⊆ sampleSources.map (·.2) ∧
      selected.length = RepairCode.code_6_3.stripes ∧
      ReductionTree
        (operationEdges (RepairCode.code_6_3.populate
          (fun less servers => servers.mergeSort fun left right => !less right left)
          sampleLayout 4 [5, 6, 7] [] sampleSources 8).1)
        (selected.map sampleLayout.getHostPortStr) (sampleLayout.getHostPortStr 8) :=
  RepairCode.code_6_3.populate_reductionTree isSort_mergeSort sampleLayout 4 [5, 6, 7]
    (by decide) (by decide) (by decide)

end QfsRepair.Repair
