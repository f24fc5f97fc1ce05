import QfsRepair.ChunkMap.ServerEntries
import Mathlib.Data.List.Perm.Subperm

/-!
# Slots of chunk servers

Every slot of the table holds a server, is hibernated, waits for the end of a
scan, or is free, and a server that holds a slot is told so.
-/

namespace QfsRepair.ChunkMap

open Function List

/-! ## Lists -/

theorem getElem?_set_eq_some {Item : Type*} {list : List Item} {idx other : ℕ} {new value : Item}
    (hlt : idx < list.length) :
    (list.set idx new)[other]? = some value ↔
      other ≠ idx ∧ list[other]? = some value ∨ other = idx ∧ value = new := by
  by_cases heq : other = idx
  · subst heq
    simp [hlt, eq_comm]
  · rw [getElem?_set_ne (Ne.symm heq)]
    simp [heq]

/-- One item more is counted. -/
theorem countP_eq_add_one {Item : Type*} {list : List Item} {item : Item} {old new : Item → Bool}
    (hnodup : list.Nodup) (hmem : item ∈ list) (hold : old item = false) (hnew : new item = true)
    (hother : ∀ other, other ≠ item → new other = old other) :
    list.countP new = list.countP old + 1 := by
  obtain ⟨left, right, rfl⟩ := append_of_mem hmem
  have hfresh : ∀ part : List Item, item ∉ part → part.countP new = part.countP old :=
    fun part hpart => countP_congr fun other hin => by
      rw [hother other (ne_of_mem_of_not_mem hin hpart)]
  obtain ⟨-, hright, hdisjoint⟩ := nodup_append'.mp hnodup
  have hleft : item ∉ left := fun hin => hdisjoint hin mem_cons_self
  rw [countP_append, countP_append, hfresh left hleft, countP_cons_of_pos hnew,
    countP_cons_of_neg (by simp [hold]), hfresh right (nodup_cons.mp hright).1]
  rfl

namespace SlotTable

/-! ## The slots -/

/-- The slots of removed servers. -/
def vacant (table : SlotTable) : List ℕ := table.pendingRemove ++ table.nullSlots

structure Sound (table : SlotTable) : Prop where
  nodup : table.vacant.Nodup
  mem_vacant : ∀ idx : ℕ, idx ∈ table.vacant ↔
    table.servers[idx]? = some none ∧ table.hibernated idx = false
  hibernated_slot : ∀ idx : ℕ, table.hibernated idx = true → table.servers[idx]? = some none
  count : table.serverCount + table.vacant.length = table.servers.length
  bound : table.servers.length ≤ kMaxServers
  hibernated_count : table.hibernatedCount =
    (List.range table.servers.length).countP table.hibernated
  index : ∀ server idx : ℕ, table.servers[idx]? = some (some server) ↔
    table.index server = (idx : ℤ)

variable {table : SlotTable} {server idx : ℕ}

theorem serverAt_eq_some :
    table.serverAt idx = some server ↔ table.servers[idx]? = some (some server) := by
  rw [serverAt, Option.join_eq_some_iff]

namespace Sound

variable (sound : table.Sound)

include sound

theorem server_unique {other : ℕ} (hidx : table.servers[idx]? = some (some server))
    (hother : table.servers[other]? = some (some server)) : idx = other := by
  have hindex := (sound.index server idx).mp hidx
  rw [(sound.index server other).mp hother] at hindex
  exact (Int.ofNat.inj hindex).symm

/-- Among the slots that are not free, those of removed servers wait for the end
of the scan. -/
theorem isStale_eq (hslot : idx < table.servers.length) (hnull : idx ∉ table.nullSlots) :
    table.isStale idx = decide (idx ∈ table.pendingRemove) := by
  have hvacant := sound.mem_vacant idx
  rw [vacant, mem_append, or_iff_left hnull, getElem?_eq_getElem hslot] at hvacant
  rw [isStale, serverAt, getElem?_eq_getElem hslot]
  simp [hvacant]

theorem hibernatedCount_pos (hidx : table.hibernated idx = true) :
    table.hibernatedCount ≠ 0 := by
  have hslot := (List.getElem?_eq_some_iff.mp (sound.hibernated_slot idx hidx)).1
  have hpos := countP_pos_iff.mpr ⟨idx, mem_range.mpr hslot, hidx⟩
  rw [sound.hibernated_count]
  omega

theorem hibernated_eq_false (hidx : table.servers[idx]? ≠ some none) :
    table.hibernated idx = false :=
  Bool.eq_false_iff.mpr fun htrue => hidx (sound.hibernated_slot idx htrue)

theorem bound_set (value : Option ℕ) : (table.servers.set idx value).length ≤ kMaxServers := by
  rw [length_set]
  exact sound.bound

theorem hibernated_count_set (value : Option ℕ) :
    table.hibernatedCount =
      (List.range (table.servers.set idx value).length).countP table.hibernated := by
  rw [length_set]
  exact sound.hibernated_count

theorem hibernated_slot_set (hlt : idx < table.servers.length) (hidx : table.hibernated idx = false)
    (value : Option ℕ) (other : ℕ) (hother : table.hibernated other = true) :
    (table.servers.set idx value)[other]? = some none := by
  refine (getElem?_set_eq_some hlt).mpr (.inl ⟨?_, sound.hibernated_slot other hother⟩)
  rintro rfl
  rw [hidx] at hother
  cases hother

section

variable (hnew : ∀ idx : ℕ, table.servers[idx]? ≠ some (some server))

include hnew

/-- A new slot for a server that has none. -/
theorem push (hnull : table.nullSlots = [])
    (hcapacity : table.serverCount + table.pendingRemove.length < kMaxServers) :
    Sound { table with
      serverCount := table.serverCount + 1
      servers := table.servers ++ [some server]
      index := update table.index server table.servers.length } := by
  have hvacant : table.vacant = table.pendingRemove := by rw [vacant, hnull, append_nil]
  have hcount := sound.count
  rw [hvacant] at hcount
  have hlast : table.hibernated table.servers.length = false :=
    sound.hibernated_eq_false (by simp)
  have hslots : ∀ (idx : ℕ) (value : Option ℕ),
      (table.servers ++ [some server])[idx]? = some value ↔
        table.servers[idx]? = some value ∨ idx = table.servers.length ∧ value = some server := by
    intro idx value
    rcases Nat.lt_trichotomy idx table.servers.length with hlt | rfl | hgt
    · rw [getElem?_append_left hlt]
      simp [hlt.ne]
    · simp [eq_comm]
    · rw [getElem?_eq_none (by simp; omega), getElem?_eq_none hgt.le]
      simp [hgt.ne']
  refine ⟨sound.nodup, ?_, ?_, ?_, ?_, ?_, ?_⟩
  · intro idx
    rw [hslots]
    simpa [vacant] using sound.mem_vacant idx
  · intro idx hidx
    exact (hslots idx none).mpr (.inl (sound.hibernated_slot idx hidx))
  · change table.serverCount + 1 + table.vacant.length = _
    rw [length_append, length_singleton, ← sound.count]
    omega
  · rw [length_append, length_singleton]
    omega
  · rw [length_append, length_singleton, range_succ, countP_append,
      countP_singleton, hlast, sound.hibernated_count]
    simp
  · intro other idx
    change (table.servers ++ [some server])[idx]? = _ ↔ update _ _ _ other = _
    rw [hslots, update_apply]
    split_ifs with heq
    · subst heq
      simp [hnew idx, eq_comm]
    · rw [sound.index]
      simp [heq]

/-- The last free slot for a server that has none. -/
theorem reuse (hlast : table.nullSlots.getLast? = some idx) :
    Sound { table with
      serverCount := table.serverCount + 1
      nullSlots := table.nullSlots.dropLast
      servers := table.servers.set idx (some server)
      index := update table.index server idx } := by
  obtain ⟨init, hinit⟩ := getLast?_eq_some_iff.mp hlast
  have hvacant : table.vacant = (table.pendingRemove ++ init) ++ [idx] := by
    rw [vacant, hinit, append_assoc]
  have hmem : idx ∈ table.vacant := by
    rw [hvacant]
    exact mem_append_right _ mem_cons_self
  obtain ⟨hslot, hhibernated⟩ := (sound.mem_vacant idx).mp hmem
  have hlt := (List.getElem?_eq_some_iff.mp hslot).1
  have hnodup := sound.nodup
  rw [hvacant] at hnodup
  have hnot : idx ∉ table.pendingRemove ++ init := fun hin =>
    disjoint_of_nodup_append hnodup hin mem_cons_self
  refine ⟨?_, ?_, sound.hibernated_slot_set hlt hhibernated _, ?_, sound.bound_set _,
    sound.hibernated_count_set _, ?_⟩
  · rw [hinit, dropLast_concat]
    exact hnodup.of_append_left
  · intro other
    change other ∈ table.pendingRemove ++ table.nullSlots.dropLast ↔ _
    have hother := sound.mem_vacant other
    rw [hvacant, mem_append] at hother
    rw [hinit, getElem?_set_eq_some hlt]
    by_cases heq : other = idx
    · subst heq
      simp [hnot]
    · simpa [heq] using hother
  · change table.serverCount + 1 + (table.pendingRemove ++ table.nullSlots.dropLast).length = _
    have hlength := congrArg length hvacant
    rw [length_append, length_singleton] at hlength
    rw [length_set, ← sound.count, hinit, dropLast_concat]
    omega
  · intro other slot
    change (table.servers.set idx (some server))[slot]? = _ ↔ update _ _ _ other = _
    rw [getElem?_set_eq_some hlt, update_apply]
    split_ifs with heq
    · subst heq
      simp [hnew slot, eq_comm]
    · rw [← sound.index]
      constructor
      · rintro (⟨-, hin⟩ | ⟨-, hself⟩)
        · exact hin
        · exact absurd (Option.some.inj hself) heq
      · intro hin
        refine .inl ⟨?_, hin⟩
        rintro rfl
        rw [hslot] at hin
        cases hin

end

/-- A slot with a server is not among those of removed servers. -/
theorem vacant_length_lt (hlt : idx < table.servers.length) (hnot : idx ∉ table.vacant) :
    table.vacant.length < table.servers.length := by
  have hnodup : (idx :: table.vacant).Nodup := nodup_cons.mpr ⟨hnot, sound.nodup⟩
  have hsubset : idx :: table.vacant ⊆ range table.servers.length := by
    intro other hother
    rcases mem_cons.mp hother with rfl | hvacant
    · exact mem_range.mpr hlt
    · exact mem_range.mpr
        (List.getElem?_eq_some_iff.mp ((sound.mem_vacant other).mp hvacant).1).1
  have hle := (hnodup.subperm hsubset).length_le
  rwa [length_range] at hle

theorem nodup_pend (hnot : idx ∉ table.vacant) :
    (table.pendingRemove ++ [idx] ++ table.nullSlots).Nodup := by
  rw [append_assoc]
  exact nodup_middle.mpr (nodup_cons.mpr ⟨hnot, sound.nodup⟩)

section

variable (hidx : table.servers[idx]? = some (some server))

include hidx

theorem index_without (other slot : ℕ) :
    (table.servers.set idx none)[slot]? = some (some other) ↔
      update table.index server (-1) other = (slot : ℤ) := by
  rw [getElem?_set_eq_some (List.getElem?_eq_some_iff.mp hidx).1, update_apply]
  split_ifs with heq
  · subst heq
    constructor
    · rintro (⟨hne, hin⟩ | ⟨-, hnone⟩)
      · exact absurd (sound.server_unique hin hidx) hne
      · cases hnone
    · exact False.elim
  · rw [← sound.index]
    constructor
    · rintro (⟨-, hin⟩ | ⟨-, hnone⟩)
      · exact hin
      · cases hnone
    · intro hin
      refine .inl ⟨?_, hin⟩
      rintro rfl
      rw [hidx] at hin
      exact heq (Option.some.inj (Option.some.inj hin)).symm

/-- A removed server leaves its slot to the scan. -/
theorem vacate :
    Sound { table with
      servers := table.servers.set idx none
      pendingRemove := table.pendingRemove ++ [idx]
      index := update table.index server (-1)
      serverCount := table.serverCount - 1 } := by
  have hlt := (List.getElem?_eq_some_iff.mp hidx).1
  have hnot : idx ∉ table.vacant := fun hmem => by
    rw [((sound.mem_vacant idx).mp hmem).1] at hidx
    cases hidx
  have hhibernated := sound.hibernated_eq_false (by simp [hidx] : table.servers[idx]? ≠ _)
  have hcount := sound.count
  have hroom := sound.vacant_length_lt hlt hnot
  refine ⟨sound.nodup_pend hnot, ?_, sound.hibernated_slot_set hlt hhibernated _, ?_,
    sound.bound_set _, sound.hibernated_count_set _, sound.index_without hidx⟩
  · intro other
    change other ∈ table.pendingRemove ++ [idx] ++ table.nullSlots ↔ _
    have hother := sound.mem_vacant other
    rw [vacant] at hother
    rw [getElem?_set_eq_some hlt]
    by_cases heq : other = idx
    · subst heq
      simp [hhibernated]
    · simpa [heq] using hother
  · change table.serverCount - 1 + (table.pendingRemove ++ [idx] ++ table.nullSlots).length = _
    rw [vacant] at hcount hroom
    simp only [length_append, length_singleton, length_set] at hcount hroom ⊢
    omega

/-- A hibernated server keeps its slot. -/
theorem hibernate :
    Sound { table with
      hibernated := update table.hibernated idx true
      hibernatedCount := table.hibernatedCount + 1
      servers := table.servers.set idx none
      index := update table.index server (-1) } := by
  have hlt := (List.getElem?_eq_some_iff.mp hidx).1
  have hhibernated := sound.hibernated_eq_false (by simp [hidx] : table.servers[idx]? ≠ _)
  refine ⟨sound.nodup, ?_, ?_, ?_, sound.bound_set _, ?_, sound.index_without hidx⟩
  · intro other
    change other ∈ table.vacant ↔ (table.servers.set idx none)[other]? = some none ∧
      update table.hibernated idx true other = false
    rw [sound.mem_vacant, getElem?_set_eq_some hlt]
    by_cases heq : other = idx
    · subst heq
      simp [hidx]
    · simp [heq]
  · intro other hother
    change update table.hibernated idx true other = true at hother
    rw [update_apply] at hother
    refine (getElem?_set_eq_some hlt).mpr ?_
    by_cases heq : other = idx
    · exact .inr ⟨heq, rfl⟩
    · rw [if_neg heq] at hother
      exact .inl ⟨heq, sound.hibernated_slot other hother⟩
  · change table.serverCount + table.vacant.length = _
    rw [length_set, sound.count]
  · rw [length_set, sound.hibernated_count]
    exact (countP_eq_add_one nodup_range (mem_range.mpr hlt) hhibernated (by simp)
      fun other hother => update_of_ne hother _ _).symm

end

/-- The slot of a hibernated server that is removed is left to the scan. -/
theorem forget (hidx : table.hibernated idx = true) :
    Sound { table with
      hibernated := update table.hibernated idx false
      hibernatedCount := table.hibernatedCount - 1
      pendingRemove := table.pendingRemove ++ [idx]
      serverCount := table.serverCount - 1 } := by
  have hslot := sound.hibernated_slot idx hidx
  have hlt := (List.getElem?_eq_some_iff.mp hslot).1
  have hnot : idx ∉ table.vacant := fun hmem => by
    rw [((sound.mem_vacant idx).mp hmem).2] at hidx
    cases hidx
  have hcount := sound.count
  have hroom := sound.vacant_length_lt hlt hnot
  refine ⟨sound.nodup_pend hnot, ?_, ?_, ?_, sound.bound, ?_, sound.index⟩
  · intro other
    change other ∈ table.pendingRemove ++ [idx] ++ table.nullSlots ↔
      table.servers[other]? = some none ∧ update table.hibernated idx false other = false
    have hother := sound.mem_vacant other
    rw [vacant] at hother
    by_cases heq : other = idx
    · subst heq
      simp [hslot]
    · simpa [heq] using hother
  · intro other hother
    change update table.hibernated idx false other = true at hother
    rw [update_apply] at hother
    split_ifs at hother
    exact sound.hibernated_slot other hother
  · change table.serverCount - 1 + (table.pendingRemove ++ [idx] ++ table.nullSlots).length = _
    rw [vacant] at hcount hroom
    simp only [length_append, length_singleton] at hcount hroom ⊢
    omega
  · have hmore := countP_eq_add_one (nodup_range) (mem_range.mpr hlt)
      (show update table.hibernated idx false idx = false by simp) hidx
      fun other hother => (update_of_ne hother _ _).symm
    rw [sound.hibernated_count, hmore, Nat.add_sub_cancel]

/-- At the end of the scan the slots of removed servers are free. -/
theorem release :
    Sound { table with
      nullSlots := table.nullSlots ++ table.pendingRemove
      pendingRemove := [] } := by
  have hperm : (table.nullSlots ++ table.pendingRemove).Perm table.vacant := perm_append_comm
  refine ⟨hperm.nodup_iff.mpr sound.nodup, ?_, sound.hibernated_slot, ?_, sound.bound,
    sound.hibernated_count, sound.index⟩
  · intro other
    change other ∈ table.nullSlots ++ table.pendingRemove ↔ _
    rw [hperm.mem_iff]
    exact sound.mem_vacant other
  · change table.serverCount + (table.nullSlots ++ table.pendingRemove).length = _
    rw [hperm.length_eq]
    exact sound.count

end Sound

/-! ## Servers in slots -/

variable {indices : List ℕ} {other : SlotTable}

theorem serversOf_congr (hsame : ∀ idx ∈ indices, other.serverAt idx = table.serverAt idx) :
    other.serversOf indices = table.serversOf indices :=
  filterMap_congr hsame

theorem serversOf_eq_of_servers (hservers : other.servers = table.servers) :
    other.serversOf = table.serversOf := by
  funext indices
  refine serversOf_congr fun idx _ => ?_
  rw [serverAt, serverAt, hservers]

/-- The slots of removed servers hold no server. -/
theorem serversOf_filter_isStale :
    table.serversOf (indices.filter fun idx => !table.isStale idx) = table.serversOf indices := by
  rw [serversOf, filterMap_filter]
  refine filterMap_congr fun idx _ => ?_
  cases hserver : table.serverAt idx <;> simp [isStale, hserver]

variable (sound : table.Sound)

include sound

variable (hidx : table.servers[idx]? = some (some server))

include hidx

theorem Sound.mem_serversOf :
    server ∈ table.serversOf indices ↔ idx ∈ indices := by
  rw [serversOf, mem_filterMap]
  constructor
  · rintro ⟨other, hother, hserver⟩
    rwa [sound.server_unique hidx (serverAt_eq_some.mp hserver)]
  · exact fun hmem => ⟨idx, hmem, serverAt_eq_some.mpr hidx⟩

theorem Sound.serversOf_erase (hnodup : indices.Nodup) :
    table.serversOf (indices.erase idx) =
      (table.serversOf indices).filter fun other => other ≠ server := by
  rw [hnodup.erase_eq_filter, serversOf, serversOf, filterMap_filter, filter_filterMap]
  refine filterMap_congr fun other _ => ?_
  by_cases heq : other = idx
  · subst heq
    simp [serverAt_eq_some.mpr hidx, Option.filter]
  · cases hother : table.serverAt other with
    | none => simp
    | some found =>
      have hne : found ≠ server := by
        rintro rfl
        exact heq (sound.server_unique (serverAt_eq_some.mp hother) hidx)
      simp [heq, hne, Option.filter]

/-- The other servers stay when the slot of one becomes empty. -/
theorem Sound.serversOf_set_none (hother : other.servers = table.servers.set idx none) :
    other.serversOf indices = (table.serversOf indices).filter fun other => other ≠ server := by
  have hlt := (List.getElem?_eq_some_iff.mp hidx).1
  rw [serversOf, serversOf, filter_filterMap]
  refine filterMap_congr fun slot _ => ?_
  rw [serverAt, hother]
  by_cases heq : slot = idx
  · subst heq
    simp [serverAt_eq_some.mpr hidx, hlt, Option.filter]
  · rw [getElem?_set_ne (Ne.symm heq)]
    cases hslot : table.serverAt slot with
    | none => exact hslot
    | some found =>
      have hne : found ≠ server := by
        rintro rfl
        exact heq (sound.server_unique (serverAt_eq_some.mp hslot) hidx)
      rw [serverAt] at hslot
      simp [hslot, hne, Option.filter]

end SlotTable

end QfsRepair.ChunkMap
