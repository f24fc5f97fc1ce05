import QfsRepair.Repair.Plan
import Mathlib.Data.Finset.Card

/-!
# The selected servers and their slots

The selection ends with as many distinct servers as the code needs.  Each
assignment puts a name into an empty slot, and the slots of the servers with a
cached chunk never run into each other, so in the end the slots hold exactly
the names of the selected servers.
-/

namespace QfsRepair.Repair

open Function List
open Store Text KeyedList

/-! ## Names of servers -/

theorem hostPortStr_ne_nil (location : ServerLocation) : location.hostPortStr ≠ [] := by
  simp [ServerLocation.hostPortStr]

/-- The text behind the last separator is the port. -/
theorem hostPortStr_injective : Injective ServerLocation.hostPortStr := by
  have hcolon : ∀ port, ':' ∉ decimalInt port := notMem_decimalInt rfl (by decide)
  intro left right heq
  have hparts : left.hostname = right.hostname ∧ decimalInt left.port = decimalInt right.port := by
    rcases append_eq_append_iff.mp heq with ⟨gap, hhost, hport⟩ | ⟨gap, hhost, hport⟩
    · cases gap with
      | nil => simp_all
      | cons char gap =>
        have htail : decimalInt left.port = gap ++ ':' :: decimalInt right.port :=
          (cons.inj hport).2
        exact absurd (htail ▸ by simp) (hcolon left.port)
    · cases gap with
      | nil => simp_all
      | cons char gap =>
        have htail : decimalInt right.port = gap ++ ':' :: decimalInt left.port :=
          (cons.inj hport).2
        exact absurd (htail ▸ by simp) (hcolon right.port)
  cases left
  simp_all [decimalInt_injective.eq_iff]

/-- What the library promises of its sorting function. -/
structure IsSort
    (sort : (ChunkServerPtr → ChunkServerPtr → Bool) → List ChunkServerPtr → List ChunkServerPtr) :
    Prop where
  perm : ∀ less, IsStrictWeakOrder ChunkServerPtr (fun left right => less left right = true) →
    ∀ servers, (sort less servers).Perm servers
  ordered : ∀ less, IsStrictWeakOrder ChunkServerPtr (fun left right => less left right = true) →
    ∀ servers, (sort less servers).Pairwise fun left right => less right left = false

namespace LayoutManager

variable (layout : LayoutManager) {haveCache : List (Name × Bool)}

instance sortFunction_isStrictWeakOrder (serversWithHotCache : List (Name × Bool)) :
    IsStrictWeakOrder ChunkServerPtr
      (fun left right => layout.sortFunction serversWithHotCache left right = true) where
  irrefl server := by simp [sortFunction]
  trans left middle right := by
    simp only [sortFunction, decide_eq_true_eq]
    omega
  incomp_trans left middle right := by
    simp only [sortFunction, decide_eq_true_eq]
    omega

/-! ## Selection -/

/-- Whether a chunk of the stripe is cached on the server. -/
def hasCache (haveCache : List (Name × Bool)) (server : ChunkServerPtr) : Bool :=
  (find (layout.getHostPortStr server) haveCache).isSome

theorem selectServers_cons (serverCountNeeded : ℕ) (server : ChunkServerPtr)
    (rest : List ChunkServerPtr) (selected : List (ChunkServerPtr × Bool)) :
    layout.selectServers haveCache serverCountNeeded (server :: rest) selected =
      if serverCountNeeded ≤
          (assign server (layout.hasCache haveCache server) selected).length then
        assign server (layout.hasCache haveCache server) selected
      else layout.selectServers haveCache serverCountNeeded rest
        (assign server (layout.hasCache haveCache server) selected) :=
  rfl

variable {selected : List (ChunkServerPtr × Bool)}

theorem nodup_selectServers (serverCountNeeded : ℕ) (servers : List ChunkServerPtr)
    (hnodup : (KeyedList.keys selected).Nodup) :
    (KeyedList.keys (layout.selectServers haveCache serverCountNeeded servers selected)).Nodup := by
  induction servers generalizing selected with
  | nil => exact hnodup
  | cons server rest ih =>
    rw [selectServers_cons]
    split_ifs
    · exact nodup_keys_assign hnodup
    · exact ih (nodup_keys_assign hnodup)

theorem mem_selectServers (serverCountNeeded : ℕ) (servers : List ChunkServerPtr)
    {entry : ChunkServerPtr × Bool}
    (hentry : entry ∈ layout.selectServers haveCache serverCountNeeded servers selected) :
    entry ∈ selected ∨ entry.1 ∈ servers ∧ entry.2 = layout.hasCache haveCache entry.1 := by
  induction servers generalizing selected with
  | nil => exact .inl hentry
  | cons server rest ih =>
    have hassigned : entry ∈ assign server (layout.hasCache haveCache server) selected →
        entry ∈ selected ∨
          entry.1 ∈ server :: rest ∧ entry.2 = layout.hasCache haveCache entry.1 := by
      intro hmem
      rcases mem_assign hmem with rfl | hold
      · exact .inr ⟨mem_cons_self, rfl⟩
      · exact .inl hold
    rw [selectServers_cons] at hentry
    split_ifs at hentry
    · exact hassigned hentry
    · rcases ih hentry with hmem | ⟨hmem, hflag⟩
      · exact hassigned hmem
      · exact .inr ⟨mem_cons_of_mem _ hmem, hflag⟩

/-- With enough distinct servers the loop ends with the number it needs. -/
theorem length_selectServers {serverCountNeeded : ℕ} (servers : List ChunkServerPtr)
    (hnodup : (KeyedList.keys selected).Nodup) (hfew : selected.length < serverCountNeeded)
    (henough : serverCountNeeded ≤ (KeyedList.keys selected ++ servers).toFinset.card) :
    (layout.selectServers haveCache serverCountNeeded servers selected).length =
      serverCountNeeded := by
  induction servers generalizing selected with
  | nil =>
    rw [append_nil, toFinset_card_of_nodup hnodup, KeyedList.keys, length_map] at henough
    omega
  | cons server rest ih =>
    rw [selectServers_cons]
    have hsame : (KeyedList.keys (assign server (layout.hasCache haveCache server)
        selected) ++ rest).toFinset = (KeyedList.keys selected ++ server :: rest).toFinset := by
      ext other
      simp only [mem_toFinset, mem_append, mem_keys_assign, mem_cons]
      tauto
    have hlength : ∀ {left right : List (ChunkServerPtr × Bool)},
        (KeyedList.keys left).length = (KeyedList.keys right).length →
          left.length = right.length := by
      intro left right
      simp only [KeyedList.keys, length_map, imp_self]
    have hgrow : (assign server (layout.hasCache haveCache server) selected).length ≤
        serverCountNeeded := by
      by_cases hmem : server ∈ KeyedList.keys selected
      · rw [hlength (congrArg List.length (keys_assign_of_mem hmem))]
        exact hfew.le
      · rw [(assign_perm hmem).length_eq]
        exact hfew
    split_ifs with hdone
    · exact Nat.le_antisymm hgrow hdone
    · exact ih (nodup_keys_assign hnodup) (Nat.lt_of_not_le hdone) (hsame ▸ henough)

end LayoutManager

/-! ## Slots -/

namespace Slots

variable {serverCountNeeded : ℕ} {slots : Slots} {name : Name} {names : List Name}

@[simp]
theorem key_put_self (slot : ℕ) : (slots.put slot name).key slot = name :=
  update_self _ _ _

variable {slot : ℕ}

theorem key_put_of_ne {other : ℕ} (hne : other ≠ slot) :
    (slots.put slot name).key other = slots.key other :=
  update_of_ne hne _ _

@[simp]
theorem alreadyAssignedCount_put (slot : ℕ) :
    (slots.put slot name).alreadyAssignedCount = slots.alreadyAssignedCount + 1 :=
  rfl

/-- The names that the slots hold. -/
def held (serverCountNeeded : ℕ) (slots : Slots) : List Name :=
  ((allSlots serverCountNeeded).map slots.key).filter fun name => decide (name ≠ [])

theorem mem_allSlots :
    slot ∈ allSlots serverCountNeeded ↔ 1 ≤ slot ∧ slot ≤ serverCountNeeded := by
  rw [allSlots, mem_range'_1]
  omega

theorem nodup_allSlots : (allSlots serverCountNeeded).Nodup := nodup_range'

/-- A name that is put into an empty slot is added to the names. -/
theorem held_put (hslot : slot ∈ allSlots serverCountNeeded) (hempty : slots.key slot = [])
    (hname : name ≠ []) :
    ((slots.put slot name).held serverCountNeeded).Perm
      (name :: slots.held serverCountNeeded) := by
  have hnodup : (allSlots serverCountNeeded).Nodup := nodup_allSlots
  unfold held
  obtain ⟨front, back, hsplit⟩ := append_of_mem hslot
  rw [hsplit] at hnodup ⊢
  obtain ⟨hslot', -⟩ := nodup_cons.mp (nodup_middle.mp hnodup)
  have hsame : ∀ other ∈ front ++ back, (slots.put slot name).key other = slots.key other := by
    intro other hother
    refine key_put_of_ne ?_
    rintro rfl
    exact hslot' hother
  have hfront := map_congr_left fun other hother =>
    hsame other (mem_append_left back hother)
  have hback := map_congr_left fun other hother =>
    hsame other (mem_append_right front hother)
  simp only [map_append, map_cons, filter_append, filter_cons, hfront, hback,
    key_put_self, hempty, hname, ne_eq, not_true_eq_false, not_false_eq_true, decide_true,
    decide_false, if_true, Bool.false_eq_true, if_false]
  exact perm_middle

/-- While slots are left, one of them is empty. -/
theorem exists_empty (hfew : (slots.held serverCountNeeded).length < serverCountNeeded) :
    ∃ slot ∈ allSlots serverCountNeeded, slots.key slot = [] := by
  by_contra hnone
  push Not at hnone
  have hall : slots.held serverCountNeeded = (allSlots serverCountNeeded).map slots.key := by
    refine filter_eq_self.mpr ?_
    intro name hname
    obtain ⟨slot, hslot, rfl⟩ := mem_map.mp hname
    exact decide_eq_true (hnone slot hslot)
  rw [hall, length_map, allSlots, length_range'] at hfew
  exact lt_irrefl _ hfew

/-- A full set of slots holds the names in slot order. -/
theorem map_key_of_full (hfull : (slots.held serverCountNeeded).length = serverCountNeeded) :
    (allSlots serverCountNeeded).map slots.key = slots.held serverCountNeeded := by
  refine (Sublist.eq_of_length filter_sublist ?_).symm
  rw [length_map, allSlots, length_range']
  exact hfull

theorem putFirstEmpty_eq {candidates : List ℕ} (hempty : ∃ slot ∈ candidates, slots.key slot = []) :
    ∃ slot ∈ candidates, slots.key slot = [] ∧
      slots.putFirstEmpty candidates name = slots.put slot name := by
  cases hfind : candidates.find? fun slot => decide (slots.key slot = []) with
  | none =>
    obtain ⟨slot, hslot, hkey⟩ := hempty
    have hnot := find?_eq_none.mp hfind slot hslot
    simp [hkey] at hnot
  | some slot =>
    refine ⟨slot, mem_of_find?_eq_some hfind, ?_, ?_⟩
    · simpa using find?_some hfind
    · rw [putFirstEmpty, hfind]

/-- The slots hold the names, and the count is theirs. -/
structure Holds (serverCountNeeded : ℕ) (slots : Slots) (names : List Name) : Prop where
  perm : (slots.held serverCountNeeded).Perm names
  count : slots.alreadyAssignedCount = names.length

theorem Holds.put (hholds : Holds serverCountNeeded slots names)
    (hslot : slot ∈ allSlots serverCountNeeded) (hempty : slots.key slot = []) (hname : name ≠ []) :
    Holds serverCountNeeded (slots.put slot name) (name :: names) where
  perm := (held_put hslot hempty hname).trans (hholds.perm.cons name)
  count := congrArg (· + 1) hholds.count

theorem Holds.putOther (hholds : Holds serverCountNeeded slots names)
    (hfew : names.length < serverCountNeeded) (hname : name ≠ []) :
    Holds serverCountNeeded (slots.putOther serverCountNeeded name) (name :: names) := by
  have hempty := exists_empty (hholds.perm.length_eq ▸ hfew)
  obtain ⟨slot, hslot, hkey, hput⟩ := @putFirstEmpty_eq _ name _ hempty
  rw [Slots.putOther, hput]
  exact hholds.put hslot hkey hname

/-- While cached servers are assigned, the odd slots are filled from the first
one on. -/
structure HoldsCached (serverCountNeeded : ℕ) (slots : Slots) (names : List Name) : Prop
    extends Holds serverCountNeeded slots names where
  odd_empty : ∀ index, slots.alreadyAssignedCount ≤ index → slots.key (2 * index + 1) = []
  odd_full : ∀ index < slots.alreadyAssignedCount, index < serverCountNeeded / 2 →
    slots.key (2 * index + 1) ≠ []

theorem HoldsCached.putCached (heven : serverCountNeeded % 2 = 0)
    (hholds : HoldsCached serverCountNeeded slots names)
    (hfew : names.length < serverCountNeeded) (hname : name ≠ []) :
    HoldsCached serverCountNeeded (slots.putCached serverCountNeeded name) (name :: names) := by
  unfold Slots.putCached
  split_ifs with hodd
  · -- The next odd slot.
    have hslot : 2 * slots.alreadyAssignedCount + 1 ∈ allSlots serverCountNeeded :=
      mem_allSlots.mpr (by omega)
    refine ⟨hholds.toHolds.put hslot (hholds.odd_empty _ le_rfl) hname, ?_, ?_⟩
    · intro index hindex
      rw [alreadyAssignedCount_put] at hindex
      rw [key_put_of_ne (by omega)]
      exact hholds.odd_empty index (by omega)
    · intro index hindex hhalf
      rcases Nat.lt_succ_iff_lt_or_eq.mp hindex with hold | rfl
      · rw [key_put_of_ne (by omega)]
        exact hholds.odd_full index hold hhalf
      · rwa [key_put_self]
  · -- All odd slots are full, so the empty one is even.
    have hempty : ∃ slot ∈ evenSlots serverCountNeeded, slots.key slot = [] := by
      obtain ⟨slot, hslot, hkey⟩ := exists_empty (hholds.perm.length_eq ▸ hfew)
      rw [mem_allSlots] at hslot
      refine ⟨slot, ?_, hkey⟩
      rcases Nat.even_or_odd' slot with ⟨half, rfl | rfl⟩
      · refine mem_map.mpr ⟨half - 1, mem_range.mpr (by omega), by omega⟩
      · exact absurd hkey (hholds.odd_full half (by omega) (by omega))
    obtain ⟨slot, hslot, hkey, hput⟩ := @putFirstEmpty_eq _ name _ hempty
    obtain ⟨half, hhalf, rfl⟩ := mem_map.mp hslot
    rw [mem_range] at hhalf
    rw [hput]
    refine ⟨hholds.toHolds.put (mem_allSlots.mpr (by omega)) hkey hname, ?_, ?_⟩
    · intro index hindex
      rw [alreadyAssignedCount_put] at hindex
      rw [key_put_of_ne (by omega)]
      exact hholds.odd_empty index (by omega)
    · intro index hindex hhalf
      rw [key_put_of_ne (by omega)]
      exact hholds.odd_full index (by omega) hhalf

end Slots

end QfsRepair.Repair
