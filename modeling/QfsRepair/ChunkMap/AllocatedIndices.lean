import QfsRepair.ChunkMap.InlineIndices

/-!
# Indices in an allocated array

The array of `CSMap::Entry`: perhaps a slot that tells how far the address was
moved to be aligned, the capacity, the number of slots in use, the indices and
the free slots.  Each loop over the array is described by what it does to these
parts.
-/

namespace QfsRepair.ChunkMap

open Machine.PackedWord List Option

/-! ## Loops over the slots -/

section Slots

theorem getElem?_append_length_add {α : Type} (before after : List α) (position : ℕ) :
    (before ++ after)[before.length + position]? = after[position]? := by
  rw [getElem?_append_right (Nat.le_add_right _ _), Nat.add_sub_cancel_left]

theorem store_append (before after : List ℕ) (position : ℕ) {value : ℕ}
    (hposition : position < after.length) (hvalue : value < 2 ^ 16) :
    store (before ++ after) (before.length + position) value =
      some (before ++ after.set position value) := by
  rw [store, if_pos (by rw [length_append]; omega), Nat.mod_eq_of_lt hvalue,
    set_append_right _ _ (Nat.le_add_right _ _), Nat.add_sub_cancel_left]

theorem findSlot_eq (before ids free : List ℕ) (idx : ℕ) :
    findSlot (before ++ (ids ++ free)) idx ids.length before.length =
      some (before.length + ids.idxOf idx) := by
  induction ids generalizing before with
  | nil => rfl
  | cons first ids ih =>
    have hnext : before ++ (first :: ids ++ free) = (before ++ [first]) ++ (ids ++ free) := by
      simp
    have hread : (before ++ (first :: ids ++ free))[before.length]? = some first := by simp
    rw [length_cons, findSlot, hread]
    by_cases hfirst : first = idx
    · simp [hfirst]
    · have hrest := ih (before ++ [first])
      rw [← hnext, length_append, length_singleton] at hrest
      simp only [bind_eq_bind, bind_some, if_neg hfirst, hrest, idxOf_cons_ne _ hfirst]
      rw [add_right_comm, add_assoc]

theorem shiftSlots_eq (before ids free : List ℕ) (idx : ℕ) (hids : ∀ id ∈ ids, id < 2 ^ 16) :
    ∃ last, shiftSlots (before ++ (idx :: (ids ++ free))) ids.length before.length =
      some (before ++ (ids ++ last :: free)) := by
  induction ids generalizing before idx with
  | nil => exact ⟨idx, rfl⟩
  | cons first ids ih =>
    obtain ⟨last, hlast⟩ := ih (before ++ [first]) first
      (fun id hid => hids id (.tail _ hid))
    refine ⟨last, ?_⟩
    have hread : (before ++ (idx :: (first :: ids ++ free)))[before.length + 1]? =
        some first := by
      rw [getElem?_append_length_add]
      rfl
    have hstore := store_append before (idx :: (first :: ids ++ free)) 0 (by simp)
      (hids first (.head _))
    rw [add_zero] at hstore
    rw [length_cons, shiftSlots, hread]
    simp only [bind_eq_bind, bind_some, hstore]
    simpa using hlast

theorem packSlots_eq (high : ℕ) (before free : List ℕ) {count : ℕ} {ids : List ℕ}
    (hids : ∀ id ∈ ids, IsId id) (hlength : ids.length ≤ count) (hcount : count ≤ 4) :
    Entry.packSlots (before ++ (ids ++ free)) ids.length before.length (4 + 15 * count - 15)
      (wordAt count high [] 0) = some (wordAt count high ids 0) := by
  induction count generalizing ids before high with
  | zero =>
    rw [length_eq_zero_iff.mp (Nat.le_zero.mp hlength)]
    rfl
  | succ count ih =>
    cases ids with
    | nil => rfl
    | cons first ids =>
      have hid := hids first (.head _)
      have hnext : before ++ (first :: ids ++ free) =
          (before ++ [first]) ++ (ids ++ free) := by simp
      have hread : (before ++ (first :: ids ++ free))[before.length]? = some first := by simp
      have hshift : 4 + 15 * (count + 1) - 15 = 4 + 15 * count := by omega
      have hfield : first <<< (4 + 15 * count) % 2 ^ 64 = idAt (count + 1) first := by
        rw [idAt_succ, Nat.shiftLeft_eq]
        apply Nat.mod_eq_of_lt
        calc first * 2 ^ (4 + 15 * count)
            < 2 ^ 15 * 2 ^ (4 + 15 * count) :=
              Nat.mul_lt_mul_of_pos_right hid.2 (Nat.two_pow_pos _)
          _ = 2 ^ (15 + (4 + 15 * count)) := (pow_add ..).symm
          _ ≤ 2 ^ 64 := Nat.pow_le_pow_right (by omega) (by omega)
      have hrest := ih (high * 2 ^ 15 + first) (before ++ [first])
        (fun id hid => hids id (.tail _ hid)) (by simpa using hlength) (by omega)
      rw [← hnext, length_append, length_singleton] at hrest
      rw [length_cons, Entry.packSlots, hread, hshift]
      simp only [bind_eq_bind, bind_some, hfield, Entry.wordAt_nil_or hid (by omega : 0 < 16)]
      rw [wordAt_cons, wordAt_cons, kIdxBits, hrest]

end Slots

/-! ## The parts of the array -/

/-- The array with its parts. -/
def arraySlots (marker : List ℕ) (capacity : ℕ) (ids free : List ℕ) : List ℕ :=
  marker ++ capacity :: (ids.length + 2) :: (ids ++ free)

section Array

variable {marker ids free : List ℕ} {capacity idx : ℕ}

theorem arraySlots_capacity :
    (arraySlots marker capacity ids free)[marker.length + kAddrCapacityPos]? = some capacity :=
  getElem?_append_length_add ..

theorem arraySlots_size :
    (arraySlots marker capacity ids free)[marker.length + kAddrSizePos]? =
      some (ids.length + 2) :=
  getElem?_append_length_add ..

theorem arraySlots_id (position : ℕ) :
    (arraySlots marker capacity ids free)[marker.length + (position + kAddrIdxPos)]? =
      (ids ++ free)[position]? :=
  getElem?_append_length_add ..

theorem arraySlots_eq_append :
    arraySlots marker capacity ids free =
      (marker ++ [capacity, ids.length + 2]) ++ (ids ++ free) := by
  simp [arraySlots]

theorem findSlot_array (id : ℕ) :
    findSlot (arraySlots marker capacity ids free) id (ids.length + 2 - kAddrIdxPos)
      (marker.length + kAddrIdxPos) = some (marker.length + 2 + ids.idxOf id) := by
  have hfind := findSlot_eq (marker ++ [capacity, ids.length + 2]) ids free id
  rwa [← arraySlots_eq_append, length_append] at hfind

theorem packSlots_array (hids : ∀ id ∈ ids, IsId id) (hlength : ids.length ≤ 4) :
    Entry.packSlots (arraySlots marker capacity ids free) (ids.length + 2 - kAddrIdxPos)
      (marker.length + kAddrIdxPos) kFirstIdxShift 0 = some (wordAt 4 0 ids 0) := by
  have hpack := packSlots_eq 0 (marker ++ [capacity, ids.length + 2]) free hids hlength le_rfl
  rwa [← arraySlots_eq_append, length_append] at hpack

theorem appendSlot_eq (hidx : idx < 2 ^ 16) (hsize : ids.length + 3 < 2 ^ 16) (unused : ℕ) :
    appendSlot (arraySlots marker capacity ids (unused :: free)) marker.length idx =
      some (arraySlots marker capacity (ids ++ [idx]) free) := by
  rw [appendSlot, arraySlots_size]
  simp only [bind_eq_bind, bind_some]
  rw [arraySlots, store_append _ _ _ (by simp) hidx, bind_some]
  rw [store_append _ _ _ (by simp [kAddrSizePos]) (by omega)]
  simp [arraySlots, kAddrSizePos]

theorem copySlots_eq {prevMarker prevFree : List ℕ} {prevCapacity : ℕ}
    (hroom : ids.length ≤ free.length) :
    copySlots (arraySlots marker capacity [] free) (marker.length + kAddrSizePos)
        (arraySlots prevMarker prevCapacity ids prevFree) (prevMarker.length + kAddrSizePos)
        (ids.length + 2 - 1) =
      some (arraySlots marker capacity ids (free.drop ids.length)) := by
  have hprev : (arraySlots prevMarker prevCapacity ids prevFree).drop
      (prevMarker.length + kAddrSizePos) = (ids.length + 2) :: (ids ++ prevFree) := by
    rw [arraySlots, ← drop_drop, drop_left]
    rfl
  have htake : (arraySlots marker capacity [] free).take (marker.length + kAddrSizePos) =
      marker ++ [capacity] := by
    rw [arraySlots, take_length_add_append]
    rfl
  have hdrop : (arraySlots marker capacity [] free).drop
      (marker.length + kAddrSizePos + (ids.length + 1)) = free.drop ids.length := by
    rw [arraySlots, add_assoc, ← drop_drop, kAddrSizePos, add_left_comm]
    simp
  rw [copySlots, if_pos (by simp [arraySlots, kAddrSizePos]; omega)]
  have hcount : ids.length + 2 - 1 = ids.length + 1 := rfl
  rw [hcount, hprev, htake, hdrop, take_succ_cons]
  simp [arraySlots]

theorem appendInline_eq {entry : Entry} {count high low : ℕ} {done : List ℕ}
    (hword : entry.idxData = wordAt count high ids low) (hids : ∀ id ∈ ids, IsId id)
    (hlow : low < 16) (hlength : ids.length = count) (hroom : count ≤ free.length)
    (hsize : done.length + count + 3 < 2 ^ 16) :
    entry.appendInline marker.length count (4 + 15 * count - 15)
        (arraySlots marker capacity done free) =
      some (arraySlots marker capacity (done ++ ids) (free.drop count)) := by
  induction count generalizing high ids done free with
  | zero =>
    rw [length_eq_zero_iff.mp hlength]
    simp [Entry.appendInline]
  | succ count ih =>
    cases ids with
    | nil => simp at hlength
    | cons first ids =>
      cases free with
      | nil => simp at hroom
      | cons unused free =>
        have hread := Entry.wordAt_shiftRight (count + 1) high 0 hids hlow (by simp)
          hlength.le
        have hshift : 4 + 15 * (count + 1) - 15 = 4 + 15 * count := by omega
        simp only [Nat.add_sub_cancel, Nat.sub_zero, getElem_cons_zero] at hread
        have hid := (hids first (.head _)).2
        rw [Entry.appendInline, hshift, hword, hread, appendSlot_eq (by omega) (by omega) unused]
        simp only [bind_eq_bind, bind_some]
        have hdone : (done ++ [first]).length + count + 3 < 2 ^ 16 := by
          rw [length_append, length_singleton]
          omega
        rw [kIdxBits, ih (hword.trans (wordAt_cons ..))
          (fun id hid => hids id (.tail _ hid)) (by simpa using hlength)
          (by simpa using hroom) hdone]
        simp

end Array

end QfsRepair.ChunkMap
