import QfsRepair.ChunkMap.AllocatedIndices

/-!
# The server indices of a chunk as a set in order of insertion

`Stored` relates an entry to the indices and the state that it stands for, in
either of its two forms.  Every call keeps the relation and answers as the list
does, as long as the capacity of an array whose address needed no alignment
stays below `2 ^ 15`: from there on the capacity is taken for the mark of a
moved address.
-/

namespace QfsRepair.ChunkMap

open Machine.PackedWord List Option

/-- The capacity that `AllocateIndexes` stores. -/
def newCapacity (capacity : ℕ) (alloc : Allocation) : ℕ :=
  if alloc.offset ≠ 0 then (capacity + 6) / 4 * 4 - 1 else (capacity + 6) / 4 * 4 + 8

section

variable (alloc : Allocation)

theorem Allocation.offset_lt : alloc.offset < kAddrAlign := by
  rw [Allocation.offset, kAddrAlign]
  split <;> omega

theorem Allocation.dvd_aligned : 16 ∣ alloc.address + alloc.offset := by
  rw [Allocation.offset, kAddrAlign]
  split <;> omega

theorem Allocation.aligned_lt :
    alloc.address + alloc.offset < 2 ^ 64 := by
  have hfits := alloc.fits
  have hlt := alloc.offset_lt
  omega

end

/-- The slots of a block and where it was allocated. -/
structure Block.Holds (block : Block) (marker : List ℕ) (capacity : ℕ) (ids free : List ℕ) :
    Prop where
  slots_eq : block.slots = arraySlots marker capacity ids free
  placed : (marker = [] ∧ block.base = block.addr ∧ block.bytes = capacity * 2) ∨
    ∃ off, 0 < off ∧ off < 16 ∧ marker = [off + 2 ^ 15] ∧ block.base + off = block.addr ∧
      block.bytes = kAddrAlign + (capacity + 1) * 2
  used : ids.length + 2 ≤ capacity
  room : capacity ≤ ids.length + 2 + free.length
  aligned : 16 ∣ block.addr
  addr_lt : block.addr < 2 ^ 64

variable {block : Block} {capacity : ℕ} {free : List ℕ}

/-- The same block with other slots in use. -/
theorem Block.Holds.withSlots {marker ids : List ℕ} (holds : block.Holds marker capacity ids free)
    (ids' free' : List ℕ) (hused : ids'.length + 2 ≤ capacity)
    (hroom : capacity ≤ ids'.length + 2 + free'.length) :
    ({ block with slots := arraySlots marker capacity ids' free' } : Block).Holds marker capacity
      ids' free' :=
  ⟨rfl, holds.placed, hused, hroom, holds.aligned, holds.addr_lt⟩

private theorem two_le_length {slots : List ℕ} (hlength : 2 ≤ slots.length) :
    ∃ first second rest, slots = first :: second :: rest := by
  match slots with
  | first :: second :: rest => exact ⟨first, second, rest, rfl⟩

/-- The array of `AllocateIndexes` before the indices are copied. -/
theorem newBlock_holds {alloc : Allocation} (hcapacity : newCapacity capacity alloc < 2 ^ 16) :
    ∃ block marker free, Entry.newBlock capacity alloc = some (block, marker.length) ∧
      block.Holds marker (newCapacity capacity alloc) [] free ∧
      (alloc.offset = 0 → marker = []) := by
  have hquantum : (capacity + 3 + 4 - 1) / 4 * 4 = (capacity + 6) / 4 * 4 := rfl
  have hoff := alloc.offset_lt
  rw [kAddrAlign] at hoff
  by_cases hzero : alloc.offset = 0
  · rw [newCapacity, if_neg (not_not.mpr hzero)] at hcapacity ⊢
    have hlength : ((range ((kAddrAlign + (capacity + 6) / 4 * 4 * 2 - alloc.offset) /
        2)).map alloc.content).length = (capacity + 6) / 4 * 4 + 8 := by
      rw [length_map, length_range, kAddrAlign]
      omega
    obtain ⟨first, second, free, hfresh⟩ := two_le_length (le_trans (by omega) hlength.ge)
    rw [hfresh, length_cons, length_cons] at hlength
    refine ⟨⟨alloc.address, kAddrAlign + (capacity + 6) / 4 * 4 * 2, alloc.address,
      arraySlots [] ((capacity + 6) / 4 * 4 + 8) [] free⟩, [], free, ?_,
      ⟨rfl, .inl ⟨rfl, rfl, ?_⟩, by simp, ?_, ?_, ?_⟩, fun _ => rfl⟩
    · simp only [Entry.newBlock, hquantum, hfresh]
      simpa [hzero, store, kAddrCapacityPos, kAddrSizePos, kAddrIdxPos, kAddrAlign,
        arraySlots] using hcapacity
    · simp only [kAddrAlign]
      omega
    · omega
    · simpa [hzero] using alloc.dvd_aligned
    · simpa [hzero] using alloc.aligned_lt
  · rw [newCapacity, if_pos hzero] at hcapacity ⊢
    have hlength : (capacity + 6) / 4 * 4 ≤ ((range ((kAddrAlign +
        (capacity + 6) / 4 * 4 * 2 - alloc.offset) / 2)).map alloc.content).length := by
      rw [length_map, length_range, kAddrAlign]
      omega
    obtain ⟨mark, first, rest, hfresh⟩ := two_le_length (le_trans (by omega) hlength)
    rw [hfresh, length_cons, length_cons] at hlength
    obtain ⟨second, free, rfl⟩ := @exists_cons_of_length_pos _ rest (by omega)
    have hmark : alloc.offset ||| 1 <<< kIdxBits = alloc.offset + 2 ^ 15 := by
      rw [Nat.or_comm, Nat.shiftLeft_eq, kIdxBits, or_low (by omega)]
      omega
    refine ⟨⟨alloc.address, kAddrAlign + (capacity + 6) / 4 * 4 * 2, alloc.address + alloc.offset,
      arraySlots [alloc.offset + 2 ^ 15] ((capacity + 6) / 4 * 4 - 1) [] free⟩,
      [alloc.offset + 2 ^ 15], free, ?_,
      ⟨rfl, .inr ⟨alloc.offset, by omega, hoff, rfl, rfl, ?_⟩, ?_, ?_, alloc.dvd_aligned,
        alloc.aligned_lt⟩, fun h => absurd h hzero⟩
    · simp only [Entry.newBlock, hquantum, hfresh, hmark, if_pos hzero]
      simpa [store, kAddrCapacityPos, kAddrSizePos, kAddrIdxPos, arraySlots,
        Nat.mod_eq_of_lt (by omega : alloc.offset + 32768 < 65536)] using hcapacity
    · simp only
      omega
    · simp only [length_nil]
      omega
    · simp only [length_nil, length_cons] at hlength ⊢
      omega

namespace Entry

/-- The indices plus one and the state that an entry stands for, the mark of
its array and the capacity of the array (zero if there is none). -/
inductive Stored : Entry → List ℕ → ℕ → List ℕ → ℕ → Prop
  | inline {ids : List ℕ} {state : ℕ} (hlength : ids.length ≤ 4) :
      Stored ⟨wordAt 4 0 ids state, none⟩ [] 0 ids state
  | allocated {block : Block} {marker ids free : List ℕ} {capacity state : ℕ}
      (holds : block.Holds marker capacity ids free) (hlength : 4 < ids.length) :
      Stored ⟨block.addr + 8 + state, some block⟩ marker capacity ids state

/-! ## The bits of the word -/

section Bits

variable {ids : List ℕ} {state addr : ℕ}

theorem wordAt_four_lt (hids : ∀ id ∈ ids, IsId id) (hstate : state < 16) :
    wordAt 4 0 ids state < 2 ^ 64 := by
  rw [wordAt, zero_mul, zero_add]
  exact pack_add_lt (fun id hid => (hids id hid).2) hstate

/-- The low bits apart, a word is a multiple of sixteen. -/
theorem wordAt_four_eq (ids : List ℕ) (state : ℕ) :
    ∃ fields, wordAt 4 0 ids state = fields * 2 ^ 4 + state := by
  obtain ⟨fields, hfields⟩ := pack_dvd 15 4 4 ids
  exact ⟨fields, by rw [wordAt, hfields, zero_mul, zero_add, mul_comm]⟩

theorem and_kAllocated (word : ℕ) : word &&& kAllocated = word / 2 ^ 3 % 2 * 2 ^ 3 := by
  have hmask : kAllocated = (2 ^ 1 - 1) <<< 3 := rfl
  rw [hmask, and_mask, Nat.pow_one]

theorem and_complement_kOtherBitsMask {word : ℕ} (hword : word < 2 ^ 64) :
    word &&& complement 64 kOtherBitsMask = word / 2 ^ 4 * 2 ^ 4 :=
  and_complement hword (by omega)

theorem isAddr_inline {block : Option Block} (hstate : state < 8) :
    isAddr ⟨wordAt 4 0 ids state, block⟩ = false := by
  obtain ⟨fields, hfields⟩ := wordAt_four_eq ids state
  have hbit : wordAt 4 0 ids state / 2 ^ 3 % 2 = 0 := by omega
  simpa [isAddr, and_kAllocated] using hbit

theorem isAddr_allocated {block : Option Block} (haligned : 16 ∣ addr) (hstate : state < 8) :
    isAddr ⟨addr + 8 + state, block⟩ = true := by
  have hbit : (addr + 8 + state) / 2 ^ 3 % 2 = 1 := by omega
  simpa [isAddr, and_kAllocated] using hbit

theorem inline_data (hids : ∀ id ∈ ids, IsId id) (hstate : state < 8) :
    wordAt 4 0 ids state &&& complement 64 kOtherBitsMask = wordAt 4 0 ids 0 := by
  obtain ⟨fields, hfields⟩ := wordAt_four_eq ids state
  have hsum : wordAt 4 0 ids state = wordAt 4 0 ids 0 + state := by
    simp only [wordAt, add_zero]
  rw [and_complement_kOtherBitsMask (wordAt_four_lt hids (by omega))]
  omega

theorem addrGetIdxPtr_allocated {block : Option Block} (haligned : 16 ∣ addr)
    (haddr : addr < 2 ^ 64) (hstate : state < 8) :
    addrGetIdxPtr ⟨addr + 8 + state, block⟩ = addr := by
  have hword : addr + 8 + state < 2 ^ 64 := by omega
  have hptr := and_complement_kOtherBitsMask hword
  simp only [addrGetIdxPtr, hptr]
  omega

theorem addrSet_eq {entry : Entry} (hstate : entry.idxData &&& kStateMask = state)
    (haligned : 16 ∣ block.addr) :
    entry.addrSet block = ⟨block.addr + 8 + state, some block⟩ := by
  have hlow : state < 2 ^ 3 := by
    rw [← hstate, kStateMask, Nat.and_two_pow_sub_one_eq_mod]
    exact Nat.mod_lt _ (by omega)
  obtain ⟨quotient, hquotient⟩ := haligned
  have haddr : block.addr = quotient * 2 * 2 ^ 3 := by omega
  have hset : (quotient * 2 ^ 1 * 2 ^ 3 + state) ||| 1 * 2 ^ 3 =
      (quotient * 2 ^ 1 + 1) * 2 ^ 3 + state := or_field (by omega) hlow
  rw [Nat.pow_one, one_mul] at hset
  rw [addrSet, hstate, Nat.or_comm state, haddr, or_low hlow, kAllocated]
  congr 1
  omega

end Bits

/-! ## Reading an allocated array -/

theorem and_mark_eq_zero {first : ℕ} (hfirst : first < 2 ^ 15) :
    first &&& complement 16 kIdxMask = 0 := by
  have hmask : complement 16 kIdxMask = (2 ^ 1 - 1) <<< 15 := rfl
  rw [hmask, and_mask, Nat.div_eq_of_lt hfirst, Nat.zero_mod, zero_mul]

theorem and_mark_ne_zero {first : ℕ} (hge : 2 ^ 15 ≤ first) (hlt : first < 2 ^ 16) :
    first &&& complement 16 kIdxMask ≠ 0 := by
  have hmask : complement 16 kIdxMask = (2 ^ 1 - 1) <<< 15 := rfl
  rw [hmask, and_mask]
  omega

theorem and_kIdxMask_mark {off : ℕ} (hoff : off < 2 ^ 15) :
    (off + 2 ^ 15) &&& kIdxMask = off := by
  rw [kIdxMask, kIdxBits, Nat.and_two_pow_sub_one_eq_mod, Nat.add_mod_right, Nat.mod_eq_of_lt hoff]

theorem arrayPosition_eq {marker ids : List ℕ} (holds : block.Holds marker capacity ids free)
    (hcapacity : capacity < 2 ^ 15) :
    arrayPosition (arraySlots marker capacity ids free) = some marker.length := by
  rcases holds.placed with ⟨rfl, -, -⟩ | ⟨off, -, hoff, rfl, -, -⟩
  · simp [arrayPosition, arraySlots, and_mark_eq_zero hcapacity]
  · have hmark : (off + 2 ^ 15) &&& complement 16 kIdxMask ≠ 0 :=
      and_mark_ne_zero (by omega) (by omega)
    rw [arrayPosition, arraySlots, cons_append, getElem?_cons_zero, map_some,
      if_pos hmark, length_singleton]

theorem released_marked {base addr mark off : ℕ} {ids : List ℕ}
    (hmark : mark &&& complement 16 kIdxMask ≠ 0) (hoffset : mark &&& kIdxMask = off)
    (hbase : base + off = addr) :
    released addr (arraySlots [mark] capacity ids free) =
      some ((base : ℤ), kAddrAlign + (capacity + 1) * 2) := by
  simp only [released, arraySlots, cons_append, nil_append, getElem?_cons_zero,
    getElem?_cons_succ, bind_eq_bind, bind_some, if_pos hmark, hoffset, ← hbase]
  simp

theorem released_eq {marker ids : List ℕ} (holds : block.Holds marker capacity ids free)
    (hcapacity : capacity < 2 ^ 15) :
    released block.addr (arraySlots marker capacity ids free) =
      some ((block.base : ℤ), block.bytes) := by
  rcases holds.placed with ⟨rfl, hbase, hbytes⟩ | ⟨off, -, hoff, rfl, hbase, hbytes⟩
  · simp [released, arraySlots, and_mark_eq_zero hcapacity, hbase, hbytes]
  · have hmark : (off + 2 ^ 15) &&& complement 16 kIdxMask ≠ 0 :=
      and_mark_ne_zero (by omega) (by omega)
    rw [released_marked hmark (and_kIdxMask_mark (by omega)) hbase, hbytes]

section Allocated

variable {block : Block} {marker ids free : List ℕ} {capacity state : ℕ}
  (holds : block.Holds marker capacity ids free) (hstate : state < 8)

include holds hstate

theorem addrSlots_eq :
    addrSlots ⟨block.addr + 8 + state, some block⟩ =
      some (arraySlots marker capacity ids free) := by
  rw [addrSlots, bind_some, addrGetIdxPtr_allocated holds.aligned holds.addr_lt hstate,
    if_pos rfl, holds.slots_eq]

theorem state_allocated : block.addr + 8 + state &&& kStateMask = state := by
  have haligned := holds.aligned
  rw [kStateMask, Nat.and_two_pow_sub_one_eq_mod]
  omega

theorem addrClear_eq (hcapacity : capacity < 2 ^ 15) :
    addrClear ⟨block.addr + 8 + state, some block⟩ = some ⟨state, none⟩ := by
  rw [addrClear, addrSlots_eq holds hstate,
    addrGetIdxPtr_allocated holds.aligned holds.addr_lt hstate]
  simp only [bind_eq_bind, bind_some, released_eq holds hcapacity,
    state_allocated holds hstate, if_true]

theorem addrHasIndex_eq (hcapacity : capacity < 2 ^ 15) (id : ℕ) :
    addrHasIndex ⟨block.addr + 8 + state, some block⟩ id = some (decide (id ∈ ids)) := by
  rw [addrHasIndex, addrSlots_eq holds hstate]
  simp only [bind_eq_bind, bind_some, arrayPosition_eq holds hcapacity,
    arraySlots_size, findSlot_array]
  congr 1
  rw [decide_eq_decide, ← idxOf_lt_length_iff]
  omega

end Allocated

/-! ## Reading a stored entry -/

section Reading

variable {entry : Entry} {marker ids : List ℕ} {capacity state : ℕ}

theorem Stored.getState_eq (stored : Stored entry marker capacity ids state)
    (hstate : state < 8) : entry.getState = state := by
  cases stored with
  | inline hlength =>
    obtain ⟨fields, hfields⟩ := wordAt_four_eq ids state
    rw [getState, kStateMask, Nat.and_two_pow_sub_one_eq_mod]
    dsimp only
    omega
  | allocated holds hlength => exact state_allocated holds hstate

theorem indexOfId_eq {id : ℕ} (hid : IsId id) : indexOfId id = id - 1 := by
  obtain ⟨hpos, hlt⟩ := hid
  rw [indexOfId]
  omega

variable (stored : Stored entry marker capacity ids state) (hids : ∀ id ∈ ids, IsId id)
  (hstate : state < 8) (hcapacity : capacity < 2 ^ 15)

include stored hids hstate hcapacity

theorem Stored.serverCount_eq : entry.serverCount = some ids.length := by
  cases stored with
  | inline hlength =>
    have hcount : countInline ⟨wordAt 4 0 ids state, none⟩ (4 + 1) (countMask 4) 0 =
        0 + ids.length := countInline_eq rfl hids (by omega) hlength (by omega)
    rw [zero_add] at hcount
    rw [serverCount, isAddr_inline hstate]
    exact congrArg some hcount
  | @allocated block _ _ free _ _ holds hlength =>
    have hused := holds.used
    rw [serverCount, isAddr_allocated holds.aligned hstate, if_pos rfl, addrCount,
      addrSlots_eq holds hstate]
    simp only [bind_eq_bind, bind_some, arrayPosition_eq holds hcapacity, arraySlots_size]
    congr 1
    simp only [kAddrIdxPos]
    omega

theorem Stored.hasIndex_eq {idx : ℕ} (hidx : idx < kMaxServers) :
    entry.hasIndex idx = some (decide (idx + 1 ∈ ids)) := by
  rw [hasIndex, if_neg (by omega)]
  cases stored with
  | inline hlength =>
    rw [isAddr_inline hstate, inline_data hids hstate, shiftLeft_kFirstIdxShift]
    exact congrArg some (hasInline_eq hids hlength)
  | allocated holds hlength =>
    rw [isAddr_allocated holds.aligned hstate, if_pos rfl, addrHasIndex_eq holds hstate hcapacity]

theorem Stored.indexAt_eq {position : ℕ} (hposition : position < ids.length) :
    entry.indexAt position = some (ids[position] - 1) := by
  have hid := hids _ (getElem_mem hposition)
  rw [indexAt]
  cases stored with
  | inline hlength =>
    have hshift : kFirstIdxShift - position * kIdxBits = 4 + 15 * (4 - 1 - position) := by
      simp only [kFirstIdxShift, kIdxBits]
      omega
    have hfit : position * kIdxBits ≤ kFirstIdxShift := by
      omega
    rw [isAddr_inline hstate, if_neg (by simp), if_pos hfit, hshift,
      wordAt_shiftRight _ _ _ hids (by omega) hposition hlength, indexOfId_eq hid]
  | @allocated block _ _ free _ _ holds hlength =>
    rw [isAddr_allocated holds.aligned hstate, if_pos rfl, addrSlots_eq holds hstate]
    simp only [bind_eq_bind, bind_some, arrayPosition_eq holds hcapacity, arraySlots_id]
    rw [getElem?_append_left hposition, getElem?_eq_getElem hposition,
      bind_some, indexOfId_eq hid]

end Reading

/-! ## Changes of a stored entry -/

theorem setState_idxData {word : ℕ} (hword : word < 2 ^ 64) (block : Option Block)
    (next : ReplicationState) :
    setState ⟨word, block⟩ next = ⟨word / 8 * 8 + next.code, block⟩ := by
  have hcode : next.code < 2 ^ 3 := by cases next <;> decide
  have hclear : word &&& complement 64 kStateMask = word / 2 ^ 3 * 2 ^ 3 :=
    and_complement hword (by omega)
  have hmask : kStateMask &&& next.code = next.code := by
    rw [Nat.and_comm, kStateMask, Nat.and_two_pow_sub_one_eq_mod, Nat.mod_eq_of_lt hcode]
  simp only [setState, hclear, hmask, or_low hcode]
  rfl

section Changes

variable {entry : Entry} {marker ids : List ℕ} {capacity state : ℕ} {alloc : Allocation}

theorem Stored.setState (stored : Stored entry marker capacity ids state)
    (hids : ∀ id ∈ ids, IsId id) (hstate : state < 8) (next : ReplicationState) :
    Stored (entry.setState next) marker capacity ids next.code := by
  cases stored with
  | inline hlength =>
    obtain ⟨fields, hfields⟩ := wordAt_four_eq ids state
    have hword : wordAt 4 0 ids state / 8 * 8 + next.code = wordAt 4 0 ids next.code := by
      have hsum : wordAt 4 0 ids state + next.code = wordAt 4 0 ids next.code + state := by
        simp only [wordAt]
        omega
      omega
    rw [setState_idxData (wordAt_four_lt hids (by omega)), hword]
    exact .inline hlength
  | @allocated block _ _ _ _ _ holds hlength =>
    have haligned := holds.aligned
    have hlt := holds.addr_lt
    have hword : (block.addr + 8 + state) / 8 * 8 + next.code = block.addr + 8 + next.code := by
      omega
    rw [setState_idxData (by omega), hword]
    exact .allocated holds hlength

/-- `AllocateIndexes` for an entry whose indices are in the word. -/
theorem allocateIndexes_inline (alloc : Allocation) {id : ℕ} (hids : ∀ other ∈ ids, IsId other)
    (hid : IsId id) (hstate : state < 8) (hlength : ids.length = 4) :
    ∃ entry' marker', allocateIndexes ⟨wordAt 4 0 ids state, none⟩ id (kMaxNonAllocSrvs + 1)
        alloc = some entry' ∧
      Stored entry' marker' (newCapacity 5 alloc) (ids ++ [id]) state ∧
      (alloc.offset = 0 → marker' = []) := by
  have hcapacity : 7 ≤ newCapacity 5 alloc ∧ newCapacity 5 alloc < 2 ^ 16 := by
    rw [newCapacity]
    split <;> omega
  obtain ⟨block, marker', free, hblock, holds, haligned⟩ := newBlock_holds hcapacity.2
  have hroom := holds.room
  simp only [length_nil] at hroom
  obtain ⟨unused, rest, hrest⟩ := @exists_cons_of_length_pos _ (free.drop 4)
    (by rw [length_drop]; omega)
  have hrestLength := congrArg length hrest
  simp only [length_drop, length_cons] at hrestLength
  have hcopy : appendInline ⟨wordAt 4 0 ids state, none⟩ marker'.length 4 (4 + 15 * 4 - 15)
      (arraySlots marker' (newCapacity 5 alloc) [] free) =
        some (arraySlots marker' (newCapacity 5 alloc) ([] ++ ids) (free.drop 4)) :=
    appendInline_eq rfl hids (by omega) hlength (by omega) (by simp)
  rw [nil_append, hrest] at hcopy
  have hlast : appendSlot (arraySlots marker' (newCapacity 5 alloc) ids (unused :: rest))
      marker'.length id = some (arraySlots marker' (newCapacity 5 alloc) (ids ++ [id]) rest) :=
    appendSlot_eq (hid.2.trans (by omega)) (by omega) unused
  have hword : wordAt 4 0 ids state &&& kStateMask = state :=
    (Stored.inline hlength.le).getState_eq hstate
  have hstored : (ids ++ [id]).length = 5 := by simp [hlength]
  refine ⟨_, marker', ?_, .allocated (holds.withSlots (ids ++ [id]) rest (by omega)
    (by omega)) (by omega), haligned⟩
  rw [allocateIndexes]
  simp only [show kMaxNonAllocSrvs + 1 = 5 from rfl, hblock, bind_eq_bind,
    bind_some, isAddr_inline hstate, Bool.false_eq_true, if_false, holds.slots_eq]
  rw [show kFirstIdxShift = 4 + 15 * 4 - 15 from rfl, show kMaxNonAllocSrvs = 4 from rfl, hcopy]
  simp only [bind_some, hlast]
  exact congrArg some (addrSet_eq hword holds.aligned)

/-- `AllocateIndexes` for an entry with an array; `added` is the index to add,
if there is one. -/
theorem allocateIndexes_allocated (alloc : Allocation) (added : List ℕ) (requested : ℕ)
    (holds : block.Holds marker capacity ids free) (hstate : state < 8)
    (hcapacity : capacity < 2 ^ 15) (hlength : 4 < ids.length)
    (hadded : added = [] ∨ ∃ id, added = [id] ∧ IsId id)
    (hrequested : ids.length + added.length + 2 ≤ newCapacity requested alloc)
    (hbound : newCapacity requested alloc < 2 ^ 16) :
    ∃ entry' marker', allocateIndexes ⟨block.addr + 8 + state, some block⟩ (added.headD kSentinel)
        requested alloc = some entry' ∧
      Stored entry' marker' (newCapacity requested alloc) (ids ++ added) state ∧
      (alloc.offset = 0 → marker' = []) := by
  obtain ⟨next, marker', room, hblock, hnext, haligned⟩ := newBlock_holds hbound
  have hroom := hnext.room
  simp only [length_nil] at hroom
  have hcopy : copySlots (arraySlots marker' (newCapacity requested alloc) [] room)
      (marker'.length + kAddrSizePos) (arraySlots marker capacity ids free)
      (marker.length + kAddrSizePos) (ids.length + 2 - 1) =
        some (arraySlots marker' (newCapacity requested alloc) ids (room.drop ids.length)) :=
    copySlots_eq (by omega)
  have hsize : ids.length + 2 ≠ 0 := by omega
  have hclear := addrClear_eq holds hstate hcapacity
  have hword : state &&& kStateMask = state := by
    rw [kStateMask, Nat.and_two_pow_sub_one_eq_mod]
    omega
  rw [allocateIndexes]
  simp only [hblock, bind_eq_bind, bind_some, isAddr_allocated holds.aligned hstate,
    if_true, addrSlots_eq holds hstate, arrayPosition_eq holds hcapacity, arraySlots_size,
    if_neg hsize, hnext.slots_eq, hcopy, hclear]
  rcases hadded with rfl | ⟨id, rfl, hid⟩
  · refine ⟨_, marker', ?_, .allocated (hnext.withSlots (ids ++ [])
      (room.drop ids.length) (by simpa using hrequested) ?_) (by simpa using hlength), haligned⟩
    · simp only [headD_nil, ne_eq, not_true_eq_false, if_false, append_nil]
      exact congrArg some (addrSet_eq hword hnext.aligned)
    · simp only [append_nil, length_drop]
      omega
  · simp only [length_singleton] at hrequested
    obtain ⟨unused, rest, hrest⟩ := @exists_cons_of_length_pos _ (room.drop ids.length)
      (by rw [length_drop]; omega)
    have hrestLength := congrArg length hrest
    simp only [length_drop, length_cons] at hrestLength
    have hlast : appendSlot (arraySlots marker' (newCapacity requested alloc) ids
        (unused :: rest)) marker'.length id =
          some (arraySlots marker' (newCapacity requested alloc) (ids ++ [id]) rest) :=
      appendSlot_eq (hid.2.trans (by omega)) (by omega) unused
    have hne : id ≠ kSentinel := hid.1.ne'
    have hlengthAdded : (ids ++ [id]).length = ids.length + 1 := by simp
    refine ⟨_, marker', ?_, .allocated (hnext.withSlots (ids ++ [id]) rest (by omega)
      (by omega)) (by omega), haligned⟩
    simp only [headD_cons, if_pos hne, hrest, hlast, bind_some]
    exact congrArg some (addrSet_eq hword hnext.aligned)

/-- The loop of `AddIndex` over all fields of a word. -/
theorem addInline_four {id : ℕ} (hids : ∀ other ∈ ids, IsId other) (hid : IsId id)
    (hstate : state < 8) (hlength : ids.length ≤ 4) :
    addInline ⟨wordAt 4 0 ids state, none⟩ (4 + 1) (idAt 4 id) (maskAt 4) =
      if id ∈ ids then some (false, ⟨wordAt 4 0 ids state, none⟩)
      else if ids.length < 4 then some (true, ⟨wordAt 4 0 (ids ++ [id]) state, none⟩)
      else none :=
  addInline_eq rfl hids hid (by omega) hlength

variable (stored : Stored entry marker capacity ids state) (hids : ∀ id ∈ ids, IsId id)
  (hstate : state < 8) (hcapacity : capacity < 2 ^ 15) {idx : ℕ} (hidx : idx < kMaxServers)

/-- The slots of the array after `AddrRemoveIndex` has closed the gap. -/
theorem removed_slots (marker : List ℕ) (capacity : ℕ) (free before : List ℕ) (id : ℕ)
    {after : List ℕ} (hafter : ∀ other ∈ after, IsId other)
    (hsize : before.length + after.length + 2 < 2 ^ 16) :
    ∃ last, (shiftSlots (arraySlots marker capacity (before ++ id :: after) free) after.length
        (marker.length + 2 + before.length)).bind
          (fun slots => store slots (marker.length + kAddrSizePos)
            (before.length + after.length + 2)) =
      some (arraySlots marker capacity (before ++ after) (last :: free)) := by
  obtain ⟨last, hshift⟩ := shiftSlots_eq
    (marker ++ capacity :: ((before ++ id :: after).length + 2) :: before) after free id
    (fun other hother => (hafter other hother).2.trans (by omega))
  have hslots : marker ++ capacity :: ((before ++ id :: after).length + 2) :: before ++
      id :: (after ++ free) = arraySlots marker capacity (before ++ id :: after) free := by
    simp [arraySlots]
  have hposition : (marker ++ capacity :: ((before ++ id :: after).length + 2) :: before).length =
      marker.length + 2 + before.length := by
    simp only [length_append, length_cons]
    omega
  rw [hslots, hposition] at hshift
  rw [hshift, bind_some, append_assoc, store_append _ _ _ (by simp [kAddrSizePos]) hsize]
  simp [arraySlots, kAddrSizePos]

include stored hids hstate hcapacity hidx

theorem Stored.addIndex_mem (hmem : idx + 1 ∈ ids) :
    entry.addIndex idx alloc = some (false, entry) := by
  rw [addIndex, if_neg (by omega)]
  cases stored with
  | inline hlength =>
    have hloop := addInline_four hids (hids _ hmem) hstate hlength
    rw [if_pos hmem] at hloop
    rw [isAddr_inline hstate, if_neg (by simp), kIdxMask_shiftLeft, shiftLeft_kFirstIdxShift,
      show kMaxNonAllocSrvs = 4 from rfl, hloop]
  | allocated holds hlength =>
    rw [isAddr_allocated holds.aligned hstate, addrAddIndex,
      addrHasIndex_eq holds hstate hcapacity]
    simp [hmem]

/-- An index that is new is stored last.  The capacity stays, or a new array is
allocated because the old one, or the word, is full. -/
theorem Stored.addIndex_not_mem (alloc : Allocation) (hmem : idx + 1 ∉ ids) :
    ∃ entry' marker' capacity', entry.addIndex idx alloc = some (true, entry') ∧
      Stored entry' marker' capacity' (ids ++ [idx + 1]) state ∧
      ((marker' = marker ∧ capacity' = capacity) ∨
        (alloc.offset = 0 → marker' = []) ∧
          (ids.length = 4 ∧ capacity' = newCapacity 5 alloc ∨
            ids.length + 2 = capacity ∧ capacity' = newCapacity (capacity + 1) alloc)) := by
  have hid : IsId (idx + 1) := by
    simp only [kMaxServers, kIdxMask, kIdxBits] at hidx
    exact ⟨by omega, by omega⟩
  rw [addIndex, if_neg (by omega)]
  cases stored with
  | inline hlength =>
    have hloop := addInline_four hids hid hstate hlength
    rw [if_neg hmem] at hloop
    rw [isAddr_inline hstate, if_neg (by simp), kIdxMask_shiftLeft, shiftLeft_kFirstIdxShift,
      show kMaxNonAllocSrvs = 4 from rfl, hloop]
    by_cases hroom : ids.length < 4
    · rw [if_pos hroom]
      have hlengthAdded : (ids ++ [idx + 1]).length = ids.length + 1 := by simp
      exact ⟨_, [], 0, rfl, .inline (by omega), .inl ⟨rfl, rfl⟩⟩
    · have hfour : ids.length = 4 := by omega
      obtain ⟨entry', marker', hentry, hstored, haligned⟩ :=
        allocateIndexes_inline alloc hids hid hstate hfour
      rw [show kMaxNonAllocSrvs = 4 from rfl] at hentry
      rw [if_neg hroom]
      exact ⟨entry', marker', _, by simp only [hentry, map_some], hstored,
        .inr ⟨haligned, .inl ⟨hfour, rfl⟩⟩⟩
  | @allocated block _ _ free _ _ holds hlength =>
    have hused := holds.used
    rw [isAddr_allocated holds.aligned hstate, addrAddIndex,
      addrHasIndex_eq holds hstate hcapacity, addrSlots_eq holds hstate]
    simp only [bind_eq_bind, bind_some, decide_eq_true_eq, if_neg hmem,
      arrayPosition_eq holds hcapacity, arraySlots_capacity, arraySlots_size]
    by_cases hroom : ids.length + 2 < capacity
    · have hfree := holds.room
      obtain ⟨unused, rest, rfl⟩ := @exists_cons_of_length_pos _ free (by omega)
      rw [length_cons] at hfree
      rw [if_pos hroom, appendSlot_eq (hid.2.trans (by omega)) (by omega)]
      have hlengthAdded : (ids ++ [idx + 1]).length = ids.length + 1 := by simp
      exact ⟨_, marker, capacity, rfl, .allocated (holds.withSlots _ _ (by omega) (by omega))
        (by omega), .inl ⟨rfl, rfl⟩⟩
    · have hfull : ids.length + 2 = capacity := by omega
      have hnew : capacity + 1 + 2 ≤ newCapacity (capacity + 1) alloc ∧
          newCapacity (capacity + 1) alloc < 2 ^ 16 := by
        rw [newCapacity]
        split <;> omega
      obtain ⟨entry', marker', hentry, hstored, haligned⟩ :=
        allocateIndexes_allocated alloc [idx + 1] (capacity + 1) holds hstate hcapacity hlength
          (.inr ⟨_, rfl, hid⟩) (by simp only [length_singleton]; omega) hnew.2
      rw [headD_cons] at hentry
      rw [if_neg hroom, hentry]
      exact ⟨entry', marker', _, rfl, hstored, .inr ⟨haligned, .inr ⟨hfull, rfl⟩⟩⟩

omit stored hcapacity in
theorem removeIndex_inline (hlength : ids.length ≤ 4) :
    removeIndex ⟨wordAt 4 0 ids state, none⟩ idx alloc =
      some (if idx + 1 ∈ ids then (true, ⟨wordAt 4 0 (ids.erase (idx + 1)) state, none⟩)
        else (false, ⟨wordAt 4 0 ids state, none⟩)) := by
  have hlow : wordAt 4 0 ids state &&& kOtherBitsMask = state := by
    obtain ⟨fields, hfields⟩ := wordAt_four_eq ids state
    rw [kOtherBitsMask, Nat.and_two_pow_sub_one_eq_mod]
    omega
  have hloop : removeInline ⟨wordAt 4 0 ids state, none⟩ (wordAt 4 0 ids 0) (4 + 1)
      (idAt 4 (idx + 1)) (maskAt 4) (4 + 15 * 4 - 15) = _ :=
    removeInline_eq hlow hids (by omega) hlength (by omega) (wordAt_four_lt hids (by omega))
  rw [removeIndex, if_neg (by omega), isAddr_inline hstate, if_neg (by simp),
    inline_data hids hstate, kIdxMask_shiftLeft, shiftLeft_kFirstIdxShift,
    show kFirstIdxShift = 4 + 15 * 4 - 15 from rfl, show kMaxNonAllocSrvs = 4 from rfl, hloop]

theorem Stored.removeIndex_not_mem (hmem : idx + 1 ∉ ids) :
    entry.removeIndex idx alloc = some (false, entry) := by
  cases stored with
  | inline hlength => rw [removeIndex_inline hids hstate hidx hlength, if_neg hmem]
  | allocated holds hlength =>
    have hstop := idxOf_eq_length hmem
    rw [removeIndex, if_neg (by omega), isAddr_allocated holds.aligned hstate, if_pos rfl,
      addrRemoveIndex, addrSlots_eq holds hstate]
    simp only [bind_eq_bind, bind_some, arrayPosition_eq holds hcapacity,
      arraySlots_capacity, arraySlots_size, findSlot_array]
    rw [if_pos (by omega)]

omit stored hids hcapacity hidx in
/-- The fields of a word whose low bits are clear, with the state stored. -/
theorem or_wordAt_four :
    state ||| wordAt 4 0 ids 0 = wordAt 4 0 ids state := by
  obtain ⟨fields, hfields⟩ := wordAt_four_eq ids 0
  have hsum : wordAt 4 0 ids state = wordAt 4 0 ids 0 + state := by
    simp only [wordAt, add_zero]
  rw [hsum, hfields, Nat.or_comm, add_zero, or_low (by omega)]

omit stored hidx in
/-- The end of `AddrRemoveIndex`: the indices that are left, in the form that
their number asks for. -/
theorem addrShrink_stored (alloc : Allocation) (holds : block.Holds marker capacity ids free)
    (hlength : 4 ≤ ids.length) :
    ∃ entry' marker' capacity', addrShrink ⟨block.addr + 8 + state, some block⟩
        (arraySlots marker capacity ids free) marker.length capacity (ids.length + 2) alloc =
          some entry' ∧
      Stored entry' marker' capacity' ids state ∧ capacity' < 2 ^ 15 := by
  have hfour : kMaxNonAllocSrvs = 4 := rfl
  have htwo : kAddrIdxPos = 2 := rfl
  rw [addrShrink, if_neg (by omega)]
  by_cases hinline : ids.length ≤ 4
  · rw [if_pos (by omega), packSlots_array hids hinline, addrClear_eq holds hstate hcapacity]
    refine ⟨⟨wordAt 4 0 ids state, none⟩, [], 0, ?_, .inline hinline, by omega⟩
    simp only [bind_eq_bind, bind_some, or_wordAt_four hstate]
  · rw [if_neg (by omega)]
    by_cases hhalf : ids.length + 2 ≤ capacity / 2
    · have hnew : capacity / 2 + 2 ≤ newCapacity (capacity / 2) alloc ∧
          newCapacity (capacity / 2) alloc < 2 ^ 15 := by
        rw [newCapacity]
        split <;> omega
      obtain ⟨entry', marker', hentry, hstored, -⟩ :=
        allocateIndexes_allocated alloc [] (capacity / 2) holds hstate hcapacity (by omega)
          (.inl rfl) (by rw [length_nil]; omega) (by omega)
      rw [append_nil] at hstored
      rw [if_pos hhalf]
      exact ⟨entry', marker', _, hentry, hstored, hnew.2⟩
    · rw [if_neg hhalf]
      exact ⟨_, marker, capacity, rfl, .allocated holds (by omega), hcapacity⟩

theorem Stored.removeIndex_mem (alloc : Allocation) (hmem : idx + 1 ∈ ids) :
    ∃ entry' marker' capacity', entry.removeIndex idx alloc = some (true, entry') ∧
      Stored entry' marker' capacity' (ids.erase (idx + 1)) state ∧ capacity' < 2 ^ 15 := by
  cases stored with
  | inline hlength =>
    rw [removeIndex_inline hids hstate hidx hlength, if_pos hmem]
    have hlengthErase := length_erase_of_mem hmem
    exact ⟨_, [], 0, rfl, .inline (by omega), by omega⟩
  | @allocated block _ _ free _ _ holds hlength =>
    have hused := holds.used
    have hroom := holds.room
    obtain ⟨before, after, hbefore, hsplit, herase⟩ := exists_erase_eq hmem
    have hlengthSplit : ids.length = before.length + after.length + 1 := by
      rw [hsplit, length_append, length_cons]
      omega
    have hstop : ids.idxOf (idx + 1) = before.length := by
      rw [hsplit, idxOf_append_of_notMem hbefore, idxOf_cons_self, add_zero]
    have hkept : ∀ other ∈ before ++ after, IsId other := fun other hother =>
      hids other (mem_of_mem_erase (herase ▸ hother))
    have hlengthKept : (before ++ after).length + 2 = before.length + after.length + 2 := by simp
    obtain ⟨last, hslots⟩ := removed_slots marker capacity free before (idx + 1)
      (fun other hother => hkept other (mem_append_right _ hother)) (by omega)
    rw [← hsplit] at hslots
    obtain ⟨entry', marker', capacity', hshrink, hstored, hcapacity'⟩ :=
      addrShrink_stored hkept hstate hcapacity alloc (holds.withSlots (before ++ after)
        (last :: free) (by omega) (by rw [length_cons]; omega)) (by omega)
    refine ⟨entry', marker', capacity', ?_, herase ▸ hstored, hcapacity'⟩
    have hcount : marker.length + (ids.length + 2) -
        (marker.length + 2 + before.length + 1) = after.length := by omega
    have hsize : ids.length + 2 - 1 = before.length + after.length + 2 := by omega
    rw [removeIndex, if_neg (by omega), isAddr_allocated holds.aligned hstate, if_pos rfl,
      addrRemoveIndex, addrSlots_eq holds hstate]
    simp only [bind_eq_bind, bind_some, arrayPosition_eq holds hcapacity,
      arraySlots_capacity, arraySlots_size, findSlot_array, hstop]
    rw [if_neg (by omega), hcount, hsize, ← bind_assoc, hslots, ← hlengthKept]
    exact congrArg (fun result => bind result fun entry => some (true, entry)) hshrink

end Changes

end Entry

end QfsRepair.ChunkMap
