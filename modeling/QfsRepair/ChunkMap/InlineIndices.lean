import QfsRepair.ChunkMap.IndexWord

/-!
# Indices in the word itself

The loops of `CSMap::Entry` over the four fields of the word, each described by
what it does to the list of fields.  A field holds an index plus one, and zero
ends the list.
-/

namespace QfsRepair.ChunkMap

open Machine.PackedWord List

/-- What a slot or a field may hold. -/
def IsId (id : ℕ) : Prop := 0 < id ∧ id < 2 ^ 15

/-- A word as a loop sees it with `count` fields left to look at: the fields
before, the fields `ids`, and the low bits. -/
def wordAt (count high : ℕ) (ids : List ℕ) (low : ℕ) : ℕ :=
  high * 2 ^ (4 + 15 * count) + pack 15 4 count ids + low

/-- `mask` of the loops, with `count` fields left to look at. -/
def maskAt (count : ℕ) : ℕ := (kIdxMask <<< (4 + 15 * count)) >>> kIdxBits

/-- `id` of the loops, with `count` fields left to look at. -/
def idAt (count id : ℕ) : ℕ := (id <<< (4 + 15 * count)) >>> kIdxBits

private theorem shiftLeft_shiftRight (value count : ℕ) :
    (value <<< (4 + 15 * (count + 1))) >>> kIdxBits = value <<< (4 + 15 * count) := by
  rw [Nat.shiftLeft_eq, Nat.shiftRight_eq_div_pow, Nat.shiftLeft_eq, kIdxBits]
  have hpow : 2 ^ (4 + 15 * (count + 1)) = 2 ^ (4 + 15 * count) * 2 ^ 15 := by ring
  rw [hpow, ← mul_assoc, Nat.mul_div_cancel _ (Nat.two_pow_pos 15)]

theorem maskAt_succ (count : ℕ) : maskAt (count + 1) = (2 ^ 15 - 1) <<< (4 + 15 * count) :=
  shiftLeft_shiftRight _ count

theorem idAt_succ (count id : ℕ) : idAt (count + 1) id = id * 2 ^ (4 + 15 * count) := by
  rw [idAt, shiftLeft_shiftRight, Nat.shiftLeft_eq]

theorem maskAt_shiftRight (count : ℕ) : maskAt (count + 1) >>> kIdxBits = maskAt count := by
  rw [maskAt, maskAt, shiftLeft_shiftRight]

theorem idAt_shiftRight (count id : ℕ) :
    idAt (count + 1) id >>> kIdxBits = idAt count id := by
  rw [idAt, idAt, shiftLeft_shiftRight]

/-- The masks and ids with which the loops start. -/
theorem kIdxMask_shiftLeft : kIdxMask <<< kFirstIdxShift = maskAt kMaxNonAllocSrvs :=
  (shiftLeft_shiftRight kIdxMask 3).symm

theorem shiftLeft_kFirstIdxShift (id : ℕ) : id <<< kFirstIdxShift = idAt kMaxNonAllocSrvs id :=
  (shiftLeft_shiftRight id 3).symm

theorem maskAt_zero : maskAt 0 = 2 ^ 4 - 1 := rfl

theorem kIdxMask_le_maskAt (count : ℕ) : kIdxMask ≤ maskAt (count + 1) := by
  rw [maskAt_succ, Nat.shiftLeft_eq]
  exact Nat.le_mul_of_pos_right _ (Nat.two_pow_pos _)

section Word

variable {count high id other low : ℕ} {ids : List ℕ}

theorem wordAt_cons (count high id : ℕ) (ids : List ℕ) (low : ℕ) :
    wordAt (count + 1) high (id :: ids) low = wordAt count (high * 2 ^ 15 + id) ids low := by
  rw [wordAt, wordAt, pack_succ_cons]
  ring

/-- The field that is looked at next, and what is left of the word below it. -/
theorem wordAt_eq (count high : ℕ) (hids : ∀ id ∈ ids, IsId id) (hlow : low < 16) :
    ∃ rest < 2 ^ (4 + 15 * count), wordAt (count + 1) high ids low =
      (high * 2 ^ 15 + ids.headD 0) * 2 ^ (4 + 15 * count) + rest := by
  cases ids with
  | nil =>
    refine ⟨low, hlow.trans_le (Nat.pow_le_pow_right (by omega) (by omega) : 2 ^ 4 ≤ _), ?_⟩
    rw [wordAt, pack_nil, headD_nil]
    ring
  | cons id ids =>
    refine ⟨pack 15 4 count ids + low,
      pack_add_lt (fun other hother => (hids other (.tail _ hother)).2) hlow, ?_⟩
    rw [wordAt_cons, wordAt, headD_cons, add_assoc]

theorem wordAt_and_maskAt (hids : ∀ id ∈ ids, IsId id) (hlow : low < 16) :
    wordAt (count + 1) high ids low &&& maskAt (count + 1) =
      ids.headD 0 * 2 ^ (4 + 15 * count) := by
  obtain ⟨rest, hrest, hword⟩ := wordAt_eq count high hids hlow
  have hhead : ids.headD 0 < 2 ^ 15 := by
    cases ids with
    | nil => simp
    | cons id ids => exact (hids id (.head _)).2
  rw [maskAt_succ, and_mask_of_eq hword hhead hrest]

theorem wordAt_nil_and_maskAt (hlow : low < 16) :
    wordAt (count + 1) high [] low &&& maskAt (count + 1) = 0 := by
  rw [wordAt_and_maskAt (by simp) hlow, headD_nil, zero_mul]

theorem wordAt_cons_and_maskAt_ne_zero (hids : ∀ other ∈ id :: ids, IsId other) (hlow : low < 16) :
    wordAt (count + 1) high (id :: ids) low &&& maskAt (count + 1) ≠ 0 := by
  rw [wordAt_and_maskAt hids hlow]
  exact (Nat.mul_pos (hids id (.head _)).1 (Nat.two_pow_pos _)).ne'

theorem wordAt_cons_and_maskAt_eq_iff (hids : ∀ other ∈ id :: ids, IsId other) (hlow : low < 16) :
    wordAt (count + 1) high (id :: ids) low &&& maskAt (count + 1) = idAt (count + 1) other ↔
      id = other := by
  rw [wordAt_and_maskAt hids hlow, idAt_succ, Nat.mul_left_inj (Nat.two_pow_pos _).ne', headD_cons]

/-- Only low bits are left when all fields have been looked at. -/
theorem wordAt_zero_mod (high : ℕ) (ids : List ℕ) (hlow : low < 16) :
    wordAt 0 high ids low % 2 ^ 4 = low := by
  rw [wordAt, pack_zero, mul_zero]
  omega

end Word

namespace Entry

variable {count high id low : ℕ} {ids : List ℕ}

/-! ## Counting and searching -/

theorem hasInline_eq (hids : ∀ other ∈ ids, IsId other) (hlength : ids.length ≤ count) :
    hasInline (wordAt count high ids 0) (count + 1) (idAt count id) (maskAt count) =
      decide (id ∈ ids) := by
  induction count generalizing high ids with
  | zero =>
    rw [length_eq_zero_iff.mp (Nat.le_zero.mp hlength), hasInline, maskAt_zero,
      Nat.and_two_pow_sub_one_eq_mod, wordAt_zero_mod _ _ (by omega)]
    simp
  | succ count ih =>
    cases ids with
    | nil =>
      rw [hasInline, wordAt_nil_and_maskAt (by omega)]
      simp
    | cons first ids =>
      rw [hasInline, if_pos (wordAt_cons_and_maskAt_ne_zero hids (by omega)),
        idAt_shiftRight, maskAt_shiftRight]
      by_cases hfirst : first = id
      · rw [if_pos ((wordAt_cons_and_maskAt_eq_iff hids (by omega)).mpr hfirst)]
        simp [hfirst]
      · rw [if_neg (mt (wordAt_cons_and_maskAt_eq_iff hids (by omega)).mp hfirst),
          wordAt_cons, ih (fun other hother => hids other (.tail _ hother))
            (by simpa using hlength)]
        simp [Ne.symm hfirst]

/-- The mask of `ServerCount`, from which the low bits are cleared. -/
def countMask : ℕ → ℕ
  | 0 => 0
  | count + 1 => maskAt (count + 1)

theorem countMask_succ {count : ℕ} (hcount : count ≤ 4) :
    (maskAt (count + 1) >>> kIdxBits) &&& complement 64 kOtherBitsMask = countMask count := by
  obtain rfl | rfl | rfl | rfl | rfl :
      count = 0 ∨ count = 1 ∨ count = 2 ∨ count = 3 ∨ count = 4 := by omega
  all_goals decide

variable {entry : Entry}

theorem countInline_eq {total : ℕ} (hword : entry.idxData = wordAt count high ids low)
    (hids : ∀ other ∈ ids, IsId other) (hlow : low < 16) (hlength : ids.length ≤ count)
    (hcount : count ≤ 4) :
    entry.countInline (count + 1) (countMask count) total = total + ids.length := by
  induction count generalizing high ids total with
  | zero =>
    rw [length_eq_zero_iff.mp (Nat.le_zero.mp hlength), countInline, countMask]
    simp
  | succ count ih =>
    rw [countInline, countMask, Nat.and_comm, hword]
    cases ids with
    | nil =>
      rw [wordAt_nil_and_maskAt hlow]
      simp
    | cons first ids =>
      rw [if_pos (wordAt_cons_and_maskAt_ne_zero hids hlow), countMask_succ (by omega),
        ih (hword.trans (wordAt_cons ..)) (fun other hother => hids other (.tail _ hother))
          (by simpa using hlength) (by omega), length_cons]
      omega

/-- The field at a position, as `IndexAt` and `AllocateIndexes` read it. -/
theorem wordAt_shiftRight (count high position : ℕ) (hids : ∀ other ∈ ids, IsId other)
    (hlow : low < 16) (hposition : position < ids.length) (hlength : ids.length ≤ count) :
    (wordAt count high ids low >>> (4 + 15 * (count - 1 - position))) &&& kIdxMask =
      ids[position] := by
  induction count generalizing high ids position with
  | zero => omega
  | succ count ih =>
    cases ids with
    | nil => simp at hposition
    | cons first ids =>
      cases position with
      | zero =>
        obtain ⟨rest, hrest, hword⟩ := wordAt_eq count high hids hlow
        rw [hword, Nat.shiftRight_eq_div_pow, kIdxMask, kIdxBits,
          Nat.and_two_pow_sub_one_eq_mod, Nat.add_sub_cancel, Nat.sub_zero,
          mul_comm, Nat.mul_add_div (Nat.two_pow_pos _),
          Nat.div_eq_of_lt hrest, add_zero, mul_comm, Nat.mul_add_mod]
        exact Nat.mod_eq_of_lt (hids first (.head _)).2
      | succ position =>
        have hshift : count + 1 - 1 - (position + 1) = count - 1 - position := by omega
        rw [wordAt_cons, hshift]
        exact ih _ _ (fun other hother => hids other (.tail _ hother))
          (by simpa using hposition) (by simpa using hlength)

/-! ## Adding and removing -/

/-- Storing the field that is looked at next. -/
theorem wordAt_nil_or (hid : IsId id) (hlow : low < 16) :
    wordAt (count + 1) high [] low ||| idAt (count + 1) id = wordAt (count + 1) high [id] low := by
  have hlow' : low < 2 ^ (4 + 15 * count) :=
    hlow.trans_le (Nat.pow_le_pow_right (by omega) (by omega) : 2 ^ 4 ≤ _)
  have hpow : high * 2 ^ (4 + 15 * (count + 1)) = high * 2 ^ 15 * 2 ^ (4 + 15 * count) := by ring
  rw [wordAt_cons, idAt_succ]
  simp only [wordAt, pack_nil, add_zero]
  rw [hpow, or_field hid.2 hlow']

theorem addInline_eq (hword : entry.idxData = wordAt count high ids low)
    (hids : ∀ other ∈ ids, IsId other) (hid : IsId id) (hlow : low < 16)
    (hlength : ids.length ≤ count) :
    entry.addInline (count + 1) (idAt count id) (maskAt count) =
      if id ∈ ids then some (false, entry)
      else if ids.length < count then
        some (true, { entry with idxData := wordAt count high (ids ++ [id]) low })
      else none := by
  induction count generalizing high ids with
  | zero =>
    rw [length_eq_zero_iff.mp (Nat.le_zero.mp hlength), addInline, if_neg (by decide)]
    simp
  | succ count ih =>
    rw [addInline, if_pos (kIdxMask_le_maskAt count), hword]
    cases ids with
    | nil =>
      rw [if_pos (wordAt_nil_and_maskAt hlow), wordAt_nil_or hid hlow]
      simp
    | cons first ids =>
      rw [if_neg (wordAt_cons_and_maskAt_ne_zero hids hlow)]
      by_cases hfirst : first = id
      · rw [if_pos ((wordAt_cons_and_maskAt_eq_iff hids hlow).mpr hfirst)]
        simp [hfirst]
      · rw [if_neg (mt (wordAt_cons_and_maskAt_eq_iff hids hlow).mp hfirst),
          idAt_shiftRight, maskAt_shiftRight,
          ih (hword.trans (wordAt_cons ..)) (fun other hother => hids other (.tail _ hother))
            (by simpa using hlength), cons_append, wordAt_cons]
        simp [Ne.symm hfirst]

/-- The fields after a removed one move up by one place. -/
theorem pack_mul_of_le {count : ℕ} {ids : List ℕ} (hlength : ids.length ≤ count) :
    pack 15 4 count ids * 2 ^ 15 = pack 15 4 (count + 1) ids := by
  induction count generalizing ids with
  | zero =>
    rw [length_eq_zero_iff.mp (Nat.le_zero.mp hlength)]
    simp
  | succ count ih =>
    cases ids with
    | nil => simp
    | cons first ids =>
      rw [pack_succ_cons, pack_succ_cons, add_mul, ih (by simpa using hlength)]
      ring

/-- The assignment of `RemoveIndex` drops the field that is looked at. -/
theorem removed_word (hids : ∀ other ∈ id :: ids, IsId other) (hlow : low < 16)
    (hlength : ids.length ≤ count) (hcount : count ≤ 3)
    (hfits : wordAt (count + 1) high (id :: ids) 0 < 2 ^ 64) :
    (wordAt (count + 1) high (id :: ids) 0 &&&
        complement 64 (maskAt (count + 1) ||| (2 ^ (4 + 15 * count) - 1))) |||
      ((wordAt (count + 1) high (id :: ids) 0 &&& (2 ^ (4 + 15 * count) - 1)) <<< kIdxBits %
        2 ^ 64) ||| low = wordAt (count + 1) high ids low := by
  have hrest : ∀ other ∈ ids, IsId other := fun other hother => hids other (.tail _ hother)
  have hpack : ∀ count, pack 15 4 count ids < 2 ^ (4 + 15 * count) := fun count =>
    pack_lt fun other hother => (hrest other hother).2
  have hpackFirst : pack 15 4 (count + 1) (id :: ids) < 2 ^ (4 + 15 * (count + 1)) :=
    pack_lt fun other hother => (hids other hother).2
  have hhigh : wordAt (count + 1) high (id :: ids) 0 &&&
      complement 64 (maskAt (count + 1) ||| (2 ^ (4 + 15 * count) - 1)) =
        high * 2 ^ (4 + 15 * (count + 1)) := by
    have hshift : 4 + 15 * count + 15 = 4 + 15 * (count + 1) := by ring
    rw [maskAt_succ, mask_or_low, hshift, and_complement hfits (by omega), wordAt, add_zero,
      mul_comm high, Nat.mul_add_div (Nat.two_pow_pos _), Nat.div_eq_of_lt hpackFirst,
      add_zero, mul_comm]
  have hlower : (wordAt (count + 1) high (id :: ids) 0 &&& (2 ^ (4 + 15 * count) - 1)) <<<
      kIdxBits % 2 ^ 64 = pack 15 4 (count + 1) ids := by
    have hbound : pack 15 4 (count + 1) ids < 2 ^ 64 :=
      (hpack (count + 1)).trans_le (Nat.pow_le_pow_right (by omega) (by omega))
    rw [Nat.and_two_pow_sub_one_eq_mod, wordAt_cons, wordAt, add_zero, mul_comm,
      Nat.mul_add_mod, Nat.mod_eq_of_lt (hpack count), Nat.shiftLeft_eq, kIdxBits,
      pack_mul_of_le hlength, Nat.mod_eq_of_lt hbound]
  obtain ⟨fields, hfields⟩ : 2 ^ 4 ∣ wordAt (count + 1) high ids 0 := by
    have hpow : 2 ^ (4 + 15 * (count + 1)) = 2 ^ 4 * 2 ^ (15 * (count + 1)) := pow_add ..
    rw [wordAt, add_zero, hpow]
    exact Nat.dvd_add (Dvd.dvd.mul_left (Dvd.intro _ rfl) high) (pack_dvd 15 4 _ ids)
  rw [hhigh, hlower, or_low (hpack (count + 1))]
  rw [wordAt, add_zero] at hfields
  rw [wordAt, hfields, mul_comm, or_low hlow]

theorem removeInline_eq (hword : entry.idxData &&& kOtherBitsMask = low)
    (hids : ∀ other ∈ ids, IsId other) (hlow : low < 16) (hlength : ids.length ≤ count)
    (hcount : count ≤ 4) (hfits : wordAt count high ids 0 < 2 ^ 64) :
    entry.removeInline (wordAt count high ids 0) (count + 1) (idAt count id) (maskAt count)
        (4 + 15 * count - 15) =
      if id ∈ ids then
        (true, { entry with idxData := wordAt count high (ids.erase id) low })
      else (false, entry) := by
  induction count generalizing high ids with
  | zero =>
    rw [length_eq_zero_iff.mp (Nat.le_zero.mp hlength), removeInline, maskAt_zero,
      Nat.and_two_pow_sub_one_eq_mod, wordAt_zero_mod _ _ (by omega)]
    simp
  | succ count ih =>
    have hshift : 4 + 15 * (count + 1) - 15 = 4 + 15 * count := by omega
    rw [removeInline, hshift]
    cases ids with
    | nil =>
      rw [wordAt_nil_and_maskAt (by omega)]
      simp
    | cons first ids =>
      rw [if_pos (wordAt_cons_and_maskAt_ne_zero hids (by omega)), idAt_shiftRight,
        maskAt_shiftRight]
      by_cases hfirst : first = id
      · rw [if_pos ((wordAt_cons_and_maskAt_eq_iff hids (by omega)).mpr hfirst)]
        subst hfirst
        rw [hword]
        simp only [mem_cons, true_or, if_true, erase_cons_head]
        rw [removed_word hids hlow (by simpa using hlength) (by omega) hfits]
      · rw [wordAt_cons] at hfits
        rw [if_neg (mt (wordAt_cons_and_maskAt_eq_iff hids (by omega)).mp hfirst),
          wordAt_cons, kIdxBits,
          ih (fun other hother => hids other (.tail _ hother)) (by simpa using hlength)
            (by omega) hfits]
        simp [Ne.symm hfirst, erase_cons_tail, hfirst, wordAt_cons]

end Entry

end QfsRepair.ChunkMap
