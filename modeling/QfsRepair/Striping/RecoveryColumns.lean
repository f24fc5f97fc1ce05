import QfsRepair.Striping.WriteStriper
import Mathlib.Data.List.GetD

/-!
# Encoding over fragmented buffers

The encoding loop of `ComputeRecovery` walks over the data buffers in lockstep.
In each round the shortest of the fragments limits how many columns are encoded.
Whatever the fragments are, the loop encodes the columns of the buffers.
-/

namespace QfsRepair.Striping

open Machine List

/-- What a cursor has left to be read. -/
structure BufferCursor.Denotes (cursor : BufferCursor) (left : List Byte) : Prop where
  skip_nonneg : 0 ≤ cursor.skip
  drop_eq : (Machine.contents cursor.fragments).drop cursor.skip.toNat = left

/-- The cursor moved on. -/
def BufferCursor.advance (cursor : BufferCursor) (len : ℤ) : BufferCursor :=
  ⟨cursor.fragments, cursor.skip + len⟩

variable {cursor : BufferCursor} {left : List Byte} {len : ℕ}

section Fetch

variable (hdenotes : cursor.Denotes left) (hpos : 0 < len) (haligned : kAlign ∣ len)
variable (hlen : len ≤ left.length)

include hdenotes hpos haligned hlen

/-- The memory shows the bytes that come next, and every aligned step within it
leads to the bytes behind it. -/
theorem fetch_eq :
    ∃ (memory : List Byte) (size : ℕ) (next : BufferCursor),
      fetch cursor len = some (memory, (size : ℤ), next) ∧
      0 < size ∧ size ≤ len ∧ kAlign ∣ size ∧ memory.take size = left.take size ∧
      ∀ step : ℕ, 0 < step → step ≤ size → kAlign ∣ step →
        (next.advance step).Denotes (left.drop step) := by
  obtain ⟨hskip, rfl⟩ := hdenotes
  obtain ⟨fragments, skip⟩ := cursor
  lift skip to ℕ using hskip
  simp only [Int.toNat_natCast, length_drop] at *
  have hkAlign : kAlign ≤ len := Nat.le_of_dvd hpos haligned
  obtain ⟨fragment, rest, place, hskipped, hplace, hleft⟩ :=
    @skipFragments_eq _ fragments skip (by omega)
  have hlength := congrArg length hleft
  simp only [length_append, length_drop] at hlength
  simp only [fetch, hskipped, Int.toNat_natCast, length_drop,
    if_neg (show ¬ ((place : ℤ) < 0) by omega)]
  rw [← hleft]
  by_cases hsmall : fragment.values.length - place < kAlign
  · -- the bytes at the end of the fragment are joined with those of the next ones
    obtain ⟨others, copied, hcopy, -, hothers⟩ := @copyOut_eq _ rest
      (kAlign - (fragment.values.length - place)) (by omega) (by omega)
    refine ⟨fragment.values.drop place ++
        (contents rest).take (kAlign - (fragment.values.length - place)),
      kAlign, ⟨others, copied - kAlign⟩, by rw [if_pos hsmall, hcopy]; rfl, by decide, hkAlign,
      dvd_rfl, ?_, ?_⟩
    · rw [take_append, take_append, length_drop, take_take, min_self]
    · intro step hstep hle haligned'
      have hstep' : step = kAlign := le_antisymm hle (Nat.le_of_dvd hstep haligned')
      subst hstep'
      refine ⟨by simp only [BufferCursor.advance]; omega, ?_⟩
      simp only [BufferCursor.advance, sub_add_cancel, Int.toNat_natCast]
      have hgone : (fragment.values.drop place).drop kAlign = [] :=
        drop_of_length_le (by rw [length_drop]; omega)
      rw [hothers, drop_append, hgone, length_drop, nil_append]
  · have hwhole : kAlign ∣ fragment.values.length - place -
        (fragment.values.length - place) % kAlign := Nat.dvd_sub_mod _
    have hwhole_pos : 0 < fragment.values.length - place -
        (fragment.values.length - place) % kAlign := by
      have hmod : (fragment.values.length - place) % kAlign < kAlign := Nat.mod_lt _ (by decide)
      omega
    generalize hbound : fragment.values.length - place -
      (fragment.values.length - place) % kAlign = bound at *
    have hnext : ∀ size : ℕ, size ≤ fragment.values.length - place → ∀ step : ℕ, step ≤ size →
        (BufferCursor.advance ⟨fragment :: rest, (place : ℤ)⟩ step).Denotes
          ((fragment.values.drop place ++ contents rest).drop step) := by
      intro size hsize step hstep
      refine ⟨by simp only [BufferCursor.advance]; omega, ?_⟩
      simp only [BufferCursor.advance, contents_cons]
      rw [← Nat.cast_add, Int.toNat_natCast, drop_append_of_le_length (by omega),
        drop_append_of_le_length (by simp; omega), drop_drop]
    have hmin : kAlign ∣ min len bound := by
      rcases min_choice len bound with h | h <;> rw [h] <;> assumption
    rw [← Nat.cast_min]
    split_ifs with hunaligned
    · have htemp : kTempBufSize = ((256 : ℕ) : ℤ) := rfl
      rw [htemp, ← Nat.cast_min, Int.toNat_natCast]
      have hmin' : kAlign ∣ min 256 (min len bound) := by
        rcases min_choice 256 (min len bound) with h | h <;> rw [h]
        · decide
        · exact hmin
      refine ⟨_, min 256 (min len bound), _, rfl, by omega, by omega, hmin', ?_, ?_⟩
      · rw [take_take, min_self, take_append_of_le_length (by simp; omega)]
      · exact fun step _ hstep _ => hnext _ (by omega) step hstep
    · refine ⟨_, min len bound, _, rfl, by omega, by omega, hmin, ?_, ?_⟩
      · rw [take_append_of_le_length (by simp; omega)]
      · exact fun step _ hstep _ => hnext _ (by omega) step hstep

end Fetch

/-- One row: the same number of columns is shown for every buffer. -/
theorem fetchAll_eq {cursors : List BufferCursor} {lefts : List (List Byte)}
    (hdenotes : List.Forall₂ BufferCursor.Denotes cursors lefts) (hpos : 0 < len)
    (haligned : kAlign ∣ len) (hlen : ∀ left ∈ lefts, len ≤ left.length) :
    ∃ (memories : List (List Byte)) (size : ℕ) (nexts : List BufferCursor),
      fetchAll len cursors = some (memories, (size : ℤ), nexts) ∧
      0 < size ∧ size ≤ len ∧ kAlign ∣ size ∧
      List.Forall₂ (fun memory left => memory.take size = left.take size) memories lefts ∧
      List.Forall₂ BufferCursor.Denotes (nexts.map fun next => next.advance size)
        (lefts.map fun left => left.drop size) := by
  induction hdenotes generalizing len with
  | nil => exact ⟨[], len, [], rfl, hpos, le_rfl, haligned, .nil, .nil⟩
  | @cons cursor left cursors lefts hcursor _ ih =>
    obtain ⟨memory, size, next, hfetch, hsize, hle, hsize', hmemory, hnext⟩ :=
      fetch_eq hcursor hpos haligned (hlen left (by simp))
    obtain ⟨memories, size', nexts, hothers, hpos', hle', haligned', hmemories, hnexts⟩ :=
      ih hsize hsize' fun left hleft => hle.trans (hlen left (by simp [hleft]))
    refine ⟨memory :: memories, size', next :: nexts, ?_, hpos', hle'.trans hle, haligned',
      .cons ?_ hmemories, .cons (hnext size' hpos' hle' haligned') hnexts⟩
    · simp [fetchAll, hfetch, hothers, Option.bind_eq_bind, Option.bind_some]
    · have htake := congrArg (take size') hmemory
      simpa only [take_take, min_eq_left hle'] using htake

/-- Buffers that agree on their front have the same columns there. -/
theorem column_eq {memories lefts : List (List Byte)} {size place : ℕ}
    (hagree : List.Forall₂ (fun memory left => memory.take size = left.take size) memories lefts)
    (hplace : place < size) (index : ℕ) :
    (memories.getD index []).getD place 0 = (lefts.getD index []).getD place 0 := by
  induction hagree generalizing index with
  | nil => rfl
  | @cons memory left _ _ hhead _ ih =>
    cases index with
    | zero =>
      have hget := congrArg (fun bytes => bytes[place]?) hhead
      simp only [getElem?_take_of_lt hplace] at hget
      simp [getD_eq_getElem?_getD, hget]
    | succ index => simpa using ih index

/-- The loop encodes the columns of what the cursors have left to be read. -/
theorem encodeLoop_eq (env : WriteEnvironment) {size : ℤ} {rounds : ℕ} {pos : ℤ}
    {cursors : List BufferCursor} {lefts : List (List Byte)} {count : ℕ}
    (hdenotes : List.Forall₂ BufferCursor.Denotes cursors lefts) (hrounds : count ≤ rounds)
    (hcount : size - pos = count) (haligned : kAlign ∣ count)
    (hlen : ∀ left ∈ lefts, count ≤ left.length) :
    encodeLoop env size rounds pos cursors =
      some ((List.range count).map fun place =>
        env.encode fun index => (lefts.getD index []).getD place 0) := by
  induction rounds generalizing pos cursors lefts count with
  | zero =>
    obtain rfl : count = 0 := by omega
    rw [encodeLoop, if_neg (by omega)]
    rfl
  | succ rounds ih =>
    rcases Nat.eq_zero_or_pos count with rfl | hpos
    · rw [encodeLoop, if_neg (by omega)]
      rfl
    · obtain ⟨memories, step, nexts, hfetch, hstep, hle, hstep', hmemories, hnexts⟩ :=
        fetchAll_eq hdenotes hpos haligned hlen
      have hothers := @ih (pos + step) (nexts.map fun next => next.advance step)
        (lefts.map fun left => left.drop step) (count - step) hnexts (by omega) (by omega)
        (Nat.dvd_sub haligned hstep') (by
          simp only [mem_map, forall_exists_index, and_imp, forall_apply_eq_imp_iff₂, length_drop]
          exact fun left hleft => Nat.sub_le_sub_right (hlen left hleft) step)
      simp only [BufferCursor.advance] at hothers
      rw [encodeLoop, if_pos (by omega), hcount, hfetch]
      simp only [Option.bind_eq_bind, Option.bind_some, Int.toNat_natCast, hothers]
      have hsplit : count = step + (count - step) := by omega
      conv_rhs => rw [hsplit, range_add, map_append, map_map]
      congr 2
      · apply map_congr_left
        intro place hplace
        exact congrArg env.encode
          (funext (column_eq hmemories (mem_range.mp hplace)))
      · apply map_congr_left
        intro place _
        refine congrArg env.encode (funext fun index => ?_)
        have hdrop : (lefts.map fun left => left.drop step).getD index [] =
            (lefts.getD index []).drop step := by
          rw [← @drop_nil, getD_map, drop_nil]
        rw [hdrop, getD_eq_getElem?_getD, getElem?_drop]
        rfl

end QfsRepair.Striping
