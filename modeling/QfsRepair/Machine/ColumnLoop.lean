import Mathlib.Data.Fintype.Basic

/-!
# Loops over the columns of an array of buffers

An array of pointers to equally long buffers, `none` for a null pointer.  A
column loop visits the positions of the buffers one after the other and at each
position stores values that it computes from that position of all buffers
only.  Such a loop has the effect of storing all columns at once.
-/

namespace QfsRepair.Machine

open Function Option

variable {words : ℕ} {Value Cursor : Type}

/-- Pointers to buffers of `words` values. -/
abbrev Buffers (words : ℕ) (Value : Type) := ℕ → Option (Fin words → Value)

namespace Buffers

/-- `data[block][position]`. -/
def read (data : Buffers words Value) (block : ℕ) (position : Fin words) :
    Option Value :=
  (data block).map fun buffer => buffer position

/-- `data[block][position] = value`. -/
def write (data : Buffers words Value) (position : Fin words) (block : ℕ)
    (value : Value) : Option (Buffers words Value) :=
  (data block).map fun buffer =>
    update data block (some (update buffer position value))

/-- Several assignments to one position, in order. -/
def writes (data : Buffers words Value) (position : Fin words)
    (values : List (ℕ × Value)) : Option (Buffers words Value) :=
  values.foldlM (fun data entry => data.write position entry.1 entry.2) data

/-- `memset(data[block], value, ...)`. -/
def fill (data : Buffers words Value) (block : ℕ) (value : Value) :
    Option (Buffers words Value) :=
  (data block).map fun _ => update data block (some fun _ => value)

/-- The buffers with the columns in `done` of the blocks in `targets` taken
from `new`. -/
def patch (data : Buffers words Value) (targets : List ℕ) (new : ℕ → Fin words → Value)
    (done : Finset (Fin words)) : Buffers words Value := fun block =>
  if block ∈ targets then
    (data block).map fun old position =>
      if position ∈ done then new block position else old position
  else data block

/-- The buffers with the blocks in `targets` taken from `new`. -/
def replace (data : Buffers words Value) (targets : List ℕ)
    (new : ℕ → Fin words → Value) : Buffers words Value := fun block =>
  if block ∈ targets then some (new block) else data block

variable {data : Buffers words Value} {targets : List ℕ} {new : ℕ → Fin words → Value}
variable {done : Finset (Fin words)} {position : Fin words}

theorem patch_empty : data.patch targets new ∅ = data := by
  funext block
  simp [patch]

theorem patch_univ (hnonnull : ∀ block ∈ targets, (data block).isSome) :
    data.patch targets new Finset.univ = data.replace targets new := by
  funext block
  unfold patch replace
  split_ifs with hblock
  · obtain ⟨old, hold⟩ := isSome_iff_exists.mp (hnonnull block hblock)
    simp [hold]
  · rfl

@[simp]
theorem isSome_patch (block : ℕ) :
    (data.patch targets new done block).isSome = (data block).isSome := by
  unfold patch
  split_ifs <;> simp

theorem read_patch_of_not_mem (hposition : position ∉ done) (block : ℕ) :
    (data.patch targets new done).read block position = data.read block position := by
  unfold read patch
  split_ifs <;> simp [map_map, comp_def, hposition]

theorem fill_eq_replace {block : ℕ} (hnonnull : (data block).isSome) (value : Value) :
    data.fill block value = some (data.replace [block] fun _ _ => value) := by
  obtain ⟨old, hold⟩ := isSome_iff_exists.mp hnonnull
  simp only [fill, hold, map_some]
  congr 1
  funext other
  by_cases hother : other = block <;> simp [replace, hother]

@[simp]
theorem replace_nil : data.replace [] new = data := by
  funext block
  simp [replace]

theorem replace_replace (more : List ℕ) :
    (data.replace targets new).replace more new = data.replace (targets ++ more) new := by
  funext block
  unfold replace
  by_cases hblock : block ∈ targets <;> by_cases hmore : block ∈ more <;> simp [hblock, hmore]

theorem replace_replace_same (newer : ℕ → Fin words → Value) :
    (data.replace targets new).replace targets newer = data.replace targets newer := by
  funext block
  unfold replace
  split_ifs <;> rfl

theorem isSome_replace {block : ℕ} (hnonnull : (data block).isSome) :
    (data.replace targets new block).isSome := by
  unfold replace
  split_ifs
  · rfl
  · exact hnonnull

/-- Assignments to distinct non-null blocks change one position of each. -/
theorem writes_eq (values : ℕ → Value) (hnodup : targets.Nodup)
    (hnonnull : ∀ block ∈ targets, (data block).isSome) :
    data.writes position (targets.map fun block => (block, values block)) =
      some fun block =>
        if block ∈ targets then
          (data block).map fun buffer => update buffer position (values block)
        else data block := by
  induction targets generalizing data with
  | nil => simp [writes]
  | cons target targets ih =>
    obtain ⟨hfresh, hnodup⟩ := List.nodup_cons.mp hnodup
    obtain ⟨old, hold⟩ := isSome_iff_exists.mp (hnonnull target (by simp))
    have hwrite : data.write position target (values target) = some
        (update data target (some (update old position (values target)))) := by
      simp [write, hold]
    have hrest : ∀ block ∈ targets,
        (update data target
          (some (update old position (values target))) block).isSome := by
      intro block hblock
      rw [update_of_ne (ne_of_mem_of_not_mem hblock hfresh)]
      exact hnonnull block (List.mem_cons_of_mem _ hblock)
    have htail := ih hnodup hrest
    unfold writes at htail ⊢
    rw [List.map_cons, List.foldlM_cons, hwrite, bind_eq_bind, bind_some, htail]
    congr 1
    funext block
    by_cases hblock : block = target
    · subst hblock
      simp [hfresh, hold]
    · simp [hblock]

/-- One column of assignments extends the set of columns that are done. -/
theorem writes_patch (hnodup : targets.Nodup) (hnonnull : ∀ block ∈ targets, (data block).isSome) :
    (data.patch targets new done).writes position
        (targets.map fun block => (block, new block position)) =
      some (data.patch targets new (insert position done)) := by
  rw [writes_eq (fun block => new block position) hnodup (by simpa using hnonnull)]
  congr 1
  funext block
  unfold patch
  split_ifs
  · rw [map_map]
    congr 1
    funext old other
    by_cases hother : other = position <;> simp [hother]
  · rfl

end Buffers

/-- One round of a column loop: compute the values of a position, store them
and move the cursor. -/
def columnStep
    (compute : Buffers words Value → Cursor → Fin words →
      Option (List (ℕ × Value) × Cursor))
    (state : Buffers words Value × Cursor) (position : Fin words) :
    Option (Buffers words Value × Cursor) := do
  let computed ← compute state.1 state.2 position
  let data ← state.1.writes position computed.1
  return (data, computed.2)

/-- Visit every position in order. -/
def columnLoop
    (compute : Buffers words Value → Cursor → Fin words →
      Option (List (ℕ × Value) × Cursor))
    (data : Buffers words Value) (cursor : Cursor) : Option (Buffers words Value) :=
  ((List.finRange words).foldlM (columnStep compute) (data, cursor)).map Prod.fst

section ColumnLoop

variable {compute : Buffers words Value → Cursor → Fin words →
    Option (List (ℕ × Value) × Cursor)}
variable {data : Buffers words Value} {cursor : Cursor}

variable (targets : List ℕ) (new : ℕ → Fin words → Value) (hnodup : targets.Nodup)
variable (hnonnull : ∀ block ∈ targets, (data block).isSome)
variable (hcompute : ∀ (current : Buffers words Value) (position : Fin words),
  (∀ block, current.read block position = data.read block position) →
  compute current cursor position =
    some (targets.map fun block => (block, new block position), cursor))

include hnodup hnonnull hcompute

/-- What a loop over some of the positions leaves behind. -/
theorem foldlM_columnStep (positions : List (Fin words)) (hpositions : positions.Nodup)
    (done : Finset (Fin words)) (hdone : ∀ position ∈ positions, position ∉ done) :
    positions.foldlM (columnStep compute) (data.patch targets new done, cursor) =
      some (data.patch targets new (done ∪ positions.toFinset), cursor) := by
  induction positions generalizing done with
  | nil => simp
  | cons position positions ih =>
    obtain ⟨hfresh, hpositions⟩ := List.nodup_cons.mp hpositions
    have hstep : columnStep compute (data.patch targets new done, cursor) position =
        some (data.patch targets new (insert position done), cursor) := by
      have hread := hcompute (data.patch targets new done) position
        (Buffers.read_patch_of_not_mem (hdone position (by simp)))
      simp [columnStep, hread, Buffers.writes_patch hnodup hnonnull]
    have hdone' : ∀ other ∈ positions, other ∉ insert position done := by
      intro other hother
      rw [Finset.mem_insert, not_or]
      exact ⟨ne_of_mem_of_not_mem hother hfresh, hdone other (List.mem_cons_of_mem _ hother)⟩
    rw [List.foldlM_cons, hstep, bind_eq_bind, bind_some, ih hpositions _ hdone']
    simp [Finset.insert_union, Finset.union_insert]

/-- If at every position the values depend on that position of the buffers
alone, and the cursor comes back to where it was, then the loop replaces whole
blocks. -/
theorem columnLoop_eq_replace :
    columnLoop compute data cursor = some (data.replace targets new) := by
  have hloop := foldlM_columnStep targets new hnodup hnonnull hcompute (List.finRange words)
    (List.nodup_finRange words) ∅ (by simp)
  rw [Buffers.patch_empty] at hloop
  rw [columnLoop, hloop, map_some, Finset.empty_union, List.toFinset_finRange,
    Buffers.patch_univ hnonnull]

end ColumnLoop

end QfsRepair.Machine
