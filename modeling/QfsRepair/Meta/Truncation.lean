import QfsRepair.Meta.ChunkRuns

/-!
# The chunks that a truncation leaves

A truncation without an end offset looks for the first chunk from the chunk of
the new size on, and deletes the rest of the chunks of the file.  The chunk that
holds the new size starts below it; it is deleted as well unless the size that
the attribute has is larger, in which case the request is refused.
-/

namespace QfsRepair.Meta.Tree

open List
open Striping (CHUNKSIZE)

variable {tree next : Tree} {env : Environment} {fid : ℤ}

/-! ## Deletion from an offset on -/

theorem chunkStartOffset_aligned (offset : ℤ) : 2 ^ 4 ∣ chunkStartOffset offset :=
  (by decide : (2 ^ 4 : ℤ) ∣ CHUNKSIZE).trans (chunkStartOffset_dvd offset)

theorem le_iff_of_div_eq {bound left right : ℤ} (hbound : 2 ^ 4 ∣ bound)
    (hkey : left / 2 ^ 4 = right / 2 ^ 4) : bound ≤ left ↔ bound ≤ right := by
  omega

/-- A deletion takes out one chunk with the key of the deleted one. -/
theorem getalloc_del_split {chunk : ChunkInfo} (hdel : tree.del (.chunkInfo chunk) = some next) :
    ∃ before found after, tree.getalloc chunk.fid = before ++ found :: after ∧
      next.getalloc chunk.fid = before ++ after ∧
      found.offset / 2 ^ 4 = chunk.offset / 2 ^ 4 := by
  have hany : tree.leaves.any (Item.chunkInfo chunk).deletes = true := by
    by_contra hnone
    rw [del, if_neg hnone] at hdel
    cases hdel
  obtain ⟨leaf, hleaf, hdeletes⟩ := any_eq_true.mp hany
  rw [Item.deletes_chunkInfo, Option.any_eq_true] at hdeletes
  obtain ⟨other, hother, hkey⟩ := hdeletes
  have hmem : other ∈ tree.getalloc chunk.fid := mem_filterMap.mpr ⟨leaf, hleaf, hother⟩
  obtain ⟨found, before, after, -, hfound, hsplit, hrest⟩ := exists_of_eraseP
    (p := fun other => other.offset / 2 ^ 4 = chunk.offset / 2 ^ 4) hmem hkey
  refine ⟨before, found, after, hsplit, ?_, of_decide_eq_true hfound⟩
  rw [getalloc_del_self hdel, hrest]

/-- Chunks from `bound` on are deleted: those below stay, and of the others as
many go as were asked for. -/
theorem deleteChunks_from {bound : ℤ} {deleted : List ChunkInfo} (hbound : 2 ^ 4 ∣ bound)
    (hdeleted : ∀ chunk ∈ deleted, chunk.fid = fid ∧ bound ≤ chunk.offset)
    (hdelete : tree.deleteChunks deleted = some next) :
    (next.getalloc fid).filter (fun chunk => chunk.offset < bound) =
        (tree.getalloc fid).filter (fun chunk => chunk.offset < bound) ∧
      ((next.getalloc fid).filter fun chunk => bound ≤ chunk.offset).length + deleted.length =
        ((tree.getalloc fid).filter fun chunk => bound ≤ chunk.offset).length := by
  induction deleted generalizing tree with
  | nil =>
    cases hdelete
    exact ⟨rfl, rfl⟩
  | cons chunk rest ih =>
    obtain ⟨middle, hdel, hrest⟩ := Option.bind_eq_some_iff.mp hdelete
    obtain ⟨⟨rfl, hchunk⟩, hdeleted⟩ := forall_mem_cons.mp hdeleted
    obtain ⟨hbelow, hcount⟩ := ih hdeleted hrest
    obtain ⟨before, found, after, hsplit, hmiddle, hkey⟩ := getalloc_del_split hdel
    have hfound : bound ≤ found.offset := (le_iff_of_div_eq hbound hkey).mpr hchunk
    rw [hmiddle] at hbelow hcount
    rw [hsplit]
    refine ⟨?_, ?_⟩
    · rw [hbelow, filter_append, filter_append, filter_cons_of_neg]
      simpa using hfound
    · rw [filter_append, filter_cons_of_pos (by simpa using hfound)]
      rw [filter_append] at hcount
      simp only [length_append, length_cons] at hcount ⊢
      omega

/-! ## Truncation -/

section Truncate

variable {file offset endOffset : ℤ} {mtime : Option ℤ} {euser egroup : ℕ}
variable {setEofHintFlag : Bool} {fa : Fattr} {status : Status}

/-- The chunks that are left are those before the chunk of the new size. -/
theorem getalloc_deleteTruncated (hend : endOffset < 0)
    (hdelete : tree.deleteTruncated fa offset mtime endOffset = some (status, next)) :
    next.getalloc fa.id =
      (tree.getalloc fa.id).filter fun chunk => chunk.offset < chunkStartOffset offset := by
  obtain ⟨rest, change, hrest, -, -, -, hneutral⟩ := deleteTruncated_cases hdelete
  rw [hneutral.getalloc, getalloc_modifyFattr]
  rw [truncatedChunks_of_neg hend] at hrest
  obtain ⟨hbelow, hcount⟩ := deleteChunks_from (chunkStartOffset_aligned offset) (by
    intro chunk hchunk
    obtain ⟨hmem, hfrom⟩ := mem_filter.mp (mem_reverse.mp hchunk)
    exact ⟨getalloc_fid hmem, of_decide_eq_true hfrom⟩) hrest
  rw [length_reverse, Nat.add_eq_right, length_eq_zero_iff, filter_eq_nil_iff]
    at hcount
  rw [← hbelow, eq_comm, filter_eq_self]
  intro chunk hchunk
  simpa using hcount chunk hchunk

/-- The chunk of the new size is not deleted: the file has this size already, or
it is striped and only its size changes, or no chunk holds the new size. -/
def KeepsChunkOf (tree : Tree) (file offset : ℤ) : Prop :=
  ∀ fa ∈ tree.getFattr file, fa.filesize = offset ∨ (fa.IsStriped ∧ 0 < offset) ∨
    ∀ chunk ∈ tree.getalloc file,
      ¬ (chunkStartOffset offset ≤ chunk.offset ∧ chunk.offset < offset)

instance (tree : Tree) (file offset : ℤ) : Decidable (tree.KeepsChunkOf file offset) :=
  inferInstanceAs (Decidable (∀ fa ∈ tree.getFattr file, _))

/-- A truncation that succeeds leaves every chunk that starts below the new size
exactly if it does not delete the chunk that holds the new size. -/
theorem truncate_keeps_chunks_iff (hend : endOffset < 0)
    (hok : tree.truncate env file offset mtime euser egroup endOffset setEofHintFlag =
      some (.ok, next)) :
    (∀ chunk ∈ tree.getalloc file, chunk.offset < offset → chunk ∈ next.getalloc file) ↔
      tree.KeepsChunkOf file offset := by
  obtain ⟨-, herror⟩ | ⟨-, fa, firstChunk, hfattr, -, hfound⟩ := truncate_cases hok
  · exact absurd rfl herror
  obtain rfl : fa.id = file := getFattr_id hfattr
  simp only [KeepsChunkOf, hfattr, Option.mem_def, Option.some.injEq, forall_eq']
  obtain ⟨rfl, hsize⟩ | ⟨-, -, hstriped, hpositive, hsized⟩ | ⟨-, hsize, hnotStriped, hdelete⟩ :=
    truncateFile_cases hfound
  · exact iff_of_true (fun chunk hchunk _ => hchunk) (.inl (hsize rfl))
  · refine iff_of_true (fun chunk hchunk _ => ?_) (.inr (.inl ⟨hstriped, hpositive⟩))
    rwa [(neutral_setFileSize hsized).getalloc]
  · rw [getalloc_deleteTruncated hend hdelete]
    constructor
    · intro hkeeps
      refine .inr (.inr fun chunk hchunk hin => ?_)
      have hleft := hkeeps chunk hchunk hin.2
      exact absurd (of_decide_eq_true (mem_filter.mp hleft).2) (not_lt.mpr hin.1)
    · rintro (hsame | ⟨hstriped, hpositive⟩ | hnone) chunk hchunk hbelow
      · exact absurd hsame hsize
      · exact absurd hpositive (not_lt.mpr (hnotStriped hstriped))
      · refine mem_filter.mpr ⟨hchunk, decide_eq_true (not_le.mp fun hfrom => ?_)⟩
        exact hnone chunk hchunk ⟨hfrom, hbelow⟩

/-- A file of two chunks, the size of which is not known, is cut to its first
chunk. -/
theorem truncate_keeps_first_chunk :
    ⟨3, 0, 1, 1⟩ ∈ (oneFile [0] 1 CHUNKSIZE).getalloc 3 := by
  have hok : (oneFile [0, 1] 2 (-1)).truncate quiet 3 CHUNKSIZE none userRoot groupRoot (-1)
      false = some (.ok, oneFile [0] 1 CHUNKSIZE) := by
    decide +kernel
  have hkeeps := (truncate_keeps_chunks_iff (by decide) hok).mpr (by decide +kernel)
  exact hkeeps ⟨3, 0, 1, 1⟩ (by decide +kernel) (by decide)

/-- A file of ten bytes is extended to twenty: its chunk is deleted. -/
theorem not_truncate_keeps_extended :
    (oneFile [0] 1 10).truncate quiet 3 20 none userRoot groupRoot (-1) false =
        some (.ok, oneFile [] 1 20) ∧
      ⟨3, 0, 1, 1⟩ ∈ (oneFile [0] 1 10).getalloc 3 ∧
      (oneFile [] 1 20).getalloc 3 = [] := by
  decide +kernel

end Truncate

end QfsRepair.Meta.Tree
