import QfsRepair.Meta.Views
import QfsRepair.Striping.Addressing
import Mathlib.Tactic.Positivity

/-!
# The chunks of a file and its attribute

A file's attribute counts its chunk infos, their offsets are distinct multiples
of `CHUNKSIZE`, and all lie below its next chunk offset.  This module states
the invariant and shows what a single update of the tree does to it.
-/

namespace QfsRepair.Meta

open Option
open Striping (CHUNKSIZE wrap64)

namespace Fattr

/-- The attribute describes the chunk infos. -/
structure Consistent (fa : Fattr) (chunks : List ChunkInfo) : Prop where
  count : fa.chunkcount = chunks.length
  distinct : (chunks.map ChunkInfo.offset).Nodup
  aligned : ∀ chunk ∈ chunks, CHUNKSIZE ∣ chunk.offset
  below : ∀ chunk ∈ chunks, chunk.offset < fa.nextChunkOffset

/-- The invariant with what it needs to be kept: no offset is negative, and a
chunk can be placed at the next chunk offset. -/
structure Sound (fa : Fattr) (chunks : List ChunkInfo) : Prop extends Consistent fa chunks where
  nonneg : ∀ chunk ∈ chunks, 0 ≤ chunk.offset
  nextAligned : CHUNKSIZE ∣ fa.nextChunkOffset
  nextNonneg : 0 ≤ fa.nextChunkOffset

/-- Two attributes that count chunks alike, if they are those of files. -/
def SameCounts (fa other : Fattr) : Prop :=
  other.type = fa.type ∧
    (fa.type = .file → other.subcount1 = fa.subcount1 ∧ other.subcount2 = fa.subcount2)

variable {fa other : Fattr} {chunks : List ChunkInfo}

theorem SameCounts.refl (fa : Fattr) : fa.SameCounts fa := ⟨rfl, fun _ => ⟨rfl, rfl⟩⟩

theorem Sound.congr (hsound : fa.Sound chunks) (hsame : fa.SameCounts other)
    (htype : fa.type = .file) : other.Sound chunks := by
  obtain ⟨hcount, hnext⟩ := hsame.2 htype
  obtain ⟨⟨count, distinct, aligned, below⟩, nonneg, nextAligned, nextNonneg⟩ := hsound
  refine ⟨⟨hcount.trans count, distinct, aligned, ?_⟩, nonneg, ?_, ?_⟩
  · rwa [nextChunkOffset, hnext]
  · rwa [nextChunkOffset, hnext]
  · rwa [nextChunkOffset, hnext]

theorem Sound.perm {permuted : List ChunkInfo} (hsound : fa.Sound chunks)
    (hperm : permuted.Perm chunks) : fa.Sound permuted where
  count := by rw [hsound.count, hperm.length_eq]
  distinct := (hperm.map _).nodup_iff.mpr hsound.distinct
  aligned := fun chunk hchunk => hsound.aligned chunk (hperm.mem_iff.mp hchunk)
  below := fun chunk hchunk => hsound.below chunk (hperm.mem_iff.mp hchunk)
  nonneg := fun chunk hchunk => hsound.nonneg chunk (hperm.mem_iff.mp hchunk)
  nextAligned := hsound.nextAligned
  nextNonneg := hsound.nextNonneg

/-- Chunks of a file that agree in their keys are equal. -/
theorem Consistent.eq_of_key (hconsistent : fa.Consistent chunks) {left right : ChunkInfo}
    (hleft : left ∈ chunks) (hright : right ∈ chunks)
    (hkey : left.offset / 2 ^ 4 = right.offset / 2 ^ 4) : left = right := by
  obtain ⟨leftIndex, hleftOffset⟩ := hconsistent.aligned left hleft
  obtain ⟨rightIndex, hrightOffset⟩ := hconsistent.aligned right hright
  rw [CHUNKSIZE] at hleftOffset hrightOffset
  exact List.inj_on_of_nodup_map hconsistent.distinct hleft hright (by omega)

/-- A file that has lost its last chunks or some others. -/
theorem Sound.sublist {rest : List ChunkInfo} (hsound : fa.Sound chunks)
    (hrest : rest.Sublist chunks) (hcount : other.chunkcount = rest.length)
    (hbelow : ∀ chunk ∈ rest, chunk.offset < other.nextChunkOffset)
    (haligned : CHUNKSIZE ∣ other.nextChunkOffset) (hnonneg : 0 ≤ other.nextChunkOffset) :
    other.Sound rest where
  count := hcount
  distinct := hsound.distinct.sublist (hrest.map _)
  aligned := fun chunk hchunk => hsound.aligned chunk (hrest.subset hchunk)
  below := hbelow
  nonneg := fun chunk hchunk => hsound.nonneg chunk (hrest.subset hchunk)
  nextAligned := haligned
  nextNonneg := hnonneg

/-- A place for one more chunk: a multiple of `CHUNKSIZE` that is free and far
enough from the end of the 64 bit offsets. -/
structure FreeBoundary (chunks : List ChunkInfo) (boundary : ℤ) : Prop where
  free : ∀ chunk ∈ chunks, chunk.offset ≠ boundary
  aligned : CHUNKSIZE ∣ boundary
  nonneg : 0 ≤ boundary
  small : boundary + CHUNKSIZE < 2 ^ 63

theorem wrap64_boundary {boundary : ℤ} (hboundary : FreeBoundary chunks boundary) :
    wrap64 (boundary + CHUNKSIZE) = boundary + CHUNKSIZE := by
  have hnonneg := hboundary.nonneg
  apply Striping.wrap64_of_bounds _ hboundary.small
  rw [CHUNKSIZE]
  omega

/-- A file that has got one more chunk. -/
theorem Sound.cons {chunk : ChunkInfo} (hsound : fa.Sound chunks)
    (hboundary : FreeBoundary chunks chunk.offset) (hcount : other.chunkcount = fa.chunkcount + 1)
    (hnext : other.nextChunkOffset =
      if fa.nextChunkOffset ≤ chunk.offset then wrap64 (chunk.offset + CHUNKSIZE)
      else fa.nextChunkOffset) : other.Sound (chunk :: chunks) := by
  rw [wrap64_boundary hboundary] at hnext
  have hchunkSize : 0 < CHUNKSIZE := by decide
  have hnonneg := hboundary.nonneg
  have hlarger : fa.nextChunkOffset ≤ other.nextChunkOffset ∧
      chunk.offset < other.nextChunkOffset := by
    rw [hnext]
    split_ifs <;> omega
  refine ⟨⟨?_, ?_, ?_, ?_⟩, ?_, ?_, ?_⟩
  · rw [hcount, hsound.count, List.length_cons, Nat.cast_add, Nat.cast_one]
  · rw [List.map_cons, List.nodup_cons]
    refine ⟨?_, hsound.distinct⟩
    rw [List.mem_map]
    rintro ⟨found, hfound, hoffset⟩
    exact hboundary.free found hfound hoffset
  · exact List.forall_mem_cons.mpr ⟨hboundary.aligned, hsound.aligned⟩
  · refine List.forall_mem_cons.mpr ⟨hlarger.2, ?_⟩
    intro found hfound
    exact (hsound.below found hfound).trans_le hlarger.1
  · exact List.forall_mem_cons.mpr ⟨hnonneg, hsound.nonneg⟩
  · rw [hnext]
    split_ifs
    · exact dvd_add hboundary.aligned dvd_rfl
    · exact hsound.nextAligned
  · omega

end Fattr

namespace Tree

variable {tree next : Tree} {fid : ℤ} {fa : Fattr}

/-! ## Trees -/

/-- Every file's attribute describes its chunk infos. -/
def ChunksConsistent (tree : Tree) : Prop :=
  ∀ fid fa, tree.getFattr fid = some fa → fa.type = .file → fa.Consistent (tree.getalloc fid)

/-- The invariant of runs, for all files but those in `exempt`. -/
structure SoundOutside (tree : Tree) (exempt : Set ℤ) : Prop where
  ids : tree.IdsDistinct
  files : ∀ fid fa, fid ∉ exempt → tree.getFattr fid = some fa → fa.type = .file →
    fa.Sound (tree.getalloc fid)

/-- The invariant of runs. -/
def ChunksSound (tree : Tree) : Prop := tree.SoundOutside ∅

variable {exempt : Set ℤ}

theorem ChunksSound.sound (hsound : tree.ChunksSound) (hfattr : tree.getFattr fid = some fa)
    (htype : fa.type = .file) : fa.Sound (tree.getalloc fid) :=
  hsound.files fid fa (Set.notMem_empty fid) hfattr htype

theorem ChunksSound.consistent (hsound : tree.ChunksSound) : tree.ChunksConsistent :=
  fun _ _ hfattr htype => (hsound.sound hfattr htype).toConsistent

/-- A change of one file. -/
theorem SoundOutside.update (hsound : tree.SoundOutside ({fid} ∪ exempt)) (hids : next.IdsDistinct)
    (hothers : ∀ other, other ≠ fid →
      next.getFattr other = tree.getFattr other ∧ next.getalloc other = tree.getalloc other)
    (hfile : ∀ fa, next.getFattr fid = some fa → fa.type = .file → fa.Sound (next.getalloc fid)) :
    next.SoundOutside exempt := by
  refine ⟨hids, ?_⟩
  intro other fa hexempt hfattr htype
  by_cases hother : other = fid
  · subst hother
    exact hfile fa hfattr htype
  · obtain ⟨hsame, halloc⟩ := hothers other hother
    rw [hsame] at hfattr
    rw [halloc]
    exact hsound.files other fa (by simp [hother, hexempt]) hfattr htype

theorem SoundOutside.mono {larger : Set ℤ} (hsound : tree.SoundOutside exempt)
    (hsubset : exempt ⊆ larger) : tree.SoundOutside larger :=
  ⟨hsound.ids, fun fid fa hfid => hsound.files fid fa fun hmem => hfid (hsubset hmem)⟩

/-- A change of the tree that no file's chunks take part in. -/
structure Neutral (tree next : Tree) : Prop where
  ids : next.fattrIds = tree.fattrIds
  seed : next.fileIdSeed = tree.fileIdSeed
  getalloc : ∀ fid, next.getalloc fid = tree.getalloc fid
  fattrs : ∀ fid fa, next.getFattr fid = some fa →
    ∃ before, tree.getFattr fid = some before ∧ before.SameCounts fa

theorem Neutral.refl (tree : Tree) : Neutral tree tree :=
  ⟨rfl, rfl, fun _ => rfl, fun _ fa hfattr => ⟨fa, hfattr, Fattr.SameCounts.refl fa⟩⟩

theorem Neutral.trans {last : Tree} (hfirst : Neutral tree next) (hsecond : Neutral next last) :
    Neutral tree last where
  ids := hsecond.ids.trans hfirst.ids
  seed := hsecond.seed.trans hfirst.seed
  getalloc := fun fid => (hsecond.getalloc fid).trans (hfirst.getalloc fid)
  fattrs := by
    intro fid fa hfattr
    obtain ⟨middle, hmiddle, htype, hcounts⟩ := hsecond.fattrs fid fa hfattr
    obtain ⟨before, hbefore, htype', hcounts'⟩ := hfirst.fattrs fid middle hmiddle
    refine ⟨before, hbefore, htype.trans htype', ?_⟩
    intro hfile
    obtain ⟨hone, htwo⟩ := hcounts (htype'.trans hfile)
    obtain ⟨hone', htwo'⟩ := hcounts' hfile
    exact ⟨hone.trans hone', htwo.trans htwo'⟩

theorem Neutral.exists_getFattr (hneutral : Neutral tree next)
    (hfattr : tree.getFattr fid = some fa) :
    ∃ after, next.getFattr fid = some after ∧ fa.SameCounts after := by
  cases hafter : next.getFattr fid with
  | none =>
    rw [getFattr_eq_none_iff, hneutral.ids, ← getFattr_eq_none_iff, hfattr] at hafter
    cases hafter
  | some after =>
    obtain ⟨before, hbefore, hsame⟩ := hneutral.fattrs fid after hafter
    obtain rfl : fa = before := some.inj (hfattr.symm.trans hbefore)
    exact ⟨after, rfl, hsame⟩

theorem IdsDistinct.neutral (hids : tree.IdsDistinct) (hneutral : Neutral tree next) :
    next.IdsDistinct := by
  refine ⟨?_, ?_⟩
  · rw [hneutral.ids]
    exact hids.nodup
  · rw [hneutral.ids, hneutral.seed]
    exact hids.le_seed

theorem SoundOutside.neutral (hsound : tree.SoundOutside exempt) (hneutral : Neutral tree next) :
    next.SoundOutside exempt := by
  refine ⟨hsound.ids.neutral hneutral, ?_⟩
  intro fid fa hexempt hfattr htype
  obtain ⟨before, hbefore, hsame⟩ := hneutral.fattrs fid fa hfattr
  have hfile : before.type = .file := hsame.1.symm.trans htype
  rw [hneutral.getalloc]
  exact (hsound.files fid before hexempt hbefore hfile).congr hsame hfile

/-! ### Neutral updates -/

theorem neutral_insert_dentry (entry : Dentry) : Neutral tree (tree.insert (.dentry entry)) where
  ids := fattrIds_insert_dentry entry
  seed := rfl
  getalloc := fun _ => getalloc_insert_dentry entry
  fattrs := by
    intro fid fa hfattr
    rw [getFattr_insert_dentry] at hfattr
    exact ⟨fa, hfattr, Fattr.SameCounts.refl fa⟩

theorem neutral_del_dentry {entry : Dentry} (hdel : tree.del (.dentry entry) = some next) :
    Neutral tree next where
  ids := fattrIds_del_dentry hdel
  seed := by rw [del_eq_some hdel]
  getalloc := fun _ => getalloc_del_dentry hdel
  fattrs := by
    intro fid fa hfattr
    rw [getFattr_del_dentry hdel] at hfattr
    exact ⟨fa, hfattr, Fattr.SameCounts.refl fa⟩

section Modify

variable {target : ℤ} {change : Fattr → Fattr}

/-- An update that keeps the counts of files. -/
theorem neutral_modifyFattr (hid : ∀ fa, (change fa).id = fa.id)
    (hsame : ∀ fa, tree.getFattr target = some fa → fa.SameCounts (change fa)) :
    Neutral tree (tree.modifyFattr target change) where
  ids := fattrIds_modifyFattr hid
  seed := rfl
  getalloc := fun _ => getalloc_modifyFattr
  fattrs := by
    intro fid fa hfattr
    rw [getFattr_modifyFattr hid] at hfattr
    split_ifs at hfattr with htarget
    · subst htarget
      obtain ⟨before, hbefore, rfl⟩ := map_eq_some_iff.mp hfattr
      exact ⟨before, hbefore, hsame before hbefore⟩
    · exact ⟨fa, hfattr, Fattr.SameCounts.refl fa⟩

end Modify

theorem neutral_setMtime (mtime : ℤ) : Neutral tree (tree.setMtime fid mtime) :=
  neutral_modifyFattr (fun _ => rfl) fun fa _ => Fattr.SameCounts.refl fa

theorem neutral_invalidateFileSize : Neutral tree (tree.invalidateFileSize fid) :=
  neutral_modifyFattr (fun _ => rfl) fun fa _ => Fattr.SameCounts.refl fa

/-- The counters of directories are those of attributes that are no files. -/
theorem neutral_addCounts {nbytes nfiles ndirs : ℤ} {fuel : ℕ}
    (hcounts : addCounts nbytes nfiles ndirs fuel tree fid = some next) : Neutral tree next := by
  induction fuel generalizing tree fid with
  | zero => cases hcounts
  | succ fuel ih =>
    simp only [addCounts, bind_eq_some_iff] at hcounts
    obtain ⟨fa, -, hcounts⟩ := hcounts
    split at hcounts
    · split_ifs at hcounts
      cases hcounts
      exact Neutral.refl _
    · obtain ⟨parent, hparent, hcounts⟩ := bind_eq_some_iff.mp hcounts
      split_ifs at hcounts with hrefused
      refine Neutral.trans ?_ (ih hcounts)
      refine neutral_modifyFattr (fun _ => rfl) ?_
      intro found hfound
      obtain rfl : parent = found := some.inj (hparent.symm.trans hfound)
      have hdir : parent.type = .dir := by
        by_contra hne
        exact hrefused (.inl hne)
      exact ⟨rfl, fun htype => absurd (hdir.symm.trans htype) (by decide)⟩

theorem neutral_updateCounts {nbytes nfiles ndirs : ℤ}
    (hcounts : tree.updateCounts fid nbytes nfiles ndirs = some next) : Neutral tree next := by
  rw [updateCounts] at hcounts
  split_ifs at hcounts
  · cases hcounts
    exact Neutral.refl _
  · exact neutral_addCounts hcounts

theorem neutral_setFileSize {size nfiles ndirs : ℤ}
    (hsize : tree.setFileSize fid size nfiles ndirs = some next) : Neutral tree next := by
  simp only [setFileSize, bind_eq_some_iff] at hsize
  obtain ⟨fa, -, hsize⟩ := hsize
  split_ifs at hsize
  obtain ⟨counted, hcounts, rfl⟩ := map_eq_some_iff.mp hsize
  refine (neutral_updateCounts hcounts).trans ?_
  exact neutral_modifyFattr (fun _ => rfl) fun fa _ => Fattr.SameCounts.refl fa

theorem neutral_growFileSize {size : ℤ} (hsize : tree.growFileSize fid size = some next) :
    Neutral tree next := by
  simp only [growFileSize, bind_eq_some_iff] at hsize
  obtain ⟨fa, -, hsize⟩ := hsize
  split_ifs at hsize
  · exact neutral_setFileSize hsize
  · cases hsize
    exact Neutral.refl _

end Tree

end QfsRepair.Meta
