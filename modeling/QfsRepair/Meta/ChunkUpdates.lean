import QfsRepair.Meta.FileChunks
import Mathlib.Data.List.TakeWhile

/-!
# Updates of the chunks of files

What `assignChunkId`, `coalesceBlocks` and `truncate` do to the chunk infos and
the counts of every file.  Each keeps the invariant of `FileChunks`, provided
that offsets stay within 64 bits and that no call cuts the head off a file
whose known size ends before the cut while chunks remain behind it.
-/

namespace QfsRepair.Meta

open List
open Striping (CHUNKSIZE wrap64)
open Option hiding map_map

theorem chunkStartOffset_dvd (offset : ℤ) : CHUNKSIZE ∣ chunkStartOffset offset :=
  Dvd.intro_left _ rfl

theorem chunkStartOffset_le (offset : ℤ) : chunkStartOffset offset ≤ offset := by
  rw [chunkStartOffset, CHUNKSIZE]
  omega

variable {offset : ℤ}

theorem chunkStartOffset_nonneg (hoffset : 0 ≤ offset) :
    0 ≤ chunkStartOffset offset := by
  rw [chunkStartOffset, CHUNKSIZE]
  omega

theorem chunkStartOffset_of_dvd (hdvd : CHUNKSIZE ∣ offset) :
    chunkStartOffset offset = offset :=
  Int.ediv_mul_cancel hdvd

namespace Tree

variable {tree next : Tree} {env : Environment} {fid : ℤ} {fa : Fattr} {chunk : ChunkInfo}

theorem getalloc_fid (hchunk : chunk ∈ tree.getalloc fid) :
    chunk.fid = fid := by
  obtain ⟨item, -, hitem⟩ := mem_filterMap.mp hchunk
  cases item with
  | chunkInfo other =>
    simp only [Item.chunkWith, ite_none_right_eq_some, some.injEq] at hitem
    exact hitem.2 ▸ hitem.1
  | _ => cases hitem

/-! ## Deleted chunks -/

/-- A change that concerns the chunk infos of one file only. -/
structure ChunkFrame (tree next : Tree) (fid : ℤ) : Prop where
  ids : next.fattrIds = tree.fattrIds
  seed : next.fileIdSeed = tree.fileIdSeed
  getFattr : ∀ other, next.getFattr other = tree.getFattr other
  getalloc : ∀ other, other ≠ fid → next.getalloc other = tree.getalloc other

theorem chunkFrame_del (hdel : tree.del (.chunkInfo chunk) = some next) :
    ChunkFrame tree next chunk.fid where
  ids := fattrIds_del_chunkInfo hdel
  seed := by rw [del_eq_some hdel]
  getFattr := fun _ => getFattr_del_chunkInfo hdel
  getalloc := fun _ hother => getalloc_del_of_ne hdel hother.symm

theorem ChunkFrame.trans {last : Tree} (hfirst : ChunkFrame tree next fid)
    (hsecond : ChunkFrame next last fid) : ChunkFrame tree last fid where
  ids := hsecond.ids.trans hfirst.ids
  seed := hsecond.seed.trans hfirst.seed
  getFattr := fun other => (hsecond.getFattr other).trans (hfirst.getFattr other)
  getalloc := fun other hother =>
    (hsecond.getalloc other hother).trans (hfirst.getalloc other hother)

variable {exempt : Set ℤ}

/-- Other files stay as they are. -/
theorem SoundOutside.frame (hsound : tree.SoundOutside exempt) (hframe : ChunkFrame tree next fid)
    (hexempt : fid ∈ exempt) : next.SoundOutside exempt := by
  refine ⟨⟨?_, ?_⟩, ?_⟩
  · rw [hframe.ids]
    exact hsound.ids.nodup
  · rw [hframe.ids, hframe.seed]
    exact hsound.ids.le_seed
  · intro other fa hother hfattr htype
    rw [hframe.getFattr] at hfattr
    rw [hframe.getalloc other fun heq => hother (heq ▸ hexempt)]
    exact hsound.files other fa hother hfattr htype

/-- The chunk infos have distinct keys. -/
def KeysDistinct (chunks : List ChunkInfo) : Prop :=
  ∀ left ∈ chunks, ∀ right ∈ chunks,
    left.offset / 2 ^ 4 = right.offset / 2 ^ 4 → left = right

theorem getalloc_del_eq_erase (hkeys : KeysDistinct (tree.getalloc chunk.fid))
    (hchunk : chunk ∈ tree.getalloc chunk.fid) (hdel : tree.del (.chunkInfo chunk) = some next) :
    next.getalloc chunk.fid = (tree.getalloc chunk.fid).erase chunk := by
  rw [getalloc_del_self hdel]
  apply Store.eraseP_eq_erase
  intro other hother
  rw [decide_eq_true_iff]
  exact ⟨hkeys other hother chunk hchunk, fun heq => by rw [heq]⟩

variable {deleted : List ChunkInfo}

/-- Deleting chunks of a file takes them, and nothing else, out of its list. -/
theorem deleteChunks_spec (hkeys : KeysDistinct (tree.getalloc fid))
    (hsubset : deleted ⊆ tree.getalloc fid) (hnodup : deleted.Nodup)
    (hdelete : tree.deleteChunks deleted = some next) :
    ChunkFrame tree next fid ∧ next.getalloc fid = (tree.getalloc fid).diff deleted := by
  induction deleted generalizing tree with
  | nil =>
    cases hdelete
    exact ⟨⟨rfl, rfl, fun _ => rfl, fun _ _ => rfl⟩, rfl⟩
  | cons chunk rest ih =>
    obtain ⟨middle, hdel, hrest⟩ := bind_eq_some_iff.mp hdelete
    obtain ⟨hchunk, hsubset⟩ := cons_subset.mp hsubset
    obtain ⟨hnotin, hnodup⟩ := nodup_cons.mp hnodup
    obtain rfl : chunk.fid = fid := getalloc_fid hchunk
    have herase := getalloc_del_eq_erase hkeys hchunk hdel
    have hkeys' : KeysDistinct (middle.getalloc chunk.fid) := by
      rw [herase]
      intro left hleft right hright
      exact hkeys left (mem_of_mem_erase hleft) right (mem_of_mem_erase hright)
    have hsubset' : rest ⊆ middle.getalloc chunk.fid := by
      rw [herase]
      intro other hother
      refine (mem_erase_of_ne ?_).mpr (hsubset hother)
      rintro rfl
      exact hnotin hother
    obtain ⟨hframe, hgetalloc⟩ := ih hkeys' hsubset' hnodup hrest
    refine ⟨(chunkFrame_del hdel).trans hframe, ?_⟩
    rw [hgetalloc, herase, diff_cons]

/-! ## New chunks -/

/-- An update of the attribute of a file that gets a chunk at `boundary`. -/
structure CountsChunk (boundary : ℤ) (change : Fattr → Fattr) : Prop where
  id : ∀ fa, (change fa).id = fa.id
  type : ∀ fa, (change fa).type = fa.type
  chunkcount : ∀ fa, (change fa).chunkcount = fa.chunkcount + 1
  nextChunkOffset : ∀ fa, (change fa).nextChunkOffset =
    if fa.nextChunkOffset ≤ boundary then wrap64 (boundary + CHUNKSIZE) else fa.nextChunkOffset

theorem countsChunk_addChunk (boundary : ℤ) (keepSize : Bool) :
    CountsChunk boundary (Fattr.addChunk boundary keepSize) := by
  constructor <;> intro fa <;> rw [Fattr.addChunk]
  · split_ifs <;> rfl
  · split_ifs <;> rfl
  · split_ifs <;> rfl
  · split_ifs <;> rfl

theorem countsChunk_takeChunk (boundary : ℤ) :
    CountsChunk boundary (Fattr.takeChunk boundary) :=
  ⟨fun _ => rfl, fun _ => rfl, fun _ => rfl, fun _ => rfl⟩

/-- A chunk at a free place with the count of its file. -/
theorem SoundOutside.insertChunk {change : Fattr → Fattr} (hsound : tree.SoundOutside exempt)
    (chunk : ChunkInfo) (hchange : CountsChunk chunk.offset change)
    (hsoundFile : chunk.fid ∉ exempt)
    (hfree : ∀ fa, tree.getFattr chunk.fid = some fa → fa.type = .file →
      Fattr.FreeBoundary (tree.getalloc chunk.fid) chunk.offset) :
    ((tree.insert (.chunkInfo chunk)).modifyFattr chunk.fid change).SoundOutside exempt := by
  refine (hsound.mono (Set.subset_union_right : exempt ⊆ {chunk.fid} ∪ exempt)).update ?_ ?_ ?_
  · refine IdsDistinct.modifyFattr ⟨?_, ?_⟩ hchange.id
    · rw [fattrIds_insert_chunkInfo]
      exact hsound.ids.nodup
    · rw [fattrIds_insert_chunkInfo]
      exact hsound.ids.le_seed
  · intro other hother
    rw [getFattr_modifyFattr hchange.id, if_neg hother, getFattr_insert_chunkInfo,
      getalloc_modifyFattr, getalloc_insert_of_ne chunk hother.symm]
    exact ⟨rfl, rfl⟩
  · intro fa hfattr htype
    rw [getFattr_modifyFattr hchange.id, if_pos rfl, getFattr_insert_chunkInfo] at hfattr
    obtain ⟨before, hbefore, rfl⟩ := map_eq_some_iff.mp hfattr
    rw [hchange.type] at htype
    rw [getalloc_modifyFattr]
    refine Fattr.Sound.perm ?_ (getalloc_insert_perm chunk)
    exact (hsound.files _ before hsoundFile hbefore htype).cons (hfree before hbefore htype)
      (hchange.chunkcount before) (hchange.nextChunkOffset before)

variable {appendReplayFlag : Bool}

section

variable (hsound : tree.ChunksSound)

include hsound

theorem chunksSound_assignNewChunk {boundary chunkId chunkVersion : ℤ} {append : Bool}
    (hfree : ∀ fa, tree.getFattr fid = some fa → fa.type = .file →
      Fattr.FreeBoundary (tree.getalloc fid) boundary)
    (hassign : tree.assignNewChunk env fid boundary chunkId chunkVersion append
      appendReplayFlag = some next) : next.ChunksSound := by
  rw [assignNewChunk] at hassign
  split_ifs at hassign with hknown happend
  · obtain ⟨grown, hgrown, rfl⟩ := map_eq_some_iff.mp hassign
    obtain ⟨fa, -, hgrown⟩ := bind_eq_some_iff.mp hgrown
    refine SoundOutside.neutral ?_ ((neutral_growFileSize hgrown).trans (neutral_setMtime _))
    exact hsound.insertChunk ⟨fid, boundary, chunkId, chunkVersion⟩
      (countsChunk_addChunk _ _) (Set.notMem_empty _) hfree
  · cases hassign
    refine SoundOutside.neutral ?_ (neutral_setMtime _)
    exact hsound.insertChunk ⟨fid, boundary, chunkId, chunkVersion⟩
      (countsChunk_addChunk _ _) (Set.notMem_empty _) hfree

/-- A new version of a chunk keeps the offsets. -/
theorem chunksSound_modifyVersion (fid offset chunkVersion : ℤ) :
    (tree.modifyChunk fid offset fun chunk =>
      { chunk with chunkVersion := chunkVersion }).ChunksSound := by
  refine ⟨⟨?_, ?_⟩, ?_⟩
  · rw [fattrIds_modifyChunk]
    exact hsound.ids.nodup
  · rw [fattrIds_modifyChunk]
    exact hsound.ids.le_seed
  · intro other fa hexempt hfattr htype
    rw [getFattr_modifyChunk] at hfattr
    rw [getalloc_modifyChunk (by intro chunk; rfl)]
    have hfile := hsound.sound hfattr htype
    have hoffset : ∀ chunk : ChunkInfo,
        (if chunk.fid = fid ∧ chunk.offset = offset then
          { chunk with chunkVersion := chunkVersion } else chunk).offset = chunk.offset := by
      intro chunk
      split_ifs <;> rfl
    refine ⟨⟨?_, ?_, ?_, ?_⟩, ?_, hfile.nextAligned, hfile.nextNonneg⟩
    · rw [length_map]
      exact hfile.count
    · rw [map_map]
      convert hfile.distinct using 2
      funext chunk
      exact hoffset chunk
    · intro chunk hchunk
      obtain ⟨before, hbefore, rfl⟩ := mem_map.mp hchunk
      rw [hoffset]
      exact hfile.aligned before hbefore
    · intro chunk hchunk
      obtain ⟨before, hbefore, rfl⟩ := mem_map.mp hchunk
      rw [hoffset]
      exact hfile.below before hbefore
    · intro chunk hchunk
      obtain ⟨before, hbefore, rfl⟩ := mem_map.mp hchunk
      rw [hoffset]
      exact hfile.nonneg before hbefore

theorem chunksSound_assignVersion {boundary chunkVersion : ℤ}
    (hassign : tree.assignVersion env fa boundary chunkVersion appendReplayFlag = some next) :
    next.ChunksSound := by
  have hversion := chunksSound_modifyVersion hsound fa.id boundary chunkVersion
  rw [assignVersion] at hassign
  split_ifs at hassign
  · obtain ⟨grown, hgrown, rfl⟩ := map_eq_some_iff.mp hassign
    exact hversion.neutral ((neutral_growFileSize hgrown).trans (neutral_setMtime _))
  · cases hassign
    exact hversion.neutral (neutral_invalidateFileSize.trans (neutral_setMtime _))
  · cases hassign
    exact hversion.neutral (neutral_setMtime _)

theorem chunksSound_assignChunkId {chunkId chunkVersion : ℤ} {append : Bool} {status : Status}
    {newOffset newId : ℤ} (hnonneg : 0 ≤ offset) (hsmall : offset + CHUNKSIZE < 2 ^ 63)
    (hnext : ∀ fa, tree.getFattr fid = some fa → fa.nextChunkOffset + CHUNKSIZE < 2 ^ 63)
    (hassign : tree.assignChunkId env fid offset chunkId chunkVersion append appendReplayFlag =
      some (status, newOffset, newId, next)) : next.ChunksSound := by
  rw [assignChunkId] at hassign
  split at hassign
  · cases hassign
    exact hsound
  · rename_i fa hfattr
    simp only at hassign
    split at hassign
    · rename_i hnone
      obtain ⟨assigned, hnew, hresult⟩ := map_eq_some_iff.mp hassign
      cases hresult
      refine chunksSound_assignNewChunk hsound ?_ hnew
      intro _ _ _
      refine ⟨?_, chunkStartOffset_dvd offset, chunkStartOffset_nonneg hnonneg,
        lt_of_le_of_lt (Int.add_le_add_right (chunkStartOffset_le offset) _) hsmall⟩
      intro chunk hchunk
      have hmiss := find?_eq_none.mp hnone chunk hchunk
      rwa [decide_eq_true_iff] at hmiss
    · split_ifs at hassign
      · obtain ⟨assigned, hnew, hresult⟩ := map_eq_some_iff.mp hassign
        cases hresult
        refine chunksSound_assignNewChunk hsound ?_ hnew
        intro found hfound htype
        obtain rfl : fa = found := some.inj (hfattr.symm.trans hfound)
        have hfile := hsound.sound hfattr htype
        exact ⟨fun chunk hchunk => (hfile.below chunk hchunk).ne, hfile.nextAligned,
          hfile.nextNonneg, hnext fa hfattr⟩
      · cases hassign
        exact hsound
      · obtain ⟨assigned, hversion, hresult⟩ := map_eq_some_iff.mp hassign
        cases hresult
        exact chunksSound_assignVersion hsound hversion

end

/-! ## Coalesce -/

/-- The state of the loop of `coalesceBlocks` with the chunks `rest` still to be
moved: only the source is not described by its attribute. -/
structure Moving (tree : Tree) (src dst dstStartPos : ℤ) (rest : List ChunkInfo) : Prop where
  sound : tree.SoundOutside {src}
  source : tree.getalloc src = rest
  keys : KeysDistinct rest
  distinct : (rest.map ChunkInfo.offset).Nodup
  aligned : ∀ chunk ∈ rest, CHUNKSIZE ∣ chunk.offset
  nonneg : ∀ chunk ∈ rest, 0 ≤ chunk.offset
  small : ∀ chunk ∈ rest, dstStartPos + chunk.offset + CHUNKSIZE < 2 ^ 63
  free : ∀ chunk ∈ rest, ∀ moved ∈ tree.getalloc dst,
    moved.offset ≠ dstStartPos + chunk.offset

section Move

variable {src dst dstStartPos : ℤ}

theorem moved_boundary (hstart : 0 ≤ dstStartPos) (hstartAligned : CHUNKSIZE ∣ dstStartPos)
    (haligned : CHUNKSIZE ∣ chunk.offset) (hnonneg : 0 ≤ chunk.offset)
    (hsmall : dstStartPos + chunk.offset + CHUNKSIZE < 2 ^ 63) :
    chunkStartOffset (wrap64 (dstStartPos + chunk.offset)) = dstStartPos + chunk.offset := by
  have hchunkSize : 0 < CHUNKSIZE := by decide
  rw [Striping.wrap64_of_bounds (by omega) (by omega)]
  exact chunkStartOffset_of_dvd (dvd_add hstartAligned haligned)

variable {rest : List ChunkInfo}

/-- One round of the loop. -/
theorem Moving.step (hne : src ≠ dst) (hstart : 0 ≤ dstStartPos)
    (hstartAligned : CHUNKSIZE ∣ dstStartPos)
    (hmoving : Moving tree src dst dstStartPos (chunk :: rest))
    (hdel : tree.del (.chunkInfo chunk) = some next) :
    Moving ((next.insert (.chunkInfo { chunk with
        fid := dst, offset := dstStartPos + chunk.offset })).modifyFattr dst
          (Fattr.takeChunk (dstStartPos + chunk.offset))) src dst dstStartPos rest := by
  have hmem : chunk ∈ tree.getalloc src := by
    rw [hmoving.source]
    exact mem_cons_self
  obtain rfl : chunk.fid = src := getalloc_fid hmem
  have hframe := chunkFrame_del hdel
  have hnextDst : next.getalloc dst = tree.getalloc dst := hframe.getalloc dst hne.symm
  have hkeys := hmoving.keys
  rw [← hmoving.source] at hkeys
  have hrest : next.getalloc chunk.fid = rest := by
    rw [getalloc_del_eq_erase hkeys hmem hdel, hmoving.source, erase_cons_head]
  have hnextSound := hmoving.sound.frame hframe (Set.mem_singleton _)
  have hlast : ∀ other ∈ rest, other ∈ chunk :: rest := fun _ => mem_cons_of_mem _
  refine ⟨?_, ?_, ?_, ?_, ?_, ?_, ?_, ?_⟩
  · refine hnextSound.insertChunk ⟨dst, dstStartPos + chunk.offset, _, _⟩
      (countsChunk_takeChunk _) (by simpa using hne.symm) ?_
    intro _ _ _
    have hoffset := hmoving.nonneg chunk mem_cons_self
    refine ⟨?_, dvd_add hstartAligned (hmoving.aligned chunk mem_cons_self),
      Int.add_nonneg hstart hoffset, hmoving.small chunk mem_cons_self⟩
    intro moved hmoved
    rw [hnextDst] at hmoved
    exact hmoving.free chunk mem_cons_self moved hmoved
  · rw [getalloc_modifyFattr, getalloc_insert_of_ne _ hne.symm, hrest]
  · exact fun left hleft right hright => hmoving.keys left (hlast left hleft) right
      (hlast right hright)
  · exact (nodup_cons.mp hmoving.distinct).2
  · exact fun other hother => hmoving.aligned other (hlast other hother)
  · exact fun other hother => hmoving.nonneg other (hlast other hother)
  · exact fun other hother => hmoving.small other (hlast other hother)
  · intro other hother moved hmoved
    rw [getalloc_modifyFattr] at hmoved
    rcases mem_cons.mp ((getalloc_insert_perm _).mem_iff.mp hmoved) with rfl | hold
    · intro heq
      have hsame : chunk.offset = other.offset := Int.add_left_cancel heq
      exact (nodup_cons.mp hmoving.distinct).1
        (mem_map.mpr ⟨other, hother, hsame.symm⟩)
    · rw [show next.getalloc _ = tree.getalloc dst from hnextDst] at hold
      exact hmoving.free other (hlast other hother) moved hold

/-- The loop of `coalesceBlocks` leaves no chunk with the source. -/
theorem moving_moveChunks (hne : src ≠ dst) (hstart : 0 ≤ dstStartPos)
    (hstartAligned : CHUNKSIZE ∣ dstStartPos) (hmoving : Moving tree src dst dstStartPos rest)
    (hmove : moveChunks dst dstStartPos tree rest = some next) :
    Moving next src dst dstStartPos [] := by
  induction rest generalizing tree with
  | nil =>
    cases hmove
    exact hmoving
  | cons chunk rest ih =>
    obtain ⟨deleted, hdel, hmove⟩ := bind_eq_some_iff.mp hmove
    have hboundary := moved_boundary hstart hstartAligned
      (hmoving.aligned chunk mem_cons_self) (hmoving.nonneg chunk mem_cons_self)
      (hmoving.small chunk mem_cons_self)
    simp only [hboundary] at hmove
    exact ih (hmoving.step hne hstart hstartAligned hdel) hmove

/-- The sizes after a coalesce, and the empty source. -/
theorem chunksSound_coalesceSizes {dstStartOffset : ℤ}
    (hmoving : Moving tree src dst dstStartPos [])
    (hsizes : tree.coalesceSizes src dst dstStartPos dstStartOffset = some next) :
    next.ChunksSound := by
  simp only [coalesceSizes, bind_eq_some_iff] at hsizes
  obtain ⟨srcFa, -, dstFa, -, sized, hsized, hsizes⟩ := hsizes
  have hneutral : Neutral tree sized := by
    split_ifs at hsized
    · obtain ⟨set, hset, rfl⟩ := map_eq_some_iff.mp hsized
      exact (neutral_setFileSize hset).trans neutral_invalidateFileSize
    · obtain ⟨set, hset, rfl⟩ := map_eq_some_iff.mp hsized
      exact neutral_setFileSize hset
    · cases hsized
      exact Neutral.refl _
  refine SoundOutside.neutral ?_ (neutral_setFileSize hsizes)
  have hsound : sized.SoundOutside ({src} ∪ ∅) := by
    rw [Set.union_empty]
    exact hmoving.sound.neutral hneutral
  refine hsound.update (hsound.ids.modifyFattr (by intro fa; rfl)) ?_ ?_
  · intro other hother
    rw [getFattr_modifyFattr (by intro fa; rfl), if_neg hother, getalloc_modifyFattr]
    exact ⟨rfl, rfl⟩
  · intro fa hfattr _
    rw [getFattr_modifyFattr (by intro fa; rfl), if_pos rfl] at hfattr
    obtain ⟨before, -, rfl⟩ := map_eq_some_iff.mp hfattr
    rw [getalloc_modifyFattr, hneutral.getalloc, hmoving.source]
    exact ⟨⟨rfl, nodup_nil, by simp, by simp⟩, by simp, dvd_zero _, le_rfl⟩

end Move

theorem chunksSound_coalesceFiles {srcFa dstFa : Fattr} {mtime : Option ℤ} {euser egroup : ℕ}
    {status : Status} {dstStartOffset moved : ℤ} (hsound : tree.ChunksSound)
    (hsrc : tree.getFattr srcFa.id = some srcFa) (hdst : tree.getFattr dstFa.id = some dstFa)
    (hsmall : dstFa.nextChunkOffset + srcFa.nextChunkOffset < 2 ^ 63)
    (hcoalesce : tree.coalesceFiles env srcFa dstFa mtime euser egroup =
      some (status, dstStartOffset, moved, next)) : next.ChunksSound := by
  rw [coalesceFiles] at hcoalesce
  split_ifs at hcoalesce with hsame htype _ _
  · cases hcoalesce
    exact hsound
  · cases hcoalesce
    exact hsound
  · cases hcoalesce
    exact hsound
  · cases hcoalesce
    exact hsound
  all_goals
    obtain ⟨hsrcType, hdstType⟩ := not_or.mp htype
    obtain ⟨mid, hmove, hcoalesce⟩ := bind_eq_some_iff.mp hcoalesce
    obtain ⟨sized, hsizes, hresult⟩ := map_eq_some_iff.mp hcoalesce
    cases hresult
    have hsrcSound := hsound.sound hsrc (not_not.mp hsrcType)
    have hdstSound := hsound.sound hdst (not_not.mp hdstType)
    have hmoving : Moving tree srcFa.id dstFa.id dstFa.nextChunkOffset
        (tree.getalloc srcFa.id) := by
      refine ⟨hsound.mono (Set.empty_subset _), rfl, ?_, hsrcSound.distinct, hsrcSound.aligned,
        hsrcSound.nonneg, ?_, ?_⟩
      · exact fun left hleft right hright hkey => hsrcSound.eq_of_key hleft hright hkey
      · intro chunk hchunk
        obtain ⟨index, hindex⟩ := hsrcSound.aligned chunk hchunk
        obtain ⟨nextIndex, hnextIndex⟩ := hsrcSound.nextAligned
        have hbelow := hsrcSound.below chunk hchunk
        rw [CHUNKSIZE] at hindex hnextIndex ⊢
        omega
      · intro chunk hchunk other hother
        have hbelow := hdstSound.below other hother
        have hnonneg := hsrcSound.nonneg chunk hchunk
        omega
    have hmoved := moving_moveChunks hsame hdstSound.nextNonneg hdstSound.nextAligned hmoving
      hmove
    refine SoundOutside.neutral ?_ ((neutral_setMtime _).trans (neutral_setMtime _))
    exact chunksSound_coalesceSizes hmoved hsizes

/-! ## Truncate -/

theorem truncatedChunks_sublist (file offset endOffset : ℤ) :
    (tree.truncatedChunks file offset endOffset).Sublist (tree.getalloc file) :=
  (takeWhile_sublist _).trans filter_sublist

/-- What is left of the chunks of a file. -/
theorem deleteChunks_rest (hsound : fa.Sound (tree.getalloc fid))
    (hsublist : deleted.Sublist (tree.getalloc fid))
    (hdelete : tree.deleteChunks deleted.reverse = some next) :
    ChunkFrame tree next fid ∧ (next.getalloc fid).Sublist (tree.getalloc fid) ∧
      (deleted.length + (next.getalloc fid).length : ℤ) = (tree.getalloc fid).length ∧
      ∀ chunk, chunk ∈ next.getalloc fid ↔ chunk ∈ tree.getalloc fid ∧ chunk ∉ deleted := by
  have hall : (tree.getalloc fid).Nodup := hsound.distinct.of_map
  have hnodup : deleted.reverse.Nodup := nodup_reverse.mpr (hall.sublist hsublist)
  have hsubset : deleted.reverse ⊆ tree.getalloc fid := by
    intro chunk hchunk
    exact hsublist.subset (mem_reverse.mp hchunk)
  obtain ⟨hframe, hrest⟩ := deleteChunks_spec
    (fun left hleft right hright hkey => hsound.eq_of_key hleft hright hkey) hsubset hnodup
    hdelete
  refine ⟨hframe, ?_, ?_, ?_⟩
  · rw [hrest]
    exact diff_sublist _ _
  · have hperm := subperm_append_diff_self_of_count_le
      (fun chunk _ => (hnodup.subperm hsubset).count_le chunk)
    have hlength := hperm.length_eq
    rw [length_append, length_reverse] at hlength
    rw [hrest]
    exact_mod_cast hlength
  · intro chunk
    rw [hrest, hall.mem_sdiff_iff, mem_reverse]

/-- The cut ends behind the known size of the file, and chunks remain behind
the cut. -/
def CutsBeyondSize (tree : Tree) (file offset endOffset : ℤ) : Prop :=
  0 ≤ endOffset ∧ ∃ fa ∈ tree.getFattr file, fa.filesize ≠ offset ∧
    fa.filesize < endOffset ∧ ∃ chunk ∈ tree.getalloc file, endOffset ≤ chunk.offset

section Truncate

variable {file offset endOffset : ℤ} {mtime : Option ℤ} {euser egroup : ℕ}
variable {setEofHintFlag : Bool} {status : Status}

/-- What `truncate` of a file does: nothing, a new size of a striped file, or a
deletion of chunks. -/
theorem truncateFile_cases {firstChunk : Option ChunkInfo}
    (htruncate : tree.truncateFile env fa firstChunk offset mtime euser egroup endOffset =
      some (status, next)) :
    (next = tree ∧ (status = .ok → fa.filesize = offset)) ∨
    (endOffset < 0 ∧ fa.filesize ≠ offset ∧ fa.IsStriped ∧ 0 < offset ∧
      tree.setFileSize fa.id offset 0 0 = some next) ∨
    (0 ≤ offset ∧ fa.filesize ≠ offset ∧ (fa.IsStriped → offset ≤ 0) ∧
      tree.deleteTruncated fa offset mtime endOffset = some (status, next)) := by
  rw [truncateFile] at htruncate
  split_ifs at htruncate with hoffset hwrite hsize hstriped hblock hlast
  · cases htruncate
    exact .inl ⟨rfl, by simp⟩
  · cases htruncate
    exact .inl ⟨rfl, fun _ => hsize⟩
  · cases htruncate
    exact .inl ⟨rfl, by simp⟩
  · obtain ⟨sized, hsized, hresult⟩ := map_eq_some_iff.mp htruncate
    cases hresult
    have hend : endOffset < 0 := lt_of_not_ge fun hge => hblock (.inl hge)
    have hpositive : 0 < offset := hstriped.2.resolve_right (not_le.mpr hend)
    exact .inr (.inl ⟨hend, hsize, hstriped.1, hpositive, hsized⟩)
  · cases htruncate
    exact .inl ⟨rfl, by simp⟩
  · refine .inr (.inr ⟨not_lt.mp hoffset, hsize, fun hfa => ?_, htruncate⟩)
    exact not_lt.mp fun hpositive => hstriped ⟨hfa, .inl hpositive⟩
  · cases htruncate
    exact .inl ⟨rfl, by simp⟩

theorem truncate_cases
    (htruncate : tree.truncate env file offset mtime euser egroup endOffset setEofHintFlag =
      some (status, next)) :
    (next = tree ∧ status ≠ .ok) ∨
    ((0 ≤ endOffset → offset ≤ endOffset ∧ CHUNKSIZE ∣ endOffset) ∧
      ∃ fa firstChunk, tree.getFattr file = some fa ∧ fa.type = .file ∧
        tree.truncateFile env fa firstChunk offset mtime euser egroup endOffset =
          some (status, next)) := by
  rw [truncate] at htruncate
  by_cases hend : 0 ≤ endOffset ∧ (endOffset < offset ∨ endOffset % CHUNKSIZE ≠ 0)
  · rw [if_pos hend] at htruncate
    cases htruncate
    exact .inl ⟨rfl, by decide⟩
  · rw [if_neg hend] at htruncate
    have hbounds : 0 ≤ endOffset → offset ≤ endOffset ∧ CHUNKSIZE ∣ endOffset := by
      intro hnonneg
      simp only [hnonneg, true_and, not_or, not_lt, not_not] at hend
      exact ⟨hend.1, Int.dvd_of_emod_eq_zero hend.2⟩
    cases hfattr : tree.getFattr file with
    | none =>
      simp only [hfattr] at htruncate
      cases htruncate
      exact .inl ⟨rfl, by decide⟩
    | some fa =>
      simp only [hfattr] at htruncate
      split_ifs at htruncate with htype
      · exact .inr ⟨hbounds, fa, _, rfl, htype, htruncate⟩
      · cases htruncate
        exact .inl ⟨rfl, by decide⟩
      · cases htruncate
        exact .inl ⟨rfl, by decide⟩

theorem truncatedChunks_of_neg (hend : endOffset < 0) :
    tree.truncatedChunks file offset endOffset =
      (tree.getalloc file).filter fun chunk => chunkStartOffset offset ≤ chunk.offset := by
  rw [truncatedChunks]
  simp [hend]

theorem lt_endOffset_of_mem_truncatedChunks (hend : 0 ≤ endOffset)
    (hchunk : chunk ∈ tree.truncatedChunks file offset endOffset) : chunk.offset < endOffset := by
  have htaken := mem_takeWhile_imp hchunk
  rw [decide_eq_true_iff] at htaken
  exact htaken.resolve_left (not_lt.mpr hend)

/-- The next chunk offset that a cut leaves. -/
def truncatedNext (fa : Fattr) (offset endOffset : ℤ) : ℤ :=
  if endOffset < 0 then
    if chunkStartOffset offset < offset then wrap64 (chunkStartOffset offset + CHUNKSIZE)
    else chunkStartOffset offset
  else if fa.filesize < endOffset then endOffset
  else fa.nextChunkOffset

/-- The update that the deletion of chunks comes to. -/
theorem deleteTruncated_cases
    (hdelete : tree.deleteTruncated fa offset mtime endOffset = some (status, next)) :
    ∃ rest change,
      tree.deleteChunks (tree.truncatedChunks fa.id offset endOffset).reverse = some rest ∧
      (∀ before, (change before).id = before.id ∧ (change before).type = before.type) ∧
      (change fa).subcount1 =
        fa.subcount1 - (tree.truncatedChunks fa.id offset endOffset).length ∧
      (change fa).subcount2 = truncatedNext fa offset endOffset ∧
      Neutral (rest.modifyFattr fa.id change) next := by
  obtain ⟨rest, hrest, hdelete⟩ := bind_eq_some_iff.mp hdelete
  obtain ⟨sized, hsized, hresult⟩ := map_eq_some_iff.mp hdelete
  have hmtime : Neutral sized next := by
    cases hresult
    cases mtime with
    | none => exact Neutral.refl _
    | some mtime => exact neutral_setMtime mtime
  rw [truncateSize] at hsized
  by_cases hend : endOffset < 0
  · rw [if_pos hend, modifyFattr_modifyFattr (by intro fa; rfl)] at hsized
    refine ⟨rest, _, hrest, ?_, ?_, ?_, (neutral_setFileSize hsized).trans hmtime⟩
    · exact fun _ => ⟨rfl, rfl⟩
    · rfl
    · simp only [truncatedNext, if_pos hend]
  · split_ifs at hsized with hsize
    · rw [modifyFattr_modifyFattr (by intro fa; rfl)] at hsized
      refine ⟨rest, _, hrest, ?_, ?_, ?_, (neutral_setFileSize hsized).trans hmtime⟩
      · exact fun _ => ⟨rfl, rfl⟩
      · rfl
      · simp only [truncatedNext, if_neg hend, if_pos hsize]
    · cases hsized
      refine ⟨rest, _, hrest, ?_, ?_, ?_, hmtime⟩
      · exact fun _ => ⟨rfl, rfl⟩
      · rfl
      · simp only [truncatedNext, if_neg hend, if_neg hsize, Fattr.nextChunkOffset]

/-- A cut that does not go beyond the known size leaves a next chunk offset
behind every chunk. -/
theorem truncatedNext_spec (hsound : fa.Sound (tree.getalloc fa.id)) (hnonneg : 0 ≤ offset)
    (hsmall : offset + CHUNKSIZE < 2 ^ 63)
    (hbounds : 0 ≤ endOffset → offset ≤ endOffset ∧ CHUNKSIZE ∣ endOffset)
    (hcut : 0 ≤ endOffset → fa.filesize < endOffset →
      ∀ chunk ∈ tree.getalloc fa.id, chunk.offset < endOffset) :
    CHUNKSIZE ∣ truncatedNext fa offset endOffset ∧ 0 ≤ truncatedNext fa offset endOffset ∧
      ∀ chunk ∈ tree.getalloc fa.id,
        chunk ∉ tree.truncatedChunks fa.id offset endOffset →
        chunk.offset < truncatedNext fa offset endOffset := by
  have hstart := chunkStartOffset_nonneg hnonneg
  have hle := chunkStartOffset_le offset
  have hdvd := chunkStartOffset_dvd offset
  have hpos : 0 < CHUNKSIZE := by decide
  rw [truncatedNext]
  by_cases hend : endOffset < 0
  · rw [if_pos hend, truncatedChunks_of_neg hend]
    have hwrap : wrap64 (chunkStartOffset offset + CHUNKSIZE) =
        chunkStartOffset offset + CHUNKSIZE :=
      Striping.wrap64_of_bounds (by omega) (by omega)
    have hlarger : chunkStartOffset offset ≤
        if chunkStartOffset offset < offset then wrap64 (chunkStartOffset offset + CHUNKSIZE)
        else chunkStartOffset offset := by
      split_ifs <;> omega
    refine ⟨?_, hstart.trans hlarger, ?_⟩
    · rw [hwrap]
      split_ifs
      · exact dvd_add hdvd (dvd_refl _)
      · exact hdvd
    · intro chunk hchunk hkept
      simp only [mem_filter, hchunk, true_and, decide_eq_true_eq, not_le] at hkept
      exact hkept.trans_le hlarger
  · have hend := not_lt.mp hend
    split_ifs with hsize
    · exact ⟨(hbounds hend).2, hend, fun chunk hchunk _ => hcut hend hsize chunk hchunk⟩
    · exact ⟨hsound.nextAligned, hsound.nextNonneg, fun chunk hchunk _ =>
        hsound.below chunk hchunk⟩

theorem chunksSound_truncate (hsound : tree.ChunksSound) (hsmall : offset + CHUNKSIZE < 2 ^ 63)
    (hcut : ¬ CutsBeyondSize tree file offset endOffset)
    (htruncate : tree.truncate env file offset mtime euser egroup endOffset setEofHintFlag =
      some (status, next)) : next.ChunksSound := by
  obtain ⟨rfl, -⟩ | ⟨hbounds, fa, firstChunk, hfattr, htype, hfound⟩ :=
    truncate_cases htruncate
  · exact hsound
  obtain rfl : fa.id = file := getFattr_id hfattr
  obtain ⟨rfl, -⟩ | ⟨-, -, -, -, hsized⟩ | ⟨hnonneg, hsize, -, hdelete⟩ :=
    truncateFile_cases hfound
  · exact hsound
  · exact SoundOutside.neutral hsound (neutral_setFileSize hsized)
  · obtain ⟨rest, change, hrest, hchange, hcount, hnext, hneutral⟩ :=
      deleteTruncated_cases hdelete
    have hid : ∀ before, (change before).id = before.id := fun before => (hchange before).1
    have hfile := hsound.sound hfattr htype
    obtain ⟨hframe, hsublist, hlength, hleft⟩ :=
      deleteChunks_rest hfile (truncatedChunks_sublist _ _ _) hrest
    obtain ⟨hnextAligned, hnextNonneg, hbelow⟩ := truncatedNext_spec hfile hnonneg hsmall hbounds
      fun hend hlt chunk hchunk => not_le.mp fun hge =>
        hcut ⟨hend, fa, hfattr, hsize, hlt, chunk, hchunk, hge⟩
    refine SoundOutside.neutral ?_ hneutral
    have hrestSound : rest.SoundOutside ({fa.id} ∪ ∅) :=
      (hsound.mono (Set.empty_subset _)).frame hframe (by simp)
    refine hrestSound.update (hrestSound.ids.modifyFattr hid) ?_ ?_
    · intro other hother
      rw [getFattr_modifyFattr hid, if_neg hother, getalloc_modifyFattr]
      exact ⟨rfl, rfl⟩
    · intro after hafter _
      rw [getFattr_modifyFattr hid, if_pos rfl, hframe.getFattr, hfattr] at hafter
      cases hafter
      rw [getalloc_modifyFattr]
      refine hfile.sublist hsublist ?_ ?_ ?_ ?_
      · have hbefore := hfile.count
        rw [Fattr.chunkcount] at hbefore ⊢
        omega
      · intro chunk hchunk
        rw [Fattr.nextChunkOffset, hnext]
        obtain ⟨hbefore, hkept⟩ := (hleft chunk).mp hchunk
        exact hbelow chunk hbefore hkept
      · rwa [Fattr.nextChunkOffset, hnext]
      · rwa [Fattr.nextChunkOffset, hnext]

/-- A cut beyond the known size that succeeds leaves a chunk behind the next
chunk offset. -/
theorem not_chunksConsistent_truncate (hsound : tree.ChunksSound)
    (hcut : CutsBeyondSize tree file offset endOffset)
    (htruncate : tree.truncate env file offset mtime euser egroup endOffset setEofHintFlag =
      some (.ok, next)) : ¬ next.ChunksConsistent := by
  obtain ⟨hend, found, hfoundFattr, hsize, hlt, chunk, hchunk, hge⟩ := hcut
  obtain ⟨-, hok⟩ | ⟨hbounds, fa, firstChunk, hfattr, htype, hfound⟩ := truncate_cases htruncate
  · exact absurd rfl hok
  obtain rfl : fa.id = file := getFattr_id hfattr
  obtain rfl : fa = found := some.inj (hfattr.symm.trans hfoundFattr)
  obtain ⟨-, hsame⟩ | ⟨hneg, -⟩ | ⟨hnonneg, -, -, hdelete⟩ := truncateFile_cases hfound
  · exact absurd (hsame rfl) hsize
  · omega
  · obtain ⟨rest, change, hrest, hchange, -, hnext, hneutral⟩ := deleteTruncated_cases hdelete
    obtain ⟨hframe, -, -, hleft⟩ := deleteChunks_rest (hsound.sound hfattr htype)
      (truncatedChunks_sublist _ _ _) hrest
    -- the chunk behind the cut is still there
    have hstays : chunk ∈ next.getalloc fa.id := by
      rw [hneutral.getalloc, getalloc_modifyFattr]
      refine (hleft chunk).mpr ⟨hchunk, fun hdeleted => ?_⟩
      exact absurd (lt_endOffset_of_mem_truncatedChunks hend hdeleted) (not_lt.mpr hge)
    have hchanged : (rest.modifyFattr fa.id change).getFattr fa.id = some (change fa) := by
      rw [getFattr_modifyFattr fun before => (hchange before).1, if_pos rfl, hframe.getFattr,
        hfattr, map_some]
    obtain ⟨after, hafter, hafterType, hcounts⟩ := hneutral.exists_getFattr hchanged
    have htypes : (change fa).type = .file := (hchange fa).2.trans htype
    intro hconsistent
    have hbelow := (hconsistent fa.id after hafter (hafterType.trans htypes)).below chunk hstays
    rw [Fattr.nextChunkOffset, (hcounts htypes).2, hnext, truncatedNext] at hbelow
    omega

end Truncate

end Tree

end QfsRepair.Meta
