import QfsRepair.Meta.ChunkRuns
import QfsRepair.Meta.DirectorySizes
import QfsRepair.Meta.NamespaceRuns

/-!
# Runs with directory sizes

Sequences of namespace requests and calls on chunks from a new file system with
directory sizes enabled.  As long as no rename takes one of the links `.` and
`..` for its source, `recomputeDirSize` finds for every directory the size and
the counts that its attribute has, and those of the root are those of the whole
file system.  After a rename of a link it panics.
-/

namespace QfsRepair.Meta

open List Option Fattr
open Striping (CHUNKSIZE wrap64)

namespace Fattr

theorem getFileSize_invalidateFileSize (fa : Fattr) :
    fa.invalidateFileSize.getFileSize = fa.getFileSize := by
  simp only [getFileSize, invalidateFileSize]
  split_ifs <;> omega

variable (boundary : ℤ)

theorem object_addChunk (keepSize : Bool) (fa : Fattr) :
    (fa.addChunk boundary keepSize).object = fa.object := by
  rw [addChunk]
  split_ifs <;> rfl

theorem getFileSize_addChunk (keepSize : Bool) (fa : Fattr) :
    (fa.addChunk boundary keepSize).getFileSize = fa.getFileSize := by
  rw [addChunk]
  by_cases hnext : fa.nextChunkOffset ≤ boundary
  · rw [if_pos hnext]
    simp only [getFileSize]
    split_ifs <;> omega
  · rw [if_neg hnext]
    rfl

theorem object_takeChunk (fa : Fattr) :
    (fa.takeChunk boundary).object = fa.object := rfl

theorem getFileSize_takeChunk (fa : Fattr) :
    (fa.takeChunk boundary).getFileSize = fa.getFileSize := rfl

end Fattr

namespace Tree

variable {tree next last : Tree} {env : Environment} {hierarchy : Hierarchy} {fid : ℤ} {fa : Fattr}

/-! ## Calls on chunks -/

/-- The same names and the same accounts. -/
structure SameUsage (tree next : Tree) : Prop extends tree.SameNames next, tree.SameAccounts next

namespace SameUsage

theorem refl (tree : Tree) : tree.SameUsage tree := ⟨SameNames.refl _, SameAccounts.refl _⟩

theorem trans (hfirst : tree.SameUsage next) (hsecond : next.SameUsage last) :
    tree.SameUsage last :=
  ⟨hfirst.toSameNames.trans hsecond.toSameNames,
    hfirst.toSameAccounts.trans hsecond.toSameAccounts⟩

end SameUsage

/-- The id is not that of a directory. -/
def NotDir (tree : Tree) (fid : ℤ) : Prop := ∀ fa ∈ tree.getFattr fid, fa.type = .file

instance (tree : Tree) (fid : ℤ) : Decidable (tree.NotDir fid) :=
  inferInstanceAs (Decidable (∀ fa ∈ tree.getFattr fid, _))

/-- Ids are distinct, directory sizes are on and the given ids are not those of
directories. -/
structure Counting (tree : Tree) (files : List ℤ) : Prop where
  ids : tree.fattrIds.Nodup
  enabled : tree.updatePathSpaceUsage = true
  files : ∀ fid ∈ files, tree.NotDir fid

theorem Counting.after {files : List ℤ} (hcounting : tree.Counting files)
    (hsame : tree.SameUsage next) : next.Counting files where
  ids := hsame.ids hcounting.ids
  enabled := hsame.flag.trans hcounting.enabled
  files := by
    intro fid hfid fa hfa
    have hmem := mem_objects_of_getFattr hfa
    rw [hsame.objects] at hmem
    obtain ⟨item, hitem, hvalue⟩ := mem_filterMap.mp hmem
    cases item with
    | fattr other =>
      have hobject : other.object = fa.object := some.inj hvalue
      have hid : other.id = fid := (congrArg Prod.fst hobject).trans (getFattr_id hfa)
      have hother : tree.getFattr fid = some other :=
        hid ▸ getFattr_of_mem hcounting.ids hitem
      exact (congrArg (·.2.1) hobject).symm.trans
        (hcounting.files fid hfid other hother)
    | _ => cases hvalue

section Files

variable {files : List ℤ} (hcounting : tree.Counting files) (hfid : fid ∈ files)
include hcounting

omit hcounting in
theorem sameUsage_insert_chunkInfo (chunk : ChunkInfo) :
    tree.SameUsage (tree.insert (.chunkInfo chunk)) where
  dentries := Store.filterMap_orderedInsert_of_none _ _ rfl
  objects := Store.filterMap_orderedInsert_of_none _ _ rfl
  fileIdSeed := rfl
  flag := rfl
  imbalance := fun _ => imbalance_congr (fattrs_insert_chunkInfo chunk)

omit hcounting in
theorem sameUsage_del_chunkInfo {chunk : ChunkInfo}
    (hdel : tree.del (.chunkInfo chunk) = some next) : tree.SameUsage next :=
  ⟨sameNames_del_chunkInfo hdel, updatePathSpaceUsage_del hdel, fun _ =>
    imbalance_congr (fattrs_del_chunkInfo hdel)⟩

variable {chunks : List ChunkInfo}

omit hcounting in
theorem sameUsage_deleteChunks (hdeleted : deleteChunks tree chunks = some next) :
    tree.SameUsage next :=
  ⟨sameNames_deleteChunks hdeleted, sameAccounts_deleteChunks hdeleted⟩

variable {offset : ℤ}

omit hcounting in
theorem sameUsage_modifyChunk {change : ChunkInfo → ChunkInfo} :
    tree.SameUsage (tree.modifyChunk fid offset change) where
  dentries := Store.filterMap_map_of_eq _ (Item.view_modifyChunk fun _ => rfl)
  objects := Store.filterMap_map_of_eq _ (Item.view_modifyChunk fun _ => rfl)
  fileIdSeed := rfl
  flag := rfl
  imbalance := fun _ => imbalance_congr fattrs_modifyChunk

theorem sameUsage_setMtime (fid mtime : ℤ) : tree.SameUsage (tree.setMtime fid mtime) :=
  ⟨sameNames_modifyFattr fun _ => rfl, sameAccounts_modifyFattr hcounting.ids (fun _ => rfl)
    (fun _ => rfl) (fun _ _ => rfl) fun _ _ => rfl⟩

include hfid

theorem sameUsage_modifyFile {change : Fattr → Fattr}
    (hobject : ∀ fa, (change fa).object = fa.object)
    (hsize : ∀ fa, (change fa).getFileSize = fa.getFileSize) :
    tree.SameUsage (tree.modifyFattr fid change) := by
  have htype : ∀ fa, (change fa).type = fa.type := fun fa =>
    congrArg (·.2.1) (hobject fa)
  have hnotDir : ∀ fa, tree.getFattr fid = some fa → ¬ fa.type = .dir := by
    intro fa hfattr
    rw [hcounting.files fid hfid fa hfattr]
    decide
  refine ⟨sameNames_modifyFattr hobject, sameAccounts_modifyFattr hcounting.ids
    (fun fa => congrArg Prod.fst (hobject fa))
    (fun fa => congrArg (·.2.2) (hobject fa)) ?_ ?_⟩
  · intro fa hfattr
    rw [Fattr.stored, Fattr.stored, htype, if_neg (hnotDir fa hfattr), if_neg (hnotDir fa hfattr)]
  · intro fa hfattr
    rw [Fattr.weight, Fattr.weight, htype, if_neg (hnotDir fa hfattr), if_neg (hnotDir fa hfattr),
      hsize]

theorem sameUsage_setFileSize {size : ℤ} (hsized : tree.setFileSize fid size 0 0 = some next) :
    tree.SameUsage next := by
  refine ⟨sameNames_setFileSize hsized, updatePathSpaceUsage_setFileSize hsized, fun dir => ?_⟩
  obtain ⟨fa, hfattr, -⟩ := bind_eq_some_iff.mp hsized
  obtain ⟨-, -, haccount⟩ := setFileSize_account hcounting.ids hcounting.enabled hfattr hsized
  have hnotDir : ¬ (dir = fid ∧ fa.type = .dir) := by
    rintro ⟨-, hdir⟩
    rw [hcounting.files fid hfid fa hfattr] at hdir
    cases hdir
  have hnothing : ((0, 0, 0) : Usage) = 0 := rfl
  rw [haccount, if_neg hnotDir, hnothing, ite_self, add_zero, add_zero]

theorem sameUsage_growFileSize {size : ℤ} (hgrown : tree.growFileSize fid size = some next) :
    tree.SameUsage next := by
  obtain ⟨fa, -, hgrown⟩ := bind_eq_some_iff.mp hgrown
  split_ifs at hgrown
  · exact sameUsage_setFileSize hcounting hfid hgrown
  · cases hgrown
    exact SameUsage.refl _

theorem sameUsage_invalidateFileSize : tree.SameUsage (tree.invalidateFileSize fid) :=
  sameUsage_modifyFile hcounting hfid (fun _ => rfl) getFileSize_invalidateFileSize

/-! ### Allocation -/

variable {appendReplayFlag append : Bool} {chunkVersion : ℤ}

theorem sameUsage_assignNewChunk {boundary chunkId : ℤ}
    (hassign : tree.assignNewChunk env fid boundary chunkId chunkVersion append
      appendReplayFlag = some next) : tree.SameUsage next := by
  by_cases hused : chunkId ∈ tree.chunkIds
  · rw [assignNewChunk, if_pos hused] at hassign
    cases hassign
  rw [assignNewChunk, if_neg hused] at hassign
  obtain ⟨grown, hgrown, rfl⟩ := map_eq_some_iff.mp hassign
  have hinserted : tree.SameUsage
      (tree.insert (.chunkInfo ⟨fid, boundary, chunkId, chunkVersion⟩)) :=
    sameUsage_insert_chunkInfo _
  have hadded := hinserted.trans (sameUsage_modifyFile (hcounting.after hinserted) hfid
    (object_addChunk boundary (append || appendReplayFlag))
    (getFileSize_addChunk boundary (append || appendReplayFlag)))
  have hsame : tree.SameUsage grown := by
    split_ifs at hgrown
    · obtain ⟨fa, -, hgrown⟩ := bind_eq_some_iff.mp hgrown
      exact hadded.trans (sameUsage_growFileSize (hcounting.after hadded) hfid hgrown)
    · cases hgrown
      exact hadded
  exact hsame.trans (sameUsage_setMtime (hcounting.after hsame) _ _)

theorem sameUsage_assignVersion {boundary : ℤ} (hfa : fa.id = fid)
    (hassign : tree.assignVersion env fa boundary chunkVersion appendReplayFlag = some next) :
    tree.SameUsage next := by
  subst hfa
  obtain ⟨grown, hgrown, rfl⟩ := map_eq_some_iff.mp hassign
  have hversion : tree.SameUsage (tree.modifyChunk fa.id boundary fun chunk =>
      { chunk with chunkVersion := chunkVersion }) := sameUsage_modifyChunk
  have hafter := hcounting.after hversion
  have hsame : tree.SameUsage grown := by
    split_ifs at hgrown
    · exact hversion.trans (sameUsage_growFileSize hafter hfid hgrown)
    · cases hgrown
      exact hversion.trans (sameUsage_invalidateFileSize hafter hfid)
    · cases hgrown
      exact hversion
  exact hsame.trans (sameUsage_setMtime (hcounting.after hsame) _ _)

variable {status : Status}

theorem sameUsage_assignChunkId {chunkId result assigned : ℤ}
    (hassign : tree.assignChunkId env fid offset chunkId chunkVersion append appendReplayFlag =
      some (status, result, assigned, next)) : tree.SameUsage next := by
  rw [assignChunkId] at hassign
  split at hassign
  · cases hassign
    exact SameUsage.refl _
  · rename_i fa hfattr
    dsimp only at hassign
    split at hassign
    · obtain ⟨added, hadded, heq⟩ := map_eq_some_iff.mp hassign
      cases heq
      exact sameUsage_assignNewChunk hcounting hfid hadded
    · split_ifs at hassign
      · obtain ⟨added, hadded, heq⟩ := map_eq_some_iff.mp hassign
        cases heq
        exact sameUsage_assignNewChunk hcounting hfid hadded
      · cases hassign
        exact SameUsage.refl _
      · obtain ⟨added, hadded, heq⟩ := map_eq_some_iff.mp hassign
        cases heq
        exact sameUsage_assignVersion hcounting hfid (getFattr_id hfattr) hadded

/-! ### Truncation -/

variable {endOffset : ℤ}

theorem sameUsage_truncateSize (hfa : fa.id = fid)
    (hsized : tree.truncateSize fa offset endOffset = some next) : tree.SameUsage next := by
  subst hfa
  have hresized : ∀ {change : ℤ} {size : ℤ},
      (tree.modifyFattr fa.id fun fa => { fa with subcount2 := change }).setFileSize
        fa.id size 0 0 =
        some next → tree.SameUsage next := by
    intro change size hsized
    have hchanged : tree.SameUsage
        (tree.modifyFattr fa.id fun fa => { fa with subcount2 := change }) :=
      sameUsage_modifyFile hcounting hfid (fun _ => rfl) fun _ => rfl
    exact hchanged.trans (sameUsage_setFileSize (hcounting.after hchanged) hfid hsized)
  rw [truncateSize] at hsized
  by_cases hend : endOffset < 0
  · rw [if_pos hend] at hsized
    exact hresized hsized
  · split_ifs at hsized
    · exact hresized hsized
    · cases hsized
      exact SameUsage.refl _

variable {mtime : Option ℤ}

theorem sameUsage_truncateFile {firstChunk : Option ChunkInfo} {euser egroup : ℕ}
    (hfa : fa.id = fid)
    (htruncate : tree.truncateFile env fa firstChunk offset mtime euser egroup endOffset =
      some (status, next)) : tree.SameUsage next := by
  obtain ⟨rfl, -⟩ | ⟨-, -, -, -, hsized⟩ | ⟨-, -, -, hdeleted⟩ := truncateFile_cases htruncate
  · exact SameUsage.refl _
  · exact sameUsage_setFileSize hcounting hfid (hfa ▸ hsized)
  · obtain ⟨emptied, hemptied, hdeleted⟩ := bind_eq_some_iff.mp hdeleted
    obtain ⟨sized, hsized, heq⟩ := map_eq_some_iff.mp hdeleted
    have hchunks := sameUsage_deleteChunks hemptied
    have hcounted : emptied.SameUsage (emptied.modifyFattr fid fun found => { found with
        subcount1 := found.subcount1 -
          (tree.truncatedChunks fa.id offset endOffset).length }) :=
      sameUsage_modifyFile (hcounting.after hchunks) hfid (fun _ => rfl) fun _ => rfl
    rw [hfa] at hsized hcounted
    have hsame := (hchunks.trans hcounted).trans
      (sameUsage_truncateSize (hcounting.after (hchunks.trans hcounted)) hfid hfa hsized)
    cases mtime with
    | none =>
      cases heq
      exact hsame
    | some mtime =>
      cases heq
      exact hsame.trans (sameUsage_setMtime (hcounting.after hsame) _ _)

/-! ### Coalesce -/

theorem sameUsage_moveChunks {dstStartPos : ℤ}
    (hmoved : moveChunks fid dstStartPos tree chunks = some next) : tree.SameUsage next := by
  induction chunks generalizing tree with
  | nil =>
    cases hmoved
    exact SameUsage.refl _
  | cons chunk chunks ih =>
    obtain ⟨deleted, hdeleted, hrest⟩ := bind_eq_some_iff.mp hmoved
    have hinserted := (sameUsage_del_chunkInfo hdeleted).trans (sameUsage_insert_chunkInfo
      { chunk with fid, offset := chunkStartOffset (wrap64 (dstStartPos + chunk.offset)) })
    have htaken := hinserted.trans (sameUsage_modifyFile (hcounting.after hinserted) hfid
      (object_takeChunk (chunkStartOffset (wrap64 (dstStartPos + chunk.offset))))
      (getFileSize_takeChunk _))
    exact htaken.trans (ih (hcounting.after htaken) hrest)

omit hfid in
theorem sameUsage_coalesceSizes {src dst dstStartPos dstStartOffset : ℤ} (hsrc : src ∈ files)
    (hdst : dst ∈ files)
    (hsized : tree.coalesceSizes src dst dstStartPos dstStartOffset = some next) :
    tree.SameUsage next := by
  obtain ⟨srcFa, -, hsized⟩ := bind_eq_some_iff.mp hsized
  obtain ⟨dstFa, -, hsized⟩ := bind_eq_some_iff.mp hsized
  obtain ⟨grown, hgrown, hsized⟩ := bind_eq_some_iff.mp hsized
  have hfirst : tree.SameUsage grown := by
    by_cases hpos : dstStartPos < dstFa.nextChunkOffset
    · rw [if_pos hpos] at hgrown
      obtain ⟨sized, hdstSized, rfl⟩ := map_eq_some_iff.mp hgrown
      have hsame := sameUsage_setFileSize hcounting hdst hdstSized
      split_ifs
      · exact hsame.trans (sameUsage_invalidateFileSize (hcounting.after hsame) hdst)
      · exact hsame
    · rw [if_neg hpos] at hgrown
      cases hgrown
      exact SameUsage.refl _
  have hcleared : grown.SameUsage
      (grown.modifyFattr src fun fa => { fa with subcount2 := 0, subcount1 := 0 }) :=
    sameUsage_modifyFile (hcounting.after hfirst) hsrc (fun _ => rfl) fun _ => rfl
  have hsame := hfirst.trans hcleared
  exact hsame.trans (sameUsage_setFileSize (hcounting.after hsame) hsrc hsized)

end Files

variable {mtime : Option ℤ} {status : Status}

theorem sameUsage_coalesceFiles {srcFa dstFa : Fattr} {euser egroup : ℕ} {start moved : ℤ}
    (hids : tree.fattrIds.Nodup) (henabled : tree.updatePathSpaceUsage = true)
    (hsrc : tree.getFattr srcFa.id = some srcFa) (hdst : tree.getFattr dstFa.id = some dstFa)
    (hcoalesce : tree.coalesceFiles env srcFa dstFa mtime euser egroup =
      some (status, start, moved, next)) : tree.SameUsage next := by
  rw [coalesceFiles] at hcoalesce
  by_cases hself : srcFa.id = dstFa.id
  · rw [if_pos hself] at hcoalesce
    cases hcoalesce
    exact SameUsage.refl _
  by_cases htypes : srcFa.type ≠ .file ∨ dstFa.type ≠ .file
  · rw [if_neg hself, if_pos htypes] at hcoalesce
    cases hcoalesce
    exact SameUsage.refl _
  rw [if_neg hself, if_neg htypes] at hcoalesce
  obtain ⟨hsrcFile, hdstFile⟩ := not_or.mp htypes
  have hcounting : tree.Counting [srcFa.id, dstFa.id] := by
    refine ⟨hids, henabled, ?_⟩
    intro fid hfid fa hfa
    rcases mem_pair.mp hfid with rfl | rfl
    · rw [hsrc] at hfa
      cases hfa
      exact not_not.mp hsrcFile
    · rw [hdst] at hfa
      cases hfa
      exact not_not.mp hdstFile
  have hsrcMem : srcFa.id ∈ [srcFa.id, dstFa.id] := mem_cons_self
  have hdstMem : dstFa.id ∈ [srcFa.id, dstFa.id] := mem_pair.mpr (.inr rfl)
  split at hcoalesce
  · cases hcoalesce
    exact SameUsage.refl _
  split at hcoalesce
  · cases hcoalesce
    exact SameUsage.refl _
  obtain ⟨chunksMoved, hmoved, hcoalesce⟩ := bind_eq_some_iff.mp hcoalesce
  obtain ⟨sized, hsized, heq⟩ := map_eq_some_iff.mp hcoalesce
  cases heq
  have hfirst := sameUsage_moveChunks hcounting hdstMem hmoved
  have hsame := hfirst.trans
    (sameUsage_coalesceSizes (hcounting.after hfirst) hsrcMem hdstMem hsized)
  have hsrcTimed := hsame.trans (sameUsage_setMtime (hcounting.after hsame) srcFa.id
    (mtime.getD env.now))
  exact hsrcTimed.trans (sameUsage_setMtime (hcounting.after hsrcTimed) dstFa.id _)

variable {offset endOffset : ℤ}

theorem sameUsage_truncate {file : ℤ} {euser egroup : ℕ} {setEofHintFlag : Bool}
    (hids : tree.fattrIds.Nodup) (henabled : tree.updatePathSpaceUsage = true)
    (htruncate : tree.truncate env file offset mtime euser egroup endOffset setEofHintFlag =
      some (status, next)) : tree.SameUsage next := by
  obtain ⟨rfl, -⟩ | ⟨-, fa, firstChunk, hfattr, hfile, htruncated⟩ := truncate_cases htruncate
  · exact SameUsage.refl _
  · have hcounting : tree.Counting [file] := by
      refine ⟨hids, henabled, ?_⟩
      intro fid hfid found hfound
      rw [mem_singleton.mp hfid, hfattr] at hfound
      cases hfound
      exact hfile
    exact sameUsage_truncateFile hcounting mem_cons_self (getFattr_id hfattr) htruncated

end Tree

/-! ## Runs -/

namespace ChunkCall

/-- The files whose attributes the call changes without asking for their type:
`allocateChunkId` has refused directories before, and the sizes of files only
are asked of chunk servers. -/
def files : ChunkCall → List ℤ
  | assignChunkId file _ _ _ _ _ => [file]
  | invalidateFileSize file => [file]
  | setFileSize file _ => [file]
  | _ => []

end ChunkCall

/-- A namespace request or a call on chunks. -/
inductive SpaceStep where
  | request (step : RequestStep)
  | chunks (env : Environment) (call : ChunkCall)

namespace SpaceStep

/-- The request is a rename of a link. -/
def RenamesLink : SpaceStep → Prop
  | request step => step.request.RenamesLink
  | chunks _ _ => False

instance : DecidablePred RenamesLink
  | request _ => inferInstanceAs (Decidable (TreeRequest.RenamesLink _))
  | chunks _ _ => inferInstanceAs (Decidable False)

def perform (settings : Settings) (tree : Tree) : SpaceStep → Option (Status × Tree)
  | request step => step.request.handle settings step.env step.caller tree
  | chunks env call =>
    if ∀ fid ∈ call.files, tree.NotDir fid then call.perform env tree else some (.eisdir, tree)

end SpaceStep

namespace Tree

variable {tree next : Tree} {env : Environment} {hierarchy : Hierarchy} {settings : Settings}
  {status : Status}

/-- The tree after a sequence of steps. -/
def runSteps (settings : Settings) : Tree → List SpaceStep → Option Tree
  | tree, [] => some tree
  | tree, step :: steps =>
    (step.perform settings tree).bind fun (_, tree) => runSteps settings tree steps

/-- The sizes and counts of all directories are those that `recomputeDirSize`
finds. -/
def SizesRecomputed (tree : Tree) : Prop :=
  ∃ next, tree.recomputeDirSize = some next ∧
    ∀ dir fa, tree.getFattr dir = some fa → fa.type = .dir →
      ∃ found, next.getFattr dir = some found ∧ found.filesize = fa.filesize ∧
        found.fileCount = fa.fileCount ∧ found.dirCount = fa.dirCount

section

variable (hbalanced : tree.Balanced)

include hbalanced

variable (hholds : tree.Holds hierarchy)

include hholds

theorem Balanced.sizesRecomputed :
    tree.SizesRecomputed := by
  obtain ⟨next, hnext, hsame⟩ := hbalanced.recomputeDirSize hholds
  refine ⟨next, hnext, fun dir fa hfattr _ => ?_⟩
  obtain ⟨found, hfound, haccount⟩ := hsame.exists_fattr hfattr
  simp only [Fattr.account, Prod.mk.injEq] at haccount
  exact ⟨found, hfound, haccount.2⟩

theorem Balanced.called (hcalled : tree.Called next) :
    next.Balanced := by
  induction hcalled with
  | nothing => exact hbalanced
  | create hcreate => exact hbalanced.create hholds hcreate
  | mkdir hmkdir => exact hbalanced.mkdir hholds hmkdir
  | remove hremove => exact hbalanced.remove hholds hremove
  | rmdir hrmdir => exact hbalanced.rmdir hholds hrmdir
  | rename _ _ hrename => exact hbalanced.rename hholds hrename
  | setTiers fid minSTier maxSTier hcalled ih =>
    obtain ⟨left, hleft⟩ := hholds.called hcalled
    exact ih.sameAccounts (sameAccounts_setTiers hleft.fattrIds_nodup fid minSTier maxSTier)

/-- Calls on chunks other than `remove` change neither names nor accounts. -/
theorem sameUsage_perform {call : ChunkCall} (hfiles : ∀ fid ∈ call.files, tree.NotDir fid)
    (hperform : call.perform env tree = some (status, next)) :
    tree.SameUsage next ∨ ∃ dir fname todumpster euser egroup result,
      tree.remove env dir fname todumpster euser egroup = some (status, result, next) := by
  have hids := hholds.fattrIds_nodup
  have hcounting : tree.Counting call.files := ⟨hids, hbalanced.enabled, hfiles⟩
  cases call with
  | assignChunkId file offset chunkId chunkVersion append appendReplayFlag =>
    obtain ⟨⟨_, _, _, _⟩, hassign, heq⟩ := map_eq_some_iff.mp hperform
    cases heq
    exact .inl (sameUsage_assignChunkId hcounting mem_cons_self hassign)
  | coalesceBlocks srcPath dstPath mtime euser egroup =>
    obtain ⟨⟨_, _, _, _, _, _⟩, hcoalesce, heq⟩ := map_eq_some_iff.mp hperform
    cases heq
    obtain ⟨src, hsrc, hrest⟩ := bind_eq_some_iff.mp hcoalesce
    split at hrest
    · cases hrest
      exact .inl (SameUsage.refl _)
    obtain ⟨dst, hdst, hlast⟩ := bind_eq_some_iff.mp hrest
    split at hlast
    · cases hlast
      exact .inl (SameUsage.refl _)
    split_ifs at hlast
    · cases hlast
      exact .inl (SameUsage.refl _)
    · obtain ⟨⟨_, _, _, _⟩, hfilesMoved, heq⟩ := map_eq_some_iff.mp hlast
      cases heq
      exact .inl (sameUsage_coalesceFiles hids hbalanced.enabled (lookupPath_found hsrc)
        (lookupPath_found hdst) hfilesMoved)
  | coalesceFiles srcFid dstFid mtime euser egroup =>
    simp only [ChunkCall.perform] at hperform
    split at hperform
    · rename_i srcFa dstFa hsrc hdst
      obtain ⟨⟨_, _, _, _⟩, hcoalesce, heq⟩ := map_eq_some_iff.mp hperform
      cases heq
      exact .inl (sameUsage_coalesceFiles hids hbalanced.enabled (getFattr_self hsrc)
        (getFattr_self hdst) hcoalesce)
    · cases hperform
      exact .inl (SameUsage.refl _)
  | truncate file offset mtime euser egroup endOffset setEofHintFlag =>
    exact .inl (sameUsage_truncate hids hbalanced.enabled hperform)
  | pruneFromHead file offset mtime euser egroup =>
    simp only [ChunkCall.perform, pruneFromHead] at hperform
    split_ifs at hperform
    · cases hperform
      exact .inl (SameUsage.refl _)
    · exact .inl (sameUsage_truncate hids hbalanced.enabled hperform)
  | invalidateFileSize file =>
    cases hperform
    exact .inl (sameUsage_invalidateFileSize hcounting mem_cons_self)
  | setFileSize file size =>
    obtain ⟨sized, hsized, heq⟩ := map_eq_some_iff.mp hperform
    cases heq
    exact .inl (sameUsage_setFileSize hcounting mem_cons_self hsized)
  | remove dir fname todumpster euser egroup =>
    obtain ⟨⟨_, result, _⟩, hremove, heq⟩ := map_eq_some_iff.mp hperform
    cases heq
    exact .inr ⟨dir, fname, todumpster, euser, egroup, result, hremove⟩

theorem Balanced.perform {step : SpaceStep} (hlink : ¬ step.RenamesLink)
    (hperform : step.perform settings tree = some (status, next)) :
    next.Balanced ∧ ∃ left, next.Holds left := by
  cases step with
  | request step =>
    have hcalled := called_handle hlink hperform
    exact ⟨hbalanced.called hholds hcalled, hholds.called hcalled⟩
  | chunks env call =>
    simp only [SpaceStep.perform] at hperform
    split_ifs at hperform with hfiles
    · obtain hsame | ⟨_, _, _, _, _, _, hremove⟩ :=
        sameUsage_perform hbalanced hholds hfiles hperform
      · exact ⟨hbalanced.sameAccounts hsame.toSameAccounts, hierarchy,
          hholds.sameNames hsame.toSameNames⟩
      · obtain ⟨left, hleft, -⟩ := hholds.remove_call hremove
        exact ⟨hbalanced.remove hholds hremove, left, hleft⟩
    · cases hperform
      exact ⟨hbalanced, hierarchy, hholds⟩

theorem Balanced.runSteps {steps : List SpaceStep} (hlinks : ∀ step ∈ steps, ¬ step.RenamesLink)
    (hrun : tree.runSteps settings steps = some next) :
    next.Balanced ∧ ∃ left, next.Holds left := by
  induction steps generalizing tree hierarchy with
  | nil =>
    cases hrun
    exact ⟨hbalanced, hierarchy, hholds⟩
  | cons step steps ih =>
    obtain ⟨⟨status, handled⟩, hperform, hrest⟩ := bind_eq_some_iff.mp hrun
    obtain ⟨hfirst, hsteps⟩ := forall_mem_cons.mp hlinks
    obtain ⟨hhandled, left, hleft⟩ := hbalanced.perform hholds hfirst hperform
    exact ih hhandled hleft hsteps hrest

end

theorem newTree_balanced {user group mode : ℕ}
    (hnew : newTree true env user group mode = some tree) : tree.Balanced := by
  have hstart : Balanced ⟨[], true, rootFid, rootFid⟩ := ⟨rfl, fun _ => rfl⟩
  exact hstart.sameAccounts (attachDirectory_account nodup_nil rfl rfl (newTree_attach hnew))

/-- In every run from a new file system with directory sizes that renames no
link, `recomputeDirSize` finds the sizes that the attributes have. -/
theorem sizesRecomputed_of_run {start last : Tree} {user group mode : ℕ} {steps : List SpaceStep}
    (hstart : newTree true env user group mode = some start)
    (hlinks : ∀ step ∈ steps, ¬ step.RenamesLink)
    (hrun : start.runSteps settings steps = some last) : last.SizesRecomputed := by
  obtain ⟨hbalanced, hierarchy, hholds⟩ :=
    (newTree_balanced hstart).runSteps (newTree_holds hstart) hlinks hrun
  exact hbalanced.sizesRecomputed hholds

/-- Two directories are made in a new file system, with the ids 3 and 4, before
the other steps. -/
def runStepsWithTwoDirs (steps : List SpaceStep) : Option Tree :=
  (newTree true quiet userRoot groupRoot 0o755).bind fun start => start.runSteps {}
    (.request (rootRequest (.change (.mkdir rootFid ['a'] userRoot groupRoot 0o755))) ::
      .request (rootRequest (.change (.mkdir rootFid ['b'] userRoot groupRoot 0o755))) :: steps)

/-- A chunk is appended to a new file in the first directory, which is then moved
into the second. -/
def appendAndMove : List SpaceStep :=
  [.request (rootRequest (.change (.create
      ⟨3, ['f'], 1, Striping.stripedFileTypeNone, 0, 0, 0, true, userRoot, groupRoot, 0o644,
        sTierMax, sTierMax⟩))),
    .chunks quiet (.assignChunkId 5 0 1 1 true false),
    .request (rootRequest (.rename rootFid ['a'] "/b/x".toList true))]

theorem sizesRecomputed_appendAndMove :
    ∃ last, runStepsWithTwoDirs appendAndMove = some last ∧
      (last.getFattr 4).map Fattr.account = some ((4, .dir, some rootFid), CHUNKSIZE, 1, 1) ∧
      last.SizesRecomputed := by
  have hresult : (runStepsWithTwoDirs appendAndMove).map
      (fun last => (last.getFattr 4).map Fattr.account) =
        some (some ((4, .dir, some rootFid), CHUNKSIZE, 1, 1)) := by
    decide +kernel
  obtain ⟨last, hlast, haccount⟩ := map_eq_some_iff.mp hresult
  obtain ⟨start, hstart, hrun⟩ := bind_eq_some_iff.mp hlast
  exact ⟨last, hlast, haccount, sizesRecomputed_of_run hstart (by decide) hrun⟩

/-- The link `.` of the first directory is renamed to a name in the second, which
becomes its parent: the traversal finds it in the root. -/
theorem not_sizesRecomputed_renamed_link :
    ∃ last, runStepsWithTwoDirs
        [.request (rootRequest (.rename 3 thisDir "/b/x".toList true))] = some last ∧
      ¬ last.SizesRecomputed := by
  have hpanic : (runStepsWithTwoDirs
      [.request (rootRequest (.rename 3 thisDir "/b/x".toList true))]).map
        recomputeDirSize = some none := by
    decide +kernel
  obtain ⟨last, hlast, hnone⟩ := map_eq_some_iff.mp hpanic
  refine ⟨last, hlast, ?_⟩
  rintro ⟨next, hnext, -⟩
  rw [hnone] at hnext
  cases hnext

/-! ## The root -/

variable {fa : Fattr}

/-- What a file or a directory is itself. -/
def own (fa : Fattr) : Usage := if fa.type = .dir then (0, 0, 1) else (fa.getFileSize, 1, 0)

theorem mem_leaves_of_fattrs (hfa : fa ∈ tree.fattrs) : .fattr fa ∈ tree.leaves := by
  obtain ⟨item, hitem, hvalue⟩ := mem_filterMap.mp hfa
  cases item <;> cases hvalue
  exact hitem

theorem Holds.parent_cases (hholds : tree.Holds hierarchy) (hfa : fa ∈ tree.fattrs) :
    fa.id = rootFid ∧ fa.parent = none ∨ ∃ dir ∈ tree.fattrs, fa.parent = some dir.id := by
  obtain ⟨node, hnode, hid, -, hparent⟩ := hholds.node_of_mem (mem_leaves_of_fattrs hfa)
  split_ifs at hparent with hroot
  · exact .inl ⟨hid.trans hroot, hparent⟩
  · obtain ⟨dir, hdir, hdirid, -⟩ := hierarchy.parents node hnode
    obtain ⟨found, hfound, -⟩ := hholds.getFattr_of_mem hdir
    refine .inr ⟨found, mem_fattrs_of_getFattr hfound, ?_⟩
    rw [hparent, getFattr_id hfound, hdirid]

/-- The root says what all other attributes are: what the directories say together
counts every other attribute with what is below it. -/
theorem Balanced.stored_root (hbalanced : tree.Balanced) (hholds : tree.Holds hierarchy) :
    ∃ root, tree.getFattr rootFid = some root ∧
      root.stored = ((tree.fattrs.erase root).map own).sum := by
  have hids := hholds.fattrIds_nodup
  obtain ⟨root, hroot, hobject⟩ := hholds.getFattr_of_mem hierarchy.root
  simp only [Fattr.object, Node.object, Node.root, if_true, Prod.mk.injEq] at hobject
  obtain ⟨hrootid, -, hnone⟩ := hobject
  have hperm := perm_cons_erase (mem_fattrs_of_getFattr hroot)
  have hstored : ∀ fa ∈ tree.fattrs, tree.contained fa.id = fa.stored := by
    intro fa hfa
    have hbalance := hbalanced.balanced fa.id
    rw [imbalance, getFattr_of_mem hids (mem_leaves_of_fattrs hfa)] at hbalance
    exact (sub_eq_zero.mp hbalance).symm
  rw [fattrIds_eq_fattrs] at hids
  have hweights : ∀ fa ∈ tree.fattrs.erase root,
      (if fa.parent.isSome = true then fa.weight else 0) = fa.stored + own fa := by
    intro fa hfa
    rcases hholds.parent_cases (mem_of_mem_erase hfa) with ⟨hid, -⟩ | ⟨dir, -, hparent⟩
    · have hnotMem := (nodup_cons.mp ((hperm.map _).nodup_iff.mp hids)).1
      exact absurd (mem_map.mpr ⟨fa, hfa, hid.trans hrootid.symm⟩) hnotMem
    · rw [hparent, isSome_some, if_pos rfl, weight, stored, own]
      split_ifs <;> simp
  have hsum : ((tree.fattrs.map Fattr.id).map tree.contained).sum = _ :=
    Graph.sum_childTotal hids fun fa hfa key hkey => by
      obtain ⟨-, hparent⟩ | ⟨dir, hdir, hparent⟩ := hholds.parent_cases hfa <;>
        cases hparent.symm.trans hkey
      exact mem_map_of_mem hdir
  simp only [List.map_map, Function.comp_def, map_congr_left hstored] at hsum
  rw [(hperm.map stored).sum_eq, (hperm.map fun _ => _).sum_eq, map_cons, map_cons,
    map_congr_left hweights, sum_cons, sum_cons, sum_map_add, hnone, isSome_none,
    if_neg Bool.false_ne_true, zero_add] at hsum
  exact ⟨root, hroot, add_right_cancel (hsum.trans (add_comm _ _))⟩

/-- In every run from a new file system with directory sizes that renames no
link, the counters of the root are the known sizes, the number of files and the
number of other directories of the whole file system. -/
theorem rootUsage_of_run {start last : Tree} {user group mode : ℕ} {steps : List SpaceStep}
    (hstart : newTree true env user group mode = some start)
    (hlinks : ∀ step ∈ steps, ¬ step.RenamesLink)
    (hrun : start.runSteps settings steps = some last) :
    ∃ root, last.getFattr rootFid = some root ∧
      root.stored = ((last.fattrs.erase root).map own).sum := by
  obtain ⟨hbalanced, hierarchy, hholds⟩ :=
    (newTree_balanced hstart).runSteps (newTree_holds hstart) hlinks hrun
  exact hbalanced.stored_root hholds

theorem rootUsage_appendAndMove :
    ∃ last root, runStepsWithTwoDirs appendAndMove = some last ∧
      last.getFattr rootFid = some root ∧
      root.stored = ((last.fattrs.erase root).map own).sum := by
  have hsome : (runStepsWithTwoDirs appendAndMove).isSome = true := by decide +kernel
  obtain ⟨last, hlast⟩ := isSome_iff_exists.mp hsome
  obtain ⟨start, hstart, hrun⟩ := bind_eq_some_iff.mp hlast
  obtain ⟨root, hroot, hstored⟩ := rootUsage_of_run hstart (by decide) hrun
  exact ⟨last, root, hlast, hroot, hstored⟩

end Tree

end QfsRepair.Meta
