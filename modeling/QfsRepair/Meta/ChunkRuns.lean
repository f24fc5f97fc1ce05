import QfsRepair.Meta.ChunkUpdates
import QfsRepair.Meta.Outcomes

/-!
# Runs of operations on chunks

Sequences of `assignChunkId`, `coalesceBlocks`, `truncate`, `pruneFromHead`,
`invalidateFileSize`, `setFileSize` and `remove` calls on any files.  Every
file's attribute describes its chunk infos along a run in which no call cuts
beyond the known size of a file and offsets stay within 64 bits; a call that
does cut beyond the known size breaks the description.
-/

namespace QfsRepair.Meta

open Option
open Striping (CHUNKSIZE wrap64)

namespace Tree

variable {tree next : Tree} {env : Environment} {fid : ℤ} {fa : Fattr}

/-! ## Renames -/

section Rename

variable {parent : ℤ} {oldname : Name} {sfattr : Fattr} {ddir : ℤ} {dname : Name}
variable {ddfattr : Option Fattr} {todumpster : ℤ} {status : Status}

theorem neutral_moveCounts {srcfid : ℤ} (hmoved : tree.moveCounts srcfid ddir = some next) :
    Neutral tree next := by
  obtain ⟨sfattr, -, hmoved⟩ := bind_eq_some_iff.mp hmoved
  obtain ⟨taken, htaken, hmoved⟩ := bind_eq_some_iff.mp hmoved
  obtain ⟨given, hgiven, rfl⟩ := map_eq_some_iff.mp hmoved
  have hparent : Neutral taken
      (taken.modifyFattr srcfid fun fa => { fa with parent := some ddir }) :=
    neutral_modifyFattr (fun _ => rfl) fun fa _ => Fattr.SameCounts.refl fa
  exact (neutral_setFileSize htaken).trans (hparent.trans ((neutral_setFileSize hgiven).trans
    (neutral_modifyFattr (fun _ => rfl) fun fa _ => Fattr.SameCounts.refl fa)))

theorem neutral_moveEntry
    (hmoved : tree.moveEntry parent oldname sfattr ddir dname ddfattr = some next) :
    Neutral tree next := by
  obtain ⟨unlinked, hunlinked, hmoved⟩ := bind_eq_some_iff.mp hmoved
  obtain ⟨deleted, hdeleted, hmoved⟩ := bind_eq_some_iff.mp hmoved
  have hdotdot : Neutral tree unlinked := by
    split_ifs at hunlinked
    · exact neutral_del_dentry hunlinked
    · cases hunlinked
      exact Neutral.refl _
  have hinserted := hdotdot.trans ((neutral_del_dentry hdeleted).trans
    (neutral_insert_dentry ⟨sfattr.id, ddir, dname⟩))
  cases ddfattr with
  | none =>
    cases hmoved
    exact hinserted
  | some ddfattr =>
    obtain ⟨counted, hcounted, rfl⟩ := map_eq_some_iff.mp hmoved
    refine hinserted.trans ((neutral_moveCounts hcounted).trans ?_)
    split_ifs
    · exact neutral_insert_dentry _
    · exact Neutral.refl _

theorem neutral_renameToDumpster {dumpster : ℤ}
    (hrename : tree.renameToDumpster env ddir dname todumpster dumpster = some (status, next)) :
    Neutral tree next := by
  obtain ⟨-, rfl⟩ | ⟨-, _, _, _, _, _, _, -, -, hrenamed⟩ := renameToDumpster_cases hrename
  · exact Neutral.refl _
  · cases hrenamed with
    | unchanged => exact Neutral.refl _
    | moved _ _ _ hmove => exact neutral_moveEntry hmove
    | replaced _ _ _ _ _ hnone => cases hnone

end Rename

/-! ## Removals -/

variable (hsound : tree.ChunksSound)

include hsound

/-- A new attribute of a directory concerns no file. -/
theorem chunksSound_insertDir (hnew : tree.getFattr fa.id = none) (htype : fa.type = .dir)
    (hseed : fa.id ≤ tree.fileIdSeed) :
    (tree.insert (.fattr fa)).ChunksSound := by
  have hids : (tree.insert (.fattr fa)).IdsDistinct := by
    refine ⟨(fattrIds_insert_fattr fa).nodup_iff.mpr ?_, ?_⟩
    · exact List.nodup_cons.mpr ⟨getFattr_eq_none_iff.mp hnew, hsound.ids.nodup⟩
    · intro other hother
      obtain rfl | hother := List.mem_cons.mp ((fattrIds_insert_fattr fa).mem_iff.mp hother)
      · exact hseed
      · exact hsound.ids.le_seed other hother
  have houtside : tree.SoundOutside ({fa.id} ∪ ∅) := hsound.mono (Set.empty_subset _)
  refine houtside.update hids ?_ ?_
  · intro other hother
    exact ⟨getFattr_insert_of_ne fa hother.symm, getalloc_insert_fattr fa⟩
  · intro found hfound hfile
    rw [getFattr_insert_self fa hnew] at hfound
    cases hfound
    exact absurd (htype.symm.trans hfile) (by decide)

variable {dir : ℤ}

theorem chunksSound_attachDirectory {dname : Name} {user group mode : ℕ} {parent : Option Fattr}
    (hnew : tree.getFattr fid = none) (hseed : fid ≤ tree.fileIdSeed)
    (hattach : tree.attachDirectory env dir dname fid user group mode parent = some next) :
    next.ChunksSound := by
  obtain ⟨counted, hcounted, rfl⟩ := map_eq_some_iff.mp hattach
  have hadded : (tree.addDirectory env dir dname fid user group mode parent).ChunksSound := by
    refine SoundOutside.neutral ?_ ((neutral_insert_dentry _).trans (neutral_insert_dentry _))
    refine chunksSound_insertDir (SoundOutside.neutral hsound (neutral_insert_dentry _)) ?_ rfl
      hseed
    rw [getFattr_insert_dentry]
    exact hnew
  have hcounts : counted.ChunksSound := SoundOutside.neutral hadded (neutral_updateCounts hcounted)
  cases parent with
  | none => exact hcounts
  | some parent =>
    exact SoundOutside.neutral hcounts
      (neutral_modifyFattr (fun _ => rfl) fun fa _ => Fattr.SameCounts.refl fa)

variable {status : Status}

/-- A directory with an id from the generator. -/
theorem chunksSound_mkdir {newFid : ℤ} {dname : Name} {user group mode euser egroup : ℕ}
    (hname : dname ≠ rootName)
    (hmkdir : tree.mkdir env dir dname user group mode euser egroup 0 =
      some (status, newFid, next)) : next.ChunksSound := by
  obtain ⟨-, rfl⟩ | ⟨-, -, ⟨hroot, -⟩ | ⟨-, -, -, hattach⟩⟩ := mkdir_cases hmkdir
  · exact hsound
  · exact absurd hroot hname
  · have hgenerated : tree.genFileId.2.ChunksSound := by
      refine ⟨⟨hsound.ids.nodup, ?_⟩, hsound.files⟩
      intro other hother
      exact (hsound.ids.le_seed other hother).trans (Int.le_add_one le_rfl)
    refine chunksSound_attachDirectory hgenerated ?_ le_rfl hattach
    refine getFattr_eq_none_iff.mpr fun hmem => ?_
    exact absurd (hsound.ids.le_seed _ hmem) (not_le.mpr (Int.lt_succ _))

variable {fname : Name}

theorem chunksSound_moveToDumpster {todumpster : ℤ}
    (hmove : tree.moveToDumpster env dir fname todumpster = some (status, next)) :
    next.ChunksSound := by
  obtain ⟨_, hrename | ⟨_, _, _, hmkdir, hrename⟩⟩ := moveToDumpster_cases hmove
  · exact SoundOutside.neutral hsound (neutral_renameToDumpster hrename)
  · exact SoundOutside.neutral (chunksSound_mkdir hsound (by decide) hmkdir)
      (neutral_renameToDumpster hrename)

omit hsound in
/-- The attribute and the chunk infos of a removed file leave the tree
together. -/
theorem chunksSound_unlink (hsound : tree.SoundOutside {fa.id})
    (hunlink : tree.unlink dir fname fa = some next) : next.ChunksSound := by
  obtain ⟨named, hnamed, hdel⟩ := bind_eq_some_iff.mp hunlink
  have hnamedSound := hsound.neutral (neutral_del_dentry hnamed)
  have houtside : named.SoundOutside ({fa.id} ∪ ∅) := by
    rw [Set.union_empty]
    exact hnamedSound
  refine houtside.update ?_ ?_ ?_
  · refine ⟨?_, ?_⟩
    · rw [fattrIds_del_fattr hdel]
      exact hnamedSound.ids.nodup.erase _
    · intro other hother
      rw [fattrIds_del_fattr hdel] at hother
      rw [del_eq_some hdel]
      exact hnamedSound.ids.le_seed other (List.mem_of_mem_erase hother)
  · intro other hother
    exact ⟨getFattr_del_of_ne hdel hother.symm, getalloc_del_fattr hdel⟩
  · intro found hfound
    rw [getFattr_del_self hnamedSound.ids hdel] at hfound
    cases hfound

theorem chunksSound_removeFile (hfattr : tree.getFattr fa.id = some fa) (htype : fa.type = .file)
    (hremove : tree.removeFile dir fname fa = some next) :
    next.ChunksSound := by
  obtain ⟨emptied, hemptied, hremove⟩ := bind_eq_some_iff.mp hremove
  obtain ⟨sized, hsized, hunlink⟩ := bind_eq_some_iff.mp hremove
  have hfile := hsound.sound hfattr htype
  have houtside : tree.SoundOutside {fa.id} := hsound.mono (Set.empty_subset _)
  have hemptiedSound : emptied.SoundOutside {fa.id} := by
    split_ifs at hemptied
    · obtain ⟨hframe, -⟩ := deleteChunks_spec
        (fun left hleft right hright hkey => hfile.eq_of_key hleft hright hkey)
        (List.Subset.refl _) hfile.distinct.of_map hemptied
      exact houtside.frame hframe (Set.mem_singleton _)
    · cases hemptied
      exact houtside
  exact chunksSound_unlink (hemptiedSound.neutral (neutral_setFileSize hsized)) hunlink

theorem chunksSound_remove {todumpster dumped : ℤ} {euser egroup : ℕ}
    (hremove : tree.remove env dir fname todumpster euser egroup = some (status, dumped, next)) :
    next.ChunksSound := by
  obtain ⟨-, rfl⟩ | ⟨fa, parent, hlookup, htype, ⟨-, -, hmoved⟩ | ⟨-, -, hremoved⟩⟩ :=
    remove_cases hremove
  · exact hsound
  · exact chunksSound_moveToDumpster hsound hmoved
  · exact chunksSound_removeFile hsound (lookupWithParent_found hlookup) htype hremoved

end Tree

/-! ## Calls and runs -/

/-- A call of the interface for chunks; `coalesceFiles` is the call of
`coalesceBlocks` with two ids that a replay makes. -/
inductive ChunkCall where
  | assignChunkId (file offset chunkId chunkVersion : ℤ) (append appendReplayFlag : Bool)
  | coalesceBlocks (srcPath dstPath : Name) (mtime : Option ℤ) (euser egroup : ℕ)
  | coalesceFiles (srcFid dstFid : ℤ) (mtime : Option ℤ) (euser egroup : ℕ)
  | truncate (file offset : ℤ) (mtime : Option ℤ) (euser egroup : ℕ) (endOffset : ℤ)
      (setEofHintFlag : Bool)
  | pruneFromHead (file offset : ℤ) (mtime : Option ℤ) (euser egroup : ℕ)
  | invalidateFileSize (file : ℤ)
  | setFileSize (file size : ℤ)
  | remove (dir : ℤ) (fname : Name) (todumpster : ℤ) (euser egroup : ℕ)

namespace ChunkCall

variable (env : Environment) (tree : Tree)

/-- The status of a call and the tree after it. -/
def perform : ChunkCall → Option (Status × Tree)
  | assignChunkId file offset chunkId chunkVersion append appendReplayFlag =>
    (tree.assignChunkId env file offset chunkId chunkVersion append appendReplayFlag).map
      fun (status, _, _, tree) => (status, tree)
  | coalesceBlocks srcPath dstPath mtime euser egroup =>
    (tree.coalesceBlocks env srcPath dstPath mtime euser egroup).map
      fun (status, _, _, _, _, tree) => (status, tree)
  | coalesceFiles srcFid dstFid mtime euser egroup =>
    match tree.getFattr srcFid, tree.getFattr dstFid with
    | some srcFa, some dstFa =>
      (tree.coalesceFiles env srcFa dstFa mtime euser egroup).map
        fun (status, _, _, tree) => (status, tree)
    | _, _ => some (.enoent, tree)
  | truncate file offset mtime euser egroup endOffset setEofHintFlag =>
    tree.truncate env file offset mtime euser egroup endOffset setEofHintFlag
  | pruneFromHead file offset mtime euser egroup =>
    tree.pruneFromHead env file offset mtime euser egroup
  | invalidateFileSize file => some (.ok, tree.invalidateFileSize file)
  | setFileSize file size => (tree.setFileSize file size 0 0).map fun tree => (.ok, tree)
  | remove dir fname todumpster euser egroup =>
    (tree.remove env dir fname todumpster euser egroup).map
      fun (status, _, tree) => (status, tree)

/-- The call cuts beyond the known size of a file. -/
def CutsBeyondSize : ChunkCall → Prop
  | truncate file offset _ _ _ endOffset _ => tree.CutsBeyondSize file offset endOffset
  | pruneFromHead file offset _ _ _ =>
    0 ≤ offset ∧ tree.CutsBeyondSize file 0 (chunkStartOffset offset)
  | _ => False

/-- The offsets the call computes stay within 64 bits. -/
def OffsetsFit : ChunkCall → Prop
  | assignChunkId file offset _ _ _ _ =>
    0 ≤ offset ∧ offset + CHUNKSIZE < 2 ^ 63 ∧
      ∀ fa ∈ tree.getFattr file, fa.nextChunkOffset + CHUNKSIZE < 2 ^ 63
  | coalesceBlocks srcPath dstPath _ euser egroup =>
    ∀ srcFa dstFa, tree.lookupPath env rootFid srcPath euser egroup = some (.ok srcFa) →
      tree.lookupPath env rootFid dstPath euser egroup = some (.ok dstFa) →
      dstFa.nextChunkOffset + srcFa.nextChunkOffset < 2 ^ 63
  | coalesceFiles srcFid dstFid _ _ _ =>
    ∀ srcFa ∈ tree.getFattr srcFid, ∀ dstFa ∈ tree.getFattr dstFid,
      dstFa.nextChunkOffset + srcFa.nextChunkOffset < 2 ^ 63
  | truncate _ offset _ _ _ _ _ => offset + CHUNKSIZE < 2 ^ 63
  | _ => True

end ChunkCall

/-- The trees reached by calls whose offsets fit and that do not cut beyond the
known size of a file. -/
inductive Reaches (start : Tree) : Tree → Prop where
  | refl : Reaches start start
  | step {tree next : Tree} (env : Environment) (call : ChunkCall) (status : Status) :
      Reaches start tree → call.OffsetsFit env tree → ¬ call.CutsBeyondSize tree →
      call.perform env tree = some (status, next) → Reaches start next

namespace Tree

variable {tree next : Tree} {env : Environment} {status : Status}

theorem chunksSound_coalesceBlocks {srcPath dstPath : Name} {mtime : Option ℤ} {euser egroup : ℕ}
    {srcFid dstFid dstStartOffset moved : ℤ} (hsound : tree.ChunksSound)
    (hfit : (ChunkCall.coalesceBlocks srcPath dstPath mtime euser egroup).OffsetsFit env tree)
    (hcoalesce : tree.coalesceBlocks env srcPath dstPath mtime euser egroup =
      some (status, srcFid, dstFid, dstStartOffset, moved, next)) : next.ChunksSound := by
  obtain ⟨src, hsrc, hcoalesce⟩ := bind_eq_some_iff.mp hcoalesce
  cases src with
  | error _ =>
    cases hcoalesce
    exact hsound
  | ok srcFa =>
    obtain ⟨dst, hdst, hcoalesce⟩ := bind_eq_some_iff.mp hcoalesce
    cases dst with
    | error _ =>
      cases hcoalesce
      exact hsound
    | ok dstFa =>
      split_ifs at hcoalesce
      · cases hcoalesce
        exact hsound
      · obtain ⟨⟨_, _, _, _⟩, hfiles, hresult⟩ := map_eq_some_iff.mp hcoalesce
        cases hresult
        exact chunksSound_coalesceFiles hsound (lookupPath_found hsrc) (lookupPath_found hdst)
          (hfit srcFa dstFa hsrc hdst) hfiles

variable {call : ChunkCall}

theorem chunksSound_perform (hsound : tree.ChunksSound) (hfit : call.OffsetsFit env tree)
    (hcut : ¬ call.CutsBeyondSize tree) (hperform : call.perform env tree = some (status, next)) :
    next.ChunksSound := by
  cases call with
  | assignChunkId file offset chunkId chunkVersion append appendReplayFlag =>
    obtain ⟨⟨_, _, _, _⟩, hassign, hresult⟩ := map_eq_some_iff.mp hperform
    cases hresult
    obtain ⟨hnonneg, hsmall, hnext⟩ := hfit
    exact chunksSound_assignChunkId hsound hnonneg hsmall hnext hassign
  | coalesceBlocks srcPath dstPath mtime euser egroup =>
    obtain ⟨⟨_, _, _, _, _, _⟩, hcoalesce, hresult⟩ := map_eq_some_iff.mp hperform
    cases hresult
    exact chunksSound_coalesceBlocks hsound hfit hcoalesce
  | coalesceFiles srcFid dstFid mtime euser egroup =>
    simp only [ChunkCall.perform] at hperform
    split at hperform
    · rename_i srcFa dstFa hsrc hdst
      obtain ⟨⟨_, _, _, _⟩, hcoalesce, hresult⟩ := map_eq_some_iff.mp hperform
      cases hresult
      exact chunksSound_coalesceFiles hsound (getFattr_self hsrc) (getFattr_self hdst)
        (hfit srcFa hsrc dstFa hdst) hcoalesce
    · cases hperform
      exact hsound
  | truncate file offset mtime euser egroup endOffset setEofHintFlag =>
    exact chunksSound_truncate hsound hfit hcut hperform
  | pruneFromHead file offset mtime euser egroup =>
    simp only [ChunkCall.perform, pruneFromHead] at hperform
    split_ifs at hperform with hoffset
    · cases hperform
      exact hsound
    · refine chunksSound_truncate hsound (by decide) (fun hbeyond => hcut ?_) hperform
      exact ⟨not_lt.mp hoffset, hbeyond⟩
  | invalidateFileSize file =>
    cases hperform
    exact SoundOutside.neutral hsound neutral_invalidateFileSize
  | setFileSize file size =>
    obtain ⟨sized, hsized, hresult⟩ := map_eq_some_iff.mp hperform
    cases hresult
    exact SoundOutside.neutral hsound (neutral_setFileSize hsized)
  | remove dir fname todumpster euser egroup =>
    obtain ⟨⟨_, _, _⟩, hremove, hresult⟩ := map_eq_some_iff.mp hperform
    cases hresult
    exact chunksSound_remove hsound hremove

theorem chunksSound_of_reaches {start : Tree} (hstart : start.ChunksSound)
    (hreaches : Reaches start tree) : tree.ChunksSound := by
  induction hreaches with
  | refl => exact hstart
  | step _ _ _ _ hfit hcut hperform ih => exact chunksSound_perform ih hfit hcut hperform

/-- A call that cuts beyond the known size of a file and succeeds breaks the
description of the file. -/
theorem not_chunksConsistent_perform (hsound : tree.ChunksSound) (hcut : call.CutsBeyondSize tree)
    (hperform : call.perform env tree = some (.ok, next)) :
    ¬ next.ChunksConsistent := by
  cases call with
  | truncate => exact not_chunksConsistent_truncate hsound hcut hperform
  | pruneFromHead =>
    simp only [ChunkCall.perform, pruneFromHead, if_neg (not_lt.mpr hcut.1)] at hperform
    exact not_chunksConsistent_truncate hsound hcut.2 hperform
  | _ => exact hcut.elim

/-- A tree whose files have no chunks starts a run. -/
theorem chunksSound_of_noChunks {tree : Tree} (hids : tree.IdsDistinct)
    (hchunks : ∀ fid fa, tree.getFattr fid = some fa → fa.type = .file →
      tree.getalloc fid = [] ∧ fa.chunkcount = 0 ∧ fa.nextChunkOffset = 0) :
    tree.ChunksSound := by
  refine ⟨hids, ?_⟩
  intro fid fa _ hfattr htype
  obtain ⟨hnone, hcount, hnext⟩ := hchunks fid fa hfattr htype
  rw [hnone]
  refine ⟨⟨hcount, List.nodup_nil, by simp, by simp⟩, by simp, ?_, hnext.ge⟩
  rw [hnext]
  exact dvd_zero _

/-- Along every run of calls that do not cut beyond the known size of a file,
every file's attribute describes its chunk infos, and the first successful call
that does cut beyond the known size ends that. -/
theorem chunksConsistent_of_reaches {start : Tree} (hstart : start.ChunksSound)
    (hreaches : Reaches start tree) :
    tree.ChunksConsistent ∧
      ∀ (env : Environment) (call : ChunkCall) (next : Tree),
        call.OffsetsFit env tree → call.perform env tree = some (.ok, next) →
        (next.ChunksConsistent ↔ ¬ call.CutsBeyondSize tree) := by
  have hsound := chunksSound_of_reaches hstart hreaches
  refine ⟨hsound.consistent, ?_⟩
  intro env call next hfit hperform
  refine ⟨fun hconsistent hcut => ?_, fun hcut => ?_⟩
  · exact not_chunksConsistent_perform hsound hcut hperform hconsistent
  · exact (chunksSound_perform hsound hfit hcut hperform).consistent

/-- A tree with one file, its chunks at the given multiples of `CHUNKSIZE`. -/
def oneFile (indices : List ℤ) (nextIndex filesize : ℤ) : Tree where
  leaves :=
    .fattr { Fattr.create .dir rootFid 1 userRoot groupRoot 0o755 0 with
      subcount1 := 1
      filesize := if filesize < 0 then -1 - filesize else filesize } ::
    .fattr { Fattr.create .file 3 1 userRoot groupRoot 0o644 0 with
      subcount1 := indices.length
      subcount2 := nextIndex * CHUNKSIZE
      filesize := filesize
      parent := some rootFid } ::
    indices.map fun index => .chunkInfo ⟨3, index * CHUNKSIZE, index + 1, 1⟩
  updatePathSpaceUsage := true
  fileIdSeed := 3
  chunkIdSeed := 0

theorem chunksSound_oneFile : (oneFile [] 0 0).ChunksSound := by
  refine chunksSound_of_noChunks ⟨by decide, by decide⟩ ?_
  intro fid fa hfattr htype
  obtain ⟨item, hmem, hitem⟩ := List.exists_of_findSome?_eq_some hfattr
  obtain ⟨rfl, rfl⟩ := Item.fattrWith_eq_some.mp hitem
  simp only [oneFile, List.map_nil, List.mem_cons, Item.fattr.injEq, List.not_mem_nil,
    or_false] at hmem
  rcases hmem with rfl | rfl
  · cases htype
  · exact ⟨rfl, rfl, rfl⟩

/-- Three chunks are added to a file, whose size becomes unknown. -/
theorem reaches_threeChunks : Reaches (oneFile [] 0 0) (oneFile [0, 1, 2] 3 (-1)) := by
  have hfirst : Reaches (oneFile [] 0 0) (oneFile [0] 1 (-1)) :=
    .step quiet (.assignChunkId 3 0 1 1 false false) .ok .refl
      ⟨by decide, by decide, by decide⟩ id (by decide +kernel)
  have hsecond : Reaches (oneFile [] 0 0) (oneFile [0, 1] 2 (-1)) :=
    .step quiet (.assignChunkId 3 CHUNKSIZE 2 1 false false) .ok hfirst
      ⟨by decide, by decide, by decide⟩ id (by decide +kernel)
  exact .step quiet (.assignChunkId 3 (2 * CHUNKSIZE) 3 1 false false) .ok hsecond
    ⟨by decide, by decide, by decide⟩ id (by decide +kernel)

theorem chunksConsistent_threeChunks :
    (oneFile [0, 1, 2] 3 (-1)).ChunksConsistent :=
  (chunksConsistent_of_reaches chunksSound_oneFile reaches_threeChunks).1

/-- The first of three chunks is pruned from a file of unknown size: the next
chunk offset becomes the offset of the first chunk that is left. -/
theorem not_chunksConsistent_prune_unknown_size :
    Reaches (oneFile [] 0 0) (oneFile [0, 1, 2] 3 (-1)) ∧
      (ChunkCall.pruneFromHead 3 CHUNKSIZE none userRoot groupRoot).perform quiet
        (oneFile [0, 1, 2] 3 (-1)) = some (.ok, oneFile [1, 2] 1 CHUNKSIZE) ∧
      ¬ (oneFile [1, 2] 1 CHUNKSIZE).ChunksConsistent := by
  refine ⟨reaches_threeChunks, by decide +kernel, ?_⟩
  intro hconsistent
  have hbelow := (hconsistent 3 _ rfl rfl).below ⟨3, CHUNKSIZE, 2, 1⟩ (by decide)
  exact absurd hbelow (by decide)

end Tree

end QfsRepair.Meta
