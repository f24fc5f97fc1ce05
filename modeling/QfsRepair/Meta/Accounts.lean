import QfsRepair.Graph.ChildTotals
import QfsRepair.Meta.HierarchyViews
import Mathlib.Algebra.Group.Prod

/-!
# Space accounts of directories

The size, the number of files and the number of directories that the attribute
of a directory says are below it, and what the attributes in it add up to.  The
difference is the imbalance of the directory.  `updateCounts` raises only the
imbalance of the first directory that it visits, since what it adds to every
other one is also added to a directory in it; `setFileSize` and the counters of
a rename leave every directory balanced.
-/

namespace QfsRepair.Meta

open Option Fattr

/-- Bytes, files and directories. -/
abbrev Usage := ℤ × ℤ × ℤ

namespace Fattr

/-- What a directory says is below it. -/
def stored (fa : Fattr) : Usage :=
  if fa.type = .dir then (fa.filesize, fa.fileCount, fa.dirCount) else 0

/-- What a file or a directory adds to the directory that it is in. -/
def weight (fa : Fattr) : Usage :=
  if fa.type = .dir then (fa.filesize, fa.fileCount, fa.dirCount + 1)
  else (fa.getFileSize, 1, 0)

/-- What the loop of `updateCounts` does to a directory. -/
def addUsage (nbytes nfiles ndirs : ℤ) (fa : Fattr) : Fattr :=
  { fa with
    filesize := fa.filesize + nbytes
    subcount1 := fa.subcount1 + nfiles
    subcount2 := fa.subcount2 + ndirs }

theorem addUsage_id (nbytes nfiles ndirs : ℤ) (fa : Fattr) :
    (fa.addUsage nbytes nfiles ndirs).id = fa.id := rfl

theorem addUsage_parent (nbytes nfiles ndirs : ℤ) (fa : Fattr) :
    (fa.addUsage nbytes nfiles ndirs).parent = fa.parent := rfl

variable {fa : Fattr}

theorem stored_addUsage (htype : fa.type = .dir) (nbytes nfiles ndirs : ℤ) :
    (fa.addUsage nbytes nfiles ndirs).stored = fa.stored + (nbytes, nfiles, ndirs) := by
  simp [stored, addUsage, htype, fileCount, dirCount]

theorem weight_addUsage (htype : fa.type = .dir) (nbytes nfiles ndirs : ℤ) :
    (fa.addUsage nbytes nfiles ndirs).weight = fa.weight + (nbytes, nfiles, ndirs) := by
  simp [weight, addUsage, htype, fileCount, dirCount, add_right_comm]

/-- What `setFileSize` does to the attribute. -/
def resize (size : ℤ) (fa : Fattr) : Fattr := { fa with filesize := size }

theorem resize_id (size : ℤ) (fa : Fattr) : (fa.resize size).id = fa.id := rfl

theorem resize_parent (size : ℤ) (fa : Fattr) : (fa.resize size).parent = fa.parent := rfl

theorem stored_resize (size : ℤ) (fa : Fattr) : (fa.resize size).stored =
    fa.stored + if fa.type = .dir then (size - fa.filesize, 0, 0) else 0 := by
  by_cases htype : fa.type = .dir <;> simp [stored, resize, htype, fileCount, dirCount]

variable {size : ℤ}

theorem weight_resize (hsize : 0 ≤ size) (hknown : fa.type = .dir → 0 ≤ fa.filesize) :
    (fa.resize size).weight = fa.weight + (size - fa.getFileSize, 0, 0) := by
  by_cases htype : fa.type = .dir
  · simp [weight, resize, htype, getFileSize, hknown htype, fileCount, dirCount]
  · simp [weight, resize, htype, getFileSize, hsize]

def moveTo (parent : ℤ) (fa : Fattr) : Fattr := { fa with parent := some parent }

theorem moveTo_id (parent : ℤ) (fa : Fattr) : (fa.moveTo parent).id = fa.id := rfl

theorem weight_moveTo (parent : ℤ) (fa : Fattr) : (fa.moveTo parent).weight = fa.weight := rfl

theorem stored_moveTo (parent : ℤ) (fa : Fattr) : (fa.moveTo parent).stored = fa.stored := rfl

/-- The counts that a rename moves. -/
def counts (fa : Fattr) : Usage :=
  (0, if fa.type = .dir then fa.fileCount else 1, if fa.type = .dir then fa.dirCount + 1 else 0)

theorem weight_resize_zero (fa : Fattr) : (fa.resize 0).weight = fa.counts := by
  by_cases htype : fa.type = .dir <;>
    simp [weight, resize, counts, htype, getFileSize, fileCount, dirCount]

/-- A size that is not known counts with its last known value. -/
theorem usage_resize_getFileSize (fa other : Fattr) (hsame : other.type = fa.type)
    (hknown : fa.type = .dir → 0 ≤ fa.filesize) :
    (other.resize fa.filesize).stored = (other.resize fa.getFileSize).stored ∧
      (other.resize fa.filesize).weight = (other.resize fa.getFileSize).weight := by
  by_cases hsize : 0 ≤ fa.filesize
  · rw [show fa.getFileSize = fa.filesize from if_pos hsize]
    exact ⟨rfl, rfl⟩
  · have htype : ¬ fa.type = .dir := fun htype => hsize (hknown htype)
    simp [stored, weight, resize, getFileSize, hsame, htype, hsize]
    omega

end Fattr

def Item.fattrOf : Item → Option Fattr
  | fattr fa => some fa
  | _ => none

namespace Tree

def fattrs (tree : Tree) : List Fattr := tree.leaves.filterMap Item.fattrOf

/-- What the files and directories in a directory add up to. -/
def contained (tree : Tree) (dir : ℤ) : Usage :=
  Graph.childTotal Fattr.parent Fattr.weight dir tree.fattrs

def imbalance (tree : Tree) (dir : ℤ) : Usage :=
  (tree.getFattr dir).elim 0 Fattr.stored - tree.contained dir

variable {tree next : Tree} {fid dir : ℤ} {fa : Fattr}

/-! ## The attributes of a tree -/

theorem getFattr_eq_find : tree.getFattr fid = tree.fattrs.find? fun fa => fa.id = fid := by
  rw [getFattr, fattrs]
  induction tree.leaves with
  | nil => rfl
  | cons item items ih =>
    cases item with
    | fattr fa =>
      by_cases hid : fa.id = fid
      · simp [Item.fattrWith, Item.fattrOf, hid]
      · simp [Item.fattrWith, Item.fattrOf, hid, ih]
    | _ => exact ih

theorem mem_fattrs_of_getFattr (hfattr : tree.getFattr fid = some fa) : fa ∈ tree.fattrs := by
  rw [getFattr_eq_find] at hfattr
  exact List.mem_of_find?_eq_some hfattr

theorem fattrIds_eq_fattrs : tree.fattrIds = tree.fattrs.map Fattr.id := by
  rw [fattrs, List.map_filterMap]
  apply List.filterMap_congr
  rintro (_ | _ | _) - <;> rfl

/-- Only attributes are counted. -/
theorem imbalance_congr (hfattrs : next.fattrs = tree.fattrs) :
    next.imbalance dir = tree.imbalance dir := by
  simp only [imbalance, contained, getFattr_eq_find, hfattrs]

theorem fattrs_insert_dentry (entry : Dentry) :
    (tree.insert (.dentry entry)).fattrs = tree.fattrs :=
  Store.filterMap_orderedInsert_of_none _ _ rfl

theorem fattrs_insert_chunkInfo (chunk : ChunkInfo) :
    (tree.insert (.chunkInfo chunk)).fattrs = tree.fattrs :=
  Store.filterMap_orderedInsert_of_none _ _ rfl

theorem fattrs_insert_fattr (fa : Fattr) :
    (tree.insert (.fattr fa)).fattrs.Perm (fa :: tree.fattrs) :=
  Store.filterMap_orderedInsert_perm _ _ rfl

theorem fattrs_del_dentry {entry : Dentry} (hdel : tree.del (.dentry entry) = some next) :
    next.fattrs = tree.fattrs :=
  filterMap_del_dentry (fun _ => rfl) hdel

theorem fattrs_del_chunkInfo {chunk : ChunkInfo} (hdel : tree.del (.chunkInfo chunk) = some next) :
    next.fattrs = tree.fattrs :=
  filterMap_del_chunkInfo (fun _ _ => rfl) hdel

theorem fattrs_deleteChunks {chunks : List ChunkInfo}
    (hdeleted : deleteChunks tree chunks = some next) : next.fattrs = tree.fattrs := by
  induction chunks generalizing tree with
  | nil =>
    cases hdeleted
    rfl
  | cons chunk rest ih =>
    obtain ⟨deleted, hdel, hrest⟩ := bind_eq_some_iff.mp hdeleted
    exact (ih hrest).trans (fattrs_del_chunkInfo hdel)

/-- The attribute that is deleted, and the others. -/
theorem fattrs_del_fattr (hids : tree.fattrIds.Nodup) (hfattr : tree.getFattr fid = some fa)
    {other : Fattr} (hother : other.id = fid) (hdel : tree.del (.fattr other) = some next) :
    tree.fattrs.Perm (fa :: next.fattrs) := by
  have hselected : ∀ leaf : Item, (Item.fattr other).deletes leaf =
      leaf.fattrOf.any fun found => decide (found.id = fid) := by
    intro leaf
    rw [Item.deletes_fattr, hother]
    cases leaf with
    | fattr found =>
      by_cases hid : found.id = fid <;> simp [Item.fattrWith, Item.fattrOf, hid]
    | _ => rfl
  have hperm := List.perm_cons_erase (mem_fattrs_of_getFattr hfattr)
  rw [fattrIds_eq_fattrs] at hids
  have hnodup := (hperm.map Fattr.id).nodup_iff.mp hids
  have hnext : next.fattrs = tree.fattrs.eraseP fun found => decide (found.id = fid) := by
    rw [del_eq_some hdel]
    exact Store.filterMap_eraseP _ hselected
  refine hperm.trans (List.Perm.cons fa ?_)
  rw [hnext]
  refine (Store.eraseP_perm hperm (decide_eq_true (getFattr_id hfattr)) ?_).symm
  intro found hfound
  refine decide_eq_false fun hid => (List.nodup_cons.mp hnodup).1 ?_
  exact List.mem_map.mpr ⟨found, hfound, hid.trans (getFattr_id hfattr).symm⟩

theorem fattrs_modifyFattr (fid : ℤ) (change : Fattr → Fattr) :
    (tree.modifyFattr fid change).fattrs =
      tree.fattrs.map fun fa => if fa.id = fid then change fa else fa := by
  apply Store.filterMap_map
  rintro (fa | _ | _)
  · simp only [Item.modifyFattr, Item.fattrOf, map_some]
    split_ifs <;> rfl
  · rfl
  · rfl

theorem fattrs_modifyChunk {offset : ℤ} {change : ChunkInfo → ChunkInfo} :
    (tree.modifyChunk fid offset change).fattrs = tree.fattrs :=
  Store.filterMap_map_of_eq _ (Item.view_modifyChunk fun _ => rfl)

/-! ## Imbalances -/

theorem imbalance_insert (hnew : tree.getFattr fa.id = none) :
    (tree.insert (.fattr fa)).imbalance dir =
      tree.imbalance dir + (if dir = fa.id then fa.stored else 0) -
        Graph.share Fattr.parent Fattr.weight dir fa := by
  have htotal : (tree.insert (.fattr fa)).contained dir =
      Graph.share Fattr.parent Fattr.weight dir fa + tree.contained dir := by
    rw [contained, Graph.childTotal_perm (fattrs_insert_fattr fa)]
    rfl
  rw [imbalance, imbalance, htotal]
  by_cases hdir : dir = fa.id
  · subst hdir
    rw [getFattr_insert_self fa hnew, hnew, if_pos rfl]
    simp only [elim_some, elim_none]
    abel
  · rw [getFattr_insert_of_ne fa (Ne.symm hdir), if_neg hdir]
    abel

theorem imbalance_del (hids : tree.fattrIds.Nodup) (hfattr : tree.getFattr fid = some fa)
    {other : Fattr} (hother : other.id = fid) (hdel : tree.del (.fattr other) = some next) :
    next.imbalance dir =
      tree.imbalance dir - (if dir = fid then fa.stored else 0) +
        Graph.share Fattr.parent Fattr.weight dir fa := by
  have htotal : tree.contained dir =
      Graph.share Fattr.parent Fattr.weight dir fa + next.contained dir := by
    rw [contained, Graph.childTotal_perm (fattrs_del_fattr hids hfattr hother hdel)]
    rfl
  rw [imbalance, imbalance, htotal]
  by_cases hdir : dir = fid
  · subst hdir
    have hgone : next.getFattr dir = none := by
      rw [getFattr_eq_none_iff, fattrIds_del_fattr hdel, hother]
      exact hids.not_mem_erase
    rw [hgone, hfattr, if_pos rfl]
    simp only [elim_some, elim_none]
    abel
  · rw [getFattr_del_of_ne hdel (hother.trans_ne (Ne.symm hdir)), if_neg hdir]
    abel

variable {change : Fattr → Fattr}

/-- The imbalance after a change of one attribute. -/
theorem imbalance_modifyFattr (hids : tree.fattrIds.Nodup) (hfattr : tree.getFattr fid = some fa)
    (hid : ∀ fa, (change fa).id = fa.id) :
    (tree.modifyFattr fid change).imbalance dir =
      tree.imbalance dir + (if dir = fid then (change fa).stored - fa.stored else 0) -
        (Graph.share Fattr.parent Fattr.weight dir (change fa) -
          Graph.share Fattr.parent Fattr.weight dir fa) := by
  have htotal : (tree.modifyFattr fid change).contained dir = tree.contained dir +
      (Graph.share Fattr.parent Fattr.weight dir (change fa) -
        Graph.share Fattr.parent Fattr.weight dir fa) := by
    rw [fattrIds_eq_fattrs] at hids
    rw [contained, fattrs_modifyFattr, ← getFattr_id hfattr]
    exact Graph.childTotal_update hids (mem_fattrs_of_getFattr hfattr) change
  rw [imbalance, imbalance, htotal, getFattr_modifyFattr hid]
  by_cases hdir : dir = fid
  · subst hdir
    rw [if_pos rfl, if_pos rfl, hfattr]
    simp only [map_some, elim_some]
    abel
  · rw [if_neg hdir, if_neg hdir]
    abel

/-! ## Counters -/

/-- The parents of an attribute end after so many steps. -/
inductive Climbs (tree : Tree) : ℤ → ℕ → Prop where
  | top {fid : ℤ} {fa : Fattr} (hfattr : tree.getFattr fid = some fa)
      (hparent : fa.parent = none) : Climbs tree fid 0
  | step {fid parent : ℤ} {fa : Fattr} {steps : ℕ} (hfattr : tree.getFattr fid = some fa)
      (hparent : fa.parent = some parent) (hrest : Climbs tree parent steps) :
      Climbs tree fid (steps + 1)

theorem Climbs.unique {steps steps' : ℕ} (hsteps : tree.Climbs fid steps)
    (hsteps' : tree.Climbs fid steps') : steps = steps' := by
  induction hsteps generalizing steps' with
  | top hfattr hparent =>
    cases hsteps' with
    | top => rfl
    | step hfattr' hparent' =>
      rw [hfattr] at hfattr'
      cases hfattr'
      rw [hparent] at hparent'
      cases hparent'
  | step hfattr hparent _ ih =>
    cases hsteps' with
    | top hfattr' hparent' =>
      rw [hfattr] at hfattr'
      cases hfattr'
      rw [hparent] at hparent'
      cases hparent'
    | step hfattr' hparent' hrest' =>
      rw [hfattr] at hfattr'
      cases hfattr'
      rw [hparent] at hparent'
      cases hparent'
      rw [ih hrest']

/-- Only the pointers to parents matter. -/
theorem Climbs.congr {steps : ℕ} (hsteps : tree.Climbs fid steps)
    (hparents : ∀ fid, (next.getFattr fid).map Fattr.parent =
      (tree.getFattr fid).map Fattr.parent) : next.Climbs fid steps := by
  have hkept : ∀ {fid : ℤ} {fa : Fattr}, tree.getFattr fid = some fa →
      ∃ other, next.getFattr fid = some other ∧ other.parent = fa.parent := by
    intro fid fa hfattr
    have hparent := hparents fid
    rw [hfattr] at hparent
    exact map_eq_some_iff.mp hparent
  induction hsteps with
  | top hfattr htop =>
    obtain ⟨other, hother, heq⟩ := hkept hfattr
    exact .top hother (heq.trans htop)
  | step hfattr hup _ ih =>
    obtain ⟨other, hother, heq⟩ := hkept hfattr
    exact .step hother (heq.trans hup) ih

theorem parents_modifyFattr {target : ℤ} (hid : ∀ fa, (change fa).id = fa.id)
    (hparent : ∀ fa, (change fa).parent = fa.parent) :
    ((tree.modifyFattr target change).getFattr fid).map Fattr.parent =
      (tree.getFattr fid).map Fattr.parent := by
  rw [getFattr_modifyFattr hid]
  split_ifs
  · cases tree.getFattr fid with
    | none => rfl
    | some fa => exact congrArg some (hparent fa)
  · rfl

section Counters

variable {nbytes nfiles ndirs : ℤ} {fuel : ℕ}

/-- The loop of `updateCounts` over the parents. -/
theorem addCounts_cases (hadd : addCounts nbytes nfiles ndirs (fuel + 1) tree fid = some next) :
    ∃ fa, tree.getFattr fid = some fa ∧
      (fa.parent = none ∧ next = tree ∨
        ∃ parentFid parent, fa.parent = some parentFid ∧
          tree.getFattr parentFid = some parent ∧ parent.type = .dir ∧
          addCounts nbytes nfiles ndirs fuel
            (tree.modifyFattr parentFid (Fattr.addUsage nbytes nfiles ndirs)) parentFid =
              some next) := by
  obtain ⟨fa, hfattr, hadd⟩ := bind_eq_some_iff.mp hadd
  refine ⟨fa, hfattr, ?_⟩
  split at hadd
  · rename_i hparent
    split_ifs at hadd
    cases hadd
    exact .inl ⟨hparent, rfl⟩
  · rename_i parentFid hparent
    obtain ⟨parent, hfound, hadd⟩ := bind_eq_some_iff.mp hadd
    split_ifs at hadd with hpanic
    exact .inr ⟨parentFid, parent, hparent, hfound, not_not.mp (not_or.mp hpanic).1, hadd⟩

theorem climbs_of_addCounts (hadd : addCounts nbytes nfiles ndirs fuel tree fid = some next) :
    ∃ steps, tree.Climbs fid steps := by
  induction fuel generalizing tree fid with
  | zero => cases hadd
  | succ fuel ih =>
    obtain ⟨fa, hfattr, ⟨hparent, -⟩ | ⟨parentFid, parent, hparent, -, -, hrest⟩⟩ :=
      addCounts_cases hadd
    · exact ⟨0, .top hfattr hparent⟩
    · obtain ⟨steps, hsteps⟩ := ih hrest
      exact ⟨steps + 1, .step hfattr hparent (hsteps.congr fun fid =>
        (parents_modifyFattr (addUsage_id nbytes nfiles ndirs)
          (addUsage_parent nbytes nfiles ndirs)).symm)⟩

/-- The attributes that are at least as far from the root stay as they are. -/
theorem getFattr_addCounts {other : ℤ} {steps steps' : ℕ} (hsteps : tree.Climbs fid steps)
    (hother : tree.Climbs other steps') (hle : steps ≤ steps')
    (hadd : addCounts nbytes nfiles ndirs fuel tree fid = some next) :
    next.getFattr other = tree.getFattr other := by
  induction fuel generalizing tree fid steps with
  | zero => cases hadd
  | succ fuel ih =>
    obtain ⟨fa, hfattr, ⟨-, rfl⟩ | ⟨parentFid, parent, hparent, -, -, hrest⟩⟩ :=
      addCounts_cases hadd
    · rfl
    · cases hsteps with
      | top hfattr' htop =>
        rw [hfattr] at hfattr'
        cases hfattr'
        rw [hparent] at htop
        cases htop
      | step hfattr' hup hclimbs =>
        rw [hfattr] at hfattr'
        cases hfattr'
        rw [hparent] at hup
        cases hup
        have hne : other ≠ parentFid := by
          rintro rfl
          have heq := hclimbs.unique hother
          omega
        have hkept : ∀ {fid : ℤ} {steps : ℕ}, tree.Climbs fid steps →
            (tree.modifyFattr parentFid (Fattr.addUsage nbytes nfiles ndirs)).Climbs fid
              steps := fun hclimbs =>
          hclimbs.congr fun fid => parents_modifyFattr (addUsage_id nbytes nfiles ndirs)
            (addUsage_parent nbytes nfiles ndirs)
        rw [ih (hkept hclimbs) (hkept hother) (by omega) hrest,
          getFattr_modifyFattr (addUsage_id nbytes nfiles ndirs), if_neg hne]

variable (hids : tree.fattrIds.Nodup)

theorem updatePathSpaceUsage_addCounts
    (hadd : addCounts nbytes nfiles ndirs fuel tree fid = some next) :
    next.updatePathSpaceUsage = tree.updatePathSpaceUsage := by
  induction fuel generalizing tree fid with
  | zero => cases hadd
  | succ fuel ih =>
    obtain ⟨fa, -, ⟨-, rfl⟩ | ⟨parentFid, parent, -, -, -, hrest⟩⟩ := addCounts_cases hadd
    · rfl
    · have hkept := ih hrest
      exact hkept

theorem updatePathSpaceUsage_updateCounts
    (hupdate : tree.updateCounts fid nbytes nfiles ndirs = some next) :
    next.updatePathSpaceUsage = tree.updatePathSpaceUsage := by
  rw [updateCounts] at hupdate
  split_ifs at hupdate
  · cases hupdate
    rfl
  · exact updatePathSpaceUsage_addCounts hupdate

include hids

/-- `updateCounts` raises the imbalance of the directory it starts in. -/
theorem imbalance_addCounts (hfattr : tree.getFattr fid = some fa)
    (hadd : addCounts nbytes nfiles ndirs fuel tree fid = some next) :
    next.imbalance dir =
      tree.imbalance dir + if fa.parent = some dir then (nbytes, nfiles, ndirs) else 0 := by
  induction fuel generalizing tree fid fa with
  | zero => cases hadd
  | succ fuel ih =>
    obtain ⟨found, hfound, ⟨hparent, rfl⟩ | ⟨parentFid, parent, hparent, hup, htype, hrest⟩⟩ :=
      addCounts_cases hadd
    · rw [hfattr] at hfound
      cases hfound
      simp [hparent]
    · rw [hfattr] at hfound
      cases hfound
      have hids' : (tree.modifyFattr parentFid
          (Fattr.addUsage nbytes nfiles ndirs)).fattrIds.Nodup := by
        rw [fattrIds_modifyFattr (addUsage_id nbytes nfiles ndirs)]
        exact hids
      have hup' : (tree.modifyFattr parentFid
          (Fattr.addUsage nbytes nfiles ndirs)).getFattr parentFid =
            some (parent.addUsage nbytes nfiles ndirs) := by
        rw [getFattr_modifyFattr (addUsage_id nbytes nfiles ndirs), if_pos rfl, hup, map_some]
      have hshare : Graph.share Fattr.parent Fattr.weight dir
            (parent.addUsage nbytes nfiles ndirs) -
          Graph.share Fattr.parent Fattr.weight dir parent =
            if parent.parent = some dir then (nbytes, nfiles, ndirs) else 0 := by
        rw [Graph.share, Graph.share, addUsage_parent]
        split_ifs
        · rw [weight_addUsage htype, add_sub_cancel_left]
        · rw [sub_self]
      -- the next directory takes back what this one adds to it
      rw [ih hids' hup' hrest, imbalance_modifyFattr hids hup (addUsage_id nbytes nfiles ndirs),
        hshare, stored_addUsage htype, add_sub_cancel_left, hparent, addUsage_parent]
      have hdir : dir = parentFid ↔ some parentFid = some dir := by
        rw [some.injEq]
        exact eq_comm
      rw [sub_add_cancel, if_congr hdir rfl rfl]

theorem updateCounts_account (hflag : tree.updatePathSpaceUsage = true)
    (hfattr : tree.getFattr fid = some fa)
    (hupdate : tree.updateCounts fid nbytes nfiles ndirs = some next) :
    next.getFattr fid = some fa ∧ ∀ dir, next.imbalance dir =
      tree.imbalance dir + if fa.parent = some dir then (nbytes, nfiles, ndirs) else 0 := by
  rw [updateCounts] at hupdate
  split_ifs at hupdate with hzero
  · cases hupdate
    obtain ⟨rfl, rfl, rfl⟩ := hzero.resolve_left (not_not.mpr hflag)
    refine ⟨hfattr, fun dir => ?_⟩
    have hnothing : ((0, 0, 0) : Usage) = 0 := rfl
    rw [hnothing, ite_self, add_zero]
  · obtain ⟨steps, hsteps⟩ := climbs_of_addCounts hupdate
    refine ⟨?_, fun dir => imbalance_addCounts hids hfattr hupdate⟩
    rw [getFattr_addCounts hsteps hsteps le_rfl hupdate, hfattr]

variable {size : ℤ}

omit hids in
theorem updatePathSpaceUsage_setFileSize
    (hsized : tree.setFileSize fid size nfiles ndirs = some next) :
    next.updatePathSpaceUsage = tree.updatePathSpaceUsage := by
  obtain ⟨fa, -, hsized⟩ := bind_eq_some_iff.mp hsized
  split_ifs at hsized
  obtain ⟨updated, hupdated, rfl⟩ := map_eq_some_iff.mp hsized
  have hkept := updatePathSpaceUsage_updateCounts hupdated
  exact hkept

/-- A new size is passed on to the directories above; the counts that come with
it raise the imbalance of the directory. -/
theorem setFileSize_account (hflag : tree.updatePathSpaceUsage = true)
    (hfattr : tree.getFattr fid = some fa)
    (hsized : tree.setFileSize fid size nfiles ndirs = some next) :
    (fa.type = .dir → 0 ≤ fa.filesize) ∧
      next.getFattr fid = some (fa.resize size) ∧
      ∀ dir, next.imbalance dir =
        tree.imbalance dir + (if fa.parent = some dir then (0, nfiles, ndirs) else 0) +
          if dir = fid ∧ fa.type = .dir then (size - fa.filesize, 0, 0) else 0 := by
  obtain ⟨found, hfound, hsized⟩ := bind_eq_some_iff.mp hsized
  rw [hfattr] at hfound
  cases hfound
  split_ifs at hsized with hpanic
  have hsize : 0 ≤ size := by
    by_contra hneg
    exact hpanic (.inr (not_le.mp hneg))
  have hknown : fa.type = .dir → 0 ≤ fa.filesize := by
    intro htype
    by_contra hneg
    exact hpanic (.inl ⟨not_le.mp hneg, by rw [htype]; decide⟩)
  obtain ⟨updated, hupdated, rfl⟩ := map_eq_some_iff.mp hsized
  obtain ⟨hkept, haccount⟩ := updateCounts_account hids hflag hfattr hupdated
  have hidsUpdated := (sameNames_updateCounts hupdated).ids hids
  refine ⟨hknown, ?_, fun dir => ?_⟩
  · refine (getFattr_modifyFattr (resize_id size)).trans ?_
    rw [if_pos rfl, hkept, map_some]
  · have hsum : (size - fa.getFileSize, nfiles, ndirs) =
        ((0, nfiles, ndirs) : Usage) + (size - fa.getFileSize, 0, 0) := by simp
    have hshare : Graph.share Fattr.parent Fattr.weight dir (fa.resize size) -
        Graph.share Fattr.parent Fattr.weight dir fa =
          if fa.parent = some dir then (size - fa.getFileSize, 0, 0) else 0 := by
      rw [Graph.share, Graph.share, resize_parent]
      split_ifs
      · rw [weight_resize hsize hknown, add_sub_cancel_left]
      · rw [sub_self]
    have hstored : (if dir = fid then (fa.resize size).stored - fa.stored else 0) =
        if dir = fid ∧ fa.type = .dir then (size - fa.filesize, 0, 0) else 0 := by
      rw [stored_resize, add_sub_cancel_left, ite_and]
    refine (imbalance_modifyFattr hidsUpdated hkept (resize_id size)).trans ?_
    rw [haccount, hshare, hstored, hsum]
    split_ifs <;> abel

/-- A change that keeps what the attribute stores and adds to its directory. -/
theorem imbalance_modifyFattr_of_eq (hid : ∀ fa, (change fa).id = fa.id)
    (hparent : ∀ fa, (change fa).parent = fa.parent)
    (hstored : ∀ fa, tree.getFattr fid = some fa → (change fa).stored = fa.stored)
    (hweight : ∀ fa, tree.getFattr fid = some fa → (change fa).weight = fa.weight) :
    (tree.modifyFattr fid change).imbalance dir = tree.imbalance dir := by
  cases hfattr : tree.getFattr fid with
  | none => rw [modifyFattr_of_none hfattr]
  | some fa =>
    rw [imbalance_modifyFattr hids hfattr hid, hstored fa hfattr, sub_self, ite_self, add_zero,
      Graph.share, Graph.share, hparent, hweight fa hfattr, sub_self, sub_zero]

/-- The counters of a rename take what a directory says is in it along. -/
theorem moveCounts_account {srcfid ddir : ℤ} (hflag : tree.updatePathSpaceUsage = true)
    (hmove : tree.moveCounts srcfid ddir = some next) :
    next.updatePathSpaceUsage = true ∧ ∀ dir, next.imbalance dir = tree.imbalance dir := by
  obtain ⟨sfattr, hsfattr, hmove⟩ := bind_eq_some_iff.mp hmove
  obtain ⟨taken, htaken, hmove⟩ := bind_eq_some_iff.mp hmove
  obtain ⟨given, hgiven, rfl⟩ := map_eq_some_iff.mp hmove
  obtain ⟨hknown, hempty, htook⟩ := setFileSize_account hids hflag hsfattr htaken
  have hidsTaken := (sameNames_setFileSize htaken).ids hids
  have hidsMoved : (taken.modifyFattr srcfid (Fattr.moveTo ddir)).fattrIds.Nodup := by
    rw [fattrIds_modifyFattr (moveTo_id ddir)]
    exact hidsTaken
  have hmoved : (taken.modifyFattr srcfid (Fattr.moveTo ddir)).getFattr srcfid =
      some ((sfattr.resize 0).moveTo ddir) := by
    rw [getFattr_modifyFattr (moveTo_id ddir), if_pos rfl, hempty, map_some]
  have hflagTaken := (updatePathSpaceUsage_setFileSize htaken).trans hflag
  obtain ⟨-, hfull, hgave⟩ := setFileSize_account hidsMoved hflagTaken hmoved hgiven
  have hidsGiven := (sameNames_setFileSize hgiven).ids hidsMoved
  have hflagGiven := (updatePathSpaceUsage_setFileSize hgiven).trans hflagTaken
  refine ⟨hflagGiven, fun dir => ?_⟩
  have hrestored : (given.modifyFattr srcfid (Fattr.resize sfattr.filesize)).imbalance dir =
      given.imbalance dir := by
    refine imbalance_modifyFattr_of_eq hidsGiven (resize_id _) (resize_parent _) ?_ ?_
    · intro fa hfa
      rw [hfull] at hfa
      cases hfa
      exact (usage_resize_getFileSize sfattr ((sfattr.resize 0).moveTo ddir) rfl hknown).1
    · intro fa hfa
      rw [hfull] at hfa
      cases hfa
      exact (usage_resize_getFileSize sfattr ((sfattr.resize 0).moveTo ddir) rfl hknown).2
  have hshare : Graph.share Fattr.parent Fattr.weight dir ((sfattr.resize 0).moveTo ddir) -
      Graph.share Fattr.parent Fattr.weight dir (sfattr.resize 0) =
        (if some ddir = some dir then sfattr.counts else 0) -
          if sfattr.parent = some dir then sfattr.counts else 0 := by
    rw [Graph.share, Graph.share, weight_moveTo, weight_resize_zero]
    rfl
  have hsizes : (if dir = srcfid ∧ sfattr.type = .dir then (0 - sfattr.filesize, 0, 0) else 0) +
      (if dir = srcfid ∧ sfattr.type = .dir then (sfattr.getFileSize - 0, 0, 0) else 0) =
        (0 : Usage) := by
    split_ifs with hself
    · simp [Fattr.getFileSize, hknown hself.2]
    · rfl
  have htook : taken.imbalance dir =
      tree.imbalance dir + (if sfattr.parent = some dir then -sfattr.counts else 0) +
        if dir = srcfid ∧ sfattr.type = .dir then (0 - sfattr.filesize, 0, 0) else 0 := htook dir
  have hgave : given.imbalance dir =
      (taken.modifyFattr srcfid (Fattr.moveTo ddir)).imbalance dir +
        (if some ddir = some dir then sfattr.counts else 0) +
        if dir = srcfid ∧ sfattr.type = .dir then (sfattr.getFileSize - 0, 0, 0) else 0 :=
    hgave dir
  have hnegated : (if sfattr.parent = some dir then -sfattr.counts else 0) =
      -if sfattr.parent = some dir then sfattr.counts else 0 := by
    rw [apply_ite Neg.neg, neg_zero]
  refine hrestored.trans ?_
  rw [hgave, imbalance_modifyFattr hidsTaken hempty (moveTo_id ddir), hshare, stored_moveTo,
    sub_self, ite_self, htook, hnegated, eq_neg_of_add_eq_zero_left hsizes]
  abel

end Counters

end Tree

end QfsRepair.Meta
