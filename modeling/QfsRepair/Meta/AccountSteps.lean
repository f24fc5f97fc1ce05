import QfsRepair.Meta.Accounts
import QfsRepair.Meta.HierarchyCalls

/-!
# Calls that keep the space accounts

Every call on the namespace leaves the imbalance of each directory as it is: a
new file or directory is counted in the directories above it, one that is
removed is taken off before, and a rename takes the counts along.  Only the
removal of a directory has to know more, that nothing is counted in it.
-/

namespace QfsRepair.Meta.Tree

open Option Fattr

variable {tree next last : Tree} {env : Environment} {hierarchy : Hierarchy} {fid dir : ℤ}
  {fname : Name} {fa : Fattr} {euser egroup : ℕ} {status : Status}

/-- The flag and the imbalance of every directory are the same. -/
structure SameAccounts (tree next : Tree) : Prop where
  flag : next.updatePathSpaceUsage = tree.updatePathSpaceUsage
  imbalance : ∀ dir, next.imbalance dir = tree.imbalance dir

theorem SameAccounts.refl (tree : Tree) : tree.SameAccounts tree := ⟨rfl, fun _ => rfl⟩

theorem SameAccounts.trans (hfirst : tree.SameAccounts next) (hsecond : next.SameAccounts last) :
    tree.SameAccounts last :=
  ⟨hsecond.flag.trans hfirst.flag, fun dir =>
    (hsecond.imbalance dir).trans (hfirst.imbalance dir)⟩

theorem sameAccounts_of_fattrs (hfattrs : next.fattrs = tree.fattrs)
    (hflag : next.updatePathSpaceUsage = tree.updatePathSpaceUsage) : tree.SameAccounts next :=
  ⟨hflag, fun _ => imbalance_congr hfattrs⟩

theorem updatePathSpaceUsage_del {item : Item} (hdel : tree.del item = some next) :
    next.updatePathSpaceUsage = tree.updatePathSpaceUsage := by
  rw [del_eq_some hdel]

theorem sameAccounts_unlinkName (hunlink : tree.unlinkName dir fname fid = some next) :
    tree.SameAccounts next :=
  sameAccounts_of_fattrs (fattrs_del_dentry hunlink) (updatePathSpaceUsage_del hunlink)

theorem sameAccounts_insert_dentry (entry : Dentry) :
    tree.SameAccounts (tree.insert (.dentry entry)) :=
  sameAccounts_of_fattrs (fattrs_insert_dentry entry) rfl

theorem sameAccounts_deleteChunks {chunks : List ChunkInfo}
    (hdeleted : deleteChunks tree chunks = some next) : tree.SameAccounts next := by
  refine sameAccounts_of_fattrs (fattrs_deleteChunks hdeleted) ?_
  induction chunks generalizing tree with
  | nil =>
    cases hdeleted
    rfl
  | cons chunk rest ih =>
    obtain ⟨deleted, hdel, hrest⟩ := bind_eq_some_iff.mp hdeleted
    exact (ih hrest).trans (updatePathSpaceUsage_del hdel)

theorem sameAccounts_modifyFattr {change : Fattr → Fattr} (hids : tree.fattrIds.Nodup)
    (hid : ∀ fa, (change fa).id = fa.id) (hparent : ∀ fa, (change fa).parent = fa.parent)
    (hstored : ∀ fa, tree.getFattr fid = some fa → (change fa).stored = fa.stored)
    (hweight : ∀ fa, tree.getFattr fid = some fa → (change fa).weight = fa.weight) :
    tree.SameAccounts (tree.modifyFattr fid change) :=
  ⟨rfl, fun _ => imbalance_modifyFattr_of_eq hids hid hparent hstored hweight⟩

theorem sameAccounts_setTiers (hids : tree.fattrIds.Nodup) (fid minSTier maxSTier : ℤ) :
    tree.SameAccounts (tree.modifyFattr fid fun fa => { fa with minSTier, maxSTier }) :=
  sameAccounts_modifyFattr hids (fun _ => rfl) (fun _ => rfl) (fun _ _ => rfl) fun _ _ => rfl

/-- A new attribute that is counted. -/
theorem sameAccounts_counted (fa : Fattr) {inserted : Tree} {nfiles ndirs : ℤ}
    (hids : tree.fattrIds.Nodup) (hflag : tree.updatePathSpaceUsage = true) (hid : fa.id = fid)
    (hnew : tree.getFattr fid = none) (hstored : fa.stored = 0)
    (hweight : fa.weight = (0, nfiles, ndirs))
    (hinserted : inserted.fattrs = (tree.insert (.fattr fa)).fattrs)
    (hflagInserted : inserted.updatePathSpaceUsage = tree.updatePathSpaceUsage)
    (hcounted : inserted.updateCounts fid 0 nfiles ndirs = some next) :
    tree.SameAccounts next ∧ next.fattrIds.Nodup := by
  subst hid
  have hfound : inserted.getFattr fa.id = some fa := by
    rw [getFattr_eq_find, hinserted, ← getFattr_eq_find]
    exact getFattr_insert_self fa hnew
  have hidsInserted : inserted.fattrIds.Nodup := by
    rw [fattrIds_eq_fattrs, hinserted, ← fattrIds_eq_fattrs, (fattrIds_insert_fattr fa).nodup_iff]
    exact List.nodup_cons.mpr ⟨getFattr_eq_none_iff.mp hnew, hids⟩
  obtain ⟨-, haccount⟩ :=
    updateCounts_account hidsInserted (hflagInserted.trans hflag) hfound hcounted
  refine ⟨⟨(updatePathSpaceUsage_updateCounts hcounted).trans hflagInserted, fun dir => ?_⟩, ?_⟩
  · rw [haccount, imbalance_congr hinserted, imbalance_insert hnew, Graph.share, hstored,
      hweight, ite_self, add_zero, sub_add_cancel]
  · exact (sameNames_updateCounts hcounted).ids hidsInserted

section

variable (hids : tree.fattrIds.Nodup) (hflag : tree.updatePathSpaceUsage = true)

include hids hflag

/-- An attribute in which nothing is counted is taken off and deleted. -/
theorem sameAccounts_removed {sized unlinked : Tree} {other : Fattr} {nfiles ndirs : ℤ}
    (hfattr : tree.getFattr fid = some fa) (hstored : fa.stored = 0)
    (hweight : (fa.resize 0).weight = (0, nfiles, ndirs))
    (hsized : tree.setFileSize fid 0 (-nfiles) (-ndirs) = some sized)
    (hunlinked : sized.SameAccounts unlinked) (hfattrs : unlinked.fattrs = sized.fattrs)
    (hother : other.id = fid) (hdel : unlinked.del (.fattr other) = some next) :
    tree.SameAccounts next := by
  obtain ⟨-, hfound, haccount⟩ := setFileSize_account hids hflag hfattr hsized
  have hfoundUnlinked : unlinked.getFattr fid = some (fa.resize 0) := by
    rw [getFattr_eq_find, hfattrs, ← getFattr_eq_find]
    exact hfound
  have hidsUnlinked : unlinked.fattrIds.Nodup := by
    rw [fattrIds_eq_fattrs, hfattrs, ← fattrIds_eq_fattrs]
    exact (sameNames_setFileSize hsized).ids hids
  have hempty : (if fa.type = .dir then (0 - fa.filesize, 0, 0) else 0) = (0 : Usage) := by
    split_ifs with htype
    · rw [Fattr.stored, if_pos htype] at hstored
      rw [show fa.filesize = 0 from congrArg Prod.fst hstored]
      rfl
    · rfl
  have hresized : (fa.resize 0).stored = 0 := by
    rw [stored_resize, hstored, hempty, add_zero]
  refine ⟨?_, fun dir => ?_⟩
  · rw [updatePathSpaceUsage_del hdel, hunlinked.flag, updatePathSpaceUsage_setFileSize hsized]
  · have htaken : (if fa.parent = some dir then (0, -nfiles, -ndirs) else 0) +
        (if fa.parent = some dir then (0, nfiles, ndirs) else 0) = (0 : Usage) := by
      split_ifs
      · simp
      · rfl
    rw [imbalance_del hidsUnlinked hfoundUnlinked hother hdel, hunlinked.imbalance,
      haccount, ite_and, hempty, hresized, ite_self, add_zero, sub_zero, Graph.share,
      hweight, resize_parent, add_assoc, htaken, add_zero]

/-! ## Steps -/

theorem attachDirectory_account {dname : Name} {myID : ℤ} {user group mode : ℕ}
    {parent : Option Fattr} (hnew : tree.getFattr myID = none)
    (hattach : tree.attachDirectory env dir dname myID user group mode parent = some next) :
    tree.SameAccounts next := by
  obtain ⟨counted, hcounted, rfl⟩ := map_eq_some_iff.mp hattach
  have hnewLinked : (tree.insert (.dentry ⟨myID, dir, dname⟩)).getFattr myID = none :=
    (getFattr_insert_dentry _).trans hnew
  have hadded : (tree.insert (.dentry ⟨myID, dir, dname⟩)).SameAccounts counted ∧
      counted.fattrIds.Nodup := by
    refine sameAccounts_counted { Fattr.create .dir myID 1 user group mode env.now with
      parent := parent.map Fattr.id } ?_ hflag ?_ hnewLinked ?_ ?_ ?_ ?_ hcounted
    · rw [fattrIds_insert_dentry]
      exact hids
    · rfl
    · rfl
    · rfl
    · exact (fattrs_insert_dentry _).trans (fattrs_insert_dentry _)
    · rfl
  have hsame := (sameAccounts_insert_dentry ⟨myID, dir, dname⟩).trans hadded.1
  cases parent with
  | none => exact hsame
  | some parent => exact hsame.trans (sameAccounts_setTiers hadded.2 _ _ _)

variable {todumpster result : ℤ}

theorem createLink_account {numReplicas striperType numStripes numRecoveryStripes stripeSize : ℤ}
    {user group mode : ℕ} {parent : Fattr} (hnew : tree.getFattr (tree.fileIdSeed + 1) = none)
    (hcreate : tree.createLink env dir fname 0 numReplicas striperType numStripes
      numRecoveryStripes stripeSize todumpster user group mode parent =
        some (status, fid, result, next)) : tree.SameAccounts next := by
  obtain ⟨-, rfl⟩ | ⟨-, -, linked, counted, hlinked, hcounted, rfl⟩ := createLink_cases hcreate
  · exact sameAccounts_of_fattrs rfl rfl
  obtain ⟨striped, hstriped, rfl⟩ := map_eq_some_iff.mp hlinked
  obtain ⟨_, _, _, _, rfl⟩ := setStriped_eq hstriped
  have hnewLinked : (tree.genFileId.2.insert
      (.dentry ⟨tree.fileIdSeed + 1, dir, fname⟩)).getFattr (tree.fileIdSeed + 1) = none :=
    (getFattr_insert_dentry _).trans hnew
  have hidsLinked : (tree.genFileId.2.insert
      (.dentry ⟨tree.fileIdSeed + 1, dir, fname⟩)).fattrIds.Nodup := by
    rw [fattrIds_insert_dentry]
    exact hids
  obtain ⟨hadded, hidsCounted⟩ :=
    sameAccounts_counted _ hidsLinked hflag rfl hnewLinked rfl rfl rfl rfl hcounted
  have hstart : tree.SameAccounts tree.genFileId.2 := sameAccounts_of_fattrs rfl rfl
  exact ((hstart.trans (sameAccounts_insert_dentry _)).trans hadded).trans
    (sameAccounts_setTiers hidsCounted _ _ _)

theorem removeFile_account (hfattr : tree.getFattr fa.id = some fa) (hfile : fa.type = .file)
    (hremove : tree.removeFile dir fname fa = some next) : tree.SameAccounts next := by
  obtain ⟨emptied, hemptied, hremove⟩ := bind_eq_some_iff.mp hremove
  obtain ⟨sized, hsized, hunlink⟩ := bind_eq_some_iff.mp hremove
  obtain ⟨unlinked, hunlinked, hdel⟩ := bind_eq_some_iff.mp hunlink
  obtain ⟨hfattrs, hsame⟩ : emptied.fattrs = tree.fattrs ∧ tree.SameAccounts emptied := by
    split_ifs at hemptied
    · exact ⟨fattrs_deleteChunks hemptied, sameAccounts_deleteChunks hemptied⟩
    · cases hemptied
      exact ⟨rfl, SameAccounts.refl _⟩
  have hnotDir : ¬ fa.type = .dir := by
    rw [hfile]
    decide
  have hweight : (fa.resize 0).weight = (0, 1, 0) := by
    simp [weight_resize_zero, Fattr.counts, hnotDir]
  refine hsame.trans (sameAccounts_removed ?_ (hsame.flag.trans hflag) ?_ (if_neg hnotDir) hweight
    hsized (sameAccounts_unlinkName hunlinked) (fattrs_del_dentry hunlinked) rfl hdel)
  · rw [fattrIds_eq_fattrs, hfattrs, ← fattrIds_eq_fattrs]
    exact hids
  · rw [getFattr_eq_find, hfattrs, ← getFattr_eq_find]
    exact hfattr

theorem removeDir_account (hfattr : tree.getFattr fa.id = some fa) (hdir : fa.type = .dir)
    (hstored : fa.stored = 0) (hremove : tree.removeDir dir fname fa = some next) :
    tree.SameAccounts next := by
  obtain ⟨sized, hsized, hremove⟩ := bind_eq_some_iff.mp hremove
  obtain ⟨withoutThis, hthis, hremove⟩ := bind_eq_some_iff.mp hremove
  obtain ⟨withoutParent, hparent, hunlink⟩ := bind_eq_some_iff.mp hremove
  obtain ⟨unlinked, hunlinked, hdel⟩ := bind_eq_some_iff.mp hunlink
  have hweight : (fa.resize 0).weight = (0, 0, 1) := by
    rw [Fattr.stored, if_pos hdir] at hstored
    obtain ⟨-, hcounts⟩ := Prod.mk.inj hstored
    obtain ⟨hfiles, hdirs⟩ := Prod.mk.inj hcounts
    simp [weight_resize_zero, Fattr.counts, hdir, hfiles, hdirs]
  refine sameAccounts_removed hids hflag hfattr hstored hweight hsized
    (((sameAccounts_unlinkName hthis).trans (sameAccounts_unlinkName hparent)).trans
      (sameAccounts_unlinkName hunlinked)) ?_ rfl hdel
  exact (fattrs_del_dentry hunlinked).trans
    ((fattrs_del_dentry hparent).trans (fattrs_del_dentry hthis))

variable {ddfattr : Option Fattr}

theorem moveEntry_account {oldname dname : Name} {parent ddir : ℤ}
    (hmove : tree.moveEntry parent oldname fa ddir dname ddfattr = some next) :
    tree.SameAccounts next := by
  have hcounts : ∀ {start counted : Tree} {dd : Fattr}, start.fattrs = tree.fattrs →
      tree.SameAccounts start →
      (start.insert (.dentry ⟨fa.id, ddir, dname⟩)).moveCounts fa.id dd.id = some counted →
      tree.SameAccounts counted := by
    intro start counted dd hfattrs hstart hcounted
    have hinserted := hstart.trans (sameAccounts_insert_dentry ⟨fa.id, ddir, dname⟩)
    have hidsInserted : (start.insert (.dentry ⟨fa.id, ddir, dname⟩)).fattrIds.Nodup := by
      rw [fattrIds_insert_dentry, fattrIds_eq_fattrs, hfattrs, ← fattrIds_eq_fattrs]
      exact hids
    obtain ⟨hflagCounted, haccount⟩ :=
      moveCounts_account hidsInserted (hinserted.flag.trans hflag) hcounted
    exact hinserted.trans ⟨hflagCounted.trans (hinserted.flag.trans hflag).symm, haccount⟩
  obtain ⟨-, deleted, hdeleted, rfl⟩ | ⟨dd, deleted, -, -, hdeleted, hcounted⟩ |
      ⟨dd, unlinked, deleted, counted, -, -, hunlinked, hdeleted, hcounted, rfl⟩ :=
    moveEntry_cases hmove
  · exact (sameAccounts_unlinkName hdeleted).trans (sameAccounts_insert_dentry _)
  · exact hcounts (fattrs_del_dentry hdeleted) (sameAccounts_unlinkName hdeleted) hcounted
  · refine (hcounts ((fattrs_del_dentry hdeleted).trans (fattrs_del_dentry hunlinked))
      ((sameAccounts_unlinkName hunlinked).trans (sameAccounts_unlinkName hdeleted))
      hcounted).trans (sameAccounts_insert_dentry _)

/-! ## Calls -/

end

/-- Directory sizes are on, and every directory says what is in it. -/
structure Balanced (tree : Tree) : Prop where
  enabled : tree.updatePathSpaceUsage = true
  balanced : ∀ dir, tree.imbalance dir = 0

namespace Balanced

theorem sameAccounts (hbalanced : tree.Balanced) (hsame : tree.SameAccounts next) :
    next.Balanced :=
  ⟨hsame.flag.trans hbalanced.enabled, fun dir =>
    (hsame.imbalance dir).trans (hbalanced.balanced dir)⟩

variable (hbalanced : tree.Balanced) (hholds : tree.Holds hierarchy)

include hbalanced hholds

/-- In a directory that has two entries nothing is counted. -/
theorem stored_of_emptydir (hfattr : tree.getFattr fa.id = some fa) (hdir : fa.type = .dir)
    (hempty : tree.emptydir fa.id = true) : fa.stored = 0 := by
  obtain ⟨node, hnode, hid, hobject⟩ := hholds.exists_node_of_getFattr hfattr
  have htype : node.type = .dir := (congrArg (·.2.1) hobject).trans hdir
  rw [← hid] at hempty
  have hnone : tree.contained fa.id = 0 := by
    apply Graph.childTotal_eq_zero
    intro other hother hparent
    have hmem : other.object ∈ tree.objects := by
      obtain ⟨item, hitem, hvalue⟩ := List.mem_filterMap.mp hother
      refine List.mem_filterMap.mpr ⟨item, hitem, ?_⟩
      cases item with
      | fattr _ => exact congrArg (Option.map Fattr.object) hvalue
      | _ => cases hvalue
    obtain ⟨child, hchild, hchildObject⟩ := List.mem_map.mp (hholds.objects.mem_iff.mp hmem)
    have hpointer : (if child.id = rootFid then none else some child.parent) = some fa.id :=
      (congrArg (·.2.2) hchildObject).trans hparent
    split_ifs at hpointer
    exact hholds.parent_ne_of_emptydir hnode htype hempty child hchild
      ((some.inj hpointer).trans hid.symm)
  have hbalance := hbalanced.balanced fa.id
  rwa [imbalance, hfattr, hnone, sub_zero] at hbalance

theorem rmdir (hrmdir : tree.rmdir env dir fname euser egroup = some (status, next)) :
    next.Balanced := by
  obtain ⟨-, rfl⟩ | ⟨-, fa, parent, hlookup, hremoved⟩ := rmdir_cases hrmdir
  · exact hbalanced
  · obtain ⟨entry, -, hfattr⟩ := lookupWithParent_ok_entry hlookup
    have hself := getFattr_self hfattr
    exact hbalanced.sameAccounts (removeDir_account hholds.fattrIds_nodup hbalanced.enabled hself
      hremoved.isDir (hbalanced.stored_of_emptydir hholds hself hremoved.isDir hremoved.empty)
      hremoved.removed)

omit hbalanced in
theorem getFattr_seed :
    tree.getFattr (tree.fileIdSeed + 1) = none := by
  cases hfattr : tree.getFattr (tree.fileIdSeed + 1) with
  | none => rfl
  | some fa =>
    obtain ⟨node, hnode, hid, -⟩ := hholds.exists_node_of_getFattr hfattr
    exact absurd hid (hholds.id_ne_seed hnode)

theorem mkdir {user group mode : ℕ}
    (hmkdir : tree.mkdir env dir fname user group mode euser egroup 0 = some (status, fid, next)) :
    next.Balanced := by
  obtain ⟨-, rfl⟩ | ⟨-, hfree, ⟨rfl, rfl, -⟩ | ⟨-, -, -, hattach⟩⟩ := mkdir_cases hmkdir
  · exact hbalanced
  · exact absurd rfl (hholds.place_ne_of_getDentry hfree (Hierarchy.entry_mem hierarchy.root))
  · have hstart : tree.SameAccounts tree.genFileId.2 := sameAccounts_of_fattrs rfl rfl
    have hnew := getFattr_seed hholds
    exact hbalanced.sameAccounts (hstart.trans (attachDirectory_account
      hholds.genFileId.fattrIds_nodup hbalanced.enabled hnew hattach))

variable {todumpster result : ℤ} {ddfattr : Option Fattr}

theorem renamed {removeTarget : ℤ → Name → Fattr → Option (Status × ℤ × Tree)} {ddir parent : ℤ}
    {oldname dname : Name} {sfattr : Fattr}
    (hremove : ∀ result removed, removeTarget ddir dname sfattr = some (.ok, result, removed) →
      removed.Balanced ∧ ∃ left, removed.Holds left)
    (hrenamed : tree.Renamed env removeTarget todumpster euser egroup parent oldname sfattr ddir
      dname ddfattr result next) : next.Balanced := by
  cases hrenamed with
  | unchanged => exact hbalanced
  | moved _ _ _ hmove =>
    exact hbalanced.sameAccounts
      (moveEntry_account hholds.fattrIds_nodup hbalanced.enabled hmove)
  | replaced _ _ _ _ _ htarget hmove =>
    obtain ⟨hremoved, left, hleft⟩ := hremove _ _ htarget
    exact hremoved.sameAccounts (moveEntry_account hleft.fattrIds_nodup hremoved.enabled hmove)

theorem renameToDumpster {dumpster : ℤ}
    (hrename : tree.renameToDumpster env dir fname todumpster dumpster = some (status, next)) :
    next.Balanced := by
  obtain ⟨-, rfl⟩ | ⟨-, _, _, _, _, _, _, -, -, hrenamed⟩ := renameToDumpster_cases hrename
  · exact hbalanced
  · exact hbalanced.renamed hholds (fun _ _ hnone => by cases hnone) hrenamed

theorem moveToDumpster
    (hmove : tree.moveToDumpster env dir fname todumpster = some (status, next)) :
    next.Balanced := by
  obtain ⟨_, hrename | ⟨_, _, _, hmkdir, hrename⟩⟩ := moveToDumpster_cases hmove
  · exact hbalanced.renameToDumpster hholds hrename
  · obtain ⟨added, hadded, -⟩ := hholds.mkdir hmkdir
    exact (hbalanced.mkdir hholds hmkdir).renameToDumpster hadded hrename

theorem remove
    (hremove : tree.remove env dir fname todumpster euser egroup = some (status, result, next)) :
    next.Balanced := by
  obtain ⟨-, rfl⟩ | ⟨fa, parent, hlookup, hfile, ⟨-, -, hmoved⟩ | ⟨-, -, hremoved⟩⟩ :=
    remove_cases hremove
  · exact hbalanced
  · exact hbalanced.moveToDumpster hholds hmoved
  · obtain ⟨entry, -, hfattr⟩ := lookupWithParent_ok_entry hlookup
    exact hbalanced.sameAccounts (removeFile_account hholds.fattrIds_nodup hbalanced.enabled
      (getFattr_self hfattr) hfile hremoved)

theorem rename {oldname newname : Name} {overwrite : Bool}
    (hrename : tree.rename env dir oldname newname overwrite todumpster euser egroup =
      some (status, result, next)) : next.Balanced := by
  have hremove : ∀ {ddir result : ℤ} {dname : Name} {sfattr : Fattr} {status : Status}
      {removed : Tree},
      (if sfattr.type = .dir then
        (tree.rmdir env ddir dname euser egroup).map fun removed =>
          (removed.1, todumpster, removed.2)
      else tree.remove env ddir dname todumpster euser egroup) = some (status, result, removed) →
      removed.Balanced ∧ ∃ left, removed.Holds left := by
    intro ddir result dname sfattr status removed hremove
    split_ifs at hremove
    · obtain ⟨⟨_, _⟩, hrmdir, heq⟩ := map_eq_some_iff.mp hremove
      cases heq
      exact ⟨hbalanced.rmdir hholds hrmdir, hholds.rmdir_call hrmdir⟩
    · obtain ⟨left, hleft, -⟩ := hholds.remove_call hremove
      exact ⟨hbalanced.remove hholds hremove, left, hleft⟩
  by_cases hstatus : status = .ok
  · subst hstatus
    obtain ⟨sfattr, sdfattr, ddir, dname, ddfattr, -, -, -, hrenamed⟩ := renameWith_ok hrename
    exact hbalanced.renamed hholds (fun _ _ htarget => hremove htarget) hrenamed
  · obtain rfl | ⟨ddir, dname, sfattr, htarget⟩ := renameWith_error hrename hstatus
    · exact hbalanced
    · exact (hremove htarget).1

theorem create {numReplicas striperType numStripes numRecoveryStripes stripeSize : ℤ}
    {user group mode : ℕ} {exclusive : Bool}
    (hcreate : tree.create env dir fname 0 numReplicas exclusive striperType numStripes
      numRecoveryStripes stripeSize todumpster user group mode euser egroup =
        some (status, fid, result, next)) : next.Balanced := by
  obtain ⟨-, rfl⟩ | ⟨parent, -, -, -, ⟨-, hlink⟩ |
      ⟨removeStatus, dumped, removed, hremove, ⟨-, -, rfl⟩ | ⟨-, hlink⟩⟩⟩ := create_cases hcreate
  · exact hbalanced
  · exact hbalanced.sameAccounts (createLink_account hholds.fattrIds_nodup hbalanced.enabled
      (getFattr_seed hholds) hlink)
  · exact hbalanced.remove hholds hremove
  · obtain ⟨left, hleft, -⟩ := hholds.remove_call hremove
    have hremoved := hbalanced.remove hholds hremove
    exact hremoved.sameAccounts (createLink_account hleft.fattrIds_nodup hremoved.enabled
      (getFattr_seed hleft) hlink)

end Balanced

end QfsRepair.Meta.Tree
