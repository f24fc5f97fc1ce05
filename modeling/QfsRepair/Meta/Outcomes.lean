import QfsRepair.Meta.Views

/-!
# What a call has done

For the calls on the namespace that end with status zero, the checks they have
passed and the step that changed the tree, and for those that end with an error
what they may have changed before.  The checks of permissions are left out
where they have no part in the result; the root user passes all of them.
-/

namespace QfsRepair.Meta.Tree

open Option

variable {tree next : Tree} {env : Environment} {dir : ℤ} {fname : Name} {euser egroup : ℕ}

/-! ## Directories -/

/-- The checks that `rmdir` makes of a directory, and its result. -/
structure DirRemoved (tree : Tree) (dir : ℤ) (dname : Name) (fa : Fattr) (next : Tree) : Prop where
  unprotected : ¬ (dir = rootFid ∧ (dname = dumpsterDir ∨ dname = rootName))
  ne_this : dname ≠ thisDir
  ne_parent : dname ≠ parentDir
  isDir : fa.type = .dir
  empty : tree.emptydir fa.id = true
  removed : tree.removeDir dir dname fa = some next

variable {status : Status}

theorem rmdir_cases (hrmdir : tree.rmdir env dir fname euser egroup = some (status, next)) :
    (status ≠ .ok ∧ next = tree) ∨
      (status = .ok ∧ ∃ fa parent,
        tree.lookupWithParent env dir fname euser egroup = some (.ok (fa, parent)) ∧
        tree.DirRemoved dir fname fa next) := by
  obtain ⟨result, hlookup, hrmdir⟩ := bind_eq_some_iff.mp hrmdir
  have hfound := lookupWithParent_found hlookup
  split at hrmdir
  · cases hrmdir
    exact .inl ⟨hfound, rfl⟩
  · rename_i fa parent
    split_ifs at hrmdir with hprotected hthis hparent htype hwrite hsticky hempty <;>
      try (cases hrmdir; exact .inl ⟨nofun, rfl⟩)
    obtain ⟨removed, hremoved, heq⟩ := map_eq_some_iff.mp hrmdir
    cases heq
    exact .inr ⟨rfl, fa, parent, hlookup, hprotected, hthis, hparent, not_not.mp htype,
      by simpa using hempty, hremoved⟩

theorem rmdir_ok (hok : tree.rmdir env dir fname euser egroup = some (.ok, next)) :
    ∃ fa parent, tree.lookupWithParent env dir fname euser egroup = some (.ok (fa, parent)) ∧
      tree.DirRemoved dir fname fa next :=
  ((rmdir_cases hok).resolve_left fun herror => herror.1 rfl).2

/-- A directory that is made takes the next id; only the root keeps its own. -/
theorem mkdir_cases {user group mode : ℕ} {fid : ℤ}
    (hmkdir : tree.mkdir env dir fname user group mode euser egroup 0 = some (status, fid, next)) :
    (status ≠ .ok ∧ next = tree) ∨
      (status = .ok ∧ tree.getDentry dir fname = none ∧
        (fname = rootName ∧ dir = rootFid ∧
            tree.attachDirectory env dir fname dir user group mode (tree.getFattr dir) =
              some next ∨
          fname ≠ rootName ∧
            (dir = rootFid ∨ ∃ parent, tree.getFattr dir = some parent ∧ parent.type = .dir) ∧
            fid = tree.fileIdSeed + 1 ∧
            tree.genFileId.2.attachDirectory env dir fname (tree.fileIdSeed + 1) user group mode
              (tree.getFattr dir) = some next)) := by
  simp only [mkdir, if_true] at hmkdir
  split_ifs at hmkdir with hlegal hparent hexists hwrite hroot <;>
    try (cases hmkdir; exact .inl ⟨nofun, rfl⟩)
  · obtain ⟨attached, hattached, heq⟩ := map_eq_some_iff.mp hmkdir
    cases heq
    refine .inr ⟨rfl, by simpa using hexists, .inl ⟨hroot, ?_, hattached⟩⟩
    by_contra hdir
    exact hlegal ⟨by rw [hroot]; decide, .inl hdir⟩
  · obtain ⟨attached, hattached, heq⟩ := map_eq_some_iff.mp hmkdir
    cases heq
    refine .inr ⟨rfl, by simpa using hexists, .inr ⟨hroot, ?_, rfl, hattached⟩⟩
    by_contra hneither
    obtain ⟨hdir, hnone⟩ := not_or.mp hneither
    refine hparent ⟨?_, hdir, hroot⟩
    intro hany
    cases hfattr : tree.getFattr dir with
    | none => simp [hfattr] at hany
    | some parent => exact hnone ⟨parent, hfattr, by simpa [hfattr] using hany⟩

/-! ## Files -/

theorem remove_cases {todumpster result : ℤ}
    (hremove : tree.remove env dir fname todumpster euser egroup = some (status, result, next)) :
    (status ≠ .ok ∧ next = tree) ∨ ∃ fa parent,
      tree.lookupWithParent env dir fname euser egroup = some (.ok (fa, parent)) ∧
      fa.type = .file ∧
      (0 < fa.chunkcount ∧ result = fa.id ∧
          tree.moveToDumpster env dir fname fa.id = some (status, next) ∨
        status = .ok ∧ result = todumpster ∧ tree.removeFile dir fname fa = some next) := by
  obtain ⟨found, hlookup, hremove⟩ := bind_eq_some_iff.mp hremove
  have hfound := lookupWithParent_found hlookup
  split at hremove
  · cases hremove
    exact .inl ⟨hfound, rfl⟩
  · rename_i fa parent
    split_ifs at hremove with htype hwrite hsticky hdumpster <;>
      try (cases hremove; exact .inl ⟨nofun, rfl⟩)
    · obtain ⟨⟨moveStatus, moved⟩, hmoved, heq⟩ := map_eq_some_iff.mp hremove
      cases heq
      exact .inr ⟨fa, parent, hlookup, not_not.mp htype, .inl ⟨hdumpster.1, rfl, hmoved⟩⟩
    · obtain ⟨removed, hremoved, heq⟩ := map_eq_some_iff.mp hremove
      cases heq
      exact .inr ⟨fa, parent, hlookup, not_not.mp htype, .inr ⟨rfl, rfl, hremoved⟩⟩

/-! ## Renames -/

section

variable (tree : Tree) (env : Environment)
  (removeTarget : ℤ → Name → Fattr → Option (Status × ℤ × Tree)) (todumpster : ℤ)
  (euser egroup : ℕ) (parent : ℤ) (oldname : Name) (sfattr : Fattr) (ddir : ℤ) (dname : Name)
  (ddfattr : Option Fattr)

/-- The ways in which a rename to `dname` in `ddir` succeeds: source and
destination are one entry, the destination is new, or it is replaced. -/
inductive Renamed : ℤ → Tree → Prop where
  | unchanged (hentry : ddir = parent ∧ dname = oldname) : Renamed todumpster tree
  | moved {next : Tree} (hentry : ¬ (ddir = parent ∧ dname = oldname))
      (hlookup : tree.lookup env ddir dname euser egroup = some (.error .enoent))
      (hbelow : tree.movesBelowItself env sfattr ddir none = some false)
      (hmove : tree.moveEntry parent oldname sfattr ddir dname ddfattr = some next) :
      Renamed todumpster next
  | replaced {dfattr : Fattr} {result : ℤ} {removed next : Tree}
      (hentry : ¬ (ddir = parent ∧ dname = oldname))
      (hlookup : tree.lookup env ddir dname euser egroup = some (.ok dfattr))
      (htype : sfattr.type = dfattr.type)
      (hempty : sfattr.type = .dir → tree.emptydir dfattr.id = true)
      (hbelow : tree.movesBelowItself env sfattr ddir (some dfattr) = some false)
      (hremove : removeTarget ddir dname sfattr = some (.ok, result, removed))
      (hmove : removed.moveEntry parent oldname sfattr ddir dname ddfattr = some next) :
      Renamed result next

end

section Rename

variable {removeTarget : ℤ → Name → Fattr → Option (Status × ℤ × Tree)} {todumpster result : ℤ}
  {parent ddir : ℤ} {oldname dname newname : Name} {sfattr : Fattr} {ddfattr : Option Fattr}
  {overwrite : Bool}

/-- Within its directory an entry only gets another name; a file or directory
that is moved to a directory given by its path takes its counts with it. -/
theorem moveEntry_cases
    (hmove : tree.moveEntry parent oldname sfattr ddir dname ddfattr = some next) :
    (ddfattr = none ∧ ∃ deleted, tree.unlinkName parent oldname sfattr.id = some deleted ∧
        next = deleted.insert (.dentry ⟨sfattr.id, ddir, dname⟩)) ∨
      (∃ dd deleted, ddfattr = some dd ∧ sfattr.type ≠ .dir ∧
        tree.unlinkName parent oldname sfattr.id = some deleted ∧
        (deleted.insert (.dentry ⟨sfattr.id, ddir, dname⟩)).moveCounts sfattr.id dd.id =
          some next) ∨
      ∃ dd unlinked deleted counted, ddfattr = some dd ∧ sfattr.type = .dir ∧
        tree.unlinkName sfattr.id parentDir sfattr.id = some unlinked ∧
        unlinked.unlinkName parent oldname sfattr.id = some deleted ∧
        (deleted.insert (.dentry ⟨sfattr.id, ddir, dname⟩)).moveCounts sfattr.id dd.id =
          some counted ∧
        next = counted.linkDir sfattr.id parentDir ddir := by
  obtain ⟨unlinked, hunlinked, hrest⟩ := bind_eq_some_iff.mp hmove
  obtain ⟨deleted, hdeleted, hlast⟩ := bind_eq_some_iff.mp hrest
  cases ddfattr with
  | none =>
    rw [if_neg fun hand => Bool.noConfusion hand.2] at hunlinked
    cases hunlinked
    cases hlast
    exact .inl ⟨rfl, deleted, hdeleted, rfl⟩
  | some dd =>
    obtain ⟨counted, hcounted, rfl⟩ := map_eq_some_iff.mp hlast
    by_cases hdir : sfattr.type = .dir
    · rw [if_pos ⟨hdir, rfl⟩] at hunlinked
      rw [if_pos hdir]
      exact .inr (.inr
        ⟨dd, unlinked, deleted, counted, rfl, hdir, hunlinked, hdeleted, hcounted, rfl⟩)
    · rw [if_neg fun hand => hdir hand.1] at hunlinked
      cases hunlinked
      rw [if_neg hdir]
      exact .inr (.inl ⟨dd, deleted, rfl, hdir, hdeleted, hcounted⟩)

theorem renameTarget_error
    (herror : tree.renameTarget env parent newname euser egroup = some (.error status)) :
    status ≠ .ok := by
  obtain ⟨-, heq⟩ | ⟨hslash, herror⟩ := ite_eq_iff.mp herror
  · cases heq
  · obtain ⟨found, hfound, herror⟩ := map_eq_some_iff.mp herror
    split at herror
    · cases herror
      exact lookupPath_found hfound
    · split_ifs at herror <;> cases herror <;> exact nofun

/-- The destination of a rename: the directory of the source, or a directory that
its path leads to. -/
theorem renameTarget_ok
    (hok : tree.renameTarget env parent newname euser egroup = some (.ok (ddir, dname, ddfattr))) :
    (ddfattr = none ∧ ddir = parent) ∨ ∃ dd, ddfattr = some dd ∧ dd.id = ddir ∧
      dd.type = .dir ∧ tree.getFattr ddir = some dd := by
  obtain ⟨-, heq⟩ | ⟨hslash, hok⟩ := ite_eq_iff.mp hok
  · cases heq
    exact .inl ⟨rfl, rfl⟩
  · obtain ⟨found, hfound, hok⟩ := map_eq_some_iff.mp hok
    have hfattr := lookupPath_found hfound
    split at hok
    · cases hok
    · rename_i dd
      split_ifs at hok with htype
      cases hok
      exact .inr ⟨dd, rfl, rfl, not_not.mp htype, hfattr⟩

theorem renameTo_ok (hok : tree.renameTo env removeTarget parent oldname sfattr ddir dname
      ddfattr overwrite todumpster euser egroup = some (.ok, result, next)) :
    legalname dname = true ∧ tree.Renamed env removeTarget todumpster euser egroup parent oldname
      sfattr ddir dname ddfattr result next := by
  rw [renameTo] at hok
  split_ifs at hok with hlegal hentry
  · cases hok
    exact ⟨hlegal, .unchanged hentry⟩
  · refine ⟨hlegal, ?_⟩
    obtain ⟨found, hlookup, hok⟩ := bind_eq_some_iff.mp hok
    split at hok
    · obtain ⟨below, hbelow, hok⟩ := bind_eq_some_iff.mp hok
      split_ifs at hok with hinside
      · cases hok
      · obtain ⟨moved, hmoved, heq⟩ := map_eq_some_iff.mp hok
        cases heq
        rw [Bool.not_eq_true] at hinside
        exact .moved hentry hlookup (hinside ▸ hbelow) hmoved
    · cases hok
      exact absurd rfl (lookup_found hlookup)
    · obtain ⟨-, heq⟩ | ⟨-, hok⟩ := ite_eq_iff.mp hok
      · cases heq
      obtain ⟨-, heq⟩ | ⟨htype, hok⟩ := ite_eq_iff.mp hok
      · split_ifs at heq <;> cases heq
      obtain ⟨-, heq⟩ | ⟨hfull, hok⟩ := ite_eq_iff.mp hok
      · cases heq
      obtain ⟨below, hbelow, hok⟩ := bind_eq_some_iff.mp hok
      split_ifs at hok with hinside
      · cases hok
      · obtain ⟨⟨status, td, removed⟩, hremove, hok⟩ := bind_eq_some_iff.mp hok
        rw [Bool.not_eq_true] at hinside
        cases status <;> try cases hok
        obtain ⟨moved, hmoved, heq⟩ := map_eq_some_iff.mp hok
        cases heq
        refine .replaced hentry hlookup (not_not.mp htype) ?_ (hinside ▸ hbelow) hremove hmoved
        intro hdir
        by_contra hnot
        exact hfull ⟨hdir, hnot⟩
  · cases hok

theorem renameWith_ok (hok : tree.renameWith env removeTarget parent oldname newname overwrite
      todumpster euser egroup = some (.ok, result, next)) :
    ∃ sfattr sdfattr ddir dname ddfattr,
      tree.lookupWithParent env parent oldname euser egroup = some (.ok (sfattr, sdfattr)) ∧
      tree.renameTarget env parent newname euser egroup = some (.ok (ddir, dname, ddfattr)) ∧
      legalname dname = true ∧ tree.Renamed env removeTarget todumpster euser egroup parent
        oldname sfattr ddir dname ddfattr result next := by
  obtain ⟨found, hlookup, hok⟩ := bind_eq_some_iff.mp hok
  have hfound := lookupWithParent_found hlookup
  split at hok
  · cases hok
    exact absurd rfl hfound
  · rename_i sfattr sdfattr
    split_ifs at hok
    · obtain ⟨target, htarget, hok⟩ := bind_eq_some_iff.mp hok
      split at hok
      · cases hok
        exact absurd rfl (renameTarget_error htarget)
      · rename_i ddir dname ddfattr
        exact ⟨sfattr, sdfattr, ddir, dname, ddfattr, hlookup, htarget, renameTo_ok hok⟩
    · cases hok

/-- A rename that fails leaves the tree, or what the removal of the destination
has made of it. -/
theorem renameTo_error
    (hrename : tree.renameTo env removeTarget parent oldname sfattr ddir dname ddfattr overwrite
      todumpster euser egroup = some (status, result, next)) (hstatus : status ≠ .ok) :
    next = tree ∨ removeTarget ddir dname sfattr = some (status, result, next) := by
  rw [renameTo] at hrename
  split_ifs at hrename
  · cases hrename
    exact .inl rfl
  · obtain ⟨found, -, hrename⟩ := bind_eq_some_iff.mp hrename
    split at hrename
    · obtain ⟨below, -, hrename⟩ := bind_eq_some_iff.mp hrename
      split_ifs at hrename
      · cases hrename
        exact .inl rfl
      · obtain ⟨moved, -, heq⟩ := map_eq_some_iff.mp hrename
        cases heq
        exact absurd rfl hstatus
    · cases hrename
      exact .inl rfl
    · rw [renameOnto] at hrename
      split_ifs at hrename <;> try (cases hrename; exact .inl rfl)
      obtain ⟨below, -, hrename⟩ := bind_eq_some_iff.mp hrename
      split_ifs at hrename
      · cases hrename
        exact .inl rfl
      · obtain ⟨⟨removeStatus, td, removed⟩, hremove, hrename⟩ :=
          bind_eq_some_iff.mp hrename
        split at hrename
        · obtain ⟨moved, -, heq⟩ := map_eq_some_iff.mp hrename
          cases heq
          exact absurd rfl hstatus
        · cases hrename
          exact .inr hremove
  · cases hrename
    exact .inl rfl

theorem renameWith_error
    (hrename : tree.renameWith env removeTarget parent oldname newname overwrite todumpster euser
      egroup = some (status, result, next)) (hstatus : status ≠ .ok) :
    next = tree ∨ ∃ ddir dname sfattr,
      removeTarget ddir dname sfattr = some (status, result, next) := by
  obtain ⟨found, -, hrename⟩ := bind_eq_some_iff.mp hrename
  split at hrename
  · cases hrename
    exact .inl rfl
  · split_ifs at hrename
    · obtain ⟨target, -, hrename⟩ := bind_eq_some_iff.mp hrename
      split at hrename
      · cases hrename
        exact .inl rfl
      · exact (renameTo_error hrename hstatus).imp_right fun hremove => ⟨_, _, _, hremove⟩
    · cases hrename
      exact .inl rfl

/-! ## The dumpster -/

theorem renameToDumpster_cases {dumpster : ℤ}
    (hrename : tree.renameToDumpster env dir fname todumpster dumpster = some (status, next)) :
    (status ≠ .ok ∧ next = tree) ∨
      (status = .ok ∧ ∃ sfattr sdfattr ddir dname ddfattr result,
        tree.lookupWithParent env dir fname userRoot groupRoot = some (.ok (sfattr, sdfattr)) ∧
        tree.renameTarget env dir (dumpsterName fname todumpster) userRoot groupRoot =
          some (.ok (ddir, dname, ddfattr)) ∧
        tree.Renamed env (fun _ _ _ => none) (-1) userRoot groupRoot dir fname sfattr ddir dname
          ddfattr result next) := by
  rw [renameToDumpster] at hrename
  split_ifs at hrename
  · cases hrename
    exact .inl ⟨nofun, rfl⟩
  obtain ⟨⟨_, result, _⟩, hresult, heq⟩ := map_eq_some_iff.mp hrename
  cases heq
  by_cases hstatus : status = .ok
  · subst hstatus
    obtain ⟨_, _, _, _, _, hlookup, htarget, -, hrenamed⟩ := renameWith_ok hresult
    exact .inr ⟨rfl, _, _, _, _, _, _, hlookup, htarget, hrenamed⟩
  · refine .inl ⟨hstatus, (renameWith_error hresult hstatus).resolve_right ?_⟩
    rintro ⟨_, _, _, hnone⟩
    cases hnone

/-- The dumpster is there or is made first. -/
theorem moveToDumpster_cases
    (hmove : tree.moveToDumpster env dir fname todumpster = some (status, next)) :
    ∃ dumpster, tree.renameToDumpster env dir fname todumpster dumpster = some (status, next) ∨
      ∃ made mkdirStatus fid, tree.mkdir env rootFid dumpsterDir userRoot groupRoot 0o700 userRoot
          groupRoot 0 = some (mkdirStatus, fid, made) ∧
        made.renameToDumpster env dir fname todumpster dumpster = some (status, next) := by
  obtain ⟨found, -, hmove⟩ := bind_eq_some_iff.mp hmove
  split at hmove
  · exact ⟨_, .inl hmove⟩
  · obtain ⟨made, hmade, hmove⟩ := bind_eq_some_iff.mp hmove
    obtain ⟨⟨mkdirStatus, fid, _⟩, hmkdir, rfl⟩ := map_eq_some_iff.mp hmade
    obtain ⟨found, -, hmove⟩ := bind_eq_some_iff.mp hmove
    split at hmove
    · exact ⟨_, .inr ⟨_, mkdirStatus, fid, hmkdir, hmove⟩⟩
    · cases hmove

end Rename

/-! ## Creation -/

section Create

variable {numReplicas striperType numStripes numRecoveryStripes stripeSize todumpster : ℤ}
  {user group mode : ℕ} {status : Status} {fid result : ℤ} {exclusive : Bool}

/-- A new file takes the next id, also when its stripe parameters are refused. -/
theorem createLink_cases {parent : Fattr}
    (hcreate : tree.createLink env dir fname 0 numReplicas striperType numStripes
      numRecoveryStripes stripeSize todumpster user group mode parent =
        some (status, fid, result, next)) :
    (status ≠ .ok ∧ next = tree.genFileId.2) ∨
      (status = .ok ∧ fid = tree.fileIdSeed + 1 ∧ ∃ linked counted,
        tree.genFileId.2.linkFile env dir fname (tree.fileIdSeed + 1) numReplicas striperType
          numStripes numRecoveryStripes stripeSize user group mode dir = some linked ∧
        linked.updateCounts (tree.fileIdSeed + 1) 0 1 0 = some counted ∧
        next = counted.modifyFattr (tree.fileIdSeed + 1) fun fa => { fa with
          minSTier := parent.minSTier
          maxSTier := parent.maxSTier }) := by
  simp only [createLink, if_true] at hcreate
  split at hcreate
  · cases hcreate
    exact .inl ⟨nofun, rfl⟩
  · rename_i linked hlinked
    obtain ⟨counted, hcounted, heq⟩ := map_eq_some_iff.mp hcreate
    cases heq
    exact .inr ⟨rfl, rfl, linked, counted, hlinked, hcounted, rfl⟩

/-- A file is created where there is none, or in the place of one that has been
removed. -/
theorem create_cases
    (hcreate : tree.create env dir fname 0 numReplicas exclusive striperType numStripes
      numRecoveryStripes stripeSize todumpster user group mode euser egroup =
        some (status, fid, result, next)) :
    (status ≠ .ok ∧ next = tree) ∨ ∃ parent, tree.getFattr dir = some parent ∧
      parent.type = .dir ∧ legalname fname = true ∧
      (tree.getDentry dir fname = none ∧
          tree.createLink env dir fname 0 numReplicas striperType numStripes numRecoveryStripes
            stripeSize todumpster user group mode parent = some (status, fid, result, next) ∨
        ∃ removeStatus dumped removed,
          tree.remove env dir fname todumpster euser egroup =
            some (removeStatus, dumped, removed) ∧
          (removeStatus ≠ .ok ∧ status = removeStatus ∧ next = removed ∨
            removeStatus = .ok ∧
              removed.createLink env dir fname 0 numReplicas striperType numStripes
                numRecoveryStripes stripeSize dumped user group mode parent =
                  some (status, fid, result, next))) := by
  obtain ⟨-, heq⟩ | ⟨hlegal, hcreate⟩ := ite_eq_iff.mp hcreate
  · cases heq
    exact .inl ⟨nofun, rfl⟩
  obtain ⟨-, heq⟩ | ⟨-, hcreate⟩ := ite_eq_iff.mp hcreate
  · cases heq
    exact .inl ⟨nofun, rfl⟩
  split at hcreate
  · cases hcreate
    exact .inl ⟨nofun, rfl⟩
  rename_i parent hparent
  obtain ⟨-, heq⟩ | ⟨hdir, hcreate⟩ := ite_eq_iff.mp hcreate
  · cases heq
    exact .inl ⟨nofun, rfl⟩
  obtain ⟨-, heq⟩ | ⟨-, hcreate⟩ := ite_eq_iff.mp hcreate
  · cases heq
    exact .inl ⟨nofun, rfl⟩
  rw [not_not] at hlegal hdir
  obtain ⟨found, hlookup, hcreate⟩ := bind_eq_some_iff.mp hcreate
  have hfound := lookup_found hlookup
  split at hcreate
  · exact .inr ⟨parent, hparent, hdir, hlegal, .inl ⟨lookup_enoent_entry hlookup, hcreate⟩⟩
  · cases hcreate
    exact .inl ⟨hfound, rfl⟩
  · split_ifs at hcreate <;> try (cases hcreate; exact .inl ⟨nofun, rfl⟩)
    obtain ⟨⟨removeStatus, dumped, removed⟩, hremove, hcreate⟩ :=
      bind_eq_some_iff.mp hcreate
    refine .inr ⟨parent, hparent, hdir, hlegal, .inr ⟨removeStatus, dumped, removed, hremove, ?_⟩⟩
    cases removeStatus with
    | ok => exact .inr ⟨rfl, hcreate⟩
    | _ =>
      cases hcreate
      exact .inl ⟨nofun, rfl, rfl⟩

end Create

end QfsRepair.Meta.Tree
