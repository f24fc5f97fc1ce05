import QfsRepair.Meta.PathSteps

/-!
# The namespace with a path cache

`mkdir`, `rmdir`, `remove`, `rename` and `create` as they use the cache.  What
they have done is put together from the changes of single nodes; only `rmdir`
has a condition on the cached paths.
-/

namespace QfsRepair.Meta.CachedTree

open Option
open Relation (ReflTransGen)
open Tree (thisDir parentDir Vacated)

variable {cached next : CachedTree} {hierarchy : Hierarchy} {env : Environment} {node : Node}
  {tree : Tree} {dir : ℤ} {dname : Name} {euser egroup : ℕ} {status : Status}

/-! ## Directories -/

theorem Sound.mkdir {user group mode : ℕ} {fid : ℤ} (hsound : cached.Sound hierarchy)
    (hmkdir : cached.tree.mkdir env dir dname user group mode euser egroup 0 =
      some (status, fid, tree)) :
    ∃ added : Hierarchy, ({ cached with tree } : CachedTree).Sound added ∧
      hierarchy.nodes ⊆ added.nodes := by
  obtain rfl | ⟨added, hnodes, hadded, hseed⟩ := hsound.holds.mkdir_ok hmkdir
  · exact ⟨hierarchy, hsound, List.Subset.refl _⟩
  · exact ⟨added, hsound.add hnodes rfl hadded hseed, hnodes ▸ List.subset_cons_self _ _⟩

theorem rmdir_cases (hrmdir : cached.rmdir env dir dname euser egroup = some (status, next)) :
    (status ≠ .ok ∧ next = cached) ∨
      (status = .ok ∧ ∃ tree cleared, cached.tree.rmdir env dir dname euser egroup =
        some (.ok, tree) ∧ cached.Shrinks cleared ∧ next = { cleared with tree }) := by
  obtain ⟨found, hlookup, hrmdir⟩ := bind_eq_some_iff.mp hrmdir
  have hfound := Tree.lookupWithParent_found hlookup
  split at hrmdir
  · cases hrmdir
    exact .inl ⟨hfound, rfl⟩
  · obtain ⟨⟨removeStatus, removed⟩, hremoved, hrmdir⟩ := bind_eq_some_iff.mp hrmdir
    split at hrmdir
    · rename_i tree heq
      cases heq
      obtain ⟨cleared, hinvalidate, heq⟩ := map_eq_some_iff.mp hrmdir
      cases heq
      exact .inr ⟨rfl, removed, cleared, hremoved, shrinks_invalidatePathCache hinvalidate, rfl⟩
    · rename_i hstatus _
      cases hrmdir
      exact .inl ⟨hstatus, rfl⟩

/-- The directory is gone; `..` in it may still be cached. -/
theorem Sound.rmdir_ok (hsound : cached.Sound hierarchy)
    (hok : cached.rmdir env dir dname euser egroup = some (.ok, next)) :
    ∃ gone ∈ hierarchy.nodes, gone.place = (dir, dname) ∧ gone.type = .dir ∧
      ∃ left : Hierarchy, left.nodes ⊆ hierarchy.nodes ∧
        Vacated hierarchy dir dname next.tree left ∧
        next.SoundBut left (left.LeftBehind gone) := by
  obtain ⟨hstatus, -⟩ | ⟨-, tree, cleared, hremoved, hshrinks, rfl⟩ := rmdir_cases hok
  · exact absurd rfl hstatus
  obtain ⟨gone, hgone, hplace, htype, hleaf, left, hnodes, hholds, hseed⟩ :=
    hsound.holds.rmdir_node hremoved
  obtain ⟨rfl, rfl⟩ := Prod.mk.inj hplace
  have hcleared : cleared.Sound hierarchy := hsound.shrinks hshrinks
  refine ⟨gone, hgone, rfl, htype, left, hnodes ▸ List.erase_subset, ?_, ?_⟩
  · exact Tree.vacated_of_erase hgone hholds (fun other hother => .inl (hnodes ▸ hother))
      (hnodes ▸ List.Subset.refl _) (hleaf gone hgone)
  · exact hcleared.erase hgone hleaf hnodes hholds (hseed.trans (congrArg _ hshrinks.tree.symm))

/-- The cache has a path to `dir` that ends with `..` after the name. -/
def CachesParentLink (cached : CachedTree) (dir : ℤ) (dname : Name) : Prop :=
  ∃ entry ∈ cached.pathToFidCache, entry.2 = dir ∧ ('/' :: dname) ++ '/' :: parentDir <:+ entry.1

instance (cached : CachedTree) (dir : ℤ) (dname : Name) :
    Decidable (cached.CachesParentLink dir dname) :=
  inferInstanceAs (Decidable (∃ entry ∈ cached.pathToFidCache, _))

theorem Sound.rmdir (hsound : cached.Sound hierarchy) (hlink : ¬ cached.CachesParentLink dir dname)
    (hrmdir : cached.rmdir env dir dname euser egroup = some (status, next)) :
    ∃ left, next.Sound left := by
  obtain ⟨-, rfl⟩ | ⟨rfl, tree, cleared, -, hshrinks, hnext⟩ := rmdir_cases hrmdir
  · exact ⟨hierarchy, hsound⟩
  obtain ⟨gone, -, hplace, -, left, -, -, hleft⟩ := hsound.rmdir_ok hrmdir
  obtain ⟨rfl, rfl⟩ := Prod.mk.inj hplace
  refine ⟨left, hleft.sound fun entry hentry components hkey hspared => hlink ?_⟩
  obtain ⟨init, rfl, -⟩ := hspared.walk
  rw [hnext] at hentry
  refine ⟨entry, hshrinks.cache hentry, hspared.fid_eq, pathOf init, ?_⟩
  rw [hkey.path_eq, pathOf_append]
  rfl

/-! ## Renames -/

section Rename

variable {removeTarget : ℤ → Name → Fattr → Option (Status × ℤ × CachedTree)}
  {parent ddir todumpster result : ℤ} {oldname newname : Name} {sfattr : Fattr}
  {ddfattr : Option Fattr} {overwrite : Bool} {found : CachedTree}

theorem Sound.renameTarget {target : Except Status (ℤ × Name × Option Fattr)}
    (hsound : cached.Sound hierarchy)
    (htarget : cached.renameTarget env parent newname euser egroup = some (target, found)) :
    found.Sound hierarchy ∧ found.tree = cached.tree ∧
      (∀ status, target = .error status → status ≠ .ok) ∧
      ∀ ddir dname ddfattr, target = .ok (ddir, dname, ddfattr) →
        (ddfattr = none ∧ ddir = parent) ∨ ∃ dd, ddfattr = some dd ∧ dd.id = ddir ∧
          dd.type = .dir ∧ cached.tree.getFattr ddir = some dd := by
  obtain ⟨-, heq⟩ | ⟨-, htarget⟩ := ite_eq_iff.mp htarget
  · cases heq
    refine ⟨hsound, rfl, nofun, fun _ _ _ hok => ?_⟩
    cases hok
    exact .inl ⟨rfl, rfl⟩
  obtain ⟨⟨result, after⟩, hlookup, htarget⟩ := map_eq_some_iff.mp htarget
  obtain ⟨hafter, htree, hfound⟩ := hsound.lookupPath hlookup
  cases result with
  | error status =>
    cases htarget
    exact ⟨hafter, htree, fun _ herror => Except.error.inj herror ▸ hfound,
      fun _ _ _ => nofun⟩
  | ok dd =>
    dsimp only at htarget
    split_ifs at htarget with htype hwrite <;> cases htarget
    · exact ⟨hafter, htree, fun _ herror => (by cases herror; exact nofun),
        fun _ _ _ => nofun⟩
    · refine ⟨hafter, htree, nofun, fun _ _ _ hok => ?_⟩
      cases hok
      exact .inr ⟨dd, rfl, rfl, not_not.mp htype, hfound⟩
    · exact ⟨hafter, htree, fun _ herror => (by cases herror; exact nofun),
        fun _ _ _ => nofun⟩

theorem Sound.renameTarget_eq (hsound : cached.Sound hierarchy)
    (hpasses : cached.tree.PassesChecks env euser egroup) :
    (cached.renameTarget env parent newname euser egroup).map Prod.fst =
      cached.tree.renameTarget env parent newname euser egroup := by
  rw [CachedTree.renameTarget, Tree.renameTarget]
  by_cases hslash : '/' ∉ newname
  · rw [if_pos hslash, if_pos hslash, map_some]
  simp only [if_neg hslash]
  rw [← hsound.lookupPath_eq hpasses, map_map, map_map]
  refine congrArg (Option.map · _) (funext fun result => ?_)
  obtain ⟨error | dd, after⟩ := result
  · rfl
  · dsimp only [Function.comp_apply]
    split_ifs <;> rfl

section

variable (cached : CachedTree) (env : Environment)
  (removeTarget : ℤ → Name → Fattr → Option (Status × ℤ × CachedTree)) (euser egroup : ℕ)
  (parent : ℤ) (oldname : Name) (sfattr : Fattr) (ddir : ℤ) (dname : Name)
  (ddfattr : Option Fattr)

/-- What a rename to `dname` in `ddir` has done: nothing, a move to a new place,
a removal that failed, or a removal and a move. -/
inductive RenamedTo : Status → CachedTree → Prop where
  | kept {status : Status} (hentry : status = .ok → dname = oldname) : RenamedTo status cached
  | moved {next : CachedTree}
      (hlookup : cached.tree.lookup env ddir dname euser egroup = some (.error .enoent))
      (hbelow : cached.tree.movesBelowItself env sfattr ddir none = some false)
      (hmove : cached.moveEntry parent oldname sfattr ddir dname ddfattr = some next) :
      RenamedTo .ok next
  | failed {status : Status} {result : ℤ} {next : CachedTree} (hstatus : status ≠ .ok)
      (hremove : removeTarget ddir dname sfattr = some (status, result, next)) :
      RenamedTo status next
  | replaced {dfattr : Fattr} {result : ℤ} {removed next : CachedTree}
      (hentry : ¬ (ddir = parent ∧ dname = oldname))
      (hlookup : cached.tree.lookup env ddir dname euser egroup = some (.ok dfattr))
      (hbelow : cached.tree.movesBelowItself env sfattr ddir (some dfattr) = some false)
      (hremove : removeTarget ddir dname sfattr = some (.ok, result, removed))
      (hmove : removed.moveEntry parent oldname sfattr ddir dname ddfattr = some next) :
      RenamedTo .ok next

end

theorem renameTo_cases
    (hrename : cached.renameTo env removeTarget parent oldname sfattr ddir dname ddfattr overwrite
      todumpster euser egroup = some (status, result, next)) :
    cached.RenamedTo env removeTarget euser egroup parent oldname sfattr ddir dname ddfattr status
      next := by
  rw [renameTo] at hrename
  split_ifs at hrename with hlegal hentry
  · cases hrename
    exact .kept fun _ => hentry.2
  · obtain ⟨lookedUp, hlookup, hrename⟩ := bind_eq_some_iff.mp hrename
    split at hrename
    · obtain ⟨below, hbelow, hrename⟩ := bind_eq_some_iff.mp hrename
      split_ifs at hrename with hinside
      · cases hrename
        exact .kept nofun
      · obtain ⟨moved, hmoved, heq⟩ := map_eq_some_iff.mp hrename
        cases heq
        rw [Bool.not_eq_true] at hinside
        exact .moved hlookup (hinside ▸ hbelow) hmoved
    · cases hrename
      exact .kept fun hok => absurd hok (Tree.lookup_found hlookup)
    · obtain ⟨-, heq⟩ | ⟨-, hrename⟩ := ite_eq_iff.mp hrename
      · cases heq
        exact .kept nofun
      obtain ⟨-, heq⟩ | ⟨-, hrename⟩ := ite_eq_iff.mp hrename
      · split_ifs at heq <;> cases heq <;> exact .kept nofun
      obtain ⟨-, heq⟩ | ⟨-, hrename⟩ := ite_eq_iff.mp hrename
      · cases heq
        exact .kept nofun
      obtain ⟨below, hbelow, hrename⟩ := bind_eq_some_iff.mp hrename
      split_ifs at hrename with hinside
      · cases hrename
        exact .kept nofun
      rw [Bool.not_eq_true] at hinside
      obtain ⟨⟨removeStatus, dumped, removed⟩, hremove, hrename⟩ :=
        bind_eq_some_iff.mp hrename
      split at hrename
      · rename_i heq
        cases heq
        obtain ⟨moved, hmoved, heq⟩ := map_eq_some_iff.mp hrename
        cases heq
        exact .replaced hentry hlookup (hinside ▸ hbelow) hremove hmoved
      · rename_i hstatus
        cases hrename
        exact .failed (fun hok => hstatus result next (hok ▸ rfl)) hremove
  · cases hrename
    exact .kept nofun

/-- What a call that removes the destination leaves: a sound cache, also when it
fails, and after a success possibly but for the paths that are right once the
node is there. -/
structure RemovesTarget (hierarchy : Hierarchy) (node : Node) (ddir : ℤ) (dname : Name)
    (status : Status) (removed : CachedTree) (left : Hierarchy) : Prop where
  sound : status ≠ .ok → removed.Sound left
  soundBut : removed.SoundBut left (left.LeftBehind { node with parent := ddir, name := dname })
  vacated : status = .ok → Vacated hierarchy ddir dname removed.tree left
  subset : status = .ok → node.type = .dir → left.nodes ⊆ hierarchy.nodes

theorem Sound.renamedTo (hsound : cached.Sound hierarchy) (hnode : node ∈ hierarchy.nodes)
    (hobject : sfattr.object = node.object)
    (hdestination : (ddfattr = none ∧ ddir = node.parent) ∨ ∃ dd, ddfattr = some dd ∧
      dd.id = ddir ∧ dd.type = .dir ∧ cached.tree.getFattr ddir = some dd)
    (hspec : ∀ status result removed, removeTarget ddir dname sfattr =
      some (status, result, removed) →
      ∃ left, RemovesTarget hierarchy node ddir dname status removed left)
    (hrenamed : cached.RenamedTo env removeTarget euser egroup node.parent node.name sfattr ddir
      dname ddfattr status next) :
    (next = cached ∧ (status = .ok → dname = node.name)) ∨
      (∃ moved : Hierarchy, next.Sound moved ∧
        moved.nodes = { node with parent := ddir, name := dname } :: hierarchy.nodes.erase node) ∨
      ∃ left result, next.Sound left ∧ removeTarget ddir dname sfattr = some result := by
  obtain ⟨⟨target, htarget, rfl, htype⟩, hsame, hdd⟩ :=
    hsound.holds.target_of_destination hnode hdestination
  cases hrenamed with
  | kept hentry => exact .inl ⟨rfl, hentry⟩
  | moved hlookup hbelow hmove =>
    have havoid := hsound.holds.avoids_of_movesBelowItself hnode hobject htarget htype
      (fun fa hfa => absurd hfa (not_mem_none fa)) hbelow
    obtain ⟨moved, hnodes, hmoved⟩ := hsound.soundBut.moveEntry hnode hobject htarget htype
      (Tree.lookup_enoent_entry hlookup) havoid hsame hdd hmove
    exact .inr (.inl ⟨moved, hmoved, hnodes⟩)
  | failed hstatus hremove =>
    obtain ⟨left, hleft⟩ := hspec _ _ _ hremove
    exact .inr (.inr ⟨left, _, hleft.sound hstatus, hremove⟩)
  | replaced hentry hlookup hbelow hremove hmove =>
    obtain ⟨left, hleft⟩ := hspec _ _ _ hremove
    have hvacated := hleft.vacated rfl
    have hnodeLeft : node ∈ left.nodes := by
      refine hvacated.kept node hnode fun hplace => hentry ?_
      exact ⟨(congrArg Prod.fst hplace).symm, (congrArg Prod.snd hplace).symm⟩
    have hdir : sfattr.type = .dir → left.nodes ⊆ hierarchy.nodes := fun hdir =>
      hleft.subset rfl ((congrArg (·.2.1) hobject).symm.trans hdir)
    have havoid := hsound.holds.avoids_of_vacated hnode hobject htarget htype hvacated hnodeLeft
      hdir hlookup hbelow
    have hspared := hleft.soundBut
    obtain ⟨targetLeft, htargetLeft, htargetId, htargetType⟩ := hvacated.target
    rw [← htargetId] at hvacated hsame hdd hmove havoid hspared
    obtain ⟨moved, -, hmoved⟩ := hspared.moveEntry hnodeLeft hobject htargetLeft htargetType
      hvacated.free havoid hsame hdd hmove
    exact .inr (.inr ⟨moved, _, hmoved, hremove⟩)

theorem Sound.renameWith
    {removeTarget : CachedTree → ℤ → Name → Fattr → Option (Status × ℤ × CachedTree)}
    (hsound : cached.Sound hierarchy) (hthis : oldname ≠ thisDir) (hparent : oldname ≠ parentDir)
    (hrename : cached.renameWith env removeTarget parent oldname newname overwrite todumpster euser
      egroup = some (status, result, next)) :
    (status ≠ .ok ∧ next.Sound hierarchy) ∨
      ∃ node ∈ hierarchy.nodes, node.place = (parent, oldname) ∧
        ∃ sfattr ddir dname ddfattr found, sfattr.object = node.object ∧
          cached.renameTarget env parent newname euser egroup =
            some (.ok (ddir, dname, ddfattr), found) ∧
          found.RenamedTo env (removeTarget found) euser egroup parent oldname sfattr ddir dname
            ddfattr status next := by
  obtain ⟨lookedUp, hlookup, hrename⟩ := bind_eq_some_iff.mp hrename
  have hfound := Tree.lookupWithParent_found hlookup
  split at hrename
  · cases hrename
    exact .inl ⟨hfound, hsound⟩
  rename_i sfattr sdfattr
  split_ifs at hrename
  · obtain ⟨⟨target, found⟩, htarget, hrename⟩ := bind_eq_some_iff.mp hrename
    obtain ⟨hfoundSound, -, herror, -⟩ := hsound.renameTarget htarget
    cases target with
    | error errorStatus =>
      cases hrename
      exact .inl ⟨herror status rfl, hfoundSound⟩
    | ok destination =>
      obtain ⟨ddir, dname, ddfattr⟩ := destination
      obtain ⟨node, hnode, hplace, hobject⟩ := hsound.holds.node_of_lookup hlookup hthis hparent
      exact .inr ⟨node, hnode, hplace, sfattr, ddir, dname, ddfattr, found, hobject, htarget,
        renameTo_cases hrename⟩
  · cases hrename
    exact .inl ⟨nofun, hsound⟩

end Rename

/-! ## The dumpster -/

variable (hsound : cached.Sound hierarchy)

include hsound

variable {todumpster : ℤ}

/-- The file leaves its place for one in the dumpster. -/
theorem Sound.renameToDumpster {dumpster : ℤ} (hnode : node ∈ hierarchy.nodes)
    (hfile : node.type = .file)
    (hrename : cached.renameToDumpster env node.parent node.name todumpster dumpster =
      some (status, next)) :
    ∃ left, next.Sound left ∧
      (status = .ok → Vacated hierarchy node.parent node.name next.tree left) := by
  rw [CachedTree.renameToDumpster] at hrename
  split_ifs at hrename with hdumpster
  · cases hrename
    exact ⟨hierarchy, hsound, nofun⟩
  obtain ⟨⟨renameStatus, result, renamed⟩, hresult, heq⟩ := map_eq_some_iff.mp hrename
  cases heq
  have hnamed := hierarchy.named node hnode
  obtain ⟨hstatus, hkept⟩ | ⟨source, hsource, hplace, sfattr, ddir, dname, ddfattr, found, hobject,
    htarget, hrenamed⟩ := hsound.renameWith hnamed.1 hnamed.2 hresult
  · exact ⟨hierarchy, hkept, fun hok => absurd hok hstatus⟩
  obtain rfl := Hierarchy.eq_of_place hsource hnode hplace
  obtain ⟨hfoundSound, htree, -, hdestination⟩ := hsound.renameTarget htarget
  -- the root user is let in everywhere
  have hplain : cached.tree.renameTarget env source.parent
      (Tree.dumpsterName source.name todumpster) userRoot groupRoot =
        some (.ok (ddir, dname, ddfattr)) := by
    rw [← hsound.renameTarget_eq fun _ fa _ _ => fa.canSearch_root _ _, htarget, map_some]
  have hne := Tree.name_ne_of_dumpsterName hplain
  obtain ⟨rfl, hname⟩ | ⟨moved, hmoved, hnodes⟩ | ⟨_, _, _, hnone⟩ :=
    hfoundSound.renamedTo hnode hobject (htree ▸ hdestination ddir dname ddfattr rfl)
      (fun _ _ _ hnone => by cases hnone) hrenamed
  · exact ⟨hierarchy, hfoundSound, fun hok => absurd (hname hok) hne⟩
  · refine ⟨moved, hmoved, fun _ => Tree.vacated_of_erase hnode hmoved.holds ?_ ?_ ?_⟩
    · rw [hnodes]
      refine List.forall_mem_cons.mpr ⟨.inr fun heq => hne (congrArg Prod.snd heq), ?_⟩
      exact fun other hother => .inl hother
    · exact hnodes ▸ List.subset_cons_self _ _
    · exact Hierarchy.parent_ne_of_file hnode hfile source hnode
  · cases hnone

theorem Sound.moveToDumpster (hnode : node ∈ hierarchy.nodes) (hfile : node.type = .file)
    (hmove : cached.moveToDumpster env node.parent node.name todumpster = some (status, next)) :
    ∃ left, next.Sound left ∧
      (status = .ok → Vacated hierarchy node.parent node.name next.tree left) := by
  obtain ⟨found, -, hmove⟩ := bind_eq_some_iff.mp hmove
  split at hmove
  · exact hsound.renameToDumpster hnode hfile hmove
  · obtain ⟨made, hmade, hmove⟩ := bind_eq_some_iff.mp hmove
    obtain ⟨⟨mkdirStatus, fid, _⟩, hmkdir, rfl⟩ := map_eq_some_iff.mp hmade
    obtain ⟨found, -, hmove⟩ := bind_eq_some_iff.mp hmove
    obtain ⟨added, hadded, hsubset⟩ := hsound.mkdir hmkdir
    split at hmove
    · obtain ⟨left, hleft, hvacated⟩ := hadded.renameToDumpster (hsubset hnode) hfile hmove
      refine ⟨left, hleft, fun hok => ?_⟩
      have hdone := hvacated hok
      exact ⟨hdone.holds, fun other hother => hdone.kept other (hsubset hother), hdone.target,
        hdone.free⟩
    · cases hmove

/-! ## Files -/

theorem Sound.remove {fname : Name} {result : ℤ}
    (hremove : cached.remove env dir fname todumpster euser egroup = some (status, result, next)) :
    ∃ left, next.Sound left ∧ (status = .ok → Vacated hierarchy dir fname next.tree left) := by
  obtain ⟨lookedUp, hlookup, hremove⟩ := bind_eq_some_iff.mp hremove
  have hfound := Tree.lookupWithParent_found hlookup
  split at hremove
  · cases hremove
    exact ⟨hierarchy, hsound, fun hok => absurd hok hfound⟩
  obtain ⟨-, heq⟩ | ⟨htype, hremove⟩ := ite_eq_iff.mp hremove
  · cases heq
    exact ⟨hierarchy, hsound, nofun⟩
  rw [not_not] at htype
  obtain ⟨hthis, hparent⟩ := hsound.holds.named_of_file hlookup htype
  obtain ⟨node, hnode, hplace, hobject⟩ := hsound.holds.node_of_lookup hlookup hthis hparent
  obtain ⟨rfl, rfl⟩ := Prod.mk.inj hplace
  have hfile : node.type = .file := (congrArg (·.2.1) hobject).symm.trans htype
  iterate 2
    obtain ⟨-, heq⟩ | ⟨-, hremove⟩ := ite_eq_iff.mp hremove
    · cases heq
      exact ⟨hierarchy, hsound, nofun⟩
  obtain ⟨cleared, hinvalidate, hremove⟩ := bind_eq_some_iff.mp hremove
  have hshrinks := shrinks_invalidatePathCache hinvalidate
  have hcleared : cleared.Sound hierarchy := hsound.shrinks hshrinks
  split_ifs at hremove with hdumpster
  · obtain ⟨⟨moveStatus, moved⟩, hmoved, heq⟩ := map_eq_some_iff.mp hremove
    cases heq
    exact hcleared.moveToDumpster hnode hfile hmoved
  · obtain ⟨tree, hremoved, heq⟩ := map_eq_some_iff.mp hremove
    cases heq
    obtain ⟨left, hnodes, hleft, hseed⟩ :=
      hcleared.holds.removeFile hnode hfile (congrArg Prod.fst hobject) hremoved
    exact ⟨left, hcleared.removeFile hnode hfile hnodes hleft hseed,
      fun _ => Tree.vacated_of_erase hnode hleft (fun other hother => .inl (hnodes ▸ hother))
        (hnodes ▸ List.Subset.refl _) (Hierarchy.parent_ne_of_file hnode hfile node hnode)⟩

/-- The directory or file in the way of a rename is removed; in the place of a
directory there will be a directory. -/
theorem Sound.removesTarget {ddir result : ℤ} {sfattr : Fattr}
    (hobject : sfattr.object = node.object)
    (hremove : (if sfattr.type = .dir then
        (cached.rmdir env ddir dname euser egroup).map fun removed =>
          (removed.1, todumpster, removed.2)
      else cached.remove env ddir dname todumpster euser egroup) =
        some (status, result, next)) :
    ∃ left, RemovesTarget hierarchy node ddir dname status next left := by
  have htype : sfattr.type = node.type := congrArg (·.2.1) hobject
  split_ifs at hremove with hdir
  · obtain ⟨⟨removeStatus, removed⟩, hrmdir, heq⟩ := map_eq_some_iff.mp hremove
    cases heq
    obtain ⟨hstatus, rfl⟩ | ⟨rfl, -⟩ := rmdir_cases hrmdir
    · exact ⟨hierarchy, fun _ => hsound, hsound.soundBut, fun hok => absurd hok hstatus,
        fun hok => absurd hok hstatus⟩
    · obtain ⟨gone, -, hplace, hgoneType, left, hsubset, hvacated, hleft⟩ := hsound.rmdir_ok hrmdir
      obtain ⟨rfl, rfl⟩ := Prod.mk.inj hplace
      refine ⟨left, fun hstatus => absurd rfl hstatus, hleft.imp fun components fid hspared => ?_,
        fun _ => hvacated, fun _ _ => hsubset⟩
      exact ⟨htype.symm.trans hdir, hspared.fid_eq, hspared.walk⟩
  · obtain ⟨left, hleft, hvacated⟩ := hsound.remove hremove
    exact ⟨left, fun _ => hleft, hleft.soundBut, hvacated,
      fun _ hnodeDir => absurd (htype.trans hnodeDir) hdir⟩

theorem Sound.rename {parent result : ℤ} {oldname newname : Name} {overwrite : Bool}
    (hthis : oldname ≠ thisDir) (hparent : oldname ≠ parentDir)
    (hrename : cached.rename env parent oldname newname overwrite todumpster euser egroup =
      some (status, result, next)) : ∃ left, next.Sound left := by
  obtain ⟨-, hkept⟩ | ⟨node, hnode, hplace, sfattr, ddir, dname, ddfattr, found, hobject, htarget,
    hrenamed⟩ := hsound.renameWith hthis hparent hrename
  · exact ⟨hierarchy, hkept⟩
  obtain ⟨rfl, rfl⟩ := Prod.mk.inj hplace
  obtain ⟨hfound, htree, -, hdestination⟩ := hsound.renameTarget htarget
  obtain ⟨rfl, -⟩ | ⟨moved, hmoved, -⟩ | ⟨left, -, hleft, -⟩ :=
    hfound.renamedTo hnode hobject (htree ▸ hdestination ddir dname ddfattr rfl)
      (fun _ _ _ hremove => hfound.removesTarget hobject hremove) hrenamed
  · exact ⟨hierarchy, hfound⟩
  · exact ⟨moved, hmoved⟩
  · exact ⟨left, hleft⟩

/-! ## Creation -/

section Create

variable {fname : Name} {numReplicas striperType numStripes numRecoveryStripes stripeSize todumpster
  fid result : ℤ} {user group mode : ℕ} {exclusive : Bool} {parent : Fattr}

theorem Sound.createLink (hnode : node ∈ hierarchy.nodes) (htype : node.type = .dir)
    (hfree : cached.tree.getDentry node.id fname = none)
    (hcreate : ((cached.tree.createLink env node.id fname 0 numReplicas striperType numStripes
      numRecoveryStripes stripeSize todumpster user group mode parent).map
        fun created => (created.1, created.2.1, created.2.2.1,
          ({ cached with tree := created.2.2.2 } : CachedTree))) =
            some (status, fid, result, next)) : ∃ created, next.Sound created := by
  obtain ⟨⟨linkStatus, linkFid, dumped, tree⟩, hlink, heq⟩ := map_eq_some_iff.mp hcreate
  cases heq
  obtain ⟨-, rfl⟩ | ⟨-, added, hnodes, hadded, hseed⟩ :=
    hsound.holds.createLink hnode htype hfree hlink
  · exact ⟨hierarchy, hsound.genFileId⟩
  · exact ⟨added, hsound.add hnodes rfl hadded hseed⟩

theorem Sound.create
    (hcreate : cached.create env dir fname 0 numReplicas exclusive striperType numStripes
      numRecoveryStripes stripeSize todumpster user group mode euser egroup =
        some (status, fid, result, next)) : ∃ created, next.Sound created := by
  iterate 2
    obtain ⟨-, heq⟩ | ⟨-, hcreate⟩ := ite_eq_iff.mp hcreate
    · cases heq
      exact ⟨hierarchy, hsound⟩
  split at hcreate
  · cases hcreate
    exact ⟨hierarchy, hsound⟩
  rename_i parent hparent
  obtain ⟨-, heq⟩ | ⟨hdir, hcreate⟩ := ite_eq_iff.mp hcreate
  · cases heq
    exact ⟨hierarchy, hsound⟩
  obtain ⟨-, heq⟩ | ⟨-, hcreate⟩ := ite_eq_iff.mp hcreate
  · cases heq
    exact ⟨hierarchy, hsound⟩
  obtain ⟨lookedUp, hlookup, hcreate⟩ := bind_eq_some_iff.mp hcreate
  split at hcreate
  · obtain ⟨target, htarget, rfl, hobject⟩ := hsound.holds.exists_node_of_getFattr hparent
    have htargetType := (congrArg (·.2.1) hobject).trans (not_not.mp hdir)
    exact hsound.createLink htarget htargetType (Tree.lookup_enoent_entry hlookup) hcreate
  · cases hcreate
    exact ⟨hierarchy, hsound⟩
  · split_ifs at hcreate <;> try (cases hcreate; exact ⟨hierarchy, hsound⟩)
    obtain ⟨⟨removeStatus, dumped, removed⟩, hremove, hcreate⟩ :=
      bind_eq_some_iff.mp hcreate
    obtain ⟨left, hleft, hvacated⟩ := hsound.remove hremove
    split at hcreate
    · rename_i heq
      cases heq
      obtain ⟨target, htarget, rfl, htargetType⟩ := (hvacated rfl).target
      exact hleft.createLink htarget htargetType (hvacated rfl).free hcreate
    · rename_i heq
      cases heq
      cases hcreate
      exact ⟨left, hleft⟩

end Create

end QfsRepair.Meta.CachedTree
