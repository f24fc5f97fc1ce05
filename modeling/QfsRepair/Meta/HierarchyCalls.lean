import QfsRepair.Meta.HierarchySteps

/-!
# Calls on a tree that holds a hierarchy

`mkdir`, `rmdir`, `remove`, `create` and `rename` with all their checks, also
when they fail half-way, leave a tree that holds a hierarchy, if the source of
a rename is not one of the links `.` and `..`.  A removal that succeeds frees
the name and keeps all other nodes.
-/

namespace QfsRepair.Meta

open List Option Hierarchy
open Relation (ReflTransGen)

namespace Tree

variable {tree next : Tree} {env : Environment} {hierarchy : Hierarchy} {node : Node}
  {dir : ℤ} {fname : Name} {euser egroup : ℕ} {fa parent : Fattr}

namespace Holds

/-! ## Lookups -/

variable (hholds : tree.Holds hierarchy)

include hholds

section

variable (hlookup : tree.lookupWithParent env dir fname euser egroup = some (.ok (fa, parent)))

include hlookup

theorem node_of_lookup (hthis : fname ≠ thisDir) (hparent : fname ≠ parentDir) :
    ∃ node ∈ hierarchy.nodes, node.place = (dir, fname) ∧ fa.object = node.object := by
  obtain ⟨entry, hentry, hfattr⟩ := lookupWithParent_ok_entry hlookup
  obtain ⟨node, hnode, hid, hplace⟩ := hholds.exists_node_of_getDentry hentry hthis hparent
  exact ⟨node, hnode, hplace, hholds.node_of_fattr hnode (hid ▸ hfattr)⟩

/-- The links lead to directories only. -/
theorem named_of_file (hfile : fa.type = .file) : fname ≠ thisDir ∧ fname ≠ parentDir := by
  obtain ⟨entry, hentry, hfattr⟩ := lookupWithParent_ok_entry hlookup
  obtain ⟨hmem, hplace⟩ := hholds.mem_entries_of_getDentry hentry
  obtain ⟨found, hfound, hid, hobject⟩ := hholds.exists_node_of_getFattr hfattr
  have hfoundType : found.type = .file :=
    (congrArg (·.2.1) hobject).trans hfile
  have hname : entry.name = fname := congrArg Prod.snd hplace
  by_contra hlink
  rw [← hname] at hlink
  obtain ⟨node, hnode, hin⟩ := exists_node_of_link hmem hlink
  have hdir : ∃ dir ∈ hierarchy.nodes, dir.id = entry.id ∧ dir.type = .dir := by
    obtain ⟨htype, rfl | rfl⟩ := Node.mem_links.mp hin
    · exact ⟨node, hnode, rfl, htype⟩
    · exact hierarchy.parents node hnode
  obtain ⟨dir, hdir, hdirId, hdirType⟩ := hdir
  rw [eq_of_id hdir hfound (hdirId.trans hid.symm), hfoundType] at hdirType
  cases hdirType

end

/-- A name that no node has in a directory is free, unless it is a link. -/
theorem free_of_places (hthis : fname ≠ thisDir) (hparent : fname ≠ parentDir)
    (hplaces : ∀ other ∈ hierarchy.nodes, other.place ≠ (dir, fname)) :
    tree.getDentry dir fname = none := by
  refine hholds.getDentry_eq_none fun entry hentry hplace => ?_
  have hname : entry.name = fname := congrArg Prod.snd hplace
  obtain ⟨node, hnode, rfl⟩ :=
    exists_node_of_isNamed hentry ⟨hname ▸ hthis, hname ▸ hparent⟩
  exact hplaces node hnode hplace

end Holds

/-! ## Removals -/

/-- The tree without the node of a name: all other nodes are still there, and
the name is free. -/
structure Vacated (hierarchy : Hierarchy) (dir : ℤ) (fname : Name) (next : Tree)
    (left : Hierarchy) : Prop where
  holds : next.Holds left
  kept : ∀ other ∈ hierarchy.nodes, other.place ≠ (dir, fname) → other ∈ left.nodes
  target : ∃ target ∈ left.nodes, target.id = dir ∧ target.type = .dir
  free : next.getDentry dir fname = none

variable {left : Hierarchy}

/-- The rest of the nodes, possibly with one that has come to another place. -/
theorem vacated_of_erase (hnode : node ∈ hierarchy.nodes) (hholds : next.Holds left)
    (hleft : ∀ other ∈ left.nodes, other ∈ hierarchy.nodes.erase node ∨ other.place ≠ node.place)
    (hkept : hierarchy.nodes.erase node ⊆ left.nodes) (hself : node.parent ≠ node.id) :
    Vacated hierarchy node.parent node.name next left where
  holds := hholds
  kept := by
    intro other hother hplace
    refine hkept ((mem_erase_iff hnode).mpr ⟨hother, fun hid => hplace ?_⟩)
    rw [eq_of_id hother hnode hid]
    rfl
  target := by
    obtain ⟨target, htarget, hid, htype⟩ := hierarchy.parents node hnode
    exact ⟨target, hkept ((mem_erase_iff hnode).mpr ⟨htarget, hid ▸ hself⟩), hid, htype⟩
  free := by
    have hnamed := hierarchy.named node hnode
    refine hholds.free_of_places hnamed.1 hnamed.2 fun other hother hplace => ?_
    rcases hleft other hother with herase | hne
    · obtain ⟨hmem, hne⟩ := (mem_erase_iff hnode).mp herase
      exact hne (congrArg Node.id (eq_of_place hmem hnode hplace))
    · exact hne hplace

section

variable (hholds : tree.Holds hierarchy)

include hholds

section

variable (hok : tree.rmdir env dir fname euser egroup = some (.ok, next))

include hok

/-- The directory that `rmdir` removes; there is nothing in it. -/
theorem Holds.rmdir_node :
    ∃ node ∈ hierarchy.nodes, node.place = (dir, fname) ∧ node.type = .dir ∧
      (∀ other ∈ hierarchy.nodes, other.parent ≠ node.id) ∧
      ∃ left : Hierarchy, left.nodes = hierarchy.nodes.erase node ∧ next.Holds left ∧
        next.fileIdSeed = tree.fileIdSeed := by
  obtain ⟨fa, parent, hlookup, hremoved⟩ := Tree.rmdir_ok hok
  obtain ⟨node, hnode, hplace, hobject⟩ :=
    hholds.node_of_lookup hlookup hremoved.ne_this hremoved.ne_parent
  obtain ⟨rfl, rfl⟩ := Prod.mk.inj hplace
  have hid : fa.id = node.id := congrArg Prod.fst hobject
  have htype : node.type = .dir :=
    (congrArg (·.2.1) hobject).symm.trans hremoved.isDir
  have hempty : tree.emptydir node.id = true := hid ▸ hremoved.empty
  have hroot : node.id ≠ rootFid := by
    intro hroot
    have heq := eq_root hnode hroot
    exact hremoved.unprotected ⟨congrArg Node.parent heq, .inr (congrArg Node.name heq)⟩
  exact ⟨node, hnode, rfl, htype, hholds.parent_ne_of_emptydir hnode htype hempty,
    hholds.removeDir hnode htype hroot hid hempty hremoved.removed⟩

theorem Holds.rmdir_ok :
    ∃ left, Vacated hierarchy dir fname next left ∧ left.nodes ⊆ hierarchy.nodes := by
  obtain ⟨node, hnode, hplace, -, hleaf, left, hleft, hdone, -⟩ := hholds.rmdir_node hok
  obtain ⟨rfl, rfl⟩ := Prod.mk.inj hplace
  refine ⟨left, vacated_of_erase hnode hdone (fun other hother => .inl (hleft ▸ hother))
    (hleft ▸ Subset.refl _) (hleaf node hnode), ?_⟩
  rw [hleft]
  exact erase_subset

end

theorem Holds.rmdir_call {status : Status}
    (hrmdir : tree.rmdir env dir fname euser egroup = some (status, next)) :
    ∃ left, next.Holds left := by
  obtain ⟨-, rfl⟩ | ⟨rfl, -⟩ := rmdir_cases hrmdir
  · exact ⟨hierarchy, hholds⟩
  · obtain ⟨left, hvacated, -⟩ := hholds.rmdir_ok hrmdir
    exact ⟨left, hvacated.holds⟩

end

/-! ## Renames -/

section Rename

variable {removeTarget : ℤ → Name → Fattr → Option (Status × ℤ × Tree)} {todumpster result ddir : ℤ}
  {newname dname : Name} {sfattr : Fattr} {ddfattr : Option Fattr}

namespace Holds

variable (hholds : tree.Holds hierarchy) (hnode : node ∈ hierarchy.nodes)

include hholds hnode

/-- The destination of a rename is a directory. -/
theorem target_of_destination
    (hdestination : (ddfattr = none ∧ ddir = node.parent) ∨ ∃ dd, ddfattr = some dd ∧
      dd.id = ddir ∧ dd.type = .dir ∧ tree.getFattr ddir = some dd) :
    (∃ target ∈ hierarchy.nodes, target.id = ddir ∧ target.type = .dir) ∧
      (ddfattr = none → ddir = node.parent) ∧ ∀ dd ∈ ddfattr, dd.id = ddir := by
  obtain ⟨rfl, rfl⟩ | ⟨dd, rfl, hid, htype, hfattr⟩ := hdestination
  · exact ⟨hierarchy.parents node hnode, fun _ => rfl, fun dd hdd => absurd hdd (not_mem_none dd)⟩
  · obtain ⟨target, htarget, htargetId, hobject⟩ := hholds.exists_node_of_getFattr hfattr
    refine ⟨⟨target, htarget, htargetId, ?_⟩, fun hnone => absurd hnone (some_ne_none dd), ?_⟩
    · exact (congrArg (·.2.1) hobject).trans htype
    · rintro _ ⟨⟩
      exact hid

omit hnode in
/-- A file or directory that is replaced is in the directory of the destination. -/
theorem parent_of_replaced {removed : Tree} {dfattr : Fattr}
    (hlookup : tree.lookup env ddir dname euser egroup = some (.ok dfattr))
    (hvacated : Vacated hierarchy ddir dname removed left) : dfattr.parent = some ddir := by
  obtain ⟨target, htarget, rfl, htype⟩ := hvacated.target
  obtain ⟨hthis, hparent⟩ := hvacated.holds.isNamed_of_free htarget htype hvacated.free
  obtain ⟨entry, hentry, hfattr, -⟩ := lookup_ok_iff.mp hlookup
  obtain ⟨replaced, hreplaced, hid, hplace⟩ :=
    hholds.exists_node_of_getDentry hentry hthis hparent
  have hobject := hholds.node_of_fattr hreplaced (hid ▸ hfattr)
  have hroot : replaced.id ≠ rootFid := by
    intro hroot
    have hfree := hvacated.holds.place_ne_of_getDentry hvacated.free
      (entry_mem left.root)
    rw [eq_root hreplaced hroot] at hplace
    exact hfree hplace
  have hpointer : dfattr.parent = if replaced.id = rootFid then none else some replaced.parent :=
    congrArg (·.2.2) hobject
  rw [hpointer, if_neg hroot]
  exact congrArg (fun place => some place.1) hplace

/-- The check of a move still holds when the destination is out of the way. -/
theorem avoids_of_vacated {removed : Tree} {target : Node} {dfattr : Fattr}
    (hobject : sfattr.object = node.object) (htarget : target ∈ hierarchy.nodes)
    (htype : target.type = .dir) (hvacated : Vacated hierarchy target.id dname removed left)
    (hnodeLeft : node ∈ left.nodes) (hsubset : sfattr.type = .dir → left.nodes ⊆ hierarchy.nodes)
    (hlookup : tree.lookup env target.id dname euser egroup = some (.ok dfattr))
    (hbelow : tree.movesBelowItself env sfattr target.id (some dfattr) = some false) :
    ¬ ReflTransGen (ParentIn left.nodes) target.id node.id := by
  obtain ⟨targetLeft, htargetLeft, htargetId, htargetType⟩ := hvacated.target
  cases hnodeType : node.type with
  | file =>
    rw [← htargetId]
    exact not_reaches_file hnodeLeft hnodeType htargetLeft htargetType
  | dir =>
    have hdir : sfattr.type = .dir :=
      (congrArg (·.2.1) hobject).trans hnodeType
    have havoid := hholds.avoids_of_movesBelowItself hnode hobject htarget htype
      (by
        rintro _ ⟨⟩
        exact hholds.parent_of_replaced hlookup hvacated) hbelow
    exact fun hreach =>
      havoid (hreach.lift id fun _ _ => parentIn_mono (hsubset hdir))

/-- A rename that succeeds moves the node, after a node in its way is removed. -/
theorem renamed (hobject : sfattr.object = node.object)
    (htarget : ∃ target ∈ hierarchy.nodes, target.id = ddir ∧ target.type = .dir)
    (hsame : ddfattr = none → ddir = node.parent) (hdd : ∀ dd ∈ ddfattr, dd.id = ddir)
    (hspec : ∀ result removed, removeTarget ddir dname sfattr = some (.ok, result, removed) →
      ∃ left, Vacated hierarchy ddir dname removed left ∧
        (sfattr.type = .dir → left.nodes ⊆ hierarchy.nodes))
    (hrenamed : tree.Renamed env removeTarget todumpster euser egroup node.parent node.name
      sfattr ddir dname ddfattr result next) :
    (next = tree ∧ dname = node.name) ∨
      ∃ left moved : Hierarchy, node ∈ left.nodes ∧
        (left = hierarchy ∨ ∃ result removed,
          removeTarget ddir dname sfattr = some (.ok, result, removed) ∧
            Vacated hierarchy ddir dname removed left) ∧
        moved.nodes = { node with parent := ddir, name := dname } :: left.nodes.erase node ∧
        next.Holds moved := by
  obtain ⟨target, htarget, rfl, htype⟩ := htarget
  cases hrenamed with
  | unchanged hentry => exact .inl ⟨rfl, hentry.2⟩
  | moved hentry hlookup hbelow hmove =>
    have havoid := hholds.avoids_of_movesBelowItself hnode hobject htarget htype
      (fun fa hfa => absurd hfa (not_mem_none fa)) hbelow
    obtain ⟨moved, hnodes, hmoved, -⟩ := hholds.moveEntry hnode hobject htarget htype
      (lookup_enoent_entry hlookup) havoid hsame hdd hmove
    exact .inr ⟨hierarchy, moved, hnode, .inl rfl, hnodes, hmoved⟩
  | replaced hentry hlookup hsameType hempty hbelow hremove hmove =>
    rename_i dfattr removed
    obtain ⟨left, hvacated, hsubset⟩ := hspec _ _ hremove
    have hnodeLeft : node ∈ left.nodes := by
      refine hvacated.kept node hnode fun hplace => hentry ?_
      exact ⟨(congrArg Prod.fst hplace).symm, (congrArg Prod.snd hplace).symm⟩
    have havoid := hholds.avoids_of_vacated hnode hobject htarget htype hvacated hnodeLeft
      hsubset hlookup hbelow
    obtain ⟨targetLeft, htargetLeft, htargetId, htargetType⟩ := hvacated.target
    rw [← htargetId] at hvacated hsame hdd hmove havoid ⊢
    obtain ⟨moved, hnodes, hmoved, -⟩ := hvacated.holds.moveEntry hnodeLeft hobject htargetLeft
      htargetType hvacated.free havoid hsame hdd hmove
    exact .inr ⟨left, moved, hnodeLeft, .inr ⟨_, removed, htargetId ▸ hremove, hvacated⟩,
      hnodes, hmoved⟩

end Holds

end Rename

/-! ## The dumpster -/

theorem decimal_ne_nil (fid : ℤ) : (toString fid).toList ≠ [] := by
  cases fid <;> simp [toString, Int.repr]

theorem slash_not_mem_decimal (fid : ℤ) : '/' ∉ (toString fid).toList := by
  have hdigits : ∀ value : ℕ, '/' ∉ Nat.toDigits 10 value := by
    intro value hmem
    have hdigit := Nat.isDigit_of_mem_toDigits (by decide) (by decide) hmem
    exact absurd hdigit (by decide)
  cases fid with
  | ofNat value => simpa [toString, Int.repr] using hdigits value
  | negSucc value => simpa [toString, Int.repr] using hdigits (value + 1)

variable {fid : ℤ}

/-- In the dumpster a file has another name. -/
theorem name_ne_of_dumpsterName {ddir : ℤ} {dname : Name} {ddfattr : Option Fattr}
    (hok : tree.renameTarget env dir (dumpsterName fname fid) euser egroup =
      some (.ok (ddir, dname, ddfattr))) : dname ≠ fname := by
  have hslash : '/' ∈ dumpsterName fname fid := by
    simp [dumpsterName, rootName]
  rw [renameTarget, if_neg (not_not.mpr hslash)] at hok
  obtain ⟨found, -, hok⟩ := map_eq_some_iff.mp hok
  have hdname :
      dname = ((dumpsterName fname fid).reverse.takeWhile fun char => char ≠ '/').reverse := by
    split at hok
    · cases hok
    · split_ifs at hok
      cases hok
      rfl
  rintro rfl
  -- the last component is the name and the id, if there is no slash in the name
  have hnoSlash : ∀ char ∈ dname.reverse, decide (char ≠ '/') = true := by
    intro char hchar
    rw [hdname, reverse_reverse] at hchar
    exact all_eq_true.mp all_takeWhile char hchar
  have hdigits : ∀ char ∈ (toString fid).toList.reverse, decide (char ≠ '/') = true := by
    intro char hchar
    refine decide_eq_true fun heq => slash_not_mem_decimal fid ?_
    rwa [heq, mem_reverse] at hchar
  have hreverse : (dumpsterName dname fid).reverse =
      ((toString fid).toList.reverse ++ dname.reverse) ++
        (rootName ++ dumpsterDir ++ rootName).reverse := by
    simp [dumpsterName]
  have hlength := congrArg length hdname
  rw [hreverse, takeWhile_append_of_pos fun char hchar =>
    (mem_append.mp hchar).elim (hdigits char) (hnoSlash char)] at hlength
  simp only [length_reverse, length_append] at hlength
  have hpos := length_pos_of_ne_nil (decimal_ne_nil fid)
  omega

namespace Holds

variable {status : Status}

variable (hholds : tree.Holds hierarchy)

include hholds

section

variable {user group mode : ℕ}
  (hmkdir : tree.mkdir env dir fname user group mode euser egroup 0 = some (status, fid, next))

include hmkdir

theorem mkdir_ok :
    next = tree ∨ ∃ added : Hierarchy,
      added.nodes = ⟨tree.fileIdSeed + 1, .dir, dir, fname⟩ :: hierarchy.nodes ∧
        next.Holds added ∧ next.fileIdSeed = tree.fileIdSeed + 1 := by
  obtain ⟨-, rfl⟩ | ⟨-, hfree, ⟨rfl, rfl, -⟩ | ⟨-, hparent, -, hattach⟩⟩ := mkdir_cases hmkdir
  · exact .inl rfl
  · exact absurd rfl (hholds.place_ne_of_getDentry hfree (entry_mem hierarchy.root))
  · have hdir : ∃ parent, tree.getFattr dir = some parent ∧ parent.type = .dir := by
      rcases hparent with rfl | hparent
      · obtain ⟨root, hroot, hobject⟩ := hholds.getFattr_of_mem hierarchy.root
        exact ⟨root, hroot, congrArg (·.2.1) hobject⟩
      · exact hparent
    obtain ⟨parent, hfattr, htype⟩ := hdir
    rw [hfattr] at hattach
    exact .inr (hholds.attachDirectory hfattr htype hfree hattach)

theorem mkdir :
    ∃ added : Hierarchy, next.Holds added ∧ hierarchy.nodes ⊆ added.nodes := by
  obtain rfl | ⟨added, hnodes, hadded, -⟩ := hholds.mkdir_ok hmkdir
  · exact ⟨hierarchy, hholds, Subset.refl _⟩
  · exact ⟨added, hadded, hnodes ▸ subset_cons_self _ _⟩

end

variable {todumpster : ℤ}

/-- The file leaves its place for one in the dumpster. -/
theorem renameToDumpster {dumpster : ℤ} (hnode : node ∈ hierarchy.nodes) (hfile : node.type = .file)
    (hrename : tree.renameToDumpster env node.parent node.name todumpster dumpster =
      some (status, next)) :
    (status ≠ .ok ∧ next = tree) ∨
      (status = .ok ∧ ∃ moved, Vacated hierarchy node.parent node.name next moved) := by
  obtain ⟨hstatus, rfl⟩ | ⟨rfl, sfattr, _, ddir, dname, ddfattr, _, hlookup, htarget, hrenamed⟩ :=
    renameToDumpster_cases hrename
  · exact .inl ⟨hstatus, rfl⟩
  have hnamed := hierarchy.named node hnode
  obtain ⟨source, hsource, hplace, hobject⟩ := hholds.node_of_lookup hlookup hnamed.1 hnamed.2
  obtain rfl := eq_of_place hsource hnode hplace
  have hne := name_ne_of_dumpsterName htarget
  obtain ⟨hdir, hsame, hdd⟩ := hholds.target_of_destination hnode (renameTarget_ok htarget)
  obtain ⟨-, hname⟩ | ⟨left, moved, -, rfl | ⟨_, _, hnone, -⟩, hnodes, hmoved⟩ :=
    hholds.renamed hnode hobject hdir hsame hdd (fun _ _ hnone => by cases hnone) hrenamed
  · exact absurd hname hne
  · refine .inr ⟨rfl, moved, vacated_of_erase hnode hmoved ?_ ?_ ?_⟩
    · rw [hnodes]
      refine forall_mem_cons.mpr ⟨.inr fun heq => hne (congrArg Prod.snd heq), ?_⟩
      exact fun other hother => .inl hother
    · exact hnodes ▸ subset_cons_self _ _
    · exact parent_ne_of_file hnode hfile source hnode
  · cases hnone

theorem moveToDumpster (hnode : node ∈ hierarchy.nodes) (hfile : node.type = .file)
    (hmove : tree.moveToDumpster env node.parent node.name todumpster = some (status, next)) :
    ∃ left, next.Holds left ∧
      (status = .ok → Vacated hierarchy node.parent node.name next left) := by
  have hrename : ∀ {start : Tree} {startHierarchy : Hierarchy} {dumpster : ℤ},
      start.Holds startHierarchy → hierarchy.nodes ⊆ startHierarchy.nodes →
      start.renameToDumpster env node.parent node.name todumpster dumpster =
        some (status, next) →
      ∃ left, next.Holds left ∧
        (status = .ok → Vacated hierarchy node.parent node.name next left) := by
    intro start startHierarchy dumpster hstart hsubset hrename
    obtain ⟨hstatus, rfl⟩ | ⟨-, moved, hvacated⟩ :=
      hstart.renameToDumpster (hsubset hnode) hfile hrename
    · exact ⟨startHierarchy, hstart, fun hok => absurd hok hstatus⟩
    · exact ⟨moved, hvacated.holds, fun _ => ⟨hvacated.holds,
        fun other hother => hvacated.kept other (hsubset hother), hvacated.target,
        hvacated.free⟩⟩
  obtain ⟨_, hmoved | ⟨_, _, _, hmkdir, hmoved⟩⟩ := moveToDumpster_cases hmove
  · exact hrename hholds (Subset.refl _) hmoved
  · obtain ⟨added, hadded, hsubset⟩ := hholds.mkdir hmkdir
    exact hrename hadded hsubset hmoved

theorem remove_call {result : ℤ}
    (hremove : tree.remove env dir fname todumpster euser egroup = some (status, result, next)) :
    ∃ left, next.Holds left ∧ (status = .ok → Vacated hierarchy dir fname next left) := by
  obtain ⟨hstatus, rfl⟩ | ⟨fa, parent, hlookup, htype, hdone⟩ := remove_cases hremove
  · exact ⟨hierarchy, hholds, fun hok => absurd hok hstatus⟩
  obtain ⟨hthis, hparent⟩ := hholds.named_of_file hlookup htype
  obtain ⟨node, hnode, hplace, hobject⟩ := hholds.node_of_lookup hlookup hthis hparent
  obtain ⟨rfl, rfl⟩ := Prod.mk.inj hplace
  have hfile : node.type = .file := (congrArg (·.2.1) hobject).symm.trans htype
  obtain ⟨-, -, hmoved⟩ | ⟨-, -, hremoved⟩ := hdone
  · exact hholds.moveToDumpster hnode hfile hmoved
  · obtain ⟨left, hnodes, hleft, -⟩ :=
      hholds.removeFile hnode hfile (congrArg Prod.fst hobject) hremoved
    exact ⟨left, hleft, fun _ => vacated_of_erase hnode hleft
      (fun other hother => .inl (hnodes ▸ hother)) (hnodes ▸ Subset.refl _)
      (parent_ne_of_file hnode hfile node hnode)⟩

theorem rename_call {result dir : ℤ} {oldname newname : Name} {overwrite : Bool}
    (hthis : oldname ≠ thisDir) (hparent : oldname ≠ parentDir)
    (hrename : tree.rename env dir oldname newname overwrite todumpster euser egroup =
      some (status, result, next)) : ∃ renamed, next.Holds renamed := by
  by_cases hstatus : status = .ok
  swap
  · obtain rfl | ⟨ddir, dname, sfattr, hremove⟩ := renameWith_error hrename hstatus
    · exact ⟨hierarchy, hholds⟩
    · split_ifs at hremove
      · obtain ⟨⟨_, removed⟩, hrmdir, heq⟩ := map_eq_some_iff.mp hremove
        cases heq
        obtain ⟨-, rfl⟩ := (rmdir_cases hrmdir).resolve_right fun hok => hstatus hok.1
        exact ⟨hierarchy, hholds⟩
      · obtain ⟨left, hleft, -⟩ := hholds.remove_call hremove
        exact ⟨left, hleft⟩
  subst hstatus
  obtain ⟨sfattr, sdfattr, ddir, dname, ddfattr, hlookup, htarget, -, hrenamed⟩ :=
    renameWith_ok hrename
  obtain ⟨node, hnode, hplace, hobject⟩ := hholds.node_of_lookup hlookup hthis hparent
  obtain ⟨rfl, rfl⟩ := Prod.mk.inj hplace
  obtain ⟨hdir, hsame, hdd⟩ := hholds.target_of_destination hnode (renameTarget_ok htarget)
  obtain ⟨rfl, -⟩ | ⟨left, moved, -, -, -, hmoved⟩ :=
    hholds.renamed hnode hobject hdir hsame hdd (by
      intro result removed hremove
      split_ifs at hremove with htype
      · obtain ⟨⟨_, _⟩, hrmdir, heq⟩ := map_eq_some_iff.mp hremove
        cases heq
        obtain ⟨left, hvacated, hsubset⟩ := hholds.rmdir_ok hrmdir
        exact ⟨left, hvacated, fun _ => hsubset⟩
      · obtain ⟨left, -, hvacated⟩ := hholds.remove_call hremove
        exact ⟨left, hvacated rfl, fun hdir => absurd hdir htype⟩) hrenamed
  · exact ⟨hierarchy, hholds⟩
  · exact ⟨moved, hmoved⟩

theorem genFileId : tree.genFileId.2.Holds hierarchy :=
  ⟨⟨hholds.dentries, hholds.objects⟩, fun node hnode =>
    (hholds.le_seed node hnode).trans (Int.le_add_one le_rfl)⟩

theorem create_call {numReplicas striperType numStripes numRecoveryStripes stripeSize result : ℤ}
    {user group mode : ℕ} {exclusive : Bool}
    (hcreate : tree.create env dir fname 0 numReplicas exclusive striperType numStripes
      numRecoveryStripes stripeSize todumpster user group mode euser egroup =
        some (status, fid, result, next)) : ∃ created, next.Holds created := by
  obtain ⟨-, rfl⟩ | ⟨parent, hparent, htype, -, hdone⟩ := create_cases hcreate
  · exact ⟨hierarchy, hholds⟩
  obtain ⟨hfree, hlink⟩ | ⟨removeStatus, dumped, removed, hremove, ⟨-, -, rfl⟩ | ⟨rfl, hlink⟩⟩ :=
    hdone
  · obtain ⟨target, htarget, rfl, hobject⟩ := hholds.exists_node_of_getFattr hparent
    have htargetType := (congrArg (·.2.1) hobject).trans htype
    obtain ⟨-, rfl⟩ | ⟨-, added, -, hadded, -⟩ :=
      hholds.createLink htarget htargetType hfree hlink
    · exact ⟨hierarchy, hholds.genFileId⟩
    · exact ⟨added, hadded⟩
  · obtain ⟨left, hleft, -⟩ := hholds.remove_call hremove
    exact ⟨left, hleft⟩
  · obtain ⟨left, hleft, hvacated⟩ := hholds.remove_call hremove
    obtain ⟨target, htarget, rfl, htargetType⟩ := (hvacated rfl).target
    obtain ⟨-, rfl⟩ | ⟨-, added, -, hadded, -⟩ :=
      hleft.createLink htarget htargetType (hvacated rfl).free hlink
    · exact ⟨left, hleft.genFileId⟩
    · exact ⟨added, hadded⟩

end Holds

end Tree

end QfsRepair.Meta
