import QfsRepair.Meta.HierarchyViews
import QfsRepair.Meta.Outcomes

/-!
# Operations on a tree that holds a hierarchy

`create`, `mkdir`, `remove`, `rmdir` and `rename` as an addition of a node, the
removal of a node and a move in the hierarchy that the tree holds.
-/

namespace QfsRepair.Meta.Tree

open List Option Hierarchy
open Relation (ReflTransGen)

variable {tree next : Tree} {env : Environment} {hierarchy : Hierarchy} {node : Node}
  {dir : ℤ} {fname : Name}

theorem fileIdSeed_del {item : Item} (hdel : tree.del item = some next) :
    next.fileIdSeed = tree.fileIdSeed := by
  rw [del_eq_some hdel]

variable {objects : List (ℤ × FileType × Option ℤ)} {object : ℤ × FileType × Option ℤ} {fa : Fattr}
  {entries : List Dentry}

theorem Shows.unlink {entry : Dentry} (hshows : tree.Shows (entry :: entries) (object :: objects))
    (hplaces : ((entry :: entries).map Dentry.place).Nodup)
    (hids : ((object :: objects).map Prod.fst).Nodup) (hfa : fa.id = object.1)
    (hunlink : tree.unlink entry.dir entry.name fa = some next) :
    next.Shows entries objects ∧ next.fileIdSeed = tree.fileIdSeed := by
  obtain ⟨unnamed, hunnamed, hdel⟩ := bind_eq_some_iff.mp hunlink
  exact ⟨(hshows.del_dentry hplaces hunnamed).del_fattr hids hfa hdel,
    (fileIdSeed_del hdel).trans (fileIdSeed_del hunnamed)⟩

namespace Holds

/-! ## Additions -/

variable (hholds : tree.Holds hierarchy)

include hholds

/-- The id that is given out next belongs to no node. -/
theorem id_ne_seed (hnode : node ∈ hierarchy.nodes) :
    node.id ≠ tree.fileIdSeed + 1 :=
  (Int.lt_add_one_of_le (hholds.le_seed node hnode)).ne

/-- A name that is free in a directory is not one of the two links. -/
theorem isNamed_of_free (hnode : node ∈ hierarchy.nodes) (htype : node.type = .dir)
    (hfree : tree.getDentry node.id fname = none) :
    fname ≠ thisDir ∧ fname ≠ parentDir := by
  have hlinks : ∀ entry ∈ node.links, entry.place ≠ (node.id, fname) := fun entry hentry =>
    hholds.place_ne_of_getDentry hfree (link_mem hnode hentry)
  constructor
  · rintro rfl
    exact hlinks _ (Node.mem_links.mpr ⟨htype, .inl rfl⟩) rfl
  · rintro rfl
    exact hlinks _ (Node.mem_links.mpr ⟨htype, .inr rfl⟩) rfl

/-- A tree that shows one more node, with the id that was next. -/
theorem add (hid : node.id = tree.fileIdSeed + 1)
    (hparent : ∃ dir ∈ hierarchy.nodes, dir.id = node.parent ∧ dir.type = .dir)
    (hfree : tree.getDentry node.parent node.name = none)
    (hshows : next.Shows (node.entries ++ hierarchy.entries)
      (node.object :: hierarchy.nodes.map Node.object))
    (hseed : next.fileIdSeed = tree.fileIdSeed + 1) :
    ∃ added : Hierarchy, added.nodes = node :: hierarchy.nodes ∧ next.Holds added ∧
      next.fileIdSeed = tree.fileIdSeed + 1 := by
  have hnamed : node.entry.IsNamed := by
    obtain ⟨dir, hdir, hin, htype⟩ := hparent
    exact hholds.isNamed_of_free hdir htype (hin ▸ hfree)
  have hplace : ∀ other ∈ hierarchy.nodes, other.place ≠ node.place := fun other hother =>
    hholds.place_ne_of_getDentry hfree (entry_mem hother)
  refine ⟨hierarchy.add node (fun other hother => hid ▸ hholds.id_ne_seed hother) hplace hnamed
    hparent, rfl, ⟨hshows, ?_⟩, hseed⟩
  rw [hseed]
  refine forall_mem_cons.mpr ⟨hid.le, fun other hother => ?_⟩
  exact (hholds.le_seed other hother).trans (Int.le_add_one le_rfl)

theorem object_of_new (type : FileType) :
    (Node.mk (tree.fileIdSeed + 1) type dir fname).object =
      (tree.fileIdSeed + 1, type, some dir) := by
  have hroot : tree.fileIdSeed + 1 ≠ rootFid := (hholds.id_ne_seed hierarchy.root).symm
  simp [Node.object, hroot]

theorem shows_genFileId :
    tree.genFileId.2.Shows hierarchy.entries (hierarchy.nodes.map Node.object) :=
  ⟨hholds.dentries, hholds.objects⟩

variable {parent : Fattr}

/-- A new directory. -/
theorem attachDirectory {user group mode : ℕ} (hparent : tree.getFattr dir = some parent)
    (htype : parent.type = .dir) (hfree : tree.getDentry dir fname = none)
    (hattach : tree.genFileId.2.attachDirectory env dir fname (tree.fileIdSeed + 1) user group
      mode (some parent) = some next) :
    ∃ added : Hierarchy,
      added.nodes = ⟨tree.fileIdSeed + 1, .dir, dir, fname⟩ :: hierarchy.nodes ∧
        next.Holds added ∧ next.fileIdSeed = tree.fileIdSeed + 1 := by
  obtain ⟨counted, hcounted, rfl⟩ := map_eq_some_iff.mp hattach
  obtain ⟨dirNode, hdirNode, hdirId, hobject⟩ := hholds.exists_node_of_getFattr hparent
  have hdirType : dirNode.type = .dir := (congrArg (·.2.1) hobject).trans htype
  have hsame := (sameNames_updateCounts hcounted).setTiers (tree.fileIdSeed + 1) parent.minSTier
    parent.maxSTier
  refine hholds.add rfl ⟨dirNode, hdirNode, hdirId, hdirType⟩ hfree ?_ hsame.fileIdSeed
  refine Shows.sameNames (Shows.perm ((((hholds.shows_genFileId.insert_dentry _).insert_fattr
    _).insert_dentry _).insert_dentry _) ?_ ?_) hsame
  · exact (reverse_perm [_, _, _]).append_right hierarchy.entries
  · rw [hholds.object_of_new, Fattr.object, Fattr.create, map_some, getFattr_id hparent]

/-- A new file. -/
theorem createLink
    {numReplicas striperType numStripes numRecoveryStripes stripeSize todumpster fid result : ℤ}
    {user group mode : ℕ} {status : Status} (hnode : node ∈ hierarchy.nodes)
    (htype : node.type = .dir) (hfree : tree.getDentry node.id fname = none)
    (hcreate : tree.createLink env node.id fname 0 numReplicas striperType numStripes
      numRecoveryStripes stripeSize todumpster user group mode parent =
        some (status, fid, result, next)) :
    (status ≠ .ok ∧ next = tree.genFileId.2) ∨ (status = .ok ∧ ∃ added : Hierarchy,
      added.nodes = ⟨tree.fileIdSeed + 1, .file, node.id, fname⟩ :: hierarchy.nodes ∧
        next.Holds added ∧ next.fileIdSeed = tree.fileIdSeed + 1) := by
  refine (createLink_cases hcreate).imp_right ?_
  rintro ⟨hstatus, -, linked, counted, hlinked, hcounted, rfl⟩
  obtain ⟨striped, hstriped, rfl⟩ := map_eq_some_iff.mp hlinked
  obtain ⟨_, _, _, _, rfl⟩ := Fattr.setStriped_eq hstriped
  have hsame := (sameNames_updateCounts hcounted).setTiers (tree.fileIdSeed + 1) parent.minSTier
    parent.maxSTier
  refine ⟨hstatus, hholds.add rfl ⟨node, hnode, rfl, htype⟩ hfree ?_ hsame.fileIdSeed⟩
  refine Shows.sameNames (Shows.perm
    ((hholds.shows_genFileId.insert_dentry _).insert_fattr _) ?_ ?_) hsame
  · exact Perm.refl _
  · rw [hholds.object_of_new]
    exact Perm.refl _

/-! ## Removals -/

variable (hnode : node ∈ hierarchy.nodes)

include hnode

/-- Nothing is in a directory that has two entries. -/
theorem parent_ne_of_emptydir (htype : node.type = .dir) (hempty : tree.emptydir node.id = true) :
    ∀ other ∈ hierarchy.nodes, other.parent ≠ node.id := by
  intro other hother hin
  have hlength : (tree.readdir node.id).length = 2 := of_decide_eq_true hempty
  have hnamed := hierarchy.named other hother
  have hthis : other.name ≠ thisDir := hnamed.1
  have hparent : other.name ≠ parentDir := hnamed.2
  have hdistinct : [other.entry, ⟨node.id, node.id, thisDir⟩,
      ⟨node.parent, node.id, parentDir⟩].Nodup := by
    have hlinks : thisDir ≠ parentDir := by decide
    simp [Node.entry, hthis, hparent, hlinks]
  have hsubset : [other.entry, ⟨node.id, node.id, thisDir⟩,
      ⟨node.parent, node.id, parentDir⟩] ⊆ tree.readdir node.id := by
    have hlink : ∀ entry ∈ node.links, entry ∈ tree.readdir node.id := fun entry hentry => by
      rw [readdir_eq_dentries, mem_filter, hholds.dentries.mem_iff]
      exact ⟨link_mem hnode hentry, decide_eq_true (Node.not_isNamed_of_mem_links hentry).1⟩
    have hentry : other.entry ∈ tree.readdir node.id := by
      rw [readdir_eq_dentries, mem_filter, hholds.dentries.mem_iff]
      exact ⟨entry_mem hother, decide_eq_true hin⟩
    simp only [cons_subset, hentry, nil_subset, and_true, true_and]
    exact ⟨hlink _ (Node.mem_links.mpr ⟨htype, .inl rfl⟩),
      hlink _ (Node.mem_links.mpr ⟨htype, .inr rfl⟩)⟩
  have hle := (subperm_of_subset hdistinct hsubset).length_le
  rw [hlength] at hle
  exact absurd hle (Nat.not_succ_le_self 2)

/-- What is left of the entries and objects when a node is taken away. -/
theorem shows_erase :
    tree.Shows (node.entries ++ (hierarchy.nodes.erase node).flatMap Node.entries)
      (node.object :: (hierarchy.nodes.erase node).map Node.object) :=
  hholds.toShows.perm (entries_perm hnode) ((perm_cons_erase hnode).map Node.object)

omit hholds in
theorem nodup_places_erase :
    ((node.entries ++ (hierarchy.nodes.erase node).flatMap Node.entries).map
      Dentry.place).Nodup :=
  ((entries_perm hnode).map Dentry.place).nodup_iff.mp nodup_places

omit hholds in
theorem nodup_ids_erase :
    ((node.object :: (hierarchy.nodes.erase node).map Node.object).map Prod.fst).Nodup :=
  (((perm_cons_erase hnode).map Node.object).map Prod.fst).nodup_iff.mp (nodup_ids hierarchy)

/-- A tree that shows one node less. -/
theorem remove (hroot : node.id ≠ rootFid)
    (hleaf : ∀ other ∈ hierarchy.nodes, other.parent ≠ node.id)
    (hshows : next.Shows ((hierarchy.nodes.erase node).flatMap Node.entries)
      ((hierarchy.nodes.erase node).map Node.object)) (hseed : next.fileIdSeed = tree.fileIdSeed) :
    ∃ removed : Hierarchy, removed.nodes = hierarchy.nodes.erase node ∧ next.Holds removed ∧
      next.fileIdSeed = tree.fileIdSeed := by
  refine ⟨hierarchy.remove node hnode hroot hleaf, rfl, ⟨hshows, fun other hother => ?_⟩, hseed⟩
  exact hseed ▸ hholds.le_seed other (mem_of_mem_erase hother)

theorem removeFile (hfile : node.type = .file) (hid : fa.id = node.id)
    (hremove : tree.removeFile node.parent node.name fa = some next) :
    ∃ removed : Hierarchy, removed.nodes = hierarchy.nodes.erase node ∧ next.Holds removed ∧
      next.fileIdSeed = tree.fileIdSeed := by
  obtain ⟨emptied, hemptied, hremove⟩ := bind_eq_some_iff.mp hremove
  obtain ⟨sized, hsized, hunlink⟩ := bind_eq_some_iff.mp hremove
  have hchunks : tree.SameNames emptied := by
    split_ifs at hemptied
    · exact sameNames_deleteChunks hemptied
    · cases hemptied
      exact SameNames.refl _
  have hsame := hchunks.trans (sameNames_setFileSize hsized)
  have hlinks : node.links = [] := by
    rw [Node.links, if_neg (by rw [hfile]; decide)]
  have hroot : node.id ≠ rootFid := by
    intro hroot
    rw [eq_root hnode hroot] at hfile
    cases hfile
  have hleaf := parent_ne_of_file hnode hfile
  have hshows := (hholds.shows_erase hnode).sameNames hsame
  have hplaces := nodup_places_erase hnode
  rw [Node.entries, hlinks] at hshows hplaces
  obtain ⟨hleft, hseed⟩ := hshows.unlink hplaces (nodup_ids_erase hnode) hid hunlink
  exact hholds.remove hnode hroot hleaf hleft (hseed.trans hsame.fileIdSeed)

theorem removeDir (htype : node.type = .dir) (hroot : node.id ≠ rootFid) (hid : fa.id = node.id)
    (hempty : tree.emptydir node.id = true)
    (hremove : tree.removeDir node.parent node.name fa = some next) :
    ∃ removed : Hierarchy, removed.nodes = hierarchy.nodes.erase node ∧ next.Holds removed ∧
      next.fileIdSeed = tree.fileIdSeed := by
  obtain ⟨sized, hsized, hremove⟩ := bind_eq_some_iff.mp hremove
  obtain ⟨withoutThis, hthis, hremove⟩ := bind_eq_some_iff.mp hremove
  obtain ⟨withoutParent, hparent, hunlink⟩ := bind_eq_some_iff.mp hremove
  have hsame := sameNames_setFileSize hsized
  have hlinks : node.links = [⟨node.id, node.id, thisDir⟩, ⟨node.parent, node.id, parentDir⟩] :=
    if_pos htype
  -- the links are deleted first
  have hperm : ∀ rest : List Dentry,
      (node.entries ++ rest).Perm (node.links ++ node.entry :: rest) := fun rest =>
    perm_middle.symm
  rw [hlinks] at hperm
  have hplaces := ((hperm _).map Dentry.place).nodup_iff.mp (nodup_places_erase hnode)
  have hshows := ((hholds.shows_erase hnode).perm (hperm _) (Perm.refl _)).sameNames hsame
  rw [hid] at hthis hparent
  have hunlinked := (hshows.del_dentry hplaces hthis).del_dentry hplaces.of_cons hparent
  obtain ⟨hleft, hseed⟩ :=
    hunlinked.unlink hplaces.of_cons.of_cons (nodup_ids_erase hnode) hid hunlink
  refine hholds.remove hnode hroot (hholds.parent_ne_of_emptydir hnode htype hempty) hleft ?_
  rw [hseed, fileIdSeed_del hparent, fileIdSeed_del hthis, hsame.fileIdSeed]

/-! ## Moves -/

section Move

variable {ddir : ℤ} {dname : Name} {sfattr : Fattr} {ddfattr : Option Fattr} {target : Node}

omit hnode hholds in
theorem ne_root_of_avoids (htarget : target ∈ hierarchy.nodes)
    (havoid : ¬ ReflTransGen (ParentIn hierarchy.nodes) target.id node.id) : node.id ≠ rootFid :=
  fun hroot => havoid (hroot ▸ hierarchy.rooted target htarget)

/-- A tree that shows a node in another place. -/
theorem move (htarget : target ∈ hierarchy.nodes) (htype : target.type = .dir)
    (hfree : tree.getDentry target.id dname = none)
    (havoid : ¬ ReflTransGen (ParentIn hierarchy.nodes) target.id node.id)
    (hshows : next.Shows
      (({ node with parent := target.id, name := dname } : Node).entries ++
        (hierarchy.nodes.erase node).flatMap Node.entries)
      (({ node with parent := target.id, name := dname } : Node).object ::
        (hierarchy.nodes.erase node).map Node.object)) (hseed : next.fileIdSeed = tree.fileIdSeed) :
    ∃ moved : Hierarchy,
      moved.nodes = { node with parent := target.id, name := dname } :: hierarchy.nodes.erase node ∧
        next.Holds moved ∧ next.fileIdSeed = tree.fileIdSeed := by
  have hplace : ∀ other ∈ hierarchy.nodes, other.place ≠ (target.id, dname) := fun other hother =>
    hholds.place_ne_of_getDentry hfree (entry_mem hother)
  refine ⟨hierarchy.move node target.id dname hnode hplace
    (hholds.isNamed_of_free htarget htype hfree) ⟨target, htarget, rfl, htype⟩ havoid, rfl,
    ⟨hshows, ?_⟩, hseed⟩
  rw [hseed]
  exact forall_mem_cons.mpr ⟨hholds.le_seed node hnode, fun other hother =>
    hholds.le_seed other (mem_of_mem_erase hother)⟩

end Move

/-! ## The check of a move -/

/-- The link `..` of a directory. -/
theorem getDentry_parentDir (htype : node.type = .dir) :
    tree.getDentry node.id parentDir = some ⟨node.parent, node.id, parentDir⟩ :=
  hholds.getDentry_of_mem (link_mem hnode (Node.mem_links.mpr ⟨htype, .inr rfl⟩))

variable {dotdot : Option Fattr}

/-- The walk to the root visits everything above `node`; it may start at an
attribute in the directory. -/
theorem avoids_of_isDescendant {src : ℤ} {fuel : ℕ} (htype : node.type = .dir)
    (hdotdot : ∀ fa ∈ dotdot, ∀ parent ∈ fa.parent, parent = node.parent ∨ parent = node.id)
    (hwalk : tree.isDescendant env src fuel node.id dotdot = some false) :
    ¬ ReflTransGen (ParentIn hierarchy.nodes) node.id src := by
  induction fuel generalizing node dotdot with
  | zero => cases hwalk
  | succ fuel ih =>
    rw [isDescendant] at hwalk
    split_ifs at hwalk with hend
    · have hne : src ≠ node.id := of_decide_eq_false (some.inj hwalk)
      have hroot : node.id = rootFid := hend.resolve_left hne
      intro hreach
      rw [hroot] at hreach hne
      exact hne (eq_root_of_reaches hreach)
    · obtain ⟨hne, -⟩ := not_or.mp hend
      -- one step of the walk goes to the directory of the node or stays
      have hstep : ∀ {parent : ℤ} {fa : Fattr}, parent = node.parent ∨ parent = node.id →
          tree.getFattr parent = some fa →
          tree.isDescendant env src fuel fa.id (some fa) = some false →
          ¬ ReflTransGen (ParentIn hierarchy.nodes) node.id src := by
        intro parent fa hparent hfattr hrest hreach
        obtain ⟨above, habove, haboveId, hobject⟩ := hholds.exists_node_of_getFattr hfattr
        have haboveType : above.type = .dir := by
          rcases hparent with hparent | hparent
          · obtain ⟨dir, hdir, hdirId, hdirType⟩ := hierarchy.parents node hnode
            rwa [eq_of_id habove hdir (haboveId.trans (hparent.trans hdirId.symm))]
          · rwa [eq_of_id habove hnode (haboveId.trans hparent)]
        have hnext : ∀ other ∈ some fa, ∀ parent ∈ other.parent,
            parent = above.parent ∨ parent = above.id := by
          rintro _ ⟨⟩ parent hin
          have hpointer : (if above.id = rootFid then none else some above.parent) = fa.parent :=
            congrArg (·.2.2) hobject
          rw [hin] at hpointer
          split_ifs at hpointer
          exact .inl (some.inj hpointer).symm
        rw [getFattr_id hfattr, ← haboveId] at hrest
        refine ih habove haboveType hnext hrest ?_
        rw [haboveId]
        rcases hparent with rfl | rfl
        · exact (reaches_cases hnode hreach).resolve_left hne
        · exact hreach
      split at hwalk
      · rename_i parent hparent
        obtain ⟨start, hstart, hin⟩ := bind_eq_some_iff.mp hparent
        obtain ⟨fa, hfattr, hrest⟩ := bind_eq_some_iff.mp hwalk
        exact hstep (hdotdot start hstart parent hin) hfattr hrest
      · rw [lookup_root, hholds.getDentry_parentDir hnode htype] at hwalk
        obtain ⟨found, hfound, hrest⟩ := bind_eq_some_iff.mp hwalk
        obtain ⟨fa, hfattr, rfl⟩ := map_eq_some_iff.mp hfound
        exact hstep (.inl rfl) hfattr hrest

variable {target : Node}

/-- A move that passes the check does not lead below the node. -/
theorem avoids_of_movesBelowItself {sfattr : Fattr} (hobject : sfattr.object = node.object)
    (htarget : target ∈ hierarchy.nodes) (htype : target.type = .dir)
    (hdotdot : ∀ fa ∈ dotdot, fa.parent = some target.id)
    (hbelow : tree.movesBelowItself env sfattr target.id dotdot = some false) :
    ¬ ReflTransGen (ParentIn hierarchy.nodes) target.id node.id := by
  have hid : sfattr.id = node.id := congrArg Prod.fst hobject
  have hsourceType : sfattr.type = node.type := congrArg (·.2.1) hobject
  rw [movesBelowItself] at hbelow
  split_ifs at hbelow with hdir
  · rw [hid] at hbelow
    refine hholds.avoids_of_isDescendant htarget htype ?_ hbelow
    intro fa hfa parent hin
    rw [hdotdot fa hfa] at hin
    exact .inr (some.inj hin).symm
  · have hfile : node.type = .file := by
      rw [hsourceType] at hdir
      cases hnodeType : node.type with
      | file => rfl
      | dir => exact absurd hnodeType hdir
    exact not_reaches_file hnode hfile htarget htype

end Holds

/-- The attribute is moved below the directory `ddir`. -/
theorem Shows.moveCounts {ddir : ℤ} (hshows : tree.Shows entries (object :: objects))
    (hids : ((object :: objects).map Prod.fst).Nodup)
    (hcounts : tree.moveCounts object.1 ddir = some next) :
    next.Shows entries ((object.1, object.2.1, some ddir) :: objects) ∧
      next.fileIdSeed = tree.fileIdSeed := by
  obtain ⟨sfattr, -, hcounts⟩ := bind_eq_some_iff.mp hcounts
  obtain ⟨taken, htaken, hcounts⟩ := bind_eq_some_iff.mp hcounts
  obtain ⟨given, hgiven, rfl⟩ := map_eq_some_iff.mp hcounts
  have hbefore := sameNames_setFileSize htaken
  have hsize : given.SameNames (given.modifyFattr object.1 fun fa => { fa with
      filesize := sfattr.filesize }) := sameNames_modifyFattr fun _ => rfl
  have hafter := (sameNames_setFileSize hgiven).trans hsize
  exact ⟨((hshows.sameNames hbefore).set_parent hids).sameNames hafter,
    hafter.fileIdSeed.trans hbefore.fileIdSeed⟩

variable {target : Node}

theorem Holds.moveEntry {dname : Name} {sfattr : Fattr} {ddfattr : Option Fattr}
    (hholds : tree.Holds hierarchy) (hnode : node ∈ hierarchy.nodes)
    (hobject : sfattr.object = node.object) (htarget : target ∈ hierarchy.nodes)
    (htype : target.type = .dir) (hfree : tree.getDentry target.id dname = none)
    (havoid : ¬ ReflTransGen (ParentIn hierarchy.nodes) target.id node.id)
    (hsame : ddfattr = none → target.id = node.parent) (hdd : ∀ fa ∈ ddfattr, fa.id = target.id)
    (hmove : tree.moveEntry node.parent node.name sfattr target.id dname ddfattr = some next) :
    ∃ moved : Hierarchy,
      moved.nodes = { node with parent := target.id, name := dname } :: hierarchy.nodes.erase node ∧
        next.Holds moved ∧ next.fileIdSeed = tree.fileIdSeed := by
  have hid : sfattr.id = node.id := congrArg Prod.fst hobject
  have hsourceType : sfattr.type = node.type := congrArg (·.2.1) hobject
  have hroot := ne_root_of_avoids htarget havoid
  have hshows := hholds.shows_erase hnode
  have hplaces := nodup_places_erase hnode
  have hids := nodup_ids_erase hnode
  have hmoved : ({ node with parent := target.id, name := dname } : Node).object =
      (node.id, node.type, some target.id) := by
    rw [Node.object, if_neg hroot]
  obtain ⟨rfl, deleted, hdeleted, rfl⟩ | ⟨dd, deleted, rfl, hdir, hdeleted, hcounted⟩ |
    ⟨dd, unlinked, deleted, counted, rfl, hdir, hunlinked, hdeleted, hcounted, rfl⟩ :=
    moveEntry_cases hmove
  · have hseed : deleted.fileIdSeed = tree.fileIdSeed := fileIdSeed_del hdeleted
    refine hholds.move hnode htarget htype hfree havoid ?_ hseed
    rw [hid, hsame rfl]
    exact (hshows.del_dentry hplaces hdeleted).insert_dentry _
  · rw [hsourceType] at hdir
    have hlinks : ∀ parent name, ({ node with parent, name } : Node).links = [] :=
      fun _ _ => if_neg hdir
    have hdeletedSeed : deleted.fileIdSeed = tree.fileIdSeed := fileIdSeed_del hdeleted
    rw [hdd dd rfl, hid] at hcounted
    rw [Node.entries, hlinks] at hshows hplaces
    obtain ⟨hdone, hseed⟩ := ((hshows.del_dentry hplaces hdeleted).insert_dentry
      ⟨node.id, target.id, dname⟩).moveCounts hids hcounted
    refine hholds.move hnode htarget htype hfree havoid ?_ (hseed.trans hdeletedSeed)
    rw [hmoved, Node.entries, hlinks]
    exact hdone
  · rw [hsourceType] at hdir
    have hlinks : ∀ parent name, ({ node with parent, name } : Node).links =
        [⟨node.id, node.id, thisDir⟩, ⟨parent, node.id, parentDir⟩] := fun _ _ => if_pos hdir
    have hdeletedSeed : deleted.fileIdSeed = tree.fileIdSeed :=
      (fileIdSeed_del hdeleted).trans (fileIdSeed_del hunlinked)
    rw [hdd dd rfl, hid] at hcounted
    rw [hid] at hunlinked
    -- the link to the old directory goes first and the link to the new one comes last
    have hperm : ∀ first second third : Dentry, ∀ rest : List Dentry,
        ([first, second, third] ++ rest).Perm (third :: first :: second :: rest) :=
      fun first second third rest => (perm_append_comm : ([first, second] ++ [third]).Perm
        _).append_right rest
    rw [Node.entries, hlinks] at hshows hplaces
    have hplaces := ((hperm _ _ _ _).map Dentry.place).nodup_iff.mp hplaces
    have hunnamed := ((hshows.perm (hperm _ _ _ _) (Perm.refl _)).del_dentry hplaces
      hunlinked).del_dentry hplaces.of_cons hdeleted
    obtain ⟨hdone, hseed⟩ :=
      (hunnamed.insert_dentry ⟨node.id, target.id, dname⟩).moveCounts hids hcounted
    refine hholds.move hnode htarget htype hfree havoid ?_ (hseed.trans hdeletedSeed)
    rw [hmoved, Node.entries, hlinks, hid]
    exact (hdone.insert_dentry _).perm (hperm _ _ _ _).symm (Perm.refl _)

end QfsRepair.Meta.Tree
