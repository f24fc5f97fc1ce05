import QfsRepair.Meta.AccountSteps

/-!
# Sizes of directories from scratch

`recomputeDirSize`, the traversal that sets the size and the counts of every
directory from what is below it.  On a tree that holds a hierarchy it visits
every directory once, and where the accounts are balanced it finds the numbers
that are there.
-/

namespace QfsRepair.Meta

open List Fattr Hierarchy
open Relation (ReflTransGen)
open Option hiding map_map

/-! ## The traversal -/

/-- The attribute of a directory after one of its entries is counted. -/
def Fattr.collect (fa dirattr : Fattr) : Fattr :=
  if fa.type = .dir then
    { dirattr with
      filesize := dirattr.filesize + fa.filesize
      mtime := max dirattr.mtime fa.mtime
      subcount2 := dirattr.dirCount + (fa.dirCount + 1)
      subcount1 := dirattr.fileCount + fa.fileCount }
  else
    { dirattr with
      filesize := dirattr.filesize + fa.getFileSize
      mtime := max dirattr.mtime fa.mtime
      subcount1 := dirattr.fileCount + 1 }

/-- The entries that the traversal passes over. -/
def Dentry.IsSkipped (dir : ℤ) (entry : Dentry) : Prop :=
  entry.id = dir ∨ entry.name = Tree.thisDir ∨ entry.name = Tree.parentDir

instance (dir : ℤ) (entry : Dentry) : Decidable (entry.IsSkipped dir) :=
  inferInstanceAs (Decidable (_ ∨ _ ∨ _))

namespace Tree

/-- The body of the loop of `recomputeDirSize` over the entries of `dir`;
`recurse` is the call for a directory in it. -/
def recomputeEntry (recurse : Tree → ℤ → Option Tree) (dir : ℤ) (tree : Tree) (entry : Dentry) :
    Option Tree :=
  (tree.getFattr dir).bind fun dirattr =>
  if entry.IsSkipped dir then
    if entry.id = dir ∨ dirattr.parent = some entry.id ∨
        (dirattr.parent.isSome ∧ tree.getFattr entry.id = none) then some tree
    else none
  else
    match tree.getFattr entry.id with
    | none => some tree
    | some fa =>
      if fa.parent.any fun parent => parent ≠ dir then none
      else
        let tree :=
          if fa.parent = none then
            tree.modifyFattr entry.id fun fa => { fa with parent := some dir }
          else tree
        (if fa.type = .dir then recurse tree entry.id else some tree).bind fun tree =>
          (tree.getFattr entry.id).map fun fa => tree.modifyFattr dir fa.collect

def recomputeEntries (recurse : Tree → ℤ → Option Tree) (dir : ℤ) :
    Tree → List Dentry → Option Tree
  | tree, [] => some tree
  | tree, entry :: entries =>
    (recomputeEntry recurse dir tree entry).bind fun tree =>
      recomputeEntries recurse dir tree entries

/-- `recomputeDirSize` of a directory. -/
def recomputeDir : ℕ → Tree → ℤ → Option Tree
  | 0, _, _ => none
  | fuel + 1, tree, dir =>
    recomputeEntries (recomputeDir fuel) dir
      (tree.modifyFattr dir fun fa => { fa with filesize := 0, subcount1 := 0, subcount2 := 0 })
      (tree.readdir dir)

/-- `recomputeDirSize`; it is deeper than there are leaves only in a cycle. -/
def recomputeDirSize (tree : Tree) : Option Tree :=
  (tree.lookup quiet rootFid rootName userRoot groupRoot).bind fun
    | .error _ => some tree
    | .ok fa => recomputeDir (tree.leaves.length + 1) tree fa.id

end Tree

/-! ## Trees with the same sizes -/

namespace Fattr

/-- What an attribute says of the hierarchy and of sizes. -/
def account (fa : Fattr) : (ℤ × FileType × Option ℤ) × Usage :=
  (fa.object, fa.filesize, fa.subcount1, fa.subcount2)

def setUsage (usage : Usage) (fa : Fattr) : Fattr :=
  { fa with filesize := usage.1, subcount1 := usage.2.1, subcount2 := usage.2.2 }

theorem setUsage_id (usage : Usage) (fa : Fattr) : (fa.setUsage usage).id = fa.id := rfl

theorem collect_id (fa dirattr : Fattr) : (fa.collect dirattr).id = dirattr.id := by
  rw [collect]
  split_ifs <;> rfl

theorem collect_object (fa dirattr : Fattr) : (fa.collect dirattr).object = dirattr.object := by
  rw [collect]
  split_ifs <;> rfl

theorem weight_eq_of_account {fa other : Fattr} (haccount : fa.account = other.account) :
    fa.weight = other.weight := by
  simp only [account, object, Prod.mk.injEq] at haccount
  obtain ⟨⟨-, htype, -⟩, hsize, hfiles, hdirs⟩ := haccount
  simp only [weight, getFileSize, fileCount, dirCount, htype, hsize, hfiles, hdirs]

theorem stored_eq_of_account {fa other : Fattr} (haccount : fa.account = other.account) :
    fa.stored = other.stored := by
  simp only [account, object, Prod.mk.injEq] at haccount
  obtain ⟨⟨-, htype, -⟩, hsize, hfiles, hdirs⟩ := haccount
  simp only [stored, fileCount, dirCount, htype, hsize, hfiles, hdirs]

theorem account_collect {fa dirattr other : Fattr} {usage : Usage}
    (haccount : dirattr.account = (other.setUsage usage).account) :
    (fa.collect dirattr).account = (other.setUsage (usage + fa.weight)).account := by
  simp only [account, object, setUsage, Prod.mk.injEq] at haccount
  obtain ⟨⟨hid, htype, hparent⟩, hsize, hfiles, hdirs⟩ := haccount
  by_cases hdir : fa.type = .dir <;>
    simp [collect, weight, account, object, setUsage, hdir, hid, htype, hparent, hsize, hfiles,
      hdirs, fileCount, dirCount]

end Fattr

namespace Tree

variable {tree next last : Tree} {hierarchy : Hierarchy} {fid dir : ℤ} {fa : Fattr} {node : Node}

/-- A tree with the same entries and the same sizes and counts. -/
structure SameSizes (tree next : Tree) : Prop extends tree.SameNames next where
  accounts : ∀ fid, (next.getFattr fid).map Fattr.account = (tree.getFattr fid).map Fattr.account

theorem SameSizes.refl (tree : Tree) : tree.SameSizes tree := ⟨SameNames.refl _, fun _ => rfl⟩

theorem SameSizes.trans (hfirst : tree.SameSizes next) (hsecond : next.SameSizes last) :
    tree.SameSizes last :=
  ⟨hfirst.toSameNames.trans hsecond.toSameNames, fun fid =>
    (hsecond.accounts fid).trans (hfirst.accounts fid)⟩

theorem SameSizes.exists_fattr (hsame : tree.SameSizes next)
    (hfattr : tree.getFattr fid = some fa) :
    ∃ other, next.getFattr fid = some other ∧ other.account = fa.account := by
  have haccount := hsame.accounts fid
  rw [hfattr] at haccount
  exact map_eq_some_iff.mp haccount

theorem SameSizes.elim_eq (hsame : tree.SameSizes next) {size : Fattr → Usage}
    (hsize : ∀ {fa other : Fattr}, fa.account = other.account → size fa = size other) (fid : ℤ) :
    (next.getFattr fid).elim 0 size = (tree.getFattr fid).elim 0 size := by
  have haccount := hsame.accounts fid
  cases hfattr : tree.getFattr fid with
  | none =>
    rw [hfattr, map_none, map_eq_none_iff] at haccount
    rw [haccount]
  | some fa =>
    obtain ⟨other, hother, heq⟩ := hsame.exists_fattr hfattr
    rw [hother]
    exact hsize heq

/-- What an attribute adds to its directory; nothing if there is none. -/
def weightOf (tree : Tree) (fid : ℤ) : Usage := (tree.getFattr fid).elim 0 Fattr.weight

theorem SameSizes.weightOf (hsame : tree.SameSizes next) (fid : ℤ) :
    next.weightOf fid = tree.weightOf fid :=
  hsame.elim_eq weight_eq_of_account fid

/-- The content of a directory depends on the objects and their weights only. -/
theorem contained_eq_objects (hids : tree.fattrIds.Nodup) :
    tree.contained dir = (tree.objects.map fun object =>
      if object.2.2 = some dir then tree.weightOf object.1 else 0).sum := by
  have hobjects : tree.objects = tree.fattrs.map Fattr.object := by
    rw [fattrs, map_filterMap]
    apply filterMap_congr
    rintro (_ | _ | _) - <;> rfl
  rw [contained, hobjects, map_map]
  refine congrArg sum (map_congr_left fun fa hfa => ?_)
  have hfattr : tree.getFattr fa.id = some fa := by
    obtain ⟨item, hitem, hvalue⟩ := mem_filterMap.mp hfa
    cases item with
    | fattr _ =>
      cases hvalue
      exact getFattr_of_mem hids hitem
    | _ => cases hvalue
  rw [Graph.share, Function.comp_apply, Fattr.object, weightOf, hfattr, elim_some]

theorem SameSizes.imbalance (hsame : tree.SameSizes next) (hids : tree.fattrIds.Nodup) :
    next.imbalance dir = tree.imbalance dir := by
  have hstored := hsame.elim_eq stored_eq_of_account dir
  rw [Tree.imbalance, Tree.imbalance, hstored, contained_eq_objects (hsame.ids hids),
    contained_eq_objects hids, hsame.objects]
  simp only [hsame.weightOf]

/-! ## Entries and weights -/

/-- What an entry of a directory adds to it. -/
def entryWeight (tree : Tree) (dir : ℤ) (entry : Dentry) : Usage :=
  if entry.IsSkipped dir then 0 else tree.weightOf entry.id

/-- What a node adds to a directory. -/
def nodeWeight (tree : Tree) (dir : ℤ) (node : Node) : Usage :=
  if node.id ≠ rootFid ∧ node.parent = dir then tree.weightOf node.id else 0

theorem sum_entries_node (hnode : node ∈ hierarchy.nodes) :
    ((node.entries.filter fun entry => entry.dir = dir).map (tree.entryWeight dir)).sum =
      tree.nodeWeight dir node := by
  have hlinks : ((node.links.filter fun entry => entry.dir = dir).map
      (tree.entryWeight dir)).sum = 0 := by
    apply sum_eq_zero
    intro value hvalue
    obtain ⟨entry, hentry, rfl⟩ := mem_map.mp hvalue
    have hlink := (Node.not_isNamed_of_mem_links (mem_of_mem_filter hentry)).2
    refine if_pos (.inr ?_)
    by_contra hnamed
    exact hlink (not_or.mp hnamed)
  have hnamed := hierarchy.named node hnode
  rw [Node.entries, filter_cons, nodeWeight]
  by_cases hdir : node.parent = dir
  · have hself : decide (node.entry.dir = dir) = true := decide_eq_true hdir
    rw [if_pos hself, map_cons, sum_cons, hlinks, add_zero, entryWeight]
    by_cases hroot : node.id = rootFid
    · have hskipped : node.entry.IsSkipped dir := by
        refine .inl ?_
        rw [← hdir, eq_root hnode hroot]
        rfl
      rw [if_pos hskipped, if_neg fun hand => hand.1 hroot]
    · have hcounted : ¬ node.entry.IsSkipped dir := by
        rintro (hid | hthis | hparent)
        · refine not_reaches_of_parent hnode hroot ?_
          rw [show node.id = node.parent from hid.trans hdir.symm]
        · exact hnamed.1 hthis
        · exact hnamed.2 hparent
      rw [if_neg hcounted, if_pos ⟨hroot, hdir⟩]
      rfl
  · have hself : ¬ decide (node.entry.dir = dir) = true := fun h => hdir (of_decide_eq_true h)
    rw [if_neg hself, hlinks, if_neg fun hand => hdir hand.2]

/-- The entries of a directory add up to what is in it. -/
theorem sum_entries (hholds : tree.Holds hierarchy) :
    ((tree.readdir dir).map (tree.entryWeight dir)).sum = tree.contained dir := by
  have hentries : ((tree.readdir dir).map (tree.entryWeight dir)).sum =
      (hierarchy.nodes.map (tree.nodeWeight dir)).sum := by
    rw [readdir_eq_dentries, ((hholds.dentries.filter _).map _).sum_eq]
    have hnodes : ∀ nodes : List Node, nodes ⊆ hierarchy.nodes →
        (((nodes.flatMap Node.entries).filter fun entry => entry.dir = dir).map
          (tree.entryWeight dir)).sum = (nodes.map (tree.nodeWeight dir)).sum := by
      intro nodes hsubset
      induction nodes with
      | nil => rfl
      | cons node nodes ih =>
        obtain ⟨hnode, hrest⟩ := cons_subset.mp hsubset
        rw [flatMap_cons, filter_append, map_append, sum_append,
          sum_entries_node hnode, ih hrest, map_cons, sum_cons]
    exact hnodes _ (Subset.refl _)
  have hobjects : tree.contained dir = (hierarchy.nodes.map (tree.nodeWeight dir)).sum := by
    rw [contained_eq_objects hholds.fattrIds_nodup, (hholds.objects.map _).sum_eq, map_map]
    refine congrArg sum (map_congr_left fun node hnode => ?_)
    rw [Function.comp_apply, nodeWeight]
    by_cases hroot : node.id = rootFid
    · have hnone : node.object.2.2 = none := if_pos hroot
      rw [hnone, if_neg (some_ne_none dir).symm, if_neg fun hand => hand.1 hroot]
    · have hsome : node.object.2.2 = some node.parent := if_neg hroot
      rw [hsome, if_congr some_inj rfl rfl]
      refine if_congr ?_ rfl rfl
      exact (and_iff_right hroot).symm
  rw [hentries, hobjects]

/-! ## One entry -/

section Loop

variable {usage : Usage} {current : Tree} {recurse : Tree → ℤ → Option Tree} {entry : Dentry}

theorem sameNames_setUsage : tree.SameNames (tree.modifyFattr fid (Fattr.setUsage usage)) :=
  sameNames_modifyFattr fun _ => rfl

/-- An attribute is counted in its directory. -/
theorem SameSizes.collect (hsame : (tree.modifyFattr dir (Fattr.setUsage usage)).SameSizes current)
    (fa : Fattr) : (tree.modifyFattr dir (Fattr.setUsage (usage + fa.weight))).SameSizes
      (current.modifyFattr dir fa.collect) := by
  have hstart : tree.SameNames current := sameNames_setUsage.trans hsame.toSameNames
  have hnames : tree.SameNames (current.modifyFattr dir fa.collect) :=
    hstart.trans (sameNames_modifyFattr fa.collect_object)
  refine ⟨⟨hnames.dentries.trans sameNames_setUsage.dentries.symm,
    hnames.objects.trans sameNames_setUsage.objects.symm,
    hnames.fileIdSeed.trans sameNames_setUsage.fileIdSeed.symm⟩, fun fid => ?_⟩
  have haccount := hsame.accounts fid
  rw [getFattr_modifyFattr fa.collect_id, getFattr_modifyFattr (setUsage_id _)]
  rw [getFattr_modifyFattr (setUsage_id _)] at haccount
  by_cases hfid : fid = dir
  · rw [if_pos hfid] at haccount ⊢
    rw [if_pos hfid]
    cases hfound : tree.getFattr fid with
    | none =>
      rw [hfound] at haccount
      rw [map_eq_none_iff.mp haccount]
      rfl
    | some other =>
      rw [hfound] at haccount
      obtain ⟨dirattr, hdirattr, heq⟩ := map_eq_some_iff.mp haccount
      rw [hdirattr]
      exact congrArg some (account_collect heq)
  · rw [if_neg hfid] at haccount ⊢
    rw [if_neg hfid]
    exact haccount

/-- The links of a directory lead to it and to its parent. -/
theorem recomputeEntry_skipped (hholds : current.Holds hierarchy) (hnode : node ∈ hierarchy.nodes)
    (hentry : entry ∈ hierarchy.entries) (hdir : entry.dir = node.id)
    (hskipped : entry.IsSkipped node.id) :
    recomputeEntry recurse node.id current entry = some current := by
  obtain ⟨dirattr, hdirattr, hobject⟩ := hholds.getFattr_of_mem hnode
  rw [recomputeEntry, hdirattr, bind_some, if_pos hskipped]
  refine if_pos ?_
  rcases hskipped with hid | hlink
  · exact .inl hid
  · have hnot : ¬ entry.IsNamed := fun hnamed => hlink.elim hnamed.1 hnamed.2
    obtain ⟨other, hother, hmem⟩ := exists_node_of_link hentry hnot
    obtain ⟨-, rfl | rfl⟩ := Node.mem_links.mp hmem
    · exact .inl hdir
    · obtain rfl := eq_of_id hother hnode hdir
      by_cases hroot : other.id = rootFid
      · left
        rw [eq_root hnode hroot]
        rfl
      · refine .inr (.inl ?_)
        exact (congrArg (·.2.2) hobject).trans (if_neg hroot)

/-- A file or directory is counted in the directory that it is in. -/
theorem recomputeEntry_counted (hholds : tree.Holds hierarchy) (hnode : node ∈ hierarchy.nodes)
    (hroot : node.id ≠ rootFid)
    (hcurrent : (tree.modifyFattr node.parent (Fattr.setUsage usage)).SameSizes current)
    (hrecurse : node.type = .dir → ∃ next, recurse current node.id = some next ∧
      current.SameSizes next) :
    ∃ next, recomputeEntry recurse node.parent current node.entry = some next ∧
      (tree.modifyFattr node.parent
        (Fattr.setUsage (usage + tree.weightOf node.id))).SameSizes next := by
  have hholdsCurrent : current.Holds hierarchy :=
    (hholds.sameNames sameNames_setUsage).sameNames hcurrent.toSameNames
  obtain ⟨dirNode, hdirNode, hdirId, -⟩ := hierarchy.parents node hnode
  obtain ⟨dirattr, hdirattr, -⟩ := hholdsCurrent.getFattr_of_mem hdirNode
  obtain ⟨fa, hfattr, hobject⟩ := hholdsCurrent.getFattr_of_mem hnode
  have hparent : fa.parent = some node.parent :=
    (congrArg (·.2.2) hobject).trans (if_neg hroot)
  have htype : fa.type = node.type := congrArg (·.2.1) hobject
  have hne : node.id ≠ node.parent := by
    intro hself
    exact not_reaches_of_parent hnode hroot (hself ▸ ReflTransGen.refl)
  have hcounted : ¬ node.entry.IsSkipped node.parent := by
    have hnamed := hierarchy.named node hnode
    rintro (hid | hthis | hlink)
    · exact hne hid
    · exact hnamed.1 hthis
    · exact hnamed.2 hlink
  obtain ⟨visited, hvisited, hsame⟩ : ∃ visited,
      (if fa.type = .dir then recurse current node.id else some current) = some visited ∧
        current.SameSizes visited := by
    by_cases hdir : node.type = .dir
    · rw [if_pos (htype.trans hdir)]
      exact hrecurse hdir
    · rw [if_neg (htype ▸ hdir)]
      exact ⟨current, rfl, SameSizes.refl _⟩
  obtain ⟨found, hfound, -⟩ := hsame.exists_fattr hfattr
  refine ⟨visited.modifyFattr node.parent found.collect, ?_, ?_⟩
  · have hplace : (fa.parent.any fun parent => decide (parent ≠ node.parent)) = false := by
      simp [hparent]
    have hsome : ¬ fa.parent = none := by
      rw [hparent]
      exact some_ne_none _
    have hvisit : recomputeEntry recurse node.parent current node.entry =
        (if fa.type = .dir then recurse current node.id else some current).bind fun tree =>
          (tree.getFattr node.id).map fun fa => tree.modifyFattr node.parent fa.collect := by
      rw [recomputeEntry, ← hdirId, hdirattr, bind_some, hdirId, if_neg hcounted]
      simp only [Node.entry, hfattr, hplace, hsome, Bool.false_eq_true, if_false]
    rw [hvisit, hvisited, bind_some, hfound, map_some]
  · have hweight : tree.weightOf node.id = found.weight := by
      have hvisitedWeight := (hcurrent.trans hsame).weightOf node.id
      rw [weightOf, weightOf, hfound, getFattr_modifyFattr (setUsage_id _), if_neg hne]
        at hvisitedWeight
      exact hvisitedWeight.symm
    rw [hweight]
    exact (hcurrent.trans hsame).collect found

end Loop

/-! ## Whole traversals -/

/-- The objects from which `dir` is reached. -/
noncomputable def below (hierarchy : Hierarchy) (dir : ℤ) : Finset ℤ :=
  open Classical in
  (hierarchy.nodes.map Node.id).toFinset.filter fun fid =>
    ReflTransGen (ParentIn hierarchy.nodes) fid dir

theorem mem_below {fid : ℤ} : fid ∈ below hierarchy dir ↔
    (∃ node ∈ hierarchy.nodes, node.id = fid) ∧
      ReflTransGen (ParentIn hierarchy.nodes) fid dir := by
  simp [below]

/-- Less is below a directory than below its parent. -/
theorem card_below_lt (hnode : node ∈ hierarchy.nodes) (hroot : node.id ≠ rootFid) :
    (below hierarchy node.id).card < (below hierarchy node.parent).card := by
  apply Finset.card_lt_card
  refine ssubset_iff_subset_ne.mpr ⟨fun fid hfid => ?_, fun heq => ?_⟩
  · obtain ⟨hmem, hreach⟩ := mem_below.mp hfid
    exact mem_below.mpr ⟨hmem, hreach.tail (parentIn_of_mem hnode)⟩
  · obtain ⟨dirNode, hdirNode, hid, -⟩ := hierarchy.parents node hnode
    have hself : node.parent ∈ below hierarchy node.parent :=
      mem_below.mpr ⟨⟨dirNode, hdirNode, hid⟩, ReflTransGen.refl⟩
    rw [← heq] at hself
    exact not_reaches_of_parent hnode hroot (mem_below.mp hself).2

theorem recomputeEntries_of {recurse : Tree → ℤ → Option Tree} (hholds : tree.Holds hierarchy)
    (hnode : node ∈ hierarchy.nodes)
    (hrecurse : ∀ child ∈ hierarchy.nodes, child.id ≠ rootFid → child.parent = node.id →
      child.type = .dir → ∀ usage current,
      (tree.modifyFattr node.id (Fattr.setUsage usage)).SameSizes current →
      ∃ next, recurse current child.id = some next ∧ current.SameSizes next) (entries : List Dentry)
    (hentries : ∀ entry ∈ entries, entry ∈ hierarchy.entries ∧ entry.dir = node.id) {usage : Usage}
    {current : Tree}
    (hcurrent : (tree.modifyFattr node.id (Fattr.setUsage usage)).SameSizes current) :
    ∃ next, recomputeEntries recurse node.id current entries = some next ∧
      (tree.modifyFattr node.id (Fattr.setUsage
        (usage + (entries.map (tree.entryWeight node.id)).sum))).SameSizes next := by
  induction entries generalizing usage current with
  | nil =>
    refine ⟨current, rfl, ?_⟩
    rw [map_nil, sum_nil, add_zero]
    exact hcurrent
  | cons entry entries ih =>
    obtain ⟨⟨hentry, hdir⟩, hrest⟩ := forall_mem_cons.mp hentries
    obtain ⟨visited, hvisited, hsame⟩ : ∃ visited,
        recomputeEntry recurse node.id current entry = some visited ∧
          (tree.modifyFattr node.id (Fattr.setUsage
            (usage + tree.entryWeight node.id entry))).SameSizes visited := by
      by_cases hskipped : entry.IsSkipped node.id
      · have hholdsCurrent : current.Holds hierarchy :=
          (hholds.sameNames sameNames_setUsage).sameNames hcurrent.toSameNames
        refine ⟨current, recomputeEntry_skipped hholdsCurrent hnode hentry hdir hskipped, ?_⟩
        rw [entryWeight, if_pos hskipped, add_zero]
        exact hcurrent
      · obtain ⟨hid, hnamed⟩ := not_or.mp hskipped
        obtain ⟨child, hchild, rfl⟩ :=
          exists_node_of_isNamed hentry (not_or.mp hnamed)
        have hparent : child.parent = node.id := hdir
        have hroot : child.id ≠ rootFid := by
          intro hroot
          rw [eq_root hchild hroot] at hparent hid
          exact hid hparent
        rw [entryWeight, if_neg hskipped]
        rw [← hparent] at hcurrent hrecurse ⊢
        exact recomputeEntry_counted hholds hchild hroot hcurrent fun htype =>
          hrecurse child hchild hroot rfl htype usage current hcurrent
    obtain ⟨next, hnext, hdone⟩ := ih hrest hsame
    refine ⟨next, ?_, ?_⟩
    · rw [recomputeEntries, hvisited, bind_some, hnext]
    · rw [map_cons, sum_cons, ← add_assoc]
      exact hdone

/-- Where everything below a directory is balanced, the traversal finds the
sizes that are there. -/
theorem recomputeDir_of {fuel : ℕ} (hholds : tree.Holds hierarchy) (hnode : node ∈ hierarchy.nodes)
    (htype : node.type = .dir)
    (hbalanced : ∀ fid, ReflTransGen (ParentIn hierarchy.nodes) fid node.id →
      tree.imbalance fid = 0) (hfuel : (below hierarchy node.id).card ≤ fuel) :
    ∃ next, recomputeDir fuel tree node.id = some next ∧ tree.SameSizes next := by
  induction fuel generalizing tree node with
  | zero =>
    have hself : node.id ∈ below hierarchy node.id :=
      mem_below.mpr ⟨⟨node, hnode, rfl⟩, ReflTransGen.refl⟩
    exact absurd (Finset.card_pos.mpr ⟨node.id, hself⟩) (not_lt.mpr hfuel)
  | succ fuel ih =>
    obtain ⟨dirattr, hdirattr, hobject⟩ := hholds.getFattr_of_mem hnode
    have hids := hholds.fattrIds_nodup
    have hrecurse : ∀ child ∈ hierarchy.nodes, child.id ≠ rootFid → child.parent = node.id →
        child.type = .dir → ∀ usage current,
        (tree.modifyFattr node.id (Fattr.setUsage usage)).SameSizes current →
        ∃ next, recomputeDir fuel current child.id = some next ∧ current.SameSizes next := by
      intro child hchild hroot hparent hdir usage current hcurrent
      have hcard := card_below_lt hchild hroot
      rw [hparent] at hcard
      have hidsUsage : (tree.modifyFattr node.id (Fattr.setUsage usage)).fattrIds.Nodup := by
        rw [fattrIds_modifyFattr (setUsage_id usage)]
        exact hids
      refine ih ((hholds.sameNames sameNames_setUsage).sameNames hcurrent.toSameNames) hchild
        hdir (fun fid hreach => ?_) (by omega)
      -- what is below the child is neither the directory nor above it
      have havoid : ¬ ReflTransGen (ParentIn hierarchy.nodes) node.id child.id :=
        hparent ▸ not_reaches_of_parent hchild hroot
      have hself : fid ≠ node.id := by
        rintro rfl
        exact havoid hreach
      have habove : ¬ dirattr.parent = some fid := by
        intro hpointer
        have hup : (if node.id = rootFid then none else some node.parent) = some fid :=
          (congrArg (·.2.2) hobject).symm.trans hpointer
        split_ifs at hup
        obtain rfl := some.inj hup
        exact havoid (hreach.head (parentIn_of_mem hnode))
      have hshare : ∀ usage, Graph.share Fattr.parent Fattr.weight fid
          (dirattr.setUsage usage) = 0 := fun _ => if_neg habove
      have hshareOld : Graph.share Fattr.parent Fattr.weight fid dirattr = 0 := if_neg habove
      rw [hcurrent.imbalance hidsUsage, imbalance_modifyFattr hids hdirattr (setUsage_id usage),
        if_neg hself, hshare, hshareOld, sub_self, sub_zero, add_zero]
      exact hbalanced fid (hparent ▸ hreach.tail (parentIn_of_mem hchild))
    obtain ⟨next, hnext, hsame⟩ := recomputeEntries_of hholds hnode hrecurse
      (tree.readdir node.id) (by
        intro entry hentry
        rw [readdir_eq_dentries, mem_filter] at hentry
        exact ⟨hholds.dentries.mem_iff.mp hentry.1, of_decide_eq_true hentry.2⟩)
      (SameSizes.refl (tree.modifyFattr node.id (Fattr.setUsage 0)))
    refine ⟨next, hnext, ?_⟩
    have hstored : tree.contained node.id = dirattr.stored := by
      have hbalance := hbalanced node.id ReflTransGen.refl
      rw [imbalance, hdirattr, sub_eq_zero] at hbalance
      exact hbalance.symm
    have hdir : dirattr.type = .dir :=
      (congrArg (·.2.1) hobject).trans htype
    rw [sum_entries hholds, zero_add, hstored] at hsame
    have hkept : tree.modifyFattr node.id (Fattr.setUsage dirattr.stored) = tree := by
      rw [modifyFattr_eq_self_iff hids hdirattr (setUsage_id _), Fattr.stored, if_pos hdir]
      rfl
    rw [hkept] at hsame
    exact hsame

/-- On a balanced tree `recomputeDirSize` changes no size. -/
theorem Balanced.recomputeDirSize (hbalanced : tree.Balanced) (hholds : tree.Holds hierarchy) :
    ∃ next, tree.recomputeDirSize = some next ∧ tree.SameSizes next := by
  obtain ⟨root, hroot, hobject⟩ := hholds.getFattr_of_mem hierarchy.root
  have hentry := hholds.getDentry_of_mem (entry_mem hierarchy.root)
  have hlookup : tree.lookup quiet rootFid rootName userRoot groupRoot = some (.ok root) := by
    rw [lookup_root, show tree.getDentry rootFid rootName = some Node.root.entry from hentry]
    exact congrArg (Option.map Except.ok) hroot
  have hfuel : (below hierarchy rootFid).card ≤ tree.leaves.length + 1 := by
    have hnodes : (below hierarchy rootFid).card ≤ hierarchy.nodes.length := by
      rw [← length_map]
      refine (Finset.card_le_card fun fid hfid => ?_).trans (toFinset_card_le _)
      exact mem_toFinset.mpr (mem_map.mpr (mem_below.mp hfid).1)
    have hobjects := hholds.objects.length_eq
    have hleaves : tree.objects.length ≤ tree.leaves.length := length_filterMap_le _ _
    rw [length_map] at hobjects
    omega
  obtain ⟨next, hnext, hsame⟩ := recomputeDir_of hholds hierarchy.root rfl
    (fun fid _ => hbalanced.balanced fid) hfuel
  refine ⟨next, ?_, hsame⟩
  rw [← getFattr_id hroot] at hnext
  rw [Tree.recomputeDirSize, hlookup, bind_some, ← hnext]

end Tree

end QfsRepair.Meta
