import QfsRepair.Meta.Hierarchy
import QfsRepair.Meta.Views

/-!
# The hierarchy that a tree stands for

The entries of the metadata tree and what its attributes say of the hierarchy,
each as a list without an order.  Insertions and deletions of leaves add and
remove single elements; counters, sizes and chunks are not seen.
-/

namespace QfsRepair.Meta

open List Item
open Option hiding map_map

def Item.dentryOf : Item → Option Dentry
  | dentry entry => some entry
  | _ => none

/-- The id, the type and the parent of an attribute. -/
def Fattr.object (fa : Fattr) : ℤ × FileType × Option ℤ := (fa.id, fa.type, fa.parent)

def Item.objectOf : Item → Option (ℤ × FileType × Option ℤ)
  | fattr fa => some fa.object
  | _ => none

theorem deletes_dentry_eq (entry : Dentry) (leaf : Item) :
    (dentry entry).deletes leaf = leaf.dentryOf.any fun found => found.place = entry.place := by
  cases leaf with
  | dentry found =>
    rw [dentryOf, any_some, Bool.eq_iff_iff, decide_eq_true_eq, Dentry.place,
      Dentry.place, Prod.mk.injEq]
    constructor
    · intro hdeletes
      obtain ⟨other, heq, hplace⟩ := deletes_dentry hdeletes
      exact dentry.inj heq ▸ hplace
    · rintro ⟨hdir, hname⟩
      simp [deletes, key, Item.matches, hdir, hname]
  | _ => simp [deletes, Item.matches, dentryOf]

theorem deletes_fattr_eq (fa : Fattr) (leaf : Item) :
    (fattr fa).deletes leaf = leaf.objectOf.any fun object => object.1 = fa.id := by
  rw [deletes_fattr]
  cases leaf with
  | fattr other => by_cases hid : other.id = fa.id <;> simp [fattrWith, objectOf, Fattr.object, hid]
  | _ => rfl

theorem dentryNamed_eq {dir : ℤ} {name : Name} (leaf : Item) :
    leaf.dentryNamed dir name = leaf.dentryOf.filter fun entry => entry.place = (dir, name) := by
  cases leaf with
  | dentry entry =>
    by_cases hdir : entry.dir = dir <;> by_cases hname : entry.name = name <;>
      simp [dentryNamed, dentryWith, dentryOf, Dentry.place, hdir, hname, Option.filter]
  | _ => rfl

namespace Tree

def dentries (tree : Tree) : List Dentry := tree.leaves.filterMap Item.dentryOf

def objects (tree : Tree) : List (ℤ × FileType × Option ℤ) := tree.leaves.filterMap Item.objectOf

variable {tree next last : Tree} {fid dir : ℤ} {name : Name} {entry : Dentry} {fa : Fattr}

/-! ## Searches -/

theorem mem_dentries_of_getDentry (hfound : tree.getDentry dir name = some entry) :
    entry ∈ tree.dentries ∧ entry.place = (dir, name) := by
  obtain ⟨item, hitem, hvalue⟩ := exists_of_findSome?_eq_some hfound
  rw [dentryNamed_eq, filter_eq_some_iff] at hvalue
  exact ⟨mem_filterMap.mpr ⟨item, hitem, hvalue.1⟩, of_decide_eq_true hvalue.2⟩

theorem place_ne_of_getDentry (hnone : tree.getDentry dir name = none)
    (hentry : entry ∈ tree.dentries) : entry.place ≠ (dir, name) := by
  intro hplace
  obtain ⟨item, hitem, hvalue⟩ := mem_filterMap.mp hentry
  have hskipped := findSome?_eq_none_iff.mp hnone item hitem
  rw [dentryNamed_eq, hvalue] at hskipped
  simp [hplace] at hskipped

theorem mem_objects_of_getFattr (hfattr : tree.getFattr fid = some fa) :
    fa.object ∈ tree.objects := by
  obtain ⟨item, hitem, hvalue⟩ := exists_of_findSome?_eq_some hfattr
  obtain ⟨rfl, -⟩ := fattrWith_eq_some.mp hvalue
  exact mem_filterMap.mpr ⟨_, hitem, rfl⟩

theorem fattrIds_eq_objects : tree.fattrIds = tree.objects.map Prod.fst := by
  rw [objects, map_filterMap]
  apply filterMap_congr
  rintro (_ | _ | _) - <;> rfl

theorem readdir_eq_dentries :
    tree.readdir dir = tree.dentries.filter fun entry => entry.dir = dir := by
  rw [dentries, filter_filterMap]
  apply filterMap_congr
  rintro (_ | _ | entry) -
  · rfl
  · rfl
  · by_cases hdir : entry.dir = dir <;>
      simp [Item.dentryWith, Item.dentryOf, Option.filter, hdir]

/-! ## Changes that are not seen -/

/-- A tree with the same entries, objects and seed. -/
structure SameNames (tree next : Tree) : Prop where
  dentries : next.dentries = tree.dentries
  objects : next.objects = tree.objects
  fileIdSeed : next.fileIdSeed = tree.fileIdSeed

theorem SameNames.refl (tree : Tree) : tree.SameNames tree := ⟨rfl, rfl, rfl⟩

theorem SameNames.trans (hfirst : tree.SameNames next) (hsecond : next.SameNames last) :
    tree.SameNames last :=
  ⟨hsecond.dentries.trans hfirst.dentries, hsecond.objects.trans hfirst.objects,
    hsecond.fileIdSeed.trans hfirst.fileIdSeed⟩

theorem SameNames.ids (hsame : tree.SameNames next) (hids : tree.fattrIds.Nodup) :
    next.fattrIds.Nodup := by
  rw [fattrIds_eq_objects, hsame.objects, ← fattrIds_eq_objects]
  exact hids

theorem sameNames_modifyFattr {change : Fattr → Fattr}
    (hobject : ∀ fa, (change fa).object = fa.object) :
    tree.SameNames (tree.modifyFattr fid change) where
  dentries := Store.filterMap_map_of_eq _ (Item.view_modifyFattr fun _ => rfl)
  objects := Store.filterMap_map_of_eq _
    (Item.view_modifyFattr fun fa => congrArg some (hobject fa))
  fileIdSeed := rfl

theorem SameNames.setTiers (hsame : tree.SameNames next) (fid minSTier maxSTier : ℤ) :
    tree.SameNames (next.modifyFattr fid fun fa => { fa with minSTier, maxSTier }) :=
  hsame.trans (sameNames_modifyFattr fun _ => rfl)

theorem sameNames_addCounts {nbytes nfiles ndirs : ℤ} {fuel : ℕ}
    (hadd : addCounts nbytes nfiles ndirs fuel tree fid = some next) : tree.SameNames next := by
  induction fuel generalizing tree fid with
  | zero => cases hadd
  | succ fuel ih =>
    obtain ⟨fa, -, hadd⟩ := bind_eq_some_iff.mp hadd
    split at hadd
    · split_ifs at hadd
      cases hadd
      exact SameNames.refl _
    · obtain ⟨parent, -, hadd⟩ := bind_eq_some_iff.mp hadd
      split_ifs at hadd
      refine SameNames.trans ?_ (ih hadd)
      exact sameNames_modifyFattr fun _ => rfl

theorem sameNames_updateCounts {nbytes nfiles ndirs : ℤ}
    (hupdate : tree.updateCounts fid nbytes nfiles ndirs = some next) : tree.SameNames next := by
  rw [updateCounts] at hupdate
  split_ifs at hupdate
  · cases hupdate
    exact SameNames.refl _
  · exact sameNames_addCounts hupdate

theorem sameNames_setFileSize {size nfiles ndirs : ℤ}
    (hsized : tree.setFileSize fid size nfiles ndirs = some next) : tree.SameNames next := by
  obtain ⟨fa, -, hsized⟩ := bind_eq_some_iff.mp hsized
  split_ifs at hsized
  obtain ⟨updated, hupdated, rfl⟩ := map_eq_some_iff.mp hsized
  exact (sameNames_updateCounts hupdated).trans (sameNames_modifyFattr fun _ => rfl)

theorem sameNames_del_chunkInfo {chunk : ChunkInfo}
    (hdel : tree.del (.chunkInfo chunk) = some next) : tree.SameNames next where
  dentries := filterMap_del_chunkInfo (fun _ _ => rfl) hdel
  objects := filterMap_del_chunkInfo (fun _ _ => rfl) hdel
  fileIdSeed := by rw [del_eq_some hdel]

theorem sameNames_deleteChunks {chunks : List ChunkInfo}
    (hdeleted : deleteChunks tree chunks = some next) : tree.SameNames next := by
  induction chunks generalizing tree with
  | nil =>
    cases hdeleted
    exact SameNames.refl _
  | cons chunk rest ih =>
    obtain ⟨deleted, hdel, hrest⟩ := bind_eq_some_iff.mp hdeleted
    exact (sameNames_del_chunkInfo hdel).trans (ih hrest)

/-! ## Insertions and deletions -/

/-- The tree has these entries and objects, in any order. -/
structure Shows (tree : Tree) (entries : List Dentry)
    (objects : List (ℤ × FileType × Option ℤ)) : Prop where
  dentries : tree.dentries.Perm entries
  objects : tree.objects.Perm objects

namespace Shows

variable {entries : List Dentry} {objects : List (ℤ × FileType × Option ℤ)}
  {object : ℤ × FileType × Option ℤ}

section

variable (hshows : tree.Shows entries objects)

include hshows

theorem perm {entries' : List Dentry} {objects' : List (ℤ × FileType × Option ℤ)}
    (hentries : entries.Perm entries') (hobjects : objects.Perm objects') :
    tree.Shows entries' objects' :=
  ⟨hshows.dentries.trans hentries, hshows.objects.trans hobjects⟩

theorem sameNames (hsame : tree.SameNames next) :
    next.Shows entries objects :=
  ⟨hsame.dentries ▸ hshows.dentries, hsame.objects ▸ hshows.objects⟩

theorem insert_dentry (entry : Dentry) :
    (tree.insert (.dentry entry)).Shows (entry :: entries) objects where
  dentries := by
    have hperm : (tree.insert (.dentry entry)).dentries.Perm (entry :: tree.dentries) :=
      Store.filterMap_orderedInsert_perm _ _ rfl
    exact hperm.trans (hshows.dentries.cons entry)
  objects := by
    rw [Tree.objects, insert, Store.filterMap_orderedInsert_of_none _ _ rfl]
    exact hshows.objects

theorem insert_fattr (fa : Fattr) :
    (tree.insert (.fattr fa)).Shows entries (fa.object :: objects) where
  dentries := by
    rw [Tree.dentries, insert, Store.filterMap_orderedInsert_of_none _ _ rfl]
    exact hshows.dentries
  objects := by
    have hperm : (tree.insert (.fattr fa)).objects.Perm (fa.object :: tree.objects) :=
      Store.filterMap_orderedInsert_perm _ _ rfl
    exact hperm.trans (hshows.objects.cons fa.object)

end

/-- A deletion finds an entry by its directory and name. -/
theorem del_dentry (hshows : tree.Shows (entry :: entries) objects)
    (hplaces : ((entry :: entries).map Dentry.place).Nodup)
    (hdel : tree.del (.dentry ⟨fid, entry.dir, entry.name⟩) = some next) :
    next.Shows entries objects where
  dentries := by
    have hfirst := (nodup_cons.mp hplaces).1
    rw [del_eq_some hdel, Tree.dentries, Store.filterMap_eraseP _ (deletes_dentry_eq _)]
    exact Store.eraseP_perm hshows.dentries (decide_eq_true rfl) fun other hother =>
      decide_eq_false fun hplace => hfirst (mem_map.mpr ⟨other, hother, hplace⟩)
  objects := by
    rw [Tree.objects, filterMap_del_dentry (fun _ => rfl) hdel]
    exact hshows.objects

variable (hshows : tree.Shows entries (object :: objects))

include hshows

variable (hids : ((object :: objects).map Prod.fst).Nodup)

include hids

theorem del_fattr (hfa : fa.id = object.1) (hdel : tree.del (.fattr fa) = some next) :
    next.Shows entries objects where
  dentries := by
    rw [Tree.dentries, filterMap_del_fattr (fun _ _ => rfl) hdel]
    exact hshows.dentries
  objects := by
    have hfirst := (nodup_cons.mp hids).1
    rw [del_eq_some hdel, Tree.objects, Store.filterMap_eraseP _ (deletes_fattr_eq _)]
    exact Store.eraseP_perm hshows.objects (decide_eq_true hfa.symm) fun other hother =>
      decide_eq_false fun hid => hfirst (mem_map.mpr ⟨other, hother, hid.trans hfa⟩)

/-- The parent of an attribute is changed. -/
theorem set_parent {parent : ℤ} :
    (tree.modifyFattr object.1 fun fa => { fa with parent := some parent }).Shows entries
      ((object.1, object.2.1, some parent) :: objects) where
  dentries := by
    have hsame : (tree.modifyFattr object.1 fun fa => { fa with parent := some parent }).dentries =
        tree.dentries := Store.filterMap_map_of_eq _ (Item.view_modifyFattr fun _ => rfl)
    exact hsame ▸ hshows.dentries
  objects := by
    have hmap : (tree.modifyFattr object.1 fun fa => { fa with parent := some parent }).objects =
        tree.objects.map fun other =>
          if other.1 = object.1 then (other.1, other.2.1, some parent) else other := by
      apply Store.filterMap_map
      rintro (fa | _ | _)
      · simp only [Item.modifyFattr, Item.objectOf, Fattr.object, map_some]
        split_ifs <;> rfl
      · rfl
      · rfl
    have hfirst := (nodup_cons.mp hids).1
    have hrest : objects.map (fun other =>
        if other.1 = object.1 then (other.1, other.2.1, some parent) else other) = objects := by
      refine (map_congr_left fun other hother => if_neg ?_).trans (map_id' objects)
      exact fun hid => hfirst (mem_map.mpr ⟨other, hother, hid⟩)
    have hperm := hshows.objects.map fun other =>
      if other.1 = object.1 then (other.1, other.2.1, some parent) else other
    rw [map_cons, hrest, if_pos rfl] at hperm
    exact hmap ▸ hperm

end Shows

/-! ## Trees that hold a hierarchy -/

/-- The entries and attributes of the tree are those of the hierarchy, the ids
of which have been given out. -/
structure Holds (tree : Tree) (hierarchy : Hierarchy) : Prop extends
    tree.Shows hierarchy.entries (hierarchy.nodes.map Node.object) where
  le_seed : ∀ node ∈ hierarchy.nodes, node.id ≤ tree.fileIdSeed

namespace Holds

variable {hierarchy : Hierarchy} {node : Node}

variable (hholds : tree.Holds hierarchy)

theorem nodup_ids (hierarchy : Hierarchy) :
    ((hierarchy.nodes.map Node.object).map Prod.fst).Nodup := by
  rw [map_map]
  exact hierarchy.ids

include hholds

theorem sameNames (hsame : tree.SameNames next) :
    next.Holds hierarchy :=
  ⟨hholds.toShows.sameNames hsame, hsame.fileIdSeed ▸ hholds.le_seed⟩

theorem mem_entries_of_getDentry (hfound : tree.getDentry dir name = some entry) :
    entry ∈ hierarchy.entries ∧ entry.place = (dir, name) := by
  obtain ⟨hmem, hplace⟩ := Tree.mem_dentries_of_getDentry hfound
  exact ⟨hholds.dentries.mem_iff.mp hmem, hplace⟩

theorem place_ne_of_getDentry (hnone : tree.getDentry dir name = none)
    (hentry : entry ∈ hierarchy.entries) :
    entry.place ≠ (dir, name) :=
  Tree.place_ne_of_getDentry hnone (hholds.dentries.mem_iff.mpr hentry)

theorem getDentry_of_mem (hentry : entry ∈ hierarchy.entries) :
    tree.getDentry entry.dir entry.name = some entry := by
  cases hfound : tree.getDentry entry.dir entry.name with
  | none => exact absurd rfl (hholds.place_ne_of_getDentry hfound hentry)
  | some found =>
    obtain ⟨hmem, hplace⟩ := hholds.mem_entries_of_getDentry hfound
    rw [Hierarchy.eq_of_dentry_place hmem hentry hplace]

theorem getDentry_eq_none (hfree : ∀ entry ∈ hierarchy.entries, entry.place ≠ (dir, name)) :
    tree.getDentry dir name = none := by
  cases hfound : tree.getDentry dir name with
  | none => rfl
  | some found =>
    obtain ⟨hmem, hplace⟩ := hholds.mem_entries_of_getDentry hfound
    exact absurd hplace (hfree found hmem)

/-- A name other than the links leads to a node. -/
theorem exists_node_of_getDentry (hfound : tree.getDentry dir name = some entry)
    (hthis : name ≠ thisDir) (hparent : name ≠ parentDir) :
    ∃ node ∈ hierarchy.nodes, node.id = entry.id ∧ node.place = (dir, name) := by
  obtain ⟨hmem, hplace⟩ := hholds.mem_entries_of_getDentry hfound
  have hname : entry.name = name := congrArg Prod.snd hplace
  obtain ⟨node, hnode, rfl⟩ :=
    Hierarchy.exists_node_of_isNamed hmem ⟨hname ▸ hthis, hname ▸ hparent⟩
  exact ⟨node, hnode, rfl, hplace⟩

theorem fattrIds_nodup : tree.fattrIds.Nodup := by
  rw [fattrIds_eq_objects]
  exact (hholds.objects.map Prod.fst).nodup_iff.mpr (nodup_ids hierarchy)

theorem exists_node_of_getFattr (hfattr : tree.getFattr fid = some fa) :
    ∃ node ∈ hierarchy.nodes, node.id = fid ∧ node.object = fa.object := by
  have hmem := hholds.objects.mem_iff.mp (mem_objects_of_getFattr hfattr)
  obtain ⟨node, hnode, hobject⟩ := mem_map.mp hmem
  exact ⟨node, hnode, (congrArg Prod.fst hobject).trans (getFattr_id hfattr), hobject⟩

theorem getFattr_of_mem (hnode : node ∈ hierarchy.nodes) :
    ∃ fa, tree.getFattr node.id = some fa ∧ fa.object = node.object := by
  have hmem : node.object ∈ tree.objects :=
    hholds.objects.mem_iff.mpr (mem_map.mpr ⟨node, hnode, rfl⟩)
  obtain ⟨item, hitem, hobject⟩ := mem_filterMap.mp hmem
  cases item with
  | fattr fa =>
    have hobject : fa.object = node.object := some.inj hobject
    refine ⟨fa, ?_, hobject⟩
    rw [← Tree.getFattr_of_mem hholds.fattrIds_nodup hitem]
    exact congrArg (fun object => tree.getFattr object.1) hobject.symm
  | _ => cases hobject

/-- The node of an attribute that has been found. -/
theorem node_of_fattr (hnode : node ∈ hierarchy.nodes) (hfattr : tree.getFattr node.id = some fa) :
    fa.object = node.object := by
  obtain ⟨found, hfound, hobject⟩ := hholds.getFattr_of_mem hnode
  exact some.inj (hfattr.symm.trans hfound) ▸ hobject

end Holds

end Tree

end QfsRepair.Meta
