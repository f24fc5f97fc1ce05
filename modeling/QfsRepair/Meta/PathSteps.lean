import QfsRepair.Meta.PathChanges

/-!
# Calls on a tree with a path cache

The cache is sound if every cached path whose id is in use leads to the object
with the id.  Lookups keep it so, and so do all calls on the namespace but
`rmdir`, after which `..` in the directory that is gone may still be cached.
When `rename` puts another directory into its place, these paths are right
again.
-/

namespace QfsRepair.Meta.CachedTree

open List Hierarchy
open Graph (Walk)
open Relation (ReflTransGen)
open Tree (thisDir parentDir)

/-- The cached paths whose ids are in use lead to them, but for those that are
spared. -/
structure SoundBut (cached : CachedTree) (hierarchy : Hierarchy)
    (spared : List Name → ℤ → Prop) : Prop where
  holds : cached.tree.Holds hierarchy
  le_seed : ∀ entry ∈ cached.pathToFidCache, entry.2 ≤ cached.tree.fileIdSeed
  keys : ∀ entry ∈ cached.pathToFidCache, (∃ node ∈ hierarchy.nodes, node.id = entry.2) →
    ∃ components, IsKey entry.1 components ∧
      (Walk hierarchy.Leads rootFid components entry.2 ∨ spared components entry.2)

def Sound (cached : CachedTree) (hierarchy : Hierarchy) : Prop :=
  cached.SoundBut hierarchy fun _ _ => False

variable {cached next : CachedTree} {hierarchy changed : Hierarchy} {env : Environment}
  {node : Node} {tree : Tree} {euser egroup : ℕ} {spared spared' : List Name → ℤ → Prop}

theorem Sound.soundBut (hsound : cached.Sound hierarchy) : cached.SoundBut hierarchy spared where
  holds := hsound.holds
  le_seed := hsound.le_seed
  keys := fun entry hentry hused => by
    obtain ⟨components, hkey, hwalk | hfalse⟩ := hsound.keys entry hentry hused
    · exact ⟨components, hkey, .inl hwalk⟩
    · exact hfalse.elim

theorem Sound.walk {entry : Name × ℤ} (hsound : cached.Sound hierarchy)
    (hentry : entry ∈ cached.pathToFidCache) (hused : ∃ node ∈ hierarchy.nodes, node.id = entry.2) :
    ∃ components, IsKey entry.1 components ∧ Walk hierarchy.Leads rootFid components entry.2 := by
  obtain ⟨components, hkey, hwalk⟩ := hsound.keys entry hentry hused
  exact ⟨components, hkey, hwalk.resolve_right id⟩

namespace SoundBut

variable (hsound : cached.SoundBut hierarchy spared)

include hsound

theorem shrinks (hshrinks : cached.Shrinks next) :
    next.SoundBut hierarchy spared where
  holds := hshrinks.tree ▸ hsound.holds
  le_seed := fun entry hentry => by
    rw [hshrinks.tree]
    exact hsound.le_seed entry (hshrinks.cache hentry)
  keys := fun entry hentry => hsound.keys entry (hshrinks.cache hentry)

/-- Another hierarchy in which no ids are used again and paths keep their
meaning. -/
theorem change (hholds : tree.Holds changed) (hseed : cached.tree.fileIdSeed ≤ tree.fileIdSeed)
    (hids : ∀ node ∈ changed.nodes, node.id ≤ cached.tree.fileIdSeed →
      ∃ other ∈ hierarchy.nodes, other.id = node.id)
    (hpaths : ∀ entry ∈ cached.pathToFidCache, (∃ node ∈ changed.nodes, node.id = entry.2) →
      ∀ components, IsKey entry.1 components →
        Walk hierarchy.Leads rootFid components entry.2 ∨ spared components entry.2 →
        Walk changed.Leads rootFid components entry.2 ∨ spared' components entry.2) :
    ({ cached with tree } : CachedTree).SoundBut changed spared' where
  holds := hholds
  le_seed := fun entry hentry => (hsound.le_seed entry hentry).trans hseed
  keys := by
    intro entry hentry hused
    have hbefore : ∃ other ∈ hierarchy.nodes, other.id = entry.2 := by
      obtain ⟨node, hnode, hid⟩ := hused
      obtain ⟨other, hother, heq⟩ := hids node hnode (hid ▸ hsound.le_seed entry hentry)
      exact ⟨other, hother, heq.trans hid⟩
    obtain ⟨components, hkey, hwalk⟩ := hsound.keys entry hentry hbefore
    exact ⟨components, hkey, hpaths entry hentry hused components hkey hwalk⟩

theorem imp (himp : ∀ components fid, spared components fid → spared' components fid) :
    cached.SoundBut hierarchy spared' :=
  hsound.change hsound.holds le_rfl (fun node hnode _ => ⟨node, hnode, rfl⟩)
    fun entry _ _ components _ hwalk => hwalk.imp_right (himp components entry.2)

theorem sound
    (hnone : ∀ entry ∈ cached.pathToFidCache, ∀ components, IsKey entry.1 components →
      ¬ spared components entry.2) : cached.Sound hierarchy :=
  hsound.change hsound.holds le_rfl (fun node hnode _ => ⟨node, hnode, rfl⟩)
    fun entry hentry _ components hkey hwalk =>
      hwalk.imp_right fun hspared => hnone entry hentry components hkey hspared

end SoundBut

/-! ## Lookups -/

namespace Sound

variable {rootdir : ℤ} {path : Name} {result : Except Status Fattr}

variable (hsound : cached.Sound hierarchy)

theorem map_walkPath : (cached.walkPath env rootdir path euser egroup).map Prod.fst =
    cached.tree.lookupPath env rootdir path euser egroup := by
  rw [CachedTree.walkPath]
  cases cached.tree.lookupPath env rootdir path euser egroup with
  | none => rfl
  | some found => cases found <;> rfl

include hsound

theorem walkPath (hwalk : cached.walkPath env rootdir path euser egroup = some (result, next)) :
    next.Sound hierarchy ∧ next.tree = cached.tree ∧ cached.tree.Found result := by
  obtain ⟨found, hlookup, heq⟩ := Option.map_eq_some_iff.mp hwalk
  have hfound := Tree.lookupPath_found hlookup
  cases found with
  | error status =>
    cases heq
    exact ⟨hsound, rfl, hfound⟩
  | ok fa =>
    cases heq
    refine ⟨?_, by split_ifs <;> rfl, hfound⟩
    split_ifs with hcacheable
    swap
    · exact hsound
    obtain ⟨components, hkey⟩ := isKey_of_isCacheable hcacheable
    obtain ⟨node, hnode, hid, -⟩ := hsound.holds.exists_node_of_getFattr hfound
    refine ⟨hsound.holds, forall_mem_cons.mpr ⟨?_, hsound.le_seed⟩,
      forall_mem_cons.mpr ⟨fun _ => ?_, hsound.keys⟩⟩
    · exact hid ▸ hsound.holds.le_seed node hnode
    · exact ⟨components, hkey, .inl (hkey.walk_of_lookupPath hsound.holds hlookup)⟩

theorem lookupPath
    (hlookup : cached.lookupPath env rootdir path euser egroup = some (result, next)) :
    next.Sound hierarchy ∧ next.tree = cached.tree ∧ cached.tree.Found result := by
  rw [CachedTree.lookupPath] at hlookup
  split at hlookup
  · exact hsound.walkPath hlookup
  · split at hlookup
    · rename_i fa hfattr
      cases hlookup
      exact ⟨hsound, rfl, Tree.getFattr_self hfattr⟩
    · have herased : (cached.erasePath path).Sound hierarchy :=
        hsound.shrinks (shrinks_erasePath path)
      exact herased.walkPath hlookup

/-- The result of a lookup is the same without the cache. -/
theorem lookupPath_eq (hpasses : cached.tree.PassesChecks env euser egroup) :
    (cached.lookupPath env rootdir path euser egroup).map Prod.fst =
      cached.tree.lookupPath env rootdir path euser egroup := by
  rw [CachedTree.lookupPath]
  split
  · exact map_walkPath
  · rename_i fid hfid
    split
    · rename_i fa hfattr
      have hentry : (path, fid) ∈ cached.pathToFidCache := by
        split_ifs at hfid
        obtain ⟨before, after, hcache, -⟩ := lookup_eq_some_iff.mp hfid
        exact hcache ▸ mem_append_right _ mem_cons_self
      obtain ⟨node, hnode, hid, -⟩ := hsound.holds.exists_node_of_getFattr hfattr
      obtain ⟨components, hkey, hwalk⟩ := hsound.walk hentry ⟨node, hnode, hid⟩
      exact (hkey.lookupPath_of_walk hsound.holds hpasses hwalk hfattr).symm
    · exact map_walkPath

end Sound

/-! ## Changes of one node -/

section

variable (hsound : cached.Sound hierarchy)

include hsound

theorem Sound.add {added : Hierarchy} (hnodes : added.nodes = node :: hierarchy.nodes)
    (hid : node.id = cached.tree.fileIdSeed + 1) (hholds : tree.Holds added)
    (hseed : tree.fileIdSeed = cached.tree.fileIdSeed + 1) :
    ({ cached with tree } : CachedTree).Sound added := by
  have hsubset : hierarchy.nodes ⊆ added.nodes := hnodes ▸ subset_cons_self _ _
  refine hsound.change hholds (hseed ▸ Int.le_add_one le_rfl) ?_ fun _ _ _ _ _ hwalk =>
    hwalk.imp_left (Walk.mono fun _ _ _ => leads_mono hsubset)
  rw [hnodes]
  refine forall_mem_cons.mpr ⟨fun hle => ?_, fun other hother _ => ⟨other, hother, rfl⟩⟩
  omega

theorem Sound.genFileId :
    ({ cached with tree := cached.tree.genFileId.2 } : CachedTree).Sound hierarchy :=
  hsound.change hsound.holds.genFileId (Int.le_add_one le_rfl)
    (fun node hnode _ => ⟨node, hnode, rfl⟩) fun _ _ _ _ _ hwalk => hwalk

variable {left : Hierarchy}

/-- Without a node that nothing is in. -/
theorem Sound.erase (hnode : node ∈ hierarchy.nodes)
    (hleaf : ∀ other ∈ hierarchy.nodes, other.parent ≠ node.id)
    (hnodes : left.nodes = hierarchy.nodes.erase node) (hholds : tree.Holds left)
    (hseed : tree.fileIdSeed = cached.tree.fileIdSeed) :
    ({ cached with tree } : CachedTree).SoundBut left (left.LeftBehind node) := by
  refine hsound.change hholds hseed.ge ?_ ?_
  · exact fun other hother _ => ⟨other, mem_of_mem_erase (hnodes ▸ hother), rfl⟩
  · rintro entry hentry ⟨used, hused, hid⟩ components hkey hwalk
    rw [hnodes] at hused
    have hne := ((mem_erase_iff hnode).mp hused).2
    exact walk_of_erase hnode (hnodes ▸ Subset.refl _) hleaf hkey
      (hwalk.resolve_right id) (hid ▸ hne)

theorem Sound.removeFile (hnode : node ∈ hierarchy.nodes) (hfile : node.type = .file)
    (hnodes : left.nodes = hierarchy.nodes.erase node) (hholds : tree.Holds left)
    (hseed : tree.fileIdSeed = cached.tree.fileIdSeed) :
    ({ cached with tree } : CachedTree).Sound left := by
  refine (hsound.erase hnode (parent_ne_of_file hnode hfile) hnodes hholds hseed).sound ?_
  intro entry _ components _ hleft
  have hdir := hleft.isDir
  rw [hfile] at hdir
  cases hdir

end

/-- A node that is moved, also into the place of a directory that is gone. -/
theorem SoundBut.moveEntry {target : Node} {dname : Name} {sfattr : Fattr} {ddfattr : Option Fattr}
    (hsound : cached.SoundBut hierarchy
      (hierarchy.LeftBehind { node with parent := target.id, name := dname }))
    (hnode : node ∈ hierarchy.nodes) (hobject : sfattr.object = node.object)
    (htarget : target ∈ hierarchy.nodes) (htype : target.type = .dir)
    (hfree : cached.tree.getDentry target.id dname = none)
    (havoid : ¬ ReflTransGen (ParentIn hierarchy.nodes) target.id node.id)
    (hsame : ddfattr = none → target.id = node.parent) (hdd : ∀ fa ∈ ddfattr, fa.id = target.id)
    (hmove : cached.moveEntry node.parent node.name sfattr target.id dname ddfattr = some next) :
    ∃ moved : Hierarchy,
      moved.nodes = { node with parent := target.id, name := dname } :: hierarchy.nodes.erase node ∧
        next.Sound moved := by
  obtain ⟨cleared, hinvalidate, hmove⟩ := Option.bind_eq_some_iff.mp hmove
  obtain ⟨tree, hmoved, rfl⟩ := Option.map_eq_some_iff.mp hmove
  have hshrinks := shrinks_invalidatePathCache hinvalidate
  rw [hshrinks.tree] at hmoved
  obtain ⟨moved, hnodes, hholds, hseed⟩ :=
    hsound.holds.moveEntry hnode hobject htarget htype hfree havoid hsame hdd hmoved
  have hroot := Tree.Holds.ne_root_of_avoids htarget havoid
  have hsubset : hierarchy.nodes.erase node ⊆ moved.nodes := hnodes ▸ subset_cons_self _ _
  refine ⟨moved, hnodes, (hsound.shrinks hshrinks).change hholds ?_ ?_ ?_⟩
  · rw [hseed, hshrinks.tree]
  · rw [hnodes]
    exact forall_mem_cons.mpr ⟨fun _ => ⟨node, hnode, rfl⟩,
      fun other hother _ => ⟨other, mem_of_mem_erase hother, rfl⟩⟩
  · rintro entry hentry - components hkey (hwalk | hleft)
    · refine .inl (walk_of_move hnode hroot hsubset hkey hwalk ?_)
      rintro init rest rfl hinit hdir
      obtain ⟨hrest, hother⟩ :=
        not_path_of_mem hsound.holds hroot hobject hinvalidate hentry hinit hkey
      exact hother rfl (hdir hrest)
    · exact .inl (walk_of_leftBehind hnode hleft.isDir havoid hnodes hleft)

end QfsRepair.Meta.CachedTree
