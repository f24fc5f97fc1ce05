import QfsRepair.Graph.Walks
import QfsRepair.Meta.HierarchyCalls
import QfsRepair.Meta.PathCache
import QfsRepair.Text.Records

/-!
# Paths in a hierarchy

What the components of a path lead to, in a hierarchy and in a tree that holds
it.  Without links there is one way from the root to a node, and `getPathname`
finds it.  A path that may be cached has links only at its end, so that a change
of one node concerns only the paths that begin with the path of the node.
-/

namespace QfsRepair.Meta

open List Hierarchy
open Graph (Walk)
open Relation (ReflTransGen)

/-! ## Text -/

/-- The text of an absolute path. -/
def pathOf (components : List Name) : Name := components.flatMap fun name => '/' :: name

theorem pathOf_append (left right : List Name) :
    pathOf (left ++ right) = pathOf left ++ pathOf right :=
  flatMap_append

theorem pathOf_singleton (name : Name) : pathOf [name] = '/' :: name :=
  flatMap_singleton ..

theorem intercalate_eq_pathOf (name : Name) (names : List Name) :
    ['/'].intercalate (name :: names) = name ++ pathOf names := by
  induction names generalizing name with
  | nil => rw [intercalate_singleton, pathOf, flatMap_nil, append_nil]
  | cons second names ih =>
    rw [intercalate_cons_cons, ih, pathOf, pathOf, flatMap_cons, append_assoc,
      singleton_append, cons_append]

/-- A path that may be cached, with its components. -/
structure IsKey (path : Name) (components : List Name) : Prop where
  path_eq : path = pathOf components
  ne_nil : components ≠ []
  plain : ∀ name ∈ components, name ≠ [] ∧ '/' ∉ name
  named : ∀ name ∈ components.dropLast, name ≠ Tree.thisDir ∧ name ≠ Tree.parentDir

variable {path : Name}

theorem isKey_of_isCacheable (hcacheable : CachedTree.isCacheable path = true) :
    ∃ components, IsKey path components := by
  rw [CachedTree.isCacheable] at hcacheable
  split at hcacheable
  · rename_i components hsplit
    simp only [Bool.and_eq_true, decide_eq_true_eq, all_eq_true] at hcacheable
    obtain ⟨⟨hne, hplain⟩, hnamed⟩ := hcacheable
    refine ⟨components, ⟨?_, hne, fun name hname => ⟨hplain name hname, ?_⟩, hnamed⟩⟩
    · have htext := intercalate_eq_pathOf [] components
      rw [← hsplit, intercalate_splitOn] at htext
      exact htext
    · exact Text.not_mem_of_mem_splitOn (hsplit ▸ mem_cons_of_mem _ hname)
  · cases hcacheable

variable {components : List Name}

theorem IsKey.pathComponents (hkey : IsKey path components) :
    Tree.pathComponents path = components := by
  have hsplit : path.splitOn '/' = [] :: components := by
    rw [hkey.path_eq, ← nil_append (pathOf components), ← intercalate_eq_pathOf]
    refine splitOn_intercalate '/' (forall_mem_cons.mpr ⟨not_mem_nil, ?_⟩)
      (cons_ne_nil _ _)
    exact fun name hname => (hkey.plain name hname).2
  rw [Tree.pathComponents, hsplit, filter_cons, if_neg (by simp), filter_eq_self]
  exact fun name hname => decide_eq_true (hkey.plain name hname).1

/-- Everything before a component of such a path is a name. -/
theorem IsKey.names_before {label : Name} {before after : List Name}
    (hkey : IsKey path (before ++ label :: after)) :
    ∀ name ∈ before, name ≠ Tree.thisDir ∧ name ≠ Tree.parentDir ∧ '/' ∉ name := by
  intro name hname
  have hmem : name ∈ (before ++ label :: after).dropLast := by
    rw [dropLast_append_cons]
    exact mem_append_left _ hname
  obtain ⟨hthis, hparent⟩ := hkey.named name hmem
  exact ⟨hthis, hparent, (hkey.plain name (mem_append_left _ hname)).2⟩

/-! ## Walks -/

namespace Hierarchy

/-- An entry leads from its directory to its object. -/
def Leads (hierarchy : Hierarchy) (dir : ℤ) (name : Name) (fid : ℤ) : Prop :=
  ⟨fid, dir, name⟩ ∈ hierarchy.entries

/-- A directory leads to what is in it. -/
def Down (hierarchy : Hierarchy) (dir : ℤ) (name : Name) (fid : ℤ) : Prop :=
  ∃ node ∈ hierarchy.nodes, node.id ≠ rootFid ∧ node.parent = dir ∧ node.name = name ∧
    node.id = fid

variable {hierarchy changed : Hierarchy} {node : Node} {dir fid : ℤ} {name : Name}
  {path : List Name}

theorem Leads.down (hleads : hierarchy.Leads dir name fid) (hthis : name ≠ Tree.thisDir)
    (hparent : name ≠ Tree.parentDir) (hslash : '/' ∉ name) : hierarchy.Down dir name fid := by
  obtain ⟨node, hnode, hentry⟩ := exists_node_of_isNamed hleads ⟨hthis, hparent⟩
  obtain ⟨rfl, rfl, rfl⟩ := Dentry.mk.inj hentry
  refine ⟨node, hnode, fun hroot => hslash ?_, rfl, rfl, rfl⟩
  rw [eq_root hnode hroot]
  exact mem_cons_self

/-- What leads to something is a directory. -/
theorem Leads.isDir (hleads : hierarchy.Leads dir name fid) :
    ∃ target ∈ hierarchy.nodes, target.id = dir ∧ target.type = .dir := by
  obtain ⟨node, hnode, hentry⟩ := mem_entries.mp hleads
  rcases mem_cons.mp hentry with heq | hlink
  · obtain ⟨-, rfl, -⟩ := Dentry.mk.inj heq
    exact hierarchy.parents node hnode
  · exact ⟨node, hnode, (Node.not_isNamed_of_mem_links hlink).1.symm, (Node.mem_links.mp hlink).1⟩

theorem Down.eq_node (hdown : hierarchy.Down dir name fid) (hnode : node ∈ hierarchy.nodes)
    (hid : node.id = fid) : dir = node.parent ∧ name = node.name := by
  obtain ⟨other, hother, -, rfl, rfl, hfid⟩ := hdown
  rw [eq_of_id hother hnode (hfid.trans hid.symm)]
  exact ⟨rfl, rfl⟩

variable {start : ℤ}

/-- Below a node only what has the node above it is reached. -/
theorem reaches_of_down (hwalk : Walk hierarchy.Down start path fid) :
    ReflTransGen (ParentIn hierarchy.nodes) fid start := by
  induction hwalk with
  | nil => exact ReflTransGen.refl
  | cons hedge _ ih =>
    obtain ⟨node, hnode, -, rfl, rfl, rfl⟩ := hedge
    exact ih.tail (parentIn_of_mem hnode)

end Hierarchy

variable {fid : ℤ}

/-- The components before one of a key lead down. -/
theorem IsKey.down_before {hierarchy : Hierarchy} {label : Name} {before after : List Name}
    (hkey : IsKey path (before ++ label :: after))
    (hwalk : Walk hierarchy.Leads rootFid before fid) :
    Walk hierarchy.Down rootFid before fid := by
  refine hwalk.imp fun _ name _ _ _ hsplit _ hedge _ => ?_
  have hname : name ∈ before := hsplit ▸ mem_append_right _ mem_cons_self
  obtain ⟨hthis, hparent, hslash⟩ := hkey.names_before name hname
  exact hedge.down hthis hparent hslash

/-! ## Lookups -/

namespace Tree

variable {tree : Tree} {env : Environment} {hierarchy : Hierarchy} {euser egroup : ℕ}

/-- The user may search every directory. -/
def PassesChecks (tree : Tree) (env : Environment) (euser egroup : ℕ) : Prop :=
  ∀ fid fa, tree.getFattr fid = some fa → fa.type = .dir →
    fa.canSearch env.isGroupMember euser egroup = true

namespace Holds

variable (hholds : tree.Holds hierarchy)

include hholds

variable {fa : Fattr} {dir : ℤ} {name : Name}

theorem leads_of_getDentry {entry : Dentry} (hentry : tree.getDentry dir name = some entry)
    (hfattr : tree.getFattr entry.id = some fa) :
    hierarchy.Leads dir name fa.id := by
  obtain ⟨hmem, hplace⟩ := hholds.mem_entries_of_getDentry hentry
  obtain ⟨rfl, rfl⟩ := Prod.mk.inj hplace
  rw [getFattr_id hfattr]
  exact hmem

variable {start : ℤ}

/-- What a lookup finds, the components lead to. -/
theorem walk_of_lookup {trailing : Bool}
    (hok : tree.lookupComponents env start trailing euser egroup dir components = some (.ok fa)) :
    Walk hierarchy.Leads dir components fa.id := by
  induction components generalizing dir with
  | nil => cases hok
  | cons component rest ih =>
    cases rest with
    | nil =>
      obtain ⟨entry, hentry, hfound, -⟩ := lookupComponents_last_ok_iff.mp hok
      exact .cons (hholds.leads_of_getDentry hentry hfound) .nil
    | cons second rest =>
      obtain ⟨entry, found, hentry, hfound, -, -, hrest⟩ := lookupComponents_cons_ok_iff.mp hok
      have hleads := hholds.leads_of_getDentry hentry hfound
      rw [getFattr_id hfound] at hleads
      exact .cons hleads (ih hrest)

theorem getFattr_of_isDir (hdir : ∃ node ∈ hierarchy.nodes, node.id = fid ∧ node.type = .dir) :
    ∃ fa, tree.getFattr fid = some fa ∧ fa.type = .dir := by
  obtain ⟨node, hnode, rfl, htype⟩ := hdir
  obtain ⟨fa, hfattr, hobject⟩ := hholds.getFattr_of_mem hnode
  exact ⟨fa, hfattr, (congrArg (·.2.1) hobject).trans htype⟩

/-- The attribute whose permission a lookup checks is that of a directory. -/
theorem accessParent_isDir (hleads : hierarchy.Leads dir name fid)
    (hfattr : tree.getFattr fid = some fa) :
    ∃ parent, tree.accessParent dir fa = some parent ∧ parent.type = .dir ∧
      tree.getFattr parent.id = some parent := by
  have hself : ∀ {id : ℤ}, (∃ node ∈ hierarchy.nodes, node.id = id ∧ node.type = .dir) →
      ∃ parent, tree.getFattr id = some parent ∧ parent.type = .dir ∧
        tree.getFattr parent.id = some parent := by
    intro id hdir
    obtain ⟨parent, hparent, htype⟩ := hholds.getFattr_of_isDir hdir
    exact ⟨parent, hparent, htype, getFattr_self hparent⟩
  obtain ⟨node, hnode, rfl, hobject⟩ := hholds.exists_node_of_getFattr hfattr
  have hpointer : (if node.id = rootFid then none else some node.parent) = fa.parent :=
    congrArg (·.2.2) hobject
  rw [accessParent, ← hpointer]
  by_cases hroot : node.id = rootFid
  · rw [if_pos hroot]
    split_ifs
    · refine ⟨fa, rfl, ?_, getFattr_self hfattr⟩
      have htype : node.type = fa.type := congrArg (·.2.1) hobject
      rw [← htype, eq_root hnode hroot]
      rfl
    · exact hself hleads.isDir
  · rw [if_neg hroot]
    exact hself (hierarchy.parents node hnode)

variable (hpasses : tree.PassesChecks env euser egroup)

include hpasses

theorem mayAccess_of_leads (hleads : hierarchy.Leads dir name fid)
    (hfattr : tree.getFattr fid = some fa) : tree.MayAccess env euser egroup dir fa := by
  obtain ⟨parent, haccess, htype, hparent⟩ := hholds.accessParent_isDir hleads hfattr
  exact .inr ⟨parent, haccess, hpasses parent.id parent hparent htype⟩

/-- A user who passes the checks finds what the components lead to. -/
theorem lookup_of_walk (hwalk : Walk hierarchy.Leads dir components fid) (hne : components ≠ [])
    (hfattr : tree.getFattr fid = some fa) :
    tree.lookupComponents env start false euser egroup dir components = some (.ok fa) := by
  induction hwalk with
  | nil => exact absurd rfl hne
  | @cons dir next fid component rest hleads hrest ih =>
    have hentry : tree.getDentry dir component = some ⟨next, dir, component⟩ :=
      hholds.getDentry_of_mem hleads
    cases hrest with
    | nil =>
      exact lookupComponents_last_ok_iff.mpr ⟨_, hentry, hfattr, nofun, fun _ _ =>
        hholds.mayAccess_of_leads hpasses hleads hfattr⟩
    | cons hsecond hmore =>
      obtain ⟨found, hfound, htype⟩ := hholds.getFattr_of_isDir hsecond.isDir
      exact lookupComponents_cons_ok_iff.mpr ⟨_, found, hentry, hfound, htype,
        hpasses next found hfound htype, ih (cons_ne_nil _ _) hfattr⟩

end Holds

end Tree

namespace IsKey

variable {tree : Tree} {env : Environment} {hierarchy : Hierarchy} {euser egroup : ℕ} {path : Name}
  {components : List Name} {rootdir : ℤ} {fa : Fattr}

/-- A path that may be cached is absolute and ends with a component. -/
theorem lookupPath_eq (hkey : IsKey path components) :
    tree.lookupPath env rootdir path euser egroup =
      tree.lookupComponents env rootFid false euser egroup rootFid components := by
  obtain ⟨init, last, rfl⟩ : ∃ init last, components = init ++ [last] :=
    ⟨_, _, (dropLast_append_getLast hkey.ne_nil).symm⟩
  have hhead : path.head? = some '/' := by
    rw [hkey.path_eq]
    cases init <;> rfl
  have hne : path ≠ [] := by
    rintro rfl
    cases hhead
  obtain ⟨hlast, hslash⟩ := hkey.plain last (mem_append_right _ mem_cons_self)
  have htrailing : path.getLast? ≠ some '/' := by
    rw [hkey.path_eq, pathOf_append, pathOf_singleton,
      getLast?_append_of_ne_nil _ (cons_ne_nil _ _), getLast?_cons_of_ne_nil hlast]
    exact fun hchar => hslash (mem_of_getLast? hchar)
  rw [Tree.lookupPath, if_neg hne, if_pos (Or.inr hhead), hkey.pathComponents,
    if_neg hkey.ne_nil, decide_eq_false htrailing]

theorem walk_of_lookupPath (hholds : tree.Holds hierarchy) (hkey : IsKey path components)
    (hok : tree.lookupPath env rootdir path euser egroup = some (.ok fa)) :
    Walk hierarchy.Leads rootFid components fa.id := by
  rw [hkey.lookupPath_eq] at hok
  exact hholds.walk_of_lookup hok

theorem lookupPath_of_walk (hholds : tree.Holds hierarchy)
    (hpasses : tree.PassesChecks env euser egroup) (hkey : IsKey path components)
    (hwalk : Walk hierarchy.Leads rootFid components fid) (hfattr : tree.getFattr fid = some fa) :
    tree.lookupPath env rootdir path euser egroup = some (.ok fa) := by
  rw [hkey.lookupPath_eq]
  exact hholds.lookup_of_walk hpasses hwalk hkey.ne_nil hfattr

end IsKey

/-! ## Paths of nodes -/

variable {names : List Name}

theorem pathOf_eq_cons (hne : names ≠ []) :
    pathOf names = '/' :: ['/'].intercalate names := by
  cases names with
  | nil => exact absurd rfl hne
  | cons name names => rw [intercalate_eq_pathOf, pathOf, flatMap_cons, cons_append, pathOf]

theorem intercalate_ne_nil (hne : names ≠ []) (hplain : ∀ name ∈ names, name ≠ []) :
    ['/'].intercalate names ≠ [] := by
  cases names with
  | nil => exact absurd rfl hne
  | cons name names =>
    rw [intercalate_eq_pathOf]
    exact append_ne_nil_of_left_ne_nil (hplain name mem_cons_self) _

namespace Tree

variable {tree : Tree} {hierarchy : Hierarchy} {node : Node} {fid : ℤ}

/-- The entry of a node is the one that `getPathname` looks for. -/
theorem Holds.find_entry (hholds : tree.Holds hierarchy) (hnode : node ∈ hierarchy.nodes) :
    ((tree.readdir node.parent).find? fun entry =>
      entry.id = node.id ∧ entry.name ≠ thisDir ∧ entry.name ≠ parentDir) = some node.entry := by
  obtain ⟨hthis, hparent⟩ := hierarchy.named node hnode
  have hmem : node.entry ∈ tree.readdir node.parent := by
    rw [readdir_eq_dentries, mem_filter]
    exact ⟨hholds.dentries.mem_iff.mpr (entry_mem hnode), decide_eq_true rfl⟩
  have hsome : ((tree.readdir node.parent).find? fun entry =>
      entry.id = node.id ∧ entry.name ≠ thisDir ∧ entry.name ≠ parentDir).isSome := by
    rw [find?_isSome]
    exact ⟨node.entry, hmem, decide_eq_true ⟨rfl, hthis, hparent⟩⟩
  obtain ⟨entry, hentry⟩ := Option.isSome_iff_exists.mp hsome
  have hfound := find?_some hentry
  obtain ⟨hid, hnamed⟩ := of_decide_eq_true hfound
  have hdentry : entry ∈ tree.dentries := by
    have hin := mem_of_find?_eq_some hentry
    rw [readdir_eq_dentries] at hin
    exact mem_of_mem_filter hin
  obtain ⟨other, hother, rfl⟩ :=
    exists_node_of_isNamed (hholds.dentries.mem_iff.mp hdentry) hnamed
  rw [hentry, eq_of_id hother hnode hid]

/-- From a node that the components lead down to, the walk to the root puts the
components before the text; or a directory had no entries. -/
theorem Holds.getPathnameFrom_eq {fuel : ℕ} {after : List Name} {result : Name}
    (hholds : tree.Holds hierarchy) (hwalk : Walk hierarchy.Down rootFid components fid)
    (hplain : ∀ name ∈ components ++ after, name ≠ [])
    (hpath : tree.getPathnameFrom fuel fid (['/'].intercalate after) = some result) :
    result = [] ∨ result = '/' :: ['/'].intercalate (components ++ after) := by
  induction fuel generalizing fid components after with
  | zero => cases hpath
  | succ fuel ih =>
    obtain ⟨fa, hfattr, hpath⟩ := Option.bind_eq_some_iff.mp hpath
    obtain ⟨node, hnode, rfl, hobject⟩ := hholds.exists_node_of_getFattr hfattr
    have hpointer : fa.parent = if node.id = rootFid then none else some node.parent :=
      congrArg (·.2.2) hobject.symm
    induction components using reverseRecOn with
    | nil =>
      have hroot := hwalk.eq_of_nil
      rw [hpointer, if_pos hroot.symm] at hpath
      rw [getFattr_id hfattr, if_pos hroot.symm] at hpath
      exact .inr (Option.some.inj hpath).symm
    | append_singleton init name _ =>
      obtain ⟨dir, hinit, hdown⟩ := hwalk.of_snoc
      have hroot : node.id ≠ rootFid := by
        obtain ⟨_, _, hroot, _, _, hid⟩ := hdown
        exact hid ▸ hroot
      obtain ⟨rfl, rfl⟩ := hdown.eq_node hnode rfl
      rw [hpointer, if_neg hroot] at hpath
      obtain ⟨parent, -, hpath⟩ := Option.bind_eq_some_iff.mp hpath
      by_cases htype : parent.type ≠ .dir
      · rw [if_pos htype] at hpath
        cases hpath
      rw [if_neg htype] at hpath
      by_cases hentries : tree.readdir node.parent = []
      · rw [if_pos hentries] at hpath
        exact .inl (Option.some.inj hpath).symm
      rw [if_neg hentries, hholds.find_entry hnode] at hpath
      have htext : (if ['/'].intercalate after = [] then node.entry.name
          else node.entry.name ++ '/' :: ['/'].intercalate after) =
            ['/'].intercalate (node.name :: after) := by
        cases after with
        | nil => rw [intercalate_nil, if_pos rfl, intercalate_singleton, Node.entry]
        | cons second after =>
          rw [if_neg (intercalate_ne_nil (cons_ne_nil _ _) fun other hother =>
            hplain other (mem_append_right _ hother)), intercalate_cons_cons,
            append_assoc]
          rfl
      dsimp only at hpath
      rw [htext] at hpath
      have hlist : init ++ [node.name] ++ after = init ++ node.name :: after := by
        rw [append_assoc, singleton_append]
      rw [hlist] at hplain ⊢
      exact ih hinit hplain hpath

end Tree

end QfsRepair.Meta
