import QfsRepair.Graph.Reachability
import QfsRepair.Meta.Tree

/-!
# Hierarchies of files and directories

What the entries and attributes of the metadata tree stand for: a set of named
nodes, each in a directory, from all of which the root is reached.  A node has
one entry in its directory; a directory also has its two own links.  The
operations of a namespace are an addition, a removal of a node in which there
is nothing, and a move.
-/

namespace QfsRepair.Meta

open List
open Relation (ReflTransGen TransGen)

/-- A file or a directory, with the directory that it is in and its name
there. -/
structure Node where
  id : ℤ
  type : FileType
  parent : ℤ
  name : Name
  deriving DecidableEq

/-- The place of an entry, which no two entries share. -/
def Dentry.place (entry : Dentry) : ℤ × Name := (entry.dir, entry.name)

/-- An entry that is not one of the two own links of a directory. -/
def Dentry.IsNamed (entry : Dentry) : Prop :=
  entry.name ≠ Tree.thisDir ∧ entry.name ≠ Tree.parentDir

instance (entry : Dentry) : Decidable entry.IsNamed := inferInstanceAs (Decidable (_ ∧ _))

namespace Node

variable (node : Node)

/-- The root is in itself. -/
def root : Node := ⟨rootFid, .dir, rootFid, Tree.rootName⟩

def place : ℤ × Name := (node.parent, node.name)

def entry : Dentry := ⟨node.id, node.parent, node.name⟩

/-- The links `.` and `..` of a directory. -/
def links : List Dentry :=
  if node.type = .dir then
    [⟨node.id, node.id, Tree.thisDir⟩, ⟨node.parent, node.id, Tree.parentDir⟩]
  else []

def entries : List Dentry := node.entry :: node.links

/-- The id, the type and the parent of the attribute; the root has no parent. -/
def object : ℤ × FileType × Option ℤ :=
  (node.id, node.type, if node.id = rootFid then none else some node.parent)

end Node

/-- One of the nodes has the id `child` and is in `parent`. -/
def ParentIn (nodes : List Node) (child parent : ℤ) : Prop :=
  ∃ node ∈ nodes, node.id = child ∧ node.parent = parent

structure Hierarchy where
  nodes : List Node
  ids : (nodes.map Node.id).Nodup
  places : (nodes.map Node.place).Nodup
  named : ∀ node ∈ nodes, node.entry.IsNamed
  root : Node.root ∈ nodes
  parents : ∀ node ∈ nodes, ∃ dir ∈ nodes, dir.id = node.parent ∧ dir.type = .dir
  rooted : ∀ node ∈ nodes, ReflTransGen (ParentIn nodes) node.id rootFid

namespace Hierarchy

variable (hierarchy : Hierarchy) {node other : Node}

/-- The entries of all nodes. -/
def entries : List Dentry := hierarchy.nodes.flatMap Node.entries

variable {hierarchy}

section

variable (hnode : node ∈ hierarchy.nodes)

theorem parentIn_mono {nodes nodes' : List Node} (hsubset : nodes ⊆ nodes') {child parent : ℤ}
    (hparent : ParentIn nodes child parent) : ParentIn nodes' child parent := by
  obtain ⟨node, hnode, hid, hin⟩ := hparent
  exact ⟨node, hsubset hnode, hid, hin⟩

include hnode

theorem eq_of_id (hother : other ∈ hierarchy.nodes) (hid : node.id = other.id) : node = other :=
  inj_on_of_nodup_map hierarchy.ids hnode hother hid

theorem eq_of_place (hother : other ∈ hierarchy.nodes) (hplace : node.place = other.place) :
    node = other :=
  inj_on_of_nodup_map hierarchy.places hnode hother hplace

theorem eq_root (hid : node.id = rootFid) : node = Node.root :=
  eq_of_id hnode hierarchy.root hid

theorem mem_erase_iff :
    other ∈ hierarchy.nodes.erase node ↔ other ∈ hierarchy.nodes ∧ other.id ≠ node.id := by
  rw [hierarchy.ids.of_map.mem_erase_iff, and_comm]
  exact and_congr_right fun hother =>
    not_congr ⟨fun heq => congrArg Node.id heq, fun hid => eq_of_id hother hnode hid⟩

/-! ## Reachability -/

theorem parentIn_of_mem :
    ParentIn hierarchy.nodes node.id node.parent :=
  ⟨node, hnode, rfl, rfl⟩

theorem parent_ne_of_file (hfile : node.type = .file) :
    ∀ other ∈ hierarchy.nodes, other.parent ≠ node.id := by
  intro other hother hin
  obtain ⟨dir, hdir, hdirId, hdirType⟩ := hierarchy.parents other hother
  rw [eq_of_id hdir hnode (hdirId.trans hin), hfile] at hdirType
  cases hdirType

/-- A file is not above anything. -/
theorem not_reaches_file (hfile : node.type = .file) (hother : other ∈ hierarchy.nodes)
    (hdir : other.type = .dir) :
    ¬ ReflTransGen (ParentIn hierarchy.nodes) other.id node.id := by
  intro hreach
  have hsource : ∀ child, ¬ ParentIn hierarchy.nodes child node.id := by
    rintro child ⟨below, hbelow, -, hin⟩
    exact parent_ne_of_file hnode hfile below hbelow hin
  have heq := eq_of_id hother hnode (Graph.eq_of_reaches_source hsource hreach)
  rw [heq, hfile] at hdir
  cases hdir

/-- The directory that a node is in is the only one above it in one step. -/
theorem eq_parent {parent : ℤ} (hparent : ParentIn hierarchy.nodes node.id parent) :
    parent = node.parent := by
  obtain ⟨other, hother, hid, rfl⟩ := hparent
  rw [eq_of_id hother hnode hid]

/-- What is above a node is the node, or it is above its directory. -/
theorem reaches_cases {above : ℤ} (hreach : ReflTransGen (ParentIn hierarchy.nodes) node.id above) :
    above = node.id ∨ ReflTransGen (ParentIn hierarchy.nodes) node.parent above := by
  rcases ReflTransGen.cases_head hreach with heq | ⟨parent, hparent, hrest⟩
  · exact .inl heq.symm
  · exact .inr (eq_parent hnode hparent ▸ hrest)

omit hnode in
/-- Nothing else is above the root. -/
theorem eq_root_of_reaches {above : ℤ}
    (hreach : ReflTransGen (ParentIn hierarchy.nodes) rootFid above) : above = rootFid := by
  induction hreach with
  | refl => rfl
  | tail _ hstep ih =>
    subst ih
    exact eq_parent hierarchy.root hstep

omit hnode in
theorem parentIn_unique : Relator.RightUnique (ParentIn hierarchy.nodes) := by
  rintro child left right ⟨node, hnode, rfl, rfl⟩ hright
  exact (eq_parent hnode hright).symm

/-- Nothing but the root is above the directory that it is in. -/
theorem not_reaches_of_parent (hroot : node.id ≠ rootFid) :
    ¬ ReflTransGen (ParentIn hierarchy.nodes) node.parent node.id := fun hreach =>
  hroot (Graph.eq_root_of_cycle parentIn_unique (parentIn_of_mem hierarchy.root)
    (hierarchy.rooted node hnode) (TransGen.head' (parentIn_of_mem hnode) hreach))

/-! ## Operations -/

end

/-- The root alone. -/
def fresh : Hierarchy where
  nodes := [Node.root]
  ids := nodup_singleton _
  places := nodup_singleton _
  named := by decide
  root := mem_singleton_self _
  parents := by decide
  rooted := by
    intro node hnode
    rw [mem_singleton.mp hnode]
    exact ReflTransGen.refl

variable (hierarchy)

/-- A new node in a directory. -/
def add (node : Node) (hid : ∀ other ∈ hierarchy.nodes, other.id ≠ node.id)
    (hplace : ∀ other ∈ hierarchy.nodes, other.place ≠ node.place) (hnamed : node.entry.IsNamed)
    (hparent : ∃ dir ∈ hierarchy.nodes, dir.id = node.parent ∧ dir.type = .dir) : Hierarchy where
  nodes := node :: hierarchy.nodes
  ids := by
    rw [map_cons, nodup_cons, mem_map, not_exists]
    exact ⟨fun other hother => hid other hother.1 hother.2, hierarchy.ids⟩
  places := by
    rw [map_cons, nodup_cons, mem_map, not_exists]
    exact ⟨fun other hother => hplace other hother.1 hother.2, hierarchy.places⟩
  named := forall_mem_cons.mpr ⟨hnamed, hierarchy.named⟩
  root := mem_cons_of_mem _ hierarchy.root
  parents := by
    have hkeep : ∀ id : ℤ, (∃ dir ∈ hierarchy.nodes, dir.id = id ∧ dir.type = .dir) →
        ∃ dir ∈ node :: hierarchy.nodes, dir.id = id ∧ dir.type = .dir :=
      fun id ⟨dir, hmem, hdir⟩ => ⟨dir, mem_cons_of_mem _ hmem, hdir⟩
    exact forall_mem_cons.mpr
      ⟨hkeep _ hparent, fun other hother => hkeep _ (hierarchy.parents other hother)⟩
  rooted := by
    have hkeep : ∀ other ∈ hierarchy.nodes,
        ReflTransGen (ParentIn (node :: hierarchy.nodes)) other.id rootFid :=
      fun other hother => (hierarchy.rooted other hother).lift id
        fun _ _ => parentIn_mono (subset_cons_self _ _)
    obtain ⟨dir, hmem, hid, -⟩ := hparent
    refine forall_mem_cons.mpr ⟨?_, hkeep⟩
    exact (hid ▸ hkeep dir hmem).head ⟨node, mem_cons_self, rfl, rfl⟩

/-- Without a node that nothing is in. -/
def remove (node : Node) (hnode : node ∈ hierarchy.nodes) (hroot : node.id ≠ rootFid)
    (hleaf : ∀ other ∈ hierarchy.nodes, other.parent ≠ node.id) : Hierarchy where
  nodes := hierarchy.nodes.erase node
  ids := hierarchy.ids.sublist (erase_sublist.map _)
  places := hierarchy.places.sublist (erase_sublist.map _)
  named := fun other hother => hierarchy.named other (mem_of_mem_erase hother)
  root := (mem_erase_iff hnode).mpr ⟨hierarchy.root, hroot.symm⟩
  parents := by
    intro other hother
    obtain ⟨dir, hmem, hid, htype⟩ := hierarchy.parents other (mem_of_mem_erase hother)
    refine ⟨dir, (mem_erase_iff hnode).mpr ⟨hmem, ?_⟩, hid, htype⟩
    exact hid ▸ hleaf other (mem_of_mem_erase hother)
  rooted := by
    intro other hother
    obtain ⟨hmem, hne⟩ := (mem_erase_iff hnode).mp hother
    have havoid : ¬ ReflTransGen (ParentIn hierarchy.nodes) other.id node.id := by
      refine fun hreach => hne (Graph.eq_of_reaches_source ?_ hreach)
      rintro child ⟨below, hbelow, -, hin⟩
      exact hleaf below hbelow hin
    refine Graph.reaches_of_avoids ?_ (hierarchy.rooted other hmem) havoid
    rintro _ _ hne ⟨below, hbelow, rfl, rfl⟩
    exact ⟨below, (mem_erase_iff hnode).mpr ⟨hbelow, hne⟩, rfl, rfl⟩

/-- A node is moved to a directory that is not below it. -/
def move (node : Node) (parent : ℤ) (name : Name) (hnode : node ∈ hierarchy.nodes)
    (hplace : ∀ other ∈ hierarchy.nodes, other.place ≠ (parent, name))
    (hnamed : Dentry.IsNamed ⟨node.id, parent, name⟩)
    (hparent : ∃ dir ∈ hierarchy.nodes, dir.id = parent ∧ dir.type = .dir)
    (havoid : ¬ ReflTransGen (ParentIn hierarchy.nodes) parent node.id) : Hierarchy where
  nodes := { node with parent, name } :: hierarchy.nodes.erase node
  ids := by
    have hperm := (perm_cons_erase hnode).map Node.id
    exact hperm.nodup_iff.mp hierarchy.ids
  places := by
    rw [map_cons, nodup_cons, mem_map, not_exists]
    exact ⟨fun other hother => hplace other (mem_of_mem_erase hother.1) hother.2,
      hierarchy.places.sublist (erase_sublist.map _)⟩
  named := forall_mem_cons.mpr
    ⟨hnamed, fun other hother => hierarchy.named other (mem_of_mem_erase hother)⟩
  root := by
    refine mem_cons_of_mem _ ((mem_erase_iff hnode).mpr ⟨hierarchy.root, fun hroot => ?_⟩)
    obtain ⟨dir, hmem, hid, -⟩ := hparent
    have hreach := hierarchy.rooted dir hmem
    rw [hid, show rootFid = node.id from hroot] at hreach
    exact havoid hreach
  parents := by
    -- the node itself stays a directory under its id
    have hkeep : ∀ id : ℤ, (∃ dir ∈ hierarchy.nodes, dir.id = id ∧ dir.type = .dir) →
        ∃ dir ∈ { node with parent, name } :: hierarchy.nodes.erase node,
          dir.id = id ∧ dir.type = .dir := by
      rintro id ⟨dir, hmem, hid, htype⟩
      by_cases hdir : dir.id = node.id
      · exact ⟨_, mem_cons_self, hdir.symm.trans hid, eq_of_id hmem hnode hdir ▸ htype⟩
      · exact ⟨dir, mem_cons_of_mem _ ((mem_erase_iff hnode).mpr ⟨hmem, hdir⟩), hid, htype⟩
    exact forall_mem_cons.mpr ⟨hkeep _ hparent, fun other hother =>
      hkeep _ (hierarchy.parents other (mem_of_mem_erase hother))⟩
  rooted := by
    have hkeep : ∀ other ∈ hierarchy.nodes,
        ReflTransGen (ParentIn ({ node with parent, name } :: hierarchy.nodes.erase node))
          other.id rootFid := by
      intro other hother
      obtain ⟨dir, hmem, rfl, -⟩ := hparent
      refine Graph.reaches_of_redirect ?_ ⟨_, mem_cons_self, rfl, rfl⟩
        (hierarchy.rooted dir hmem) havoid (hierarchy.rooted other hother)
      rintro _ _ hne ⟨below, hbelow, rfl, rfl⟩
      exact ⟨below, mem_cons_of_mem _ ((mem_erase_iff hnode).mpr ⟨hbelow, hne⟩), rfl, rfl⟩
    exact forall_mem_cons.mpr
      ⟨hkeep node hnode, fun other hother => hkeep other (mem_of_mem_erase hother)⟩

end Hierarchy

/-! ## Entries -/

theorem Node.mem_links {node : Node} {entry : Dentry} :
    entry ∈ node.links ↔ node.type = .dir ∧
      (entry = ⟨node.id, node.id, Tree.thisDir⟩ ∨
        entry = ⟨node.parent, node.id, Tree.parentDir⟩) := by
  rw [Node.links]
  split_ifs with htype <;> simp [htype]

theorem Node.not_isNamed_of_mem_links {node : Node} {entry : Dentry} (hlink : entry ∈ node.links) :
    entry.dir = node.id ∧ ¬ entry.IsNamed := by
  obtain ⟨-, rfl | rfl⟩ := Node.mem_links.mp hlink
  · exact ⟨rfl, fun hnamed => hnamed.1 rfl⟩
  · exact ⟨rfl, fun hnamed => hnamed.2 rfl⟩

namespace Hierarchy

variable {hierarchy : Hierarchy} {node other : Node} {entry : Dentry}

theorem mem_entries :
    entry ∈ hierarchy.entries ↔ ∃ node ∈ hierarchy.nodes, entry ∈ node.entries :=
  mem_flatMap

variable (hnode : node ∈ hierarchy.nodes)

/-- An entry other than the links is the entry of a node. -/
theorem exists_node_of_isNamed (hentry : entry ∈ hierarchy.entries) (hnamed : entry.IsNamed) :
    ∃ node ∈ hierarchy.nodes, entry = node.entry := by
  obtain ⟨node, hnode, hentry⟩ := mem_entries.mp hentry
  refine ⟨node, hnode, (mem_cons.mp hentry).resolve_right fun hlink => ?_⟩
  exact (Node.not_isNamed_of_mem_links hlink).2 hnamed

/-- A link is one of the links of the directory it is in. -/
theorem exists_node_of_link (hentry : entry ∈ hierarchy.entries) (hlink : ¬ entry.IsNamed) :
    ∃ node ∈ hierarchy.nodes, entry ∈ node.links := by
  obtain ⟨node, hnode, hentry⟩ := mem_entries.mp hentry
  refine ⟨node, hnode, (mem_cons.mp hentry).resolve_left ?_⟩
  rintro rfl
  exact hlink (hierarchy.named node hnode)

include hnode

theorem entry_mem : node.entry ∈ hierarchy.entries :=
  mem_entries.mpr ⟨node, hnode, mem_cons_self⟩

theorem link_mem (hlink : entry ∈ node.links) :
    entry ∈ hierarchy.entries :=
  mem_entries.mpr ⟨node, hnode, mem_cons_of_mem _ hlink⟩

theorem entries_perm :
    hierarchy.entries.Perm
      (node.entries ++ (hierarchy.nodes.erase node).flatMap Node.entries) :=
  (perm_cons_erase hnode).flatMap_right _

private theorem nodup_places_node :
    (node.entries.map Dentry.place).Nodup := by
  have hnamed := hierarchy.named node hnode
  rw [Node.entries, map_cons, Node.links]
  split_ifs
  · have hthis : node.name ≠ Tree.thisDir := hnamed.1
    have hparent : node.name ≠ Tree.parentDir := hnamed.2
    have hlinks : Tree.thisDir ≠ Tree.parentDir := by decide
    simp [Node.entry, Dentry.place, hthis, hparent, hlinks]
  · simp

omit hnode in
/-- No two entries have the same directory and name. -/
theorem nodup_places : (hierarchy.entries.map Dentry.place).Nodup := by
  rw [entries, map_flatMap, nodup_flatMap]
  refine ⟨fun node hnode => nodup_places_node hnode, ?_⟩
  have hpairs := (pairwise_map.mp hierarchy.ids).and (pairwise_map.mp hierarchy.places)
  refine hpairs.imp_of_mem fun {left right} hleft hright hdiffer => ?_
  intro place hinLeft hinRight
  obtain ⟨first, hfirst, rfl⟩ := mem_map.mp hinLeft
  obtain ⟨second, hsecond, hplace⟩ := mem_map.mp hinRight
  have hdirs : second.dir = first.dir := congrArg Prod.fst hplace
  have hnames : second.name = first.name := congrArg Prod.snd hplace
  have hnamed : second.IsNamed ↔ first.IsNamed := by
    rw [Dentry.IsNamed, Dentry.IsNamed, hnames]
  rcases mem_cons.mp hfirst with rfl | hfirstLink <;>
    rcases mem_cons.mp hsecond with rfl | hsecondLink
  · exact hdiffer.2 hplace.symm
  · exact (Node.not_isNamed_of_mem_links hsecondLink).2 (hnamed.mpr (hierarchy.named left hleft))
  · exact (Node.not_isNamed_of_mem_links hfirstLink).2 (hnamed.mp (hierarchy.named right hright))
  · apply hdiffer.1
    rw [← (Node.not_isNamed_of_mem_links hfirstLink).1,
      ← (Node.not_isNamed_of_mem_links hsecondLink).1, hdirs]

omit hnode in
theorem eq_of_dentry_place {left right : Dentry} (hleft : left ∈ hierarchy.entries)
    (hright : right ∈ hierarchy.entries) (hplace : left.place = right.place) : left = right :=
  inj_on_of_nodup_map nodup_places hleft hright hplace

/-- The entries with a property that only entries of one node have. -/
theorem filter_entries {selected : Dentry → Bool}
    (hothers : ∀ other ∈ hierarchy.nodes, other.id ≠ node.id →
      ∀ entry ∈ other.entries, selected entry = false) :
    (hierarchy.entries.filter selected).Perm (node.entries.filter selected) := by
  have hperm := (entries_perm hnode).filter selected
  rw [filter_append] at hperm
  suffices hempty : ((hierarchy.nodes.erase node).flatMap Node.entries).filter selected = [] by
    rwa [hempty, append_nil] at hperm
  rw [filter_eq_nil_iff]
  intro entry hentry
  obtain ⟨other, hother, hentry⟩ := mem_flatMap.mp hentry
  obtain ⟨hmem, hne⟩ := (mem_erase_iff hnode).mp hother
  rw [hothers other hmem hne entry hentry]
  exact Bool.false_ne_true

end Hierarchy

end QfsRepair.Meta
