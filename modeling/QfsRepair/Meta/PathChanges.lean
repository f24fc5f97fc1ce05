import QfsRepair.Meta.PathKeys

/-!
# Paths and changes of the hierarchy

A path keeps its meaning if the way to it does not pass the node that is removed
or moved.  For a node that is removed there is one exception: `..` in a
directory that is gone leads to the directory that it was in.  The paths of
which `invalidatePathCache` clears the cache are those of the node, and for a
directory that is moved those that begin with its path.
-/

namespace QfsRepair.Meta

open List
open Graph (Walk)
open Relation (ReflTransGen)

namespace Hierarchy

variable {hierarchy changed : Hierarchy} {node : Node} {dir fid : ℤ} {name path : Name}
  {components : List Name}

theorem leads_mono (hsubset : hierarchy.nodes ⊆ changed.nodes)
    (hleads : hierarchy.Leads dir name fid) : changed.Leads dir name fid := by
  obtain ⟨node, hnode, hentry⟩ := mem_entries.mp hleads
  exact mem_entries.mpr ⟨node, hsubset hnode, hentry⟩

section

variable (hnode : node ∈ hierarchy.nodes)

include hnode

section

variable (hsubset : hierarchy.nodes.erase node ⊆ changed.nodes)

include hsubset

/-- An entry that is not in the node and does not lead to it. -/
theorem leads_of_ne (hdir : dir ≠ node.id) (hfid : fid ≠ node.id)
    (hleads : hierarchy.Leads dir name fid) :
    changed.Leads dir name fid := by
  obtain ⟨other, hother, hentry⟩ := mem_entries.mp hleads
  refine mem_entries.mpr ⟨other, hsubset ((mem_erase_iff hnode).mpr ⟨hother, ?_⟩), hentry⟩
  rcases mem_cons.mp hentry with heq | hlink
  · obtain ⟨hid, -, -⟩ := Dentry.mk.inj heq
    exact hid ▸ hfid
  · have hid : dir = other.id := (Node.not_isNamed_of_mem_links hlink).1
    exact hid ▸ hdir

theorem walk_of_avoids (hwalk : Walk hierarchy.Leads rootFid components fid)
    (havoids : ∀ before after, components = before ++ after →
      Walk hierarchy.Leads rootFid before node.id → ¬ Walk hierarchy.Leads node.id after fid) :
    Walk changed.Leads rootFid components fid := by
  refine hwalk.imp fun before label after source target hsplit hbefore hleads hafter => ?_
  refine leads_of_ne hnode hsubset ?_ ?_ hleads
  · rintro rfl
    exact havoids before (label :: after) hsplit hbefore (.cons hleads hafter)
  · rintro rfl
    refine havoids (before ++ [label]) after ?_ (hbefore.append (.cons hleads .nil)) hafter
    rw [hsplit, append_assoc, singleton_append]

end

/-- The way down to a node ends with its name. -/
theorem snoc_of_down (hroot : node.id ≠ rootFid)
    (hwalk : Walk hierarchy.Down rootFid components node.id) :
    ∃ init, components = init ++ [node.name] ∧ Walk hierarchy.Down rootFid init node.parent := by
  induction components using reverseRecOn with
  | nil => exact absurd hwalk.eq_of_nil.symm hroot
  | append_singleton init last _ =>
    obtain ⟨dir, hinit, hdown⟩ := hwalk.of_snoc
    obtain ⟨rfl, rfl⟩ := hdown.eq_node hnode rfl
    exact ⟨init, rfl, hinit⟩

theorem isDir_of_leads (hleads : hierarchy.Leads node.id name fid) : node.type = .dir := by
  obtain ⟨target, htarget, hid, htype⟩ := hleads.isDir
  exact eq_of_id htarget hnode hid ▸ htype

end

/-! ## Removals -/

/-- A path with `..` in a directory that is gone, from the directory that it
was in. -/
structure LeftBehind (hierarchy : Hierarchy) (gone : Node) (components : List Name) (fid : ℤ) :
    Prop where
  isDir : gone.type = .dir
  fid_eq : fid = gone.parent
  walk : ∃ init, components = init ++ [gone.name, Tree.parentDir] ∧
    Walk hierarchy.Down rootFid init gone.parent

variable (hnode : node ∈ hierarchy.nodes)

include hnode

theorem down_of_erase {start : ℤ} (hsubset : hierarchy.nodes.erase node ⊆ changed.nodes)
    (hleaf : ∀ other ∈ hierarchy.nodes, other.parent ≠ node.id) (hfid : fid ≠ node.id)
    (hwalk : Walk hierarchy.Down start components fid) :
    Walk changed.Down start components fid := by
  refine hwalk.imp fun before label after source target _ _ hdown hafter => ?_
  obtain ⟨other, hother, hroot, hparent, hname, rfl⟩ := hdown
  refine ⟨other, hsubset ((mem_erase_iff hnode).mpr ⟨hother, fun hid => ?_⟩), hroot, hparent,
    hname, rfl⟩
  rw [hid] at hafter
  cases hafter with
  | nil => exact hfid rfl
  | cons hedge _ =>
    obtain ⟨below, hbelow, -, hin, -, -⟩ := hedge
    exact hleaf below hbelow hin

/-- A path that passes a node in which there is nothing ends with one of its
links. -/
theorem link_of_leaf (hleaf : ∀ other ∈ hierarchy.nodes, other.parent ≠ node.id)
    (hleads : hierarchy.Leads node.id name fid) :
    node.type = .dir ∧
      (name = Tree.thisDir ∧ fid = node.id ∨ name = Tree.parentDir ∧ fid = node.parent) := by
  obtain ⟨other, hother, hentry⟩ := mem_entries.mp hleads
  rcases mem_cons.mp hentry with heq | hlink
  · obtain ⟨-, hin, -⟩ := Dentry.mk.inj heq
    exact absurd hin.symm (hleaf other hother)
  · have hid : node.id = other.id := (Node.not_isNamed_of_mem_links hlink).1
    obtain rfl := eq_of_id hnode hother hid
    obtain ⟨htype, heq | heq⟩ := Node.mem_links.mp hlink
    · obtain ⟨rfl, -, rfl⟩ := Dentry.mk.inj heq
      exact ⟨htype, .inl ⟨rfl, rfl⟩⟩
    · obtain ⟨rfl, -, rfl⟩ := Dentry.mk.inj heq
      exact ⟨htype, .inr ⟨rfl, rfl⟩⟩

theorem walk_of_erase (hsubset : hierarchy.nodes.erase node ⊆ changed.nodes)
    (hleaf : ∀ other ∈ hierarchy.nodes, other.parent ≠ node.id) (hkey : IsKey path components)
    (hwalk : Walk hierarchy.Leads rootFid components fid) (hfid : fid ≠ node.id) :
    Walk changed.Leads rootFid components fid ∨ changed.LeftBehind node components fid := by
  by_cases hvia : ∃ before after, components = before ++ after ∧
      Walk hierarchy.Leads rootFid before node.id ∧ Walk hierarchy.Leads node.id after fid
  swap
  · refine .inl (walk_of_avoids hnode hsubset hwalk fun before after hsplit hbefore hafter => ?_)
    exact hvia ⟨before, after, hsplit, hbefore, hafter⟩
  obtain ⟨before, after, rfl, hbefore, hafter⟩ := hvia
  cases hafter with
  | nil => exact absurd rfl hfid
  | @cons _ next _ label rest hedge hrest =>
    obtain ⟨htype, hlink⟩ := link_of_leaf hnode hleaf hedge
    -- only the last component is a link
    have hlast : rest = [] := by
      by_contra hne
      have hmem : label ∈ (before ++ label :: rest).dropLast := by
        rw [dropLast_append_cons, dropLast_cons_of_ne_nil hne]
        exact mem_append_right _ mem_cons_self
      obtain ⟨hthis, hparent⟩ := hkey.named label hmem
      exact hlink.elim (fun hlink => hthis hlink.1) fun hlink => hparent hlink.1
    subst hlast
    obtain rfl := hrest.eq_of_nil
    rcases hlink with ⟨-, heq⟩ | ⟨rfl, heq⟩
    · exact absurd heq hfid
    · have hroot : node.id ≠ rootFid := fun hroot => hleaf _ hierarchy.root hroot.symm
      obtain ⟨init, rfl, hinit⟩ := snoc_of_down hnode hroot (hkey.down_before hbefore)
      refine .inr ⟨htype, heq, init, by rw [append_assoc, singleton_append], ?_⟩
      exact down_of_erase hnode hsubset hleaf (hleaf node hnode) hinit

/-! ## Moves -/

/-- A path that passes a node begins with the path of the node. -/
theorem path_of_via {before after : List Name} (hroot : node.id ≠ rootFid)
    (hkey : IsKey path (before ++ after)) (hbefore : Walk hierarchy.Leads rootFid before node.id)
    (hafter : Walk hierarchy.Leads node.id after fid) :
    ∃ init rest, before ++ after = init ++ node.name :: rest ∧
      Walk hierarchy.Down rootFid init node.parent ∧ (rest ≠ [] → node.type = .dir) := by
  cases hafter with
  | @cons _ next _ label rest hedge hrest =>
    obtain ⟨init, rfl, hinit⟩ := snoc_of_down hnode hroot (hkey.down_before hbefore)
    exact ⟨init, label :: rest, by rw [append_assoc, singleton_append], hinit,
      fun _ => isDir_of_leads hnode hedge⟩
  | nil =>
    rw [append_nil] at hkey ⊢
    obtain ⟨front, last, rfl⟩ : ∃ front last, before = front ++ [last] :=
      ⟨_, _, (dropLast_append_getLast hkey.ne_nil).symm⟩
    obtain ⟨dir, hfront, hleads⟩ := hbefore.of_snoc
    have hdown := hkey.down_before hfront
    obtain ⟨other, hother, hentry⟩ := mem_entries.mp hleads
    rcases mem_cons.mp hentry with heq | hlink
    · obtain ⟨hid, rfl, rfl⟩ := Dentry.mk.inj heq
      obtain rfl := eq_of_id hnode hother hid
      exact ⟨front, [], rfl, hdown, fun hne => absurd rfl hne⟩
    · obtain ⟨htype, heq | heq⟩ := Node.mem_links.mp hlink
      · obtain ⟨hid, rfl, rfl⟩ := Dentry.mk.inj heq
        obtain rfl := eq_of_id hnode hother hid
        obtain ⟨init, rfl, hinit⟩ := snoc_of_down hnode hroot hdown
        exact ⟨init, [Tree.thisDir], by rw [append_assoc, singleton_append], hinit,
          fun _ => htype⟩
      · obtain ⟨hid, rfl, rfl⟩ := Dentry.mk.inj heq
        have hotherRoot : other.id ≠ rootFid := by
          intro hotherRoot
          rw [eq_root hother hotherRoot] at hid
          exact hroot hid
        obtain ⟨middle, rfl, hmiddle⟩ := snoc_of_down hother hotherRoot hdown
        rw [← hid] at hmiddle
        obtain ⟨init, rfl, hinit⟩ := snoc_of_down hnode hroot hmiddle
        refine ⟨init, [other.name, Tree.parentDir], ?_, hinit, fun _ => ?_⟩
        · simp only [append_assoc, cons_append, nil_append]
        · obtain ⟨target, htarget, htargetId, htargetType⟩ := hierarchy.parents other hother
          exact eq_of_id htarget hnode (htargetId.trans hid.symm) ▸ htargetType

/-- A path that does not begin with the path of the node. -/
theorem walk_of_move (hroot : node.id ≠ rootFid)
    (hsubset : hierarchy.nodes.erase node ⊆ changed.nodes) (hkey : IsKey path components)
    (hwalk : Walk hierarchy.Leads rootFid components fid)
    (hother : ∀ init rest, components = init ++ node.name :: rest →
      Walk hierarchy.Down rootFid init node.parent → ¬ (rest ≠ [] → node.type = .dir)) :
    Walk changed.Leads rootFid components fid := by
  refine walk_of_avoids hnode hsubset hwalk fun before after hsplit hbefore hafter => ?_
  subst hsplit
  obtain ⟨init, rest, hsplit, hinit, hrest⟩ := path_of_via hnode hroot hkey hbefore hafter
  exact hother init rest hsplit hinit hrest

/-- A directory that takes the place of one that is gone has the same directory
as its parent. -/
theorem walk_of_leftBehind {gone : Node} (htype : node.type = .dir)
    (havoid : ¬ ReflTransGen (ParentIn hierarchy.nodes) gone.parent node.id)
    (hnodes : changed.nodes =
      { node with parent := gone.parent, name := gone.name } :: hierarchy.nodes.erase node)
    (hleft : hierarchy.LeftBehind gone components fid) :
    Walk changed.Leads rootFid components fid := by
  obtain ⟨-, rfl, init, rfl, hinit⟩ := hleft
  have hmoved : { node with parent := gone.parent, name := gone.name } ∈ changed.nodes :=
    hnodes ▸ mem_cons_self
  have hkept : Walk changed.Leads rootFid init gone.parent := by
    refine hinit.imp fun before label after source target _ _ hdown hafter => ?_
    obtain ⟨other, hother, -, rfl, rfl, rfl⟩ := hdown
    have hmem : other ∈ changed.nodes := by
      rw [hnodes]
      refine mem_cons_of_mem _ ((mem_erase_iff hnode).mpr ⟨hother, fun hid => havoid ?_⟩)
      exact hid ▸ reaches_of_down hafter
    exact entry_mem hmem
  have hback : changed.Leads node.id Tree.parentDir gone.parent :=
    link_mem hmoved (Node.mem_links.mpr ⟨htype, .inr rfl⟩)
  have hthere := entry_mem hmoved
  exact hkept.append (.cons hthere (.cons hback .nil))

end Hierarchy

/-! ## Invalidation -/

namespace CachedTree

variable {cached next : CachedTree} {hierarchy : Hierarchy} {node : Node} {fa : Fattr}
  {belowFlag : Bool}

/-- `next` has the same tree and no other cached paths than `cached`. -/
structure Shrinks (cached next : CachedTree) : Prop where
  tree : next.tree = cached.tree
  cache : next.pathToFidCache ⊆ cached.pathToFidCache

theorem Shrinks.refl (cached : CachedTree) : cached.Shrinks cached := ⟨rfl, List.Subset.refl _⟩

theorem shrinks_erasePath (path : Name) : cached.Shrinks (cached.erasePath path) :=
  ⟨rfl, filter_subset_self _⟩

theorem shrinks_eraseBelow (pn : Name) : cached.Shrinks (cached.eraseBelow pn belowFlag) := by
  rw [eraseBelow]
  by_cases hbelow : belowFlag = true
  swap
  · rw [if_pos hbelow]
    exact shrinks_erasePath pn
  simp only [if_neg (not_not.mpr hbelow)]
  generalize (if pn.getLast? = some '/' then pn else pn ++ ['/']) = dirPath
  split_ifs
  · exact ⟨rfl, nil_subset _⟩
  · refine ⟨rfl, fun entry hentry => ?_⟩
    exact (shrinks_erasePath pn).cache (mem_of_mem_filter hentry)

theorem shrinks_invalidatePathCache {name : Name}
    (hinvalidate : cached.invalidatePathCache name fa belowFlag = some next) :
    cached.Shrinks next := by
  rw [invalidatePathCache] at hinvalidate
  by_cases hempty : cached.pathToFidCache = []
  · rw [if_pos hempty] at hinvalidate
    cases hinvalidate
    exact .refl cached
  rw [if_neg hempty] at hinvalidate
  obtain ⟨pn, -, rfl⟩ := Option.map_eq_some_iff.mp hinvalidate
  by_cases hcleared : pn = []
  · rw [if_pos hcleared]
    exact ⟨rfl, nil_subset _⟩
  · rw [if_neg hcleared]
    exact shrinks_eraseBelow _

variable {entry : Name × ℤ}

/-- What is left has another path, and for a directory that is moved one that
does not begin with the path and a slash. -/
theorem not_below_of_mem {pn : Name}
    (hentry : entry ∈ (cached.eraseBelow pn belowFlag).pathToFidCache) :
    entry.1 ≠ pn ∧ (belowFlag = true → ¬ pn ++ ['/'] <+: entry.1) := by
  have hself : ∀ entry ∈ (cached.erasePath pn).pathToFidCache, entry.1 ≠ pn := fun entry hentry =>
    of_decide_eq_true (mem_filter.mp hentry).2
  rw [eraseBelow] at hentry
  by_cases hbelow : belowFlag = true
  swap
  · rw [if_pos hbelow] at hentry
    exact ⟨hself entry hentry, fun htrue => absurd htrue hbelow⟩
  simp only [if_neg (not_not.mpr hbelow)] at hentry
  by_cases hmany : 2 ^ 10 < ((cached.erasePath pn).pathToFidCache.filter fun entry =>
      (if pn.getLast? = some '/' then pn else pn ++ ['/']).isPrefixOf entry.1).length
  · rw [if_pos hmany] at hentry
    cases hentry
  rw [if_neg hmany] at hentry
  obtain ⟨hmem, hother⟩ := mem_filter.mp hentry
  refine ⟨hself entry hmem, fun _ hslash => of_decide_eq_true hother ?_⟩
  rw [List.isPrefixOf_iff_prefix]
  split_ifs
  · exact (prefix_append pn ['/']).trans hslash
  · exact hslash

/-- The path that `invalidatePathCache` makes of the parent and the name. -/
theorem path_of_parent {init : List Name} {pn name : Name} (hplain : ∀ other ∈ init, other ≠ [])
    (hpn : pn = '/' :: ['/'].intercalate init) :
    (if pn = Tree.rootName then pn ++ name else pn ++ '/' :: name) = pathOf (init ++ [name]) := by
  rw [pathOf_append, pathOf_singleton]
  by_cases hinit : init = []
  · subst hinit
    have hroot : pn = Tree.rootName := hpn.trans (by rw [intercalate_nil, Tree.rootName])
    rw [hroot]
    rfl
  · have hne : pn ≠ Tree.rootName := by
      rw [hpn]
      exact fun heq => intercalate_ne_nil hinit hplain (cons.inj heq).2
    rw [if_neg hne, hpn, pathOf_eq_cons hinit]

/-- The paths that are left after `invalidatePathCache` for a node. -/
theorem not_path_of_mem {init rest : List Name} (hholds : cached.tree.Holds hierarchy)
    (hroot : node.id ≠ rootFid) (hobject : fa.object = node.object)
    (hinvalidate : cached.invalidatePathCache node.name fa belowFlag = some next)
    (hentry : entry ∈ next.pathToFidCache) (hinit : Walk hierarchy.Down rootFid init node.parent)
    (hkey : IsKey entry.1 (init ++ node.name :: rest)) :
    rest ≠ [] ∧ (belowFlag = true → node.type ≠ .dir) := by
  have hplain : ∀ name ∈ init, name ≠ [] := fun name hname =>
    (hkey.plain name (mem_append_left _ hname)).1
  have hpointer : fa.parent = some node.parent := by
    have hparent : fa.parent = if node.id = rootFid then none else some node.parent :=
      congrArg (·.2.2) hobject
    rw [hparent, if_neg hroot]
  have htype : fa.type = node.type := congrArg (·.2.1) hobject
  rw [invalidatePathCache] at hinvalidate
  by_cases hempty : cached.pathToFidCache = []
  · rw [if_pos hempty] at hinvalidate
    cases hinvalidate
    rw [hempty] at hentry
    cases hentry
  rw [if_neg hempty, hpointer] at hinvalidate
  obtain ⟨pn, hpn, rfl⟩ := Option.map_eq_some_iff.mp hinvalidate
  by_cases hcleared : pn = []
  · rw [if_pos hcleared] at hentry
    cases hentry
  rw [if_neg hcleared] at hentry
  have htext : pn = '/' :: ['/'].intercalate init := by
    dsimp only at hpn
    rw [getPathname] at hpn
    split_ifs at hpn
    · have hstart : cached.tree.getPathnameFrom (cached.tree.leaves.length + 1) node.parent
          (['/'].intercalate []) = some pn := by
        rwa [intercalate_nil]
      have hpath := hholds.getPathnameFrom_eq hinit (by rwa [append_nil]) hstart
      rw [append_nil] at hpath
      exact hpath.resolve_left hcleared
    · exact absurd (Option.some.inj hpn).symm hcleared
  rw [path_of_parent hplain htext] at hentry
  obtain ⟨hself, hbelow⟩ := not_below_of_mem hentry
  have hsplit : init ++ node.name :: rest = (init ++ [node.name]) ++ rest := by
    rw [append_assoc, singleton_append]
  have hpath : entry.1 = pathOf (init ++ [node.name]) ++ pathOf rest := by
    rw [hkey.path_eq, hsplit, pathOf_append]
  rw [hpath] at hself hbelow
  have hrest : rest ≠ [] := by
    rintro rfl
    exact hself (append_nil _)
  refine ⟨hrest, fun hflag hdir => hbelow ?_ ?_⟩
  · rw [hflag, htype, hdir]
    rfl
  · rw [pathOf_eq_cons hrest]
    exact (prefix_append_right_inj _).mpr (prefix_append ['/'] _)

end CachedTree

end QfsRepair.Meta
