import QfsRepair.Meta.HierarchyCalls
import QfsRepair.Meta.NamespaceChanges

/-!
# Runs of namespace requests

Sequences of create, mkdir, remove, rmdir and rename requests from the tree
that holds only the root.  As long as no rename takes one of the links `.` and
`..` for its source, the entries and attributes form a tree; a rename of the
link of a directory to itself gives that directory a second name.
-/

namespace QfsRepair.Meta

open List Option Hierarchy
open Relation (ReflTransGen)

/-! ## Requests -/

/-- A request of a client that changes the namespace. -/
inductive TreeRequest where
  | change (request : NamespaceRequest)
  | rename (dir : ℤ) (oldname newname : Name) (overwrite : Bool)

/-- A request with the caller and the state of the server's surroundings. -/
structure RequestStep where
  env : Environment
  caller : Caller
  request : TreeRequest

namespace TreeRequest

/-- The source of a rename is a link. -/
def RenamesLink : TreeRequest → Prop
  | change _ => False
  | rename _ oldname _ _ => oldname = Tree.thisDir ∨ oldname = Tree.parentDir

instance : DecidablePred RenamesLink
  | change _ => inferInstanceAs (Decidable False)
  | rename _ _ _ _ => inferInstanceAs (Decidable (_ ∨ _))

/-- The status of a request and the tree after it. -/
def handle (settings : Settings) (env : Environment) (caller : Caller) (tree : Tree) :
    TreeRequest → Option (Status × Tree)
  | change request =>
    (request.handle settings env caller tree).map fun (status, _, tree) => (status, tree)
  | rename dir oldname newname overwrite =>
    (tree.handleRename settings env caller dir oldname newname overwrite).map
      fun (status, _, tree) => (status, tree)

end TreeRequest

namespace Tree

/-- The tree after a sequence of requests. -/
def runRequests (settings : Settings) : Tree → List RequestStep → Option Tree
  | tree, [] => some tree
  | tree, step :: steps =>
    (step.request.handle settings step.env step.caller tree).bind fun (_, tree) =>
      runRequests settings tree steps

/-- The calls that requests make of the tree. -/
inductive Called (tree : Tree) : Tree → Prop where
  | nothing : Called tree tree
  | create {next : Tree} {env : Environment} {dir : ℤ} {fname : Name}
      {numReplicas striperType numStripes numRecoveryStripes stripeSize todumpster fid result : ℤ}
      {user group mode euser egroup : ℕ} {exclusive : Bool} {status : Status}
      (hcreate : tree.create env dir fname 0 numReplicas exclusive striperType numStripes
        numRecoveryStripes stripeSize todumpster user group mode euser egroup =
          some (status, fid, result, next)) : Called tree next
  | mkdir {next : Tree} {env : Environment} {dir fid : ℤ} {fname : Name}
      {user group mode euser egroup : ℕ} {status : Status}
      (hmkdir : tree.mkdir env dir fname user group mode euser egroup 0 =
        some (status, fid, next)) : Called tree next
  | remove {next : Tree} {env : Environment} {dir todumpster result : ℤ} {fname : Name}
      {euser egroup : ℕ} {status : Status}
      (hremove : tree.remove env dir fname todumpster euser egroup =
        some (status, result, next)) : Called tree next
  | rmdir {next : Tree} {env : Environment} {dir : ℤ} {fname : Name} {euser egroup : ℕ}
      {status : Status}
      (hrmdir : tree.rmdir env dir fname euser egroup = some (status, next)) : Called tree next
  | rename {next : Tree} {env : Environment} {dir todumpster result : ℤ}
      {oldname newname : Name} {overwrite : Bool} {euser egroup : ℕ} {status : Status}
      (hthis : oldname ≠ thisDir) (hparent : oldname ≠ parentDir)
      (hrename : tree.rename env dir oldname newname overwrite todumpster euser egroup =
        some (status, result, next)) : Called tree next
  | setTiers {next : Tree} (fid minSTier maxSTier : ℤ) (hcalled : Called tree next) :
      Called tree (next.modifyFattr fid fun fa => { fa with minSTier, maxSTier })

variable {tree next : Tree} {settings : Settings} {env : Environment} {caller : Caller}
  {status : Status} {request : CreateRequest} {log : CreateLog}

theorem called_handleCreateChecked {euser egroup : ℕ}
    (hhandle : tree.handleCreateChecked settings env request euser egroup =
      some (status, log, next)) : tree.Called next := by
  simp only [handleCreateChecked] at hhandle
  generalize min request.numReplicas _ = numReplicas at hhandle
  by_cases htiers : TierRangeRefused request.minSTier request.maxSTier
  · rw [if_pos htiers] at hhandle
    cases hhandle
    exact .nothing
  by_cases hallowed : ¬ settings.createAllowed { request with numReplicas }
  · rw [if_neg htiers, if_pos hallowed] at hhandle
    cases hhandle
    exact .nothing
  rw [if_neg htiers, if_neg hallowed] at hhandle
  obtain ⟨⟨createStatus, fid, todumpster, created⟩, hcreate, hhandle⟩ :=
    bind_eq_some_iff.mp hhandle
  split_ifs at hhandle
  · cases hhandle
    exact .create hcreate
  · cases hhandle
    exact .setTiers fid _ _ (.create hcreate)
  · obtain ⟨fa, -, heq⟩ := map_eq_some_iff.mp hhandle
    cases heq
    exact .create hcreate

theorem called_handleInvalidChunk
    (hhandle : tree.handleInvalidChunk settings env caller request = some (status, log, next)) :
    tree.Called next := by
  rw [handleInvalidChunk] at hhandle
  split at hhandle
  · cases hhandle
    exact .nothing
  split at hhandle
  · cases hhandle
    exact .nothing
  split at hhandle
  · cases hhandle
    exact .nothing
  split at hhandle
  · cases hhandle
  obtain ⟨found, -, hhandle⟩ := bind_eq_some_iff.mp hhandle
  split at hhandle
  · cases hhandle
    exact .nothing
  split at hhandle
  · cases hhandle
    exact .nothing
  exact called_handleCreateChecked hhandle

theorem called_handleCreate
    (hhandle : tree.handleCreate settings env caller request = some (status, log, next)) :
    tree.Called next := by
  rw [handleCreate] at hhandle
  split at hhandle
  · exact called_handleInvalidChunk hhandle
  · split at hhandle
    · cases hhandle
      exact .nothing
    · split at hhandle
      · cases hhandle
        exact .nothing
      · exact called_handleCreateChecked hhandle

/-- A request other than a rename of a link makes one of the calls. -/
theorem called_handle {request : TreeRequest} (hlink : ¬ request.RenamesLink)
    (hhandle : request.handle settings env caller tree = some (status, next)) :
    tree.Called next := by
  cases request with
  | change request =>
    obtain ⟨⟨_, line, _⟩, hhandle, heq⟩ := map_eq_some_iff.mp hhandle
    cases heq
    cases request with
    | create request =>
      obtain ⟨⟨_, log, _⟩, hcreate, heq⟩ := map_eq_some_iff.mp hhandle
      cases heq
      exact called_handleCreate hcreate
    | mkdir dir name user group mode =>
      obtain ⟨⟨_, fid, owner, _⟩, hmkdir, heq⟩ := map_eq_some_iff.mp hhandle
      cases heq
      rw [handleMkdir] at hmkdir
      split at hmkdir
      · cases hmkdir
        exact .nothing
      · obtain ⟨result, hcall, heq⟩ := map_eq_some_iff.mp hmkdir
        cases heq
        exact .mkdir hcall
    | remove dir name =>
      obtain ⟨⟨_, _, _, todumpster, _⟩, hremove, heq⟩ := map_eq_some_iff.mp hhandle
      cases heq
      rw [handleRemove] at hremove
      split at hremove
      · cases hremove
        exact .nothing
      · obtain ⟨found, -, hremove⟩ := bind_eq_some_iff.mp hremove
        split at hremove
        · cases hremove
          exact .nothing
        · obtain ⟨result, hcall, heq⟩ := map_eq_some_iff.mp hremove
          cases heq
          exact .remove hcall
    | rmdir dir name =>
      obtain ⟨⟨_, _, _, _⟩, hrmdir, heq⟩ := map_eq_some_iff.mp hhandle
      cases heq
      rw [handleRmdir] at hrmdir
      split at hrmdir
      · cases hrmdir
        exact .nothing
      · obtain ⟨found, -, hrmdir⟩ := bind_eq_some_iff.mp hrmdir
        split at hrmdir
        · cases hrmdir
          exact .nothing
        · obtain ⟨result, hcall, heq⟩ := map_eq_some_iff.mp hrmdir
          cases heq
          exact .rmdir hcall
  | rename dir oldname newname overwrite =>
    obtain ⟨hthis, hparent⟩ := not_or.mp hlink
    obtain ⟨⟨_, result, _⟩, hrename, heq⟩ := map_eq_some_iff.mp hhandle
    cases heq
    simp only [handleRename] at hrename
    split at hrename
    · split at hrename
      · cases hrename
        exact .nothing
      · obtain ⟨found, -, hrename⟩ := bind_eq_some_iff.mp hrename
        split at hrename
        · exact .rename hthis hparent hrename
        · cases hrename
          exact .nothing
        · cases hrename
          exact .nothing
    · exact .rename hthis hparent hrename

variable {hierarchy : Hierarchy}

theorem Holds.called (hholds : tree.Holds hierarchy) (hcalled : tree.Called next) :
    ∃ left, next.Holds left := by
  induction hcalled with
  | nothing => exact ⟨hierarchy, hholds⟩
  | create hcreate => exact hholds.create_call hcreate
  | mkdir hmkdir =>
    obtain ⟨added, hadded, -⟩ := hholds.mkdir hmkdir
    exact ⟨added, hadded⟩
  | remove hremove =>
    obtain ⟨left, hleft, -⟩ := hholds.remove_call hremove
    exact ⟨left, hleft⟩
  | rmdir hrmdir => exact hholds.rmdir_call hrmdir
  | rename hthis hparent hrename => exact hholds.rename_call hthis hparent hrename
  | setTiers fid minSTier maxSTier _ ih =>
    obtain ⟨left, hleft⟩ := ih
    exact ⟨left, hleft.sameNames (sameNames_modifyFattr fun _ => rfl)⟩

theorem Holds.runRequests {steps : List RequestStep} (hholds : tree.Holds hierarchy)
    (hlinks : ∀ step ∈ steps, ¬ step.request.RenamesLink)
    (hrun : tree.runRequests settings steps = some next) : ∃ left, next.Holds left := by
  induction steps generalizing tree hierarchy with
  | nil =>
    cases hrun
    exact ⟨hierarchy, hholds⟩
  | cons step steps ih =>
    obtain ⟨⟨status, handled⟩, hhandle, hrest⟩ := bind_eq_some_iff.mp hrun
    obtain ⟨hfirst, hsteps⟩ := forall_mem_cons.mp hlinks
    obtain ⟨left, hleft⟩ := hholds.called (called_handle hfirst hhandle)
    exact ih hleft hsteps hrest

/-! ## The tree of a new file system -/

/-- `new_tree`: the root is made in a tree without leaves. -/
def newTree (updatePathSpaceUsage : Bool) (env : Environment) (user group mode : ℕ) :
    Option Tree :=
  (Tree.mkdir ⟨[], updatePathSpaceUsage, rootFid, rootFid⟩ env rootFid rootName user group mode
    userRoot groupRoot 0).map fun result => result.2.2

theorem newTree_attach {updatePathSpaceUsage : Bool} {user group mode : ℕ}
    (hnew : newTree updatePathSpaceUsage env user group mode = some tree) :
    Tree.attachDirectory ⟨[], updatePathSpaceUsage, rootFid, rootFid⟩ env rootFid rootName
      rootFid user group mode none = some tree := by
  obtain ⟨result, hmkdir, rfl⟩ := map_eq_some_iff.mp hnew
  obtain ⟨attached, hattach, rfl⟩ := map_eq_some_iff.mp hmkdir
  exact hattach

theorem newTree_holds {updatePathSpaceUsage : Bool} {user group mode : ℕ}
    (hnew : newTree updatePathSpaceUsage env user group mode = some tree) :
    tree.Holds Hierarchy.fresh := by
  obtain ⟨counted, hcounted, rfl⟩ := map_eq_some_iff.mp (newTree_attach hnew)
  have hstart : Shows ⟨[], updatePathSpaceUsage, rootFid, rootFid⟩ [] [] :=
    ⟨Perm.refl _, Perm.refl _⟩
  have hsame := sameNames_updateCounts hcounted
  refine ⟨Shows.sameNames (Shows.perm ((((hstart.insert_dentry _).insert_fattr _).insert_dentry
    _).insert_dentry _) ?_ ?_) hsame, ?_⟩
  · exact (reverse_perm [_, _, _]).append_right []
  · exact Perm.refl _
  · intro node hnode
    rw [mem_singleton.mp hnode]
    exact hsame.fileIdSeed.ge

/-! ## Trees -/

/-- The entries other than links that refer to an object. -/
def namesOf (tree : Tree) (fid : ℤ) : List Dentry :=
  tree.dentries.filter fun entry => entry.id = fid ∧ entry.IsNamed

/-- The entries of one name in a directory. -/
def entriesAt (tree : Tree) (dir : ℤ) (fname : Name) : List Dentry :=
  tree.dentries.filter fun entry => entry.place = (dir, fname)

/-- The entries and attributes form a tree below the root. -/
structure IsTree (tree : Tree) : Prop where
  named : ∀ fa, .fattr fa ∈ tree.leaves → fa.id ≠ rootFid →
    ∃ dir fname, tree.namesOf fa.id = [⟨fa.id, dir, fname⟩] ∧ fa.parent = some dir ∧
      (fa.type = .dir → tree.entriesAt fa.id parentDir = [⟨dir, fa.id, parentDir⟩])
  file : ∀ fa, .fattr fa ∈ tree.leaves → fa.type = .file →
    ∃ entry, (tree.dentries.filter fun entry => entry.id = fa.id) = [entry]
  this : ∀ fa, .fattr fa ∈ tree.leaves → fa.type = .dir →
    tree.entriesAt fa.id thisDir = [⟨fa.id, fa.id, thisDir⟩]
  root : tree.entriesAt rootFid parentDir = [⟨rootFid, rootFid, parentDir⟩]
  rooted : ∀ fa, .fattr fa ∈ tree.leaves → fa.type = .dir →
    ReflTransGen (fun child parent => ⟨parent, child, parentDir⟩ ∈ tree.dentries) fa.id rootFid

namespace Holds

variable {hierarchy : Hierarchy} {node : Node}

variable (hholds : tree.Holds hierarchy)

include hholds

theorem node_of_mem {fa : Fattr} (hfa : .fattr fa ∈ tree.leaves) :
    ∃ node ∈ hierarchy.nodes, fa.id = node.id ∧ fa.type = node.type ∧
      fa.parent = if node.id = rootFid then none else some node.parent := by
  obtain ⟨node, hnode, -, hobject⟩ :=
    hholds.exists_node_of_getFattr (Tree.getFattr_of_mem hholds.fattrIds_nodup hfa)
  exact ⟨node, hnode, by simpa [Fattr.object, Node.object] using hobject.symm⟩

theorem namesOf_eq (hnode : node ∈ hierarchy.nodes) :
    tree.namesOf node.id = [node.entry] := by
  rw [← perm_singleton]
  refine (hholds.dentries.filter _).trans ((filter_entries hnode ?_).trans ?_)
  · intro other hother hne entry hentry
    refine decide_eq_false fun hselected => ?_
    rcases mem_cons.mp hentry with rfl | hlink
    · exact hne hselected.1
    · exact (Node.not_isNamed_of_mem_links hlink).2 hselected.2
  · have hlinks : node.links.filter (fun entry => entry.id = node.id ∧ entry.IsNamed) = [] := by
      rw [filter_eq_nil_iff]
      intro entry hlink hselected
      exact (Node.not_isNamed_of_mem_links hlink).2 (of_decide_eq_true hselected).2
    have hself : decide (node.entry.id = node.id ∧ node.entry.IsNamed) = true :=
      decide_eq_true ⟨rfl, hierarchy.named node hnode⟩
    rw [Node.entries, filter_cons, if_pos hself, hlinks]

theorem entriesAt_eq {entry : Dentry} (hentry : entry ∈ hierarchy.entries) :
    tree.entriesAt entry.dir entry.name = [entry] := by
  rw [← perm_singleton]
  refine (hholds.dentries.filter _).trans ?_
  have hperm := (perm_cons_erase hentry).filter
    fun other => decide (other.place = (entry.dir, entry.name))
  have hnodup := ((perm_cons_erase hentry).map Dentry.place).nodup_iff.mp
    nodup_places
  have hothers : (hierarchy.entries.erase entry).filter
      (fun other => other.place = (entry.dir, entry.name)) = [] := by
    rw [filter_eq_nil_iff]
    intro other hother hplace
    exact (nodup_cons.mp hnodup).1
      (mem_map.mpr ⟨other, hother, of_decide_eq_true hplace⟩)
  have hself : decide (entry.place = (entry.dir, entry.name)) = true := decide_eq_true rfl
  rw [filter_cons, if_pos hself, hothers] at hperm
  exact hperm

/-- A file has no entry besides its name. -/
theorem entries_of_file (hnode : node ∈ hierarchy.nodes) (hfile : node.type = .file) :
    (tree.dentries.filter fun entry => entry.id = node.id) = [node.entry] := by
  rw [← perm_singleton]
  refine (hholds.dentries.filter _).trans ((filter_entries hnode ?_).trans ?_)
  · intro other hother hne entry hentry
    refine decide_eq_false fun hid => ?_
    rcases mem_cons.mp hentry with rfl | hlink
    · exact hne hid
    · obtain ⟨-, rfl | rfl⟩ := Node.mem_links.mp hlink
      · exact hne hid
      · obtain ⟨dir, hdir, hdirId, hdirType⟩ := hierarchy.parents other hother
        rw [eq_of_id hdir hnode (hdirId.trans hid), hfile] at hdirType
        cases hdirType
  · have hlinks : node.links = [] := if_neg (by rw [hfile]; decide)
    have hself : decide (node.entry.id = node.id) = true := decide_eq_true rfl
    rw [Node.entries, hlinks, filter_cons, if_pos hself, filter_nil]

/-- The links `..` lead from every directory to the root. -/
theorem reaches_root {start : ℤ} (hreach : ReflTransGen (ParentIn hierarchy.nodes) start rootFid)
    (hstart : ∃ dir ∈ hierarchy.nodes, dir.id = start ∧ dir.type = .dir) :
    ReflTransGen (fun child parent => ⟨parent, child, parentDir⟩ ∈ tree.dentries) start
      rootFid := by
  induction hreach using ReflTransGen.head_induction_on with
  | refl => exact ReflTransGen.refl
  | head hstep _ ih =>
    obtain ⟨dir, hdir, rfl, htype⟩ := hstart
    obtain rfl := eq_parent hdir hstep
    refine ReflTransGen.head ?_ (ih (hierarchy.parents dir hdir))
    exact hholds.dentries.mem_iff.mpr
      (link_mem hdir (Node.mem_links.mpr ⟨htype, .inr rfl⟩))

theorem isTree : tree.IsTree where
  named := by
    intro fa hfa hroot
    obtain ⟨node, hnode, hid, htype, hpointer⟩ := hholds.node_of_mem hfa
    rw [hid] at hroot ⊢
    rw [htype]
    refine ⟨node.parent, node.name, hholds.namesOf_eq hnode, by rw [hpointer, if_neg hroot],
      fun hdir => ?_⟩
    exact hholds.entriesAt_eq
      (link_mem hnode (Node.mem_links.mpr ⟨hdir, .inr rfl⟩))
  file := by
    intro fa hfa hfile
    obtain ⟨node, hnode, hid, htype, -⟩ := hholds.node_of_mem hfa
    rw [hid]
    exact ⟨node.entry, hholds.entries_of_file hnode (htype ▸ hfile)⟩
  this := by
    intro fa hfa hdir
    obtain ⟨node, hnode, hid, htype, -⟩ := hholds.node_of_mem hfa
    rw [hid]
    exact hholds.entriesAt_eq
      (link_mem hnode (Node.mem_links.mpr ⟨htype ▸ hdir, .inl rfl⟩))
  root := hholds.entriesAt_eq
    (link_mem hierarchy.root (Node.mem_links.mpr ⟨rfl, .inr rfl⟩))
  rooted := by
    intro fa hfa hdir
    obtain ⟨node, hnode, hid, htype, -⟩ := hholds.node_of_mem hfa
    rw [hid]
    exact hholds.reaches_root (hierarchy.rooted node hnode) ⟨node, hnode, rfl, htype ▸ hdir⟩

end Holds

/-- A run from a new file system that renames no link leaves a tree. -/
theorem isTree_of_run {start last : Tree} {updatePathSpaceUsage : Bool} {user group mode : ℕ}
    {steps : List RequestStep}
    (hstart : newTree updatePathSpaceUsage env user group mode = some start)
    (hlinks : ∀ step ∈ steps, ¬ step.request.RenamesLink)
    (hrun : start.runRequests settings steps = some last) : last.IsTree := by
  obtain ⟨hierarchy, hholds⟩ := (newTree_holds hstart).runRequests hlinks hrun
  exact hholds.isTree

/-- Requests of the root user while no lease is out. -/
def rootRequest (request : TreeRequest) : RequestStep where
  env := quiet
  caller := ⟨userRoot, groupRoot, userNone, groupNone⟩
  request := request

/-- Two directories are made in a new file system, with the ids 3 and 4, before
the first request. -/
def runWithTwoDirs (request : TreeRequest) : Option Tree :=
  (newTree true quiet userRoot groupRoot 0o755).bind fun start => start.runRequests {}
    [rootRequest (.change (.mkdir rootFid ['a'] userRoot groupRoot 0o755)),
      rootRequest (.change (.mkdir rootFid ['b'] userRoot groupRoot 0o755)), rootRequest request]

/-- The first directory is moved into the second. -/
theorem isTree_moved_dir :
    ∃ last, runWithTwoDirs (.rename rootFid ['a'] "/b/x".toList true) = some last ∧
      last.IsTree := by
  have hsome : (runWithTwoDirs (.rename rootFid ['a'] "/b/x".toList true)).isSome = true := by
    decide +kernel
  obtain ⟨last, hlast⟩ := isSome_iff_exists.mp hsome
  obtain ⟨start, hstart, hrun⟩ := bind_eq_some_iff.mp hlast
  exact ⟨last, hlast, isTree_of_run hstart (by decide) hrun⟩

/-- The link `.` of the first directory is renamed to a name in the second: the
directory has two names. -/
theorem not_isTree_renamed_link :
    ∃ last, runWithTwoDirs (.rename 3 thisDir "/b/x".toList true) = some last ∧
      ¬ last.IsTree := by
  have hnames : (runWithTwoDirs (.rename 3 thisDir "/b/x".toList true)).map
      (fun last => ((last.getFattr 3).isSome, last.namesOf 3)) =
        some (true, [⟨3, rootFid, ['a']⟩, ⟨3, 4, ['x']⟩]) := by
    decide +kernel
  obtain ⟨last, hlast, heq⟩ := map_eq_some_iff.mp hnames
  obtain ⟨hsome, htwo⟩ := Prod.mk.inj heq
  obtain ⟨fa, hfattr⟩ := isSome_iff_exists.mp hsome
  obtain ⟨item, hitem, hfound⟩ := exists_of_findSome?_eq_some hfattr
  obtain ⟨rfl, hid⟩ := Item.fattrWith_eq_some.mp hfound
  refine ⟨last, hlast, fun htree => ?_⟩
  obtain ⟨dir, fname, hone, -⟩ := htree.named fa hitem (by rw [hid]; decide)
  rw [hid, htwo] at hone
  cases hone

end Tree

end QfsRepair.Meta
