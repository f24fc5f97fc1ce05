import QfsRepair.Meta.NamespaceRuns
import QfsRepair.Meta.PathCalls

/-!
# Runs with a path cache

Calls on the namespace and lookups in any order, from a new file system with an
empty cache.  In every state that is reached a lookup has the same result as
without the cache, if no link is renamed and no directory is removed while `..`
in it is cached.
-/

namespace QfsRepair.Meta

open Option

/-- A call on a tree with a path cache. -/
inductive PathCall where
  | create (dir : ℤ) (fname : Name) (numReplicas : ℤ) (exclusive : Bool)
      (striperType numStripes numRecoveryStripes stripeSize todumpster : ℤ)
      (user group mode euser egroup : ℕ)
  | mkdir (dir : ℤ) (dname : Name) (user group mode euser egroup : ℕ)
  | remove (dir : ℤ) (fname : Name) (todumpster : ℤ) (euser egroup : ℕ)
  | rmdir (dir : ℤ) (dname : Name) (euser egroup : ℕ)
  | rename (parent : ℤ) (oldname newname : Name) (overwrite : Bool) (todumpster : ℤ)
      (euser egroup : ℕ)
  | lookupPath (rootdir : ℤ) (path : Name) (euser egroup : ℕ)

namespace PathCall

/-- The tree and the cache after a call; new files and directories take the next
id. -/
def run (env : Environment) (cached : CachedTree) : PathCall → Option CachedTree
  | create dir fname numReplicas exclusive striperType numStripes numRecoveryStripes stripeSize
      todumpster user group mode euser egroup =>
      (cached.create env dir fname 0 numReplicas exclusive striperType numStripes
        numRecoveryStripes stripeSize todumpster user group mode euser egroup).map
          fun result => result.2.2.2
  | mkdir dir dname user group mode euser egroup =>
    (cached.mkdir env dir dname user group mode euser egroup 0).map fun result => result.2.2
  | remove dir fname todumpster euser egroup =>
    (cached.remove env dir fname todumpster euser egroup).map fun result => result.2.2
  | rmdir dir dname euser egroup =>
    (cached.rmdir env dir dname euser egroup).map Prod.snd
  | rename parent oldname newname overwrite todumpster euser egroup =>
    (cached.rename env parent oldname newname overwrite todumpster euser egroup).map
      fun result => result.2.2
  | lookupPath rootdir path euser egroup =>
    (cached.lookupPath env rootdir path euser egroup).map Prod.snd

/-- A rename of a link, or the removal of a directory while `..` in it is
cached. -/
def Spoils (cached : CachedTree) : PathCall → Prop
  | rename _ oldname _ _ _ _ _ => oldname = Tree.thisDir ∨ oldname = Tree.parentDir
  | rmdir dir dname _ _ => cached.CachesParentLink dir dname
  | _ => False

instance (cached : CachedTree) : DecidablePred (Spoils cached)
  | rmdir .. => inferInstanceAs (Decidable (CachedTree.CachesParentLink _ _ _))
  | rename .. => inferInstanceAs (Decidable (_ ∨ _))
  | create .. | mkdir .. | remove .. | lookupPath .. => inferInstanceAs (Decidable False)

end PathCall

namespace CachedTree

open Tree (quiet)

variable {cached next last : CachedTree} {hierarchy : Hierarchy} {env : Environment}
  {steps : List (Environment × PathCall)}

theorem Sound.call {call : PathCall} (hsound : cached.Sound hierarchy)
    (hspoils : ¬ call.Spoils cached) (hcall : call.run env cached = some next) :
    ∃ left, next.Sound left := by
  cases call with
  | create =>
    obtain ⟨⟨_, _, _, created⟩, hcreate, rfl⟩ := map_eq_some_iff.mp hcall
    exact hsound.create hcreate
  | mkdir =>
    obtain ⟨⟨_, _, made⟩, hmake, rfl⟩ := map_eq_some_iff.mp hcall
    obtain ⟨⟨status, fid, tree⟩, hmkdir, heq⟩ := map_eq_some_iff.mp hmake
    cases heq
    obtain ⟨added, hadded, -⟩ := hsound.mkdir hmkdir
    exact ⟨added, hadded⟩
  | remove =>
    obtain ⟨⟨_, _, removed⟩, hremove, rfl⟩ := map_eq_some_iff.mp hcall
    obtain ⟨left, hleft, -⟩ := hsound.remove hremove
    exact ⟨left, hleft⟩
  | rmdir =>
    obtain ⟨⟨_, removed⟩, hrmdir, rfl⟩ := map_eq_some_iff.mp hcall
    exact hsound.rmdir hspoils hrmdir
  | rename =>
    obtain ⟨⟨_, _, renamed⟩, hrename, rfl⟩ := map_eq_some_iff.mp hcall
    obtain ⟨hthis, hparent⟩ := not_or.mp hspoils
    exact hsound.rename hthis hparent hrename
  | lookupPath =>
    obtain ⟨⟨_, found⟩, hlookup, rfl⟩ := map_eq_some_iff.mp hcall
    exact ⟨hierarchy, (hsound.lookupPath hlookup).1⟩

def runCalls : CachedTree → List (Environment × PathCall) → Option CachedTree
  | cached, [] => some cached
  | cached, step :: steps =>
    (step.2.run step.1 cached).bind fun cached => runCalls cached steps

/-- No call of the run spoils the cache. -/
def Unspoiled : CachedTree → List (Environment × PathCall) → Prop
  | _, [] => True
  | cached, step :: steps =>
    ¬ step.2.Spoils cached ∧ ∀ next ∈ step.2.run step.1 cached, Unspoiled next steps

instance decidableUnspoiled : (cached : CachedTree) → (steps : List (Environment × PathCall)) →
    Decidable (cached.Unspoiled steps)
  | _, [] => inferInstanceAs (Decidable True)
  | cached, step :: steps =>
    have (next : CachedTree) : Decidable (next.Unspoiled steps) := decidableUnspoiled next steps
    inferInstanceAs (Decidable (_ ∧ ∀ next ∈ step.2.run step.1 cached, Unspoiled next steps))

theorem Sound.runCalls (hsound : cached.Sound hierarchy) (hsteps : cached.Unspoiled steps)
    (hrun : cached.runCalls steps = some last) : ∃ left, last.Sound left := by
  induction steps generalizing cached hierarchy with
  | nil =>
    cases hrun
    exact ⟨hierarchy, hsound⟩
  | cons step steps ih =>
    obtain ⟨hspoils, hrest⟩ := hsteps
    obtain ⟨next, hcall, hrun⟩ := bind_eq_some_iff.mp hrun
    obtain ⟨left, hleft⟩ := hsound.call hspoils hcall
    exact ih hleft (hrest next hcall) hrun

/-- A new file system with an empty cache. -/
def newCachedTree (updatePathSpaceUsage allowFidToPathConversion : Bool) (env : Environment)
    (user group mode : ℕ) : Option CachedTree :=
  (Tree.newTree updatePathSpaceUsage env user group mode).map fun tree =>
    ⟨tree, [], allowFidToPathConversion⟩

theorem newCachedTree_sound {updatePathSpaceUsage allowFidToPathConversion : Bool}
    {user group mode : ℕ} (hnew : newCachedTree updatePathSpaceUsage allowFidToPathConversion env
      user group mode = some cached) : cached.Sound Hierarchy.fresh := by
  obtain ⟨tree, htree, rfl⟩ := map_eq_some_iff.mp hnew
  exact ⟨Tree.newTree_holds htree, List.forall_mem_nil _, List.forall_mem_nil _⟩

/-- In every state that is reached, a user who may search all directories gets
the result that the tree gives without the cache. -/
theorem lookupPath_eq_of_run {start : CachedTree}
    {updatePathSpaceUsage allowFidToPathConversion : Bool} {user group mode euser egroup : ℕ}
    {lookupEnv : Environment} {rootdir : ℤ} {path : Name}
    (hstart : newCachedTree updatePathSpaceUsage allowFidToPathConversion env user group mode =
      some start) (hsteps : start.Unspoiled steps) (hrun : start.runCalls steps = some last)
    (hpasses : last.tree.PassesChecks lookupEnv euser egroup) :
    (last.lookupPath lookupEnv rootdir path euser egroup).map Prod.fst =
      last.tree.lookupPath lookupEnv rootdir path euser egroup := by
  obtain ⟨left, hleft⟩ := (newCachedTree_sound hstart).runCalls hsteps hrun
  exact hleft.lookupPath_eq hpasses

/-! ## Two runs -/

/-- The directories `/a` and `/a/b`, with the ids 3 and 4, and a lookup of the
first from the second. -/
def lookupFromBelow : List (Environment × PathCall) :=
  [(quiet, .mkdir rootFid ['a'] userRoot groupRoot 0o755 userRoot groupRoot),
    (quiet, .mkdir 3 ['b'] userRoot groupRoot 0o755 userRoot groupRoot),
    (quiet, .lookupPath rootFid "/a/b/..".toList userRoot groupRoot)]

def runFromBelow (steps : List (Environment × PathCall)) : Option CachedTree :=
  (newCachedTree true true quiet userRoot groupRoot 0o755).bind fun start =>
    start.runCalls (lookupFromBelow ++ steps)

/-- The directory is moved, and found from below under its new path. -/
def moveAndLookup : List (Environment × PathCall) :=
  [(quiet, .mkdir rootFid ['c'] userRoot groupRoot 0o755 userRoot groupRoot),
    (quiet, .rename rootFid ['a'] "/c/x".toList false (-1) userRoot groupRoot),
    (quiet, .lookupPath rootFid "/c/x/b/..".toList userRoot groupRoot)]

theorem lookupPath_eq_moved : ∃ last, runFromBelow moveAndLookup = some last ∧
    last.findPath "/c/x/b/..".toList = some 3 ∧
    (last.lookupPath quiet rootFid "/c/x/b/..".toList userRoot groupRoot).map Prod.fst =
      last.tree.lookupPath quiet rootFid "/c/x/b/..".toList userRoot groupRoot := by
  have hfound : (runFromBelow moveAndLookup).map (fun last =>
      last.findPath "/c/x/b/..".toList) = some (some 3) := by
    decide +kernel
  have hunspoiled : ∀ start ∈ newCachedTree true true quiet userRoot groupRoot 0o755,
      start.Unspoiled (lookupFromBelow ++ moveAndLookup) := by
    decide +kernel
  obtain ⟨last, hlast, hfind⟩ := map_eq_some_iff.mp hfound
  obtain ⟨start, hstart, hrun⟩ := bind_eq_some_iff.mp hlast
  exact ⟨last, hlast, hfind, lookupPath_eq_of_run hstart (hunspoiled start hstart) hrun
    fun _ fa _ _ => fa.canSearch_root _ _⟩

/-- The lower directory is removed; the path that leads back from it is still
found in the cache. -/
theorem lookupPath_ne_removed : ∃ last,
    runFromBelow [(quiet, .rmdir 3 ['b'] userRoot groupRoot)] = some last ∧
    last.tree.PassesChecks quiet userRoot groupRoot ∧
    (last.lookupPath quiet rootFid "/a/b/..".toList userRoot groupRoot).map Prod.fst ≠
      last.tree.lookupPath quiet rootFid "/a/b/..".toList userRoot groupRoot := by
  have hresults : (runFromBelow [(quiet, .rmdir 3 ['b'] userRoot groupRoot)]).map (fun last =>
      ((last.lookupPath quiet rootFid "/a/b/..".toList userRoot groupRoot).map fun result =>
          result.1.toBool,
        (last.tree.lookupPath quiet rootFid "/a/b/..".toList userRoot groupRoot).map
          Except.toBool)) = some (some true, some false) := by
    decide +kernel
  obtain ⟨last, hlast, heq⟩ := map_eq_some_iff.mp hresults
  obtain ⟨hcached, huncached⟩ := Prod.mk.inj heq
  refine ⟨last, hlast, fun _ fa _ _ => fa.canSearch_root _ _, fun hsame => ?_⟩
  rw [← hsame, map_map] at huncached
  exact Bool.noConfusion (some.inj (hcached.symm.trans huncached))

end CachedTree

end QfsRepair.Meta
