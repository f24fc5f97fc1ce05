import QfsRepair.Meta.NamespaceRuns

/-!
# Search permission along a path

`lookupPath` asks for search permission where it enters a directory.  The
directory the path starts from is never entered: it is checked only when the
last name is looked up in it.  `Tree::lookup` asks the parent of the object it
finds, which for `..` is not the directory the name is looked up in.
-/

namespace QfsRepair.Meta

open Option

namespace Tree

variable (tree : Tree) (env : Environment) (euser egroup : ℕ)

/-- One name after another is looked up in what was found before.  The result is
what is found, each behind the directory it is found in. -/
def walk (look : ℤ → Name → Option Fattr) : ℤ → List Name → Option (List (ℤ × Fattr))
  | _, [] => some []
  | dir, name :: rest =>
    (look dir name).bind fun fa => (walk look fa.id rest).map ((dir, fa) :: ·)

/-- `Tree::lookup` applied component by component. -/
def lookupEach : ℤ → List Name → Option (List (ℤ × Fattr)) :=
  walk fun dir name => (tree.lookup env dir name euser egroup).bind Except.toOption

/-- The objects that names lead to. -/
def trail : ℤ → List Name → Option (List (ℤ × Fattr)) :=
  walk fun dir name => (tree.getDentry dir name).bind fun entry => tree.getFattr entry.id

/-- The directory a path starts from. -/
def pathStart (rootdir : ℤ) (path : Name) : ℤ :=
  if rootdir = 0 ∨ path.head? = some '/' then rootFid else rootdir

/-- The names of a path; one of slashes only has the root's name. -/
def pathNames (path : Name) : List Name :=
  if pathComponents path = [] then [rootName] else pathComponents path

/-- A slash is behind the last name. -/
def endsInSlash (path : Name) : Bool := pathComponents path ≠ [] && path.getLast? = some '/'

def MaySearch (dir : ℤ) : Prop :=
  ∃ fa, tree.getFattr dir = some fa ∧ fa.canSearch env.isGroupMember euser egroup = true

/-- A path that is found was searched from its start on, and the lookups of the
user find the same. -/
def SearchesPath (rootdir : ℤ) (path : Name) : Prop :=
  ∀ fa, tree.lookupPath env rootdir path euser egroup = some (.ok fa) →
    tree.MaySearch env euser egroup (pathStart rootdir path) ∧
      ∃ passed last, tree.lookupEach env euser egroup (pathStart rootdir path) (pathNames path) =
          some (passed ++ [(last, fa)]) ∧
        ∀ step ∈ passed, step.2.canSearch env.isGroupMember euser egroup = true

/-- A path leads to an object through directories that the user may search; with
a slash at its end it leads to a directory. -/
structure Leads (rootdir : ℤ) (path : Name) (passed : List (ℤ × Fattr)) (last : ℤ × Fattr) :
    Prop where
  nonempty : path ≠ []
  trail : tree.trail (pathStart rootdir path) (pathNames path) = some (passed ++ [last])
  search : ∀ step ∈ passed, step.2.type = .dir ∧
    step.2.canSearch env.isGroupMember euser egroup = true
  slash : endsInSlash path = true → last.2.type = .dir

variable {tree env euser egroup} {dir rootdir : ℤ} {name path : Name} {names : List Name}
  {fa : Fattr} {steps : List (ℤ × Fattr)}

/-- A walk that also asks something of what it finds. -/
theorem walk_iff_of_and {look asked : ℤ → Name → Option Fattr} {Allowed : ℤ → Fattr → Prop}
    (hasked : ∀ dir name fa, asked dir name = some fa ↔ look dir name = some fa ∧ Allowed dir fa) :
    walk asked dir names = some steps ↔
      walk look dir names = some steps ∧ ∀ step ∈ steps, Allowed step.1 step.2 := by
  induction names generalizing dir steps with
  | nil =>
    refine (and_iff_left_of_imp fun hnil => ?_).symm
    cases hnil
    simp
  | cons name names ih =>
    simp only [walk, bind_eq_some_iff, map_eq_some_iff, hasked, ih]
    constructor
    · rintro ⟨fa, ⟨hlook, hfa⟩, rest, ⟨hrest, hall⟩, rfl⟩
      exact ⟨⟨fa, hlook, rest, hrest, rfl⟩, List.forall_mem_cons.mpr ⟨hfa, hall⟩⟩
    · rintro ⟨⟨fa, hlook, rest, hrest, rfl⟩, hall⟩
      obtain ⟨hfa, hall⟩ := List.forall_mem_cons.mp hall
      exact ⟨fa, ⟨hlook, hfa⟩, rest, ⟨hrest, hall⟩, rfl⟩

theorem lookupEach_iff :
    tree.lookupEach env euser egroup dir names = some steps ↔
      tree.trail dir names = some steps ∧
        ∀ step ∈ steps, tree.MayAccess env euser egroup step.1 step.2 := by
  refine walk_iff_of_and fun dir name fa => ?_
  have htoOption : ∀ result : Except Status Fattr, result.toOption = some fa ↔ result = .ok fa :=
    fun result => by cases result <;> simp [Except.toOption]
  simp only [bind_eq_some_iff, htoOption, exists_eq_right, lookup_ok_iff]
  exact ⟨fun ⟨entry, hentry, hfattr, haccess⟩ => ⟨⟨entry, hentry, hfattr⟩, haccess⟩,
    fun ⟨⟨entry, hentry, hfattr⟩, haccess⟩ => ⟨entry, hentry, hfattr, haccess⟩⟩

theorem trail_cons_iff :
    tree.trail dir (name :: names) = some steps ↔
      ∃ entry fa rest, tree.getDentry dir name = some entry ∧ tree.getFattr entry.id = some fa ∧
        tree.trail fa.id names = some rest ∧ steps = (dir, fa) :: rest := by
  simp only [trail, walk, bind_eq_some_iff, map_eq_some_iff]
  constructor
  · rintro ⟨fa, ⟨entry, hentry, hfattr⟩, rest, hrest, rfl⟩
    exact ⟨entry, fa, rest, hentry, hfattr, hrest, rfl⟩
  · rintro ⟨entry, fa, rest, hentry, hfattr, hrest, rfl⟩
    exact ⟨fa, ⟨entry, hentry, hfattr⟩, rest, hrest, rfl⟩

/-! ## The loop -/

theorem lookupComponents_ok_iff {start : ℤ} {trailing : Bool} :
    tree.lookupComponents env start trailing euser egroup dir names = some (.ok fa) ↔
      ∃ passed last, tree.trail dir names = some (passed ++ [(last, fa)]) ∧
        (∀ step ∈ passed, step.2.type = .dir ∧
          step.2.canSearch env.isGroupMember euser egroup = true) ∧
        (trailing = true → fa.type = .dir) ∧
        (trailing = false → last = start → tree.MayAccess env euser egroup last fa) := by
  induction names generalizing dir with
  | nil => simp [lookupComponents, trail, walk]
  | cons name rest ih =>
    cases rest with
    | nil =>
      rw [lookupComponents_last_ok_iff]
      constructor
      · rintro ⟨entry, hentry, hfattr, hlast⟩
        exact ⟨[], dir, trail_cons_iff.mpr ⟨entry, fa, [], hentry, hfattr, rfl, rfl⟩, by simp,
          hlast⟩
      · rintro ⟨passed, last, htrail, -, hlast⟩
        obtain ⟨entry, found, _, hentry, hfattr, ⟨⟩, hsteps⟩ := trail_cons_iff.mp htrail
        obtain ⟨rfl, ⟨⟩⟩ := @List.append_inj' _ passed [(last, fa)] [] _ hsteps rfl
        exact ⟨entry, hentry, hfattr, hlast⟩
    | cons second rest =>
      rw [lookupComponents_cons_ok_iff]
      constructor
      · rintro ⟨entry, da, hentry, hfattr, htype, hsearch, hrest⟩
        rw [← getFattr_id hfattr] at hrest
        obtain ⟨passed, last, htrail, hpassed, hlast⟩ := ih.mp hrest
        exact ⟨(dir, da) :: passed, last, trail_cons_iff.mpr ⟨entry, da, _, hentry, hfattr,
          htrail, rfl⟩, List.forall_mem_cons.mpr ⟨⟨htype, hsearch⟩, hpassed⟩, hlast⟩
      · rintro ⟨passed, last, htrail, hpassed, hlast⟩
        obtain ⟨entry, da, tail, hentry, hfattr, hrest, hsteps⟩ := trail_cons_iff.mp htrail
        cases passed with
        | nil =>
          cases hsteps
          obtain ⟨_, _, _, -, -, -, hnil⟩ := trail_cons_iff.mp hrest
          cases hnil
        | cons first passed =>
          cases hsteps
          obtain ⟨⟨htype, hsearch⟩, hpassed⟩ := List.forall_mem_cons.mp hpassed
          refine ⟨entry, da, hentry, hfattr, htype, hsearch, ?_⟩
          rw [← getFattr_id hfattr]
          exact ih.mpr ⟨passed, last, hrest, hpassed, hlast⟩

theorem lookupPath_eq (hpath : path ≠ []) :
    tree.lookupPath env rootdir path euser egroup =
      tree.lookupComponents env (pathStart rootdir path) (endsInSlash path) euser egroup
        (pathStart rootdir path) (pathNames path) := by
  rw [lookupPath, if_neg hpath]
  by_cases hcomponents : pathComponents path = []
  · simp [pathNames, endsInSlash, hcomponents, lookupComponents, pathStart]
  · simp [pathNames, endsInSlash, hcomponents, pathStart]

theorem lookupPath_ok_iff :
    tree.lookupPath env rootdir path euser egroup = some (.ok fa) ↔
      ∃ passed last, tree.Leads env euser egroup rootdir path passed (last, fa) ∧
        (endsInSlash path = false → last = pathStart rootdir path →
          tree.MayAccess env euser egroup last fa) := by
  by_cases hpath : path = []
  · rw [lookupPath, if_pos hpath]
    refine iff_of_false (by simp) ?_
    rintro ⟨_, _, hleads, -⟩
    exact hleads.nonempty hpath
  rw [lookupPath_eq hpath, lookupComponents_ok_iff]
  constructor
  · rintro ⟨passed, last, htrail, hpassed, htype, hasked⟩
    exact ⟨passed, last, ⟨hpath, htrail, hpassed, htype⟩, hasked⟩
  · rintro ⟨passed, last, ⟨-, htrail, hpassed, htype⟩, hasked⟩
    exact ⟨passed, last, htrail, hpassed, htype, hasked⟩

/-- The search permissions are enforced exactly when, if the path leads to an
object at all, the user may search the start and the parents of all objects on
the way, or is refused the only lookup that is made for the user. -/
theorem searchesPath_iff (tree : Tree) (env : Environment) (euser egroup : ℕ) (rootdir : ℤ)
    (path : Name) :
    tree.SearchesPath env euser egroup rootdir path ↔
      ∀ passed last, tree.Leads env euser egroup rootdir path passed last →
        tree.MaySearch env euser egroup (pathStart rootdir path) ∧
            (∀ step ∈ passed ++ [last], tree.MayAccess env euser egroup step.1 step.2) ∨
          endsInSlash path = false ∧ last.1 = pathStart rootdir path ∧
            ¬ tree.MayAccess env euser egroup last.1 last.2 := by
  constructor
  · intro hsearches passed last hleads
    by_cases hasked : endsInSlash path = false → last.1 = pathStart rootdir path →
        tree.MayAccess env euser egroup last.1 last.2
    · obtain ⟨hstart, found, dir, heach, -⟩ :=
        hsearches last.2 (lookupPath_ok_iff.mpr ⟨passed, last.1, hleads, hasked⟩)
      obtain ⟨htrail, hall⟩ := lookupEach_iff.mp heach
      rw [hleads.trail] at htrail
      rw [← some.inj htrail] at hall
      exact .inl ⟨hstart, hall⟩
    · push Not at hasked
      exact .inr hasked
  · intro hguarded fa hok
    obtain ⟨passed, last, hleads, hasked⟩ := lookupPath_ok_iff.mp hok
    rcases hguarded passed (last, fa) hleads with ⟨hstart, hall⟩ | ⟨hslash, hlast, hrefused⟩
    · exact ⟨hstart, passed, last, lookupEach_iff.mpr ⟨hleads.trail, hall⟩,
        fun step hstep => (hleads.search step hstep).2⟩
    · exact absurd (hasked hslash hlast) hrefused

/-- A directory that only the root user may search, with another one inside. -/
def privateTree : Option Tree :=
  (newTree true quiet userRoot groupRoot 0o755).bind fun start => start.runRequests {}
    [rootRequest (.change (.mkdir rootFid ['a'] userRoot groupRoot 0o700)),
      rootRequest (.change (.mkdir 3 ['b'] userRoot groupRoot 0o755))]

/-- Any user finds the inner one by a path with a slash at its end. -/
theorem not_searchesPath_private :
    ∃ last, privateTree = some last ∧ ¬ last.SearchesPath quiet 100 100 3 "b/".toList := by
  have hresults : privateTree.map (fun last =>
      ((last.lookupPath quiet 3 "b/".toList 100 100).map Except.toBool,
        (last.getFattr 3).all fun fa => !fa.canSearch quiet.isGroupMember 100 100)) =
        some (some true, true) := by
    decide +kernel
  obtain ⟨last, hlast, heq⟩ := map_eq_some_iff.mp hresults
  obtain ⟨hfound, hprivate⟩ := Prod.mk.inj heq
  refine ⟨last, hlast, fun hsearches => ?_⟩
  obtain ⟨result, hlookup, hok⟩ := map_eq_some_iff.mp hfound
  cases result with
  | error status => cases hok
  | ok fa =>
    obtain ⟨start, hstart, hsearch⟩ := (hsearches fa hlookup).1
    have hstart : last.getFattr 3 = some start := hstart
    rw [hstart, all_some, hsearch] at hprivate
    cases hprivate

end Tree

end QfsRepair.Meta
