import QfsRepair.Meta.Chunks

/-!
# Searches after updates

How the three searches of the tree, for an attribute, for a name and for the
chunks of a file, answer after an insertion, a deletion and an update in place.
Proofs about the operations use these equations and do not open the list of
leaves again.
-/

namespace QfsRepair.Meta

open List Item
open Option hiding map_id map_map

/-- Only the stripe parameters are set. -/
theorem Fattr.setStriped_eq {fattr striped : Fattr} {type count recoveryCount size : ℤ}
    (hstriped : fattr.setStriped type count recoveryCount size = some striped) :
    ∃ striperType numStripes numRecoveryStripes stripeSize, striped =
      { fattr with striperType, numStripes, numRecoveryStripes, stripeSize } := by
  rw [setStriped] at hstriped
  split_ifs at hstriped <;> exact ⟨_, _, _, _, (some.inj hstriped).symm⟩

namespace Item

variable {fid dir : ℤ} {name : Name} {fa : Fattr}

theorem fattrWith_eq_some {item : Item} :
    item.fattrWith fid = some fa ↔ item = .fattr fa ∧ fa.id = fid := by
  cases item with
  | fattr other =>
    simp only [fattrWith, ite_none_right_eq_some, some.injEq, fattr.injEq]
    constructor
    · rintro ⟨hid, rfl⟩
      exact ⟨rfl, hid⟩
    · rintro ⟨rfl, hid⟩
      exact ⟨hid, rfl⟩
  | _ => simp [fattrWith]

theorem deletes_dentry {entry : Dentry} {leaf : Item} (hleaf : (dentry entry).deletes leaf = true) :
    ∃ found, leaf = .dentry found ∧ found.dir = entry.dir ∧ found.name = entry.name := by
  cases leaf with
  | dentry found =>
    simp only [deletes, key, Item.matches, Bool.and_eq_true, decide_eq_true_eq,
      EmbeddingLike.apply_eq_iff_eq, Prod.mk.injEq] at hleaf
    exact ⟨found, rfl, hleaf.1.1, hleaf.2.symm⟩
  | _ => simp [deletes, Item.matches] at hleaf

theorem deletes_chunkInfo (chunk : ChunkInfo) (leaf : Item) :
    (chunkInfo chunk).deletes leaf =
      (leaf.chunkWith chunk.fid).any fun other => other.offset / 2 ^ 4 = chunk.offset / 2 ^ 4 := by
  cases leaf with
  | chunkInfo other =>
    by_cases hfid : other.fid = chunk.fid
    · simp [deletes, key, Item.matches, chunkWith, hfid]
    · simp [deletes, key, chunkWith, hfid]
  | _ => simp [deletes, Item.matches, chunkWith]

theorem deletes_fattr (fa : Fattr) (leaf : Item) :
    (fattr fa).deletes leaf = (leaf.fattrWith fa.id).isSome := by
  cases leaf with
  | fattr other =>
    by_cases hid : other.id = fa.id
    · simp [deletes, key, Item.matches, fattrWith, hid]
    · simp [deletes, key, fattrWith, hid]
  | _ => simp [deletes, Item.matches, fattrWith]

section Modify

variable {View : Type*} {view : Item → View} {fid offset : ℤ}

/-- A view that does not show the change. -/
theorem view_modifyFattr {change : Fattr → Fattr}
    (hview : ∀ fa, view (fattr (change fa)) = view (fattr fa)) (leaf : Item) :
    view (leaf.modifyFattr fid change) = view leaf := by
  cases leaf with
  | fattr fa =>
    simp only [Item.modifyFattr]
    split_ifs
    · exact hview fa
    · rfl
  | _ => rfl

theorem view_modifyChunk {change : ChunkInfo → ChunkInfo}
    (hview : ∀ chunk, view (chunkInfo (change chunk)) = view (chunkInfo chunk)) (leaf : Item) :
    view (leaf.modifyChunk fid offset change) = view leaf := by
  cases leaf with
  | chunkInfo chunk =>
    simp only [Item.modifyChunk]
    split_ifs
    · exact hview chunk
    · rfl
  | _ => rfl

end Modify

/-- The id of an attribute. -/
def fattrId : Item → Option ℤ
  | fattr fa => some fa.id
  | _ => none

end Item

namespace Tree

variable {tree next : Tree} {fid : ℤ} {fa : Fattr}

theorem getFattr_id (hfattr : tree.getFattr fid = some fa) : fa.id = fid := by
  obtain ⟨item, -, hitem⟩ := exists_of_findSome?_eq_some hfattr
  exact (fattrWith_eq_some.mp hitem).2

theorem getFattr_self (hfattr : tree.getFattr fid = some fa) :
    tree.getFattr fa.id = some fa := by
  rw [getFattr_id hfattr]
  exact hfattr

/-! ## What a lookup finds is in the tree -/

section Lookup

variable {env : Environment} {dir : ℤ} {fname : Name} {euser egroup : ℕ} {fa parent : Fattr}

/-- The result of a lookup: an attribute of the tree or an error. -/
def Found (tree : Tree) : Except Status Fattr → Prop
  | .ok fa => tree.getFattr fa.id = some fa
  | .error status => status ≠ .ok

/-- The parent of an object may be searched, as `canAccess` asks. -/
def MayAccess (tree : Tree) (env : Environment) (euser egroup : ℕ) (dir : ℤ) (fa : Fattr) : Prop :=
  euser = userRoot ∨ ∃ parent, tree.accessParent dir fa = some parent ∧
    parent.canSearch env.isGroupMember euser egroup = true

theorem lookupWithParent_cases {result : Except Status (Fattr × Fattr)}
    (hlookup : tree.lookupWithParent env dir fname euser egroup = some result) :
    tree.getDentry dir fname = none ∧ result = .error .enoent ∨
      ∃ entry fa parent, tree.getDentry dir fname = some entry ∧
        tree.getFattr entry.id = some fa ∧ tree.accessParent dir fa = some parent ∧
        result = if parent.canSearch env.isGroupMember euser egroup then .ok (fa, parent)
          else .error .eacces := by
  rw [lookupWithParent] at hlookup
  split at hlookup
  · cases hlookup
    exact .inl ⟨by assumption, rfl⟩
  · rename_i entry hentry
    obtain ⟨fa, hfattr, hlookup⟩ := bind_eq_some_iff.mp hlookup
    obtain ⟨parent, hparent, rfl⟩ := map_eq_some_iff.mp hlookup
    exact .inr ⟨entry, fa, parent, hentry, hfattr, hparent, rfl⟩

theorem lookupWithParent_found {result : Except Status (Fattr × Fattr)}
    (hlookup : tree.lookupWithParent env dir fname euser egroup = some result) :
    tree.Found (result.map Prod.fst) := by
  obtain ⟨-, rfl⟩ | ⟨entry, fa, parent, -, hfattr, -, rfl⟩ := lookupWithParent_cases hlookup
  · exact nofun
  · split_ifs
    · exact getFattr_self hfattr
    · exact nofun

theorem lookupWithParent_ok_entry
    (hok : tree.lookupWithParent env dir fname euser egroup = some (.ok (fa, parent))) :
    ∃ entry, tree.getDentry dir fname = some entry ∧ tree.getFattr entry.id = some fa := by
  obtain ⟨-, hresult⟩ | ⟨entry, found, access, hentry, hfattr, -, hresult⟩ :=
    lookupWithParent_cases hok
  · cases hresult
  · split_ifs at hresult
    cases hresult
    exact ⟨entry, hentry, hfattr⟩

theorem lookup_root : tree.lookup env dir fname userRoot egroup =
    match tree.getDentry dir fname with
    | none => some (.error .enoent)
    | some entry => (tree.getFattr entry.id).map .ok :=
  if_pos rfl

variable {result : Except Status Fattr}

theorem lookup_cases (hlookup : tree.lookup env dir fname euser egroup = some result) :
    tree.getDentry dir fname = none ∧ result = .error .enoent ∨
      ∃ entry fa, tree.getDentry dir fname = some entry ∧ tree.getFattr entry.id = some fa ∧
        (tree.MayAccess env euser egroup dir fa ∧ result = .ok fa ∨ result = .error .eacces) := by
  rw [lookup] at hlookup
  split_ifs at hlookup with hroot
  · split at hlookup
    · cases hlookup
      exact .inl ⟨by assumption, rfl⟩
    · rename_i entry hentry
      obtain ⟨fa, hfattr, rfl⟩ := map_eq_some_iff.mp hlookup
      exact .inr ⟨entry, fa, hentry, hfattr, .inl ⟨.inl hroot, rfl⟩⟩
  · obtain ⟨pair, hpair, rfl⟩ := map_eq_some_iff.mp hlookup
    obtain ⟨hentry, rfl⟩ | ⟨entry, fa, parent, hentry, hfattr, hparent, rfl⟩ :=
      lookupWithParent_cases hpair
    · exact .inl ⟨hentry, rfl⟩
    · refine .inr ⟨entry, fa, hentry, hfattr, ?_⟩
      split_ifs with hsearch
      · exact .inl ⟨.inr ⟨parent, hparent, hsearch⟩, rfl⟩
      · exact .inr rfl

theorem lookup_found (hlookup : tree.lookup env dir fname euser egroup = some result) :
    tree.Found result := by
  obtain ⟨-, rfl⟩ | ⟨entry, fa, -, hfattr, ⟨-, rfl⟩ | rfl⟩ := lookup_cases hlookup
  · exact nofun
  · exact getFattr_self hfattr
  · exact nofun

theorem lookup_ok_iff : tree.lookup env dir fname euser egroup = some (.ok fa) ↔
    ∃ entry, tree.getDentry dir fname = some entry ∧ tree.getFattr entry.id = some fa ∧
      tree.MayAccess env euser egroup dir fa := by
  constructor
  · intro hok
    obtain ⟨-, hresult⟩ | ⟨entry, found, hentry, hfattr, ⟨haccess, hresult⟩ | hresult⟩ :=
      lookup_cases hok
    · cases hresult
    · cases hresult
      exact ⟨entry, hentry, hfattr, haccess⟩
    · cases hresult
  · rintro ⟨entry, hentry, hfattr, hroot | ⟨parent, hparent, hsearch⟩⟩
    · simp [lookup, hentry, hfattr, hroot]
    · simp [lookup, lookupWithParent, hentry, hfattr, hparent, hsearch, Except.map]

theorem lookup_enoent_entry
    (hnone : tree.lookup env dir fname euser egroup = some (.error .enoent)) :
    tree.getDentry dir fname = none := by
  obtain ⟨hentry, -⟩ | ⟨entry, fa, -, -, ⟨-, hresult⟩ | hresult⟩ := lookup_cases hnone
  · exact hentry
  · cases hresult
  · cases hresult

variable {trailing : Bool}

theorem lookupComponents_found {start : ℤ} {components : List Name}
    (hlookup : tree.lookupComponents env start trailing euser egroup dir components = some result) :
    tree.Found result := by
  induction components generalizing dir with
  | nil =>
    cases hlookup
    exact nofun
  | cons component rest ih =>
    cases rest with
    | nil =>
      rw [lookupComponents] at hlookup
      split_ifs at hlookup
      · split at hlookup
        · cases hlookup
          exact nofun
        · obtain ⟨found, hfound, rfl⟩ := map_eq_some_iff.mp hlookup
          split_ifs
          · exact nofun
          · exact getFattr_self hfound
      · exact lookup_found hlookup
      · exact lookup_found hlookup
    | cons second rest =>
      rw [lookupComponents] at hlookup
      · split at hlookup
        · cases hlookup
          exact nofun
        · obtain ⟨found, -, hlookup⟩ := bind_eq_some_iff.mp hlookup
          split_ifs at hlookup
          · cases hlookup
            exact nofun
          · exact ih hlookup
          · cases hlookup
            exact nofun
      · simp

variable {start : ℤ} {component : Name}

/-- The last component is checked only in the directory the path starts from. -/
theorem lookupComponents_last_ok_iff :
    tree.lookupComponents env start trailing euser egroup dir [component] = some (.ok fa) ↔
      ∃ entry, tree.getDentry dir component = some entry ∧ tree.getFattr entry.id = some fa ∧
        (trailing = true → fa.type = .dir) ∧
        (trailing = false → dir = start → tree.MayAccess env euser egroup dir fa) := by
  cases trailing with
  | true =>
    cases hentry : tree.getDentry dir component with
    | none => simp [lookupComponents, hentry]
    | some entry =>
      cases hfattr : tree.getFattr entry.id with
      | none => simp [lookupComponents, hentry, hfattr]
      | some found =>
        by_cases htype : found.type = .dir <;>
          simpa [lookupComponents, hentry, hfattr, htype] using fun heq => heq ▸ htype
  | false =>
    by_cases hstart : dir = start
    · simp [lookupComponents, hstart, lookup_ok_iff]
    · simp [lookupComponents, hstart, Ne.symm hstart, lookup_ok_iff, MayAccess]

theorem lookupComponents_cons_ok_iff {second : Name} {rest : List Name} :
    tree.lookupComponents env start trailing euser egroup dir (component :: second :: rest) =
      some (.ok fa) ↔
    ∃ entry found, tree.getDentry dir component = some entry ∧
      tree.getFattr entry.id = some found ∧ found.type = .dir ∧
      found.canSearch env.isGroupMember euser egroup = true ∧
      tree.lookupComponents env start trailing euser egroup entry.id (second :: rest) =
        some (.ok fa) := by
  rw [lookupComponents]
  · cases hentry : tree.getDentry dir component with
    | none => simp
    | some entry =>
      cases hfattr : tree.getFattr entry.id with
      | none => simp [hfattr]
      | some found =>
        by_cases htype : found.type = .dir
        · by_cases hsearch : found.canSearch env.isGroupMember euser egroup = true <;>
            simp [hfattr, htype, hsearch]
        · simp [hfattr, htype]
  · simp

theorem lookupPath_found {rootdir : ℤ} {path : Name}
    (hlookup : tree.lookupPath env rootdir path euser egroup = some result) :
    tree.Found result := by
  rw [lookupPath] at hlookup
  by_cases hpath : path = []
  · rw [if_pos hpath] at hlookup
    cases hlookup
    exact nofun
  · simp only [if_neg hpath] at hlookup
    by_cases hcomponents : pathComponents path = []
    · rw [if_pos hcomponents] at hlookup
      exact lookup_found hlookup
    · rw [if_neg hcomponents] at hlookup
      exact lookupComponents_found hlookup

end Lookup

/-! ## Insertion -/

section Insert

variable (entry : Dentry) (chunk : ChunkInfo) (fa : Fattr)

@[simp]
theorem getFattr_insert_dentry : (tree.insert (.dentry entry)).getFattr fid = tree.getFattr fid :=
  Store.findSome?_orderedInsert_of_none _ _ rfl

@[simp]
theorem getFattr_insert_chunkInfo :
    (tree.insert (.chunkInfo chunk)).getFattr fid = tree.getFattr fid :=
  Store.findSome?_orderedInsert_of_none _ _ rfl

theorem getFattr_insert_of_ne (hid : fa.id ≠ fid) :
    (tree.insert (.fattr fa)).getFattr fid = tree.getFattr fid :=
  Store.findSome?_orderedInsert_of_none _ _ (if_neg hid)

theorem getFattr_insert_self (hnew : tree.getFattr fa.id = none) :
    (tree.insert (.fattr fa)).getFattr fa.id = some fa :=
  Store.findSome?_orderedInsert_of_empty _ _ (if_pos rfl) hnew

@[simp]
theorem getalloc_insert_dentry : (tree.insert (.dentry entry)).getalloc fid = tree.getalloc fid :=
  Store.filterMap_orderedInsert_of_none _ _ rfl

@[simp]
theorem getalloc_insert_fattr : (tree.insert (.fattr fa)).getalloc fid = tree.getalloc fid :=
  Store.filterMap_orderedInsert_of_none _ _ rfl

theorem getalloc_insert_of_ne (hfid : chunk.fid ≠ fid) :
    (tree.insert (.chunkInfo chunk)).getalloc fid = tree.getalloc fid :=
  Store.filterMap_orderedInsert_of_none _ _ (if_neg hfid)

theorem getalloc_insert_perm :
    ((tree.insert (.chunkInfo chunk)).getalloc chunk.fid).Perm
      (chunk :: tree.getalloc chunk.fid) :=
  Store.filterMap_orderedInsert_perm _ _ (if_pos rfl)

end Insert

/-! ## Deletion -/

section Delete

variable {entry : Dentry} {chunk : ChunkInfo} {fa : Fattr}

theorem del_eq_some {item : Item} (hdel : tree.del item = some next) :
    next = { tree with leaves := tree.leaves.eraseP item.deletes } := by
  rw [del] at hdel
  split_ifs at hdel
  exact (some.inj hdel).symm

section

variable {View : Type*} {view : Item → Option View}

/-- Views that look at no name, at no chunk of the file, or not at the attribute,
are as before the deletion. -/
theorem filterMap_del_dentry (hview : ∀ found, view (.dentry found) = none)
    (hdel : tree.del (.dentry entry) = some next) :
    next.leaves.filterMap view = tree.leaves.filterMap view := by
  rw [del_eq_some hdel]
  apply Store.filterMap_eraseP_of_none
  intro leaf hleaf
  obtain ⟨found, rfl, -⟩ := deletes_dentry hleaf
  exact hview found

theorem filterMap_del_chunkInfo
    (hview : ∀ found : ChunkInfo, found.fid = chunk.fid → view (.chunkInfo found) = none)
    (hdel : tree.del (.chunkInfo chunk) = some next) :
    next.leaves.filterMap view = tree.leaves.filterMap view := by
  rw [del_eq_some hdel]
  apply Store.filterMap_eraseP_of_none
  intro leaf hleaf
  rw [deletes_chunkInfo] at hleaf
  cases leaf with
  | chunkInfo found =>
    by_cases hfound : found.fid = chunk.fid
    · exact hview found hfound
    · simp [Item.chunkWith, hfound] at hleaf
  | _ => simp [Item.chunkWith] at hleaf

theorem filterMap_del_fattr (hview : ∀ found : Fattr, found.id = fa.id → view (.fattr found) = none)
    (hdel : tree.del (.fattr fa) = some next) :
    next.leaves.filterMap view = tree.leaves.filterMap view := by
  rw [del_eq_some hdel]
  apply Store.filterMap_eraseP_of_none
  intro leaf hleaf
  rw [deletes_fattr] at hleaf
  obtain ⟨found, hfound⟩ := isSome_iff_exists.mp hleaf
  obtain ⟨rfl, hid⟩ := fattrWith_eq_some.mp hfound
  exact hview found hid

end

theorem getFattr_congr (hviews : next.leaves.filterMap (Item.fattrWith fid) =
    tree.leaves.filterMap (Item.fattrWith fid)) : next.getFattr fid = tree.getFattr fid := by
  simp only [getFattr, ← head?_filterMap, hviews]

theorem getFattr_del_dentry (hdel : tree.del (.dentry entry) = some next) :
    next.getFattr fid = tree.getFattr fid :=
  getFattr_congr (filterMap_del_dentry (fun _ => rfl) hdel)

theorem getalloc_del_dentry (hdel : tree.del (.dentry entry) = some next) :
    next.getalloc fid = tree.getalloc fid :=
  filterMap_del_dentry (fun _ => rfl) hdel

section

variable (hdel : tree.del (.chunkInfo chunk) = some next)

include hdel

theorem getFattr_del_chunkInfo :
    next.getFattr fid = tree.getFattr fid :=
  getFattr_congr (filterMap_del_chunkInfo (fun _ _ => rfl) hdel)

theorem getalloc_del_of_ne (hfid : chunk.fid ≠ fid) : next.getalloc fid = tree.getalloc fid :=
  filterMap_del_chunkInfo (fun _ hfound => if_neg (hfound.trans_ne hfid)) hdel

theorem getalloc_del_self :
    next.getalloc chunk.fid = (tree.getalloc chunk.fid).eraseP fun other =>
      other.offset / 2 ^ 4 = chunk.offset / 2 ^ 4 := by
  rw [del_eq_some hdel]
  exact Store.filterMap_eraseP _ (deletes_chunkInfo chunk)

end

variable (hdel : tree.del (.fattr fa) = some next)

include hdel

theorem getalloc_del_fattr :
    next.getalloc fid = tree.getalloc fid :=
  filterMap_del_fattr (fun _ _ => rfl) hdel

theorem getFattr_del_of_ne (hid : fa.id ≠ fid) :
    next.getFattr fid = tree.getFattr fid :=
  getFattr_congr (filterMap_del_fattr (fun _ hfound => if_neg (hfound.trans_ne hid)) hdel)

end Delete

/-! ## Updates in place -/

section Update

variable {change : Fattr → Fattr} {changeChunk : ChunkInfo → ChunkInfo} {target offset : ℤ}

/-- An update of an attribute that keeps its id. -/
theorem getFattr_modifyFattr (hid : ∀ fa, (change fa).id = fa.id) :
    (tree.modifyFattr target change).getFattr fid =
      if fid = target then (tree.getFattr fid).map change else tree.getFattr fid := by
  split_ifs with hfid
  · subst hfid
    apply Store.findSome?_map
    intro leaf
    cases leaf with
    | fattr fa =>
      by_cases hfa : fa.id = fid
      · simp [Item.modifyFattr, Item.fattrWith, hfa, hid]
      · simp [Item.modifyFattr, Item.fattrWith, hfa]
    | _ => rfl
  · apply Store.findSome?_map_of_eq
    intro leaf
    cases leaf with
    | fattr fa =>
      by_cases hfa : fa.id = target
      · simp [Item.modifyFattr, Item.fattrWith, hfa, hid, Ne.symm hfid]
      · simp [Item.modifyFattr, Item.fattrWith, hfa]
    | _ => rfl

@[simp]
theorem modifyFattr_modifyFattr {second : Fattr → Fattr} (hid : ∀ fa, (change fa).id = fa.id) :
    (tree.modifyFattr target change).modifyFattr target second =
      tree.modifyFattr target fun fa => second (change fa) := by
  simp only [modifyFattr, map_map]
  congr 1
  apply map_congr_left
  intro item _
  cases item with
  | fattr fa =>
    by_cases hfa : fa.id = target
    · simp [Item.modifyFattr, hfa, hid]
    · simp [Item.modifyFattr, hfa]
  | _ => rfl

theorem getalloc_modifyFattr :
    (tree.modifyFattr target change).getalloc fid = tree.getalloc fid :=
  Store.filterMap_map_of_eq _ (Item.view_modifyFattr fun _ => rfl)

@[simp]
theorem getFattr_modifyChunk :
    (tree.modifyChunk target offset changeChunk).getFattr fid = tree.getFattr fid :=
  Store.findSome?_map_of_eq _ (Item.view_modifyChunk fun _ => rfl)

/-- An update of chunk infos that keeps their file. -/
theorem getalloc_modifyChunk (hfid : ∀ chunk, (changeChunk chunk).fid = chunk.fid) :
    (tree.modifyChunk target offset changeChunk).getalloc fid =
      (tree.getalloc fid).map fun chunk =>
        if chunk.fid = target ∧ chunk.offset = offset then changeChunk chunk else chunk := by
  apply Store.filterMap_map
  intro leaf
  cases leaf with
  | fattr _ => rfl
  | chunkInfo chunk =>
    simp only [Item.modifyChunk]
    split_ifs with hchunk
    · simp only [Item.chunkWith, hfid]
      split_ifs
      · rw [map_some, if_pos hchunk]
      · rfl
    · simp only [Item.chunkWith]
      split_ifs
      · rw [map_some, if_neg hchunk]
      · rfl
  | dentry _ => rfl

end Update

/-! ## Attribute ids -/

def fattrIds (tree : Tree) : List ℤ := tree.leaves.filterMap Item.fattrId

/-- Every id belongs to one attribute and has been given out. -/
structure IdsDistinct (tree : Tree) : Prop where
  nodup : tree.fattrIds.Nodup
  le_seed : ∀ fid ∈ tree.fattrIds, fid ≤ tree.fileIdSeed

variable {fa : Fattr}

theorem getFattr_eq_none_iff : tree.getFattr fid = none ↔ fid ∉ tree.fattrIds := by
  simp only [getFattr, fattrIds, findSome?_eq_none_iff, mem_filterMap, not_exists, not_and]
  constructor
  · intro hnone item hitem hid
    cases item with
    | fattr fa =>
      have hfa := hnone _ hitem
      simp_all [Item.fattrWith, Item.fattrId]
    | _ => simp [Item.fattrId] at hid
  · intro hnone item hitem
    cases item with
    | fattr fa =>
      have hfa := hnone _ hitem
      simp_all [Item.fattrWith, Item.fattrId]
    | _ => rfl

theorem fattrIds_insert_dentry (entry : Dentry) :
    (tree.insert (.dentry entry)).fattrIds = tree.fattrIds :=
  Store.filterMap_orderedInsert_of_none _ _ rfl

theorem fattrIds_insert_chunkInfo (chunk : ChunkInfo) :
    (tree.insert (.chunkInfo chunk)).fattrIds = tree.fattrIds :=
  Store.filterMap_orderedInsert_of_none _ _ rfl

theorem fattrIds_insert_fattr (fa : Fattr) :
    ((tree.insert (.fattr fa)).fattrIds).Perm (fa.id :: tree.fattrIds) :=
  Store.filterMap_orderedInsert_perm _ _ rfl

theorem fattrIds_del_dentry {entry : Dentry} (hdel : tree.del (.dentry entry) = some next) :
    next.fattrIds = tree.fattrIds :=
  filterMap_del_dentry (fun _ => rfl) hdel

theorem fattrIds_del_chunkInfo {chunk : ChunkInfo}
    (hdel : tree.del (.chunkInfo chunk) = some next) :
    next.fattrIds = tree.fattrIds :=
  filterMap_del_chunkInfo (fun _ _ => rfl) hdel

theorem fattrIds_del_fattr (hdel : tree.del (.fattr fa) = some next) :
    next.fattrIds = tree.fattrIds.erase fa.id := by
  rw [del_eq_some hdel, erase_eq_eraseP]
  apply Store.filterMap_eraseP
  intro leaf
  rw [deletes_fattr]
  cases leaf with
  | fattr other =>
    by_cases hid : other.id = fa.id
    · simp [Item.fattrWith, Item.fattrId, hid]
    · simp [Item.fattrWith, Item.fattrId, hid, Ne.symm hid]
  | _ => rfl

variable {change : Fattr → Fattr} {target : ℤ}

theorem fattrIds_modifyFattr (hid : ∀ fa, (change fa).id = fa.id) :
    (tree.modifyFattr target change).fattrIds = tree.fattrIds :=
  Store.filterMap_map_of_eq _ (Item.view_modifyFattr fun fa => congrArg some (hid fa))

theorem IdsDistinct.modifyFattr (hids : tree.IdsDistinct) (hid : ∀ fa, (change fa).id = fa.id) :
    (tree.modifyFattr target change).IdsDistinct := by
  constructor <;> rw [fattrIds_modifyFattr hid]
  · exact hids.nodup
  · exact hids.le_seed

theorem fattrIds_modifyChunk {offset : ℤ} {change : ChunkInfo → ChunkInfo} :
    (tree.modifyChunk target offset change).fattrIds = tree.fattrIds :=
  Store.filterMap_map_of_eq _ (Item.view_modifyChunk fun _ => rfl)

/-- Deleting an attribute makes its id unknown. -/
theorem getFattr_del_self (hids : tree.IdsDistinct) (hdel : tree.del (.fattr fa) = some next) :
    next.getFattr fa.id = none := by
  rw [getFattr_eq_none_iff, fattrIds_del_fattr hdel]
  exact hids.nodup.not_mem_erase

section

variable (hnodup : tree.fattrIds.Nodup)

theorem modifyFattr_id : tree.modifyFattr fid (fun fa => fa) = tree := by
  have hitem : Item.modifyFattr fid (fun fa => fa) = id := by
    funext item
    cases item <;> simp [Item.modifyFattr]
  rw [modifyFattr, hitem, map_id]

include hnodup

variable (hfattr : tree.getFattr fid = some fa)

include hfattr

/-- The attribute of an id is the only one. -/
theorem eq_of_getFattr {other : Fattr} (hother : .fattr other ∈ tree.leaves)
    (hid : other.id = fid) :
    other = fa := by
  obtain ⟨item, hitem, hfound⟩ := exists_of_findSome?_eq_some hfattr
  obtain ⟨rfl, hfa⟩ := fattrWith_eq_some.mp hfound
  exact Item.fattr.inj (Store.eq_of_nodup_filterMap hnodup hother hitem (congrArg some hid)
    (congrArg some hfa))

omit hfattr in
theorem getFattr_of_mem (hmem : .fattr fa ∈ tree.leaves) :
    tree.getFattr fa.id = some fa := by
  have hid : fa.id ∈ tree.fattrIds := mem_filterMap.mpr ⟨_, hmem, rfl⟩
  cases hfattr : tree.getFattr fa.id with
  | none => exact absurd hid (getFattr_eq_none_iff.mp hfattr)
  | some found => rw [eq_of_getFattr hnodup hfattr hmem rfl]

/-- Two updates of an attribute give the same tree if they do the same to it. -/
theorem modifyFattr_eq_iff {first second : Fattr → Fattr} (hfirst : ∀ fa, (first fa).id = fa.id)
    (hsecond : ∀ fa, (second fa).id = fa.id) :
    tree.modifyFattr fid first = tree.modifyFattr fid second ↔ first fa = second fa := by
  constructor
  · intro heq
    have hviews := congrArg (fun tree => tree.getFattr fid) heq
    simp only [getFattr_modifyFattr hfirst, getFattr_modifyFattr hsecond, if_true, hfattr,
      map_some, some.injEq] at hviews
    exact hviews
  · intro heq
    rw [modifyFattr]
    congr 1
    apply map_congr_left
    intro item hitem
    cases item with
    | fattr other =>
      by_cases hid : other.id = fid
      · obtain rfl : other = fa := eq_of_getFattr hnodup hfattr hitem hid
        simp only [Item.modifyFattr, if_pos hid, heq]
      · simp only [Item.modifyFattr, if_neg hid]
    | _ => rfl

theorem modifyFattr_eq_self_iff (hid : ∀ fa, (change fa).id = fa.id) :
    tree.modifyFattr fid change = tree ↔ change fa = fa := by
  rw [← modifyFattr_eq_iff hnodup hfattr hid fun _ => rfl, modifyFattr_id]

end

theorem modifyFattr_of_none (hnone : tree.getFattr fid = none) (change : Fattr → Fattr) :
    tree.modifyFattr fid change = tree := by
  rw [getFattr, findSome?_eq_none_iff] at hnone
  rw [modifyFattr, map_congr_left, map_id]
  intro item hitem
  cases item with
  | fattr other =>
    have hid : other.id ≠ fid := by
      intro hid
      have hfound := hnone _ hitem
      simp [Item.fattrWith, hid] at hfound
    simp only [Item.modifyFattr, if_neg hid, id]
  | _ => rfl

end Tree

end QfsRepair.Meta
