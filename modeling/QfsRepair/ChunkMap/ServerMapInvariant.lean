import QfsRepair.ChunkMap.SlotTable

/-!
# The invariant of the map from chunks to servers

The entry of every chunk represents a set of slots.  A slot that waits for the
end of the scan occurs only in entries that the scan has not visited yet, a free
slot occurs in none, and every server is told the number of chunks it hosts.
The parts of the invariant are stated over the fields they read.
-/

namespace QfsRepair.ChunkMap

open Function
open Store (before prev lastBefore insertBefore)

def ListNode.chunkId? : ListNode → Option ℤ
  | head _ => none
  | entry chunkId => some chunkId

/-- The chunks of a list of nodes. -/
def chunksOf (order : List ListNode) : List ℤ := order.filterMap ListNode.chunkId?

/-- The slots of a chunk. -/
def refs (sets : ℤ → Option ServerSet) (chunkId : ℤ) : List ℕ :=
  ((sets chunkId).map ServerSet.indices).getD []

section Basics

variable {order : List ListNode} {sets : ℤ → Option ServerSet} {chunkId other : ℤ}
  {set : ServerSet} {state : Option ServerSet}

theorem mem_chunksOf : chunkId ∈ chunksOf order ↔ .entry chunkId ∈ order := by
  rw [chunksOf, List.mem_filterMap]
  constructor
  · rintro ⟨node, hnode, hchunk⟩
    cases node with
    | head => cases hchunk
    | entry id =>
      cases hchunk
      exact hnode
  · exact fun hnode => ⟨_, hnode, rfl⟩

theorem chunksOf_nodup (hnodup : order.Nodup) : (chunksOf order).Nodup := by
  refine hnodup.filterMap ?_
  intro first second id hfirst hsecond
  cases first with
  | head => cases hfirst
  | entry =>
    cases second with
    | head => cases hsecond
    | entry =>
      cases hfirst
      cases hsecond
      rfl

theorem chunksOf_perm_cons {others : List ListNode}
    (hperm : order.Perm (.entry chunkId :: others)) :
    (chunksOf order).Perm (chunkId :: chunksOf others) :=
  hperm.filterMap _

theorem refs_of_eq_some (hset : sets chunkId = some set) : refs sets chunkId = set.indices := by
  rw [refs, hset]
  rfl

theorem refs_of_eq_none (hset : sets chunkId = none) : refs sets chunkId = [] := by
  rw [refs, hset]
  rfl

theorem refs_update_self :
    refs (update sets chunkId state) chunkId =
      (state.map ServerSet.indices).getD [] := by
  rw [refs, update_self]

theorem refs_update_some :
    refs (update sets chunkId (some set)) chunkId = set.indices :=
  refs_update_self

theorem refs_update_of_ne (hne : other ≠ chunkId) :
    refs (update sets chunkId state) other = refs sets other := by
  rw [refs, refs, update_of_ne hne]

/-- What holds of the slots of every chunk, after the entry of one is replaced. -/
theorem forall_refs_update {holds : ℤ → ℕ → Prop}
    (hself : ∀ idx ∈ (state.map ServerSet.indices).getD [], holds chunkId idx)
    (hothers : ∀ other ≠ chunkId, ∀ idx ∈ refs sets other, holds other idx) :
    ∀ other, ∀ idx ∈ refs (update sets chunkId state) other, holds other idx :=
  (forall_update_iff sets fun other set =>
    ∀ idx ∈ (set.map ServerSet.indices).getD [], holds other idx).mpr ⟨hself, hothers⟩

end Basics

/-! ## The list of entries -/

structure Listing (order : List ListNode) (sets : ℤ → Option ServerSet) : Prop where
  nodup : order.Nodup
  first : order.head? = some (.head 0)
  last : order.getLast? = some (.head kStateCount)
  heads : ∀ position ≤ kStateCount, ListNode.head position ∈ order
  mem_entry : ∀ chunkId, ListNode.entry chunkId ∈ order ↔ (sets chunkId).isSome

namespace Listing

variable {order : List ListNode} {sets : ℤ → Option ServerSet} {chunkId : ℤ} {set : ServerSet}

variable (listing : Listing order sets)

include listing

theorem insert (hfresh : sets chunkId = none) (set : ServerSet) (state : ReplicationState) :
    Listing (insertBefore (.entry chunkId) (.head (state.code + 1)) order)
      (update sets chunkId (some set)) := by
  have hperm := @Store.insertBefore_perm _ _ order (.entry chunkId) (.head (state.code + 1))
  have hnot : ListNode.entry chunkId ∉ order := by
    rw [listing.mem_entry, hfresh]
    decide
  have hne : order ≠ [] := by
    rintro rfl
    cases listing.first
  have hstate : state.code + 1 ≤ kStateCount := by cases state <;> decide
  refine ⟨?_, ?_, ?_, ?_, ?_⟩
  · exact hperm.nodup_iff.mpr (List.nodup_cons.mpr ⟨hnot, listing.nodup⟩)
  · rw [Store.head?_insertBefore (by rw [listing.first]; simp) hne]
    exact listing.first
  · rw [Store.getLast?_insertBefore (listing.heads _ hstate)]
    exact listing.last
  · intro position hposition
    exact hperm.mem_iff.mpr (List.mem_cons_of_mem _ (listing.heads position hposition))
  · intro other
    rw [hperm.mem_iff, List.mem_cons, listing.mem_entry]
    by_cases heq : other = chunkId
    · subst heq
      simp
    · simp [heq]

theorem erase (chunkId : ℤ) :
    Listing (order.erase (.entry chunkId)) (update sets chunkId none) := by
  refine ⟨listing.nodup.erase _, ?_, ?_, ?_, ?_⟩
  · rw [Store.head?_erase (by rw [listing.first]; simp)]
    exact listing.first
  · exact Store.getLast?_erase listing.last (by simp)
  · intro position hposition
    exact (List.mem_erase_of_ne (by simp)).mpr (listing.heads position hposition)
  · intro other
    rw [listing.nodup.mem_erase_iff, listing.mem_entry]
    by_cases heq : other = chunkId
    · subst heq
      simp
    · simp [heq]

theorem change (hset : sets chunkId = some set) (changed : ServerSet) :
    Listing order (update sets chunkId (some changed)) := by
  refine ⟨listing.nodup, listing.first, listing.last, listing.heads, ?_⟩
  intro other
  rw [listing.mem_entry]
  by_cases heq : other = chunkId
  · subst heq
    simp [hset]
  · rw [update_of_ne heq]

theorem move (chunkId : ℤ) (set : ServerSet) (state : ReplicationState) :
    Listing (insertBefore (.entry chunkId) (.head (state.code + 1))
      (order.erase (.entry chunkId))) (update sets chunkId (some set)) := by
  have hmoved := (listing.erase chunkId).insert (update_self ..) set state
  rwa [update_idem] at hmoved

theorem mem_order (hset : sets chunkId = some set) :
    ListNode.entry chunkId ∈ order := by
  rw [listing.mem_entry, hset]
  rfl

end Listing

/-! ## The entries -/

structure Filed (entries : ℤ → Option Entry) (sets : ℤ → Option ServerSet) : Prop where
  represents : ∀ chunkId, Option.Rel Entry.Represents (entries chunkId) (sets chunkId)
  proper : ∀ chunkId set, sets chunkId = some set → set.Proper

namespace Filed

variable {entries : ℤ → Option Entry} {sets : ℤ → Option ServerSet} {chunkId : ℤ}
  {entry : Entry} {set : ServerSet}

variable (filed : Filed entries sets)

include filed

theorem exists_set (hentry : entries chunkId = some entry) :
    ∃ set, sets chunkId = some set ∧ entry.Represents set ∧ set.Proper := by
  have hrel := filed.represents chunkId
  rw [hentry] at hrel
  cases hset : sets chunkId with
  | none =>
    rw [hset] at hrel
    cases hrel
  | some set =>
    rw [hset] at hrel
    cases hrel with
    | some represents => exact ⟨set, rfl, represents, filed.proper chunkId set hset⟩

theorem exists_entry (hset : sets chunkId = some set) :
    ∃ entry, entries chunkId = some entry ∧ entry.Represents set ∧ set.Proper := by
  have hrel := filed.represents chunkId
  rw [hset] at hrel
  cases hentry : entries chunkId with
  | none =>
    rw [hentry] at hrel
    cases hrel
  | some entry =>
    rw [hentry] at hrel
    cases hrel with
    | some represents => exact ⟨entry, rfl, represents, filed.proper chunkId set hset⟩

theorem represents_entry (hset : sets chunkId = some set) (hentry : entries chunkId = some entry) :
    entry.Represents set ∧ set.Proper := by
  obtain ⟨found, hfound, hspec⟩ := filed.exists_entry hset
  rwa [Option.some.inj (hentry.symm.trans hfound)]

theorem eq_none (hentry : entries chunkId = none) :
    sets chunkId = none := by
  cases hset : sets chunkId with
  | none => rfl
  | some set =>
    obtain ⟨entry, hsome, -⟩ := filed.exists_entry hset
    rw [hentry] at hsome
    cases hsome

theorem update (represents : entry.Represents set) (proper : set.Proper) (chunkId : ℤ) :
    Filed (Function.update entries chunkId (some entry))
      (Function.update sets chunkId (some set)) := by
  constructor
  · intro other
    rw [update_apply, update_apply]
    split_ifs
    · exact .some represents
    · exact filed.represents other
  · intro other set' hset'
    rw [update_apply] at hset'
    split_ifs at hset'
    · cases hset'
      exact proper
    · exact filed.proper other set' hset'

theorem erase (chunkId : ℤ) :
    Filed (Function.update entries chunkId none) (Function.update sets chunkId none) := by
  constructor
  · intro other
    rw [update_apply, update_apply]
    split_ifs
    · exact .none
    · exact filed.represents other
  · intro other set' hset'
    rw [update_apply] at hset'
    split_ifs at hset'
    exact filed.proper other set' hset'

end Filed

/-! ## The scan -/

/-- The entries that refer to a slot in `pending` are at the pointer of the scan
or before it, those of the chunks `exempt` apart. -/
structure Scanning (order : List ListNode) (pending : List ℕ) (ptr : Option ListNode)
    (sets : ℤ → Option ServerSet) (exempt : List ℤ) : Prop where
  idle : ptr = none → pending = []
  mem_order : ∀ node, ptr = some node → node ∈ order
  ahead : ∀ node, ptr = some node → ∀ chunkId ∉ exempt, ∀ idx ∈ refs sets chunkId,
    idx ∈ pending → .entry chunkId = node ∨ .entry chunkId ∈ before order node

namespace Scanning

variable {order : List ListNode} {pending : List ℕ} {ptr : Option ListNode}
  {sets : ℤ → Option ServerSet} {exempt : List ℤ} {chunkId : ℤ} {set : ServerSet}

variable (scanning : Scanning order pending ptr sets [chunkId])

theorem except (scanning : Scanning order pending ptr sets []) (chunkId : ℤ) :
    Scanning order pending ptr sets [chunkId] :=
  ⟨scanning.idle, scanning.mem_order, fun node hnode other _ =>
    scanning.ahead node hnode other List.not_mem_nil⟩

/-- Fewer slots of the set leave the scan as it is. -/
theorem subset (scanning : Scanning order pending ptr sets exempt)
    (hsubset : ∀ idx ∈ set.indices, idx ∈ refs sets chunkId ∨ idx ∉ pending) :
    Scanning order pending ptr (update sets chunkId (some set)) exempt := by
  refine ⟨scanning.idle, scanning.mem_order, ?_⟩
  intro node hnode other hother idx hidx hpending
  by_cases heq : other = chunkId
  · subst heq
    rw [refs_update_self] at hidx
    exact scanning.ahead node hnode other hother idx
      ((hsubset idx hidx).resolve_right fun hnot => hnot hpending) hpending
  · rw [refs_update_of_ne heq] at hidx
    exact scanning.ahead node hnode other hother idx hidx hpending

theorem prev_ne : prev order (.entry chunkId) ≠ some (.entry chunkId) := by
  intro hprev
  exact absurd (List.mem_takeWhile_imp (List.mem_of_getLast? hprev)) (by simp)

/-- The pointer goes back from an entry. -/
theorem stepBack (scanning : Scanning order pending (some (.entry chunkId)) sets [chunkId])
    (listing : Listing order sets) :
    Scanning order pending (prev order (.entry chunkId)) sets [chunkId] := by
  have hentry := scanning.mem_order _ rfl
  have hfirst : ListNode.head 0 ∈ before order (.entry chunkId) := by
    obtain ⟨right, hsplit⟩ := Store.exists_split hentry
    have hhead := listing.first
    rw [hsplit] at hhead
    cases hbefore : before order (.entry chunkId) with
    | nil =>
      rw [hbefore] at hhead
      cases hhead
    | cons node rest =>
      rw [hbefore] at hhead
      cases hhead
      exact List.mem_cons_self
  obtain ⟨node, hprev⟩ := Store.exists_prev hfirst
  obtain ⟨hnode, hbefore⟩ := Store.prev_spec listing.nodup hentry hprev
  rw [hprev]
  refine ⟨by simp, ?_, ?_⟩
  · rintro _ ⟨⟩
    exact Store.mem_of_mem_before hnode
  · rintro _ ⟨⟩ other hother idx hidx hpending
    have hne : ListNode.entry other ≠ .entry chunkId := by simpa using hother
    exact hbefore _ ((scanning.ahead _ rfl other hother idx hidx hpending).resolve_left hne)

include scanning

/-- A chunk whose entry refers to no such slot is no exception. -/
theorem clean (state : Option ServerSet)
    (hclean : ∀ idx ∈ (state.map ServerSet.indices).getD [], idx ∉ pending) :
    Scanning order pending ptr (update sets chunkId state) [] := by
  refine ⟨scanning.idle, scanning.mem_order, ?_⟩
  intro node hnode other _ idx hidx hpending
  by_cases heq : other = chunkId
  · subst heq
    rw [refs_update_self] at hidx
    exact absurd hpending (hclean idx hidx)
  · rw [refs_update_of_ne heq] at hidx
    exact scanning.ahead node hnode other (by simpa using heq) idx hidx hpending

theorem change (state : Option ServerSet) :
    Scanning order pending ptr (update sets chunkId state) [chunkId] := by
  refine ⟨scanning.idle, scanning.mem_order, ?_⟩
  intro node hnode other hother idx hidx
  rw [refs_update_of_ne (by simpa using hother)] at hidx
  exact scanning.ahead node hnode other hother idx hidx

theorem unlink_of_ne (hptr : ptr ≠ some (.entry chunkId)) :
    Scanning (order.erase (.entry chunkId)) pending ptr sets [chunkId] := by
  refine ⟨scanning.idle, ?_, ?_⟩
  · intro node hnode
    refine (List.mem_erase_of_ne ?_).mpr (scanning.mem_order node hnode)
    rintro rfl
    exact hptr hnode
  · intro node hnode other hother idx hidx hpending
    refine (scanning.ahead node hnode other hother idx hidx hpending).imp_right ?_
    refine Store.mem_before_erase ?_ (by simpa using hother)
    rintro rfl
    exact hptr hnode

/-- An entry leaves its place; the pointer goes back if it is there. -/
theorem unlink (listing : Listing order sets) :
    Scanning (order.erase (.entry chunkId)) pending
      (if ptr = some (.entry chunkId) then prev order (.entry chunkId) else ptr) sets
      [chunkId] := by
  by_cases hptr : ptr = some (.entry chunkId)
  · rw [if_pos hptr]
    rw [hptr] at scanning
    exact (scanning.stepBack listing).unlink_of_ne prev_ne
  · rw [if_neg hptr]
    exact scanning.unlink_of_ne hptr

theorem link (hentry : ListNode.entry chunkId ∉ order) (mark : ListNode) :
    Scanning (insertBefore (.entry chunkId) mark order) pending ptr sets [chunkId] := by
  refine ⟨scanning.idle, ?_, ?_⟩
  · intro node hnode
    exact Store.insertBefore_perm.mem_iff.mpr
      (List.mem_cons_of_mem _ (scanning.mem_order node hnode))
  · intro node hnode other hother idx hidx hpending
    refine (scanning.ahead node hnode other hother idx hidx hpending).imp_right ?_
    refine Store.mem_before_insertBefore ?_
    rintro rfl
    exact hentry (scanning.mem_order _ hnode)

end Scanning

/-! ## The numbers of hosted chunks -/

def Hosted (table : SlotTable) (chunkCount : ℕ → ℕ) (order : List ListNode)
    (sets : ℤ → Option ServerSet) : Prop :=
  ∀ server idx : ℕ, table.servers[idx]? = some (some server) →
    chunkCount server = (chunksOf order).countP fun chunkId => idx ∈ refs sets chunkId

variable {order : List ListNode} {chunkId : ℤ}

/-- The chunks without one of them. -/
theorem countP_chunksOf (hentry : ListNode.entry chunkId ∈ order) (selected : ℤ → Bool) :
    (chunksOf order).countP selected =
      (chunksOf (order.erase (.entry chunkId))).countP selected +
        if selected chunkId then 1 else 0 := by
  rw [(chunksOf_perm_cons (List.perm_cons_erase hentry)).countP_eq, List.countP_cons]

theorem ne_of_mem_chunksOf_erase {other : ℤ} (hnodup : order.Nodup)
    (hother : other ∈ chunksOf (order.erase (.entry chunkId))) :
    other ≠ chunkId := by
  rintro rfl
  exact hnodup.not_mem_erase (mem_chunksOf.mp hother)

theorem countP_refs_update {sets : ℤ → Option ServerSet} (hnodup : order.Nodup)
    (state : Option ServerSet) (idx : ℕ) :
    ((chunksOf (order.erase (.entry chunkId))).countP fun other =>
        idx ∈ refs (update sets chunkId state) other) =
      (chunksOf (order.erase (.entry chunkId))).countP fun other => idx ∈ refs sets other :=
  List.countP_congr fun other hother => by
    rw [refs_update_of_ne (ne_of_mem_chunksOf_erase hnodup hother)]

end QfsRepair.ChunkMap
