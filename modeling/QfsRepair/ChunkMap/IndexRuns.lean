import QfsRepair.ChunkMap.IndexSet
import Mathlib.Data.List.Nodup

/-!
# Runs of calls on an entry

What an entry is for: a list of server indices without repetition, in order of
insertion, next to a state.  A run of calls on the word behaves as the run on
the list as long as no index is added to an entry with more than 32750.
-/

namespace QfsRepair.ChunkMap

open List Option

/-- The servers of a chunk, by index, in order of insertion. -/
structure ServerSet where
  indices : List ℕ
  state : ReplicationState
  deriving DecidableEq

/-- A change of an entry. -/
inductive EntryCall where
  | addIndex (idx : ℕ)
  | removeIndex (idx : ℕ)
  | setState (state : ReplicationState)
  deriving DecidableEq

/-- The indices of servers are below the limit on their number. -/
def EntryCall.Valid : EntryCall → Prop
  | addIndex idx => idx < kMaxServers
  | removeIndex idx => idx < kMaxServers
  | setState _ => True

/-- A call and the memory that the allocator has for it. -/
structure EntryStep where
  call : EntryCall
  alloc : Allocation

namespace ServerSet

def empty : ServerSet := ⟨[], .none⟩

def call (set : ServerSet) : EntryCall → Bool × ServerSet
  | .addIndex idx =>
    if idx ∈ set.indices then (false, set)
    else (true, { set with indices := set.indices ++ [idx] })
  | .removeIndex idx =>
    if idx ∈ set.indices then (true, { set with indices := set.indices.erase idx })
    else (false, set)
  | .setState state => (true, { set with state := state })

/-- The answers to a sequence of calls, and the set after them. -/
def run (set : ServerSet) : List EntryCall → List Bool × ServerSet
  | [] => ([], set)
  | call :: calls =>
    let (answer, set) := set.call call
    let (answers, set) := set.run calls
    (answer :: answers, set)

/-- A call adds at most one index. -/
theorem length_run_le (set : ServerSet) (calls : List EntryCall) :
    (set.run calls).2.indices.length ≤ set.indices.length + calls.length := by
  induction calls generalizing set with
  | nil => simp [run]
  | cons call calls ih =>
    have hcall : (set.call call).2.indices.length ≤ set.indices.length + 1 := by
      cases call with
      | addIndex idx =>
        rw [ServerSet.call]
        split <;> simp
      | removeIndex idx =>
        rw [ServerSet.call]
        split
        · exact (length_erase_le).trans (Nat.le_succ _)
        · simp
      | setState state => simp [ServerSet.call]
    have hrest := ih (set.call call).2
    rw [run, length_cons]
    dsimp only
    omega

/-- Distinct indices of servers. -/
structure Proper (set : ServerSet) : Prop where
  nodup : set.indices.Nodup
  lt : ∀ idx ∈ set.indices, idx < kMaxServers

theorem Proper.call {set : ServerSet} (proper : set.Proper) {call : EntryCall}
    (hvalid : call.Valid) : (set.call call).2.Proper := by
  cases call with
  | addIndex idx =>
    rw [ServerSet.call]
    split
    · exact proper
    · next hnew =>
        refine ⟨concat_eq_append ▸ proper.nodup.concat hnew, ?_⟩
        intro other hother
        rcases mem_append.mp hother with hold | hlast
        · exact proper.lt other hold
        · exact mem_singleton.mp hlast ▸ hvalid
  | removeIndex idx =>
    rw [ServerSet.call]
    split
    · exact ⟨proper.nodup.erase idx, fun other h => proper.lt other (mem_of_mem_erase h)⟩
    · exact proper
  | setState state => exact ⟨proper.nodup, proper.lt⟩

end ServerSet

namespace Entry

def call (entry : Entry) (step : EntryStep) : Option (Bool × Entry) :=
  match step.call with
  | .addIndex idx => entry.addIndex idx step.alloc
  | .removeIndex idx => entry.removeIndex idx step.alloc
  | .setState state => some (true, entry.setState state)

/-- The answers to a sequence of calls, and the entry after them. -/
def run (entry : Entry) : List EntryStep → Option (List Bool × Entry)
  | [] => some ([], entry)
  | step :: steps => do
      let (answer, entry) ← entry.call step
      let (answers, entry) ← entry.run steps
      some (answer :: answers, entry)

/-- An entry that answers every question as the set does. -/
structure Agrees (entry : Entry) (set : ServerSet) : Prop where
  serverCount : entry.serverCount = some set.indices.length
  hasIndex : ∀ idx < kMaxServers, entry.hasIndex idx = some (decide (idx ∈ set.indices))
  indexAt : ∀ (position : ℕ) (h : position < set.indices.length),
    entry.indexAt position = some set.indices[position]
  getState : entry.getState = set.state.code

/-- An entry that holds a set, its array not too large. -/
def Represents (entry : Entry) (set : ServerSet) : Prop :=
  ∃ marker capacity, Stored entry marker capacity (set.indices.map (· + 1)) set.state.code ∧
    capacity < 2 ^ 15

end Entry

theorem ReplicationState.code_lt (state : ReplicationState) : state.code < 8 := by
  cases state <;> decide

theorem ServerSet.Proper.isId {set : ServerSet} (proper : set.Proper) :
    ∀ id ∈ set.indices.map (· + 1), IsId id := by
  intro id hid
  obtain ⟨idx, hidx, rfl⟩ := mem_map.mp hid
  have hlt := proper.lt idx hidx
  simp only [kMaxServers, kIdxMask, kIdxBits] at hlt
  exact ⟨by omega, by omega⟩

theorem mem_map_succ {indices : List ℕ} {idx : ℕ} :
    idx + 1 ∈ indices.map (· + 1) ↔ idx ∈ indices := by
  simp

namespace Entry

variable {entry : Entry} {set : ServerSet}

theorem stored_empty : Stored Entry.empty [] 0 [] 0 := by
  have hinline : Stored ⟨wordAt 4 0 [] 0, none⟩ [] 0 [] 0 := .inline (by simp)
  exact hinline

theorem represents_empty : Represents Entry.empty ServerSet.empty :=
  ⟨[], 0, stored_empty, by omega⟩

section

variable (represents : Represents entry set)

include represents

variable (proper : set.Proper)

include proper

theorem Represents.agrees :
    Agrees entry set := by
  obtain ⟨marker, capacity, stored, hcapacity⟩ := represents
  have hstate := set.state.code_lt
  refine ⟨?_, ?_, ?_, stored.getState_eq hstate⟩
  · rw [stored.serverCount_eq proper.isId hstate hcapacity, length_map]
  · intro idx hidx
    rw [stored.hasIndex_eq proper.isId hstate hcapacity hidx]
    simp only [mem_map_succ]
  · intro position hposition
    rw [stored.indexAt_eq proper.isId hstate hcapacity (by simpa using hposition)]
    simp

/-- A step of a run: an index is added only to an entry with few of them. -/
theorem Represents.call {step : EntryStep} (hvalid : step.call.Valid)
    (hfew : ∀ idx, step.call = .addIndex idx → set.indices.length ≤ 32750) :
    ∃ entry', entry.call step = some ((set.call step.call).1, entry') ∧
      Represents entry' (set.call step.call).2 := by
  obtain ⟨marker, capacity, stored, hcapacity⟩ := represents
  obtain ⟨call, alloc⟩ := step
  have hstate := set.state.code_lt
  cases call with
  | addIndex idx =>
    by_cases hmem : idx ∈ set.indices
    · refine ⟨entry, ?_, ?_⟩
      · simp only [Entry.call, ServerSet.call, if_pos hmem]
        exact stored.addIndex_mem proper.isId hstate hcapacity hvalid (mem_map_succ.mpr hmem)
      · simp only [ServerSet.call, if_pos hmem]
        exact ⟨marker, capacity, stored, hcapacity⟩
    · obtain ⟨entry', marker', capacity', hentry, hstored, hgrown⟩ :=
        stored.addIndex_not_mem proper.isId hstate hcapacity hvalid alloc
          (mt mem_map_succ.mp hmem)
      have hlength := hfew idx rfl
      rw [length_map] at hgrown
      have hbound : capacity' < 2 ^ 15 := by
        rcases hgrown with ⟨-, rfl⟩ | ⟨-, ⟨-, rfl⟩ | ⟨hfull, rfl⟩⟩
        · exact hcapacity
        · rw [newCapacity]
          split <;> omega
        · rw [newCapacity]
          split <;> omega
      simp only [Entry.call, ServerSet.call, if_neg hmem]
      exact ⟨entry', hentry, marker', capacity', by simpa using hstored, hbound⟩
  | removeIndex idx =>
    by_cases hmem : idx ∈ set.indices
    · obtain ⟨entry', marker', capacity', hentry, hstored, hbound⟩ :=
        stored.removeIndex_mem proper.isId hstate hcapacity hvalid alloc
          (mem_map_succ.mpr hmem)
      rw [← map_erase (f := (· + 1)) (fun _ _ => Nat.succ.inj)] at hstored
      simp only [Entry.call, ServerSet.call, if_pos hmem]
      exact ⟨entry', hentry, marker', capacity', hstored, hbound⟩
    · simp only [Entry.call, ServerSet.call, if_neg hmem]
      exact ⟨entry, stored.removeIndex_not_mem proper.isId hstate hcapacity hvalid
        (mt mem_map_succ.mp hmem), marker, capacity, stored, hcapacity⟩
  | setState state =>
    exact ⟨_, rfl, marker, capacity, stored.setState proper.isId hstate state, hcapacity⟩

theorem Represents.run (steps : List EntryStep) (hvalid : ∀ step ∈ steps, step.call.Valid)
    (hfew : ∀ before idx alloc after, steps = before ++ ⟨.addIndex idx, alloc⟩ :: after →
      (set.run (before.map EntryStep.call)).2.indices.length ≤ 32750) :
    ∃ entry', entry.run steps = some ((set.run (steps.map EntryStep.call)).1, entry') ∧
      Represents entry' (set.run (steps.map EntryStep.call)).2 ∧
      (set.run (steps.map EntryStep.call)).2.Proper := by
  induction steps generalizing entry set with
  | nil => exact ⟨entry, rfl, represents, proper⟩
  | cons step steps ih =>
    obtain ⟨next, hnext, hrepresents⟩ := represents.call proper (hvalid step (.head _)) (by
      intro idx hcall
      obtain ⟨call, alloc⟩ := step
      cases hcall
      exact hfew [] idx alloc steps rfl)
    obtain ⟨entry', hrun, hfinal, hproper⟩ := ih hrepresents (proper.call (hvalid step (.head _)))
      (fun other hother => hvalid other (.tail _ hother))
      (fun before idx alloc after hsplit => hfew (step :: before) idx alloc after
        (by rw [hsplit, cons_append]))
    refine ⟨entry', ?_, hfinal, hproper⟩
    rw [Entry.run, hnext]
    simp only [bind_eq_bind, bind_some, hrun]
    rfl

end

/-- Every run on the word answers as the run on the list, and leaves an entry
that agrees with the list, if no index is added while there are more than
32750. -/
theorem run_agrees (steps : List EntryStep) (hvalid : ∀ step ∈ steps, step.call.Valid)
    (hfew : ∀ before idx alloc after, steps = before ++ ⟨.addIndex idx, alloc⟩ :: after →
      (ServerSet.empty.run (before.map EntryStep.call)).2.indices.length ≤ 32750) :
    ∃ entry, Entry.empty.run steps =
        some ((ServerSet.empty.run (steps.map EntryStep.call)).1, entry) ∧
      Agrees entry (ServerSet.empty.run (steps.map EntryStep.call)).2 ∧
      (ServerSet.empty.run (steps.map EntryStep.call)).2.indices.Nodup := by
  have hproper : ServerSet.empty.Proper := ⟨nodup_nil, by simp [ServerSet.empty]⟩
  obtain ⟨entry, hrun, hrepresents, hfinal⟩ := represents_empty.run hproper steps hvalid hfew
  exact ⟨entry, hrun, hrepresents.agrees hfinal, hfinal.nodup⟩

/-- Memory whose address needs no alignment. -/
def alignedMemory : Allocation := ⟨4096, fun _ => 0, by decide⟩

/-- Five servers are added, one is removed and the state is set. -/
def fiveServers : List EntryStep :=
  ([.addIndex 0, .addIndex 1, .addIndex 2, .addIndex 3, .addIndex 4, .removeIndex 1,
    .setState .pendingRecovery] : List EntryCall).map fun call => ⟨call, alignedMemory⟩

theorem run_agrees_fiveServers :
    ∃ entry, Entry.empty.run fiveServers =
        some ([true, true, true, true, true, true, true], entry) ∧
      Agrees entry ⟨[0, 2, 3, 4], .pendingRecovery⟩ := by
  have hvalid : ∀ step ∈ fiveServers, step.call.Valid := by
    simp [fiveServers, EntryCall.Valid, kMaxServers, kIdxMask, kIdxBits]
  obtain ⟨entry, hrun, hagrees, -⟩ := run_agrees fiveServers hvalid (by
    intro before idx alloc after hsplit
    have hlength := congrArg length hsplit
    have hrun := ServerSet.length_run_le ServerSet.empty (before.map EntryStep.call)
    simp only [fiveServers, length_map, length_append, length_cons,
      length_nil, ServerSet.empty] at hlength hrun ⊢
    omega)
  exact ⟨entry, hrun, hagrees⟩

/-! ## Too many servers -/

theorem run_append (entry : Entry) (steps rest : List EntryStep) :
    entry.run (steps ++ rest) = (entry.run steps).bind fun (answers, entry) =>
      (entry.run rest).map fun (others, entry) => (answers ++ others, entry) := by
  induction steps generalizing entry with
  | nil => simp [run]
  | cons step steps ih =>
    rw [cons_append, run, run]
    cases hcall : entry.call step with
    | none => rfl
    | some result =>
      obtain ⟨answer, next⟩ := result
      simp only [bind_eq_bind, bind_some, ih]
      cases next.run steps with
      | none => rfl
      | some result =>
        obtain ⟨answers, final⟩ := result
        simp only [bind_some]
        cases final.run rest <;> rfl

/-- The first servers are added one after the other. -/
def addFirst (count : ℕ) : List EntryStep :=
  (List.range count).map fun idx => ⟨.addIndex idx, alignedMemory⟩

variable {count : ℕ} {answers : List Bool}

theorem run_addFirst_succ {entry next : Entry} {answer : Bool}
    (hrun : Entry.empty.run (addFirst count) = some (answers, entry))
    (hcall : entry.addIndex count alignedMemory = some (answer, next)) :
    Entry.empty.run (addFirst (count + 1)) = some (answers ++ [answer], next) := by
  have hsplit : addFirst (count + 1) = addFirst count ++ [⟨.addIndex count, alignedMemory⟩] := by
    simp [addFirst, range_succ]
  rw [hsplit, run_append, hrun]
  simp [run, Entry.call, hcall]

/-- The capacities that the array of a filling entry goes through. -/
def FillCapacity (count capacity : ℕ) : Prop :=
  count ≤ 4 ∧ capacity = 0 ∨
    4 < count ∧ count + 2 ≤ capacity ∧ capacity % 12 = 4 ∧ capacity ≤ max 16 (count + 13)

theorem FillCapacity.lt {capacity : ℕ} (hfill : FillCapacity count capacity)
    (hcount : count < 32763) : capacity < 2 ^ 15 := by
  rw [FillCapacity] at hfill
  omega

theorem isId_range (hcount : count < 32763) :
    ∀ id ∈ (List.range count).map (· + 1), IsId id := by
  intro id hid
  obtain ⟨idx, hidx, rfl⟩ := mem_map.mp hid
  have hlt := mem_range.mp hidx
  exact ⟨by omega, by omega⟩

theorem run_addFirst (hcount : count ≤ 32763) :
    ∃ answers entry capacity, Entry.empty.run (addFirst count) = some (answers, entry) ∧
      Stored entry [] capacity ((List.range count).map (· + 1)) 0 ∧
      FillCapacity count capacity := by
  induction count with
  | zero =>
    exact ⟨[], Entry.empty, 0, rfl, stored_empty, .inl ⟨by omega, rfl⟩⟩
  | succ count ih =>
    obtain ⟨answers, entry, capacity, hrun, hstored, hfill⟩ := ih (by omega)
    have hlimit : kMaxServers = 32767 := rfl
    obtain ⟨next, marker', capacity', hnext, hstored', hgrown⟩ :=
      hstored.addIndex_not_mem (isId_range hcount) (by omega) (hfill.lt hcount)
        (show count < kMaxServers by omega) alignedMemory (by simp)
    have hoffset : alignedMemory.offset = 0 := rfl
    have hmarker : marker' = [] := by
      rcases hgrown with ⟨hsame, -⟩ | ⟨haligned, -⟩
      · exact hsame
      · exact haligned hoffset
    refine ⟨answers ++ [true], next, capacity', run_addFirst_succ hrun hnext, ?_, ?_⟩
    · rw [← hmarker, range_succ, map_append]
      exact hstored'
    · simp only [newCapacity, hoffset, ne_eq, not_true_eq_false, if_false, length_map,
        length_range] at hgrown
      have hused : 4 < count + 1 → count + 1 + 2 ≤ capacity' := by
        intro hlarge
        cases hstored' with
        | inline hlength =>
          simp only [length_append, length_map, length_range, length_singleton] at hlength
          omega
        | allocated holds hlength => simpa using holds.used
      rw [FillCapacity] at hfill ⊢
      omega

/-- An array at an aligned address whose capacity has the bit of the mark set
is read from the wrong slot: the first index is taken for the size. -/
theorem Stored.serverCount_of_large {entry : Entry} {capacity id state : ℕ} {ids : List ℕ}
    (stored : Stored entry [] capacity (id :: ids) state) (hstate : state < 8)
    (hge : 2 ^ 15 ≤ capacity) (hlt : capacity < 2 ^ 16) :
    entry.serverCount = some (((id : ℤ) - 2) % 2 ^ 64).toNat := by
  cases stored with
  | inline hlength => omega
  | @allocated block _ _ free _ _ holds hlength =>
    have hposition : arrayPosition (arraySlots [] capacity (id :: ids) free) = some 1 := by
      rw [arrayPosition, arraySlots, nil_append, getElem?_cons_zero,
        map_some, if_pos (and_mark_ne_zero hge hlt)]
    rw [serverCount, isAddr_allocated holds.aligned hstate, addrCount,
      addrSlots_eq holds hstate]
    simp only [bind_eq_bind, bind_some, hposition]
    rfl

theorem addFirst_valid (hcount : count ≤ kMaxServers) :
    ∀ step ∈ addFirst count, step.call.Valid := by
  intro step hstep
  obtain ⟨idx, hidx, rfl⟩ := mem_map.mp hstep
  exact (mem_range.mp hidx).trans_le hcount

theorem serverCount_addFirst (hcount : count = 32762)
    (hrun : Entry.empty.run (addFirst (count + 1)) = some (answers, entry)) :
    entry.serverCount = some (2 ^ 64 - 1) := by
  obtain ⟨answers', entry', capacity, hrun', hstored, hfill⟩ :=
    run_addFirst (show count + 1 ≤ 32763 by omega)
  obtain ⟨-, rfl⟩ := Prod.mk.inj (some.inj (hrun.symm.trans hrun'))
  rw [range_succ_eq_map] at hstored
  have hcapacity : capacity = 32776 := by
    rw [FillCapacity] at hfill
    omega
  exact hstored.serverCount_of_large (by omega) (by omega) (by omega)

/-- With 32763 servers the entry no longer stands for them. -/
theorem not_run_agrees_addFirst :
    (∀ step ∈ addFirst 32763, step.call.Valid) ∧
      ¬ ∃ answers entry, Entry.empty.run (addFirst 32763) = some (answers, entry) ∧
        Agrees entry (ServerSet.empty.run ((addFirst 32763).map EntryStep.call)).2 := by
  refine ⟨addFirst_valid (by decide), ?_⟩
  rintro ⟨answers, entry, hrun, hagrees⟩
  have hlength := ServerSet.length_run_le ServerSet.empty ((addFirst 32763).map EntryStep.call)
  have hcount := (serverCount_addFirst rfl hrun).symm.trans hagrees.serverCount
  have hsame := some.inj hcount
  rw [length_map, addFirst, length_map, length_range, ServerSet.empty, length_nil] at hlength
  rw [addFirst, ServerSet.empty] at hsame
  omega

end Entry

end QfsRepair.ChunkMap
