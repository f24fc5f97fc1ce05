import Mathlib.Data.List.Sort

/-!
# Maps kept in key order

A map as the list of its entries in key order: an assignment overwrites the
entry of its key or inserts one at its place.  An assignment to a new key adds
one entry, an assignment to a present key keeps the keys.
-/

namespace QfsRepair.Store.KeyedList

open List

variable {Key Value : Type*} [DecidableEq Key]

def keys (entries : List (Key × Value)) : List Key := entries.map (·.1)

def find (key : Key) (entries : List (Key × Value)) : Option Value :=
  (entries.find? (·.1 = key)).map (·.2)

def erase (key : Key) (entries : List (Key × Value)) : List (Key × Value) :=
  entries.filter fun entry => decide (entry.1 ≠ key)

/-- The effect of `entries[key] = value`. -/
def assign [LT Key] [DecidableLT Key] (key : Key) (value : Value) (entries : List (Key × Value)) :
    List (Key × Value) :=
  if key ∈ keys entries then
    entries.map fun entry => if entry.1 = key then (key, value) else entry
  else entries.orderedInsert (·.1 < ·.1) (key, value)

theorem find_cons (key : Key) (entry : Key × Value) (entries : List (Key × Value)) :
    find key (entry :: entries) = if entry.1 = key then some entry.2 else find key entries := by
  by_cases hentry : entry.1 = key <;> simp [find, hentry]

variable {entries : List (Key × Value)} {key : Key}

theorem isSome_find :
    (find key entries).isSome = true ↔ key ∈ keys entries := by
  simp [find, keys, find?_isSome]

theorem find_eq_none :
    find key entries = none ↔ key ∉ keys entries := by
  rw [← isSome_find, Bool.not_eq_true, Option.isSome_eq_false_iff, Option.isNone_iff_eq_none]

@[simp]
theorem find_erase_self (key : Key) (entries : List (Key × Value)) :
    find key (erase key entries) = none := by
  rw [find_eq_none]
  simp [keys, erase]

variable {other : Key}

theorem find_erase_of_ne (hne : other ≠ key) (entries : List (Key × Value)) :
    find other (erase key entries) = find other entries := by
  induction entries with
  | nil => rfl
  | cons first rest ih =>
    by_cases hfirst : first.1 = key
    · rw [find_cons, if_neg (hfirst ▸ hne.symm), ← ih, erase, filter_cons_of_neg (by simpa)]
      rfl
    · rw [erase, filter_cons_of_pos (by simpa), find_cons, find_cons]
      exact if_congr Iff.rfl rfl ih

theorem keys_erase_sublist (key : Key) (entries : List (Key × Value)) :
    (keys (erase key entries)).Sublist (keys entries) :=
  filter_sublist.map _

variable {value : Value}

theorem mem_of_find (hfind : find key entries = some value) :
    (key, value) ∈ entries := by
  obtain ⟨entry, hentry, rfl⟩ := Option.map_eq_some_iff.mp hfind
  have hkey : entry.1 = key := by simpa using find?_some hentry
  rw [← hkey]
  exact mem_of_find?_eq_some hentry

section

variable (hnodup : (keys entries).Nodup)

include hnodup

/-- The entry of a key, where no two entries have the same. -/
theorem find_of_mem (hmem : (key, value) ∈ entries) :
    find key entries = some value := by
  induction entries with
  | nil => cases hmem
  | cons first rest ih =>
    obtain ⟨hfirst, hrest⟩ := nodup_cons.mp hnodup
    rcases mem_cons.mp hmem with rfl | hmem
    · simp [find]
    · have hne : first.1 ≠ key := by
        rintro rfl
        exact hfirst (mem_map.mpr ⟨_, hmem, rfl⟩)
      rw [find, find?_cons_of_neg (by simpa using hne)]
      exact ih hrest hmem

theorem perm_cons_erase (hmem : (key, value) ∈ entries) :
    entries.Perm ((key, value) :: erase key entries) := by
  induction entries with
  | nil => cases hmem
  | cons first rest ih =>
    obtain ⟨hfirst, hrest⟩ := nodup_cons.mp hnodup
    rcases mem_cons.mp hmem with rfl | hmem
    · have hkept : erase key rest = rest := by
        refine filter_eq_self.mpr fun entry hentry => decide_eq_true fun heq => hfirst ?_
        exact heq ▸ mem_map.mpr ⟨entry, hentry, rfl⟩
      rw [erase, filter_cons_of_neg (by simp), ← erase, hkept]
    · have hne : first.1 ≠ key := by
        rintro rfl
        exact hfirst (mem_map.mpr ⟨_, hmem, rfl⟩)
      rw [erase, filter_cons_of_pos (by simpa using hne)]
      exact ((ih hrest hmem).cons first).trans (Perm.swap _ _ _)

/-- Only an entry of the erased key leaves nothing. -/
theorem eq_singleton_of_erase (hfind : find key entries = some value)
    (herase : erase key entries = []) :
    entries = [(key, value)] := by
  have hkeys : ∀ entry ∈ entries, entry.1 = key := by
    simpa [erase, filter_eq_nil_iff] using herase
  rcases entries with _ | ⟨first, _ | ⟨second, rest⟩⟩
  · exact absurd hfind (Option.some_ne_none _).symm
  · have hfirst := hkeys first mem_cons_self
    rw [find_cons, if_pos hfirst] at hfind
    rw [← hfirst, ← Option.some.inj hfind]
  · have hne : first.1 ≠ second.1 := by
      intro heq
      exact (nodup_cons.mp hnodup).1 (by simp [heq])
    exact absurd ((hkeys first (by simp)).trans (hkeys second (by simp)).symm) hne

end

section Assignment

variable [LT Key] [DecidableLT Key] {key : Key} {value : Value} {entries : List (Key × Value)}

theorem assign_perm (hkey : key ∉ keys entries) :
    (assign key value entries).Perm ((key, value) :: entries) := by
  rw [assign, if_neg hkey]
  exact perm_orderedInsert _ _ _

theorem keys_assign_of_mem (hkey : key ∈ keys entries) :
    keys (assign key value entries) = keys entries := by
  rw [assign, if_pos hkey, keys, map_map]
  refine map_congr_left fun entry _ => ?_
  by_cases hentry : entry.1 = key <;> simp [hentry]

theorem keys_assign_perm (hkey : key ∉ keys entries) :
    (keys (assign key value entries)).Perm (key :: keys entries) :=
  (assign_perm hkey).map _

theorem mem_keys_assign :
    other ∈ keys (assign key value entries) ↔ other = key ∨ other ∈ keys entries := by
  by_cases hkey : key ∈ keys entries
  · rw [keys_assign_of_mem hkey]
    exact ⟨.inr, fun hmem => hmem.elim (fun heq => heq ▸ hkey) id⟩
  · rw [(keys_assign_perm hkey).mem_iff, mem_cons]

theorem nodup_keys_assign (hnodup : (keys entries).Nodup) :
    (keys (assign key value entries)).Nodup := by
  by_cases hkey : key ∈ keys entries
  · rwa [keys_assign_of_mem hkey]
  · exact (keys_assign_perm hkey).nodup_iff.mpr (nodup_cons.mpr ⟨hkey, hnodup⟩)

theorem mem_assign {entry : Key × Value} (hentry : entry ∈ assign key value entries) :
    entry = (key, value) ∨ entry ∈ entries := by
  by_cases hkey : key ∈ keys entries
  · rw [assign, if_pos hkey] at hentry
    obtain ⟨old, hold, rfl⟩ := mem_map.mp hentry
    by_cases heq : old.1 = key
    · exact .inl (if_pos heq)
    · rw [if_neg heq]
      exact .inr hold
  · exact mem_cons.mp ((assign_perm hkey).mem_iff.mp hentry)

@[simp]
theorem find_assign_self (key : Key) (value : Value) (entries : List (Key × Value)) :
    find key (assign key value entries) = some value := by
  by_cases hkey : key ∈ keys entries
  · rw [assign, if_pos hkey]
    induction entries with
    | nil => cases hkey
    | cons first rest ih =>
      rw [map_cons, find]
      by_cases hfirst : first.1 = key
      · simp [hfirst]
      · rw [if_neg hfirst, find?_cons_of_neg (by simpa using hfirst)]
        exact ih ((mem_cons.mp hkey).resolve_left (Ne.symm hfirst))
  · rw [assign, if_neg hkey]
    induction entries with
    | nil => simp [find]
    | cons first rest ih =>
      have hfirst : first.1 ≠ key := fun heq => hkey (heq ▸ mem_cons_self)
      rw [orderedInsert_cons]
      split_ifs
      · simp [find]
      · rw [find, find?_cons_of_neg (by simpa using hfirst)]
        exact ih fun hmem => hkey (mem_cons_of_mem _ hmem)

theorem find_assign_of_ne (hne : other ≠ key) :
    find other (assign key value entries) = find other entries := by
  by_cases hkey : key ∈ keys entries
  · rw [assign, if_pos hkey]
    clear hkey
    induction entries with
    | nil => rfl
    | cons first rest ih =>
      rw [map_cons, find_cons, find_cons, ih]
      by_cases hfirst : first.1 = key
      · rw [if_pos hfirst, if_neg hne.symm, if_neg (hfirst ▸ hne.symm)]
      · rw [if_neg hfirst]
  · rw [assign, if_neg hkey]
    clear hkey
    induction entries with
    | nil => rw [orderedInsert_nil, find_cons, if_neg hne.symm]
    | cons first rest ih =>
      rw [orderedInsert_cons]
      split_ifs
      · rw [find_cons, if_neg hne.symm]
      · rw [find_cons, find_cons, ih]

theorem find_assign :
    find other (assign key value entries) =
      if other = key then some value else find other entries := by
  by_cases hother : other = key
  · rw [if_pos hother, hother, find_assign_self]
  · rw [if_neg hother, find_assign_of_ne hother]

/-- Assignments to distinct new keys add their entries. -/
theorem foldl_assign_perm (assignments : List (Key × Value))
    (hnodup : (keys assignments).Nodup) (hnew : ∀ key ∈ keys assignments, key ∉ keys entries) :
    (assignments.foldl (fun entries entry => assign entry.1 entry.2 entries) entries).Perm
      (assignments ++ entries) := by
  induction assignments generalizing entries with
  | nil => exact Perm.refl _
  | cons first rest ih =>
    obtain ⟨hfirst, hrest⟩ := nodup_cons.mp hnodup
    have hassign := @assign_perm _ _ _ _ _ first.1 first.2 entries
      (hnew first.1 mem_cons_self)
    have hkeys : ∀ key ∈ keys rest, key ∉ keys (assign first.1 first.2 entries) := by
      intro key hkey hmem
      rcases mem_keys_assign.mp hmem with rfl | hold
      · exact hfirst hkey
      · exact hnew key (mem_cons_of_mem _ hkey) hold
    refine (ih hrest hkeys).trans ?_
    exact (hassign.append_left rest).trans perm_middle

end Assignment

theorem sorted_keys_assign {Key : Type*} [LinearOrder Key] {key : Key}
    {entries : List (Key × Value)} (hsorted : (keys entries).Pairwise (· < ·)) :
    (keys (assign key value entries)).Pairwise (· < ·) := by
  by_cases hkey : key ∈ keys entries
  · rwa [keys_assign_of_mem hkey]
  · rw [assign, if_neg hkey]
    induction entries with
    | nil => simp [keys]
    | cons first rest ih =>
      obtain ⟨hfirst, hrest⟩ := pairwise_cons.mp hsorted
      obtain ⟨hne, hnew⟩ : key ≠ first.1 ∧ key ∉ keys rest := by
        simpa [keys] using hkey
      rw [orderedInsert_cons]
      split_ifs with hlt
      · refine pairwise_cons.mpr ⟨?_, hsorted⟩
        intro other hother
        rcases mem_cons.mp hother with rfl | hother
        · exact hlt
        · exact hlt.trans (hfirst other hother)
      · refine pairwise_cons.mpr ⟨?_, ih hrest hnew⟩
        intro other hother
        have hmem : other ∈ key :: keys rest :=
          ((perm_orderedInsert _ _ _).map _).mem_iff.mp hother
        rcases mem_cons.mp hmem with rfl | hmem
        · exact lt_of_le_of_ne (not_lt.mp hlt) hne.symm
        · exact hfirst other hmem

end QfsRepair.Store.KeyedList
