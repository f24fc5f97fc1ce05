import QfsRepair.HashTable.LinearHash
import Mathlib.Data.List.Nodup
import Mathlib.Data.List.Perm.Basic
import Mathlib.Tactic.Ring

/-!
# The buckets of a linear hash table

Every entry lies in the bucket that the split state selects for its key, and
the chains are in the order of the keys.  A split moves to the new bucket
exactly the entries that the next split state selects for it, and a merge moves
them back.
-/

namespace QfsRepair.HashTable

open List Option

variable {Key Val : Type} [LinearOrder Key]

/-! ## Bucket addresses -/

section Addresses

variable {maxSplitIdx splitIdx hash : ℕ}

theorem mod_two_mul (hash maxSplitIdx : ℕ) (hpos : 0 < maxSplitIdx) :
    hash % (maxSplitIdx + maxSplitIdx) = hash % maxSplitIdx ∨
      hash % (maxSplitIdx + maxSplitIdx) = maxSplitIdx + hash % maxSplitIdx := by
  have hmod : hash % (maxSplitIdx + maxSplitIdx) % maxSplitIdx = hash % maxSplitIdx :=
    Nat.mod_mod_of_dvd hash ⟨2, by ring⟩
  have hlt : hash % (maxSplitIdx + maxSplitIdx) < maxSplitIdx + maxSplitIdx :=
    Nat.mod_lt _ (by omega)
  rcases Nat.lt_or_ge (hash % (maxSplitIdx + maxSplitIdx)) maxSplitIdx with hsmall | hlarge
  · exact .inl (by rw [← hmod, Nat.mod_eq_of_lt hsmall])
  · have hsub := Nat.mod_eq_sub_mod hlarge
    rw [Nat.mod_eq_of_lt (a := _ - _) (by omega)] at hsub
    omega

/-- The address in terms of remainders. -/
theorem bucketIdx_eq (splitIdx hash : ℕ) (hpower : ∃ bits, maxSplitIdx = 2 ^ bits) :
    bucketIdx maxSplitIdx splitIdx hash =
      if hash % maxSplitIdx < splitIdx then hash % (maxSplitIdx + maxSplitIdx)
      else hash % maxSplitIdx := by
  obtain ⟨bits, rfl⟩ := hpower
  have hdouble : 2 ^ bits + 2 ^ bits = 2 ^ (bits + 1) := by ring
  simp only [bucketIdx, hdouble, Nat.and_two_pow_sub_one_eq_mod]

theorem bucketIdx_lt (hpower : ∃ bits, maxSplitIdx = 2 ^ bits) :
    bucketIdx maxSplitIdx splitIdx hash < maxSplitIdx + splitIdx := by
  have hpos : 0 < maxSplitIdx := by
    obtain ⟨bits, rfl⟩ := hpower
    exact Nat.two_pow_pos bits
  have hlt := Nat.mod_lt hash hpos
  rw [bucketIdx_eq _ _ hpower]
  split
  · rcases mod_two_mul hash maxSplitIdx hpos with heq | heq <;> omega
  · omega

end Addresses

/-! ## Chains -/

/-- In the order of the keys. -/
def Sorted (chain : List (Key × Val)) : Prop := chain.Pairwise fun left right => left.1 < right.1

namespace Chain

variable {key : Key} {val : Val} {chain target moved : List (Key × Val)}

theorem find_eq_some_iff (hsorted : Sorted chain) :
    find key chain = some val ↔ (key, val) ∈ chain := by
  induction chain with
  | nil => simp [find]
  | cons entry chain ih =>
    obtain ⟨hfirst, hrest⟩ := pairwise_cons.mp hsorted
    rw [find]
    by_cases hkey : key = entry.1
    · rw [if_pos hkey, some.injEq, mem_cons]
      constructor
      · rintro rfl
        exact .inl (Prod.ext hkey rfl)
      · rintro (hentry | hmem)
        · exact congrArg Prod.snd hentry.symm
        · exact absurd hkey (hfirst _ hmem).ne'
    · rw [if_neg hkey, ih hrest, mem_cons]
      exact ⟨.inr, fun hmem => hmem.resolve_left fun h => hkey (congrArg Prod.fst h)⟩

/-- An insertion finds the key, or adds it and keeps the order. -/
theorem insert_cases (key : Key) (val : Val) (hsorted : Sorted chain) :
    (∃ existing, (key, existing) ∈ chain ∧ insert key val chain = (some existing, chain)) ∨
      (∀ existing, (key, existing) ∉ chain) ∧
        ∃ added, insert key val chain = (none, added) ∧ added.Perm ((key, val) :: chain) ∧
          Sorted added := by
  induction chain with
  | nil => exact .inr ⟨by simp, [(key, val)], rfl, .refl _, pairwise_singleton ..⟩
  | cons entry chain ih =>
    obtain ⟨hfirst, hrest⟩ := pairwise_cons.mp hsorted
    rw [insert]
    rcases lt_trichotomy key entry.1 with hlt | heq | hgt
    · refine .inr ⟨?_, (key, val) :: entry :: chain, by rw [if_pos hlt], .refl _, ?_⟩
      · rintro existing (_ | ⟨_, hmem⟩)
        · exact lt_irrefl _ hlt
        · exact lt_asymm hlt (hfirst _ hmem)
      · refine pairwise_cons.mpr ⟨?_, hsorted⟩
        rintro other (_ | ⟨_, hmem⟩)
        · exact hlt
        · exact hlt.trans (hfirst other hmem)
    · refine .inl ⟨entry.2, ?_, ?_⟩
      · rw [heq]
        exact .head _
      · rw [if_neg heq.not_lt, if_pos heq]
    · have hne : key ≠ entry.1 := hgt.ne'
      rw [if_neg hgt.not_gt, if_neg hne]
      rcases ih hrest with ⟨existing, hmem, hinsert⟩ | ⟨hnew, added, hinsert, hperm, hadded⟩
      · exact .inl ⟨existing, .tail _ hmem, by rw [hinsert]⟩
      · refine .inr ⟨?_, entry :: added, by rw [hinsert],
          (hperm.cons entry).trans (.swap ..), ?_⟩
        · rintro existing (_ | ⟨_, hmem⟩)
          · exact hne rfl
          · exact hnew existing hmem
        · refine pairwise_cons.mpr ⟨?_, hadded⟩
          intro other hother
          rcases mem_cons.mp (hperm.mem_iff.mp hother) with rfl | hmem
          · exact hgt
          · exact hfirst other hmem

theorem erase_cases (key : Key) (hsorted : Sorted chain) :
    (∃ val next kept, erase key chain = some (next, kept) ∧
        chain.Perm ((key, val) :: kept) ∧ kept.Sublist chain) ∨
      (∀ val, (key, val) ∉ chain) ∧ erase key chain = none := by
  induction chain with
  | nil => exact .inr ⟨by simp, rfl⟩
  | cons entry chain ih =>
    obtain ⟨-, hrest⟩ := pairwise_cons.mp hsorted
    rw [erase]
    by_cases hkey : key = entry.1
    · refine .inl ⟨entry.2, _, chain, by rw [if_pos hkey], ?_, sublist_cons_self ..⟩
      rw [hkey]
    · rw [if_neg hkey]
      rcases ih hrest with ⟨val, next, kept, herase, hperm, hsub⟩ | ⟨hnone, herase⟩
      · exact .inl ⟨val, next, entry :: kept, by rw [herase, map_some],
          (hperm.cons entry).trans (.swap ..), hsub.cons_cons entry⟩
      · refine .inr ⟨?_, by rw [herase, map_none]⟩
        rintro val (_ | ⟨_, hmem⟩)
        · exact hkey rfl
        · exact hnone val hmem

theorem merge_perm (target moved : List (Key × Val)) :
    (merge target moved).Perm (target ++ moved) :=
  merge_perm_append ..

theorem merge_sorted (htarget : Sorted target) (hmoved : Sorted moved)
    (hdisjoint : ∀ left ∈ target, ∀ right ∈ moved, left.1 ≠ right.1) :
    Sorted (merge target moved) := by
  induction target generalizing moved with
  | nil => rwa [merge, nil_merge]
  | cons left target ihTarget =>
    induction moved with
    | nil => rwa [merge, merge_right]
    | cons right moved ihMoved =>
      obtain ⟨hleft, htarget'⟩ := pairwise_cons.mp htarget
      obtain ⟨hright, hmoved'⟩ := pairwise_cons.mp hmoved
      have hne := hdisjoint left (.head _) right (.head _)
      rw [merge, cons_merge_cons]
      by_cases hlt : left.1 < right.1
      · rw [if_pos (by simpa using hlt)]
        refine pairwise_cons.mpr ⟨?_, ihTarget htarget' hmoved
          fun other hother => hdisjoint other (.tail _ hother)⟩
        intro other hother
        rcases mem_append.mp ((merge_perm ..).mem_iff.mp hother) with hmem | hmem
        · exact hleft other hmem
        · rcases mem_cons.mp hmem with rfl | hmem
          · exact hlt
          · exact hlt.trans (hright other hmem)
      · rw [if_neg (by simpa using hlt)]
        have hgt : right.1 < left.1 := lt_of_le_of_ne (not_lt.mp hlt) hne.symm
        refine pairwise_cons.mpr ⟨?_, ihMoved hmoved'
          fun left hleft other hother => hdisjoint left hleft other (.tail _ hother)⟩
        intro other hother
        rcases mem_append.mp ((merge_perm ..).mem_iff.mp hother) with hmem | hmem
        · rcases mem_cons.mp hmem with rfl | hmem
          · exact hgt
          · exact hgt.trans (hleft other hmem)
        · exact hright other hmem

end Chain

/-! ## Tables -/

namespace LinearHash

variable {hash : Key → ℕ} {table : LinearHash Key Val}

/-- The entries of a table. -/
def contents (table : LinearHash Key Val) : List (Key × Val) := table.buckets.flatten

/-- A table with buckets: their number goes with the split state, and every
entry is in its place. -/
structure Placed (hash : Key → ℕ) (table : LinearHash Key Val) : Prop where
  power : ∃ bits, table.maxSplitIdx = 2 ^ bits
  split_lt : table.splitIdx < table.maxSplitIdx
  length : table.buckets.length = table.maxSplitIdx + table.splitIdx
  sorted : ∀ chain ∈ table.buckets, Sorted chain
  placed : ∀ (idx : ℕ) (chain : List (Key × Val)), table.buckets[idx]? = some chain →
    ∀ entry ∈ chain, table.bucketOf hash entry.1 = idx

theorem Placed.bucketOf_lt (placed : Placed hash table) (key : Key) :
    table.bucketOf hash key < table.buckets.length :=
  placed.length ▸ bucketIdx_lt placed.power

variable {chain : List (Key × Val)}

/-- The entries of a key are in its bucket. -/
theorem Placed.mem_contents_iff (placed : Placed hash table) (entry : Key × Val)
    (hchain : table.buckets[table.bucketOf hash entry.1]? = some chain) :
    entry ∈ table.contents ↔ entry ∈ chain := by
  rw [contents, mem_flatten]
  constructor
  · rintro ⟨other, hother, hentry⟩
    obtain ⟨idx, hidx⟩ := mem_iff_getElem?.mp hother
    rw [← placed.placed idx other hidx entry hentry, hchain] at hidx
    exact some.inj hidx ▸ hentry
  · exact fun hentry => ⟨chain, mem_of_getElem? hchain, hentry⟩

theorem flatten_set_perm {α : Type} {lists : List (List α)} {idx : ℕ} (hidx : idx < lists.length)
    (list : List α) :
    (lists.set idx list).flatten.Perm (list ++ (lists.eraseIdx idx).flatten) := by
  rw [set_eq_take_append_cons_drop, if_pos hidx, eraseIdx_eq_take_drop_succ, flatten_append,
    flatten_cons, flatten_append, ← append_assoc, ← append_assoc]
  exact perm_append_comm.append_right _

theorem flatten_perm {α : Type} {lists : List (List α)} {idx : ℕ} {list : List α}
    (hlist : lists[idx]? = some list) :
    lists.flatten.Perm (list ++ (lists.eraseIdx idx).flatten) := by
  obtain ⟨hidx, rfl⟩ := List.getElem?_eq_some_iff.mp hlist
  have hset := flatten_set_perm hidx lists[idx]
  rwa [set_getElem_self] at hset

/-- A change of one chain. -/
theorem Placed.set (placed : Placed hash table) (idx : ℕ) (hsorted : Sorted chain)
    (hchain : ∀ entry ∈ chain, table.bucketOf hash entry.1 = idx) :
    Placed hash { table with buckets := table.buckets.set idx chain } where
  power := placed.power
  split_lt := placed.split_lt
  length := by rw [length_set]; exact placed.length
  sorted := by
    intro other hother
    rcases mem_or_eq_of_mem_set hother with hmem | rfl
    · exact placed.sorted other hmem
    · exact hsorted
  placed := by
    intro position other hother entry hentry
    rw [getElem?_set] at hother
    split at hother
    · next heq =>
        split at hother
        · cases hother
          exact heq ▸ hchain entry hentry
        · cases hother
    · exact placed.placed position other hother entry hentry

/-! ## The split state -/

section SplitState

omit [LinearOrder Key]

/-- `retreat` undoes `advance`. -/
theorem advance_retreat (hpower : ∃ bits, table.maxSplitIdx = 2 ^ bits)
    (hsplit : table.splitIdx < table.maxSplitIdx)
    (hcount : 1 < table.maxSplitIdx + table.splitIdx) :
    table.retreat.advance = table ∧ (∃ bits, table.retreat.maxSplitIdx = 2 ^ bits) ∧
      table.retreat.splitIdx < table.retreat.maxSplitIdx ∧
      table.retreat.buckets = table.buckets ∧
      table.retreat.maxSplitIdx + table.retreat.splitIdx + 1 =
        table.maxSplitIdx + table.splitIdx := by
  obtain ⟨splitIdx, maxSplitIdx, nextBucketIdx, nextEntry, buckets⟩ := table
  obtain ⟨bits, hbits⟩ := hpower
  dsimp only at hbits hsplit hcount ⊢
  by_cases hzero : splitIdx = 0
  · subst hzero
    cases bits with
    | zero =>
      rw [hbits] at hcount
      simp at hcount
    | succ bits =>
      have hhalf : maxSplitIdx / 2 = 2 ^ bits := by omega
      simp only [retreat, if_true, hhalf]
      refine ⟨?_, ⟨bits, rfl⟩, by omega, trivial, by omega⟩
      rw [advance, if_pos (by dsimp only; omega)]
      simp only [LinearHash.mk.injEq, and_true, true_and]
      omega
  · simp only [retreat, if_neg hzero]
    refine ⟨?_, ⟨bits, hbits⟩, by omega, trivial, by omega⟩
    rw [advance, if_neg (by dsimp only; omega)]
    simp only [LinearHash.mk.injEq, and_true]
    omega

/-- The next split state moves only keys of the bucket that is split. -/
theorem bucketOf_advance (hash : Key → ℕ) (hpower : ∃ bits, table.maxSplitIdx = 2 ^ bits)
    (hsplit : table.splitIdx < table.maxSplitIdx) (key : Key) :
    (table.bucketOf hash key ≠ table.splitIdx →
        table.advance.bucketOf hash key = table.bucketOf hash key) ∧
      (table.bucketOf hash key = table.splitIdx →
        table.advance.bucketOf hash key = table.splitIdx ∨
          table.advance.bucketOf hash key = table.maxSplitIdx + table.splitIdx) := by
  have hpower' : ∃ bits, table.maxSplitIdx + table.maxSplitIdx = 2 ^ bits := by
    obtain ⟨bits, hbits⟩ := hpower
    exact ⟨bits + 1, by rw [hbits]; ring⟩
  have hmod := Nat.mod_lt (hash key) (by omega : 0 < table.maxSplitIdx)
  have hdouble := mod_two_mul (hash key) table.maxSplitIdx (by omega)
  have hbefore := bucketIdx_eq table.splitIdx (hash key) hpower
  by_cases hround : table.maxSplitIdx ≤ table.splitIdx + 1
  · have hafter := bucketIdx_eq 0 (hash key) hpower'
    rw [if_neg (Nat.not_lt_zero _)] at hafter
    simp only [bucketOf, advance, if_pos hround, hbefore, hafter]
    split <;> omega
  · have hafter := bucketIdx_eq (table.splitIdx + 1) (hash key) hpower
    simp only [bucketOf, advance, if_neg hround, hbefore, hafter]
    split <;> split <;> omega

theorem advance_count (table : LinearHash Key Val) (hsplit : table.splitIdx < table.maxSplitIdx) :
    table.advance.splitIdx < table.advance.maxSplitIdx ∧
      table.advance.maxSplitIdx + table.advance.splitIdx =
        table.maxSplitIdx + table.splitIdx + 1 ∧
      table.advance.buckets = table.buckets := by
  rw [advance]
  split <;> exact ⟨by dsimp only; omega, by dsimp only; omega, rfl⟩

theorem advance_power (hpower : ∃ bits, table.maxSplitIdx = 2 ^ bits) :
    ∃ bits, table.advance.maxSplitIdx = 2 ^ bits := by
  obtain ⟨bits, hbits⟩ := hpower
  rw [advance]
  split
  · exact ⟨bits + 1, by dsimp only; rw [hbits]; ring⟩
  · exact ⟨bits, hbits⟩

end SplitState

/-! ## Splitting and merging -/

/-- A split keeps the entries and makes one bucket more. -/
theorem Placed.split (placed : Placed hash table) :
    ∃ table', table.split hash = some table' ∧ Placed hash table' ∧
      table'.contents.Perm table.contents ∧
      table'.buckets.length = table.buckets.length + 1 := by
  have hlength := placed.length
  have hlt := placed.split_lt
  have hprev : table.splitIdx < table.buckets.length := by omega
  have hnonempty : table.isEmpty = false := by
    rw [isEmpty, isEmpty_eq_false_iff_exists_mem]
    exact ⟨_, getElem_mem hprev⟩
  obtain ⟨hsplit, hcount, hbuckets⟩ := table.advance_count hlt
  obtain ⟨chain, hchain⟩ : ∃ chain, table.buckets[table.splitIdx]? = some chain :=
    ⟨_, getElem?_eq_getElem hprev⟩
  let stays : List (Key × Val) :=
    chain.filter fun entry => table.advance.bucketOf hash entry.1 = table.splitIdx
  let moves : List (Key × Val) :=
    chain.filter fun entry => ¬ table.advance.bucketOf hash entry.1 = table.splitIdx
  have hresult : ((table.buckets ++ [[]]).set table.splitIdx stays).set
      ((table.buckets ++ [[]]).length - 1) moves =
        table.buckets.set table.splitIdx stays ++ [moves] := by
    rw [set_append_left _ _ hprev, length_append, length_singleton,
      Nat.add_sub_cancel, set_append_right _ _ (by rw [length_set]), length_set,
      Nat.sub_self]
    rfl
  refine ⟨{ table.advance with buckets := table.buckets.set table.splitIdx stays ++ [moves] },
    ?_, ⟨advance_power placed.power, hsplit, ?_, ?_, ?_⟩, ?_, ?_⟩
  · rw [LinearHash.split, hnonempty, if_neg (by simp)]
    simp only [getElem?_append_left hprev, hchain, bind_eq_bind, bind_some]
    rw [← hresult]
  · simp only [length_append, length_set, length_singleton]
    omega
  · intro other hother
    have hsorted := placed.sorted chain (mem_of_getElem? hchain)
    rcases mem_append.mp hother with hmem | hmem
    · rcases mem_or_eq_of_mem_set hmem with hold | rfl
      · exact placed.sorted other hold
      · exact hsorted.filter _
    · rw [mem_singleton.mp hmem]
      exact hsorted.filter _
  · intro idx other hother entry hentry
    have hmoved := bucketOf_advance hash placed.power hlt entry.1
    rcases Nat.lt_or_ge idx table.buckets.length with hidx | hidx
    · rw [getElem?_append_left (by rwa [length_set])] at hother
      by_cases heq : table.splitIdx = idx
      · rw [heq, getElem?_set_self hidx] at hother
        cases hother
        exact (of_decide_eq_true (mem_filter.mp hentry).2).trans heq
      · rw [getElem?_set_ne heq] at hother
        have hold := placed.placed idx other hother entry hentry
        exact (hmoved.1 (by omega)).trans hold
    · rw [getElem?_append_right (by rwa [length_set]), length_set] at hother
      have hlast : idx = table.buckets.length := by
        have := (List.getElem?_eq_some_iff.mp hother).1
        rw [length_singleton] at this
        omega
      rw [hlast, Nat.sub_self] at hother
      cases hother
      obtain ⟨hmem, hmoves⟩ := mem_filter.mp hentry
      have hold := placed.placed _ chain hchain entry hmem
      exact ((hmoved.2 hold).resolve_left (of_decide_eq_true hmoves)).trans (by omega)
  · have hsplit' : (stays ++ moves).Perm chain := by
      simpa [stays, moves] using filter_append_perm
        (fun entry => decide (table.advance.bucketOf hash entry.1 = table.splitIdx)) chain
    rw [contents, flatten_append, flatten_singleton]
    calc (table.buckets.set table.splitIdx stays).flatten ++ moves
        |>.Perm (stays ++ (table.buckets.eraseIdx table.splitIdx).flatten ++ moves) :=
          (flatten_set_perm hprev stays).append_right moves
      _ |>.Perm (stays ++ moves ++ (table.buckets.eraseIdx table.splitIdx).flatten) := by
          rw [append_assoc, append_assoc]
          exact perm_append_comm.append_left stays
      _ |>.Perm (chain ++ (table.buckets.eraseIdx table.splitIdx).flatten) :=
          hsplit'.append_right _
      _ |>.Perm table.buckets.flatten := (flatten_perm hchain).symm
  · simp

/-- What `Merge` followed by `PopBack` does to the buckets. -/
theorem merge_popBack {init : List (List (Key × Val))} {target moved : List (Key × Val)}
    (hcount : 1 < table.buckets.length) (hbuckets : table.retreat.buckets = init ++ [moved])
    (htarget : init[table.retreat.splitIdx]? = some target) :
    ∃ table', table.merge = some table' ∧ table'.popBack = { table.retreat with
      buckets := init.set table.retreat.splitIdx (Chain.merge target moved) } := by
  obtain ⟨hidx, -⟩ := List.getElem?_eq_some_iff.mp htarget
  have hlast : table.retreat.buckets.getLast? = some moved := by rw [hbuckets]; simp
  rw [LinearHash.merge, if_neg (by rw [getSize]; omega)]
  simp only [hlast, bind_eq_bind, bind_some]
  by_cases hempty : moved = []
  · refine ⟨table.retreat, by rw [if_pos hempty], ?_⟩
    have hsame : init.set table.retreat.splitIdx (Chain.merge target moved) = init := by
      rw [hempty, Chain.merge, merge_right]
      obtain ⟨-, rfl⟩ := List.getElem?_eq_some_iff.mp htarget
      exact set_getElem_self ..
    rw [popBack, hsame, hbuckets, dropLast_concat]
  · have hcleared : table.retreat.buckets.set (table.retreat.getSize - 1) [] = init ++ [[]] := by
      rw [getSize, hbuckets, length_append, length_singleton, Nat.add_sub_cancel,
        set_append_right _ _ le_rfl, Nat.sub_self]
      rfl
    rw [if_neg hempty, hcleared, getElem?_append_left hidx, htarget]
    refine ⟨_, rfl, ?_⟩
    rw [popBack, set_append_left _ _ hidx, dropLast_concat]

/-- A merge keeps the entries and leaves one bucket less. -/
theorem Placed.merge (placed : Placed hash table) (hcount : 1 < table.buckets.length) :
    ∃ table', table.merge = some table' ∧ Placed hash table'.popBack ∧
      table'.popBack.contents.Perm table.contents ∧
      table'.popBack.buckets.length + 1 = table.buckets.length := by
  have hlength := placed.length
  obtain ⟨hadvance, hpower, hsplit, hsame, hnumber⟩ :=
    advance_retreat placed.power placed.split_lt (by omega)
  obtain ⟨init, moved, hbuckets⟩ : ∃ init moved, table.buckets = init ++ [moved] := by
    have hne : table.buckets ≠ [] := by
      rintro hnil
      rw [hnil] at hcount
      simp at hcount
    exact ⟨_, _, (dropLast_append_getLast hne).symm⟩
  have hinit : init.length + 1 = table.buckets.length := by simp [hbuckets]
  have hidx : table.retreat.splitIdx < init.length := by omega
  obtain ⟨target, htarget⟩ : ∃ target, init[table.retreat.splitIdx]? = some target :=
    ⟨_, getElem?_eq_getElem hidx⟩
  obtain ⟨table', hmerge, hpop⟩ := merge_popBack hcount (hsame.trans hbuckets) htarget
  have hmovedAt : table.buckets[init.length]? = some moved := by rw [hbuckets]; simp
  have hinitAt : ∀ (idx : ℕ) (chain : List (Key × Val)), init[idx]? = some chain →
      table.buckets[idx]? = some chain := by
    intro idx chain hchain
    rw [hbuckets, getElem?_append_left (List.getElem?_eq_some_iff.mp hchain).1, hchain]
  have hback : ∀ key, table.bucketOf hash key = table.retreat.splitIdx ∨
      table.bucketOf hash key = init.length →
        table.retreat.bucketOf hash key = table.retreat.splitIdx := by
    intro key hkey
    have hmoves := bucketOf_advance hash hpower hsplit key
    have hbound : table.retreat.bucketOf hash key <
        table.retreat.maxSplitIdx + table.retreat.splitIdx := bucketIdx_lt hpower
    rw [hadvance] at hmoves
    by_contra hne
    omega
  refine ⟨table', hmerge, ?_, ?_, ?_⟩
  · rw [hpop]
    refine ⟨hpower, hsplit, ?_, ?_, ?_⟩
    · rw [length_set]
      dsimp only
      omega
    · intro chain hchain
      rcases mem_or_eq_of_mem_set hchain with hmem | rfl
      · exact placed.sorted chain (hbuckets ▸ mem_append_left _ hmem)
      · refine Chain.merge_sorted (placed.sorted _ (mem_of_getElem? (hinitAt _ _ htarget)))
          (placed.sorted _ (mem_of_getElem? hmovedAt)) ?_
        intro left hleft right hright heq
        have hfirst := placed.placed _ _ (hinitAt _ _ htarget) left hleft
        have hsecond := placed.placed _ _ hmovedAt right hright
        rw [heq] at hfirst
        omega
    · intro idx chain hchain entry hentry
      by_cases heq : table.retreat.splitIdx = idx
      · subst heq
        rw [getElem?_set_self hidx] at hchain
        cases hchain
        apply hback
        rcases mem_append.mp ((Chain.merge_perm ..).mem_iff.mp hentry) with hmem | hmem
        · exact .inl (placed.placed _ _ (hinitAt _ _ htarget) entry hmem)
        · exact .inr (placed.placed _ _ hmovedAt entry hmem)
      · rw [getElem?_set_ne heq] at hchain
        have hold := placed.placed idx chain (hinitAt _ _ hchain) entry hentry
        have hlt := (List.getElem?_eq_some_iff.mp hchain).1
        have hmoves := bucketOf_advance hash hpower hsplit entry.1
        rw [hadvance] at hmoves
        by_cases hsplitIdx : table.retreat.bucketOf hash entry.1 = table.retreat.splitIdx
        · omega
        · exact (hmoves.1 hsplitIdx).symm.trans hold
  · rw [hpop, contents, contents, hbuckets, flatten_append, flatten_singleton]
    calc (init.set table.retreat.splitIdx (Chain.merge target moved)).flatten
        |>.Perm (Chain.merge target moved ++ (init.eraseIdx table.retreat.splitIdx).flatten) :=
          flatten_set_perm hidx _
      _ |>.Perm (target ++ moved ++ (init.eraseIdx table.retreat.splitIdx).flatten) :=
          (Chain.merge_perm ..).append_right _
      _ |>.Perm (target ++ (init.eraseIdx table.retreat.splitIdx).flatten ++ moved) := by
          rw [append_assoc, append_assoc]
          exact perm_append_comm.append_left target
      _ |>.Perm (init.flatten ++ moved) := (flatten_perm htarget).symm.append_right moved
  · rw [hpop, length_set]
    exact hinit

end LinearHash

end QfsRepair.HashTable
