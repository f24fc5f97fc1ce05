import QfsRepair.HashTable.BucketInvariant
import Mathlib.Data.Finmap
import Mathlib.Data.List.TakeWhile

/-!
# The linear hash table as a finite map

The table is for a finite map from keys to values.  Every sequence of calls on
the table gives the answers of the map, whatever the hash function is.
-/

namespace QfsRepair.HashTable

open LinearHash List
open Option hiding mem_map mem_toFinset

variable {Key Val : Type} [LinearOrder Key]

namespace LinearHash

variable {hash : Key → ℕ} {table : LinearHash Key Val}

/-- The invariant between calls: one bucket for each entry, and every entry in
its place. -/
structure Valid (hash : Key → ℕ) (table : LinearHash Key Val) : Prop where
  buckets : table.buckets = [] ∧ table.maxSplitIdx = 1 ∧ table.splitIdx = 0 ∨ Placed hash table
  size : table.contents.length = table.buckets.length

section

variable (valid : Valid hash table)

include valid

theorem Valid.placed (hnonempty : table.isEmpty = false) :
    Placed hash table := by
  rcases valid.buckets with ⟨hnil, -, -⟩ | placed
  · simp [isEmpty, hnil] at hnonempty
  · exact placed

omit valid in
/-- No key occurs twice. -/
theorem Placed.nodupKeys (placed : Placed hash table) :
    (table.contents.map Prod.fst).Nodup := by
  rw [List.Nodup, pairwise_map, contents, pairwise_flatten]
  refine ⟨fun chain hchain => (placed.sorted chain hchain).imp fun hlt => hlt.ne, ?_⟩
  rw [pairwise_iff_getElem]
  intro first second hfirst hsecond hlt left hleft right hright heq
  have hleftAt := placed.placed first _ (List.getElem?_eq_getElem hfirst) left hleft
  have hrightAt := placed.placed second _ (List.getElem?_eq_getElem hsecond) right hright
  rw [heq, hrightAt] at hleftAt
  omega

theorem Valid.nodupKeys : (table.contents.map Prod.fst).Nodup := by
  rcases valid.buckets with ⟨hnil, -, -⟩ | placed
  · simp [contents, hnil]
  · exact placed.nodupKeys

omit valid in
theorem Placed.chain (placed : Placed hash table) (key : Key) :
    ∃ chain, table.buckets[table.bucketOf hash key]? = some chain ∧ Sorted chain ∧
      (∀ val, (key, val) ∈ table.contents ↔ (key, val) ∈ chain) ∧
      table.contents.Perm
        (chain ++ (table.buckets.eraseIdx (table.bucketOf hash key)).flatten) := by
  have hchain := List.getElem?_eq_getElem (placed.bucketOf_lt key)
  exact ⟨_, hchain, placed.sorted _ (getElem_mem _),
    fun val => placed.mem_contents_iff (key, val) hchain, flatten_perm hchain⟩

/-! ## Calls -/

theorem Valid.find (key : Key) :
    ∃ answer, table.find hash key = some answer ∧
      ∀ val, answer = some val ↔ (key, val) ∈ table.contents := by
  rw [LinearHash.find]
  cases hempty : table.isEmpty with
  | true =>
    have hnil : table.buckets = [] := isEmpty_iff.mp hempty
    exact ⟨none, rfl, by simp [contents, hnil]⟩
  | false =>
    obtain ⟨chain, hchain, hsorted, hmem, -⟩ := (valid.placed hempty).chain key
    refine ⟨Chain.find key chain, by rw [hchain]; rfl, ?_⟩
    intro val
    rw [Chain.find_eq_some_iff hsorted, hmem]

/-- `Insert` finds the key and changes nothing, or adds the entry. -/
theorem Valid.insert (key : Key) (val : Val) :
    (∃ existing, (key, existing) ∈ table.contents ∧
        table.insert hash key val = some (false, existing, table)) ∨
      (∀ existing, (key, existing) ∉ table.contents) ∧
        ∃ table', table.insert hash key val = some (true, val, table') ∧ Valid hash table' ∧
          table'.contents.Perm ((key, val) :: table.contents) := by
  rw [LinearHash.insert]
  cases hempty : table.isEmpty with
  | true =>
    have hnil : table.buckets = [] := isEmpty_iff.mp hempty
    have hcontents : table.contents = [] := by simp [contents, hnil]
    obtain ⟨-, hmax, hsplit⟩ | placed := valid.buckets
    · refine .inr ⟨by simp [hcontents], _, rfl, ⟨.inr ⟨⟨0, hmax⟩, ?_, ?_, ?_, ?_⟩, rfl⟩, ?_⟩
      · dsimp only
        omega
      · simp [hmax, hsplit]
      · intro chain hchain
        rw [mem_singleton.mp hchain]
        exact pairwise_singleton ..
      · intro idx chain hchain entry hentry
        have hlt : bucketIdx 1 0 (hash entry.1) < 1 + 0 := bucketIdx_lt ⟨0, rfl⟩
        have hidx := (List.getElem?_eq_some_iff.mp hchain).1
        rw [length_singleton] at hidx
        simp only [bucketOf, hmax, hsplit]
        omega
      · rw [hcontents]
        simp [contents]
    · have := placed.bucketOf_lt key
      rw [hnil] at this
      simp at this
  | false =>
    have placed := valid.placed hempty
    obtain ⟨chain, hchain, hsorted, hmem, hperm⟩ := placed.chain key
    rw [if_neg (by simp), hchain, bind_eq_bind, bind_some]
    rcases Chain.insert_cases key val hsorted with
      ⟨existing, hexisting, hinsert⟩ | ⟨hnew, added, hinsert, hadded, hsorted'⟩
    · exact .inl ⟨existing, (hmem existing).mpr hexisting, by rw [hinsert]⟩
    · right
      refine ⟨fun existing => mt (hmem existing).mp (hnew existing), ?_⟩
      have hset := placed.set (table.bucketOf hash key) hsorted' (by
        intro entry hentry
        rcases mem_cons.mp (hadded.mem_iff.mp hentry) with rfl | hold
        · rfl
        · exact placed.placed _ _ hchain entry hold)
      obtain ⟨table', hsplit, hplaced, hcontents, hlength⟩ := hset.split
      have hentries : table'.contents.Perm ((key, val) :: table.contents) := by
        refine hcontents.trans ?_
        refine (flatten_set_perm (placed.bucketOf_lt key) added).trans ?_
        exact (hadded.append_right _).trans (hperm.symm.cons (key, val))
      refine ⟨table', by rw [hinsert]; simp [hsplit], ⟨.inr hplaced, ?_⟩,
        hentries⟩
      rw [hentries.length_eq, length_cons, valid.size, hlength, length_set]

end

/-- `Delete` moves the cursor only. -/
theorem delete_buckets (table : LinearHash Key Val) (key : Key) (next : Option Key) :
    (table.delete key next).buckets = table.buckets ∧
      (table.delete key next).splitIdx = table.splitIdx ∧
      (table.delete key next).maxSplitIdx = table.maxSplitIdx := by
  rw [delete]
  split <;> exact ⟨rfl, rfl, rfl⟩

variable {other : LinearHash Key Val}

theorem Placed.of_eq (placed : Placed hash table)
    (hsame : other.buckets = table.buckets ∧ other.splitIdx = table.splitIdx ∧
      other.maxSplitIdx = table.maxSplitIdx) : Placed hash other := by
  obtain ⟨hbuckets, hsplit, hmax⟩ := hsame
  refine ⟨hmax ▸ placed.power, by rw [hmax, hsplit]; exact placed.split_lt,
    by rw [hbuckets, hmax, hsplit]; exact placed.length, by rw [hbuckets]; exact placed.sorted, ?_⟩
  intro idx chain hchain entry hentry
  rw [hbuckets] at hchain
  rw [bucketOf, hmax, hsplit]
  exact placed.placed idx chain hchain entry hentry

/-- The removal of a bucket after the removal of an entry. -/
theorem Placed.merge_valid (placed : Placed hash table)
    (hsize : table.contents.length + 1 = table.buckets.length) :
    ∃ table', table.merge = some table' ∧ Valid hash table'.popBack ∧
      table'.popBack.contents.Perm table.contents := by
  have hlength := placed.length
  have hlt := placed.split_lt
  by_cases hcount : 1 < table.buckets.length
  · obtain ⟨table', hmerge, hplaced, hperm, hless⟩ := placed.merge hcount
    exact ⟨table', hmerge, ⟨.inr hplaced, by rw [hperm.length_eq]; omega⟩, hperm⟩
  · have hempty : table.contents = [] := length_eq_zero_iff.mp (by omega)
    have hpop : table.popBack.buckets = [] := by
      rw [popBack, ← length_eq_zero_iff, length_dropLast]
      omega
    have hcontents : table.popBack.contents = [] := by rw [contents, hpop, flatten_nil]
    refine ⟨table, ?_, ⟨.inl ⟨hpop, ?_, ?_⟩, by rw [hcontents, hpop]; rfl⟩, ?_⟩
    · rw [LinearHash.merge, if_pos (by rw [getSize]; omega)]
    · rw [popBack]
      dsimp only
      omega
    · rw [popBack]
      dsimp only
      omega
    · rw [hcontents, hempty]

/-- `Erase` removes the entry of the key, or finds none. -/
theorem Valid.erase (valid : Valid hash table) (key : Key) :
    (∃ val table', table.erase hash key = some (1, table') ∧ Valid hash table' ∧
        table.contents.Perm ((key, val) :: table'.contents)) ∨
      (∀ val, (key, val) ∉ table.contents) ∧ table.erase hash key = some (0, table) := by
  rw [LinearHash.erase]
  cases hempty : table.isEmpty with
  | true =>
    have hnil : table.buckets = [] := isEmpty_iff.mp hempty
    exact .inr ⟨by simp [contents, hnil], rfl⟩
  | false =>
    have placed := valid.placed hempty
    obtain ⟨chain, hchain, hsorted, hmem, hperm⟩ := placed.chain key
    rw [if_neg (by simp), hchain, bind_eq_bind, bind_some]
    rcases Chain.erase_cases key hsorted with
      ⟨val, next, kept, herase, hkept, hsub⟩ | ⟨hnone, herase⟩
    · left
      have hsame := delete_buckets
        { table with buckets := table.buckets.set (table.bucketOf hash key) kept } key next
      have hset := (placed.set (table.bucketOf hash key) (hsorted.sublist hsub)
        (fun entry hentry => placed.placed _ _ hchain entry (hsub.subset hentry))).of_eq hsame
      have hremoved : table.contents.Perm ((key, val) :: (LinearHash.delete
          { table with buckets := table.buckets.set (table.bucketOf hash key) kept }
          key next).contents) := by
        rw [contents, contents, hsame.1]
        refine hperm.trans ((hkept.append_right _).trans ?_)
        exact ((flatten_set_perm (placed.bucketOf_lt key) kept).symm).cons (key, val)
      have hlength := hremoved.length_eq
      rw [valid.size, length_cons] at hlength
      obtain ⟨table', hmerge, hvalid, hcontents⟩ := hset.merge_valid (by
        rw [← hlength, hsame.1, length_set])
      refine ⟨val, table'.popBack, ?_, hvalid, hremoved.trans (hcontents.symm.cons (key, val))⟩
      rw [herase]
      simp only [hmerge, bind_eq_bind, bind_some]
    · exact .inr ⟨fun val => mt (hmem val).mp (hnone val), by rw [herase]⟩

/-! ## Traversal -/

/-- Tables that differ in their cursors only. -/
def SameEntries (table other : LinearHash Key Val) : Prop :=
  other.buckets = table.buckets ∧ other.splitIdx = table.splitIdx ∧
    other.maxSplitIdx = table.maxSplitIdx

omit [LinearOrder Key] in
theorem SameEntries.trans {first second third : LinearHash Key Val}
    (hfirst : SameEntries first second) (hsecond : SameEntries second third) :
    SameEntries first third :=
  ⟨hsecond.1.trans hfirst.1, hsecond.2.1.trans hfirst.2.1, hsecond.2.2.trans hfirst.2.2⟩

theorem Valid.of_sameEntries (valid : Valid hash table) (hsame : SameEntries table other) :
    Valid hash other := by
  refine ⟨?_, by rw [contents, hsame.1]; exact valid.size⟩
  rcases valid.buckets with ⟨hnil, hmax, hsplit⟩ | placed
  · exact .inl ⟨hsame.1.trans hnil, hsame.2.2.trans hmax, hsame.2.1.trans hsplit⟩
  · exact .inr (placed.of_eq hsame)

/-- The entries that `Next` has still to return. -/
inductive Remaining (table : LinearHash Key Val) : List (Key × Val) → Prop
  | between (hentry : table.nextEntry = none) :
      Remaining table (table.buckets.drop table.nextBucketIdx).flatten
  | inside {before after : List (Key × Val)} {entry : Key × Val}
      (hentry : table.nextEntry = some entry.1)
      (hchain : table.buckets[table.nextBucketIdx]? = some (before ++ entry :: after)) :
      Remaining table (entry :: after ++ (table.buckets.drop (table.nextBucketIdx + 1)).flatten)

omit [LinearOrder Key] in
theorem seek_cases (buckets : List (List (Key × Val))) (idx : ℕ) :
    (buckets.flatten = [] ∧ (seek buckets idx).2 = none) ∨
      ∃ count entry after, seek buckets idx = (idx + count, some entry.1) ∧
        buckets[count]? = some (entry :: after) ∧
        buckets.flatten = entry :: after ++ (buckets.drop (count + 1)).flatten := by
  induction buckets generalizing idx with
  | nil => exact .inl ⟨rfl, rfl⟩
  | cons chain buckets ih =>
    cases chain with
    | nil =>
      rcases ih (idx + 1) with ⟨hflatten, hseek⟩ | ⟨count, entry, after, hseek, hat, hflatten⟩
      · exact .inl ⟨by simpa using hflatten, hseek⟩
      · refine .inr ⟨count + 1, entry, after, ?_, by simpa using hat, by simpa using hflatten⟩
        rw [seek, hseek]
        congr 1
        omega
    | cons entry after => exact .inr ⟨0, entry, after, rfl, rfl, by simp⟩

variable {entry : Key × Val}

/-- A pointer to an entry leads to the rest of its chain. -/
theorem chainAt_eq (hnodup : (table.contents.map Prod.fst).Nodup) {idx : ℕ}
    {before after : List (Key × Val)}
    (hchain : table.buckets[idx]? = some (before ++ entry :: after)) :
    table.chainAt entry.1 = entry :: after := by
  obtain ⟨hidx, hget⟩ := List.getElem?_eq_some_iff.mp hchain
  have hsplit : table.buckets =
      table.buckets.take idx ++ (before ++ entry :: after) :: table.buckets.drop (idx + 1) := by
    rw [← hget, getElem_cons_drop, take_append_drop]
  rw [contents, hsplit] at hnodup
  rw [chainAt, hsplit]
  generalize table.buckets.take idx = first at hnodup
  generalize table.buckets.drop (idx + 1) = last at hnodup
  simp only [flatten_append, flatten_cons, map_append, map_cons, nodup_append, nodup_cons,
    mem_append, mem_map, mem_flatten, mem_cons] at hnodup
  have hdrop : ∀ lists : List (List (Key × Val)),
      (∀ list ∈ lists, ∀ other ∈ list, other.1 ≠ entry.1) →
        (lists.map fun chain => chain.dropWhile fun other => decide (other.1 ≠ entry.1)).flatten =
          [] := by
    intro lists hlists
    rw [flatten_eq_nil_iff]
    intro list hlist
    obtain ⟨source, hsource, rfl⟩ := mem_map.mp hlist
    rw [dropWhile_eq_nil_iff]
    exact fun other hother => decide_eq_true (hlists source hsource other hother)
  have hbefore : ∀ other ∈ before, decide (other.1 ≠ entry.1) = true := by
    intro other hother
    exact decide_eq_true (by grind)
  rw [map_append, map_cons, flatten_append, flatten_cons,
    hdrop first (by grind), hdrop last (by grind), nil_append, append_nil,
    dropWhile_append_of_pos hbefore, dropWhile_cons_of_neg (by simp)]

/-- `Next` at an entry of a chain. -/
theorem next_inside (hnodup : (table.contents.map Prod.fst).Nodup)
    {before after : List (Key × Val)} (hentry : table.nextEntry = some entry.1)
    (hchain : table.buckets[table.nextBucketIdx]? = some (before ++ entry :: after)) :
    ∃ table', table.next = some (some entry, table') ∧ SameEntries table table' ∧
      Remaining table' (after ++ (table.buckets.drop (table.nextBucketIdx + 1)).flatten) := by
  rw [next, if_neg (by simp [hentry])]
  simp only [hentry, chainAt_eq hnodup hchain]
  refine ⟨_, rfl, ⟨rfl, rfl, rfl⟩, ?_⟩
  cases after with
  | nil => exact Remaining.between rfl
  | cons second after =>
    have hnext : table.buckets[table.nextBucketIdx]? =
        some ((before ++ [entry]) ++ second :: after) := by simpa using hchain
    exact Remaining.inside rfl hnext

variable {rest : List (Key × Val)}

theorem Remaining.next (remaining : Remaining table rest)
    (hnodup : (table.contents.map Prod.fst).Nodup) :
    (rest = [] ∧ ∃ table', table.next = some (none, table') ∧ SameEntries table table') ∨
      ∃ entry others table', rest = entry :: others ∧ table.next = some (some entry, table') ∧
        SameEntries table table' ∧ Remaining table' others := by
  cases remaining with
  | between hentry =>
    rcases seek_cases (table.buckets.drop table.nextBucketIdx) table.nextBucketIdx with
      ⟨hflatten, hseek⟩ | ⟨count, entry, after, hseek, hat, hflatten⟩
    · refine .inl ⟨hflatten, ?_⟩
      rw [LinearHash.next, if_pos hentry]
      simp only [hseek]
      exact ⟨_, rfl, rfl, rfl, rfl⟩
    · right
      rw [getElem?_drop] at hat
      rw [drop_drop] at hflatten
      -- the loop over empty buckets brings the cursor to the first entry
      let start := { table with
        nextBucketIdx := table.nextBucketIdx + count, nextEntry := some entry.1 }
      have hstart : start.buckets[start.nextBucketIdx]? = some ([] ++ entry :: after) := hat
      obtain ⟨table', hnext, hsame, hremaining⟩ := next_inside
        (show (start.contents.map Prod.fst).Nodup from hnodup) rfl hstart
      refine ⟨entry, _, table', hflatten, ?_, hsame, hremaining⟩
      rw [← hnext, LinearHash.next, LinearHash.next, if_pos hentry, if_neg (by simp), hseek]
  | inside hentry hchain =>
    obtain ⟨table', hnext, hsame, hremaining⟩ := next_inside hnodup hentry hchain
    exact .inr ⟨_, _, table', rfl, hnext, hsame, hremaining⟩

theorem Remaining.nextAll (remaining : Remaining table rest)
    (hnodup : (table.contents.map Prod.fst).Nodup) {fuel : ℕ} (hfuel : rest.length < fuel) :
    ∃ table', nextAll fuel table = some (rest, table') ∧ SameEntries table table' := by
  induction fuel generalizing table rest with
  | zero => omega
  | succ fuel ih =>
    rw [LinearHash.nextAll]
    rcases remaining.next hnodup with
      ⟨rfl, table', hnext, hsame⟩ | ⟨entry, others, next, rfl, hnext, hsame, hremaining⟩
    · exact ⟨table', by rw [hnext]; rfl, hsame⟩
    · obtain ⟨table', hall, hsame'⟩ := ih hremaining
        (by rw [contents, hsame.1]; exact hnodup) (by simpa using hfuel)
      refine ⟨table', ?_, hsame.trans hsame'⟩
      rw [hnext]
      simp only [bind_eq_bind, bind_some, hall]

/-- A traversal returns the entries of the table. -/
theorem Valid.traverse (valid : Valid hash table) :
    ∃ table', table.traverse = some (table.contents, table') ∧ SameEntries table table' := by
  have hremaining : Remaining table.first (table.first.buckets.drop 0).flatten :=
    Remaining.between rfl
  obtain ⟨table', hall, hsame⟩ := hremaining.nextAll valid.nodupKeys
    (show table.contents.length < table.getSize + 1 by rw [valid.size, getSize]; omega)
  exact ⟨table', hall, hsame⟩

end LinearHash

/-! ## Runs -/

/-- A call on the table. -/
inductive Call (Key Val : Type) where
  | find (key : Key)
  | insert (key : Key) (val : Val)
  | erase (key : Key)
  | traverse

/-- The answer to a call. -/
inductive Answer (Key Val : Type) where
  | found (val : Option Val)
  | inserted (flag : Bool) (val : Val)
  | erased (count : ℕ)
  | visited (entries : List (Key × Val))

/-- A call on the hash table. -/
def LinearHash.call (hash : Key → ℕ) (table : LinearHash Key Val) :
    Call Key Val → Option (Answer Key Val × LinearHash Key Val)
  | .find key => (table.find hash key).map fun val => (.found val, table)
  | .insert key val =>
    (table.insert hash key val).map fun (flag, val, table) => (.inserted flag val, table)
  | .erase key => (table.erase hash key).map fun (count, table) => (.erased count, table)
  | .traverse => table.traverse.map fun (entries, table) => (.visited entries, table)

/-- A sequence of calls. -/
def LinearHash.run (hash : Key → ℕ) (table : LinearHash Key Val) :
    List (Call Key Val) → Option (List (Answer Key Val) × LinearHash Key Val)
  | [] => some ([], table)
  | call :: calls => do
      let (answer, table) ← table.call hash call
      let (answers, table) ← table.run hash calls
      some (answer :: answers, table)

/-- What the table is for. -/
abbrev FiniteMap (Key Val : Type) := Finmap fun _ : Key => Val

namespace FiniteMap

/-- The map after a call; an insertion does not change a key that is there. -/
def after (map : FiniteMap Key Val) : Call Key Val → FiniteMap Key Val
  | .insert key val => if key ∈ map then map else map.insert key val
  | .erase key => map.erase key
  | _ => map

/-- The answer that the map has for a call. -/
def Answers (map : FiniteMap Key Val) : Call Key Val → Answer Key Val → Prop
  | .find key, .found val => val = map.lookup key
  | .insert key val, .inserted flag stored =>
    flag = decide (key ∉ map) ∧ (map.after (.insert key val)).lookup key = some stored
  | .erase key, .erased count => count = if key ∈ map then 1 else 0
  | .traverse, .visited entries =>
    (entries.map Prod.fst).Nodup ∧
      ∀ key val, (key, val) ∈ entries ↔ map.lookup key = some val
  | _, _ => False

/-- The map after a sequence of calls. -/
def run (map : FiniteMap Key Val) (calls : List (Call Key Val)) : FiniteMap Key Val :=
  calls.foldl after map

/-- The answers that the map has for a sequence of calls. -/
def Answered : FiniteMap Key Val → List (Call Key Val) → List (Answer Key Val) → Prop
  | _, [], [] => True
  | map, call :: calls, answer :: answers =>
    map.Answers call answer ∧ Answered (map.after call) calls answers
  | _, _, _ => False

end FiniteMap

namespace LinearHash

variable {hash : Key → ℕ} {table : LinearHash Key Val} {map : FiniteMap Key Val}

/-- A table in good order that holds the entries of the map. -/
structure Represents (hash : Key → ℕ) (table : LinearHash Key Val) (map : FiniteMap Key Val) :
    Prop where
  valid : Valid hash table
  mem_iff : ∀ key val, (key, val) ∈ table.contents ↔ map.lookup key = some val

section

variable (represents : Represents hash table map)

include represents

theorem Represents.mem_map_iff (key : Key) :
    key ∈ map ↔ ∃ val, (key, val) ∈ table.contents := by
  rw [← Finmap.lookup_isSome, isSome_iff_exists]
  simp only [represents.mem_iff]

theorem Represents.call (call : Call Key Val) :
    ∃ answer table', table.call hash call = some (answer, table') ∧ map.Answers call answer ∧
      Represents hash table' (map.after call) := by
  cases call with
  | find key =>
    obtain ⟨answer, hfind, hanswer⟩ := represents.valid.find key
    refine ⟨.found answer, table, by rw [LinearHash.call, hfind, map_some], ?_,
      represents⟩
    apply ext
    intro val
    rw [hanswer, represents.mem_iff]
  | insert key val =>
    rcases represents.valid.insert key val with
      ⟨existing, hmem, hinsert⟩ | ⟨hnew, table', hinsert, hvalid, hperm⟩
    · have hkey : key ∈ map := (represents.mem_map_iff key).mpr ⟨existing, hmem⟩
      have hafter : map.after (.insert key val) = map := if_pos hkey
      refine ⟨.inserted false existing, table, by rw [LinearHash.call, hinsert, map_some],
        ⟨by simp [hkey], ?_⟩, by rw [hafter]; exact represents⟩
      rw [hafter]
      exact (represents.mem_iff key existing).mp hmem
    · have hkey : key ∉ map := by
        rw [represents.mem_map_iff]
        rintro ⟨existing, hmem⟩
        exact hnew existing hmem
      have hafter : map.after (.insert key val) = map.insert key val := if_neg hkey
      refine ⟨.inserted true val, table', by rw [LinearHash.call, hinsert, map_some],
        ⟨by simp [hkey], by rw [hafter, Finmap.lookup_insert]⟩, ?_⟩
      rw [hafter]
      refine ⟨hvalid, ?_⟩
      intro other stored
      rw [hperm.mem_iff, mem_cons, represents.mem_iff]
      by_cases hother : other = key
      · subst hother
        have hnone : map.lookup other = none := Finmap.lookup_eq_none.mpr hkey
        rw [hnone]
        simp [eq_comm]
      · simp [hother]
  | erase key =>
    rcases represents.valid.erase key with
      ⟨val, table', herase, hvalid, hperm⟩ | ⟨hnone, herase⟩
    · have hkey : key ∈ map := (represents.mem_map_iff key).mpr
        ⟨val, hperm.mem_iff.mpr (.head _)⟩
      refine ⟨.erased 1, table', by rw [LinearHash.call, herase, map_some],
        (if_pos hkey).symm, hvalid, ?_⟩
      have hnodup := (hperm.map Prod.fst).nodup_iff.mp represents.valid.nodupKeys
      rw [map_cons, nodup_cons] at hnodup
      intro other stored
      rw [FiniteMap.after]
      by_cases hother : other = key
      · subst hother
        rw [Finmap.lookup_erase]
        refine ⟨fun hmem => absurd (mem_map_of_mem (f := Prod.fst) hmem) hnodup.1, ?_⟩
        rintro ⟨⟩
      · rw [Finmap.lookup_erase_ne hother, ← represents.mem_iff, hperm.mem_iff]
        simp [hother]
    · have hkey : key ∉ map := by
        rw [represents.mem_map_iff]
        rintro ⟨val, hmem⟩
        exact hnone val hmem
      refine ⟨.erased 0, table, by rw [LinearHash.call, herase, map_some],
        (if_neg hkey).symm, represents.valid, ?_⟩
      intro other stored
      rw [FiniteMap.after, represents.mem_iff]
      by_cases hother : other = key
      · subst hother
        rw [Finmap.lookup_erase, Finmap.lookup_eq_none.mpr hkey]
      · rw [Finmap.lookup_erase_ne hother]
  | traverse =>
    obtain ⟨table', htraverse, hsame⟩ := represents.valid.traverse
    refine ⟨.visited table.contents, table', by rw [LinearHash.call, htraverse, map_some],
      ⟨represents.valid.nodupKeys, represents.mem_iff⟩,
      represents.valid.of_sameEntries hsame, ?_⟩
    rw [contents, hsame.1]
    exact represents.mem_iff

theorem Represents.run (calls : List (Call Key Val)) :
    ∃ answers table', table.run hash calls = some (answers, table') ∧
      map.Answered calls answers ∧ Represents hash table' (map.run calls) := by
  induction calls generalizing table map with
  | nil => exact ⟨[], table, rfl, trivial, represents⟩
  | cons call calls ih =>
    obtain ⟨answer, next, hcall, hanswer, hnext⟩ := represents.call call
    obtain ⟨answers, table', hrun, hanswers, hfinal⟩ := ih hnext
    refine ⟨answer :: answers, table', ?_, ⟨hanswer, hanswers⟩, hfinal⟩
    rw [LinearHash.run, hcall]
    simp only [bind_eq_bind, bind_some, hrun]

/-- The number of buckets is the number of keys. -/
theorem Represents.getSize_eq :
    table.getSize = map.keys.card := by
  have hkeys : map.keys = (table.contents.map Prod.fst).toFinset := by
    ext key
    rw [Finmap.mem_keys, represents.mem_map_iff, mem_toFinset, mem_map]
    exact ⟨fun ⟨val, hmem⟩ => ⟨(key, val), hmem, rfl⟩, fun ⟨entry, hmem, heq⟩ =>
      ⟨entry.2, heq ▸ hmem⟩⟩
  rw [getSize, ← represents.valid.size, hkeys,
    toFinset_card_of_nodup represents.valid.nodupKeys, length_map]

end

/-- Every sequence of calls on an empty table succeeds with the answers of the
finite map; the table then holds the entries of the map, one bucket for each
key, and every key in the bucket that the split state selects. -/
theorem run_refines (hash : Key → ℕ) (calls : List (Call Key Val)) :
    ∃ answers table, (empty : LinearHash Key Val).run hash calls = some (answers, table) ∧
      FiniteMap.Answered ∅ calls answers ∧
      (∀ key val, (key, val) ∈ table.contents ↔
        (FiniteMap.run ∅ calls).lookup key = some val) ∧
      table.getSize = (FiniteMap.run ∅ calls).keys.card ∧
      ∀ (idx : ℕ) (chain : List (Key × Val)), table.buckets[idx]? = some chain →
        ∀ entry ∈ chain, table.bucketOf hash entry.1 = idx := by
  have hempty : Represents hash (empty : LinearHash Key Val) ∅ :=
    ⟨⟨.inl ⟨rfl, rfl, rfl⟩, rfl⟩, fun key val => by simp [contents, empty]⟩
  obtain ⟨answers, table, hrun, hanswered, hfinal⟩ := hempty.run calls
  refine ⟨answers, table, hrun, hanswered, hfinal.mem_iff, hfinal.getSize_eq, ?_⟩
  rcases hfinal.valid.buckets with ⟨hnil, -, -⟩ | placed
  · intro idx chain hchain
    rw [hnil] at hchain
    simp at hchain
  · exact placed.placed

end LinearHash

end QfsRepair.HashTable
