import Mathlib.Data.List.Basic
import Mathlib.Order.Lattice

/-!
# Linear hashing

`LinearHash`: a table with one bucket for each entry, each bucket a chain in
the order of the keys.  An insertion splits one bucket in two and a removal
joins two, in turn.  A pointer to an entry is the key of the entry.

`none` is undefined behaviour: a bucket outside the array, or a pointer to an
entry that is gone.
-/

namespace QfsRepair.HashTable

variable {Key Val : Type} [LinearOrder Key]

/-- `LinearHash::BucketIdx`. -/
def bucketIdx (maxSplitIdx splitIdx hash : ℕ) : ℕ :=
  let idx := hash &&& (maxSplitIdx - 1)
  if idx < splitIdx then hash &&& (maxSplitIdx + maxSplitIdx - 1) else idx

namespace Chain

/-- The loop of `Find`. -/
def find (key : Key) : List (Key × Val) → Option Val
  | [] => none
  | entry :: chain => if key = entry.1 then some entry.2 else find key chain

/-- The loop of `Insert`: the value that is there already, or the chain with
the new entry in its place. -/
def insert (key : Key) (val : Val) : List (Key × Val) → Option Val × List (Key × Val)
  | [] => (none, [(key, val)])
  | entry :: chain =>
    if key < entry.1 then (none, (key, val) :: entry :: chain)
    else if key = entry.1 then (some entry.2, entry :: chain)
    else
      let (existing, chain) := insert key val chain
      (existing, entry :: chain)

/-- The loop of `Erase`: the entry after the removed one, and the chain. -/
def erase (key : Key) : List (Key × Val) → Option (Option Key × List (Key × Val))
  | [] => none
  | entry :: chain =>
    if key = entry.1 then some (chain.head?.map Prod.fst, chain)
    else (erase key chain).map fun (next, chain) => (next, entry :: chain)

/-- The loop of `Merge`. -/
def merge (target moved : List (Key × Val)) : List (Key × Val) :=
  target.merge moved fun left right => left.1 < right.1

end Chain

/-- The split state, the cursor of `First` and `Next`, and the buckets. -/
structure LinearHash (Key Val : Type) where
  splitIdx : ℕ
  maxSplitIdx : ℕ
  nextBucketIdx : ℕ
  nextEntry : Option Key
  buckets : List (List (Key × Val))

namespace LinearHash

def empty : LinearHash Key Val := ⟨0, 1, 0, none, []⟩

variable (hash : Key → ℕ) (table : LinearHash Key Val)

def getSize : ℕ := table.buckets.length

def isEmpty : Bool := table.buckets.isEmpty

/-- The bucket of `GetBucket`. -/
def bucketOf (key : Key) : ℕ := bucketIdx table.maxSplitIdx table.splitIdx (hash key)

def find (key : Key) : Option (Option Val) :=
  if table.isEmpty then some none
  else table.buckets[table.bucketOf hash key]?.map (Chain.find key)

/-- The split state after one bucket more. -/
def advance : LinearHash Key Val :=
  if table.maxSplitIdx ≤ table.splitIdx + 1 then
    { table with splitIdx := 0, maxSplitIdx := table.maxSplitIdx + table.maxSplitIdx }
  else { table with splitIdx := table.splitIdx + 1 }

def split : Option (LinearHash Key Val) :=
  if table.isEmpty then some table
  else do
    let prevIdx := table.splitIdx
    let buckets := table.buckets ++ [[]]
    let table := table.advance
    let chain ← buckets[prevIdx]?
    let stays := fun entry : Key × Val => table.bucketOf hash entry.1 = prevIdx
    some { table with
      buckets := (buckets.set prevIdx (chain.filter fun entry => stays entry)).set
        (buckets.length - 1) (chain.filter fun entry => ¬ stays entry) }

/-- The split state after one bucket less. -/
def retreat : LinearHash Key Val :=
  if table.splitIdx = 0 then
    { table with splitIdx := table.maxSplitIdx / 2 - 1, maxSplitIdx := table.maxSplitIdx / 2 }
  else { table with splitIdx := table.splitIdx - 1 }

def merge : Option (LinearHash Key Val) :=
  if table.splitIdx = 0 ∧ table.getSize ≤ 1 then some table
  else do
    let table := table.retreat
    let moved ← table.buckets.getLast?
    if moved = [] then some table
    else
      let buckets := table.buckets.set (table.getSize - 1) []
      let target ← buckets[table.splitIdx]?
      some { table with buckets := buckets.set table.splitIdx (Chain.merge target moved) }

/-- `mBuckets.PopBack()`. -/
def popBack : LinearHash Key Val := { table with buckets := table.buckets.dropLast }

/-- The value that is stored for the key, and whether it is the new one. -/
def insert (key : Key) (val : Val) : Option (Bool × Val × LinearHash Key Val) :=
  if table.isEmpty then some (true, val, { table with buckets := [[(key, val)]] })
  else do
    let chain ← table.buckets[table.bucketOf hash key]?
    match Chain.insert key val chain with
    | (some existing, _) => some (false, existing, table)
    | (none, chain) =>
      let table := { table with buckets := table.buckets.set (table.bucketOf hash key) chain }
      let table ← table.split hash
      some (true, val, table)

/-- The cursor after `Delete`, if the entry it points to is the deleted one. -/
def delete (key : Key) (next : Option Key) : LinearHash Key Val :=
  if table.nextEntry = some key then
    { table with
      nextEntry := next
      nextBucketIdx := if next = none then table.nextBucketIdx + 1 else table.nextBucketIdx }
  else table

def erase (key : Key) : Option (ℕ × LinearHash Key Val) :=
  if table.isEmpty then some (0, table)
  else do
    let chain ← table.buckets[table.bucketOf hash key]?
    match Chain.erase key chain with
    | none => some (0, table)
    | some (next, chain) =>
      let table := { table with buckets := table.buckets.set (table.bucketOf hash key) chain }
      let table ← (table.delete key next).merge
      some (1, table.popBack)

/-! ## Traversal -/

def first : LinearHash Key Val := { table with nextEntry := none, nextBucketIdx := 0 }

/-- The loop of `Next` over empty buckets, from the bucket `idx` on. -/
def seek : List (List (Key × Val)) → ℕ → ℕ × Option Key
  | [], idx => (idx, none)
  | [] :: buckets, idx => seek buckets (idx + 1)
  | (entry :: _) :: _, idx => (idx, some entry.1)

/-- The chain from the entry that a pointer points to. -/
def chainAt (key : Key) : List (Key × Val) :=
  (table.buckets.map fun chain => chain.dropWhile fun entry => entry.1 ≠ key).flatten

def next : Option (Option (Key × Val) × LinearHash Key Val) :=
  let table :=
    if table.nextEntry = none then
      let (idx, entry) := seek (table.buckets.drop table.nextBucketIdx) table.nextBucketIdx
      { table with nextBucketIdx := idx, nextEntry := entry }
    else table
  match table.nextEntry with
  | none => some (none, table)
  | some key =>
    match table.chainAt key with
    | [] => none
    | entry :: chain =>
      some (some entry, { table with
        nextEntry := chain.head?.map Prod.fst
        nextBucketIdx := if chain = [] then table.nextBucketIdx + 1
          else table.nextBucketIdx })

/-- `Next` until there is nothing left. -/
def nextAll : ℕ → LinearHash Key Val → Option (List (Key × Val) × LinearHash Key Val)
  | 0, _ => none
  | fuel + 1, table => do
      let (entry, table) ← table.next
      match entry with
      | none => some ([], table)
      | some entry =>
        let (entries, table) ← nextAll fuel table
        some (entry :: entries, table)

/-- A full traversal. -/
def traverse : Option (List (Key × Val) × LinearHash Key Val) :=
  nextAll (table.getSize + 1) table.first

end LinearHash

end QfsRepair.HashTable
