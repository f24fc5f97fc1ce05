import QfsRepair.Machine.GuardedRuns
import QfsRepair.Repair.Destination

/-!
# The queue of issued requests as a table

The queue of a chunk server files the requests of a stripe by time and chunk,
beside the reader that waits for the stripe.  It is meant as a table of requests
by stripe, time and chunk with one reader per stripe.  The two come apart where
a second chunk is filed under a time, which is dropped, and where the last
request of a stripe with a reader is deleted, which drops the reader.
-/

namespace QfsRepair.Repair.Destination

open Function List
open Store Machine KeyedList
open Option hiding map_map

/-! ## The calls -/

def insertUpstreamReaderIntoPartialDecodingOpQueue (stripe : ℤ) (op : OpPtr) (queue : OpQueue) :
    ℤ × OpQueue :=
  match find stripe queue with
  | none => (0, assign stripe { upstreamReadOp := some op } queue)
  | some info => (0, assign stripe { info with upstreamReadOp := some op } queue)

/-- `deleteFromPartialDecodingOpQueue` with a stripe only. -/
def deleteStripeFromPartialDecodingOpQueue (stripe : ℤ) (queue : OpQueue) : ℤ × OpQueue :=
  match find stripe queue with
  | none => (-1, queue)
  | some _ => (0, erase stripe queue)

inductive QueueCall where
  | insert (stripe time chunkId : ℤ) (op : OpPtr)
  | insertUpstream (stripe : ℤ) (op : OpPtr)
  | delete (stripe time chunkId : ℤ)
  | deleteStripe (stripe : ℤ)
  deriving DecidableEq

def performQueueCall (queue : OpQueue) : QueueCall → OpQueue
  | .insert stripe time chunkId op =>
    (insertIntoPartialDecodingOpQueue stripe time chunkId op queue).2
  | .insertUpstream stripe op => (insertUpstreamReaderIntoPartialDecodingOpQueue stripe op queue).2
  | .delete stripe time chunkId => (deleteFromPartialDecodingOpQueue stripe time chunkId queue).2
  | .deleteStripe stripe => (deleteStripeFromPartialDecodingOpQueue stripe queue).2

/-! ## The table -/

/-- The requests by stripe, time and chunk, and the reader of each stripe. -/
structure OperationTable where
  downstream : ℤ → ℤ → ℤ → Option OpPtr := fun _ _ _ => none
  upstream : ℤ → Option OpPtr := fun _ => none

namespace OperationTable

/-- A request is filed where none is. -/
def insert (table : OperationTable) (stripe time chunkId : ℤ) (op : OpPtr) : OperationTable :=
  { table with
    downstream := update table.downstream stripe fun time' chunkId' =>
      if time' = time ∧ chunkId' = chunkId then
        (table.downstream stripe time' chunkId').or (some op)
      else table.downstream stripe time' chunkId' }

def insertUpstream (table : OperationTable) (stripe : ℤ) (op : OpPtr) : OperationTable :=
  { table with upstream := update table.upstream stripe (some op) }

def delete (table : OperationTable) (stripe time chunkId : ℤ) : OperationTable :=
  { table with
    downstream := update table.downstream stripe fun time' chunkId' =>
      if time' = time ∧ chunkId' = chunkId then none
      else table.downstream stripe time' chunkId' }

def deleteStripe (table : OperationTable) (stripe : ℤ) : OperationTable where
  downstream := update table.downstream stripe fun _ _ => none
  upstream := update table.upstream stripe none

def perform (table : OperationTable) : QueueCall → OperationTable
  | .insert stripe time chunkId op => table.insert stripe time chunkId op
  | .insertUpstream stripe op => table.insertUpstream stripe op
  | .delete stripe time chunkId => table.delete stripe time chunkId
  | .deleteStripe stripe => table.deleteStripe stripe

theorem downstream_insert (table : OperationTable) (stripe time chunkId : ℤ) (op : OpPtr) :
    (table.insert stripe time chunkId op).downstream stripe = fun time' chunkId' =>
      if time' = time ∧ chunkId' = chunkId then
        (table.downstream stripe time' chunkId').or (some op)
      else table.downstream stripe time' chunkId' :=
  update_self stripe _ table.downstream

theorem downstream_delete (table : OperationTable) (stripe time chunkId : ℤ) :
    (table.delete stripe time chunkId).downstream stripe = fun time' chunkId' =>
      if time' = time ∧ chunkId' = chunkId then none
      else table.downstream stripe time' chunkId' :=
  update_self stripe _ table.downstream

/-- The times and chunks with a request, listed once each. -/
def Lists (filed : ℤ → ℤ → Option OpPtr) (places : List (ℤ × ℤ)) : Prop :=
  places.Nodup ∧ ∀ place, place ∈ places ↔ (filed place.1 place.2).isSome = true

/-- The least time with a request, `-1` if there is no request. -/
def IsLowestTime (filed : ℤ → ℤ → Option OpPtr) (lowest : ℤ) : Prop :=
  (∃ chunkId, (filed lowest chunkId).isSome = true) ∧
      (∀ time chunkId, (filed time chunkId).isSome = true → lowest ≤ time) ∨
    (∀ time chunkId, filed time chunkId = none) ∧ lowest = -1

end OperationTable

/-- What can be asked of the queue is what the table says. -/
structure BehavesAs (queue : OpQueue) (table : OperationTable) : Prop where
  issued : ∀ stripe, ∃ places, OperationTable.Lists (table.downstream stripe) places ∧
    (getIssuedOperationsDownstream stripe queue).map some =
      places.map fun place => table.downstream stripe place.1 place.2
  upstream : ∀ stripe, getOperationUpstream stripe queue = table.upstream stripe
  lowest : ∀ stripe, OperationTable.IsLowestTime (table.downstream stripe)
    (getLowestTemporalTimeInPartialDecodingOpQueue stripe queue)

/-- The request of a chunk is new, but its time has requests already. -/
def DropsRequest (stripe time chunkId : ℤ) (queue : OpQueue) : Prop :=
  ∃ info ops, find stripe queue = some info ∧
    find time info.downstreamReadOp = some ops ∧ find chunkId ops = none

/-- The request is the only one of a stripe with a reader. -/
def DropsReader (stripe time chunkId : ℤ) (queue : OpQueue) : Prop :=
  ∃ info op, find stripe queue = some info ∧ info.upstreamReadOp.isSome = true ∧
    info.downstreamReadOp = [(time, [(chunkId, op)])]

def KeepsTable (queue : OpQueue) : QueueCall → Prop
  | .insert stripe time chunkId _ => ¬ DropsRequest stripe time chunkId queue
  | .delete stripe time chunkId => ¬ DropsReader stripe time chunkId queue
  | .insertUpstream _ _ => True
  | .deleteStripe _ => True

/-! ## The entries of a stripe -/

namespace StripeRepairRequestInfo

def lookup (info : StripeRepairRequestInfo) (time chunkId : ℤ) : Option OpPtr :=
  (find time info.downstreamReadOp).bind (find chunkId)

/-- Times are in order, every time has requests, and no two for a chunk. -/
structure Sound (info : StripeRepairRequestInfo) : Prop where
  times : (KeyedList.keys info.downstreamReadOp).Pairwise (· < ·)
  nonempty : ∀ entry ∈ info.downstreamReadOp, entry.2 ≠ []
  chunks : ∀ entry ∈ info.downstreamReadOp, (KeyedList.keys entry.2).Nodup

/-- The times and chunks of the requests in the order of the queue. -/
def places (info : StripeRepairRequestInfo) : List (ℤ × ℤ) :=
  info.downstreamReadOp.flatMap fun entry => entry.2.map fun filed => (entry.1, filed.1)

variable {info : StripeRepairRequestInfo} {time chunkId : ℤ} {op : OpPtr}

theorem Sound.nodup_times (hsound : info.Sound) :
    (KeyedList.keys info.downstreamReadOp).Nodup :=
  hsound.times.imp fun hlt => ne_of_lt hlt

variable {ops : List (ℤ × OpPtr)}

section

variable (hsound : info.Sound)

include hsound

theorem Sound.lookup_of_mem (hops : (time, ops) ∈ info.downstreamReadOp)
    (hop : (chunkId, op) ∈ ops) :
    info.lookup time chunkId = some op := by
  rw [lookup, find_of_mem hsound.nodup_times hops]
  exact find_of_mem (hsound.chunks _ hops) hop

omit hsound in
theorem exists_of_lookup (hlookup : info.lookup time chunkId = some op) :
    ∃ ops, (time, ops) ∈ info.downstreamReadOp ∧ (chunkId, op) ∈ ops := by
  obtain ⟨ops, htime, hchunk⟩ := bind_eq_some_iff.mp hlookup
  exact ⟨ops, mem_of_find htime, mem_of_find hchunk⟩

theorem Sound.mem_places :
    (time, chunkId) ∈ info.places ↔ (info.lookup time chunkId).isSome = true := by
  rw [isSome_iff_exists, places, mem_flatMap]
  constructor
  · rintro ⟨⟨time', ops⟩, hops, hplace⟩
    obtain ⟨⟨chunkId', op⟩, hop, heq⟩ := mem_map.mp hplace
    obtain ⟨rfl, rfl⟩ := Prod.mk.inj heq
    exact ⟨op, hsound.lookup_of_mem hops hop⟩
  · rintro ⟨op, hlookup⟩
    obtain ⟨ops, hops, hop⟩ := exists_of_lookup hlookup
    exact ⟨(time, ops), hops, mem_map.mpr ⟨(chunkId, op), hop, rfl⟩⟩

theorem Sound.nodup_places : info.places.Nodup := by
  refine nodup_flatMap.mpr ⟨?_, ?_⟩
  · intro entry hentry
    have hnodup := hsound.chunks entry hentry
    rw [← comp_def, ← map_map]
    exact hnodup.map (Prod.mk_right_injective entry.1)
  · refine (pairwise_map.mp hsound.times).imp ?_
    intro left right hlt place hleft hright
    obtain ⟨filed, -, rfl⟩ := mem_map.mp hleft
    obtain ⟨filed', -, heq⟩ := mem_map.mp hright
    exact hlt.ne (Prod.mk.inj heq).1.symm

theorem Sound.map_issued :
    (info.downstreamReadOp.flatMap fun entry => entry.2.map (·.2)).map some =
      info.places.map fun place => info.lookup place.1 place.2 := by
  rw [places, map_flatMap, map_flatMap]
  refine flatMap_congr fun entry hentry => ?_
  rw [map_map, map_map]
  refine map_congr_left fun filed hfiled => ?_
  exact (hsound.lookup_of_mem hentry hfiled).symm

theorem Sound.isLowestTime {stripe : ℤ} {queue : OpQueue} (hfind : find stripe queue = some info) :
    OperationTable.IsLowestTime info.lookup
      (getLowestTemporalTimeInPartialDecodingOpQueue stripe queue) := by
  rw [getLowestTemporalTimeInPartialDecodingOpQueue, hfind]
  obtain ⟨upstream, downstream⟩ := info
  cases downstream with
  | nil => exact .inr ⟨fun _ _ => rfl, rfl⟩
  | cons first rest =>
    refine .inl ⟨?_, ?_⟩
    · obtain ⟨⟨chunkId, op⟩, hop⟩ :=
        exists_mem_of_ne_nil _ (hsound.nonempty first mem_cons_self)
      refine ⟨chunkId, ?_⟩
      rw [hsound.lookup_of_mem mem_cons_self hop]
      rfl
    · intro time chunkId hlookup
      obtain ⟨op, hlookup⟩ := isSome_iff_exists.mp hlookup
      obtain ⟨ops, hops, -⟩ := exists_of_lookup hlookup
      obtain ⟨hfirst, -⟩ := pairwise_cons.mp hsound.times
      rcases mem_cons.mp hops with heq | hrest
      · rw [← heq]
      · exact (hfirst time (mem_map.mpr ⟨_, hrest, rfl⟩)).le

/-- Filing the requests of a time. -/
theorem Sound.assign (hops : ops ≠ []) (hnodup : (KeyedList.keys ops).Nodup) :
    Sound { info with downstreamReadOp := assign time ops info.downstreamReadOp } where
  times := sorted_keys_assign hsound.times
  nonempty := by
    intro entry hentry
    rcases mem_assign hentry with rfl | hold
    · exact hops
    · exact hsound.nonempty entry hold
  chunks := by
    intro entry hentry
    rcases mem_assign hentry with rfl | hold
    · exact hnodup
    · exact hsound.chunks entry hold

theorem Sound.erase :
    Sound { info with downstreamReadOp := erase time info.downstreamReadOp } where
  times := hsound.times.sublist (keys_erase_sublist _ _)
  nonempty := fun entry hentry => hsound.nonempty entry (mem_of_mem_filter hentry)
  chunks := fun entry hentry => hsound.chunks entry (mem_of_mem_filter hentry)

end

theorem lookup_assign (info : StripeRepairRequestInfo) (time : ℤ) (ops : List (ℤ × OpPtr))
    (time' chunkId' : ℤ) :
    lookup { info with downstreamReadOp := assign time ops info.downstreamReadOp }
        time' chunkId' =
      if time' = time then find chunkId' ops else info.lookup time' chunkId' := by
  rw [lookup, find_assign]
  split_ifs
  · rfl
  · rfl

theorem lookup_erase (info : StripeRepairRequestInfo) (time time' chunkId' : ℤ) :
    lookup { info with downstreamReadOp := erase time info.downstreamReadOp }
        time' chunkId' =
      if time' = time then none else info.lookup time' chunkId' := by
  rw [lookup]
  split_ifs with htime
  · rw [htime, find_erase_self, bind_none]
  · rw [find_erase_of_ne htime, lookup]

/-- The requests of the stripe after the deletion of one of a time with the
requests `ops`. -/
def remaining (info : StripeRepairRequestInfo) (time chunkId : ℤ) (ops : List (ℤ × OpPtr)) :
    List (ℤ × List (ℤ × OpPtr)) :=
  if erase chunkId ops = [] then erase time info.downstreamReadOp
  else assign time (erase chunkId ops) info.downstreamReadOp

section Remaining

variable {ops : List (ℤ × OpPtr)}

variable (htime : find time info.downstreamReadOp = some ops)

include htime

theorem Sound.remaining (hsound : info.Sound) :
    Sound { info with downstreamReadOp := info.remaining time chunkId ops } := by
  rw [StripeRepairRequestInfo.remaining]
  split_ifs with hempty
  · exact hsound.erase
  · have hchunks := hsound.chunks _ (mem_of_find htime)
    exact hsound.assign hempty (hchunks.sublist (keys_erase_sublist _ _))

theorem lookup_remaining (time' chunkId' : ℤ) :
    lookup { info with downstreamReadOp := info.remaining time chunkId ops } time' chunkId' =
      if time' = time ∧ chunkId' = chunkId then none else info.lookup time' chunkId' := by
  have hfound : ∀ chunkId', find chunkId' (erase chunkId ops) =
      if chunkId' = chunkId then none else info.lookup time chunkId' := by
    intro chunkId'
    rw [lookup, htime]
    split_ifs with hchunk
    · rw [hchunk, find_erase_self]
    · exact find_erase_of_ne hchunk ops
  have hentry : lookup { info with downstreamReadOp := info.remaining time chunkId ops }
      time' chunkId' = if time' = time then
        find chunkId' (erase chunkId ops) else info.lookup time' chunkId' := by
    rw [StripeRepairRequestInfo.remaining]
    by_cases hempty : erase chunkId ops = []
    · rw [if_pos hempty, lookup_erase, hempty]
      rfl
    · rw [if_neg hempty, lookup_assign]
  rw [hentry, hfound]
  by_cases htime' : time' = time
  · rw [if_pos htime', htime']
    exact if_congr (by simp) rfl rfl
  · rw [if_neg htime', if_neg fun hboth => htime' hboth.1]

/-- Nothing remains only of a single request. -/
theorem Sound.eq_of_remaining (hsound : info.Sound) (hchunk : find chunkId ops = some op)
    (hremaining : info.remaining time chunkId ops = []) :
    info.downstreamReadOp = [(time, [(chunkId, op)])] := by
  rw [StripeRepairRequestInfo.remaining] at hremaining
  split_ifs at hremaining with hempty
  · have hchunks : (KeyedList.keys ops).Nodup := hsound.chunks _ (mem_of_find htime)
    rw [eq_singleton_of_erase hsound.nodup_times htime hremaining,
      eq_singleton_of_erase hchunks hchunk hempty]
  · have hfind := KeyedList.find_assign_self time (KeyedList.erase chunkId ops)
      info.downstreamReadOp
    rw [hremaining] at hfind
    exact absurd hfind (some_ne_none _).symm

end Remaining

end StripeRepairRequestInfo

/-! ## The queue and the table -/

def lookupRequest (queue : OpQueue) (stripe time chunkId : ℤ) : Option OpPtr :=
  (find stripe queue).bind fun info => info.lookup time chunkId

structure Represents (queue : OpQueue) (table : OperationTable) : Prop where
  sound : ∀ stripe info, find stripe queue = some info → info.Sound
  downstream : ∀ stripe, lookupRequest queue stripe = table.downstream stripe
  upstream : ∀ stripe, getOperationUpstream stripe queue = table.upstream stripe

variable {queue : OpQueue} {table table' : OperationTable} {stripe time chunkId : ℤ} {op : OpPtr}
variable {info : StripeRepairRequestInfo}

/-- The tables have the same entries for other stripes. -/
def OperationTable.AgreesOutside (stripe : ℤ) (table table' : OperationTable) : Prop :=
  ∀ other, other ≠ stripe → table'.downstream other = table.downstream other ∧
    table'.upstream other = table.upstream other

theorem lookupRequest_of_find (hfind : find stripe queue = some info) :
    lookupRequest queue stripe = info.lookup := by
  funext time chunkId
  rw [lookupRequest, hfind, bind_some]

theorem lookupRequest_of_none (hfind : find stripe queue = none) :
    lookupRequest queue stripe = fun _ _ => none := by
  funext time chunkId
  rw [lookupRequest, hfind, bind_none]

namespace Represents

section

variable (hrepresents : Represents queue table)

include hrepresents

theorem behavesAs : BehavesAs queue table where
  issued := by
    intro stripe
    rw [← hrepresents.downstream, getIssuedOperationsDownstream]
    cases hfind : find stripe queue with
    | none =>
      refine ⟨[], ⟨nodup_nil, fun place => ?_⟩, rfl⟩
      rw [lookupRequest_of_none hfind]
      simp
    | some info =>
      have hsound := hrepresents.sound stripe info hfind
      rw [lookupRequest_of_find hfind]
      exact ⟨info.places, ⟨hsound.nodup_places, fun place => hsound.mem_places⟩, hsound.map_issued⟩
  upstream := hrepresents.upstream
  lowest := by
    intro stripe
    rw [← hrepresents.downstream]
    cases hfind : find stripe queue with
    | none =>
      rw [lookupRequest_of_none hfind, getLowestTemporalTimeInPartialDecodingOpQueue, hfind]
      exact .inr ⟨fun _ _ => rfl, rfl⟩
    | some info =>
      rw [lookupRequest_of_find hfind]
      exact (hrepresents.sound stripe info hfind).isLowestTime hfind

section

variable (hothers : table.AgreesOutside stripe table')

include hothers

/-- The entry of one stripe is changed. -/
theorem change {changed : OpQueue} (hsound : ∀ info, find stripe changed = some info → info.Sound)
    (hdownstream : lookupRequest changed stripe = table'.downstream stripe)
    (hupstream : getOperationUpstream stripe changed = table'.upstream stripe)
    (hfind : ∀ other, other ≠ stripe → find other changed = find other queue) :
    Represents changed table' := by
  refine ⟨?_, ?_, ?_⟩
  · intro other info hother
    by_cases hne : other = stripe
    · exact hsound info (hne ▸ hother)
    · exact hrepresents.sound other info (hfind other hne ▸ hother)
  · intro other
    by_cases hne : other = stripe
    · rw [hne, hdownstream]
    · rw [(hothers other hne).1, ← hrepresents.downstream]
      funext time chunkId
      rw [lookupRequest, hfind other hne, lookupRequest]
  · intro other
    by_cases hne : other = stripe
    · rw [hne, hupstream]
    · rw [(hothers other hne).2, ← hrepresents.upstream, getOperationUpstream, hfind other hne,
        getOperationUpstream]

theorem assign (hsound : info.Sound) (hlookup : info.lookup = table'.downstream stripe)
    (hupstream : info.upstreamReadOp = table'.upstream stripe) :
    Represents (assign stripe info queue) table' := by
  have hself : KeyedList.find stripe (KeyedList.assign stripe info queue) = some info :=
    find_assign_self _ _ _
  refine hrepresents.change hothers ?_ ?_ ?_ fun other hne => find_assign_of_ne hne
  · intro _ hfind
    exact some.inj (hself.symm.trans hfind) ▸ hsound
  · rw [lookupRequest_of_find hself, hlookup]
  · rw [getOperationUpstream, hself, ← hupstream]
    rfl

theorem erase (hdownstream : table'.downstream stripe = fun _ _ => none)
    (hupstream : table'.upstream stripe = none) : Represents (erase stripe queue) table' := by
  have hself : KeyedList.find stripe (KeyedList.erase stripe queue) = none := find_erase_self _ _
  refine hrepresents.change hothers ?_ ?_ ?_ fun other hne => find_erase_of_ne hne queue
  · intro _ hfind
    cases hself.symm.trans hfind
  · rw [lookupRequest_of_none hself, hdownstream]
  · rw [getOperationUpstream, hself, hupstream]
    rfl

end

end

section Insert

variable (hrepresents : Represents queue table)

include hrepresents

theorem downstream_of_find (hfind : find stripe queue = some info) :
    table.downstream stripe = info.lookup := by
  rw [← hrepresents.downstream, lookupRequest_of_find hfind]

theorem downstream_of_none (hfind : find stripe queue = none) :
    table.downstream stripe = fun _ _ => none := by
  rw [← hrepresents.downstream, lookupRequest_of_none hfind]

theorem upstream_of_find (hfind : find stripe queue = some info) :
    table.upstream stripe = info.upstreamReadOp := by
  rw [← hrepresents.upstream, getOperationUpstream, hfind]
  rfl

theorem upstream_of_none (hfind : find stripe queue = none) :
    table.upstream stripe = none := by
  rw [← hrepresents.upstream, getOperationUpstream, hfind]
  rfl

theorem insert (hkeeps : ¬ DropsRequest stripe time chunkId queue) :
    Represents (insertIntoPartialDecodingOpQueue stripe time chunkId op queue).2
      (table.insert stripe time chunkId op) := by
  have hothers : table.AgreesOutside stripe (table.insert stripe time chunkId op) :=
    fun other hne => ⟨update_of_ne hne _ _, rfl⟩
  -- A new time gets a list of one request.
  have hlookup : ∀ filed : ℤ → ℤ → Option OpPtr, table.downstream stripe = filed →
      (∀ chunkId', filed time chunkId' = none) →
      (fun time' chunkId' => if time' = time then find chunkId' [(chunkId, op)]
        else filed time' chunkId') = (table.insert stripe time chunkId op).downstream stripe := by
    intro filed hfiled hnone
    rw [OperationTable.downstream_insert, hfiled]
    funext time' chunkId'
    by_cases htime : time' = time
    · rw [if_pos htime, htime, hnone, find_cons]
      by_cases hchunk : chunkId = chunkId'
      · rw [if_pos hchunk, if_pos ⟨rfl, hchunk.symm⟩]
        rfl
      · rw [if_neg hchunk, if_neg fun hboth => hchunk hboth.2.symm]
        rfl
    · rw [if_neg htime, if_neg fun hboth => htime hboth.1]
  rw [insertIntoPartialDecodingOpQueue]
  cases hfind : find stripe queue with
  | none =>
    have hempty : StripeRepairRequestInfo.Sound {} :=
      ⟨Pairwise.nil, fun _ h => absurd h not_mem_nil,
        fun _ h => absurd h not_mem_nil⟩
    refine hrepresents.assign hothers (hempty.assign (cons_ne_nil (chunkId, op) [])
      (nodup_singleton chunkId)) ?_ (hrepresents.upstream_of_none hfind).symm
    rw [← hlookup _ (hrepresents.downstream_of_none hfind) fun _ => rfl]
    funext time' chunkId'
    exact StripeRepairRequestInfo.lookup_assign {} time _ time' chunkId'
  | some info =>
    dsimp only
    cases htime : find time info.downstreamReadOp with
    | none =>
      refine hrepresents.assign hothers ((hrepresents.sound stripe info hfind).assign
        (cons_ne_nil (chunkId, op) []) (nodup_singleton chunkId)) ?_
        (hrepresents.upstream_of_find hfind).symm
      rw [← hlookup _ (hrepresents.downstream_of_find hfind) fun chunkId' => by
        rw [StripeRepairRequestInfo.lookup, htime, bind_none]]
      funext time' chunkId'
      exact info.lookup_assign time _ time' chunkId'
    | some ops =>
      -- The request is filed already.
      obtain ⟨old, hold⟩ : ∃ old, find chunkId ops = some old := by
        by_contra hnone
        refine hkeeps ⟨info, ops, hfind, htime, ?_⟩
        exact eq_none_iff_forall_not_mem.mpr fun old hold => hnone ⟨old, hold⟩
      have hsame : table.insert stripe time chunkId op = table := by
        rw [OperationTable.insert]
        have hupdate : (fun time' chunkId' => if time' = time ∧ chunkId' = chunkId then
            (table.downstream stripe time' chunkId').or (some op)
            else table.downstream stripe time' chunkId') = table.downstream stripe := by
          funext time' chunkId'
          split_ifs with hplace
          · rw [hplace.1, hplace.2, hrepresents.downstream_of_find hfind,
              StripeRepairRequestInfo.lookup, htime, bind_some, hold]
            rfl
          · rfl
        rw [hupdate, update_eq_self]
      rw [hsame]
      exact hrepresents

theorem insertUpstream :
    Represents (insertUpstreamReaderIntoPartialDecodingOpQueue stripe op queue).2
      (table.insertUpstream stripe op) := by
  have hothers : table.AgreesOutside stripe (table.insertUpstream stripe op) :=
    fun other hne => ⟨rfl, update_of_ne hne _ _⟩
  have hupstream : some op = (table.insertUpstream stripe op).upstream stripe :=
    (update_self stripe _ table.upstream).symm
  rw [insertUpstreamReaderIntoPartialDecodingOpQueue]
  cases hfind : find stripe queue with
  | none =>
    refine hrepresents.assign hothers ⟨Pairwise.nil, fun _ h => absurd h not_mem_nil,
      fun _ h => absurd h not_mem_nil⟩ ?_ hupstream
    exact (hrepresents.downstream_of_none hfind).symm
  | some info =>
    have hsound := hrepresents.sound stripe info hfind
    refine hrepresents.assign hothers ⟨hsound.times, hsound.nonempty, hsound.chunks⟩ ?_ hupstream
    exact (hrepresents.downstream_of_find hfind).symm

theorem deleteStripe :
    Represents (deleteStripeFromPartialDecodingOpQueue stripe queue).2
      (table.deleteStripe stripe) := by
  rw [deleteStripeFromPartialDecodingOpQueue]
  cases hfind : find stripe queue with
  | none =>
    have hsame : table.deleteStripe stripe = table := by
      rw [OperationTable.deleteStripe, ← hrepresents.downstream_of_none hfind,
        ← hrepresents.upstream_of_none hfind, update_eq_self, update_eq_self]
    rw [hsame]
    exact hrepresents
  | some info =>
    exact hrepresents.erase (fun other hne => ⟨update_of_ne hne _ _, update_of_ne hne _ _⟩)
      (update_self _ _ _) (update_self _ _ _)

theorem delete (hkeeps : ¬ DropsReader stripe time chunkId queue) :
    Represents (deleteFromPartialDecodingOpQueue stripe time chunkId queue).2
      (table.delete stripe time chunkId) := by
  have hothers : table.AgreesOutside stripe (table.delete stripe time chunkId) :=
    fun other hne => ⟨update_of_ne hne _ _, rfl⟩
  -- The deletion of a request that is not filed changes nothing.
  have hmissing : lookupRequest queue stripe time chunkId = none →
      Represents queue (table.delete stripe time chunkId) := by
    intro hnone
    have hsame : table.delete stripe time chunkId = table := by
      have hupdate : (fun time' chunkId' => if time' = time ∧ chunkId' = chunkId then none
          else table.downstream stripe time' chunkId') = table.downstream stripe := by
        funext time' chunkId'
        split_ifs with hplace
        · rw [hplace.1, hplace.2, ← hrepresents.downstream, hnone]
        · rfl
      rw [OperationTable.delete, hupdate, update_eq_self]
    rw [hsame]
    exact hrepresents
  rw [deleteFromPartialDecodingOpQueue]
  cases hfind : find stripe queue with
  | none => exact hmissing (by rw [lookupRequest_of_none hfind])
  | some info =>
    have hlookup := lookupRequest_of_find hfind
    dsimp only
    cases htime : find time info.downstreamReadOp with
    | none =>
      exact hmissing (by rw [hlookup, StripeRepairRequestInfo.lookup, htime, bind_none])
    | some ops =>
      dsimp only
      cases hchunk : find chunkId ops with
      | none =>
        exact hmissing (by
          rw [hlookup, StripeRepairRequestInfo.lookup, htime, bind_some, hchunk])
      | some op =>
        have hsound := hrepresents.sound stripe info hfind
        have htable : StripeRepairRequestInfo.lookup
            { info with downstreamReadOp := info.remaining time chunkId ops } =
            (table.delete stripe time chunkId).downstream stripe := by
          rw [OperationTable.downstream_delete, hrepresents.downstream_of_find hfind]
          funext time' chunkId'
          exact StripeRepairRequestInfo.lookup_remaining htime time' chunkId'
        change Represents (if info.remaining time chunkId ops = [] then
          (0, KeyedList.erase stripe queue) else
          (0, KeyedList.assign stripe
            { info with downstreamReadOp := info.remaining time chunkId ops } queue)).2 _
        split_ifs with hempty
        · have hsingle := hsound.eq_of_remaining htime hchunk hempty
          refine hrepresents.erase hothers ?_ ?_
          · rw [← htable, hempty]
            rfl
          · change table.upstream stripe = none
            rw [hrepresents.upstream_of_find hfind]
            by_contra hreader
            exact hkeeps ⟨info, op, hfind, isSome_iff_ne_none.mpr hreader, hsingle⟩
        · exact hrepresents.assign hothers (hsound.remaining htime) htable
            (hrepresents.upstream_of_find hfind).symm

end Insert

/-! ## Calls that lose an entry -/

theorem insert_of_dropsRequest (hdrops : DropsRequest stripe time chunkId queue) :
    (insertIntoPartialDecodingOpQueue stripe time chunkId op queue).2 = queue := by
  obtain ⟨info, ops, hfind, htime, -⟩ := hdrops
  rw [insertIntoPartialDecodingOpQueue, hfind]
  dsimp only
  rw [htime]

theorem delete_of_dropsReader (hdrops : DropsReader stripe time chunkId queue) :
    (deleteFromPartialDecodingOpQueue stripe time chunkId queue).2 =
      KeyedList.erase stripe queue := by
  obtain ⟨info, op, hfind, -, hsingle⟩ := hdrops
  rw [deleteFromPartialDecodingOpQueue, hfind]
  dsimp only
  rw [hsingle]
  simp [KeyedList.find, KeyedList.erase]

/-- A request that is not filed leaves fewer requests than the table has. -/
theorem not_behavesAs_of_dropsRequest (hrepresents : Represents queue table)
    (hdrops : DropsRequest stripe time chunkId queue) :
    ¬ BehavesAs (insertIntoPartialDecodingOpQueue stripe time chunkId op queue).2
      (table.insert stripe time chunkId op) := by
  rw [insert_of_dropsRequest hdrops]
  obtain ⟨info, ops, hfind, htime, hchunk⟩ := hdrops
  intro hbehaves
  obtain ⟨places, ⟨hnodup, hplaces⟩, hissued⟩ := hrepresents.behavesAs.issued stripe
  obtain ⟨places', ⟨hnodup', hplaces'⟩, hissued'⟩ := hbehaves.issued stripe
  have hempty : table.downstream stripe time chunkId = none := by
    rw [hrepresents.downstream_of_find hfind, StripeRepairRequestInfo.lookup, htime,
      bind_some, hchunk]
  have hnew : (time, chunkId) ∉ places := by
    rw [hplaces, hempty]
    exact Bool.false_ne_true
  have hperm : places'.Perm ((time, chunkId) :: places) := by
    refine (perm_ext_iff_of_nodup hnodup' (nodup_cons.mpr ⟨hnew, hnodup⟩)).mpr ?_
    intro place
    rw [hplaces', mem_cons, hplaces, OperationTable.downstream_insert]
    by_cases hplace : place = (time, chunkId)
    · simp [hplace, hempty]
    · have hother : ¬ (place.1 = time ∧ place.2 = chunkId) :=
        fun hboth => hplace (Prod.ext hboth.1 hboth.2)
      simp [hplace, hother]
  have hlength := congrArg length hissued
  have hlength' := congrArg length hissued'
  have hcount := hperm.length_eq
  simp only [length_map, length_cons] at hlength hlength' hcount
  omega

theorem not_behavesAs_of_dropsReader (hrepresents : Represents queue table)
    (hdrops : DropsReader stripe time chunkId queue) :
    ¬ BehavesAs (deleteFromPartialDecodingOpQueue stripe time chunkId queue).2
      (table.delete stripe time chunkId) := by
  rw [delete_of_dropsReader hdrops]
  obtain ⟨info, op, hfind, hreader, -⟩ := hdrops
  intro hbehaves
  have hupstream := hbehaves.upstream stripe
  rw [getOperationUpstream, find_erase_self] at hupstream
  change none = table.upstream stripe at hupstream
  rw [hrepresents.upstream_of_find hfind] at hupstream
  rw [← hupstream] at hreader
  exact Bool.false_ne_true hreader

end Represents

theorem represents_nil : Represents [] {} where
  sound := fun _ _ hfind => absurd hfind (some_ne_none _).symm
  downstream := fun _ => rfl
  upstream := fun _ => rfl

theorem guarded_queue :
    Guarded performQueueCall OperationTable.perform BehavesAs KeepsTable
      (fun queue table _ => Represents queue table) where
  behaves := fun _ _ _ hrepresents => hrepresents.behavesAs
  keeps := by
    intro queue table call calls hrepresents hkeeps
    cases call with
    | insert stripe time chunkId op => exact hrepresents.insert hkeeps
    | insertUpstream stripe op => exact hrepresents.insertUpstream
    | delete stripe time chunkId => exact hrepresents.delete hkeeps
    | deleteStripe stripe => exact hrepresents.deleteStripe
  needed := by
    intro queue table call calls hrepresents hbehaves
    cases call with
    | insert stripe time chunkId op =>
      exact fun hdrops => hrepresents.not_behavesAs_of_dropsRequest hdrops hbehaves
    | insertUpstream stripe op => trivial
    | delete stripe time chunkId =>
      exact fun hdrops => hrepresents.not_behavesAs_of_dropsReader hdrops hbehaves
    | deleteStripe stripe => trivial

/-- The queue behaves as the table in every state of a run exactly when no call
files a second chunk under a time and none deletes the last request of a stripe
with a reader. -/
theorem queue_behavesAs_iff (calls : List QueueCall) :
    (∀ front, front <+: calls →
      BehavesAs (front.foldl performQueueCall []) (front.foldl OperationTable.perform {})) ↔
    ∀ front call, front ++ [call] <+: calls →
      KeepsTable (front.foldl performQueueCall []) call :=
  guarded_queue.behaves_iff represents_nil

/-- Two chunks of one stripe and time: the second request is not found.  And a
reader is lost with the last request of its stripe. -/
theorem not_behavesAs_second_chunk :
    ¬ BehavesAs ([QueueCall.insert 7 1 5 0, .insert 7 1 6 1].foldl performQueueCall [])
      ([QueueCall.insert 7 1 5 0, .insert 7 1 6 1].foldl OperationTable.perform {}) ∧
    getOperationUpstream 7
        ([QueueCall.insertUpstream 7 2, .insert 7 1 5 0, .delete 7 1 5].foldl
          performQueueCall []) = none ∧
    ([QueueCall.insertUpstream 7 2, .insert 7 1 5 0, .delete 7 1 5].foldl
      OperationTable.perform {}).upstream 7 = some 2 := by
  refine ⟨?_, by decide, by decide⟩
  intro hbehaves
  obtain ⟨places, ⟨-, hplaces⟩, hissued⟩ := hbehaves.issued 7
  have hfirst : (1, 5) ∈ places := (hplaces (1, 5)).mpr (by decide)
  have hsecond : (1, 6) ∈ places := (hplaces (1, 6)).mpr (by decide)
  have hlength := congrArg length hissued
  have hone : (getIssuedOperationsDownstream 7
      ([QueueCall.insert 7 1 5 0, .insert 7 1 6 1].foldl performQueueCall [])).length = 1 := by
    decide
  rw [length_map, length_map] at hlength
  obtain ⟨place, rfl⟩ := length_eq_one_iff.mp hlength.symm
  have heq := (mem_singleton.mp hfirst).trans (mem_singleton.mp hsecond).symm
  exact absurd heq (by decide)

end QfsRepair.Repair.Destination
