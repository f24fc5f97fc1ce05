import QfsRepair.Machine.GuardedRuns
import QfsRepair.Store.KeyedList

/-!
# The cache of recently read chunks

`ChunkLRUCache` keeps chunk buffers by the time of their last use.  A hit files
the entry under the present time, and an addition to a full cache drops the
entry with the lowest time.  An addition does not look whether the chunk is
cached already, and the oldest of several entries of a chunk is found first.
-/

namespace QfsRepair.ChunkServer

open Store Machine List KeyedList
open Option hiding any_eq_true map_map or_assoc

variable {Buffer : Type*}

/-! ## The cache -/

structure ChunkCacheEntry (Buffer : Type*) where
  chunkId : ℤ
  chunkCachedBuffer : Buffer

structure ChunkLRUCache (Buffer : Type*) where
  cacheEntryLimit : ℕ
  doNotUseCache : Bool := false
  /-- By the time of the last use. -/
  chunkInMemoryCache : List (ℤ × ChunkCacheEntry Buffer) := []
  chunksAccessedSinceLastHB : List (ℤ × ℤ) := []
  chunksDeletedSinceLastHB : List (ℤ × Bool) := []

namespace ChunkLRUCache

variable (cache : ChunkLRUCache Buffer)

/-- The loops over the map: the first entry of a chunk. -/
def findEntry (chunkId : ℤ) : Option (ℤ × ChunkCacheEntry Buffer) :=
  cache.chunkInMemoryCache.find? fun entry => decide (entry.2.chunkId = chunkId)

def isChunkInCache (chunkId : ℤ) : Bool :=
  if cache.doNotUseCache then false else (cache.findEntry chunkId).isSome

/-- The buffer of a hit, and the cache with the entry under the present time. -/
def readChunkFromCache (chunkId now : ℤ) : Option Buffer × ChunkLRUCache Buffer :=
  if cache.doNotUseCache then (none, cache)
  else
    match cache.findEntry chunkId with
    | none => (none, cache)
    | some entry =>
      (some entry.2.chunkCachedBuffer,
        { cache with
          chunkInMemoryCache :=
            assign now entry.2 (erase entry.1 cache.chunkInMemoryCache)
          chunksAccessedSinceLastHB :=
            assign chunkId now cache.chunksAccessedSinceLastHB })

/-- The entries that an addition keeps; a full cache loses its first entry.  The
first entry of an empty map must not be erased. -/
def makeRoom : Option (List (ℤ × ChunkCacheEntry Buffer)) :=
  if cache.cacheEntryLimit ≤ cache.chunkInMemoryCache.length then
    match cache.chunkInMemoryCache with
    | [] => none
    | _ :: rest => some rest
  else some cache.chunkInMemoryCache

/-- A full cache records the added chunk, not the dropped one, as deleted. -/
def addChunkToCache (chunkId : ℤ) (chunkBuff : Option Buffer) (buffSize : ℕ) (now : ℤ) :
    Option (Bool × ChunkLRUCache Buffer) :=
  if cache.doNotUseCache then some (false, cache)
  else
    match chunkBuff with
    | none => some (false, cache)
    | some chunkBuff =>
      if buffSize = 0 ∨ chunkId = -1 then some (false, cache)
      else cache.makeRoom.map fun kept =>
        (true,
          { cache with
            chunkInMemoryCache := assign now ⟨chunkId, chunkBuff⟩ kept
            chunksAccessedSinceLastHB :=
              assign chunkId now cache.chunksAccessedSinceLastHB
            chunksDeletedSinceLastHB :=
              if cache.cacheEntryLimit ≤ cache.chunkInMemoryCache.length then
                assign chunkId true cache.chunksDeletedSinceLastHB
              else cache.chunksDeletedSinceLastHB })

end ChunkLRUCache

/-! ## Calls -/

inductive CacheCall (Buffer : Type*) where
  | isChunkInCache (chunkId : ℤ)
  | readChunkFromCache (chunkId now : ℤ)
  | addChunkToCache (chunkId : ℤ) (chunkBuff : Option Buffer) (buffSize : ℕ) (now : ℤ)

/-- The cache after a call; there is none after an invalid erasure. -/
def cacheStep (cache : Option (ChunkLRUCache Buffer)) :
    CacheCall Buffer → Option (ChunkLRUCache Buffer)
  | .isChunkInCache _ => cache
  | .readChunkFromCache chunkId now => cache.map fun cache =>
    (cache.readChunkFromCache chunkId now).2
  | .addChunkToCache chunkId chunkBuff buffSize now => cache.bind fun cache =>
    (cache.addChunkToCache chunkId chunkBuff buffSize now).map (·.2)

/-- The clock values of a sequence of calls. -/
def clockValues : List (CacheCall Buffer) → List ℤ
  | [] => []
  | .isChunkInCache _ :: calls => clockValues calls
  | .readChunkFromCache _ now :: calls => now :: clockValues calls
  | .addChunkToCache _ _ _ now :: calls => now :: clockValues calls

/-! ## Last use -/

/-- A cached chunk with the buffer added last and the time of its last addition
or hit. -/
structure CachedChunk (Buffer : Type*) where
  chunkId : ℤ
  buffer : Buffer
  lastUse : ℤ

/-- Chunks that have an older one are kept. -/
def evictOldest (cached : List (CachedChunk Buffer)) : List (CachedChunk Buffer) :=
  cached.filter fun chunk => cached.any fun other => decide (other.lastUse < chunk.lastUse)

/-- What the calls mean: one entry for each chunk, and the chunk with the oldest
use makes room. -/
def lruStep (limit : ℕ) (disabled : Bool) (cached : List (CachedChunk Buffer)) :
    CacheCall Buffer → List (CachedChunk Buffer)
  | .isChunkInCache _ => cached
  | .readChunkFromCache chunkId now => cached.map fun chunk =>
    if chunk.chunkId = chunkId then { chunk with lastUse := now } else chunk
  | .addChunkToCache chunkId chunkBuff buffSize now =>
    match chunkBuff with
    | none => cached
    | some buffer =>
      if disabled = true ∨ buffSize = 0 ∨ chunkId = -1 then cached
      else ⟨chunkId, buffer, now⟩ ::
        (if limit ≤ cached.length then evictOldest cached else cached).filter
          fun chunk => decide (chunk.chunkId ≠ chunkId)

/-- The cache keeps its limit, has one entry for a chunk, and answers as the
cached chunks say. -/
structure Disciplined (cache : ChunkLRUCache Buffer) (cached : List (CachedChunk Buffer)) :
    Prop where
  limit : cache.chunkInMemoryCache.length ≤ cache.cacheEntryLimit
  unique : (cache.chunkInMemoryCache.map fun entry => entry.2.chunkId).Nodup
  isChunkInCache : ∀ chunkId, cache.isChunkInCache chunkId = true ↔
    ∃ chunk ∈ cached, chunk.chunkId = chunkId
  readChunkFromCache : ∀ chunkId now, (cache.readChunkFromCache chunkId now).1 =
    (cached.find? fun chunk => decide (chunk.chunkId = chunkId)).map CachedChunk.buffer

/-- The cache can hold an entry, and the added chunk is not among the entries it
keeps. -/
def AddsNew (cache : ChunkLRUCache Buffer) : CacheCall Buffer → Prop
  | .isChunkInCache _ => True
  | .readChunkFromCache _ _ => True
  | .addChunkToCache chunkId chunkBuff buffSize _ =>
    cache.doNotUseCache = true ∨ chunkBuff = none ∨ buffSize = 0 ∨ chunkId = -1 ∨
      ∃ kept, cache.makeRoom = some kept ∧ ∀ entry ∈ kept, entry.2.chunkId ≠ chunkId

/-! ## The cache and the cached chunks -/

def toCached (entry : ℤ × ChunkCacheEntry Buffer) : CachedChunk Buffer :=
  ⟨entry.2.chunkId, entry.2.chunkCachedBuffer, entry.1⟩

/-- The entries are the cached chunks in the order of their last use, and the
clock values to come are later than all uses. -/
structure Caches (cache : ChunkLRUCache Buffer) (cached : List (CachedChunk Buffer))
    (calls : List (CacheCall Buffer)) : Prop where
  disabled : cache.doNotUseCache = true → cache.chunkInMemoryCache = []
  perm : (cache.chunkInMemoryCache.map toCached).Perm cached
  sorted : (KeyedList.keys cache.chunkInMemoryCache).Pairwise (· < ·)
  limit : cache.chunkInMemoryCache.length ≤ cache.cacheEntryLimit
  unique : (cache.chunkInMemoryCache.map fun entry => entry.2.chunkId).Nodup
  past : ∀ time ∈ KeyedList.keys cache.chunkInMemoryCache, ∀ now ∈ clockValues calls, time < now
  clock : (clockValues calls).Pairwise (· < ·)

section Sorted

variable {first : ℤ × ChunkCacheEntry Buffer} {rest : List (ℤ × ChunkCacheEntry Buffer)}

/-- The first entry has the oldest use. -/
theorem evictOldest_map_toCached (hsorted : (KeyedList.keys (first :: rest)).Pairwise (· < ·)) :
    evictOldest ((first :: rest).map toCached) = rest.map toCached := by
  obtain ⟨hfirst, hrest⟩ := pairwise_cons.mp hsorted
  have holder : ∀ entry ∈ rest, first.1 < entry.1 :=
    fun entry hentry => hfirst entry.1 (mem_map.mpr ⟨entry, hentry, rfl⟩)
  rw [evictOldest, map_cons, filter_cons_of_neg]
  · refine filter_eq_self.mpr fun chunk hchunk => ?_
    obtain ⟨entry, hentry, rfl⟩ := mem_map.mp hchunk
    rw [any_cons, Bool.or_eq_true]
    exact .inl (decide_eq_true (holder entry hentry))
  · rw [any_eq_true]
    rintro ⟨chunk, hchunk, hlt⟩
    have hlt' : chunk.lastUse < first.1 := of_decide_eq_true hlt
    rcases mem_cons.mp hchunk with rfl | hmem
    · exact absurd hlt' (lt_irrefl _)
    · obtain ⟨entry, hentry, rfl⟩ := mem_map.mp hmem
      exact absurd hlt' (not_lt_of_gt (holder entry hentry))

theorem evictOldest_perm {left right : List (CachedChunk Buffer)} (hperm : left.Perm right) :
    (evictOldest left).Perm (evictOldest right) := by
  rw [evictOldest]
  have hany : (fun chunk : CachedChunk Buffer =>
      left.any fun other => decide (other.lastUse < chunk.lastUse)) =
      fun chunk => right.any fun other => decide (other.lastUse < chunk.lastUse) := by
    funext chunk
    exact hperm.any_eq
  rw [hany]
  exact hperm.filter _

end Sorted

variable {cache : ChunkLRUCache Buffer} {cached : List (CachedChunk Buffer)}
variable {calls : List (CacheCall Buffer)} {chunkId now : ℤ}

namespace ChunkLRUCache

theorem mem_of_findEntry {entry : ℤ × ChunkCacheEntry Buffer}
    (hfind : cache.findEntry chunkId = some entry) :
    entry ∈ cache.chunkInMemoryCache ∧ entry.2.chunkId = chunkId :=
  ⟨mem_of_find?_eq_some hfind, by simpa using find?_some hfind⟩

theorem findEntry_eq_none_iff :
    cache.findEntry chunkId = none ↔
      ∀ entry ∈ cache.chunkInMemoryCache, entry.2.chunkId ≠ chunkId := by
  rw [findEntry]
  simp

variable {kept : List (ℤ × ChunkCacheEntry Buffer)}

theorem makeRoom_cases (hkept : cache.makeRoom = some kept) :
    (cache.cacheEntryLimit ≤ cache.chunkInMemoryCache.length ∧
        ∃ first, cache.chunkInMemoryCache = first :: kept) ∨
      cache.chunkInMemoryCache.length < cache.cacheEntryLimit ∧
        cache.chunkInMemoryCache = kept := by
  rw [makeRoom] at hkept
  split_ifs at hkept with hfull
  · cases hentries : cache.chunkInMemoryCache with
    | nil => simp [hentries] at hkept
    | cons first rest =>
      rw [hentries] at hkept hfull
      exact .inl ⟨hfull, first, congrArg _ (some.inj hkept)⟩
  · exact .inr ⟨not_le.mp hfull, some.inj hkept⟩

theorem makeRoom_sublist (hkept : cache.makeRoom = some kept) :
    kept.Sublist cache.chunkInMemoryCache := by
  rcases makeRoom_cases hkept with ⟨-, first, hentries⟩ | ⟨-, hentries⟩
  · exact hentries ▸ sublist_cons_self _ _
  · exact hentries ▸ Sublist.refl _

end ChunkLRUCache

namespace Caches

section Answers

variable (hcaches : Caches cache cached calls)

include hcaches

theorem mem_cached_iff :
    (∃ chunk ∈ cached, chunk.chunkId = chunkId) ↔
      ∃ entry ∈ cache.chunkInMemoryCache, entry.2.chunkId = chunkId := by
  constructor
  · rintro ⟨chunk, hchunk, rfl⟩
    obtain ⟨entry, hentry, rfl⟩ := mem_map.mp (hcaches.perm.mem_iff.mpr hchunk)
    exact ⟨entry, hentry, rfl⟩
  · rintro ⟨entry, hentry, rfl⟩
    exact ⟨toCached entry, hcaches.perm.mem_iff.mp (mem_map.mpr ⟨entry, hentry, rfl⟩), rfl⟩

theorem eq_of_chunkId {left right : ℤ × ChunkCacheEntry Buffer}
    (hleft : left ∈ cache.chunkInMemoryCache) (hright : right ∈ cache.chunkInMemoryCache)
    (heq : left.2.chunkId = right.2.chunkId) : left = right :=
  inj_on_of_nodup_map hcaches.unique hleft hright heq

theorem find_cached :
    (cached.find? fun chunk => decide (chunk.chunkId = chunkId)) =
      (cache.findEntry chunkId).map toCached := by
  cases hfind : cache.findEntry chunkId with
  | none =>
    rw [map_none, find?_eq_none]
    intro chunk hchunk
    obtain ⟨entry, hentry, rfl⟩ := mem_map.mp (hcaches.perm.mem_iff.mpr hchunk)
    have hother := ChunkLRUCache.findEntry_eq_none_iff.mp hfind entry hentry
    exact fun hsame => hother (of_decide_eq_true hsame)
  | some entry =>
    obtain ⟨hentry, hchunkId⟩ := ChunkLRUCache.mem_of_findEntry hfind
    have hmem : toCached entry ∈ cached :=
      hcaches.perm.mem_iff.mp (mem_map.mpr ⟨entry, hentry, rfl⟩)
    have hsome : (cached.find? fun chunk => decide (chunk.chunkId = chunkId)).isSome = true :=
      find?_isSome.mpr ⟨toCached entry, hmem, decide_eq_true hchunkId⟩
    obtain ⟨found, hfound⟩ := isSome_iff_exists.mp hsome
    obtain ⟨other, hother, rfl⟩ := mem_map.mp
      (hcaches.perm.mem_iff.mpr (mem_of_find?_eq_some hfound))
    have hfoundId := find?_some hfound
    have hotherId : other.2.chunkId = chunkId := of_decide_eq_true hfoundId
    rw [hfound, map_some, hcaches.eq_of_chunkId hother hentry (hotherId.trans hchunkId.symm)]

theorem disciplined : Disciplined cache cached where
  limit := hcaches.limit
  unique := hcaches.unique
  isChunkInCache := by
    intro chunkId
    rw [hcaches.mem_cached_iff, ChunkLRUCache.isChunkInCache]
    by_cases hdisabled : cache.doNotUseCache = true
    · rw [if_pos hdisabled, hcaches.disabled hdisabled]
      simp
    · rw [if_neg hdisabled, ChunkLRUCache.findEntry]
      simp
  readChunkFromCache := by
    intro chunkId now
    rw [hcaches.find_cached, ChunkLRUCache.readChunkFromCache]
    by_cases hdisabled : cache.doNotUseCache = true
    · rw [if_pos hdisabled, ChunkLRUCache.findEntry, hcaches.disabled hdisabled]
      rfl
    · rw [if_neg hdisabled]
      cases cache.findEntry chunkId <;> rfl

end Answers

theorem skip {call : CacheCall Buffer} (hcaches : Caches cache cached (call :: calls)) :
    Caches cache cached calls := by
  have hsub : (clockValues calls).Sublist (clockValues (call :: calls)) := by
    cases call with
    | isChunkInCache _ => exact Sublist.refl _
    | _ => exact sublist_cons_self _ _
  exact ⟨hcaches.disabled, hcaches.perm, hcaches.sorted, hcaches.limit, hcaches.unique,
    fun time htime later hlater => hcaches.past time htime later (hsub.subset hlater),
    hcaches.clock.sublist hsub⟩

variable {kept : List (ℤ × ChunkCacheEntry Buffer)}

/-- An entry of a chunk that is not kept is filed under the present time. -/
theorem fileEntry {call : CacheCall Buffer} {chunks : List (CachedChunk Buffer)}
    (hcaches : Caches cache cached (call :: calls))
    (hcall : clockValues (call :: calls) = now :: clockValues calls)
    (hdisabled : ¬ cache.doNotUseCache = true) (hsub : kept.Sublist cache.chunkInMemoryCache)
    (hlength : kept.length < cache.cacheEntryLimit) {entry : ChunkCacheEntry Buffer}
    (hnew : ∀ other ∈ kept, other.2.chunkId ≠ entry.chunkId)
    (hperm : (toCached (now, entry) :: kept.map toCached).Perm chunks)
    (accessed : List (ℤ × ℤ)) (deleted : List (ℤ × Bool)) :
    Caches
      { cache with
        chunkInMemoryCache := assign now entry kept
        chunksAccessedSinceLastHB := accessed
        chunksDeletedSinceLastHB := deleted } chunks calls := by
  obtain ⟨-, -, hsorted, -, hunique, hpast, hclock⟩ := hcaches
  rw [hcall] at hpast hclock
  have hpast' : ∀ time ∈ KeyedList.keys kept, ∀ later ∈ now :: clockValues calls, time < later :=
    fun time htime => hpast time ((hsub.map _).subset htime)
  have hassign := @assign_perm _ _ _ _ _ now entry _ fun hmem =>
    lt_irrefl now (hpast' now hmem now mem_cons_self)
  refine ⟨fun h => absurd h hdisabled, (hassign.map toCached).trans hperm,
    sorted_keys_assign (hsorted.sublist (hsub.map _)), ?_, ?_, ?_, (pairwise_cons.mp hclock).2⟩
  · rw [hassign.length_eq]
    exact hlength
  · refine (hassign.map _).nodup_iff.mpr (nodup_cons.mpr ⟨?_, hunique.sublist (hsub.map _)⟩)
    intro hmem
    obtain ⟨other, hother, hsame⟩ := mem_map.mp hmem
    exact hnew other hother hsame
  · intro time htime later hlater
    rcases mem_keys_assign.mp htime with rfl | hold
    · exact (pairwise_cons.mp hclock).1 later hlater
    · exact hpast' time hold later (mem_cons_of_mem _ hlater)

/-- A hit moves its entry to the present time. -/
theorem readChunkFromCache
    (hcaches : Caches cache cached (.readChunkFromCache chunkId now :: calls)) :
    Caches (cache.readChunkFromCache chunkId now).2
      (cached.map fun chunk =>
        if chunk.chunkId = chunkId then { chunk with lastUse := now } else chunk) calls := by
  have hnodup : (KeyedList.keys cache.chunkInMemoryCache).Nodup :=
    hcaches.sorted.imp fun hlt => ne_of_lt hlt
  have hrest : (∀ entry ∈ cache.chunkInMemoryCache, entry.2.chunkId ≠ chunkId) →
      Caches cache (cached.map fun chunk =>
        if chunk.chunkId = chunkId then { chunk with lastUse := now } else chunk) calls := by
    intro hmissing
    have hsame : (cached.map fun chunk =>
        if chunk.chunkId = chunkId then { chunk with lastUse := now } else chunk) = cached := by
      refine (map_congr_left fun chunk hchunk => ?_).trans (map_id cached)
      obtain ⟨entry, hentry, rfl⟩ := mem_map.mp (hcaches.perm.mem_iff.mpr hchunk)
      exact if_neg (hmissing entry hentry)
    rw [hsame]
    exact hcaches.skip
  rw [ChunkLRUCache.readChunkFromCache]
  by_cases hdisabled : cache.doNotUseCache = true
  · rw [if_pos hdisabled]
    exact hrest (by simp [hcaches.disabled hdisabled])
  · rw [if_neg hdisabled]
    cases hfind : cache.findEntry chunkId with
    | none => exact hrest (ChunkLRUCache.findEntry_eq_none_iff.mp hfind)
    | some entry =>
      obtain ⟨hentry, hchunkId⟩ := ChunkLRUCache.mem_of_findEntry hfind
      have hsplit := perm_cons_erase hnodup hentry
      have hlength := hsplit.length_eq
      have hothers : ∀ other ∈ erase entry.1 cache.chunkInMemoryCache,
          other.2.chunkId ≠ chunkId := by
        intro other hother hsame
        obtain ⟨hmem, hne⟩ := mem_filter.mp hother
        have heq := hcaches.eq_of_chunkId hmem hentry (hsame.trans hchunkId.symm)
        exact of_decide_eq_true hne (congrArg Prod.fst heq)
      refine hcaches.fileEntry rfl hdisabled filter_sublist ?_ (hchunkId ▸ hothers) ?_ _ _
      · exact hlength.symm.trans_le hcaches.limit
      · refine .trans ?_ ((hsplit.symm.map toCached).trans hcaches.perm |>.map _)
        rw [map_cons, map_cons, map_map]
        refine .of_eq (congrArg₂ _ (if_pos hchunkId).symm (map_congr_left fun other hother => ?_))
        exact (if_neg (hothers other hother)).symm

/-- What an addition keeps is what the eviction of the oldest chunk leaves. -/
theorem makeRoom (hcaches : Caches cache cached calls) (hkept : cache.makeRoom = some kept) :
    kept.length < cache.cacheEntryLimit ∧ (kept.map toCached).Perm
      (if cache.cacheEntryLimit ≤ cached.length then evictOldest cached else cached) := by
  have hlength : cached.length = cache.chunkInMemoryCache.length := by
    rw [← hcaches.perm.length_eq, length_map]
  obtain ⟨-, hperm, hsorted, hlimit, -⟩ := hcaches
  rw [hlength]
  rcases ChunkLRUCache.makeRoom_cases hkept with ⟨hfull, first, hentries⟩ | ⟨hfree, rfl⟩
  · rw [if_pos hfull]
    rw [hentries] at hlimit hsorted hperm
    refine ⟨hlimit, ?_⟩
    rw [← evictOldest_map_toCached hsorted]
    exact evictOldest_perm hperm
  · rw [if_neg (not_le.mpr hfree)]
    exact ⟨hfree, hperm⟩

/-- An addition of a chunk that is not kept. -/
theorem addChunkToCache {buffer : Buffer} {buffSize : ℕ}
    (hcaches : Caches cache cached (.addChunkToCache chunkId (some buffer) buffSize now :: calls))
    (hdisabled : ¬ cache.doNotUseCache = true) (hkept : cache.makeRoom = some kept)
    (hnew : ∀ entry ∈ kept, entry.2.chunkId ≠ chunkId) (accessed : List (ℤ × ℤ))
    (deleted : List (ℤ × Bool)) :
    Caches
      { cache with
        chunkInMemoryCache := assign now ⟨chunkId, buffer⟩ kept
        chunksAccessedSinceLastHB := accessed
        chunksDeletedSinceLastHB := deleted }
      (⟨chunkId, buffer, now⟩ ::
        (if cache.cacheEntryLimit ≤ cached.length then evictOldest cached else cached).filter
          fun chunk => decide (chunk.chunkId ≠ chunkId)) calls := by
  obtain ⟨hlength, hperm⟩ := hcaches.makeRoom hkept
  refine hcaches.fileEntry rfl hdisabled (ChunkLRUCache.makeRoom_sublist hkept) hlength hnew
    (.cons _ (hperm.trans ?_)) accessed deleted
  rw [filter_eq_self.mpr]
  intro chunk hchunk
  obtain ⟨entry, hentry, rfl⟩ := mem_map.mp (hperm.mem_iff.mpr hchunk)
  exact decide_eq_true (hnew entry hentry)

end Caches

/-- Additions that change nothing. -/
theorem addChunkToCache_eq_self {chunkBuff : Option Buffer} {buffSize : ℕ}
    (hidle : cache.doNotUseCache = true ∨ chunkBuff = none ∨ buffSize = 0 ∨ chunkId = -1) :
    cache.addChunkToCache chunkId chunkBuff buffSize now = some (false, cache) ∧
      lruStep cache.cacheEntryLimit cache.doNotUseCache cached
        (.addChunkToCache chunkId chunkBuff buffSize now) = cached := by
  cases chunkBuff with
  | none => simp [ChunkLRUCache.addChunkToCache, lruStep]
  | some buffer =>
    by_cases hdisabled : cache.doNotUseCache = true
    · simp [ChunkLRUCache.addChunkToCache, lruStep, hdisabled]
    · have hinvalid : buffSize = 0 ∨ chunkId = -1 := by
        simpa [hdisabled] using hidle
      simp [ChunkLRUCache.addChunkToCache, lruStep, hdisabled, hinvalid]

/-- Additions with an effect. -/
theorem addChunkToCache_eq {buffer : Buffer} {buffSize : ℕ}
    (hdisabled : ¬ cache.doNotUseCache = true) (hvalid : ¬ (buffSize = 0 ∨ chunkId = -1)) :
    cache.addChunkToCache chunkId (some buffer) buffSize now = (cache.makeRoom.map fun kept =>
      (true,
        { cache with
          chunkInMemoryCache := assign now ⟨chunkId, buffer⟩ kept
          chunksAccessedSinceLastHB :=
            assign chunkId now cache.chunksAccessedSinceLastHB
          chunksDeletedSinceLastHB :=
            if cache.cacheEntryLimit ≤ cache.chunkInMemoryCache.length then
              assign chunkId true cache.chunksDeletedSinceLastHB
            else cache.chunksDeletedSinceLastHB })) ∧
      lruStep cache.cacheEntryLimit cache.doNotUseCache cached
        (.addChunkToCache chunkId (some buffer) buffSize now) = ⟨chunkId, buffer, now⟩ ::
          (if cache.cacheEntryLimit ≤ cached.length then evictOldest cached else cached).filter
            fun chunk => decide (chunk.chunkId ≠ chunkId) := by
  constructor
  · rw [ChunkLRUCache.addChunkToCache, if_neg hdisabled, if_neg hvalid]
  · rw [lruStep, if_neg fun h => h.elim hdisabled hvalid]

/-! ## Runs -/

/-- The cache of a run with the given limit and flag. -/
def CachesAt (limit : ℕ) (disabled : Bool) (cache : Option (ChunkLRUCache Buffer))
    (cached : List (CachedChunk Buffer)) (calls : List (CacheCall Buffer)) : Prop :=
  ∃ current, cache = some current ∧ current.cacheEntryLimit = limit ∧
    current.doNotUseCache = disabled ∧ Caches current cached calls

def DisciplinedAt (cache : Option (ChunkLRUCache Buffer)) (cached : List (CachedChunk Buffer)) :
    Prop :=
  ∃ current, cache = some current ∧ Disciplined current cached

def AddsNewAt (cache : Option (ChunkLRUCache Buffer)) (call : CacheCall Buffer) : Prop :=
  ∃ current, cache = some current ∧ AddsNew current call

/-- Which additions have an effect. -/
theorem add_cases (cache : ChunkLRUCache Buffer) (chunkId : ℤ) (chunkBuff : Option Buffer)
    (buffSize : ℕ) :
    (cache.doNotUseCache = true ∨ chunkBuff = none ∨ buffSize = 0 ∨ chunkId = -1) ∨
      ∃ buffer, chunkBuff = some buffer ∧ ¬ cache.doNotUseCache = true ∧
        ¬ (buffSize = 0 ∨ chunkId = -1) := by
  cases chunkBuff with
  | none => simp
  | some buffer =>
    by_cases hdisabled : cache.doNotUseCache = true
    · simp [hdisabled]
    · by_cases hinvalid : buffSize = 0 ∨ chunkId = -1
      · simp [hinvalid]
      · exact .inr ⟨buffer, rfl, hdisabled, hinvalid⟩

theorem readChunkFromCache_limit (cache : ChunkLRUCache Buffer) (chunkId now : ℤ) :
    (cache.readChunkFromCache chunkId now).2.cacheEntryLimit = cache.cacheEntryLimit ∧
      (cache.readChunkFromCache chunkId now).2.doNotUseCache = cache.doNotUseCache := by
  rw [ChunkLRUCache.readChunkFromCache]
  split_ifs
  · exact ⟨rfl, rfl⟩
  · cases cache.findEntry chunkId <;> exact ⟨rfl, rfl⟩

theorem guarded_cache (limit : ℕ) (disabled : Bool) :
    Guarded (cacheStep : Option (ChunkLRUCache Buffer) → _) (lruStep limit disabled) DisciplinedAt
      AddsNewAt
      (CachesAt limit disabled) where
  behaves := by
    rintro cache cached calls ⟨current, hcurrent, -, -, hcaches⟩
    exact ⟨current, hcurrent, hcaches.disciplined⟩
  keeps := by
    rintro cache cached call calls ⟨current, rfl, rfl, rfl, hcaches⟩ ⟨_, heq, hnew⟩
    obtain rfl := some.inj heq
    cases call with
    | isChunkInCache chunkId => exact ⟨current, rfl, rfl, rfl, hcaches.skip⟩
    | readChunkFromCache chunkId now =>
      obtain ⟨hlimit, hdisabled⟩ := readChunkFromCache_limit current chunkId now
      exact ⟨_, rfl, hlimit, hdisabled, hcaches.readChunkFromCache⟩
    | addChunkToCache chunkId chunkBuff buffSize now =>
      rcases add_cases current chunkId chunkBuff buffSize with
        hidle | ⟨buffer, rfl, hdisabled, hvalid⟩
      · obtain ⟨hadd, hstep⟩ := @addChunkToCache_eq_self _ current cached _ now _ _ hidle
        refine ⟨current, ?_, rfl, rfl, ?_⟩
        · rw [cacheStep, bind_some, hadd, map_some]
        · rw [hstep]
          exact hcaches.skip
      · obtain ⟨kept, hkept, hkeptNew⟩ : ∃ kept, current.makeRoom = some kept ∧
            ∀ entry ∈ kept, entry.2.chunkId ≠ chunkId := by
          simpa [AddsNew, hdisabled, not_or.mp hvalid] using hnew
        obtain ⟨hadd, hstep⟩ := @addChunkToCache_eq _ current cached _ now buffer _ hdisabled
          hvalid
        rw [hkept] at hadd
        refine ⟨_, congrArg (Option.map Prod.snd) hadd, rfl, rfl, ?_⟩
        rw [hstep]
        exact hcaches.addChunkToCache hdisabled hkept hkeptNew _ _
  needed := by
    rintro cache cached call calls ⟨current, rfl, rfl, rfl, hcaches⟩ ⟨next, hnext, hdisciplined⟩
    refine ⟨current, rfl, ?_⟩
    cases call with
    | isChunkInCache chunkId => trivial
    | readChunkFromCache chunkId now => trivial
    | addChunkToCache chunkId chunkBuff buffSize now =>
      rcases add_cases current chunkId chunkBuff buffSize with
        hidle | ⟨buffer, rfl, hdisabled, hvalid⟩
      · rw [AddsNew, ← or_assoc, ← or_assoc, ← or_assoc]
        exact .inl (by simpa [or_assoc] using hidle)
      · obtain ⟨hadd, -⟩ := @addChunkToCache_eq _ current cached _ now buffer _ hdisabled hvalid
        rw [cacheStep, bind_some, hadd, Option.map_map] at hnext
        obtain ⟨kept, hkept, rfl⟩ := map_eq_some_iff.mp hnext
        refine .inr (.inr (.inr (.inr ⟨kept, hkept, fun entry hentry hsame => ?_⟩)))
        -- A kept entry of the chunk and the new one are two entries of it.
        have hunique := hdisciplined.unique
        have hsub := ChunkLRUCache.makeRoom_sublist hkept
        have hfresh : now ∉ KeyedList.keys kept := fun hmem =>
          lt_irrefl now (hcaches.past now ((hsub.map _).subset hmem) now mem_cons_self)
        have hassign := @assign_perm _ _ _ _ _ now
          (⟨chunkId, buffer⟩ : ChunkCacheEntry Buffer) _ hfresh
        have htwo := (hassign.map fun entry => entry.2.chunkId).nodup_iff.mp hunique
        exact (nodup_cons.mp htwo).1 (mem_map.mpr ⟨entry, hentry, hsame⟩)

/-- The cache is disciplined in every state of a run exactly when it can hold an
entry and no chunk is added that the cache keeps already. -/
theorem cache_disciplined_iff (limit : ℕ) (disabled : Bool) (calls : List (CacheCall Buffer))
    (hclock : (clockValues calls).Pairwise (· < ·)) :
    (∀ front, front <+: calls → DisciplinedAt
      (front.foldl cacheStep (some { cacheEntryLimit := limit, doNotUseCache := disabled }))
      (front.foldl (lruStep limit disabled) [])) ↔
    ∀ front call, front ++ [call] <+: calls → AddsNewAt
      (front.foldl cacheStep (some { cacheEntryLimit := limit, doNotUseCache := disabled }))
      call :=
  (guarded_cache limit disabled).behaves_iff
    ⟨_, rfl, rfl, rfl, fun _ => rfl, List.Perm.refl _, List.Pairwise.nil, Nat.zero_le _,
      nodup_nil, nofun, hclock⟩

/-- Chunk 5 is added, read and dropped for chunk 7, after chunk 6. -/
def sampleCalls : List (CacheCall ℕ) :=
  [.addChunkToCache 5 (some 50) 1 1, .addChunkToCache 6 (some 60) 1 2, .readChunkFromCache 5 3,
    .addChunkToCache 7 (some 70) 1 4]

theorem cache_disciplined_sampleCalls :
    DisciplinedAt (sampleCalls.foldl cacheStep (some { cacheEntryLimit := 2 }))
      (sampleCalls.foldl (lruStep 2 false) []) := by
  refine (cache_disciplined_iff 2 false sampleCalls (by decide)).mpr ?_ _ prefix_rfl
  have hnew : ∀ {cache : ChunkLRUCache ℕ} {chunkId : ℤ} {kept} (buffer : ℕ) (now : ℤ),
      cache.makeRoom = some kept → (∀ entry ∈ kept, entry.2.chunkId ≠ chunkId) →
        AddsNew cache (.addChunkToCache chunkId (some buffer) 1 now) :=
    fun _ _ hkept hother => .inr (.inr (.inr (.inr ⟨_, hkept, hother⟩)))
  simp only [sampleCalls, forall_prefix_cons_iff]
  exact ⟨⟨_, rfl, hnew 50 1 rfl (by decide)⟩, ⟨_, rfl, hnew 60 2 rfl (by decide)⟩,
    ⟨_, rfl, trivial⟩, ⟨_, rfl, hnew 70 4 rfl (by decide)⟩, by simp⟩

/-- The same chunk is added twice. -/
def addedTwice : List (CacheCall ℕ) :=
  [.addChunkToCache 5 (some 50) 1 1, .addChunkToCache 5 (some 51) 1 2]

/-- A chunk that is added twice has two entries; a limit of 0 erases the first
entry of an empty map. -/
theorem not_disciplined_added_twice :
    ¬ DisciplinedAt (addedTwice.foldl cacheStep (some { cacheEntryLimit := 2 }))
        (addedTwice.foldl (lruStep 2 false) []) ∧
      ¬ DisciplinedAt (addedTwice.foldl cacheStep (some { cacheEntryLimit := 0 }))
        (addedTwice.foldl (lruStep 0 false) []) := by
  constructor
  · rintro ⟨cache, hcache, hdisciplined⟩
    have hunique := hdisciplined.unique
    cases hcache
    exact absurd hunique (by decide)
  · rintro ⟨cache, hcache, -⟩
    cases hcache

end QfsRepair.ChunkServer
