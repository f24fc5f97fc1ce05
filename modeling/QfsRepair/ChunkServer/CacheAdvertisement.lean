import QfsRepair.ChunkServer.LruCache
import QfsRepair.Text.Splitting

/-!
# The advertisement of cached chunks

With every heartbeat a chunk server sends the chunks it has read or added and
the chunks it has dropped since the last heartbeat, as one text, and the
metaserver enters the server into its map from chunks to caching servers.  A
deletion is given no access time, and an update without access time is ignored:
no chunk ever leaves the map.
-/

namespace QfsRepair.ChunkServer

open Store Text List KeyedList
open Option hiding or_assoc

variable {Buffer : Type*}

/-! ## The text of a heartbeat -/

/-- The key of the property. -/
def deltaKey : List Char := "ChunkLRUDelta: ".toList

def addKey : List Char := "Adds[".toList

def delKey : List Char := "Dels[".toList

/-- What is sent when nothing has changed. -/
def noChange : List Char := ['n', 'o']

/-- A chunk with its last access time, without the comma behind it. -/
def accessRecord (entry : ℤ × ℤ) : List Char :=
  decimalInt entry.1 ++ '|' :: decimalInt entry.2

/-- The records of one kind, none of them without their key. -/
def recordSection (key : List Char) (records : List (List Char)) : List Char :=
  if records = [] then [] else key ++ (records.flatMap (· ++ [','])) ++ [']']

namespace ChunkLRUCache

variable (cache : ChunkLRUCache Buffer)

def generateListOfChangeInChunkLRUCache : List Char :=
  deltaKey ++
    if cache.chunksAccessedSinceLastHB = [] ∧ cache.chunksDeletedSinceLastHB = [] then noChange
    else recordSection addKey (cache.chunksAccessedSinceLastHB.map accessRecord) ++
      recordSection delKey (cache.chunksDeletedSinceLastHB.map fun entry => decimalInt entry.1)

def clearListOfChangeInChunkLRUCache : ChunkLRUCache Buffer :=
  { cache with
    chunksAccessedSinceLastHB := []
    chunksDeletedSinceLastHB := [] }

end ChunkLRUCache

/-! ## The metaserver -/

structure CacheServer where
  serverName : List Char
  lastAccessedTime : ℤ
  deriving DecidableEq

/-- An update; there is no map after a failed assertion. -/
def updateCacheServerMap (serverName : List Char) (chunkId lastAccessTime : ℤ) (isDelete : Bool)
    (servers : List (ℤ × CacheServer)) : Option (List (ℤ × CacheServer)) :=
  if lastAccessTime = -1 ∨ chunkId = -1 then some servers
  else if isDelete then
    match find chunkId servers with
    | none => none
    | some _ => some (erase chunkId servers)
  else
    match find chunkId servers with
    | none => some (assign chunkId ⟨serverName, lastAccessTime⟩ servers)
    | some _ =>
      some (assign chunkId ⟨serverName, lastAccessTime⟩
        (erase chunkId servers))

/-- A position in a text; `npos` counts as -1 in the arithmetic of positions. -/
def position (found : Option ℕ) : ℤ := (found.map Int.ofNat).getD (-1)

/-- The records from a key up to two characters before the end position; the
last comma and the bracket are left out.  A negative length takes the rest of
the text. -/
def recordsBetween (received key : List Char) (posEnd : Option ℕ) : Option (List Char) :=
  let posStart := position (findText key received)
  let strLen := position posEnd - (posStart + key.length) - 1
  if posStart ≠ -1 ∨ 0 < strLen then
    let rest := received.drop (posStart + key.length).toNat
    some (if strLen < 0 then rest else rest.take strLen.toNat)
  else none

/-- One record of `Adds`. -/
def applyAccess (serverName : List Char) (servers : List (ℤ × CacheServer)) (token : List Char) :
    Option (List (ℤ × CacheServer)) :=
  if token = [] then some servers
  else
    match split token ['|'] with
    | first :: second :: _ =>
      if strtoll first ≤ 0 then some servers
      else updateCacheServerMap serverName (strtoll first) (scanNumber (-1) second) false servers
    | _ => some servers

/-- One record of `Dels`. -/
def applyDeletion (serverName : List Char) (servers : List (ℤ × CacheServer)) (token : List Char) :
    Option (List (ℤ × CacheServer)) :=
  if token = [] then some servers
  else if strtoll token ≤ 0 then some servers
  else updateCacheServerMap serverName (strtoll token) (-1) true servers

/-- The records of a section, as `split` cuts them. -/
def tokensBetween (received key : List Char) (posEnd : Option ℕ) : List (List Char) :=
  ((recordsBetween received key posEnd).map (split · [','])).getD []

def parseAndUpdateCacheServerMap (serverName received : List Char)
    (servers : List (ℤ × CacheServer)) : Option (List (ℤ × CacheServer)) :=
  if received = noChange then some servers
  else do
    let added ← (tokensBetween received addKey (findText [']'] received)).foldlM
      (applyAccess serverName) servers
    (tokensBetween received delKey (rfindText [']'] received)).foldlM (applyDeletion serverName)
      added

/-! ## Runs -/

inductive CacheEvent (Buffer : Type*) where
  | call (call : CacheCall Buffer)
  | heartbeat

/-- The cache of a server, and the map of the metaserver. -/
structure Advertisement (Buffer : Type*) where
  cache : ChunkLRUCache Buffer
  chunkIdToCacheServerMap : List (ℤ × CacheServer) := []

/-- A heartbeat sends the text, clears the lists, and the metaserver reads what
stands behind the key. -/
def eventStep (serverName : List Char) (state : Option (Advertisement Buffer)) :
    CacheEvent Buffer → Option (Advertisement Buffer)
  | .call call => state.bind fun state =>
    (cacheStep (some state.cache) call).map fun cache => { state with cache := cache }
  | .heartbeat => state.bind fun state =>
    (parseAndUpdateCacheServerMap serverName
      (state.cache.generateListOfChangeInChunkLRUCache.drop deltaKey.length)
      state.chunkIdToCacheServerMap).map fun servers =>
        ⟨state.cache.clearListOfChangeInChunkLRUCache, servers⟩

/-- The chunk that an event adds. -/
def additionOf (disabled : Bool) : CacheEvent Buffer → Option ℤ
  | .call (.addChunkToCache chunkId (some _) buffSize _) =>
    if disabled = true ∨ buffSize = 0 ∨ chunkId = -1 then none else some chunkId
  | _ => none

def addedChunks (disabled : Bool) (events : List (CacheEvent Buffer)) : List ℤ :=
  events.filterMap (additionOf disabled)

/-- The metaserver lists the server for a chunk. -/
def Lists (serverName : List Char) (servers : List (ℤ × CacheServer)) (chunkId : ℤ) : Prop :=
  ∃ server, find chunkId servers = some server ∧ server.serverName = serverName

/-- The map lists the server for exactly the chunks of its cache. -/
def Advertises (serverName : List Char) (state : Option (Advertisement Buffer)) : Prop :=
  ∃ current, state = some current ∧ ∀ chunkId,
    Lists serverName current.chunkIdToCacheServerMap chunkId ↔
      current.cache.isChunkInCache chunkId = true

/-- The cache has exactly the chunks with a positive id that were ever added. -/
def KeepsAdded (disabled : Bool) (events : List (CacheEvent Buffer))
    (state : Option (Advertisement Buffer)) : Prop :=
  ∃ current, state = some current ∧ ∀ chunkId,
    current.cache.isChunkInCache chunkId = true ↔
      0 < chunkId ∧ chunkId ∈ addedChunks disabled events

/-- Chunk ids are 64 bit numbers, and the clock counts microseconds since the
epoch. -/
def TypedAccess (entry : ℤ × ℤ) : Prop :=
  (-2 ^ 63 ≤ entry.1 ∧ entry.1 < 2 ^ 63) ∧ 0 ≤ entry.2 ∧ entry.2 < 2 ^ 63

def TypedEvent : CacheEvent Buffer → Prop
  | .call (.isChunkInCache _) => True
  | .call (.readChunkFromCache chunkId now) => TypedAccess (chunkId, now)
  | .call (.addChunkToCache chunkId _ _ now) => TypedAccess (chunkId, now)
  | .heartbeat => True

/-! ## Reading the text back -/

/-- The section of the accesses, whatever follows it. -/
theorem recordsBetween_addKey {received body back : List Char} (hbody : ']' ∉ body)
    (hreceived : received = addKey ++ (body ++ [',']) ++ ']' :: back) :
    recordsBetween received addKey (findText [']'] received) = some body := by
  have hfront : ']' ∉ addKey ++ (body ++ [',']) := by
    simp [addKey, hbody]
  have hstart : findText addKey received = some 0 := by
    rw [hreceived]
    simp [findText, addKey, isPrefixOf]
  have hstrLen : position (some (addKey ++ (body ++ [','])).length) -
      (position (some 0) + addKey.length) - 1 = body.length := by
    simp only [length_append, length_singleton, position, map_some, getD_some,
      Int.ofNat_eq_natCast]
    omega
  have hrest : received.drop (position (some 0) + addKey.length).toNat =
      body ++ (',' :: ']' :: back) := by
    rw [hreceived]
    simp [position, addKey]
  rw [recordsBetween, hstart, findText_of_eq hreceived hfront, hstrLen]
  dsimp only
  rw [if_pos (.inl (by decide)), hrest, if_neg (by omega), Int.toNat_natCast, take_left]

/-- No record has a bracket or a comma, and none is empty. -/
theorem accessRecord_free (entry : ℤ × ℤ) :
    accessRecord entry ≠ [] ∧ ']' ∉ accessRecord entry ∧ ',' ∉ accessRecord entry := by
  have hbracket : ∀ value, ']' ∉ decimalInt value := notMem_decimalInt rfl (by decide)
  have hcomma : ∀ value, ',' ∉ decimalInt value := notMem_decimalInt rfl (by decide)
  refine ⟨?_, ?_, ?_⟩
  · simp [accessRecord]
  · simp [accessRecord, hbracket]
  · simp [accessRecord, hcomma]

/-- The tokens of the accesses are their records. -/
theorem tokensBetween_addKey (entry : ℤ × ℤ) (entries : List (ℤ × ℤ)) (back : List Char) :
    tokensBetween (recordSection addKey ((entry :: entries).map accessRecord) ++ back) addKey
      (findText [']'] (recordSection addKey ((entry :: entries).map accessRecord) ++ back)) =
        (entry :: entries).map accessRecord := by
  obtain ⟨body, hbody⟩ : ∃ body, body = accessRecord entry ++
    (entries.map accessRecord).flatMap ([','] ++ ·) := ⟨_, rfl⟩
  have hsection : recordSection addKey ((entry :: entries).map accessRecord) ++ back =
      addKey ++ (body ++ [',']) ++ ']' :: back := by
    rw [recordSection, map_cons, flatMap_append_delim, ← hbody]
    simp
  have hnone : ']' ∉ body := by
    rw [hbody]
    have hrecords := fun entry => (accessRecord_free entry).2.1
    simp [hrecords]
  rw [tokensBetween, recordsBetween_addKey hnone hsection, map_some, hbody]
  refine split_joined (borderFree_singleton ',') fun text htext => ?_
  obtain ⟨record, -, rfl⟩ := mem_map.mp (map_cons ▸ htext)
  obtain ⟨hne, -, hcomma⟩ := accessRecord_free record
  exact ⟨hne, fun hinside => hcomma (infix_singleton_iff.mp hinside)⟩

theorem split_accessRecord (entry : ℤ × ℤ) :
    split (accessRecord entry) ['|'] = [decimalInt entry.1, decimalInt entry.2] := by
  have hbar : ∀ value, '|' ∉ decimalInt value := notMem_decimalInt rfl (by decide)
  have hjoined := @split_joined ['|'] (borderFree_singleton '|') (decimalInt entry.1)
    [decimalInt entry.2] (by
      intro text htext
      obtain ⟨value, rfl⟩ : ∃ value, text = decimalInt value := by
        rcases mem_cons.mp htext with rfl | hmem
        · exact ⟨_, rfl⟩
        · exact ⟨_, mem_singleton.mp hmem⟩
      exact ⟨decimalInt_ne_nil value, fun hinside => hbar value (infix_singleton_iff.mp hinside)⟩)
  simpa [accessRecord] using hjoined

variable {serverName : List Char}

/-- An access with a time enters the server. -/
theorem updateCacheServerMap_eq {chunkId time : ℤ} (servers : List (ℤ × CacheServer))
    (hchunk : 0 < chunkId) (htime : 0 ≤ time) :
    ∃ updated, updateCacheServerMap serverName chunkId time false servers = some updated ∧
      ∀ other, find other updated =
        if other = chunkId then some ⟨serverName, time⟩ else find other servers := by
  rw [updateCacheServerMap, if_neg (by omega)]
  cases find chunkId servers with
  | none => exact ⟨_, rfl, fun other => find_assign⟩
  | some _ =>
    refine ⟨_, rfl, fun other => ?_⟩
    rw [find_assign]
    split_ifs with hother
    · rfl
    · exact find_erase_of_ne hother servers

/-- A record lists the server for its chunk if the id is positive. -/
theorem applyAccess_accessRecord {entry : ℤ × ℤ} (htyped : TypedAccess entry)
    (servers : List (ℤ × CacheServer)) :
    ∃ updated, applyAccess serverName servers (accessRecord entry) = some updated ∧
      ∀ chunkId, Lists serverName updated chunkId ↔
        Lists serverName servers chunkId ∨ (0 < chunkId ∧ chunkId = entry.1) := by
  obtain ⟨⟨hlow, hhigh⟩, htime, htimeHigh⟩ := htyped
  rw [applyAccess, if_neg (accessRecord_free entry).1, split_accessRecord]
  dsimp only
  rw [strtoll_decimalInt hlow hhigh, scanNumber_decimalInt _ (by omega) htimeHigh]
  by_cases hchunk : entry.1 ≤ 0
  · refine ⟨servers, if_pos hchunk, fun chunkId => ?_⟩
    constructor
    · exact .inl
    · rintro (hlists | ⟨hpositive, rfl⟩)
      · exact hlists
      · omega
  · obtain ⟨updated, hupdate, hfind⟩ :=
      @updateCacheServerMap_eq serverName entry.1 entry.2 servers (by omega) htime
    refine ⟨updated, by rw [if_neg hchunk, hupdate], fun chunkId => ?_⟩
    rw [Lists, hfind]
    by_cases hsame : chunkId = entry.1
    · rw [if_pos hsame]
      exact iff_of_true ⟨_, rfl, rfl⟩ (.inr ⟨by omega, hsame⟩)
    · simp [Lists, hsame]

theorem foldlM_applyAccess {entries : List (ℤ × ℤ)}
    (htyped : ∀ entry ∈ entries, TypedAccess entry) (servers : List (ℤ × CacheServer)) :
    ∃ updated, (entries.map accessRecord).foldlM (applyAccess serverName) servers = some updated ∧
      ∀ chunkId, Lists serverName updated chunkId ↔
        Lists serverName servers chunkId ∨ (0 < chunkId ∧ chunkId ∈ KeyedList.keys entries) := by
  induction entries generalizing servers with
  | nil => exact ⟨servers, rfl, fun chunkId => by simp [KeyedList.keys]⟩
  | cons entry entries ih =>
    obtain ⟨first, hfirst, hlists⟩ := @applyAccess_accessRecord serverName _
      (htyped entry mem_cons_self) servers
    obtain ⟨updated, hupdated, hrest⟩ :=
      ih (fun entry hentry => htyped entry (mem_cons_of_mem _ hentry)) first
    refine ⟨updated, ?_, fun chunkId => ?_⟩
    · rw [map_cons, foldlM_cons, hfirst]
      exact hupdated
    · rw [hrest, hlists, or_assoc, ← and_or_left, ← mem_cons]
      rfl

/-- A deletion has no access time and changes nothing. -/
theorem foldlM_applyDeletion (serverName : List Char) (servers : List (ℤ × CacheServer))
    (tokens : List (List Char)) :
    tokens.foldlM (applyDeletion serverName) servers = some servers := by
  induction tokens with
  | nil => rfl
  | cons token tokens ih =>
    have htoken : applyDeletion serverName servers token = some servers := by
      rw [applyDeletion, updateCacheServerMap, if_pos (Or.inl rfl), ite_self, ite_self]
    rw [foldlM_cons, htoken]
    exact ih

variable {cache : ChunkLRUCache Buffer}

/-- A heartbeat lists the server for the accessed chunks with a positive id, and
removes nothing. -/
theorem parseAndUpdateCacheServerMap_delta
    (htyped : ∀ entry ∈ cache.chunksAccessedSinceLastHB, TypedAccess entry)
    (hdeleted : cache.chunksAccessedSinceLastHB = [] → cache.chunksDeletedSinceLastHB = [])
    (servers : List (ℤ × CacheServer)) :
    ∃ updated, parseAndUpdateCacheServerMap serverName
        (cache.generateListOfChangeInChunkLRUCache.drop deltaKey.length) servers = some updated ∧
      ∀ chunkId, Lists serverName updated chunkId ↔ Lists serverName servers chunkId ∨
        (0 < chunkId ∧ chunkId ∈ KeyedList.keys cache.chunksAccessedSinceLastHB) := by
  rw [ChunkLRUCache.generateListOfChangeInChunkLRUCache, drop_left]
  cases haccessed : cache.chunksAccessedSinceLastHB with
  | nil =>
    rw [if_pos ⟨rfl, hdeleted haccessed⟩, parseAndUpdateCacheServerMap]
    exact ⟨servers, rfl, fun chunkId => by simp [KeyedList.keys]⟩
  | cons entry entries =>
    rw [haccessed] at htyped
    obtain ⟨updated, hupdated, hlists⟩ := @foldlM_applyAccess serverName _ htyped servers
    refine ⟨updated, ?_, hlists⟩
    rw [if_neg fun h => absurd h.1 (cons_ne_nil _ _), parseAndUpdateCacheServerMap,
      tokensBetween_addKey, hupdated]
    exact foldlM_applyDeletion _ _ _

/-! ## What has been announced -/

/-- The added chunks are in the cache, announced or to be announced with the
next heartbeat. -/
structure Announced (serverName : List Char) (disabled : Bool) (added : List ℤ)
    (state : Advertisement Buffer) : Prop where
  disabled : state.cache.doNotUseCache = disabled
  cached : ∀ entry ∈ state.cache.chunkInMemoryCache, entry.2.chunkId ∈ added
  accessed : ∀ chunkId ∈ KeyedList.keys state.cache.chunksAccessedSinceLastHB, chunkId ∈ added
  typed : ∀ entry ∈ state.cache.chunksAccessedSinceLastHB, TypedAccess entry
  deleted : state.cache.chunksAccessedSinceLastHB = [] → state.cache.chunksDeletedSinceLastHB = []
  listed : ∀ chunkId, Lists serverName state.chunkIdToCacheServerMap chunkId →
    0 < chunkId ∧ chunkId ∈ added
  covered : ∀ chunkId ∈ added, 0 < chunkId →
    chunkId ∈ KeyedList.keys state.cache.chunksAccessedSinceLastHB ∨
      Lists serverName state.chunkIdToCacheServerMap chunkId

theorem foldl_eventStep_none (serverName : List Char) (events : List (CacheEvent Buffer)) :
    events.foldl (eventStep serverName) none = none := by
  induction events with
  | nil => rfl
  | cons event events ih =>
    cases event <;> exact ih

namespace Announced

variable {serverName : List Char} {disabled : Bool} {added : List ℤ}
  {state : Advertisement Buffer} {chunkId now : ℤ}

variable (hannounced : Announced serverName disabled added state)

include hannounced

section

variable (htyped : TypedAccess (chunkId, now))

include htyped

/-- An access of a chunk, which may be a new one. -/
theorem access {next : List ℤ} (hnext : ∀ other, other ∈ next ↔ other = chunkId ∨ other ∈ added)
    {entries : List (ℤ × ChunkCacheEntry Buffer)}
    (hentries : ∀ entry ∈ entries, entry.2.chunkId ∈ next) (deleted : List (ℤ × Bool)) :
    Announced serverName disabled next
      { state with
        cache :=
          { state.cache with
            chunkInMemoryCache := entries
            chunksAccessedSinceLastHB :=
              assign chunkId now state.cache.chunksAccessedSinceLastHB
            chunksDeletedSinceLastHB := deleted } } where
  disabled := hannounced.disabled
  cached := hentries
  accessed := by
    intro other hother
    rw [hnext]
    exact (mem_keys_assign.mp hother).imp_right (hannounced.accessed other)
  typed := by
    intro entry hentry
    rcases mem_assign hentry with rfl | hold
    · exact htyped
    · exact hannounced.typed entry hold
  deleted := by
    intro hempty
    have hself := find_assign_self chunkId now state.cache.chunksAccessedSinceLastHB
    rw [show assign chunkId now state.cache.chunksAccessedSinceLastHB = [] from hempty]
      at hself
    exact absurd hself.symm (some_ne_none now)
  listed := by
    intro other hlists
    obtain ⟨hpositive, hadded⟩ := hannounced.listed other hlists
    exact ⟨hpositive, (hnext other).mpr (.inr hadded)⟩
  covered := by
    intro other hother hpositive
    rcases (hnext other).mp hother with rfl | hadded
    · exact .inl (mem_keys_assign.mpr (.inl rfl))
    · exact (hannounced.covered other hadded hpositive).imp_left
        fun hmem => mem_keys_assign.mpr (.inr hmem)

theorem readChunkFromCache :
    Announced serverName disabled added
      { state with cache := (state.cache.readChunkFromCache chunkId now).2 } := by
  rw [ChunkLRUCache.readChunkFromCache]
  split_ifs
  · exact hannounced
  · cases hfound : state.cache.findEntry chunkId with
    | none => exact hannounced
    | some entry =>
      have hsame : entry.2.chunkId = chunkId := by
        have hfind := find?_some hfound
        exact of_decide_eq_true hfind
      have hentry := hannounced.cached entry (mem_of_find?_eq_some hfound)
      refine hannounced.access htyped (fun other => ?_) (fun kept hkept => ?_) _
      · exact ⟨.inr, fun h => h.elim (fun heq => heq ▸ hsame ▸ hentry) id⟩
      · rcases mem_assign hkept with rfl | hold
        · exact hentry
        · exact hannounced.cached kept (mem_of_mem_filter hold)

theorem addChunkToCache {chunkBuff : Option Buffer} {buffSize : ℕ} {added' : Bool}
    (hadd : state.cache.addChunkToCache chunkId chunkBuff buffSize now = some (added', cache)) :
    Announced serverName disabled
      (added ++ (additionOf disabled (.call (.addChunkToCache chunkId chunkBuff buffSize
        now))).toList)
      { state with cache := cache } := by
  rcases add_cases state.cache chunkId chunkBuff buffSize with
    hidle | ⟨buffer, rfl, hdisabled, hvalid⟩
  · have hsame := (@addChunkToCache_eq_self _ state.cache [] _ now _ _ hidle).1
    obtain ⟨-, rfl⟩ := Prod.mk.inj (some.inj (hsame.symm.trans hadd))
    have hnone : additionOf disabled (.call (.addChunkToCache chunkId chunkBuff buffSize now)) =
        none := by
      rw [hannounced.disabled] at hidle
      cases chunkBuff with
      | none => rfl
      | some buffer => exact if_pos (by simpa using hidle)
    rw [hnone, toList_none, append_nil]
    exact hannounced
  · have hsome : additionOf disabled
        (.call (.addChunkToCache chunkId (some buffer) buffSize now)) = some chunkId := by
      rw [hannounced.disabled] at hdisabled
      exact if_neg fun h => h.elim hdisabled hvalid
    rw [(@addChunkToCache_eq _ state.cache [] _ now buffer _ hdisabled hvalid).1] at hadd
    obtain ⟨kept, hkept, hcache⟩ := map_eq_some_iff.mp hadd
    obtain ⟨-, rfl⟩ := Prod.mk.inj hcache
    rw [hsome, toList_some]
    refine hannounced.access htyped (fun other => ?_) (fun entry hentry => ?_) _
    · rw [mem_append, mem_singleton, or_comm]
    · rcases mem_assign hentry with rfl | hold
      · exact mem_append_right _ (mem_singleton.mpr rfl)
      · have hsublist := ChunkLRUCache.makeRoom_sublist hkept
        exact mem_append_left _ (hannounced.cached entry (hsublist.subset hold))

end

/-- What a heartbeat leaves on the map. -/
theorem heartbeat :
    ∃ servers, eventStep serverName (some state) .heartbeat =
        some ⟨state.cache.clearListOfChangeInChunkLRUCache, servers⟩ ∧
      (∀ chunkId, Lists serverName servers chunkId ↔ 0 < chunkId ∧ chunkId ∈ added) ∧
      Announced serverName disabled added
        ⟨state.cache.clearListOfChangeInChunkLRUCache, servers⟩ := by
  obtain ⟨servers, hparse, hlists⟩ := @parseAndUpdateCacheServerMap_delta _ serverName state.cache
    hannounced.typed hannounced.deleted state.chunkIdToCacheServerMap
  have hexact : ∀ chunkId, Lists serverName servers chunkId ↔ 0 < chunkId ∧ chunkId ∈ added := by
    intro chunkId
    rw [hlists]
    constructor
    · rintro (hlisted | ⟨hpositive, haccessed⟩)
      · exact hannounced.listed chunkId hlisted
      · exact ⟨hpositive, hannounced.accessed chunkId haccessed⟩
    · rintro ⟨hpositive, hadded⟩
      exact (hannounced.covered chunkId hadded hpositive).symm.imp_right fun h => ⟨hpositive, h⟩
  refine ⟨servers, ?_, hexact, ?_⟩
  · rw [eventStep, bind_some, hparse, map_some]
  · exact
      { disabled := hannounced.disabled
        cached := hannounced.cached
        accessed := fun chunkId hmem => absurd hmem not_mem_nil
        typed := fun entry hmem => absurd hmem not_mem_nil
        deleted := fun _ => rfl
        listed := fun chunkId => (hexact chunkId).mp
        covered := fun chunkId hadded hpositive => .inr ((hexact chunkId).mpr
          ⟨hpositive, hadded⟩) }

theorem eventStep {event : CacheEvent Buffer} {next : Advertisement Buffer}
    (htyped : TypedEvent event)
    (hstep : ChunkServer.eventStep serverName (some state) event = some next) :
    Announced serverName disabled (added ++ (additionOf disabled event).toList) next := by
  cases event with
  | heartbeat =>
    obtain ⟨servers, hheartbeat, -, hnext⟩ := hannounced.heartbeat
    obtain rfl := some.inj (hheartbeat.symm.trans hstep)
    simpa [additionOf] using hnext
  | call call =>
    obtain ⟨cache, hcache, rfl⟩ := map_eq_some_iff.mp hstep
    cases call with
    | isChunkInCache chunkId =>
      obtain rfl := some.inj hcache
      simpa [additionOf] using hannounced
    | readChunkFromCache chunkId now =>
      obtain rfl := some.inj hcache
      simpa [additionOf] using hannounced.readChunkFromCache htyped
    | addChunkToCache chunkId chunkBuff buffSize now =>
      obtain ⟨result, hadd, rfl⟩ := map_eq_some_iff.mp hcache
      exact hannounced.addChunkToCache htyped hadd

/-- The additions of a whole run. -/
theorem foldl_eventStep {events : List (CacheEvent Buffer)} {final : Advertisement Buffer}
    (htyped : ∀ event ∈ events, TypedEvent event)
    (hrun : events.foldl (ChunkServer.eventStep serverName) (some state) = some final) :
    Announced serverName disabled (added ++ addedChunks disabled events) final := by
  induction events generalizing state added with
  | nil =>
    obtain rfl := some.inj hrun
    simpa [addedChunks] using hannounced
  | cons event events ih =>
    rw [foldl_cons] at hrun
    cases hstep : ChunkServer.eventStep serverName (some state) event with
    | none =>
      rw [hstep, foldl_eventStep_none] at hrun
      exact absurd hrun (some_ne_none final).symm
    | some next =>
      rw [hstep] at hrun
      have hnext := hannounced.eventStep (htyped event mem_cons_self) hstep
      have hfinal := ih hnext (fun event hevent => htyped event (mem_cons_of_mem _ hevent))
        hrun
      rw [append_assoc] at hfinal
      have hadded : addedChunks disabled (event :: events) =
          (additionOf disabled event).toList ++ addedChunks disabled events := by
        cases hevent : additionOf disabled event with
        | none => rw [addedChunks, filterMap_cons_none hevent]; rfl
        | some chunkId => rw [addedChunks, filterMap_cons_some hevent]; rfl
      rw [hadded]
      exact hfinal

end Announced

/-- After a heartbeat the map lists the server for exactly its cached chunks if
and only if the cache has exactly the chunks with a positive id that were ever
added: no chunk has left the cache for good, and it has no other chunks. -/
theorem advertises_iff (limit : ℕ) (disabled : Bool) (serverName : List Char)
    (events : List (CacheEvent Buffer)) (htyped : ∀ event ∈ events, TypedEvent event) :
    Advertises serverName ((events ++ [CacheEvent.heartbeat]).foldl (eventStep serverName)
      (some { cache := { cacheEntryLimit := limit, doNotUseCache := disabled } })) ↔
    KeepsAdded disabled events (events.foldl (eventStep serverName)
      (some { cache := { cacheEntryLimit := limit, doNotUseCache := disabled } })) := by
  rw [foldl_append, foldl_cons]
  have hinitial : Announced serverName disabled []
      ({ cache := { cacheEntryLimit := limit, doNotUseCache := disabled } } :
        Advertisement Buffer) :=
    { disabled := rfl
      cached := nofun
      accessed := nofun
      typed := nofun
      deleted := fun _ => rfl
      listed := fun _ hlists => absurd hlists.choose_spec.1.symm (some_ne_none _)
      covered := nofun }
  cases hrun : events.foldl (eventStep serverName)
      (some { cache := { cacheEntryLimit := limit, doNotUseCache := disabled } }) with
  | none =>
    exact iff_of_false (fun ⟨_, hnone, _⟩ => absurd hnone.symm (some_ne_none _))
      (fun ⟨_, hnone, _⟩ => absurd hnone.symm (some_ne_none _))
  | some state =>
    have hannounced := hinitial.foldl_eventStep htyped hrun
    obtain ⟨servers, hstep, hlists, -⟩ := hannounced.heartbeat
    rw [hstep]
    constructor
    · rintro ⟨current, hcurrent, hadvertises⟩
      obtain rfl := some.inj hcurrent
      exact ⟨state, rfl, fun chunkId => (hadvertises chunkId).symm.trans (hlists chunkId)⟩
    · rintro ⟨current, hcurrent, hkeeps⟩
      obtain rfl := some.inj hcurrent
      exact ⟨_, rfl, fun chunkId => (hlists chunkId).trans (hkeeps chunkId).symm⟩

/-- Chunks 5 and 6 are added, and chunk 5 is read. -/
def sampleEvents : List (CacheEvent ℕ) :=
  [.call (.addChunkToCache 5 (some 50) 1 1), .call (.addChunkToCache 6 (some 60) 1 2), .heartbeat,
    .call (.readChunkFromCache 5 3)]

theorem advertises_sampleEvents :
    Advertises ['s'] ((sampleEvents ++ [CacheEvent.heartbeat]).foldl (eventStep ['s'])
      (some { cache := { cacheEntryLimit := 2, doNotUseCache := false } })) := by
  have htyped : ∀ event ∈ sampleEvents, TypedEvent event := by
    simp [sampleEvents, TypedEvent, TypedAccess]
  have hcache : (sampleEvents.foldl (eventStep ['s'])
      (some { cache := { cacheEntryLimit := 2, doNotUseCache := false } })).map (fun state =>
        (state.cache.doNotUseCache, state.cache.chunkInMemoryCache.map fun entry =>
          entry.2.chunkId)) = some (false, [6, 5]) := by decide
  obtain ⟨state, hstate, heq⟩ := Option.map_eq_some_iff.mp hcache
  obtain ⟨henabled, hchunks⟩ := Prod.mk.inj heq
  refine (advertises_iff 2 false ['s'] sampleEvents htyped).mpr ⟨state, hstate, fun chunkId => ?_⟩
  have hcached : state.cache.isChunkInCache chunkId = true ↔ chunkId ∈ ([6, 5] : List ℤ) := by
    rw [ChunkLRUCache.isChunkInCache, henabled, ← hchunks]
    simp [ChunkLRUCache.findEntry]
  rw [hcached, show addedChunks false sampleEvents = [5, 6] from rfl]
  simp only [mem_cons, not_mem_nil, or_false]
  omega

/-- Chunk 6 takes the place of chunk 5. -/
def evictingEvents : List (CacheEvent ℕ) :=
  [.call (.addChunkToCache 5 (some 50) 1 1), .heartbeat, .call (.addChunkToCache 6 (some 60) 1 2),
    .heartbeat]

/-- A chunk that is evicted stays on the map. -/
theorem not_advertises_evicted : ¬ Advertises ['s'] (evictingEvents.foldl (eventStep ['s'])
    (some { cache := { cacheEntryLimit := 1 } })) := by
  rintro ⟨state, hstate, hadvertises⟩
  have hcached := (hadvertises 5).mp
  cases hstate
  exact absurd (hcached ⟨⟨['s'], 1⟩, by decide, rfl⟩) (by decide)

end QfsRepair.ChunkServer
