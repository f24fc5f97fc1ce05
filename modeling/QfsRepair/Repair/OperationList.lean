import QfsRepair.Repair.Destination
import QfsRepair.Repair.Plan

/-!
# The operation list as a text

The metaserver writes the operations of a server as one text, a record with the
marker `TIME` for each, and the chunk server splits the text and reads the
numbers back.  The text is read back as it was meant when there is an operation,
no number before the host name is negative, ids and versions are 32 bit numbers,
and no host name has the marker in it.
-/

namespace QfsRepair.Repair

open Store Text Destination List
open Option hiding map_map

/-- The marker of a record. -/
def timeMarker : List Char := ['T', 'I', 'M', 'E']

/-- What one operation asks for. -/
structure RepairOperation where
  time : ℤ
  chunkId : ℤ
  chunkVersion : ℤ
  chunkSize : ℤ
  decodingCoefficient : ℤ
  hostname : Name
  port : ℤ
  deriving DecidableEq

/-! ## The metaserver -/

/-- The record of an operation behind its marker. -/
def operationRecord (time chunkId chunkVersion size coefficient : ℤ) (server : Name) : List Char :=
  decimalInt time ++ 'C' :: (decimalInt chunkId ++ 'V' :: (decimalInt chunkVersion ++
    'S' :: (decimalInt size ++ 'D' :: (decimalInt coefficient ++ '-' :: server))))

/-- `chunkIds` are the chunks of the stripe by server, where a server that is
missing gets chunk 0, and `chunkVersion` is the version of a chunk with an
entry. -/
def populateChunkServerOpListString (chunkIds : List (Name × ℤ)) (chunkVersion : ℤ → Option ℤ)
    (opMap : List (ℤ × PartialDecodingInfo)) : Option (List Char) :=
  opMap.foldlM
    (fun text entry =>
      let relevantChunkId := (KeyedList.find entry.2.hostingServer chunkIds).getD 0
      (chunkVersion relevantChunkId).map fun version =>
        text ++ (timeMarker ++ operationRecord entry.1 relevantChunkId version chunkSize
          entry.2.decodingCoeff entry.2.hostingServer))
    []

/-- An entry of an operation map, with the location of its hosting server. -/
structure OperationEntry where
  time : ℤ
  decodingCoeff : ℤ
  location : ServerLocation

def OperationEntry.mapped (entry : OperationEntry) : ℤ × PartialDecodingInfo :=
  (entry.time, ⟨entry.decodingCoeff, entry.location.hostPortStr⟩)

/-- The operation that is meant by an entry. -/
def OperationEntry.operation (chunkIds : List (Name × ℤ)) (chunkVersion : ℤ → Option ℤ)
    (entry : OperationEntry) : Option RepairOperation :=
  let chunkId := (KeyedList.find entry.location.hostPortStr chunkIds).getD 0
  (chunkVersion chunkId).map fun version =>
    { time := entry.time
      chunkId := chunkId
      chunkVersion := version
      chunkSize := chunkSize
      decodingCoefficient := entry.decodingCoeff
      hostname := entry.location.hostname
      port := entry.location.port }

/-! ## The chunk server -/

def operationOf (strings : OperationStrings) : RepairOperation where
  time := atoi strings.temporalTime
  chunkId := atoi strings.chunkIdStr
  chunkVersion := atoi strings.chunkVersion
  chunkSize := atoi strings.chunkSize
  decodingCoefficient := atoi strings.decodeCoefficient
  hostname := strings.hostname
  port := strings.port

/-- The operations that `Execute` reads from a text.  `port` is the value of the
variable where a record has no port. -/
def parseOperations (port : ℤ) (text : List Char) : List RepairOperation :=
  ((split text timeMarker).filter fun operationStr => decide (operationStr ≠ stillEmpty)).map
    fun operationStr => operationOf (parseOperationString operationStr port).2

/-- The request for an operation. -/
def requestFor (op : DistributedRepairChunkOp) (operation : RepairOperation) :
    SendChunkForDistributedRepairOp where
  missingChunkId := op.chunkId
  missingChunkVersion := op.chunkVersion
  chunkId := operation.chunkId
  chunkVersion := operation.chunkVersion
  chunkSize := operation.chunkSize
  stripeIdentifier := op.stripeIdentifier
  fileId := op.fid
  temporalTime := operation.time
  decodingCoefficient := operation.decodingCoefficient

/-- `Execute` requests the operations of the text whose servers are found. -/
theorem execute_requests (findServer : List Char → ℤ → Bool) (port : ℤ)
    (op : DistributedRepairChunkOp) (server : Server) :
    (execute findServer port op server).2.map (·.2) =
      ((parseOperations port op.theSequenceString).filter fun operation =>
        findServer operation.hostname operation.port).map (requestFor op) := by
  have hfold : ∀ (texts : List (List Char))
      (state : Server × List (OpPtr × SendChunkForDistributedRepairOp)),
      (texts.foldl (executeOperation findServer port op) state).2.map (·.2) =
        state.2.map (·.2) ++
          (((texts.filter fun operationStr => decide (operationStr ≠ stillEmpty)).map
            fun operationStr => operationOf (parseOperationString operationStr port).2).filter
              fun operation => findServer operation.hostname operation.port).map
            (requestFor op) := by
    intro texts
    induction texts with
    | nil => simp
    | cons first rest ih =>
      intro state
      rw [foldl_cons, ih, executeOperation]
      by_cases hempty : first = stillEmpty
      · simp [hempty]
      · by_cases hfound : findServer (parseOperationString first port).2.hostname
            (parseOperationString first port).2.port = true
        · simp [hempty, operationOf, hfound, requestFor, DistributedRepairChunkOp.requestOf]
        · simp [hempty, operationOf, hfound]
  rw [execute, hfold]
  rfl

/-! ## One record -/

/-- The record of an operation. -/
def RepairOperation.record (operation : RepairOperation) : List Char :=
  operationRecord operation.time operation.chunkId operation.chunkVersion operation.chunkSize
    operation.decodingCoefficient (ServerLocation.hostPortStr ⟨operation.hostname, operation.port⟩)

/-- The record up to the host name. -/
def RepairOperation.numbers (operation : RepairOperation) : List Char :=
  decimalInt operation.time ++ 'C' :: (decimalInt operation.chunkId ++
    'V' :: (decimalInt operation.chunkVersion ++ 'S' :: (decimalInt operation.chunkSize ++
      'D' :: decimalInt operation.decodingCoefficient)))

namespace RepairOperation

variable (operation : RepairOperation)

theorem record_eq : operation.record = operation.numbers ++
    '-' :: (operation.hostname ++ ':' :: decimalInt operation.port) := by
  simp [record, numbers, operationRecord, ServerLocation.hostPortStr]

theorem notMem_numbers {char : Char} (hdigit : decimalDigit char = none) (hsign : char ≠ '-')
    (hmarks : char ∉ ['C', 'V', 'S', 'D']) : char ∉ operation.numbers := by
  have hnumber := notMem_decimalInt hdigit hsign
  simp only [mem_cons, not_mem_nil, or_false, not_or] at hmarks
  obtain ⟨hC, hV, hS, hD⟩ := hmarks
  simp [numbers, hnumber, hC, hV, hS, hD]

end RepairOperation

theorem substr_between {text front middle back : List Char} {char : Char}
    (htext : text = front ++ char :: (middle ++ back)) :
    substr text (front.length + 1) (front ++ char :: middle).length = middle := by
  rw [htext, substr, length_append, length_cons, if_neg (by omega), ← drop_drop, drop_left,
    drop_one, tail_cons, Nat.add_sub_add_left, Nat.add_sub_cancel, take_left]

/-- The parts of a text, where every mark is the first of its kind. -/
theorem parseOperationString_eq
    {text time chunk version size rest front host portStr : List Char} (port : ℤ)
    (htext : text = time ++ 'C' :: (chunk ++ 'V' :: (version ++ 'S' :: (size ++ 'D' :: rest))))
    (hchunk : 'C' ∉ time) (hversion : 'V' ∉ time ++ 'C' :: chunk)
    (hsize : 'S' ∉ time ++ 'C' :: chunk ++ 'V' :: version)
    (hop : 'D' ∉ time ++ 'C' :: chunk ++ 'V' :: version ++ 'S' :: size)
    (hip : text = front ++ '-' :: (host ++ ':' :: portStr)) (hfront : '-' ∉ front)
    (hhost : ':' ∉ host) :
    parseOperationString text port =
      (0, { temporalTime := time
            chunkIdStr := chunk
            chunkVersion := version
            chunkSize := size
            decodeCoefficient := substr text
              ((time ++ 'C' :: chunk ++ 'V' :: version ++ 'S' :: size).length + 1) front.length
            hostname := host
            port := atoi portStr }) := by
  -- The text as it is cut at each of its marks.
  have hatVersion : text = time ++ 'C' :: chunk ++
      'V' :: (version ++ 'S' :: (size ++ 'D' :: rest)) := by simp [htext]
  have hatSize : text = time ++ 'C' :: chunk ++ 'V' :: version ++
      'S' :: (size ++ 'D' :: rest) := by simp [htext]
  have hatOp : text = time ++ 'C' :: chunk ++ 'V' :: version ++ 'S' :: size ++
      'D' :: rest := by simp [htext]
  have hserver : text.drop (front.length + 1) = host ++ ':' :: portStr := by
    rw [hip, ← drop_drop, drop_left, drop_one, tail_cons]
  rw [parseOperationString, findText_of_eq htext hchunk]
  rw [findText_of_eq hatVersion hversion]
  rw [findText_of_eq hatSize hsize]
  rw [findText_of_eq hatOp hop]
  dsimp only
  rw [findText_of_eq hip hfront, map_some, getD_some, getD_some, hserver,
    findText_singleton hhost, getD_some, map_some, getD_some, take_left, ← drop_drop, drop_left,
    drop_one, tail_cons, substr_between htext, substr_between hatVersion, substr_between hatSize]
  rw [htext, take_left]

namespace RepairOperation

/-- The record up to the mark of the coefficient. -/
def upToCoefficient (operation : RepairOperation) : List Char :=
  decimalInt operation.time ++ 'C' :: (decimalInt operation.chunkId ++
    'V' :: (decimalInt operation.chunkVersion ++ 'S' :: decimalInt operation.chunkSize))

/-- The record read back, where the part up to the first minus sign is given. -/
theorem parse_record (operation : RepairOperation) (port : ℤ) {front host : List Char}
    (hrecord : operation.record = front ++ '-' :: (host ++ ':' :: decimalInt operation.port))
    (hfront : '-' ∉ front) (hhost : ':' ∉ host) :
    (parseOperationString operation.record port).2 =
      { temporalTime := decimalInt operation.time
        chunkIdStr := decimalInt operation.chunkId
        chunkVersion := decimalInt operation.chunkVersion
        chunkSize := decimalInt operation.chunkSize
        decodeCoefficient := substr operation.record (operation.upToCoefficient.length + 1)
          front.length
        hostname := host
        port := atoi (decimalInt operation.port) } := by
  have hC : ∀ value, 'C' ∉ decimalInt value := notMem_decimalInt rfl (by decide)
  have hV : ∀ value, 'V' ∉ decimalInt value := notMem_decimalInt rfl (by decide)
  have hS : ∀ value, 'S' ∉ decimalInt value := notMem_decimalInt rfl (by decide)
  have hD : ∀ value, 'D' ∉ decimalInt value := notMem_decimalInt rfl (by decide)
  have hparse := @parseOperationString_eq operation.record _ _ _ _ _ _ _ _ port rfl (hC _)
    (by simp [hV]) (by simp [hS]) (by simp [hD]) hrecord hfront hhost
  rw [hparse, upToCoefficient]
  simp only [append_assoc, cons_append]

/-- The values an operation can have: `int` times, coefficients and ports, 64 bit
ids and versions, and host names without colon and white space. -/
structure Typed (operation : RepairOperation) : Prop where
  time : -2 ^ 31 ≤ operation.time ∧ operation.time < 2 ^ 31
  chunkId : -2 ^ 63 ≤ operation.chunkId ∧ operation.chunkId < 2 ^ 63
  chunkVersion : -2 ^ 63 ≤ operation.chunkVersion ∧ operation.chunkVersion < 2 ^ 63
  chunkSize : operation.chunkSize = Destination.chunkSize
  decodingCoefficient : -2 ^ 31 ≤ operation.decodingCoefficient ∧
    operation.decodingCoefficient < 2 ^ 31
  port : -2 ^ 31 ≤ operation.port ∧ operation.port < 2 ^ 31
  hostname : ∀ char ∈ operation.hostname, char ≠ ':' ∧ isSpace char = false

/-- No number before the host name is negative, and ids and versions have 32
bits. -/
structure Readable (operation : RepairOperation) : Prop where
  time : 0 ≤ operation.time
  chunkId : 0 ≤ operation.chunkId ∧ operation.chunkId < 2 ^ 31
  chunkVersion : 0 ≤ operation.chunkVersion ∧ operation.chunkVersion < 2 ^ 31
  decodingCoefficient : 0 ≤ operation.decodingCoefficient

variable {operation : RepairOperation}

theorem minus_mem_numbers (hsize : 0 ≤ operation.chunkSize) :
    '-' ∈ operation.numbers ↔ operation.time < 0 ∨ operation.chunkId < 0 ∨
      operation.chunkVersion < 0 ∨ operation.decodingCoefficient < 0 := by
  simp [numbers, minus_mem_decimalInt, not_lt.mpr hsize]

theorem Typed.colon_notMem (htyped : operation.Typed) : ':' ∉ operation.hostname :=
  fun hmem => (htyped.hostname ':' hmem).1 rfl

/-- A record is read back exactly when its operation is readable. -/
theorem operationOf_record_iff (htyped : operation.Typed) (port : ℤ) :
    operationOf (parseOperationString operation.record port).2 = operation ↔
      operation.Readable := by
  have hsize : 0 ≤ operation.chunkSize := by
    rw [htyped.chunkSize]
    exact Int.natCast_nonneg _
  have hsmall : operation.chunkSize < 2 ^ 31 := by
    rw [htyped.chunkSize]
    decide
  have hcolon := htyped.colon_notMem
  by_cases hminus : '-' ∈ operation.numbers
  · -- The host name starts behind the first minus sign.
    have hnegative := (minus_mem_numbers hsize).mp hminus
    refine iff_of_false ?_ ?_
    · obtain ⟨front, tail, hnumbers, hfront⟩ := eq_append_cons_of_mem hminus
      have hnoColon : ':' ∉ operation.numbers :=
        operation.notMem_numbers rfl (by decide) (by decide)
      have htail : ':' ∉ tail := by
        intro hmem
        rw [hnumbers] at hnoColon
        exact hnoColon (mem_append_right _ (mem_cons_of_mem _ hmem))
      have hrecord : operation.record = front ++
          '-' :: ((tail ++ '-' :: operation.hostname) ++ ':' :: decimalInt operation.port) := by
        rw [record_eq, hnumbers]
        simp
      intro heq
      have hhost := congrArg RepairOperation.hostname heq
      rw [operation.parse_record port hrecord hfront (by simp [htail, hcolon])] at hhost
      have hlength := congrArg length hhost
      rw [operationOf, length_append, length_cons] at hlength
      omega
    · intro hreadable
      obtain ⟨htime, hchunkId, hchunkVersion, hcoefficient⟩ := hreadable
      omega
  · have hnonnegative := (not_congr (minus_mem_numbers hsize)).mp hminus
    have hparse := operation.parse_record port operation.record_eq hminus hcolon
    have hcoefficient : substr operation.record (operation.upToCoefficient.length + 1)
        operation.numbers.length = decimalInt operation.decodingCoefficient := by
      have hnumbers : operation.numbers = operation.upToCoefficient ++
          'D' :: decimalInt operation.decodingCoefficient := by
        simp [numbers, upToCoefficient]
      have hrecord := operation.record_eq
      rw [hnumbers, append_assoc] at hrecord
      rw [hnumbers]
      exact substr_between hrecord
    rw [hcoefficient] at hparse
    rw [hparse, operationOf, RepairOperation.mk.injEq]
    dsimp only
    have hwide : ∀ value : ℤ, -2 ^ 31 ≤ value ∧ value < 2 ^ 31 →
        atoi (decimalInt value) = value := by
      rintro value ⟨hlow, hhigh⟩
      exact (atoi_decimalInt_eq_iff (by omega) (by omega)).mpr ⟨hlow, hhigh⟩
    rw [atoi_decimalInt_eq_iff htyped.chunkId.1 htyped.chunkId.2,
      atoi_decimalInt_eq_iff htyped.chunkVersion.1 htyped.chunkVersion.2]
    constructor
    · rintro ⟨-, hchunkId, hchunkVersion, -⟩
      exact ⟨by omega, ⟨by omega, hchunkId.2⟩, ⟨by omega, hchunkVersion.2⟩, by omega⟩
    · rintro ⟨-, hchunkId, hchunkVersion, -⟩
      exact ⟨hwide _ htyped.time, ⟨by omega, hchunkId.2⟩, ⟨by omega, hchunkVersion.2⟩,
        hwide _ ⟨by omega, hsmall⟩, hwide _ htyped.decodingCoefficient, rfl, hwide _ htyped.port⟩

/-! ## The records of a list -/

theorem borderFree_timeMarker : BorderFree timeMarker := by decide

theorem notMem_record (htyped : operation.Typed) : ' ' ∉ operation.record := by
  have hnumbers : ' ' ∉ operation.numbers := operation.notMem_numbers rfl (by decide) (by decide)
  have hport : ' ' ∉ decimalInt operation.port := notMem_decimalInt rfl (by decide) _
  have hhost : ' ' ∉ operation.hostname := by
    intro hmem
    exact absurd (htyped.hostname ' ' hmem).2 (by decide)
  rw [record_eq]
  simp [hnumbers, hport, hhost]

/-- Only the host name can have the marker. -/
theorem marker_infix_record_iff :
    timeMarker <:+: operation.record ↔ timeMarker <:+: operation.hostname := by
  have hdigits : ∀ value, ¬ timeMarker <:+: decimalInt value := by
    intro value hinside
    have hnone : 'T' ∉ decimalInt value := notMem_decimalInt rfl (by decide) value
    exact hnone (hinside.subset (by decide))
  constructor
  · intro hinside
    rw [record_eq] at hinside
    have hnumbers : 'T' ∉ operation.numbers := operation.notMem_numbers rfl (by decide) (by decide)
    rcases infix_append_cons (by decide) hinside with hnumber | hserver
    · exact absurd (hnumber.subset (by decide)) hnumbers
    · rcases infix_append_cons (by decide) hserver with hhost | hport
      · exact hhost
      · exact absurd hport (hdigits _)
  · intro hinside
    refine hinside.trans ⟨operation.numbers ++ ['-'], ':' :: decimalInt operation.port, ?_⟩
    rw [record_eq]
    simp

theorem record_ne_nil (operation : RepairOperation) : operation.record ≠ [] := by
  rw [record_eq]
  simp

/-- A marker in the host name cuts the record. -/
theorem two_le_parts_record (hmarker : timeMarker <:+: operation.hostname) :
    2 ≤ (parts operation.record timeMarker).length := by
  obtain ⟨front, back, hhost⟩ := hmarker
  have hrecord : operation.record = (operation.numbers ++ '-' :: front) ++
      (timeMarker ++ (back ++ ':' :: decimalInt operation.port)) := by
    rw [record_eq, ← hhost]
    simp
  have hfront : '-' ∈ operation.numbers ++ '-' :: front := by simp
  have hback : ':' ∈ back ++ ':' :: decimalInt operation.port := by simp
  obtain ⟨first, hfirst, -⟩ := exists_mem_parts borderFree_timeMarker hfront (by decide)
  obtain ⟨second, hsecond, -⟩ := exists_mem_parts borderFree_timeMarker hback (by decide)
  rw [hrecord, parts_append borderFree_timeMarker, length_append]
  exact Nat.add_le_add (length_pos_of_mem hfirst) (length_pos_of_mem hsecond)

theorem one_le_parts_record (operation : RepairOperation) :
    1 ≤ (parts operation.record timeMarker).length := by
  have hminus : '-' ∈ operation.record := by
    rw [record_eq]
    simp
  obtain ⟨part, hpart, -⟩ := exists_mem_parts borderFree_timeMarker hminus (by decide)
  exact length_pos_of_mem hpart

end RepairOperation

/-- The text of a list of operations. -/
def operationText (operations : List RepairOperation) : List Char :=
  (operations.map RepairOperation.record).flatMap (timeMarker ++ ·)

theorem parts_operationText (operations : List RepairOperation) :
    parts (operationText operations) timeMarker =
      operations.flatMap fun operation => parts operation.record timeMarker := by
  have hparts := parts_flatMap RepairOperation.borderFree_timeMarker
    (operations.map RepairOperation.record) []
  rw [nil_append, parts_nil, nil_append] at hparts
  rw [operationText, hparts, flatMap_map]

variable {operations : List RepairOperation}

theorem notMem_operationText (htyped : ∀ operation ∈ operations, operation.Typed) :
    ' ' ∉ operationText operations := by
  rw [operationText, mem_flatMap]
  rintro ⟨text, htext, hmem⟩
  obtain ⟨operation, hoperation, rfl⟩ := mem_map.mp htext
  rcases mem_append.mp hmem with hmarker | hrecord
  · exact absurd hmarker (by decide)
  · exact RepairOperation.notMem_record (htyped operation hoperation) hrecord

theorem length_eq_one_of_flatMap {Item Part : Type*} {cut : Item → List Part} {items : List Item}
    (hpositive : ∀ item ∈ items, 1 ≤ (cut item).length)
    (hlength : (items.flatMap cut).length ≤ items.length) :
    ∀ item ∈ items, (cut item).length = 1 := by
  have hle : ∀ items : List Item, (∀ item ∈ items, 1 ≤ (cut item).length) →
      items.length ≤ (items.flatMap cut).length := by
    intro items
    induction items with
    | nil => simp
    | cons first rest ih =>
      intro hpositive
      have hrest := ih fun item hitem => hpositive item (mem_cons_of_mem _ hitem)
      have hfirst := hpositive first mem_cons_self
      rw [flatMap_cons, length_append, length_cons]
      omega
  induction items with
  | nil => simp
  | cons first rest ih =>
    have hfirst := hpositive first mem_cons_self
    have hrest := hle rest fun item hitem => hpositive item (mem_cons_of_mem _ hitem)
    rw [flatMap_cons, length_append, length_cons] at hlength
    intro item hitem
    rcases mem_cons.mp hitem with rfl | hitem
    · omega
    · exact ih (fun item hitem => hpositive item (mem_cons_of_mem _ hitem)) (by omega) item
        hitem

section RoundTrip

variable {operations : List RepairOperation} (htyped : ∀ operation ∈ operations, operation.Typed)

include htyped

variable (port : ℤ)

/-- The number of records read is at least the number of parts of the text. -/
theorem length_parts_le :
    (parts (operationText operations) timeMarker).length ≤
      (parseOperations port (operationText operations)).length := by
  rw [parseOperations, length_map, parts, ← countP_eq_length_filter, ← countP_eq_length_filter]
  refine countP_mono_left fun part hpart hne => ?_
  have hmem : part ∈ parts (operationText operations) timeMarker := mem_filter.mpr ⟨hpart, hne⟩
  refine decide_eq_true fun hempty => notMem_operationText htyped ?_
  refine mem_of_mem_parts RepairOperation.borderFree_timeMarker hmem ?_
  rw [hempty]
  decide

theorem parseOperations_of_free (hne : operations ≠ [])
    (hfree : ∀ operation ∈ operations, ¬ timeMarker <:+: operation.hostname) :
    parseOperations port (operationText operations) =
      operations.map fun operation =>
        operationOf (parseOperationString operation.record port).2 := by
  have hsplit : split (operationText operations) timeMarker =
      operations.map RepairOperation.record := by
    refine split_flatMap RepairOperation.borderFree_timeMarker (by simpa using hne) ?_
    intro text htext
    obtain ⟨operation, hoperation, rfl⟩ := mem_map.mp htext
    exact ⟨operation.record_ne_nil,
      (not_congr RepairOperation.marker_infix_record_iff).mpr (hfree operation hoperation)⟩
  have hkept : (operations.map RepairOperation.record).filter
      (fun operationStr => decide (operationStr ≠ stillEmpty)) =
        operations.map RepairOperation.record := by
    refine filter_eq_self.mpr fun text htext => decide_eq_true fun hempty => ?_
    obtain ⟨operation, hoperation, rfl⟩ := mem_map.mp htext
    refine RepairOperation.notMem_record (htyped operation hoperation) ?_
    rw [hempty]
    decide
  rw [parseOperations, hsplit, hkept, map_map]
  rfl

theorem parseOperations_eq_iff :
    parseOperations port (operationText operations) = operations ↔
      operations ≠ [] ∧ ∀ operation ∈ operations,
        operation.Readable ∧ ¬ timeMarker <:+: operation.hostname := by
  have hreadable : (operations.map fun operation =>
      operationOf (parseOperationString operation.record port).2) = operations ↔
        ∀ operation ∈ operations, operation.Readable := by
    conv_lhs => rhs; rw [← map_id operations]
    rw [map_inj_left]
    exact forall₂_congr fun operation hoperation =>
      RepairOperation.operationOf_record_iff (htyped operation hoperation) port
  constructor
  · intro heq
    have hne : operations ≠ [] := by
      rintro rfl
      have hlength := congrArg length heq
      change 1 = 0 at hlength
      omega
    have hcount := length_parts_le htyped port
    rw [heq, parts_operationText] at hcount
    have hone := length_eq_one_of_flatMap
      (fun operation _ => operation.one_le_parts_record) hcount
    have hfree : ∀ operation ∈ operations, ¬ timeMarker <:+: operation.hostname := by
      intro operation hoperation hmarker
      have htwo := RepairOperation.two_le_parts_record hmarker
      have hparts := hone operation hoperation
      omega
    rw [parseOperations_of_free htyped port hne hfree, hreadable] at heq
    exact ⟨hne, fun operation hoperation => ⟨heq operation hoperation, hfree operation hoperation⟩⟩
  · rintro ⟨hne, hall⟩
    rw [parseOperations_of_free htyped port hne fun operation hoperation =>
      (hall operation hoperation).2, hreadable]
    exact fun operation hoperation => (hall operation hoperation).1

end RoundTrip

section Populate

variable (chunkIds : List (Name × ℤ)) (chunkVersion : ℤ → Option ℤ)

/-- The text that is built for an operation map. -/
theorem populate_eq {entries : List OperationEntry}
    (hoperations : entries.mapM (OperationEntry.operation chunkIds chunkVersion) =
      some operations) :
    populateChunkServerOpListString chunkIds chunkVersion (entries.map OperationEntry.mapped) =
      some (operationText operations) := by
  have hfold : ∀ (entries : List OperationEntry) (operations : List RepairOperation)
      (text : List Char),
      entries.mapM (OperationEntry.operation chunkIds chunkVersion) = some operations →
      (entries.map OperationEntry.mapped).foldlM
        (fun text entry =>
          let relevantChunkId := (KeyedList.find entry.2.hostingServer chunkIds).getD 0
          (chunkVersion relevantChunkId).map fun version =>
            text ++ (timeMarker ++ operationRecord entry.1 relevantChunkId version chunkSize
              entry.2.decodingCoeff entry.2.hostingServer)) text =
        some (text ++ operationText operations) := by
    intro entries
    induction entries with
    | nil =>
      intro operations text hmap
      obtain rfl := some.inj hmap
      simp [operationText]
    | cons first rest ih =>
      intro operations text hmap
      rw [mapM_cons] at hmap
      obtain ⟨operation, hoperation, hmap⟩ := bind_eq_some_iff.mp hmap
      obtain ⟨others, hothers, hmap⟩ := bind_eq_some_iff.mp hmap
      obtain rfl := some.inj hmap
      obtain ⟨version, hversion, rfl⟩ := map_eq_some_iff.mp hoperation
      change ((chunkVersion ((KeyedList.find first.location.hostPortStr chunkIds).getD 0)).map
        _).bind _ = _
      rw [hversion, map_some, bind_some, ih others _ hothers]
      simp [operationText, RepairOperation.record, OperationEntry.mapped]
  have hempty := hfold entries operations [] hoperations
  rwa [nil_append] at hempty

/-- The chunk server reads the operations of the map exactly when there is one,
all are readable, and no host name has the marker in it. -/
theorem opListString_roundTrip_iff {entries : List OperationEntry}
    {operations : List RepairOperation}
    (hoperations : entries.mapM (OperationEntry.operation chunkIds chunkVersion) = some operations)
    (htyped : ∀ operation ∈ operations, operation.Typed) (port : ℤ) :
    ∃ text, populateChunkServerOpListString chunkIds chunkVersion
        (entries.map OperationEntry.mapped) = some text ∧
      (parseOperations port text = operations ↔
        operations ≠ [] ∧ ∀ operation ∈ operations,
          operation.Readable ∧ ¬ timeMarker <:+: operation.hostname) :=
  ⟨operationText operations, populate_eq chunkIds chunkVersion hoperations,
    parseOperations_eq_iff htyped port⟩

end Populate

/-- A map of one operation for chunk `chunkId` on the server `h:1`. -/
def singleChunk (chunkId : ℤ) : List (Name × ℤ) := [(['h', ':', '1'], chunkId)]

def singleEntry : OperationEntry := ⟨2, 3, ⟨['h'], 1⟩⟩

def singleOperation (chunkId : ℤ) : RepairOperation :=
  ⟨2, chunkId, 4, chunkSize, 3, ['h'], 1⟩

theorem singleOperation_typed {chunkId : ℤ} (hlow : 0 ≤ chunkId) (hhigh : chunkId < 2 ^ 63) :
    (singleOperation chunkId).Typed where
  time := by simp [singleOperation]
  chunkId := ⟨by change -2 ^ 63 ≤ chunkId; omega, hhigh⟩
  chunkVersion := by simp [singleOperation]
  chunkSize := rfl
  decodingCoefficient := by simp [singleOperation]
  port := by simp [singleOperation]
  hostname := by
    intro char hchar
    rw [mem_singleton.mp hchar]
    decide

theorem opListString_roundTrip_single :
    ∃ text, populateChunkServerOpListString (singleChunk 5) (fun _ => some 4)
        [singleEntry.mapped] = some text ∧ parseOperations 0 text = [singleOperation 5] := by
  have hoperations : [singleEntry].mapM
      (OperationEntry.operation (singleChunk 5) fun _ => some 4) = some [singleOperation 5] := by
    decide
  obtain ⟨text, htext, hparsed⟩ := opListString_roundTrip_iff (singleChunk 5) (fun _ => some 4)
    hoperations (forall_mem_singleton.mpr (singleOperation_typed (by decide) (by decide))) 0
  refine ⟨text, htext, hparsed.mpr ⟨by simp, forall_mem_singleton.mpr ⟨?_, by decide⟩⟩⟩
  exact ⟨by decide, by decide, by decide, by decide⟩

/-- A chunk id above 32 bits is read as another id. -/
theorem not_roundTrip_large_chunkId :
    (singleOperation (2 ^ 32 + 5)).Typed ∧
      (populateChunkServerOpListString (singleChunk (2 ^ 32 + 5)) (fun _ => some 4)
        [singleEntry.mapped]).map (parseOperations 0) = some [singleOperation 5] := by
  exact ⟨singleOperation_typed (by decide) (by decide), by decide⟩

end QfsRepair.Repair
