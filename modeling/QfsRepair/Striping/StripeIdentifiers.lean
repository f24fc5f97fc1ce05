import QfsRepair.Store.KeyedList
import QfsRepair.Striping.BlockWrites

/-!
# Stripe identifiers

All writers of a client take their identifiers from the clock and one counter,
anew in every call of `Process`.  The metaserver files the chunks under the
identifiers of the writes that create them.  Where each call writes one chunk
block, and the identifiers do not reach the end of the 64 bit range, the chunks
of a block are found under one identifier, and no others are.
-/

namespace QfsRepair.Striping

open Function List
open Machine Store Text KeyedList

/-! ## The identifier of a call -/

/-- The number that the digits of the time and the counter make. -/
def identifierNumber (now count : ℕ) : ℕ := now * 10 ^ (decimal count).length + count

theorem decimalInt_natCast (value : ℕ) : decimalInt value = decimal value := by
  rw [decimalInt, if_neg (by omega), Int.natAbs_natCast]

theorem stripeIdentifierOf_eq {now count : ℕ} (hrange : identifierNumber now count < 2 ^ 63) :
    stripeIdentifierOf now count = identifierNumber now count := by
  have hnumber : signedNumber (decimalInt now ++ decimalInt count) =
      identifierNumber now count := by
    have hdigits := leadingNumber_decimal now count []
    rw [append_nil, leadingNumber] at hdigits
    rw [decimalInt_natCast, decimalInt_natCast, signedNumber_decimal, hdigits, identifierNumber]
  rw [stripeIdentifierOf, strtoll]
  omega

theorem identifierNumber_lt {now now' count count' : ℕ} (hnow : now ≤ now')
    (hcount : count < count') : identifierNumber now count < identifierNumber now' count' := by
  have hpow : 10 ^ (decimal count).length ≤ 10 ^ (decimal count').length :=
    Nat.pow_le_pow_right (by omega) (length_decimal_mono hcount.le)
  have hproduct := Nat.mul_le_mul hnow hpow
  rw [identifierNumber, identifierNumber]
  omega

/-! ## Files and their chunks -/

/-- A striped file of the client. -/
structure StripedFile where
  stripeSize : ℤ
  stripeCount : ℤ
  recoveryStripeCount : ℤ
  valid : ValidParameters stripeSize stripeCount recoveryStripeCount
  encode : (ℕ → Byte) → ℕ → Byte
  queueWrite : List QueuedWrite → ℤ → ℤ → ℤ → ℤ

namespace StripedFile

def environment (file : StripedFile) : WriteEnvironment :=
  ⟨RSStriper.create file.stripeSize file.stripeCount file.recoveryStripeCount, file.encode,
    file.queueWrite⟩

/-- Chunks of a chunk block. -/
def chunkCount (file : StripedFile) : ℤ := file.stripeCount + file.recoveryStripeCount

/-- Data bytes of a chunk block. -/
def blockSize (file : StripedFile) : ℤ := CHUNKSIZE * file.stripeCount

def layout (file : StripedFile) : Layout := file.valid.layout

theorem chunkSize_eq (file : StripedFile) : CHUNKSIZE = file.layout.chunkSize :=
  file.valid.chunkSize_eq

theorem chunkCount_eq (file : StripedFile) :
    file.chunkCount = (file.layout.stripeCount + file.layout.recoveryCount : ℕ) := by
  have hcount := file.valid.stripeCount_eq
  have hrecovery := file.valid.recoveryStripeCount_eq
  rw [chunkCount, layout]
  omega

theorem blockSize_eq (file : StripedFile) : file.blockSize = file.layout.blockSize := by
  have hcount : file.stripeCount = file.layout.stripeCount := file.valid.stripeCount_eq
  rw [blockSize, file.chunkSize_eq, hcount, Layout.blockSize_eq, Nat.cast_mul, mul_comm]

end StripedFile

/-- The number of the chunk in its file. -/
def QueuedWrite.chunk (queuedWrite : QueuedWrite) : ℤ := queuedWrite.offset / CHUNKSIZE

/-- A write, with the file that it belongs to. -/
abbrev LoggedWrite := ℕ × QueuedWrite

section Chunks

variable (files : ℕ → StripedFile)

def LoggedWrite.block (entry : LoggedWrite) : ℤ := entry.2.chunk / (files entry.1).chunkCount

def LoggedWrite.index (entry : LoggedWrite) : ℤ := entry.2.chunk % (files entry.1).chunkCount

end Chunks

/-- `stripeIdentifierToChunkIDMap`: chunks by identifier and index; a chunk stands
for its identifier. -/
abbrev StripeMap := List (ℤ × List (ℤ × (ℕ × ℤ)))

/-- What the allocation of a chunk does to the map. -/
def StripeMap.add (map : StripeMap) (stripeIdentifier chunkIndex : ℤ) (chunk : ℕ × ℤ) :
    StripeMap :=
  match find stripeIdentifier map with
  | none => assign stripeIdentifier (assign chunkIndex chunk []) map
  | some chunks => assign stripeIdentifier (assign chunkIndex chunk chunks) map

def StripeMap.chunkAt (map : StripeMap) (stripeIdentifier chunkIndex : ℤ) : Option (ℕ × ℤ) :=
  (find stripeIdentifier map).bind (find chunkIndex)

/-- The map after the chunks of all writes are allocated. -/
def stripeMap (log : List LoggedWrite) : StripeMap :=
  log.foldl (fun map entry =>
    map.add entry.2.stripeIdentifier entry.2.chunkIndex (entry.1, entry.2.chunk)) []

/-- Writes carry the index of their stripe, and an identifier that stands for their
chunk block; so the map has under the identifier of a block the chunks written
of this block, each at its index. -/
structure Grouped (files : ℕ → StripedFile) (log : List LoggedWrite) : Prop where
  chunkIndex : ∀ entry ∈ log, entry.2.chunkIndex = LoggedWrite.index files entry
  identifier : ∀ left ∈ log, ∀ right ∈ log,
    left.2.stripeIdentifier = right.2.stripeIdentifier ↔
      left.1 = right.1 ∧ LoggedWrite.block files left = LoggedWrite.block files right
  map : ∀ entry ∈ log, ∀ index chunk,
    (stripeMap log).chunkAt entry.2.stripeIdentifier index = some chunk ↔
      ∃ other ∈ log, other.1 = entry.1 ∧
        LoggedWrite.block files other = LoggedWrite.block files entry ∧
        index = LoggedWrite.index files other ∧ chunk = (other.1, other.2.chunk)

theorem StripeMap.chunkAt_add (map : StripeMap) (stripeIdentifier chunkIndex : ℤ)
    (chunk : ℕ × ℤ) (identifier index : ℤ) :
    (map.add stripeIdentifier chunkIndex chunk).chunkAt identifier index =
      if identifier = stripeIdentifier ∧ index = chunkIndex then some chunk
      else map.chunkAt identifier index := by
  have hinner : ∀ chunks : List (ℤ × (ℕ × ℤ)),
      find index (assign chunkIndex chunk chunks) =
        if index = chunkIndex then some chunk else find index chunks := by
    intro chunks
    by_cases hindex : index = chunkIndex
    · rw [if_pos hindex, hindex, find_assign_self]
    · rw [if_neg hindex, find_assign_of_ne hindex]
  by_cases hidentifier : identifier = stripeIdentifier
  · subst hidentifier
    cases hfind : find identifier map with
    | none =>
      simp only [add, chunkAt, hfind, find_assign_self, Option.bind_some, hinner,
        true_and, Option.bind_none]
      rfl
    | some chunks =>
      simp [add, chunkAt, hfind, find_assign_self, Option.bind_some, hinner, true_and]
  · rw [if_neg (by tauto)]
    cases hfind : find stripeIdentifier map <;>
      simp [add, chunkAt, hfind, find_assign_of_ne hidentifier]

variable {log : List LoggedWrite}

/-- If identifier and index determine the chunk, the map holds the chunks of all
writes. -/
theorem chunkAt_stripeMap
    (hunique : ∀ left ∈ log, ∀ right ∈ log,
      left.2.stripeIdentifier = right.2.stripeIdentifier →
      left.2.chunkIndex = right.2.chunkIndex →
      (left.1, left.2.chunk) = (right.1, right.2.chunk)) (identifier index : ℤ) (chunk : ℕ × ℤ) :
    (stripeMap log).chunkAt identifier index = some chunk ↔
      ∃ entry ∈ log, entry.2.stripeIdentifier = identifier ∧ entry.2.chunkIndex = index ∧
        (entry.1, entry.2.chunk) = chunk := by
  induction log using reverseRecOn with
  | nil => simp [stripeMap, StripeMap.chunkAt, find]
  | append_singleton log last ih =>
    have hbefore := ih fun left hleft right hright =>
      hunique left (mem_append_left _ hleft) right (mem_append_left _ hright)
    have hlast : last ∈ log ++ [last] := by simp
    rw [stripeMap, foldl_append, foldl_cons, foldl_nil, StripeMap.chunkAt_add]
    by_cases hsame : identifier = last.2.stripeIdentifier ∧ index = last.2.chunkIndex
    · obtain ⟨rfl, rfl⟩ := hsame
      rw [if_pos ⟨rfl, rfl⟩]
      constructor
      · intro heq
        exact ⟨last, hlast, rfl, rfl, Option.some.inj heq⟩
      · rintro ⟨entry, hentry, hidentifier, hindex, rfl⟩
        rw [hunique entry hentry last hlast hidentifier hindex]
    · rw [if_neg hsame]
      refine hbefore.trans ⟨?_, ?_⟩
      · rintro ⟨entry, hentry, hrest⟩
        exact ⟨entry, mem_append_left _ hentry, hrest⟩
      · rintro ⟨entry, hentry, hidentifier, hindex, hchunk⟩
        rcases mem_append.mp hentry with hmem | hmem
        · exact ⟨entry, hmem, hidentifier, hindex, hchunk⟩
        · rw [mem_singleton.mp hmem] at hidentifier hindex
          exact absurd ⟨hidentifier.symm, hindex.symm⟩ hsame

/-- The map follows from the writes. -/
theorem grouped_of_writes {files : ℕ → StripedFile}
    (hindex : ∀ entry ∈ log, entry.2.chunkIndex = LoggedWrite.index files entry)
    (hidentifier : ∀ left ∈ log, ∀ right ∈ log,
      left.2.stripeIdentifier = right.2.stripeIdentifier ↔
        left.1 = right.1 ∧ LoggedWrite.block files left = LoggedWrite.block files right) :
    Grouped files log := by
  refine ⟨hindex, hidentifier, ?_⟩
  have hunique : ∀ left ∈ log, ∀ right ∈ log,
      left.2.stripeIdentifier = right.2.stripeIdentifier →
      left.2.chunkIndex = right.2.chunkIndex →
      (left.1, left.2.chunk) = (right.1, right.2.chunk) := by
    intro left hleft right hright hsame hsameIndex
    obtain ⟨hwriter, hblock⟩ := (hidentifier left hleft right hright).mp hsame
    rw [hindex left hleft, hindex right hright] at hsameIndex
    simp only [LoggedWrite.index, LoggedWrite.block, hwriter] at hsameIndex hblock
    have hleftSplit := Int.mul_ediv_add_emod left.2.chunk (files right.1).chunkCount
    have hrightSplit := Int.mul_ediv_add_emod right.2.chunk (files right.1).chunkCount
    rw [hsameIndex, hblock, hrightSplit] at hleftSplit
    rw [hwriter, hleftSplit]
  intro entry hentry index chunk
  rw [chunkAt_stripeMap hunique]
  constructor
  · rintro ⟨other, hother, hsame, rfl, rfl⟩
    obtain ⟨hwriter, hblock⟩ := (hidentifier other hother entry hentry).mp hsame
    exact ⟨other, hother, hwriter, hblock, hindex other hother, rfl⟩
  · rintro ⟨other, hother, hwriter, hblock, rfl, rfl⟩
    exact ⟨other, hother, (hidentifier other hother entry hentry).mpr ⟨hwriter, hblock⟩,
      hindex other hother, rfl⟩

/-! ## The client -/

/-- The shared counter, the last time read from the clock, the writers by file, and
all writes in order. -/
structure Client where
  count : ℤ := 0
  now : ℤ := 0
  writers : ℕ → RSWriteStriper
  log : List LoggedWrite := []

/-- A call of `Process`. -/
structure ClientCall where
  file : ℕ
  ioOffset : ℤ
  arguments : ProcessCall

def Client.start (fileSizes : ℕ → ℤ) : Client where
  writers file := RSWriteStriper.create (fileSizes file)

/-- One call; the writes that it queues are added to the log. -/
def Client.step (files : ℕ → StripedFile) (client : Client) (call : ClientCall) : Option Client :=
  (process (files call.file).environment call.arguments client.count call.ioOffset
      (client.writers call.file)).map fun result =>
    { count := result.count
      now := call.arguments.now
      writers := update client.writers call.file result.state
      log := client.log ++ (result.state.queued.drop
        (client.writers call.file).queued.length).map fun queuedWrite => (call.file, queuedWrite) }

def Client.run (files : ℕ → StripedFile) (client : Client) (calls : List ClientCall) :
    Option Client :=
  calls.foldlM (Client.step files) client

/-- The call finds nothing pending and writes full strides of a chunk block that was
not written before; its identifier is in range. -/
structure BlockCall (files : ℕ → StripedFile) (client : Client) (call : ClientCall) : Prop where
  clock : client.now ≤ call.arguments.now
  count_nonneg : 0 ≤ client.count
  identifier_lt : identifierNumber call.arguments.now.toNat client.count.toNat < 2 ^ 63
  pendingCount : (client.writers call.file).pendingCount = 0
  offset_nonneg : 0 ≤ call.ioOffset
  aligned : call.ioOffset % (files call.file).blockSize = 0
  size_le : call.arguments.inBuffer.length ≤ (files call.file).blockSize
  strides : 0 < (files call.file).recoveryStripeCount →
    (call.arguments.inBuffer.length : ℤ) %
        ((files call.file).stripeSize * (files call.file).stripeCount) = 0 ∧
      call.arguments.inBuffer.length < 2 ^ 31
  addresses : (call.ioOffset / (files call.file).blockSize + 1) *
    (CHUNKSIZE * (files call.file).chunkCount) < 2 ^ 63
  new : ∀ entry ∈ client.log, entry.1 = call.file →
    LoggedWrite.block files entry ≠ call.ioOffset / (files call.file).blockSize

/-- The invariant of the client. -/
structure Identified (files : ℕ → StripedFile) (client : Client) : Prop where
  settled : ∀ file, Settled (files file).layout (client.writers file)
  chunkIndex : ∀ entry ∈ client.log, entry.2.chunkIndex = LoggedWrite.index files entry
  identifier : ∀ left ∈ client.log, ∀ right ∈ client.log,
    left.2.stripeIdentifier = right.2.stripeIdentifier ↔
      left.1 = right.1 ∧ LoggedWrite.block files left = LoggedWrite.block files right
  used : 0 ≤ client.count → ∀ entry ∈ client.log, ∃ now count : ℕ,
    entry.2.stripeIdentifier = identifierNumber now count ∧ now ≤ client.now ∧
      count < client.count
  now_nonneg : 0 ≤ client.now
  count_lt : client.count < 2 ^ 31

section Step

variable {files : ℕ → StripedFile} {client next : Client} {call : ClientCall}

theorem Identified.start (fileSizes : ℕ → ℤ) : Identified files (Client.start fileSizes) where
  settled file :=
    { holding := ⟨0, Drained.holding (fun _ _ => ⟨rfl, rfl⟩) 0 rfl rfl⟩
      recoveryEndPos := rfl
      lastPartialFlushPos := rfl
      iterator := ⟨0, (files file).layout.state_zero.symm⟩ }
  chunkIndex := by simp [Client.start]
  identifier := by simp [Client.start]
  used := by simp [Client.start]
  now_nonneg := le_rfl
  count_lt := by simp [Client.start]

/-- Chunk and block of a write to a chunk block. -/
theorem QueuedWrite.ToBlock.chunk_eq {file : StripedFile} {block : ℕ} {stripeIdentifier : ℤ}
    {queuedWrite : QueuedWrite} (hwrite : queuedWrite.ToBlock file.layout block stripeIdentifier) :
    queuedWrite.chunk / file.chunkCount = block ∧
      queuedWrite.chunkIndex = queuedWrite.chunk % file.chunkCount := by
  obtain ⟨-, index, hindex, hchunkIndex, hlow, hhigh⟩ := hwrite
  have hchunk : queuedWrite.chunk = ((block * (file.layout.stripeCount +
      file.layout.recoveryCount) + index : ℕ) : ℤ) := by
    rw [Layout.chunkStart] at hlow hhigh
    rw [QueuedWrite.chunk, file.chunkSize_eq, Int.ediv_eq_iff_of_pos (by omega)]
    push_cast at hlow hhigh ⊢
    constructor
    · exact hlow
    · linarith
  rw [file.chunkCount_eq, hchunk, hchunkIndex, ← Int.natCast_ediv, ← Int.natCast_emod,
    mul_comm, Nat.mul_add_div (by omega), Nat.mul_add_mod, Nat.div_eq_of_lt hindex,
    Nat.mod_eq_of_lt hindex]
  exact ⟨rfl, rfl⟩

/-- The place of the call in the layout of its file. -/
theorem BlockCall.oneBlock (hcall : BlockCall files client call) :
    ∃ block : ℕ, call.ioOffset = (block * (files call.file).layout.blockSize : ℕ) ∧
      call.ioOffset / (files call.file).blockSize = block ∧
      OneBlock (files call.file).layout block call.arguments.inBuffer.length := by
  obtain ⟨file, hfile⟩ : ∃ file, file = files call.file := ⟨_, rfl⟩
  have hblockPos := file.layout.blockSize_pos
  have hcount : file.stripeCount = file.layout.stripeCount := file.valid.stripeCount_eq
  have hsize : file.stripeSize = file.layout.stripeSize := file.valid.stripeSize_eq
  have hrecovery : file.recoveryStripeCount = file.layout.recoveryCount :=
    file.valid.recoveryStripeCount_eq
  have hoffset := hcall.offset_nonneg
  have haligned := hcall.aligned
  have hle := hcall.size_le
  have hstrides := hcall.strides
  have haddresses := hcall.addresses
  rw [← hfile] at haligned hle hstrides haddresses ⊢
  rw [file.blockSize_eq] at haligned hle haddresses ⊢
  obtain ⟨block, hblock⟩ := Int.dvd_of_emod_eq_zero haligned
  have hnonneg : 0 ≤ block := by
    by_contra hneg
    have : (file.layout.blockSize : ℤ) * block < 0 :=
      mul_neg_of_pos_of_neg (by exact_mod_cast hblockPos) (by omega)
    omega
  lift block to ℕ using hnonneg
  have hquotient : call.ioOffset / (file.layout.blockSize : ℤ) = block := by
    rw [hblock, Int.mul_ediv_cancel_left _ (by omega)]
  refine ⟨block, by rw [hblock, mul_comm]; push_cast; rfl, hquotient,
    ⟨by exact_mod_cast hle, ?_, ?_⟩⟩
  · intro hpos
    obtain ⟨hmod, hsmall⟩ := hstrides (by omega)
    rw [hsize, hcount] at hmod
    exact ⟨Nat.dvd_of_mod_eq_zero (by exact_mod_cast hmod), hsmall⟩
  · rw [hquotient, file.chunkCount_eq, file.chunkSize_eq] at haddresses
    rw [Layout.totalSize, mul_comm (_ + _) file.layout.chunkSize]
    exact_mod_cast haddresses

/-- One call. -/
theorem Identified.step
    (hfits : WriterFits (files call.file).stripeSize (files call.file).stripeCount
      (files call.file).recoveryStripeCount)
    (hidentified : Identified files client) (hcall : BlockCall files client call)
    (hstep : client.step files call = some next) : Identified files next := by
  obtain ⟨block, hoffset, hquotient, hblock⟩ := hcall.oneBlock
  have hrealises : (files call.file).environment.Realises (files call.file).layout :=
    hfits.realises (files call.file).valid rfl
  rw [Client.step, Option.map_eq_some_iff] at hstep
  obtain ⟨result, hprocess, rfl⟩ := hstep
  rw [hoffset] at hprocess
  obtain ⟨hsettled, hcount, writes, hwrites, hall⟩ := (hidentified.settled call.file).process_wrote
    hrealises hblock rfl hcall.pendingCount hprocess
  have hclock := hcall.clock
  have hnow := hidentified.now_nonneg
  have hcountNonneg := hcall.count_nonneg
  have hcountLt := hidentified.count_lt
  have hidentifierEq : stripeIdentifierOf call.arguments.now client.count =
      identifierNumber call.arguments.now.toNat client.count.toNat := by
    have heq := stripeIdentifierOf_eq hcall.identifier_lt
    rwa [Int.toNat_of_nonneg (by omega), Int.toNat_of_nonneg hcountNonneg] at heq
  have hlog : ∀ entry, entry ∈ client.log ++ (result.state.queued.drop
      (client.writers call.file).queued.length).map (fun queuedWrite =>
        (call.file, queuedWrite)) ↔
      entry ∈ client.log ∨ entry.1 = call.file ∧ entry.2 ∈ writes := by
    rintro ⟨file, queuedWrite⟩
    rw [hwrites, drop_left, mem_append, mem_map]
    simp only [Prod.mk.injEq]
    refine or_congr_right ⟨?_, ?_⟩
    · rintro ⟨_, hmem, rfl, rfl⟩
      exact ⟨rfl, hmem⟩
    · rintro ⟨rfl, hmem⟩
      exact ⟨queuedWrite, hmem, rfl, rfl⟩
  have hnew : ∀ entry : LoggedWrite, entry.1 = call.file ∧ entry.2 ∈ writes →
      entry.2.stripeIdentifier =
        identifierNumber call.arguments.now.toNat client.count.toNat ∧
      LoggedWrite.block files entry = block ∧
      entry.2.chunkIndex = LoggedWrite.index files entry := by
    rintro ⟨file, queuedWrite⟩ ⟨rfl, hmem⟩
    have hwrite := hall queuedWrite hmem
    exact ⟨hwrite.identifier.trans hidentifierEq, hwrite.chunk_eq.1, hwrite.chunk_eq.2⟩
  have hold : ∀ entry ∈ client.log, entry.2.stripeIdentifier ≠
      identifierNumber call.arguments.now.toNat client.count.toNat := by
    intro entry hentry
    obtain ⟨now, count, heq, hle, hlt⟩ := hidentified.used hcountNonneg entry hentry
    have hless := @identifierNumber_lt now call.arguments.now.toNat count client.count.toNat
      (by omega) (by omega)
    omega
  have hnewBlock : ∀ entry ∈ client.log, entry.1 = call.file →
      LoggedWrite.block files entry ≠ block := by
    intro entry hentry hfile
    rw [← hquotient]
    exact hcall.new entry hentry hfile
  refine ⟨(forall_update_iff client.writers fun file => Settled (files file).layout).mpr
    ⟨hsettled, fun file _ => hidentified.settled file⟩, ?_, ?_, ?_, by simp only; omega, ?_⟩
  · intro entry hentry
    rcases (hlog entry).mp hentry with hmem | hmem
    · exact hidentified.chunkIndex entry hmem
    · exact (hnew entry hmem).2.2
  · intro left hleft right hright
    rcases (hlog left).mp hleft with hleft | hleft <;>
      rcases (hlog right).mp hright with hright | hright
    · exact hidentified.identifier left hleft right hright
    · obtain ⟨hid, hrightBlock, -⟩ := hnew right hright
      rw [hid, hrightBlock, hright.1]
      exact iff_of_false (hold left hleft) fun ⟨hfile, hsame⟩ => hnewBlock left hleft hfile hsame
    · obtain ⟨hid, hleftBlock, -⟩ := hnew left hleft
      rw [hid, hleftBlock, hleft.1]
      exact iff_of_false (fun heq => hold right hright heq.symm) fun ⟨hfile, hsame⟩ =>
        hnewBlock right hright hfile.symm hsame.symm
    · obtain ⟨hid, hleftBlock, -⟩ := hnew left hleft
      obtain ⟨hid', hrightBlock, -⟩ := hnew right hright
      rw [hid, hid', hleftBlock, hrightBlock, hleft.1, hright.1]
      exact iff_of_true rfl ⟨rfl, rfl⟩
  · intro hnonneg entry hentry
    simp only [hcount] at hnonneg ⊢
    have hwrap : wrap32 (client.count + 1) = client.count + 1 := by
      rcases (show client.count + 1 ≤ 2 ^ 31 by omega).lt_or_eq with hlt | heq
      · exact wrap32_of_bounds (by omega) hlt
      · -- the counter becomes negative
        rw [heq, show wrap32 (2 ^ 31) = -2 ^ 31 by decide] at hnonneg
        omega
    rcases (hlog entry).mp hentry with hmem | hmem
    · obtain ⟨now, count, heq, hle, hlt⟩ := hidentified.used hcountNonneg entry hmem
      exact ⟨now, count, heq, by omega, by omega⟩
    · exact ⟨_, _, (hnew entry hmem).1, by omega, by omega⟩
  · simp only [hcount]
    exact wrap32_lt _

end Step

/-- Every call finds a state in which it writes one new chunk block. -/
def BlockCalls (files : ℕ → StripedFile) (client : Client) (calls : List ClientCall) : Prop :=
  ∀ before call after, calls = before ++ call :: after →
    ∀ reached, client.run files before = some reached → BlockCall files reached call

/-- A client whose calls write one new chunk block each: in every state that it
reaches the writes of a chunk block carry one identifier, which no other block
has, and the index of their stripe, and the map of the metaserver groups the
chunks in this way. -/
theorem grouped_of_blockCalls {files : ℕ → StripedFile}
    (hfits : ∀ file, WriterFits (files file).stripeSize (files file).stripeCount
      (files file).recoveryStripeCount) {fileSizes : ℕ → ℤ} {calls : List ClientCall}
    (hcalls : BlockCalls files (Client.start fileSizes) calls) {client : Client}
    (hrun : (Client.start fileSizes).run files calls = some client) :
    Grouped files client.log := by
  have hidentified : Identified files client := by
    induction calls using reverseRecOn generalizing client with
    | nil =>
      cases hrun
      exact Identified.start fileSizes
    | append_singleton calls call ih =>
      rw [Client.run, foldlM_append, Option.bind_eq_bind, Option.bind_eq_some_iff] at hrun
      obtain ⟨reached, hreached, hstep⟩ := hrun
      have hbefore := ih (fun before earlier after hsplit =>
        hcalls before earlier (after ++ [call]) (by rw [hsplit]; simp)) hreached
      have hlast := hcalls calls call [] rfl reached hreached
      refine hbefore.step (hfits call.file) hlast ?_
      simpa using hstep
  exact grouped_of_writes hidentified.chunkIndex hidentified.identifier

/-- A file with two data stripes and a recovery stripe of zeros. -/
def codedFile : StripedFile where
  stripeSize := 65536
  stripeCount := 2
  recoveryStripeCount := 1
  valid := ⟨⟨2, by decide, by decide⟩, by decide, by decide⟩
  encode _ _ := 0
  queueWrite _ _ len _ := len

theorem writerFits_codedFile : WriterFits codedFile.stripeSize codedFile.stripeCount
    codedFile.recoveryStripeCount := ⟨⟨by decide, by decide⟩, by decide⟩

/-- A stride of sevens, written at once. -/
def strideCall (file : ℕ) : ClientCall :=
  ⟨file, 0, { wholeCall (List.replicate 131072 7) 1 with now := 5 }⟩

theorem length_strideCall (file : ℕ) : (strideCall file).arguments.inBuffer.length = 131072 :=
  length_replicate

/-- The second data chunk and the recovery chunk are among those written. -/
theorem step_strideCall {client : Client} {file : ℕ}
    (hwriter : client.writers file = RSWriteStriper.create 0) :
    ∃ next, client.step (fun _ => codedFile) (strideCall file) = some
        ⟨wrap32 (client.count + 1), 5, update client.writers file next,
          client.log ++ next.queued.map (file, ·)⟩ ∧
      stored next.queued CHUNKSIZE = some 7 ∧ stored next.queued (2 * CHUNKSIZE) = some 0 := by
  have hlength := length_strideCall file
  have hstream := slice_getD (strideCall file).arguments.inBuffer 0
  obtain ⟨next, hprocess, hwrites, hpending⟩ :=
    (Writes.create codedFile.layout codedFile.environment _).process_eq
      (writerFits_codedFile.realises codedFile.valid rfl) (fun _ _ _ _ => rfl) client.count
      (by rw [zero_add, hstream]) ⟨by rw [hlength]; decide, fun _ => ⟨by rw [hlength]; decide,
        fun _ _ => rfl⟩⟩
  have hconsistent := hwrites.consistent
  rw [zero_add, hstream] at hconsistent
  obtain ⟨length, -, hall, hstored⟩ := hconsistent.flushed
  obtain rfl := (hall (hpending le_rfl)).trans hlength
  refine ⟨next, ?_, ?_, hstored.recovery 0 0 0 (by decide) (by decide)⟩
  · rw [Client.step, show (strideCall file).file = file from rfl, hwriter]
    exact congrArg (Option.map _) hprocess
  · refine (hstored.data 65536 (by decide)).trans ?_
    exact getElem?_replicate_of_lt (by decide)

theorem blockCall_strideCall {client : Client} {file : ℕ} (hclock : client.now ≤ 5)
    (hcount : client.count = 0 ∨ client.count = 1)
    (hwriter : client.writers file = RSWriteStriper.create 0)
    (hnew : ∀ entry ∈ client.log, entry.1 ≠ file) :
    BlockCall (fun _ => codedFile) client (strideCall file) where
  clock := hclock
  count_nonneg := by omega
  identifier_lt := by
    change identifierNumber 5 client.count.toNat < 2 ^ 63
    rcases hcount with hcount | hcount <;> rw [hcount] <;> decide
  pendingCount := congrArg RSWriteStriper.pendingCount hwriter
  offset_nonneg := le_rfl
  aligned := rfl
  size_le := by
    rw [length_strideCall]
    decide
  strides _ := by
    rw [length_strideCall]
    decide
  addresses := by
    change (0 / codedFile.blockSize + 1) * (CHUNKSIZE * codedFile.chunkCount) < 2 ^ 63
    decide
  new entry hentry hfile := absurd hfile (hnew entry hentry)

/-- Two files with a stride each. -/
theorem grouped_two_files :
    BlockCalls (fun _ => codedFile) (Client.start fun _ => 0) [strideCall 0, strideCall 1] ∧
    ∃ client, (Client.start fun _ => 0).run (fun _ => codedFile)
        [strideCall 0, strideCall 1] = some client ∧
      (∀ file < 2, stored (client.writers file).queued CHUNKSIZE = some 7 ∧
        stored (client.writers file).queued (2 * CHUNKSIZE) = some 0) ∧
      Grouped (fun _ => codedFile) client.log := by
  obtain ⟨first, hfirst, hstored⟩ := @step_strideCall (Client.start fun _ => 0) 0 rfl
  obtain ⟨second, hsecond, hstored'⟩ := @step_strideCall
    ⟨1, 5, update (fun _ => RSWriteStriper.create 0) 0 first, first.queued.map (0, ·)⟩ 1 rfl
  have hcalls : BlockCalls (fun _ => codedFile) (Client.start fun _ => 0)
      [strideCall 0, strideCall 1] := by
    intro before call after hsplit reached hreached
    rcases before with _ | ⟨before, _ | ⟨other, rest⟩⟩
    · obtain ⟨rfl, -⟩ := cons.inj hsplit
      cases hreached
      exact blockCall_strideCall (by decide) (.inl rfl) rfl (by simp [Client.start])
    · obtain ⟨rfl, hrest⟩ := cons.inj hsplit
      obtain ⟨rfl, -⟩ := cons.inj hrest
      rw [Client.run, foldlM_cons, hfirst] at hreached
      cases hreached
      exact blockCall_strideCall le_rfl (.inr rfl) rfl (by simp [Client.start])
    · simp at hsplit
  have hrun : (Client.start fun _ => 0).run (fun _ => codedFile) [strideCall 0, strideCall 1] =
      some ⟨2, 5, update (update (fun _ => RSWriteStriper.create 0) 0 first) 1 second,
        first.queued.map (0, ·) ++ second.queued.map (1, ·)⟩ := by
    rw [Client.run, foldlM_cons, hfirst, Option.bind_eq_bind, Option.bind_some, foldlM_cons]
    exact congrArg (Option.bind · _) hsecond
  refine ⟨hcalls, _, hrun, ?_, grouped_of_blockCalls (fun _ => writerFits_codedFile) hcalls
    hrun⟩
  intro file hfile
  interval_cases file
  · exact hstored
  · exact hstored'

/-- A file with one data stripe and no recovery stripes. -/
def plainFile : StripedFile where
  stripeSize := 65536
  stripeCount := 1
  recoveryStripeCount := 0
  valid := ⟨⟨2, by decide, by decide⟩, by decide, by decide⟩
  encode _ _ := 0
  queueWrite _ _ len _ := len

/-- One byte, written at once. -/
def byteCall (file : ℕ) (ioOffset : ℤ) (byte : Byte) : ClientCall :=
  ⟨file, ioOffset, { wholeCall [byte] 1 with now := 5 }⟩

/-- Two bytes of one chunk block, in two calls. -/
theorem not_grouped_two_calls :
    ∃ client, (Client.start fun _ => 0).run (fun _ => plainFile)
        [byteCall 0 0 7, byteCall 0 1 8] = some client ∧
      client.log = [(0, ⟨0, [7], 0, 50⟩), (0, ⟨1, [8], 0, 51⟩)] ∧
      ¬ Grouped (fun _ => plainFile) client.log := by
  have hlog : ((Client.start fun _ => 0).run (fun _ => plainFile)
      [byteCall 0 0 7, byteCall 0 1 8]).map (·.log) =
        some [(0, ⟨0, [7], 0, 50⟩), (0, ⟨1, [8], 0, 51⟩)] := by decide +kernel
  obtain ⟨client, hrun, hlog⟩ := Option.map_eq_some_iff.mp hlog
  refine ⟨client, hrun, hlog, fun hgrouped => ?_⟩
  have hsame := (hgrouped.identifier (0, ⟨0, [7], 0, 50⟩) (by simp [hlog])
    (0, ⟨1, [8], 0, 51⟩) (by simp [hlog])).mpr ⟨rfl, by decide⟩
  exact absurd hsame (by decide)

end QfsRepair.Striping
