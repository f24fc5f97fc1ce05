import QfsRepair.ErasureCode.RoundTrip
import QfsRepair.Striping.WriteRuns

/-!
# Lost chunks

The writer with the encoder of `QCECMethod` stores a codeword at every offset of
a chunk block, so that the decoder gives back the bytes written whichever three
chunks are lost, also if writer and reader are different builds.
-/

namespace QfsRepair.Striping

open Algebra ErasureCode Machine Option Layout

/-- `QCRSEncoder::Encode` on one byte of every stripe, put into all lanes of a
word. -/
def encodeByte (build : Build) (stripeCount : ℕ) (column : ℕ → Byte) (index : ℕ) : Byte :=
  ((build.rsEncode (stripeCount + 3) 16 fun j => some fun _ => vec16 (column j)).bind
    fun encoded => encoded.read (stripeCount + index) (Fin.last 0)).elim 0 (·.lane (Fin.last 15))

variable {count : ℕ} (start : ℕ) (chunks : ℕ → ℕ → Byte) (j : ℕ) (i : Fin count)

/-- A part of every chunk, from `start` on, in words. -/
def chunkWords : V16 := ⟨fun k => chunks j (start + 16 * i + k)⟩

theorem lane_chunkWords (k : Fin 16) :
    (chunkWords start chunks j i).lane k = chunks j (start + 16 * i + k) := rfl

/-- What is read from the chunks of a block, with zeros for what is not stored. -/
def readChunks (layout : Layout) (queued : List QueuedWrite) (block index offset : ℕ) : Byte :=
  (stored queued (layout.chunkStart block index + offset : ℕ)).getD 0

/-- Buffers for a part of a block of which up to three chunks are lost.  The others
are read, and there are buffers for lost data chunks. -/
structure LostChunks (layout : Layout) (queued : List QueuedWrite) (block start blocksize : ℕ)
    (missing : List ℕ) (data : Buffers (blocksize / 16) V16) : Prop where
  aligned : blocksize % 16 = 0
  inside : start + blocksize ≤ layout.chunkSize
  nodup : missing.Nodup
  few : 1 ≤ missing.length ∧ missing.length ≤ 3
  missing_lt : ∀ j ∈ missing, j < layout.stripeCount + 3
  intact : ∀ j < layout.stripeCount + 3, j ∉ missing →
    data j = some (chunkWords start (readChunks layout queued block) j)
  nonnull : ∀ j ∈ missing, j < layout.stripeCount → (data j).isSome

theorem codeword_iff {words n : ℕ} {blocks : ℕ → Fin words → V16} :
    Codeword n blocks ↔ ∀ index < 3, ∀ i k, (blocks (n + index) i).field k =
      syndrome (Mktable.generator ^ index) (fun j => (blocks j i).field k) n := by
  constructor
  · intro hcodeword index hindex
    interval_cases index
    · exact hcodeword.parityP
    · simpa using hcodeword.parityQ
    · exact hcodeword.parityR
  · intro hparity
    exact ⟨by simpa using hparity 0, by simpa using hparity 1, hparity 2 (by decide)⟩

/-- The recovery bytes of a column are its syndromes. -/
theorem field_encodeByte {build : Build} (hbuild : build.Doubles) {n : ℕ} (hn : 0 < n)
    (column : ℕ → Byte) {index : ℕ} (hindex : index < 3) :
    (⟨encodeByte build n column index⟩ : Gf256) =
      syndrome (Mktable.generator ^ index) (fun j => ⟨column j⟩) n := by
  obtain ⟨blocks, hblocks, hcodeword⟩ :=
    Build.exists_codeword n fun j (_ : Fin (16 / 16)) => vec16 (column j)
  have hencode := Build.rsEncode_eq hbuild hcodeword hn (by decide)
    (fun j hj => congrArg some (hblocks j hj).symm) fun _ _ => rfl
  rw [encodeByte, hencode, bind_some, Buffers.read, Buffers.replace,
    if_pos (by interval_cases index <;> simp)]
  refine (codeword_iff.mp hcodeword index hindex _ _).trans (syndrome_congr _ fun j hj => ?_)
  rw [hblocks j hj]
  rfl

section Filled

variable {layout : Layout} {env : WriteEnvironment} {stream : ℕ → Byte} {length : ℕ}
  {state : RSWriteStriper} {writer : Build}
  (hfilled : Filled layout env stream length state) (hpending : state.pendingCount = 0)
  (hwriter : writer.Doubles) (hrecovery : layout.recoveryCount = 3)
  (hencode : env.encode = encodeByte writer layout.stripeCount)

include hfilled hpending hwriter hrecovery hencode

/-- What is read from the chunks once nothing is pending. -/
theorem Filled.readChunks_eq (block index offset : ℕ) (hindex : index < layout.stripeCount + 3)
    (hoffset : offset < layout.chunkSize) :
    readChunks layout state.queued block index offset =
      if index < layout.stripeCount then
        truncate stream length (layout.positionAt block index offset)
      else encodeByte writer layout.stripeCount
        (layout.column (truncate stream length) block offset) (index - layout.stripeCount) := by
  obtain ⟨_, place, done, flushed, start, rfl, -, hfilling⟩ := hfilled
  rw [readChunks, hfilling.stored, storedContents_chunkStart _ _ _ _ (by omega) hoffset,
    chunkContents, hfilling.flushed_eq_of_pendingCount hpending, hencode]
  split_ifs with hdata hwritten hwritten
  · exact (if_pos hwritten).symm
  · exact (if_neg hwritten).symm
  · rfl
  · -- behind the end of the data all stripes are zero, and so are their syndromes
    have hfield := field_encodeByte hwriter layout.stripeCount_pos (fun _ => 0)
      (show index - layout.stripeCount < 3 by omega)
    rw [column_truncate_eq_zero hwritten]
    exact (congrArg BinaryWord.bits
      (hfield.trans (Finset.sum_eq_zero fun j _ => mul_zero _))).symm

theorem Filled.codeword {block start blocksize : ℕ}
    (hinside : start + blocksize ≤ layout.chunkSize) :
    Codeword layout.stripeCount fun j (i : Fin (blocksize / 16)) =>
      chunkWords start (readChunks layout state.queued block) j i := by
  refine codeword_iff.mpr fun index hindex i k => ?_
  have hread := hfilled.readChunks_eq hpending hwriter hrecovery hencode block
  rw [V16.field, lane_chunkWords, hread _ _ (by omega) (by omega), if_neg (by omega),
    Nat.add_sub_cancel_left, field_encodeByte hwriter layout.stripeCount_pos _ hindex]
  refine syndrome_congr _ fun j hj => ?_
  rw [V16.field, lane_chunkWords, hread _ _ (by omega) (by omega), if_pos hj, column, if_pos hj]

end Filled

/-- A file is written with calls that fit.  Once nothing is pending, as after a
write with the threshold 0 or 1, every part of a block can be read with any three
of its chunks lost: the decoder gives back the bytes written, and zeros behind. -/
theorem rsDecode_lostChunks {writer reader : Build} (hwriter : writer.Doubles)
    (hreader : reader.Doubles) {stripeSize stripeCount : ℤ}
    (hvalid : ValidParameters stripeSize stripeCount 3) (hmax : stripeCount ≤ 64)
    (hfits : WriterFits stripeSize stripeCount 3) {env : WriteEnvironment}
    (hstriper : env.striper = RSStriper.create stripeSize stripeCount 3)
    (hencode : env.encode = encodeByte writer hvalid.layout.stripeCount)
    (haccepting : env.Accepting) {count : ℤ} {calls : List WriterCall}
    (hcalls : CallsFit stripeCount 3 env count calls) :
    ∃ run, runCalls env count calls = some run ∧
      (∀ before arguments, calls = before ++ [.process arguments] →
        arguments.writeThreshold ≤ 1 → run.state.pendingCount = 0) ∧ (run.state.pendingCount = 0 →
      ∀ (block start blocksize : ℕ) (missing : List ℕ) (data : Buffers (blocksize / 16) V16),
        LostChunks hvalid.layout run.state.queued block start blocksize missing data →
        ∃ restored, reader.rsDecode (hvalid.layout.stripeCount + 3) blocksize missing data =
            some restored ∧
          ∀ j < hvalid.layout.stripeCount, restored j = some (chunkWords start (fun j offset =>
            (writtenBytes calls).getD (hvalid.layout.positionAt block j offset) 0) j)) := by
  have hstream := slice_getD (writtenBytes calls) 0
  have hcount := hvalid.stripeCount_eq
  obtain ⟨run, hrun, hwrites, hthrough⟩ := runCalls_eq (hfits.realises hvalid hstriper) haccepting
    hstream.symm (by rwa [← hcount, ← hvalid.recoveryStripeCount_eq])
  refine ⟨run, hrun, hthrough, fun hpending block start blocksize missing data hlost => ?_⟩
  obtain ⟨-, hfilled⟩ := hwrites.resolve_right fun hnone => by cases hnone.1
  have hinside := hlost.inside
  obtain ⟨replaced, hdecode, -, hrestored, -⟩ := Build.rsDecode_recovers hreader
    hvalid.layout.stripeCount_pos (show _ ≤ 64 by omega) hlost.aligned
    ⟨hfilled.codeword hpending hwriter rfl hencode hinside, hlost.intact, hlost.nonnull⟩
    hlost.nodup hlost.few hlost.missing_lt
  refine ⟨_, hdecode, fun j hj => ?_⟩
  have hwords : data.replace replaced _ j = _ :=
    ite_eq_left_iff.mpr fun hmem => hlost.intact j (by omega) fun hmissing =>
      hmem (hrestored j hmissing hj)
  refine hwords.trans (congrArg some (funext fun i => V16.ext (funext fun k => ?_)))
  rw [lane_chunkWords, hfilled.readChunks_eq hpending hwriter rfl hencode _ _ _ (by omega)
    (by omega), if_pos hj, lane_chunkWords, truncate, ite_eq_left_iff]
  exact fun hend => (List.getD_eq_default _ _ (not_lt.mp hend)).symm

/-- One data stripe. -/
def tripled : WriteEnvironment :=
  ⟨RSStriper.create 65536 1 3, encodeByte .sse2 1, fun _ _ len _ => len⟩

theorem validParameters_tripled : ValidParameters 65536 1 3 :=
  ⟨⟨2, by decide, by decide⟩, by decide, by decide⟩

/-- Three bytes of which only a recovery chunk is left. -/
theorem rsDecode_lostChunks_tripled : ∃ run data restored,
    runCalls tripled 0 [.process (wholeCall [1, 2, 3] 1)] = some run ∧
      LostChunks validParameters_tripled.layout run.state.queued 0 0 16 [2, 0, 1] data ∧
      Build.sse2.rsDecode 4 16 [2, 0, 1] data = some restored := by
  have hcalls : CallsFit 1 3 tripled 0 [.process (wholeCall [1, 2, 3] 1)] := by
    rintro (_ | ⟨first, before⟩) call after hsplit run hrun
    · obtain ⟨rfl, -⟩ := List.cons.inj hsplit
      cases hrun
      exact ⟨by decide, fun _ => ⟨by decide, fun _ _ => rfl⟩⟩
    · simp at hsplit
  obtain ⟨run, hrun, hthrough, hdecodes⟩ := rsDecode_lostChunks Build.doubles_sse2
    Build.doubles_sse2 validParameters_tripled (by decide) ⟨⟨by decide, by decide⟩, by decide⟩
    rfl rfl (fun _ _ _ _ => rfl) hcalls
  have hlost : LostChunks validParameters_tripled.layout run.state.queued 0 0 16 [2, 0, 1]
      fun j => some (chunkWords 0 (readChunks _ _ 0) j) :=
    ⟨rfl, by decide, by decide, by decide, by decide, fun _ _ _ => rfl, fun _ _ _ => rfl⟩
  obtain ⟨restored, hdecode, -⟩ := hdecodes (hthrough [] _ rfl le_rfl) 0 0 16 [2, 0, 1] _ hlost
  exact ⟨run, _, restored, hrun, hlost, hdecode⟩

end QfsRepair.Striping
