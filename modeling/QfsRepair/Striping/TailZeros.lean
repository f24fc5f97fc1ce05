import QfsRepair.Machine.Slices
import QfsRepair.Striping.WriteStriper

/-!
# Zeros at the end of a buffer

`IsTailAllZeros` scans the pieces of an `IOBuffer` backwards, each from its
front with one loop over bytes, one over pairs of 64 bit words and one over
bytes again.  The pieces lie in a memory that the word loop may read past their
ends.
-/

namespace QfsRepair.Striping

open List Machine

/-- Addresses of the bytes of a piece. -/
structure Piece where
  consumer : ℕ
  producer : ℕ
  deriving DecidableEq

section Scan

variable (memory : ℕ → Byte)

/-- Moves on while the next `width` bytes are zero, at most `count` times. -/
def skipZeros (width ptr : ℕ) : ℕ → ℕ
  | 0 => ptr
  | count + 1 =>
    if ∀ offset < width, memory (ptr + offset) = 0 then skipZeros width (ptr + width) count
    else ptr

/-- `while (thePtr < theEndPtr && *thePtr == 0) ++thePtr`. -/
def skipBytes (ptr endPtr : ℕ) : ℕ := skipZeros memory 1 ptr (endPtr - ptr)

/-- The loop over pairs of 64 bit words that start before the end. -/
def skipWords (ptr endPtr : ℕ) : ℕ :=
  skipZeros memory kAlign ptr ((endPtr - ptr + (kAlign - 1)) / kAlign)

/-- One round of the outer loop: the bytes from `start` to the end of a piece. -/
def isPieceAllZeros (start stop : ℕ) : Bool :=
  let frontEnd := min stop (start + start % kAlign)
  let ptr := skipBytes memory start frontEnd
  if ptr < frontEnd then false
  else
    let tailStart := stop - stop % kAlign
    let ptr := skipWords memory ptr tailStart
    if ptr < tailStart then false
    else stop ≤ skipBytes memory ptr stop

/-- The loop of `IsTailAllZeros` over the pieces from the last one on. -/
def scanPieces : List Piece → ℕ → Bool
  | [], rem => rem = 0
  | piece :: pieces, rem =>
    if rem = 0 then true
    else if piece.producer ≤ piece.consumer then scanPieces pieces rem
    else
      let start := if piece.consumer + rem < piece.producer then piece.producer - rem
        else piece.consumer
      if isPieceAllZeros memory start piece.producer then
        scanPieces pieces (rem - (piece.producer - start))
      else false

/-- `IsTailAllZeros`; a negative size asks for nothing. -/
def isTailAllZeros (inBuffer : List Piece) (inSize : ℤ) : Bool :=
  scanPieces memory inBuffer.reverse inSize.toNat

/-- The bytes of a buffer. -/
def bufferBytes (inBuffer : List Piece) : List Byte :=
  inBuffer.flatMap fun piece => slice memory piece.consumer piece.producer

end Scan

/-- The test tells whether the buffer ends with zeros, whatever the memory
holds. -/
def TailTestCorrect (inBuffer : List Piece) (inSize : ℤ) : Prop :=
  ∀ memory, isTailAllZeros memory inBuffer inSize = true ↔
    inSize ≤ (bufferBytes memory inBuffer).length ∧
      ∀ byte ∈ (bufferBytes memory inBuffer).reverse.take inSize.toNat, byte = 0

/-- The parts of the pieces, from the last one on, that hold the last bytes. -/
def tailPieces : List Piece → ℕ → List Piece
  | [], _ => []
  | piece :: pieces, rem =>
    ⟨max piece.consumer (piece.producer - rem), piece.producer⟩ ::
      tailPieces pieces (rem - (piece.producer - piece.consumer))

/-- Where the scan of a piece ends: the word loop, if it starts at all, stops at the
first pair of words behind the last aligned address of the piece. -/
def scanEnd (start stop : ℕ) : ℕ :=
  if start + start % kAlign < stop - stop % kAlign then
    max stop (stop - stop % kAlign + 2 * start % kAlign)
  else stop

/-! ## Scanning one piece -/

section

variable (memory : ℕ → Byte)

def Zeros (start stop : ℕ) : Prop :=
  ∀ address, start ≤ address → address < stop → memory address = 0

variable {memory} in
theorem Zeros.append {start middle stop : ℕ} (hfront : Zeros memory start middle)
    (hback : Zeros memory middle stop) : Zeros memory start stop := by
  intro address hfirst hlast
  rcases Nat.lt_or_ge address middle with hlt | hge
  · exact hfront address hfirst hlt
  · exact hback address hge hlast

/-- All bytes are skipped, or the loop stops in front of some that are not all
zero. -/
theorem skipZeros_spec (width ptr count : ℕ) :
    skipZeros memory width ptr count = ptr + width * count ∧
        Zeros memory ptr (ptr + width * count) ∨
      skipZeros memory width ptr count + width ≤ ptr + width * count ∧
        ¬ Zeros memory ptr (ptr + width * count) := by
  induction count generalizing ptr with
  | zero => exact .inl ⟨rfl, fun address hfirst hlast => by omega⟩
  | succ count ih =>
    have hsum : ptr + width * (count + 1) = ptr + width + width * count := by ring
    rw [skipZeros, hsum]
    split_ifs with hzero
    · have hfirst : Zeros memory ptr (ptr + width) := by
        intro address hle hlt
        rw [← Nat.add_sub_cancel' hle]
        exact hzero _ (by omega)
      refine (ih (ptr + width)).imp (.imp_right hfirst.append) (.imp_right fun hnot hall => hnot ?_)
      exact fun address hle => hall address (by omega)
    · refine .inr ⟨by omega, fun hall => hzero fun offset hoffset => ?_⟩
      exact hall _ (by omega) (by omega)

theorem skipBytes_spec {ptr endPtr : ℕ} (hle : ptr ≤ endPtr) :
    skipBytes memory ptr endPtr = endPtr ∧ Zeros memory ptr endPtr ∨
      skipBytes memory ptr endPtr < endPtr ∧ ¬ Zeros memory ptr endPtr := by
  have hspec := skipZeros_spec memory 1 ptr (endPtr - ptr)
  rwa [one_mul, Nat.add_sub_cancel' hle] at hspec

theorem isPieceAllZeros_iff {start stop : ℕ} (hnonempty : start < stop) :
    isPieceAllZeros memory start stop = true ↔ Zeros memory start (scanEnd start stop) := by
  rw [isPieceAllZeros]
  generalize hfront : min stop (start + start % kAlign) = frontEnd
  generalize htail : stop - stop % kAlign = tailStart
  obtain ⟨finish, hfinish⟩ : ∃ finish,
    finish = frontEnd + kAlign * ((tailStart - frontEnd + (kAlign - 1)) / kAlign) := ⟨_, rfl⟩
  have hscan : scanEnd start stop = max stop finish := by
    rw [scanEnd]
    rw [kAlign] at *
    split_ifs <;> omega
  have hspec := skipZeros_spec memory kAlign frontEnd
    ((tailStart - frontEnd + (kAlign - 1)) / kAlign)
  have hpart : ∀ {first last}, start ≤ first → last ≤ max stop finish →
      ¬ Zeros memory first last → ¬ Zeros memory start (max stop finish) :=
    fun hfirst hlast hnot hall => hnot fun address hle hlt =>
      hall address (hfirst.trans hle) (hlt.trans_le hlast)
  rw [← hfinish, ← skipWords] at hspec
  rw [hscan]
  rcases skipBytes_spec memory (show start ≤ frontEnd by omega) with ⟨hskip, hbytes⟩ | ⟨hskip, hnot⟩
  · rcases hspec with ⟨hwords, hzeros⟩ | ⟨hwords, hnot⟩
    · have hfront := hbytes.append hzeros
      have hge : tailStart ≤ finish := by
        rw [kAlign] at hfinish
        omega
      simp only [hskip, hwords, lt_irrefl, hge.not_gt, if_false, decide_eq_true_eq]
      rcases Nat.lt_or_ge stop finish with hpast | hwithin
      · rw [max_eq_right hpast.le, skipBytes, Nat.sub_eq_zero_of_le hpast.le]
        exact iff_of_true hpast.le hfront
      · rw [max_eq_left hwithin]
        rcases skipBytes_spec memory hwithin with ⟨hrest, hzeros⟩ | ⟨hrest, hnot⟩
        · exact iff_of_true hrest.ge (hfront.append hzeros)
        · exact iff_of_false hrest.not_ge fun hall => hnot fun address hfirst =>
            hall address (by omega)
    · have hsome : frontEnd < finish := not_le.mp fun hle => hnot fun address _ _ => by omega
      have hlt : skipWords memory frontEnd tailStart < tailStart := by
        rw [kAlign] at hfinish hwords
        omega
      exact iff_of_false (by simp [hskip, hlt]) (hpart (by omega) (by omega) hnot)
  · exact iff_of_false (by simp [hskip]) (hpart le_rfl (by omega) hnot)

/-! ## Scanning a buffer -/

theorem le_scanEnd (start stop : ℕ) : stop ≤ scanEnd start stop := by
  rw [scanEnd]
  split_ifs <;> omega

theorem zeros_of_empty {start stop : ℕ} (hempty : stop ≤ start) :
    Zeros memory start (scanEnd start stop) := by
  intro address hfirst hlast
  rw [scanEnd, if_neg (by omega)] at hlast
  omega

/-- The bytes of the pieces from the last one on, each backwards. -/
def backBytes (pieces : List Piece) : List Byte :=
  pieces.flatMap fun piece => (slice memory piece.consumer piece.producer).reverse

theorem scanPieces_iff (pieces : List Piece) (rem : ℕ) :
    scanPieces memory pieces rem = true ↔ rem ≤ (backBytes memory pieces).length ∧
      ∀ piece ∈ tailPieces pieces rem,
        Zeros memory piece.consumer (scanEnd piece.consumer piece.producer) := by
  induction pieces generalizing rem with
  | nil => simp [scanPieces, tailPieces, backBytes]
  | cons piece pieces ih =>
    have hlength : (backBytes memory (piece :: pieces)).length =
        piece.producer - piece.consumer + (backBytes memory pieces).length := by
      simp [backBytes]
    rw [tailPieces, forall_mem_cons, hlength, scanPieces]
    dsimp only
    by_cases hskip : rem = 0 ∨ piece.producer ≤ piece.consumer
    · -- the piece adds nothing
      have hle : rem ≤ piece.producer - piece.consumer + (backBytes memory pieces).length ↔
          rem ≤ (backBytes memory pieces).length := by omega
      rw [and_iff_right (zeros_of_empty memory (by omega)), hle,
        show rem - (piece.producer - piece.consumer) = rem by omega, ← ih]
      by_cases hzero : rem = 0
      · rw [hzero]
        cases pieces <;> rfl
      · rw [if_neg hzero, if_pos (hskip.resolve_left hzero)]
    · have hstart : (if piece.consumer + rem < piece.producer then piece.producer - rem
          else piece.consumer) = max piece.consumer (piece.producer - rem) := by
        split_ifs <;> omega
      have hrem : rem - (piece.producer - max piece.consumer (piece.producer - rem)) =
          rem - (piece.producer - piece.consumer) := by omega
      rw [if_neg (by omega), if_neg (by omega), hstart, hrem,
        ← isPieceAllZeros_iff memory (by omega)]
      split_ifs with hall
      · rw [ih, and_iff_right hall, Nat.sub_le_iff_le_add']
      · exact iff_of_false (by simp) fun h => hall h.2.1

theorem take_backBytes_iff (pieces : List Piece) (rem : ℕ) :
    (∀ byte ∈ (backBytes memory pieces).take rem, byte = 0) ↔
      ∀ piece ∈ tailPieces pieces rem, Zeros memory piece.consumer piece.producer := by
  induction pieces generalizing rem with
  | nil => simp [tailPieces, backBytes]
  | cons piece pieces ih =>
    have hpiece : (∀ byte ∈ (slice memory piece.consumer piece.producer).reverse.take rem,
        byte = 0) ↔ Zeros memory (max piece.consumer (piece.producer - rem)) piece.producer := by
      rw [take_reverse, length_slice, drop_slice, slice]
      simp only [mem_reverse, forall_mem_map, mem_range'_1, Zeros]
      refine forall_congr' fun address => ⟨fun hall hfirst hlast => hall ?_, fun hall hin => ?_⟩
      · omega
      · exact hall (by omega) (by omega)
    rw [backBytes, flatMap_cons, ← backBytes, take_append, forall_mem_append, hpiece, ih,
      tailPieces, forall_mem_cons, length_reverse, length_slice]

end

/-! ## The test -/

/-- Every byte that the scan reads belongs to the last bytes of the buffer. -/
def ReadsInside (inBuffer : List Piece) (inSize : ℤ) : Prop :=
  ∀ piece ∈ tailPieces inBuffer.reverse inSize.toNat, ∀ address, piece.producer ≤ address →
    address < scanEnd piece.consumer piece.producer →
      ∃ other ∈ tailPieces inBuffer.reverse inSize.toNat,
        other.consumer ≤ address ∧ address < other.producer

/-- The number of bytes of a buffer. -/
def bytesConsumable (inBuffer : List Piece) : ℕ :=
  (inBuffer.map fun piece => piece.producer - piece.consumer).sum

theorem tailTestCorrect_iff (inBuffer : List Piece) (inSize : ℤ) :
    TailTestCorrect inBuffer inSize ↔
      (inSize ≤ bytesConsumable inBuffer → ReadsInside inBuffer inSize) := by
  have hlength : ∀ memory, (bufferBytes memory inBuffer).length = bytesConsumable inBuffer := by
    simp [bufferBytes, bytesConsumable, length_flatMap]
  have hreverse : ∀ memory, (bufferBytes memory inBuffer).reverse =
      backBytes memory inBuffer.reverse := by
    intro memory
    rw [bufferBytes, reverse_flatMap]
    rfl
  have htest : ∀ memory, isTailAllZeros memory inBuffer inSize = true ↔
      inSize ≤ bytesConsumable inBuffer ∧ ∀ piece ∈ tailPieces inBuffer.reverse inSize.toNat,
        Zeros memory piece.consumer (scanEnd piece.consumer piece.producer) := by
    intro memory
    rw [isTailAllZeros, scanPieces_iff, ← hreverse, length_reverse, hlength, Int.toNat_le]
  simp only [TailTestCorrect, htest, hlength, hreverse, take_backBytes_iff]
  constructor
  · intro hcorrect hsize piece hpiece address hfirst hlast
    -- a memory that is zero but at this address
    by_contra houtside
    have hnonempty : piece.consumer ≤ address := by
      rw [scanEnd] at hlast
      split_ifs at hlast <;> omega
    have hzeros := (hcorrect fun other => if other = address then 1 else 0).mpr ⟨hsize, ?_⟩
    · simpa using hzeros.2 piece hpiece address hnonempty hlast
    · intro other hother position hle hlt
      refine if_neg fun heq => houtside ⟨other, hother, ?_⟩
      rw [← heq]
      exact ⟨hle, hlt⟩
  · intro hinside memory
    refine and_congr_right fun hsize => ⟨fun hall piece hpiece => ?_, fun hall piece hpiece => ?_⟩
    · exact fun address hfirst hlast =>
        hall piece hpiece address hfirst (hlast.trans_le (le_scanEnd _ _))
    · intro address hfirst hlast
      rcases Nat.lt_or_ge address piece.producer with hlt | hge
      · exact hall piece hpiece address hfirst hlt
      · obtain ⟨other, hother, hle, hlt⟩ := hinside hsize piece hpiece address hge hlast
        exact hall other hother address hle hlt

/-- The only byte of the memory that is not zero is at address 16. -/
def byteBehind (address : ℕ) : Byte := if address = 16 then 1 else 0

/-- A piece of 15 zeros that starts one byte behind an aligned address: the word loop
reads two bytes past its end. -/
theorem not_tailTestCorrect_unaligned :
    isTailAllZeros byteBehind [⟨1, 16⟩] 15 = false ∧
      bufferBytes byteBehind [⟨1, 16⟩] = replicate 15 0 ∧ ¬ TailTestCorrect [⟨1, 16⟩] 15 := by
  refine ⟨by decide, by decide, fun hcorrect => ?_⟩
  have htrue := (hcorrect byteBehind).mpr (by decide)
  exact absurd htrue (by decide)

end QfsRepair.Striping
