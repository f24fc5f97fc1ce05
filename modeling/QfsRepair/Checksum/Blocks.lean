import QfsRepair.Checksum.Adler32
import Mathlib.Tactic.Ring

/-!
# Checksums of buffers

A buffer is a list of pieces, some of which may be empty.  The checksums of its
blocks are computed piece by piece, and the checksum of all the blocks is
combined from theirs.
-/

namespace QfsRepair.Checksum

open Adler32 List

abbrev Byte := BitVec 8

def checksumBlockSize : ℕ := 65536

def nullChecksum : BitVec 32 := 1

/-! ## Combination -/

/-- A conditional subtraction, `if (sum >= bound) sum -= bound`. -/
def reduce (bound sum : ℕ) : ℕ := if bound ≤ sum then sum - bound else sum

/-- `sum1` and `sum2` do not overflow: every summand is below `2 ^ 17`. -/
def bugFixForAdler32Combine (adler1 adler2 : BitVec 32) (len2 : ℤ) : BitVec 32 :=
  if len2 < 0 then 0xffffffff
  else
    let rem := (len2 % base).toNat
    let sum1 := (adler1 &&& 0xffff).toNat
    let sum2 := rem * sum1 % base
    let sum1 := sum1 + ((adler2 &&& 0xffff).toNat + base - 1)
    let sum2 := sum2 + (((adler1 >>> 16) &&& 0xffff).toNat + ((adler2 >>> 16) &&& 0xffff).toNat +
      base - rem)
    let sum1 := reduce base (reduce base sum1)
    let sum2 := reduce base (reduce (base <<< 1) sum2)
    BitVec.ofNat 32 (sum1 ||| sum2 <<< 16)

def checksumBlocksCombine (chksum1 chksum2 : BitVec 32) (len2 : ℕ) : BitVec 32 :=
  bugFixForAdler32Combine chksum1 chksum2 len2

section Combination

theorem toNat_and_low (chksum : BitVec 32) :
    (chksum &&& 0xffff).toNat = (sums chksum).1 := by
  exact Nat.and_two_pow_sub_one_eq_mod chksum.toNat 16

theorem toNat_shiftRight_and (chksum : BitVec 32) :
    ((chksum >>> 16) &&& 0xffff).toNat = (sums chksum).2 := by
  rw [BitVec.toNat_and, BitVec.toNat_ushiftRight, Nat.shiftRight_eq_div_pow]
  have hmod := Nat.and_two_pow_sub_one_eq_mod (chksum.toNat / 2 ^ 16) 16
  exact hmod.trans (Nat.mod_eq_of_lt (sums_lt chksum).2)

theorem ofNat_or_shiftLeft {first second : ℕ} (hfirst : first < base) :
    BitVec.ofNat 32 (first ||| second <<< 16) = ofSums (first, second) := by
  rw [Nat.or_comm, ← Nat.shiftLeft_add_eq_or_of_lt (hfirst.trans (by decide)),
    Nat.shiftLeft_eq, ofSums]

theorem reduce_first {sum : ℕ} (hsum : sum < 3 * base) :
    reduce base (reduce base sum) = sum % base := by
  rw [base] at *
  unfold reduce
  split_ifs
  · omega
  · omega
  · omega

theorem reduce_second {sum : ℕ} (hsum : sum < 4 * base) :
    reduce base (reduce (base <<< 1) sum) = sum % base := by
  rw [base] at *
  unfold reduce
  split_ifs
  · omega
  · omega
  · omega
  · omega

/-- The checksum of a joined text from the checksums of its parts. -/
theorem checksumBlocksCombine_eq (front back : List Byte) :
    checksumBlocksCombine (adler32 nullChecksum front) (adler32 nullChecksum back) back.length =
      adler32 nullChecksum (front ++ back) := by
  obtain ⟨hfront1, hfront2⟩ := sums_adler32_lt front
  obtain ⟨hback1, hback2⟩ := sums_adler32_lt back
  have hrem : ((back.length : ℤ) % (base : ℕ)).toNat = back.length % base := by
    rw [← Int.natCast_mod, Int.toNat_natCast]
  have hremLt : back.length % base < base := Nat.mod_lt _ (by decide)
  have hproduct : back.length % base * (sums (adler32 1 front)).1 % base < base :=
    Nat.mod_lt _ (by decide)
  rw [checksumBlocksCombine, bugFixForAdler32Combine]
  dsimp only
  rw [toNat_and_low, toNat_and_low, toNat_shiftRight_and, toNat_shiftRight_and, hrem, nullChecksum]
  rw [reduce_first (by omega), reduce_second (by omega),
    ofNat_or_shiftLeft (Nat.mod_lt _ (by decide))]
  have hbase : (base : ZMod base) = 0 := ZMod.natCast_self base
  apply sums_adler32_append (Nat.mod_lt _ (by decide)) (Nat.mod_lt _ (by decide))
  · rw [ZMod.natCast_mod, Nat.cast_add, Nat.cast_sub (by omega), Nat.cast_add, hbase]
    ring
  · rw [ZMod.natCast_mod, Nat.cast_add, ZMod.natCast_mod, Nat.cast_sub (by omega), Nat.cast_mul,
      ZMod.natCast_mod, Nat.cast_add, Nat.cast_add, hbase]
    ring

end Combination

/-! ## One block -/

/-- The checksum of a block in memory. -/
def computeBlockChecksum (buf : List Byte) : BitVec 32 := adler32 nullChecksum buf

/-- The checksum of the first bytes of a buffer, continued from another one. -/
def computeBufferChecksum : List (List Byte) → ℕ → BitVec 32 → BitVec 32
  | [], _, res => res
  | piece :: pieces, len, res =>
    if len = 0 then res
    else
      let tlen := min piece.length len
      if tlen = 0 then computeBufferChecksum pieces len res
      else computeBufferChecksum pieces (len - tlen) (adler32 res (piece.take tlen))

/-- The loop of `ComputeBlockChecksumAt`; `rem` bytes are still to be skipped. -/
def checksumAt : List (List Byte) → ℤ → ℕ → BitVec 32 → BitVec 32
  | [], _, _, res => res
  | piece :: pieces, rem, l, res =>
    if 0 < l then
      let nb : ℤ := piece.length
      if rem < nb then
        let sz := min (nb - rem).toNat l
        checksumAt pieces 0 (l - sz) (adler32 res ((piece.drop rem.toNat).take sz))
      else if 0 < nb then checksumAt pieces (rem - nb) l res
      else checksumAt pieces rem l res
    else res

def computeBlockChecksumAt (data : List (List Byte)) (pos : ℤ) (len : ℕ) (chksum : BitVec 32) :
    BitVec 32 :=
  checksumAt data (max 0 pos) len chksum

/-! ## Several blocks -/

/-- The loop of `ComputeChecksums` over the blocks that are left. -/
def checksumsLoop (buf : List Byte) (total : Option (BitVec 32)) (cksums : List (BitVec 32)) :
    Option (BitVec 32) × List (BitVec 32) :=
  if _hbuf : buf = [] then (total, cksums)
  else
    let tlen := min checksumBlockSize buf.length
    let cks := computeBlockChecksum (buf.take tlen)
    checksumsLoop (buf.drop tlen) (total.map fun total => checksumBlocksCombine total cks tlen)
      (cksums ++ [cks])
termination_by buf.length
decreasing_by
  have hpositive := length_pos_iff.mpr _hbuf
  rw [length_drop, checksumBlockSize]
  omega

/-- The checksums of a text in memory.  `chksum` is the variable for the
checksum of the whole text, where there is one. -/
def computeChecksums (buf : List Byte) (chksum : Option (BitVec 32)) :
    Option (BitVec 32) × List (BitVec 32) :=
  if buf.length ≤ checksumBlockSize then
    let cks := computeBlockChecksum buf
    (chksum.map fun _ => cks, [cks])
  else checksumsLoop buf (chksum.map fun _ => nullChecksum) []

/-- The bytes of the present piece that go into the present block. -/
def navail (rem len currLen : ℕ) (buf : List Byte) : ℕ :=
  let navail := min buf.length len
  if rem < currLen + navail then rem - currLen else navail

theorem navail_eq {rem currLen : ℕ} (hcurrLen : currLen ≤ rem) (len : ℕ) (buf : List Byte) :
    navail rem len currLen buf = min (rem - currLen) (min buf.length len) := by
  rw [navail]
  split_ifs with hrem
  · omega
  · omega

/-- The inner loop of `AppendToChecksumVector`: one block of at most `rem`
bytes.  The first piece is what is left of the present one. -/
def blockLoop (rem : ℕ) (pieces : List (List Byte)) (len currLen : ℕ) (res : BitVec 32) :
    List (List Byte) × ℕ × ℕ × BitVec 32 :=
  match pieces with
  | [] => ([], len, currLen, res)
  | buf :: rest =>
    if _hcurrLen : currLen < rem then
      if _hnone : navail rem len currLen buf = 0 then blockLoop rem rest len currLen res
      else
        blockLoop rem (buf.drop (navail rem len currLen buf) :: rest)
          (len - navail rem len currLen buf) (currLen + navail rem len currLen buf)
          (adler32 res (buf.take (navail rem len currLen buf)))
    else (buf :: rest, len, currLen, res)
termination_by pieces.length + len
decreasing_by
  · simp
  · rw [navail_eq _hcurrLen.le] at _hnone ⊢
    simp only [length_cons]
    omega

/-- What is left of the pieces and bytes after a block. -/
theorem blockLoop_le (rem : ℕ) (pieces : List (List Byte)) (len currLen : ℕ) (res : BitVec 32) :
    (blockLoop rem pieces len currLen res).1.length + (blockLoop rem pieces len currLen res).2.1 ≤
      pieces.length + len := by
  fun_induction blockLoop rem pieces len currLen res with
  | case1 len currLen res => simp
  | case2 len currLen res buf rest hlt hnone ih =>
    rw [length_cons]
    omega
  | case3 len currLen res buf rest hlt hnone ih =>
    rw [length_cons] at ih ⊢
    omega
  | case4 len currLen res buf rest hlt => exact le_rfl

/-- A block with room takes a byte or leaves the present piece. -/
theorem blockLoop_lt {rem len : ℕ} {pieces : List (List Byte)} (hrem : 0 < rem) (hlen : 0 < len)
    (hpieces : pieces ≠ []) (res : BitVec 32) :
    (blockLoop rem pieces len 0 res).1.length + (blockLoop rem pieces len 0 res).2.1 <
      pieces.length + len := by
  obtain ⟨buf, rest, rfl⟩ := exists_cons_of_ne_nil hpieces
  rw [blockLoop]
  split_ifs with hnone
  · have hle := blockLoop_le rem rest len 0 res
    rw [length_cons]
    omega
  · have hle := blockLoop_le rem (buf.drop (navail rem len 0 buf) :: rest)
      (len - navail rem len 0 buf) (0 + navail rem len 0 buf)
      (adler32 res (buf.take (navail rem len 0 buf)))
    rw [length_cons] at hle ⊢
    omega

/-- The outer loop of `AppendToChecksumVector`. -/
def appendLoop (rem : ℕ) (pieces : List (List Byte)) (len : ℕ) (total : Option (BitVec 32))
    (cksums : List (BitVec 32)) : Option (BitVec 32) × List (BitVec 32) :=
  if _hloop : 0 < len ∧ pieces ≠ [] then
    appendLoop checksumBlockSize (blockLoop rem pieces len 0 nullChecksum).1
      (blockLoop rem pieces len 0 nullChecksum).2.1
      (total.map fun total => checksumBlocksCombine total
        (blockLoop rem pieces len 0 nullChecksum).2.2.2
        (blockLoop rem pieces len 0 nullChecksum).2.2.1)
      (cksums ++ [(blockLoop rem pieces len 0 nullChecksum).2.2.2])
  else (total, cksums)
termination_by (pieces.length + len, if rem = 0 then 1 else 0)
decreasing_by
  by_cases hrem : rem = 0
  · obtain ⟨buf, rest, hpieces⟩ := exists_cons_of_ne_nil _hloop.2
    have hsame : blockLoop rem pieces len 0 nullChecksum = (pieces, len, 0, nullChecksum) := by
      rw [hpieces, hrem, blockLoop, dif_neg (lt_irrefl 0)]
    rw [hsame, if_pos hrem, if_neg (by decide)]
    exact Prod.Lex.right _ Nat.zero_lt_one
  · exact Prod.Lex.left _ _ (blockLoop_lt (Nat.pos_of_ne_zero hrem) _hloop.1 _hloop.2 _)

/-- The checksums of the first `inlen` bytes of a buffer are appended to a
vector. -/
def appendToChecksumVector (data : List (List Byte)) (inlen : ℕ) (chksum : Option (BitVec 32))
    (firstBlockLen : ℕ) (cksums : List (BitVec 32)) : Option (BitVec 32) × List (BitVec 32) :=
  let len := min inlen data.flatten.length
  if len ≤ firstBlockLen then
    let cks := computeBufferChecksum data len nullChecksum
    (chksum.map fun _ => cks, cksums ++ [cks])
  else if data = [] then (chksum.map fun _ => nullChecksum, cksums)
  else appendLoop firstBlockLen data len (chksum.map fun _ => nullChecksum) cksums

/-- `ComputeChecksums` of a buffer. -/
def computeBufferChecksums (data : List (List Byte)) (len : ℕ) (chksum : Option (BitVec 32))
    (firstBlockLen : ℕ) : Option (BitVec 32) × List (BitVec 32) :=
  appendToChecksumVector data len chksum firstBlockLen []

/-! ## Blocks of a text -/

/-- The blocks of one size, the last one with what is left. -/
def blocksOf (size : ℕ) (bytes : List Byte) : List (List Byte) :=
  (List.range ((bytes.length + size - 1) / size)).map fun index =>
    (bytes.drop (index * size)).take size

/-- The first block and the blocks of the usual size behind it. -/
def checksumBlocks (firstBlockLen : ℕ) (bytes : List Byte) : List (List Byte) :=
  bytes.take firstBlockLen :: blocksOf checksumBlockSize (bytes.drop firstBlockLen)

theorem blocksOf_nil {size : ℕ} (hsize : 0 < size) : blocksOf size [] = [] := by
  rw [blocksOf, length_nil, Nat.div_eq_of_lt (by omega)]
  rfl

theorem blocksOf_eq_cons {size : ℕ} (hsize : 0 < size) {bytes : List Byte} (hbytes : bytes ≠ []) :
    blocksOf size bytes = bytes.take size :: blocksOf size (bytes.drop size) := by
  have hpositive := length_pos_iff.mpr hbytes
  have hcount : (bytes.length + size - 1) / size = (bytes.length - size + size - 1) / size + 1 := by
    by_cases hle : size ≤ bytes.length
    · rw [show bytes.length + size - 1 = bytes.length - size + size - 1 + size by omega,
        Nat.add_div_right _ hsize]
    · rw [show bytes.length + size - 1 = bytes.length - 1 + size by omega,
        Nat.add_div_right _ hsize, Nat.div_eq_of_lt (by omega), Nat.div_eq_of_lt (by omega)]
  rw [blocksOf, hcount, range_succ_eq_map, map_cons, zero_mul, map_map, blocksOf, length_drop]
  congr 1
  apply map_congr_left
  intro index _
  rw [Function.comp_apply, drop_drop, Nat.succ_mul, add_comm]

/-- The blocks of a text from a block on. -/
def blocksFrom (rem : ℕ) (bytes : List Byte) : List (List Byte) :=
  if bytes = [] then [] else checksumBlocks rem bytes

theorem blocksFrom_size (bytes : List Byte) :
    blocksFrom checksumBlockSize bytes = blocksOf checksumBlockSize bytes := by
  rw [blocksFrom]
  split_ifs with hbytes
  · rw [hbytes, blocksOf_nil (by decide)]
  · rw [checksumBlocks, ← blocksOf_eq_cons (by decide) hbytes]

/-! ## The loops -/

/-- A block of a buffer that has the bytes: what is left of the buffer are the
bytes behind the block. -/
theorem blockLoop_eq {rem currLen : ℕ} (hcurrLen : currLen ≤ rem) {pieces : List (List Byte)}
    {len : ℕ} (hlen : len ≤ pieces.flatten.length) (res : BitVec 32) :
    ∃ rest, blockLoop rem pieces len currLen res =
        (rest, len - min (rem - currLen) len, currLen + min (rem - currLen) len,
          adler32 res (pieces.flatten.take (min (rem - currLen) len))) ∧
      rest.flatten.take (len - (rem - currLen)) =
        (pieces.flatten.take len).drop (rem - currLen) ∧
      len - (rem - currLen) ≤ rest.flatten.length := by
  fun_induction blockLoop rem pieces len currLen res with
  | case1 len currLen res =>
    have hzero : len = 0 := by simpa using hlen
    exact ⟨[], by simp [hzero], by simp, by simp [hzero]⟩
  | case2 len currLen res buf rest hlt hnone ih =>
    rw [navail_eq hcurrLen] at hnone
    obtain hbuf | hzero : buf = [] ∨ len = 0 := by
      rw [← length_eq_zero_iff]
      omega
    · rw [hbuf, flatten_cons] at hlen ⊢
      exact ih hcurrLen hlen
    · obtain ⟨left, hloop, -, -⟩ := ih hcurrLen (hzero ▸ Nat.zero_le _)
      refine ⟨left, ?_, ?_, ?_⟩
      · rw [hloop, hzero, Nat.min_zero, take_zero, take_zero]
      · simp [hzero]
      · simp [hzero]
  | case3 len currLen res buf rest hlt hnone ih =>
    obtain ⟨count, hcount⟩ : ∃ count, count = navail rem len currLen buf := ⟨_, rfl⟩
    rw [← hcount] at hnone ih ⊢
    rw [navail_eq hcurrLen] at hcount
    have hdrop : (buf.drop count :: rest).flatten = (buf :: rest).flatten.drop count := by
      rw [flatten_cons, flatten_cons, drop_append_of_le_length (by omega)]
    have htake : buf.take count = (buf :: rest).flatten.take count := by
      rw [flatten_cons, take_append_of_le_length (by omega)]
    rw [hdrop, length_drop] at ih
    obtain ⟨left, hloop, hleft, hlength⟩ := ih (by omega) (by omega)
    refine ⟨left, ?_, ?_, ?_⟩
    · have hsplit : min (rem - currLen) len =
          count + min (rem - (currLen + count)) (len - count) := by omega
      rw [hloop, hsplit, htake, ← adler32_append, take_add, Nat.sub_sub, add_assoc]
    · have hrest : len - count - (rem - (currLen + count)) = len - (rem - currLen) := by omega
      rw [hrest, ← drop_take, drop_drop] at hleft
      rw [hleft]
      congr 1
      omega
    · omega
  | case4 len currLen res buf rest hlt =>
    have hfull : rem - currLen = 0 := by omega
    refine ⟨buf :: rest, ?_, ?_, ?_⟩
    · simp [hfull]
    · simp [hfull]
    · omega

/-- The outer loop appends the checksums of the blocks that are left and brings
the total up to date. -/
theorem appendLoop_eq {rem : ℕ} {pieces : List (List Byte)} {len : ℕ}
    (hlen : len ≤ pieces.flatten.length) (chksum : Option (BitVec 32)) (front : List Byte)
    (cksums : List (BitVec 32)) :
    appendLoop rem pieces len (chksum.map fun _ => adler32 nullChecksum front) cksums =
      (chksum.map fun _ => adler32 nullChecksum (front ++ pieces.flatten.take len),
        cksums ++ (blocksFrom rem (pieces.flatten.take len)).map computeBlockChecksum) := by
  obtain ⟨size, hsize⟩ : ∃ size, size = 2 * len + if rem = 0 then 1 else 0 := ⟨_, rfl⟩
  induction size using Nat.strong_induction_on generalizing rem pieces len front cksums with
  | _ size ih =>
    rw [appendLoop]
    split_ifs with hloop
    · obtain ⟨left, hblock, hleft, hlength⟩ := blockLoop_eq (Nat.zero_le rem) hlen nullChecksum
      rw [Nat.sub_zero] at hblock hleft hlength
      rw [show len - min rem len = len - rem by omega, zero_add] at hblock
      obtain ⟨block, hblockEq⟩ : ∃ block, block = pieces.flatten.take (min rem len) := ⟨_, rfl⟩
      have hblockLength : block.length = min rem len := by
        rw [hblockEq, length_take]
        omega
      have htake : block = (pieces.flatten.take len).take rem := by
        rw [hblockEq, take_take]
      rw [hblock, ← hblockEq, ← hblockLength, Option.map_map]
      have htotal : (fun total => checksumBlocksCombine total (adler32 nullChecksum block)
          block.length) ∘ (fun _ : BitVec 32 => adler32 nullChecksum front) =
          fun _ => adler32 nullChecksum (front ++ block) := by
        funext _
        exact checksumBlocksCombine_eq front block
      have hsmaller : 2 * (len - rem) + (if checksumBlockSize = 0 then 1 else 0) < size := by
        rw [hsize, if_neg (by decide)]
        split_ifs with hrem
        · omega
        · omega
      have hdata : pieces.flatten.take len ≠ [] := by
        rw [← length_pos_iff, length_take]
        omega
      rw [htotal, ih _ hsmaller hlength (front ++ block) _ rfl, hleft, blocksFrom_size,
        blocksFrom, if_neg hdata, checksumBlocks, append_assoc, append_assoc,
        htake, take_append_drop, map_cons]
      rfl
    · have hzero : len = 0 := by
        by_contra hne
        have hpieces : pieces = [] := by
          by_contra hpieces
          exact hloop ⟨Nat.pos_of_ne_zero hne, hpieces⟩
        rw [hpieces] at hlen
        exact hne (Nat.le_zero.mp hlen)
      simp [hzero, blocksFrom]

theorem checksumsLoop_eq (buf : List Byte) (chksum : Option (BitVec 32)) (front : List Byte)
    (cksums : List (BitVec 32)) :
    checksumsLoop buf (chksum.map fun _ => adler32 nullChecksum front) cksums =
      (chksum.map fun _ => adler32 nullChecksum (front ++ buf),
        cksums ++ (blocksOf checksumBlockSize buf).map computeBlockChecksum) := by
  induction hsize : buf.length using Nat.strong_induction_on generalizing buf front cksums with
  | _ size ih =>
    rw [checksumsLoop]
    split_ifs with hbuf
    · rw [hbuf, append_nil, blocksOf_nil (by decide), map_nil, append_nil]
    · have hpositive := length_pos_iff.mpr hbuf
      have htake : buf.take (min checksumBlockSize buf.length) = buf.take checksumBlockSize := by
        rw [take_eq_take_iff]
        omega
      have hdrop : buf.drop (min checksumBlockSize buf.length) = buf.drop checksumBlockSize := by
        rw [drop_eq_drop_iff]
        omega
      have htotal : (fun total => checksumBlocksCombine total
          (computeBlockChecksum (buf.take checksumBlockSize))
          (min checksumBlockSize buf.length)) ∘
          (fun _ : BitVec 32 => adler32 nullChecksum front) =
          fun _ => adler32 nullChecksum (front ++ buf.take checksumBlockSize) := by
        funext _
        rw [← length_take]
        exact checksumBlocksCombine_eq front _
      have hshorter : (buf.drop checksumBlockSize).length < size := by
        rw [length_drop, checksumBlockSize]
        omega
      dsimp only
      rw [htake, hdrop, Option.map_map, htotal, ih _ hshorter _ _ _ rfl,
        blocksOf_eq_cons (by decide) hbuf, append_assoc, append_assoc,
        take_append_drop, map_cons]
      rfl

theorem computeBufferChecksum_eq (pieces : List (List Byte)) (len : ℕ) (res : BitVec 32) :
    computeBufferChecksum pieces len res = adler32 res (pieces.flatten.take len) := by
  induction pieces generalizing len res with
  | nil => simp [computeBufferChecksum]
  | cons piece pieces ih =>
    rw [computeBufferChecksum, flatten_cons, take_append]
    dsimp only
    split_ifs with hlen htlen
    · simp [hlen]
    · have hpiece : piece = [] := by
        rw [← length_eq_zero_iff]
        omega
      rw [ih, hpiece]
      simp
    · have htake : piece.take (min piece.length len) = piece.take len := by
        rw [take_eq_take_iff]
        omega
      rw [ih, htake, ← adler32_append, show len - min piece.length len = len - piece.length by
        omega]

theorem checksumAt_eq (pieces : List (List Byte)) (rem : ℕ) (l : ℕ) (res : BitVec 32) :
    checksumAt pieces rem l res = adler32 res ((pieces.flatten.drop rem).take l) := by
  induction pieces generalizing rem l res with
  | nil => simp [checksumAt]
  | cons piece pieces ih =>
    rw [checksumAt, flatten_cons]
    dsimp only
    split_ifs with hl hrem hpiece
    · -- The range starts in the present piece.
      have hlt : rem < piece.length := by exact_mod_cast hrem
      have hsize : min ((piece.length : ℤ) - rem).toNat l = min (piece.length - rem) l := by
        omega
      have htake : ((piece.drop rem).take (min (piece.length - rem) l)) =
          (piece.drop rem).take l := by
        rw [take_eq_take_iff, length_drop]
        omega
      have hrest := ih 0 (l - min (piece.length - rem) l)
        (adler32 res ((piece.drop rem).take l))
      rw [Nat.cast_zero, drop_zero] at hrest
      rw [hsize, Int.toNat_natCast, htake, hrest, ← adler32_append,
        drop_append_of_le_length hlt.le, take_append, length_drop,
        show l - min (piece.length - rem) l = l - (piece.length - rem) by omega]
    · have hle : piece.length ≤ rem := by
        have := not_lt.mp hrem
        exact_mod_cast this
      have hsub : (rem : ℤ) - piece.length = ((rem - piece.length : ℕ) : ℤ) := by omega
      rw [hsub, ih, drop_append, drop_eq_nil_of_le hle, nil_append]
    · have hempty : piece = [] := by
        rw [← length_eq_zero_iff]
        omega
      rw [ih, hempty, nil_append]
    · have hzero : l = 0 := by omega
      rw [hzero, take_zero, adler32_nil]

/-! ## The results of the functions -/

theorem appendToChecksumVector_eq (data : List (List Byte)) (inlen : ℕ)
    (chksum : Option (BitVec 32)) (firstBlockLen : ℕ) (cksums : List (BitVec 32)) :
    appendToChecksumVector data inlen chksum firstBlockLen cksums =
      (chksum.map fun _ => adler32 nullChecksum (data.flatten.take inlen),
        cksums ++ (checksumBlocks firstBlockLen (data.flatten.take inlen)).map
          computeBlockChecksum) := by
  have htake : data.flatten.take (min inlen data.flatten.length) = data.flatten.take inlen := by
    rw [take_eq_take_iff]
    omega
  rw [appendToChecksumVector]
  split_ifs with hfirst hdata
  · have hlength : (data.flatten.take inlen).length ≤ firstBlockLen := by
      rwa [length_take]
    rw [computeBufferChecksum_eq, htake, checksumBlocks, take_of_length_le hlength,
      drop_eq_nil_of_le hlength]
    rfl
  · rw [hdata] at hfirst
    simp at hfirst
  · have hnonempty : data.flatten.take inlen ≠ [] := by
      rw [← length_pos_iff, length_take]
      omega
    have hloop := @appendLoop_eq firstBlockLen data (min inlen data.flatten.length)
      (Nat.min_le_right _ _) chksum [] cksums
    rw [htake, blocksFrom, if_neg hnonempty] at hloop
    exact hloop

theorem computeChecksums_eq (buf : List Byte) (chksum : Option (BitVec 32)) :
    computeChecksums buf chksum = (chksum.map fun _ => adler32 nullChecksum buf,
      (checksumBlocks checksumBlockSize buf).map computeBlockChecksum) := by
  rw [computeChecksums, checksumBlocks]
  split_ifs with hlength
  · rw [take_of_length_le hlength, drop_eq_nil_of_le hlength]
    rfl
  · have hbuf : buf ≠ [] := by
      rintro rfl
      exact hlength (Nat.zero_le _)
    have hloop := checksumsLoop_eq buf chksum [] []
    rw [blocksOf_eq_cons (by decide) hbuf] at hloop
    exact hloop

theorem computeBlockChecksumAt_eq (data : List (List Byte)) (pos : ℤ) (len : ℕ)
    (chksum : BitVec 32) :
    computeBlockChecksumAt data pos len chksum =
      adler32 chksum ((data.flatten.drop pos.toNat).take len) := by
  rw [computeBlockChecksumAt, show max 0 pos = (pos.toNat : ℤ) by omega, checksumAt_eq]

/-- Checksums of joined texts, of the blocks of a buffer in any pieces, and of
parts of a buffer. -/
theorem checksum_algebra :
    (∀ front back : List Byte,
      checksumBlocksCombine (adler32 nullChecksum front) (adler32 nullChecksum back) back.length =
        adler32 nullChecksum (front ++ back)) ∧
    (∀ (data : List (List Byte)) (inlen : ℕ) (chksum : Option (BitVec 32)) (firstBlockLen : ℕ)
      (cksums : List (BitVec 32)),
      appendToChecksumVector data inlen chksum firstBlockLen cksums =
        (chksum.map fun _ => adler32 nullChecksum (data.flatten.take inlen),
          cksums ++ (checksumBlocks firstBlockLen (data.flatten.take inlen)).map
            (adler32 nullChecksum)) ∧
      computeBufferChecksums data inlen chksum firstBlockLen =
        (chksum.map fun _ => adler32 nullChecksum (data.flatten.take inlen),
          (checksumBlocks firstBlockLen (data.flatten.take inlen)).map (adler32 nullChecksum))) ∧
    (∀ (buf : List Byte) (chksum : Option (BitVec 32)),
      computeChecksums buf chksum = (chksum.map fun _ => adler32 nullChecksum buf,
        (checksumBlocks checksumBlockSize buf).map (adler32 nullChecksum))) ∧
    ∀ (data : List (List Byte)) (pos : ℤ) (len : ℕ) (chksum : BitVec 32),
      computeBlockChecksumAt data pos len chksum =
        adler32 chksum ((data.flatten.drop pos.toNat).take len) :=
  ⟨checksumBlocksCombine_eq,
    fun data inlen chksum firstBlockLen cksums =>
      ⟨appendToChecksumVector_eq data inlen chksum firstBlockLen cksums,
        appendToChecksumVector_eq data inlen chksum firstBlockLen []⟩,
    computeChecksums_eq, computeBlockChecksumAt_eq⟩

end QfsRepair.Checksum
