import QfsRepair.ErasureCode.Tables
import QfsRepair.Machine.ColumnLoop

/-!
# Encoder and decoders of the Reed-Solomon library

The code of `prim.h`, `encode.c` and `decode.c`.  Blocks are arrays of 16 byte
vectors; a pointer array is a `Buffers`, with `none` for a null pointer, and
reading or writing through a null pointer, a failed assertion or a table
access out of bounds has no result.  The preprocessor symbols that select
between the variants of a function are a `Build`.
-/

namespace QfsRepair.ErasureCode

open QfsRepair.Machine

/-- `v16`, sixteen unsigned bytes. -/
@[ext]
structure V16 where
  lane : Fin 16 → Byte
  deriving DecidableEq

namespace V16

instance : XorOp V16 := ⟨fun left right => ⟨fun k => left.lane k ^^^ right.lane k⟩⟩

@[simp]
theorem lane_xor (left right : V16) (k : Fin 16) :
    (left ^^^ right).lane k = left.lane k ^^^ right.lane k := rfl

end V16

/-- `VEC16(x)`. -/
def vec16 (x : Byte) : V16 := ⟨fun _ => x⟩

/-- The symbols the sources are compiled with; `gnuc47` stands for a GNU
compiler of version 4.7 or later. -/
structure Build where
  useNeon : Bool
  useSse2 : Bool
  useSsse3 : Bool
  clang : Bool
  gnuc47 : Bool
  dontInline : Bool
  deriving DecidableEq

namespace Build

variable (build : Build)

/-- All ones in the lanes whose top bit is to be folded back.  The vector
instructions compare as signed bytes with zero, the third branch compares
unsigned bytes with 128. -/
def mask (v : V16) : V16 :=
  if build.useNeon then ⟨fun k => if (v.lane k).slt 0 then 0xff else 0⟩
  else if build.useSse2 || build.useSsse3 && !build.clang then
    ⟨fun k => if (v.lane k).slt 0 then 0xff else 0⟩
  else if build.gnuc47 || build.clang then
    ⟨fun k => if v.lane k < 128 then 0xff else 0⟩
  else ⟨fun k => if v.lane k < 128 then 0 else 0xff⟩

def mul2 (v : V16) : V16 :=
  ⟨fun k => v.lane k + v.lane k ^^^ (build.mask v).lane k &&& 0x1d⟩

/-- The nibble table rows `rs_nibmul[x].lo` and `rs_nibmul[x].hi`. -/
def nibmulLo (x : Byte) (nibble : Byte) : Byte := Mktable.mul x nibble

@[inherit_doc nibmulLo]
def nibmulHi (x : Byte) (nibble : Byte) : Byte := Mktable.mul x (nibble <<< 4)

/-- Both vector units look up the two nibbles of every lane. -/
def mulby (x : Byte) (v : V16) : V16 :=
  if build.useNeon || build.useSsse3 then
    ⟨fun k => nibmulLo x (v.lane k &&& 0x0f) ^^^ nibmulHi x (v.lane k >>> 4)⟩
  else mulLoop build.mul2 8 x v (vec16 0)

/-! ## Syndromes -/

/-- One term of the P, Q and R accumulations. -/
def stepP (p d : V16) : V16 := p ^^^ d

@[inherit_doc stepP]
def stepQ (q d : V16) : V16 := build.mul2 q ^^^ d

@[inherit_doc stepP]
def stepR (r d : V16) : V16 := build.mul2 (build.mul2 r) ^^^ d

end Build

variable {words : ℕ}

/-- Accumulate `data[j][i]` for `j` from below `count` down to zero. -/
def walk {State : Type} (data : Buffers words V16) (i : Fin words)
    (step : State → V16 → State) : ℕ → State → Option State
  | 0, state => some state
  | j + 1, state => do
      let d ← data.read j i
      walk data i step j (step state d)

/-- The loop shared by `P`, `Q` and `R`; `data[n-1]` does not exist for
`n = 0`. -/
def accumulate (step : V16 → V16 → V16) (data : Buffers words V16) :
    ℕ → Fin words → Option V16
  | 0, _ => none
  | top + 1, i => do
      let d ← data.read top i
      walk data i step top d

namespace Build

variable (build : Build)

def P (data : Buffers words V16) (n : ℕ) (i : Fin words) : Option V16 :=
  accumulate stepP data n i

def Q (data : Buffers words V16) (n : ℕ) (i : Fin words) : Option V16 :=
  accumulate build.stepQ data n i

def R (data : Buffers words V16) (n : ℕ) (i : Fin words) : Option V16 :=
  accumulate build.stepR data n i

/-! ## Encoder -/

/-- The loop body of `rs_encode` at position `i`. -/
def encodeColumn (n : ℕ) (data : Buffers words V16) (_ : Unit) (i : Fin words) :
    Option (List (ℕ × V16) × Unit) := do
  let d ← data.read (n - 1) i
  let (p, q, r) ← walk data i
    (fun (s : V16 × V16 × V16) d => (stepP s.1 d, build.stepQ s.2.1 d, build.stepR s.2.2 d))
    (n - 1) (d, d, d)
  return ([(n, p), (n + 1, q), (n + 2, r)], ())

def rsEncode (nblocks blocksize : ℕ) (data : Buffers (blocksize / 16) V16) :
    Option (Buffers (blocksize / 16) V16) := do
  guard (3 < nblocks)
  guard (blocksize % 16 = 0)
  let n := nblocks - 3
  columnLoop (build.encodeColumn n) data ()

def rsEncodeIfRequested (nblocks blocksize : ℕ) (data : Buffers (blocksize / 16) V16) :
    Option (Buffers (blocksize / 16) V16) :=
  if (data (nblocks - 1)).isSome && (data (nblocks - 2)).isSome
      && (data (nblocks - 3)).isSome then
    build.rsEncode nblocks blocksize data
  else some data

/-! ## One missing data block -/

/-- `memset(data[x], 0, blocksize)`, then `data[x][i]` from one syndrome and the
parity block it is compared with. -/
def decode1 (syndromeAt : Buffers words V16 → Fin words → Option V16) (parity : ℕ)
    (finish : V16 → V16) (x : ℕ) (data : Buffers words V16) :
    Option (Buffers words V16) := do
  let data ← data.fill x (vec16 0)
  columnLoop (fun data (_ : Unit) i => do
    let s ← syndromeAt data i
    let d ← data.read parity i
    return ([(x, finish (s ^^^ d))], ())) data ()

def rsDecode1p (n x : ℕ) (data : Buffers words V16) : Option (Buffers words V16) :=
  decode1 (fun data i => P data n i) n id x data

def rsDecode1q (n x : ℕ) (data : Buffers words V16) : Option (Buffers words V16) := do
  let c ← Mktable.r1Q[x]?
  decode1 (fun data i => build.Q data n i) (n + 1) (build.mulby c) x data

def rsDecode1r (n x : ℕ) (data : Buffers words V16) : Option (Buffers words V16) := do
  let c ← Mktable.r1R[x]?
  decode1 (fun data i => build.R data n i) (n + 2) (build.mulby c) x data

def rsDecode1 (nblocks blocksize x : ℕ) (data : Buffers (blocksize / 16) V16) :
    Option (Buffers (blocksize / 16) V16) :=
  let n := nblocks - 3
  if n ≤ x then build.rsEncodeIfRequested nblocks blocksize data
  else rsDecode1p n x data

/-! ## Two missing data blocks -/

/-- The two syndrome differences at position `i`.  The inlined variant walks
the pointer `pd` down from `data + n - 1`, then visits the higher and the lower
parity block and steps back to `data + n - 1`. -/
def differences2 (stepA stepB : V16 → V16 → V16) (offsetA offsetB n : ℕ)
    (data : Buffers words V16) (pd : ℕ) (i : Fin words) :
    Option ((V16 × V16) × ℕ) :=
  if build.dontInline then do
    let a ← accumulate stepA data n i
    let b ← accumulate stepB data n i
    return ((a ^^^ (← data.read (n + offsetA) i), b ^^^ (← data.read (n + offsetB) i)), pd)
  else do
    let d ← data.read pd i
    let (a, b) ← walk data i (fun (s : V16 × V16) d => (stepA s.1 d, stepB s.2 d)) pd (d, d)
    let pd := n + offsetB
    let b := b ^^^ (← data.read pd i)
    let pd := pd - (offsetB - offsetA)
    let a := a ^^^ (← data.read pd i)
    let pd := pd - offsetA - 1
    return ((a, b), pd)

def decode2 (stepA stepB : V16 → V16 → V16) (offsetA offsetB : ℕ)
    (table : List (Fin 4 → Byte)) (n x y : ℕ) (data : Buffers words V16) :
    Option (Buffers words V16) := do
  let c ← table[Mktable.r2map x y]?
  let data ← data.fill x (vec16 0)
  let data ← data.fill y (vec16 0)
  columnLoop (fun data pd i => do
    let ((a, b), pd) ← build.differences2 stepA stepB offsetA offsetB n data pd i
    return ([(x, build.mulby (c 0) a ^^^ build.mulby (c 1) b),
      (y, build.mulby (c 2) a ^^^ build.mulby (c 3) b)], pd)) data (n - 1)

def rsDecode2pq (n x y : ℕ) (data : Buffers words V16) : Option (Buffers words V16) :=
  build.decode2 stepP build.stepQ 0 1 Mktable.r2PQ n x y data

def rsDecode2pr (n x y : ℕ) (data : Buffers words V16) : Option (Buffers words V16) :=
  build.decode2 stepP build.stepR 0 2 Mktable.r2PR n x y data

def rsDecode2qr (n x y : ℕ) (data : Buffers words V16) : Option (Buffers words V16) :=
  build.decode2 build.stepQ build.stepR 1 2 Mktable.r2QR n x y data

/-- The decoder for two missing blocks proper, after the swap. -/
def rsDecode2Sorted (nblocks blocksize x y : ℕ) (data : Buffers (blocksize / 16) V16) :
    Option (Buffers (blocksize / 16) V16) :=
  let n := nblocks - 3
  if n ≤ x then build.rsEncodeIfRequested nblocks blocksize data
  else if y = n then do
    build.rsEncodeIfRequested nblocks blocksize (← build.rsDecode1q n x data)
  else if y = n + 1 ∨ y = n + 2 then do
    build.rsEncodeIfRequested nblocks blocksize (← rsDecode1p n x data)
  else build.rsDecode2pq n x y data

def rsDecode2 (nblocks blocksize x y : ℕ) (data : Buffers (blocksize / 16) V16) :
    Option (Buffers (blocksize / 16) V16) :=
  let (x, y) := if x > y then (y, x) else (x, y)
  build.rsDecode2Sorted nblocks blocksize x y data

/-! ## Three missing data blocks -/

/-- The three syndrome differences at position `i`. -/
def differences3 (n : ℕ) (data : Buffers words V16) (pd : ℕ) (i : Fin words) :
    Option ((V16 × V16 × V16) × ℕ) :=
  if build.dontInline then do
    let p ← P data n i
    let q ← build.Q data n i
    let r ← build.R data n i
    return ((p ^^^ (← data.read n i), q ^^^ (← data.read (n + 1) i),
      r ^^^ (← data.read (n + 2) i)), pd)
  else do
    let d ← data.read pd i
    let (p, q, r) ← walk data i
      (fun (s : V16 × V16 × V16) d => (stepP s.1 d, build.stepQ s.2.1 d, build.stepR s.2.2 d))
      pd (d, d, d)
    let pd := n + 2
    let r := r ^^^ (← data.read pd i)
    let pd := pd - 1
    let q := q ^^^ (← data.read pd i)
    let pd := pd - 1
    let p := p ^^^ (← data.read pd i)
    let pd := pd - 1
    return ((p, q, r), pd)

def rsDecode3pqr (n x y z : ℕ) (data : Buffers words V16) :
    Option (Buffers words V16) := do
  let c ← Mktable.r3[Mktable.r3map x y z]?
  let data ← data.fill x (vec16 0)
  let data ← data.fill y (vec16 0)
  let data ← data.fill z (vec16 0)
  columnLoop (fun data pd i => do
    let ((p, q, r), pd) ← build.differences3 n data pd i
    return ([(x, build.mulby (c 0) p ^^^ build.mulby (c 1) q ^^^ build.mulby (c 2) r),
      (y, build.mulby (c 3) p ^^^ build.mulby (c 4) q ^^^ build.mulby (c 5) r),
      (z, build.mulby (c 6) p ^^^ build.mulby (c 7) q ^^^ build.mulby (c 8) r)], pd))
    data (n - 1)

/-- The decoder for three missing blocks proper, after the swaps. -/
def rsDecode3Sorted (nblocks blocksize x y z : ℕ) (data : Buffers (blocksize / 16) V16) :
    Option (Buffers (blocksize / 16) V16) :=
  let n := nblocks - 3
  if n ≤ x then build.rsEncodeIfRequested nblocks blocksize data
  else if y = n ∧ z = n + 1 then do
    build.rsEncodeIfRequested nblocks blocksize (← build.rsDecode1r n x data)
  else if y = n ∧ z = n + 2 then do
    build.rsEncodeIfRequested nblocks blocksize (← build.rsDecode1q n x data)
  else if y = n + 1 ∧ z = n + 2 then do
    build.rsEncodeIfRequested nblocks blocksize (← rsDecode1p n x data)
  else if z = n then do
    build.rsEncodeIfRequested nblocks blocksize (← build.rsDecode2qr n x y data)
  else if z = n + 1 then do
    build.rsEncodeIfRequested nblocks blocksize (← build.rsDecode2pr n x y data)
  else if z = n + 2 then do
    build.rsEncodeIfRequested nblocks blocksize (← build.rsDecode2pq n x y data)
  else build.rsDecode3pqr n x y z data

def rsDecode3 (nblocks blocksize x y z : ℕ) (data : Buffers (blocksize / 16) V16) :
    Option (Buffers (blocksize / 16) V16) :=
  let (x, y) := if x > y then (y, x) else (x, y)
  let (x, z) := if x > z then (z, x) else (x, z)
  let (y, z) := if y > z then (z, y) else (y, z)
  build.rsDecode3Sorted nblocks blocksize x y z data

end Build

end QfsRepair.ErasureCode
