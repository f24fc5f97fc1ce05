import QfsRepair.ErasureCode.RoundTrip
import Mathlib.Tactic.IntervalCases

/-!
# Variants of the vector primitives

`mask` and `mulby` are written once for each vector unit.  Here every variant is
spelled out with the instructions it uses and compared with the byte loop, and
the comparison is carried through the encoder and the decoders.  The variant for
compilers without vector builtins compares the wrong way round.
-/

namespace QfsRepair.ErasureCode

open QfsRepair.Algebra QfsRepair.Machine

/-! ## Instructions -/

namespace V16

instance : AndOp V16 := ⟨fun left right => ⟨fun k => left.lane k &&& right.lane k⟩⟩

/-- `vcltq_s8`: signed less than, all ones where it holds. -/
def vcltqS8 (left right : V16) : V16 :=
  ⟨fun k => if (left.lane k).slt (right.lane k) then 0xff else 0⟩

/-- `pcmpgtb`: signed greater than. -/
def pcmpgtb (left right : V16) : V16 :=
  ⟨fun k => if (right.lane k).slt (left.lane k) then 0xff else 0⟩

/-- `>` of vectors of unsigned bytes. -/
def unsignedGreater (left right : V16) : V16 :=
  ⟨fun k => if right.lane k < left.lane k then 0xff else 0⟩

/-- The 16 bit word of two lanes, the lower one first. -/
def word (low high : Byte) : BitVec 16 := high.setWidth 16 <<< 8 ||| low.setWidth 16

def lowLane (k : Fin 16) : Fin 16 := ⟨k / 2 * 2, by omega⟩

def highLane (k : Fin 16) : Fin 16 := ⟨k / 2 * 2 + 1, by omega⟩

/-- `psraw`: arithmetic shift of the eight 16 bit words. -/
def psrawi (v : V16) (count : ℕ) : V16 :=
  ⟨fun k =>
    let shifted := (word (v.lane (lowLane k)) (v.lane (highLane k))).sshiftRight count
    if k.val % 2 = 0 then shifted.setWidth 8 else (shifted >>> 8).setWidth 8⟩

/-- `pshufb`: lookup of the low four bits, zero where the top bit is set. -/
def pshufb (table indices : V16) : V16 :=
  ⟨fun k =>
    if indices.lane k &&& 0x80 ≠ 0 then 0
    else table.lane (Fin.ofNat 16 (indices.lane k &&& 0x0f).toNat)⟩

/-- `vshrq_n_u8`: logical shift of every lane. -/
def vshrqU8 (v : V16) (count : ℕ) : V16 := ⟨fun k => v.lane k >>> count⟩

def vgetLow (v : V16) : Fin 8 → Byte := fun k => v.lane (k.castAdd 8)

def vgetHigh (v : V16) : Fin 8 → Byte := fun k => v.lane (k.natAdd 8)

def vcombine (low high : Fin 8 → Byte) : V16 := ⟨fun k => Fin.append low high k⟩

/-- `vtbl2_u8`: lookup in a table of sixteen bytes, zero out of range. -/
def vtbl2 (table : V16) (indices : Fin 8 → Byte) : Fin 8 → Byte := fun k =>
  if h : (indices k).toNat < 16 then table.lane ⟨(indices k).toNat, h⟩ else 0

end V16

/-- The rows of `rs_nibmul[x]` as vectors. -/
def nibmulRows (x : Byte) : V16 × V16 :=
  (⟨fun j => Mktable.mul x (BitVec.ofNat 8 j)⟩, ⟨fun j => Mktable.mul x (BitVec.ofNat 8 j <<< 4)⟩)

namespace Build

open V16

/-! ## Variants -/

/-- The loop of `mask` over the bytes; `res` is what the result variable held
before. -/
def maskLoop (res v : V16) : V16 :=
  ⟨(List.finRange 16).foldl
    (fun res i => Function.update res i (if v.lane i < 128 then 0 else 0xff)) res.lane⟩

/-- The four variants of `mask`. -/
def maskVariant (build : Build) (res v : V16) : V16 :=
  if build.useNeon then vcltqS8 v (vec16 0)
  else if build.useSse2 || build.useSsse3 && !build.clang then pcmpgtb (vec16 0) v
  else if build.gnuc47 || build.clang then unsignedGreater (vec16 128) v
  else maskLoop res v

def mulbyNeon (x : Byte) (v : V16) : V16 :=
  let lo := v &&& vec16 0x0f
  let hi := vshrqU8 v 4
  let lo := vcombine (vtbl2 (nibmulRows x).1 (vgetLow lo)) (vtbl2 (nibmulRows x).1 (vgetHigh lo))
  let hi := vcombine (vtbl2 (nibmulRows x).2 (vgetLow hi)) (vtbl2 (nibmulRows x).2 (vgetHigh hi))
  lo ^^^ hi

def mulbySsse3 (x : Byte) (v : V16) : V16 :=
  let lo := v &&& vec16 0x0f
  let hi := psrawi v 4
  let hi := hi &&& vec16 0x0f
  let lo := pshufb (nibmulRows x).1 lo
  let hi := pshufb (nibmulRows x).2 hi
  lo ^^^ hi

/-- The three variants of `mulby`. -/
def mulbyVariant (build : Build) (x : Byte) (v : V16) : V16 :=
  if build.useNeon then mulbyNeon x v
  else if build.useSsse3 then mulbySsse3 x v
  else mulLoop build.mul2 8 x v (vec16 0)

/-- The same build with the byte loop for `mask` and the loop for `mulby`. -/
def bytewise (build : Build) : Build :=
  { build with
    useNeon := false
    useSse2 := false
    useSsse3 := false
    clang := false
    gnuc47 := false }

/-! ## Lanes -/

theorem maskLoop_eq (res v : V16) :
    maskLoop res v = ⟨fun k => if v.lane k < 128 then 0 else 0xff⟩ := by
  have hlanes : ∀ (lanes : List (Fin 16)) (stored : Fin 16 → Byte) (k : Fin 16),
      lanes.foldl (fun res i => Function.update res i (if v.lane i < 128 then 0 else 0xff))
        stored k = if k ∈ lanes then (if v.lane k < 128 then 0 else 0xff) else stored k := by
    intro lanes
    induction lanes with
    | nil => simp
    | cons i lanes ih =>
      intro stored k
      rw [List.foldl_cons, ih]
      by_cases hk : k = i <;> simp [hk]
  refine V16.ext (funext fun k => ?_)
  exact (hlanes _ _ k).trans (if_pos (List.mem_finRange k))

theorem maskVariant_eq (build : Build) (res v : V16) : build.maskVariant res v = build.mask v := by
  rw [maskVariant, maskLoop_eq]
  rfl

theorem mulbyNeon_eq (x : Byte) (v : V16) :
    mulbyNeon x v =
      ⟨fun k => nibmulLo x (v.lane k &&& 0x0f) ^^^ nibmulHi x (v.lane k >>> 4)⟩ := by
  have hlookup : ∀ (table indices : V16), (∀ k, (indices.lane k).toNat < 16) → ∀ k,
      (vcombine (vtbl2 table (vgetLow indices)) (vtbl2 table (vgetHigh indices))).lane k =
        table.lane (Fin.ofNat 16 (indices.lane k).toNat) := by
    intro table indices hindices k
    have hlane : ∀ j : Fin 16, Fin.ofNat 16 (indices.lane j).toNat =
        ⟨(indices.lane j).toNat, hindices j⟩ := fun j => Fin.ext (Nat.mod_eq_of_lt (hindices j))
    rw [hlane]
    refine @Fin.addCases 8 8 (fun k => (vcombine _ _).lane k = table.lane ⟨_, hindices k⟩)
      (fun j => ?_) (fun j => ?_) k
    · exact (Fin.append_left _ _ j).trans (dif_pos (hindices (j.castAdd 8)))
    · exact (Fin.append_right _ _ j).trans (dif_pos (hindices (j.natAdd 8)))
  have hlow : ∀ b : Byte, (b &&& 0x0f).toNat < 16 ∧
      BitVec.ofNat 8 (Fin.ofNat 16 (b &&& 0x0f).toNat).val = b &&& 0x0f := by decide
  have hhigh : ∀ b : Byte, (b >>> 4).toNat < 16 ∧
      BitVec.ofNat 8 (Fin.ofNat 16 (b >>> 4).toNat).val = b >>> 4 := by decide
  refine V16.ext (funext fun k => ?_)
  rw [mulbyNeon, lane_xor, hlookup _ _ fun j => (hlow (v.lane j)).1,
    hlookup _ _ fun j => (hhigh (v.lane j)).1]
  exact congrArg₂ _ (congrArg (Mktable.mul x) (hlow (v.lane k)).2)
    (congrArg (fun b : Byte => Mktable.mul x (b <<< 4)) (hhigh (v.lane k)).2)

theorem word_low (low high : Byte) :
    ((word low high).sshiftRight 4).setWidth 8 &&& 0x0f#8 = low >>> 4 := by
  ext i hi
  interval_cases i <;> simp [word, BitVec.getElem_sshiftRight]

theorem word_high (low high : Byte) :
    ((word low high).sshiftRight 4 >>> 8).setWidth 8 &&& 0x0f#8 = high >>> 4 := by
  ext i hi
  interval_cases i <;> simp [word, BitVec.getElem_sshiftRight]

/-- The shift of words leaves the upper half of every byte in its lower half. -/
theorem psrawi_and (v : V16) (k : Fin 16) :
    (psrawi v 4 &&& vec16 0x0f).lane k = v.lane k >>> 4 := by
  change (psrawi v 4).lane k &&& 0x0f#8 = _
  rw [psrawi]
  dsimp only
  split_ifs with heven
  · rw [word_low, show lowLane k = k from Fin.ext (by simp only [lowLane]; omega)]
  · rw [word_high, show highLane k = k from Fin.ext (by simp only [highLane]; omega)]

theorem mulbySsse3_eq (x : Byte) (v : V16) :
    mulbySsse3 x v =
      ⟨fun k => nibmulLo x (v.lane k &&& 0x0f) ^^^ nibmulHi x (v.lane k >>> 4)⟩ := by
  have hlow : ∀ b : Byte, (b &&& 0x0f) &&& 0x80 = 0 ∧
      BitVec.ofNat 8 (Fin.ofNat 16 (b &&& 0x0f &&& 0x0f).toNat).val = b &&& 0x0f := by decide
  have hhigh : ∀ b : Byte, (b >>> 4) &&& 0x80 = 0 ∧
      BitVec.ofNat 8 (Fin.ofNat 16 (b >>> 4 &&& 0x0f).toNat).val = b >>> 4 := by decide
  refine V16.ext (funext fun k => ?_)
  have hlo : (pshufb (nibmulRows x).1 (v &&& vec16 0x0f)).lane k =
      nibmulLo x (v.lane k &&& 0x0f) := by
    obtain ⟨htop, hindex⟩ := hlow (v.lane k)
    refine (if_neg (not_not.mpr htop)).trans ?_
    exact congrArg (Mktable.mul x) hindex
  have hhi : (pshufb (nibmulRows x).2 (psrawi v 4 &&& vec16 0x0f)).lane k =
      nibmulHi x (v.lane k >>> 4) := by
    obtain ⟨htop, hindex⟩ := hhigh (v.lane k)
    rw [pshufb]
    dsimp only
    rw [psrawi_and, if_neg (not_not.mpr htop)]
    exact congrArg (fun b : Byte => Mktable.mul x (b <<< 4)) hindex
  rw [mulbySsse3, lane_xor, hlo, hhi]

theorem mulbyVariant_eq (build : Build) (x : Byte) (v : V16) :
    build.mulbyVariant x v = build.mulby x v := by
  rw [mulbyVariant, mulby, mulbyNeon_eq, mulbySsse3_eq]
  cases build.useNeon <;> cases build.useSsse3 <;> rfl

/-! ## Builds with the same primitives -/

section Congruence

variable {build other : Build} (hmul2 : build.mul2 = other.mul2)
  (hmulby : build.mulby = other.mulby) (hinline : build.dontInline = other.dontInline)

include hmul2 in
theorem stepQ_congr : build.stepQ = other.stepQ := by
  funext q d
  rw [stepQ, stepQ, hmul2]

include hmul2 in
theorem stepR_congr : build.stepR = other.stepR := by
  funext r d
  rw [stepR, stepR, hmul2]

include hmul2 in
theorem rsEncode_congr : build.rsEncode = other.rsEncode := by
  funext nblocks blocksize data
  have hcolumn : ∀ n, @encodeColumn (blocksize / 16) build n = other.encodeColumn n := by
    intro n
    funext data cursor i
    rw [encodeColumn, encodeColumn, stepQ_congr hmul2, stepR_congr hmul2]
  simp only [rsEncode, hcolumn]

include hmul2 in
theorem rsEncodeIfRequested_congr : build.rsEncodeIfRequested = other.rsEncodeIfRequested := by
  funext nblocks blocksize data
  rw [rsEncodeIfRequested, rsEncodeIfRequested, rsEncode_congr hmul2]

include hmulby hinline in
theorem decode2_congr {words : ℕ} :
    @decode2 words build = other.decode2 := by
  funext stepA stepB offsetA offsetB table n x y data
  simp only [decode2, differences2, hmulby, hinline]

include hmul2 hmulby hinline in
theorem rsDecode2pq_congr {words : ℕ} :
    @rsDecode2pq words build = other.rsDecode2pq := by
  funext n x y data
  rw [rsDecode2pq, rsDecode2pq, decode2_congr hmulby hinline, stepQ_congr hmul2]

include hmul2 hmulby hinline in
theorem rsDecode3pqr_congr {words : ℕ} :
    @rsDecode3pqr words build = other.rsDecode3pqr := by
  funext n x y z data
  simp only [rsDecode3pqr, differences3, Q, R, stepQ_congr hmul2, stepR_congr hmul2, hmulby,
    hinline]

include hmul2 hmulby hinline in
/-- The decoders depend on the build through `mul2` and `mulby` only. -/
theorem rsDecode_congr : build.rsDecode = other.rsDecode := by
  have hencode := rsEncodeIfRequested_congr hmul2
  funext nblocks blocksize missing data
  have hQ : @rsDecode1q (blocksize / 16) build = other.rsDecode1q := by
    funext n x data
    simp only [rsDecode1q, Q, stepQ_congr hmul2, hmulby]
  have hR : @rsDecode1r (blocksize / 16) build = other.rsDecode1r := by
    funext n x data
    simp only [rsDecode1r, R, stepR_congr hmul2, hmulby]
  have hPR : @rsDecode2pr (blocksize / 16) build = other.rsDecode2pr := by
    funext n x y data
    rw [rsDecode2pr, rsDecode2pr, decode2_congr hmulby hinline, stepR_congr hmul2]
  have hQR : @rsDecode2qr (blocksize / 16) build = other.rsDecode2qr := by
    funext n x y data
    rw [rsDecode2qr, rsDecode2qr, decode2_congr hmulby hinline, stepQ_congr hmul2,
      stepR_congr hmul2]
  simp only [rsDecode, rsDecode1, rsDecode2, rsDecode2Sorted, rsDecode3, rsDecode3Sorted, hencode,
    hQ, hR, hPR, hQR, rsDecode2pq_congr hmul2 hmulby hinline,
    rsDecode3pqr_congr hmul2 hmulby hinline]

end Congruence

/-! ## All variants -/

/-- What is compiled in makes no difference: `mask` marks the bytes with the top
bit set, `mul2` and `mulby` are the products of the field in every lane, and the
encoder and the decoders return what they return with the byte loops. -/
structure Standard (build : Build) : Prop where
  mask : ∀ res v k, (build.maskVariant res v).lane k = if (v.lane k).msb then 0xff else 0
  mul2 : ∀ v k, (build.mul2 v).field k = Mktable.generator * v.field k
  mulby : ∀ x v k, (build.mulbyVariant x v).field k = ⟨x⟩ * v.field k
  encode : ∀ nblocks blocksize data,
    build.rsEncode nblocks blocksize data = build.bytewise.rsEncode nblocks blocksize data
  decode : ∀ nblocks blocksize missing data,
    build.rsDecode nblocks blocksize missing data =
      build.bytewise.rsDecode nblocks blocksize missing data

theorem mask_lane {build : Build} (hvariant : ¬ build.UnsignedCompare) (v : V16) (k : Fin 16) :
    (build.mask v).lane k = if (v.lane k).msb then 0xff else 0 := by
  have hsigned : ∀ b : Byte,
      (if b.slt 0 then (0xff : Byte) else 0) = if b.msb then 0xff else 0 := by decide
  have hbyte : ∀ b : Byte,
      (if b < 128 then (0 : Byte) else 0xff) = if b.msb then 0xff else 0 := by decide
  rw [Build.mask]
  by_cases hneon : build.useNeon = true
  · rw [if_pos hneon]
    exact hsigned (v.lane k)
  rw [if_neg hneon]
  by_cases hsse : (build.useSse2 || build.useSsse3 && !build.clang) = true
  · rw [if_pos hsse]
    exact hsigned (v.lane k)
  rw [if_neg hsse]
  by_cases hcompare : (build.gnuc47 || build.clang) = true
  · exact absurd ⟨hneon, hsse, hcompare⟩ hvariant
  · rw [if_neg hcompare]
    exact hbyte (v.lane k)

theorem bytewise_doubles (build : Build) : build.bytewise.Doubles :=
  (doubles_iff _).mpr fun hcompare => by simp [UnsignedCompare, bytewise] at hcompare

/-- Every variant is as good as the byte loops but the comparison of unsigned
bytes, which marks the bytes without the top bit. -/
theorem standard_iff (build : Build) : build.Standard ↔ ¬ build.UnsignedCompare := by
  constructor
  · intro standard
    refine (doubles_iff build).mp fun v k => ?_
    rw [standard.mul2, BinaryWord.double_eq_mul, Mktable.generator]
  · intro hvariant
    have hdoubles := (doubles_iff build).mpr hvariant
    have hmul2 : build.mul2 = build.bytewise.mul2 := by
      funext v
      refine V16.eq_of_field_eq fun k => ?_
      rw [hdoubles, build.bytewise_doubles]
    have hmulby : build.mulby = build.bytewise.mulby := by
      funext x v
      refine V16.eq_of_field_eq fun k => ?_
      rw [field_mulby hdoubles, field_mulby build.bytewise_doubles]
    refine ⟨?_, ?_, ?_, ?_, ?_⟩
    · intro res v k
      rw [maskVariant_eq]
      exact mask_lane hvariant v k
    · intro v k
      rw [hdoubles, BinaryWord.double_eq_mul, Mktable.generator]
    · intro x v k
      rw [mulbyVariant_eq, field_mulby hdoubles]
    · intro nblocks blocksize data
      rw [rsEncode_congr hmul2]
    · intro nblocks blocksize missing data
      rw [rsDecode_congr hmul2 hmulby rfl]

/-- A GNU build without vector unit: the Q block of two blocks of ones is not
the one that the byte loops give. -/
theorem rsEncode_unsignedCompare_ne :
    (rsEncode ⟨false, false, false, false, true, false⟩ 5 16
        (fun _ => some fun _ => vec16 1)).bind (fun data => data.read 3 0) ≠
      (rsEncode (bytewise ⟨false, false, false, false, true, false⟩) 5 16
        (fun _ => some fun _ => vec16 1)).bind fun data => data.read 3 0 := by
  decide +kernel

end Build

end QfsRepair.ErasureCode
