import QfsRepair.Algebra.BinaryShiftRing
import Mathlib.Data.List.Iterate
import Mathlib.GroupTheory.OrderOfElement
import Mathlib.Data.Fin.VecNotation
import Mathlib.Tactic.NormNum.Prime

/-!
# Recovery tables of the Reed-Solomon decoder

The coefficient tables that `mktable_main.c` prints: powers and inverses of
`2` in the field of 256 elements modulo `0x11d`, the one, two and three block
recovery matrices for up to 64 data blocks, and the maps from block numbers to
rows of those matrices.
-/

namespace QfsRepair.ErasureCode

open Function List
open QfsRepair.Algebra

abbrev Byte := BitVec 8

/-- Bytes as polynomials modulo `x^8 + x^4 + x^3 + x^2 + 1`. -/
abbrev Gf256 := BinaryWord (0x1d : Byte)

/-- `while (x != 0) { if (x & 1) z ^= y; x >>= 1; y = mul2(y); }`.  Eight
rounds use up every bit of `x`. -/
def mulLoop {Value : Type*} [XorOp Value] (mul2 : Value → Value) :
    ℕ → Byte → Value → Value → Value
  | 0, _, _, z => z
  | rounds + 1, x, y, z =>
    if x = 0 then z
    else mulLoop mul2 rounds (x >>> 1) (mul2 y) (if x &&& 1 = 1 then z ^^^ y else z)

namespace Mktable

/-- `RS_LIB_MAX_DATA_BLOCKS`. -/
def maxDataBlocks : ℕ := 64

def mul2 (x : Byte) : Byte :=
  x <<< 1 ^^^ if x &&& 0x80 ≠ 0 then 0x1d else 0

def mul (x y : Byte) : Byte :=
  mulLoop mul2 8 x y 0

/-- `pow2[256]`. -/
def pow2Table : List Byte := List.iterate mul2 1 256

def pow2 (index : ℕ) : Byte := pow2Table.getD index 0

/-- `inv[256]`, zero where the loop stores nothing. -/
def inv : Byte → Byte :=
  (List.range 255).foldl
    (fun table i => update table (pow2 i) (pow2 (255 - i))) fun _ => 0

/-- The pairs `x < y` in the order in which the tables enumerate them. -/
def pairs : List (ℕ × ℕ) :=
  (List.range maxDataBlocks).flatMap fun x =>
    (List.range' (x + 1) (maxDataBlocks - (x + 1))).map fun y => (x, y)

/-- The triples `x < y < z` in the order in which the tables enumerate them. -/
def triples : List (ℕ × ℕ × ℕ) :=
  (List.range maxDataBlocks).flatMap fun x =>
    (List.range' (x + 1) (maxDataBlocks - (x + 1))).flatMap fun y =>
      (List.range' (y + 1) (maxDataBlocks - (y + 1))).map fun z => (x, y, z)

def r1Q : List Byte := (List.range maxDataBlocks).map fun x => pow2 (255 - x)

def r1R : List Byte := (List.range maxDataBlocks).map fun x => pow2 (255 - 2 * x)

def rowPQ (x y : ℕ) : Fin 4 → Byte :=
  let z := inv (pow2 x ^^^ pow2 y)
  ![mul z (pow2 y), z, mul z (pow2 x), z]

def rowPR (x y : ℕ) : Fin 4 → Byte :=
  let z := inv (pow2 (2 * x) ^^^ pow2 (2 * y))
  ![mul z (pow2 (2 * y)), z, mul z (pow2 (2 * x)), z]

/-- The third power is `pow2[255+(x-y)]` with a negative `x-y`. -/
def rowQR (x y : ℕ) : Fin 4 → Byte :=
  let z := inv (pow2 x ^^^ pow2 y)
  ![mul z (pow2 (y - x)), mul z (pow2 (255 - x)),
    mul z (pow2 (255 + x - y)), mul z (pow2 (255 - y))]

def r2PQ : List (Fin 4 → Byte) := pairs.map fun p => rowPQ p.1 p.2

def r2PR : List (Fin 4 → Byte) := pairs.map fun p => rowPR p.1 p.2

def r2QR : List (Fin 4 → Byte) := pairs.map fun p => rowQR p.1 p.2

def row3 (x y z : ℕ) : Fin 9 → Byte :=
  let det := mul (pow2 x ^^^ pow2 y) (mul (pow2 x ^^^ pow2 z) (pow2 y ^^^ pow2 z))
  ![mul (inv det) (pow2 (y + 2 * z) ^^^ pow2 (z + 2 * y)),
    mul (inv det) (pow2 (2 * y) ^^^ pow2 (2 * z)),
    mul (inv det) (pow2 y ^^^ pow2 z),
    mul (inv det) (pow2 (x + 2 * z) ^^^ pow2 (z + 2 * x)),
    mul (inv det) (pow2 (2 * x) ^^^ pow2 (2 * z)),
    mul (inv det) (pow2 x ^^^ pow2 z),
    mul (inv det) (pow2 (x + 2 * y) ^^^ pow2 (y + 2 * x)),
    mul (inv det) (pow2 (2 * x) ^^^ pow2 (2 * y)),
    mul (inv det) (pow2 x ^^^ pow2 y)]

def r3 : List (Fin 9 → Byte) := triples.map fun t => row3 t.1 t.2.1 t.2.2

/-- Store the running count, as a `uint16_t`, in every slot of each key. -/
def indexMap {Key Slot : Type*} [DecidableEq Slot] (slots : Key → List Slot)
    (keys : List Key) : Slot → ℕ :=
  keys.zipIdx.foldl
    (fun map entry slot => if slot ∈ slots entry.1 then entry.2 % 2 ^ 16 else map slot)
    fun _ => 0xffff

/-- `r2map[x][y] = r2map[y][x] = n++`. -/
def r2map (x y : ℕ) : ℕ :=
  indexMap (fun p : ℕ × ℕ => [(p.1, p.2), (p.2, p.1)]) pairs (x, y)

/-- The six orders of a triple share one row. -/
def r3map (x y z : ℕ) : ℕ :=
  indexMap (fun t : ℕ × ℕ × ℕ =>
    [(t.1, t.2.1, t.2.2), (t.1, t.2.2, t.2.1), (t.2.1, t.1, t.2.2),
     (t.2.1, t.2.2, t.1), (t.2.2, t.1, t.2.1), (t.2.2, t.2.1, t.1)]) triples (x, y, z)

end Mktable

/-! ## The tables in field terms -/

theorem and_one_eq_one_iff (x : Byte) : x &&& 1 = 1 ↔ x.getLsbD 0 = true := by
  revert x
  decide

/-- A shift-and-add loop computes the field product, for every value type that
maps to the field so that its `^` is addition and its `mul2` doubling. -/
theorem mulLoop_eq {Value : Type*} [XorOp Value] {mul2 : Value → Value} (toField : Value → Gf256)
    (hxor : ∀ left right, toField (left ^^^ right) = toField left + toField right)
    (hmul2 : ∀ value, toField (mul2 value) = BinaryWord.double (toField value)) (rounds : ℕ)
    (x : Byte) (y z : Value) :
    toField (mulLoop mul2 rounds x y z) =
      toField z + BinaryWord.shiftAdd rounds x (toField y) := by
  induction rounds generalizing x y z with
  | zero => simp [mulLoop, BinaryWord.shiftAdd]
  | succ rounds ih =>
    by_cases hzero : x = 0
    · rw [mulLoop, if_pos hzero, hzero, BinaryWord.shiftAdd_zero_factor, add_zero]
    · rw [mulLoop, if_neg hzero, ih, hmul2, BinaryWord.shiftAdd, ← add_assoc]
      by_cases hbit : x.getLsbD 0
      · rw [if_pos ((and_one_eq_one_iff x).mpr hbit), if_pos hbit, hxor]
      · rw [if_neg (mt (and_one_eq_one_iff x).mp hbit), if_neg hbit, add_zero]

namespace Mktable

theorem mul2_eq_double (x : Byte) : (⟨mul2 x⟩ : Gf256) = BinaryWord.double ⟨x⟩ := by
  revert x
  decide

theorem mul_eq (x y : Byte) : (⟨mul x y⟩ : Gf256) = ⟨x⟩ * ⟨y⟩ := by
  refine (mulLoop_eq BinaryWord.mk (fun _ _ => rfl) mul2_eq_double 8 x y 0).trans ?_
  exact zero_add _

/-- The element `2`, whose powers are all non-zero elements. -/
def generator : Gf256 := BinaryWord.double 1

theorem pow2_eq {index : ℕ} (hindex : index < 256) :
    (⟨pow2 index⟩ : Gf256) = generator ^ index := by
  have hiterate : pow2 index = mul2^[index] 1 := by
    rw [pow2, pow2Table, getD_eq_getElem?_getD, getElem?_iterate _ _ _ _ hindex,
      Option.getD_some]
  rw [hiterate]
  clear hiterate hindex
  induction index with
  | zero => decide
  | succ index ih =>
    rw [iterate_succ_apply', mul2_eq_double, ih, BinaryWord.double_eq_mul, pow_succ', generator]

theorem orderOf_generator : orderOf generator = 255 := by
  refine orderOf_eq_of_pow_and_pow_div_prime (by decide) ?_ fun p hprime hdvd => ?_
  · rw [← pow2_eq (by decide)]
    decide +kernel
  · have hfactor : p ∣ 3 * 5 * 17 := hdvd
    have hcases : p = 3 ∨ p = 5 ∨ p = 17 := by
      rcases hprime.dvd_mul.mp hfactor with hleft | hright
      · rcases hprime.dvd_mul.mp hleft with h3 | h5
        · exact .inl ((Nat.prime_dvd_prime_iff_eq hprime Nat.prime_three).mp h3)
        · exact .inr (.inl ((Nat.prime_dvd_prime_iff_eq hprime Nat.prime_five).mp h5))
      · exact .inr (.inr ((Nat.prime_dvd_prime_iff_eq hprime (by norm_num)).mp hright))
    rcases hcases with rfl | rfl | rfl
    all_goals
      rw [← pow2_eq (by decide)]
      decide +kernel

theorem generator_pow_order : generator ^ 255 = 1 := by
  rw [← orderOf_generator]
  exact pow_orderOf_eq_one generator

/-- Powers of `2` below its order are distinct. -/
theorem generator_pow_injective {left right : ℕ} (hleft : left < 255) (hright : right < 255)
    (heq : generator ^ left = generator ^ right) : left = right := by
  refine pow_injOn_Iio_orderOf ?_ ?_ heq <;> simpa [orderOf_generator]

theorem generator_pow_ne_zero (exponent : ℕ) : generator ^ exponent ≠ 0 := by
  intro hzero
  have hpower : (generator ^ exponent) ^ 255 = 1 := by
    rw [← pow_mul, mul_comm, pow_mul, generator_pow_order, one_pow]
  rw [hzero, zero_pow (by decide)] at hpower
  exact absurd hpower (by decide)

/-- Every non-zero byte is a power of `2`: there are 255 of either. -/
theorem exists_generator_pow {value : Gf256} (hvalue : value ≠ 0) :
    ∃ exponent < 255, value = generator ^ exponent := by
  let encode : Gf256 → Fin 256 := fun element => element.bits.toFin
  have hencode : Injective encode := fun left right heq =>
    BinaryWord.ext (BitVec.toFin_inj.mp heq)
  let powers := (Finset.range 255).image fun exponent => encode (generator ^ exponent)
  have hsubset : powers ⊆ Finset.univ.erase (encode 0) := by
    intro element helement
    obtain ⟨exponent, -, rfl⟩ := Finset.mem_image.mp helement
    exact Finset.mem_erase.mpr
      ⟨hencode.ne (generator_pow_ne_zero exponent), Finset.mem_univ _⟩
  have hcard : powers.card = 255 := by
    rw [Finset.card_image_of_injOn, Finset.card_range]
    intro left hleft right hright heq
    exact generator_pow_injective (by simpa using hleft) (by simpa using hright)
      (hencode heq)
  have hpowers : powers = Finset.univ.erase (encode 0) := by
    refine Finset.eq_of_subset_of_card_le hsubset ?_
    rw [hcard]
    simp
  have hmem : encode value ∈ powers := by
    rw [hpowers]
    exact Finset.mem_erase.mpr ⟨hencode.ne hvalue, Finset.mem_univ _⟩
  obtain ⟨exponent, hexponent, heq⟩ := Finset.mem_image.mp hmem
  exact ⟨exponent, mem_range.mp hexponent, (hencode heq).symm⟩

theorem pow2_injective {left right : ℕ} (hleft : left < 255) (hright : right < 255)
    (heq : pow2 left = pow2 right) : left = right := by
  refine generator_pow_injective hleft hright ?_
  rw [← pow2_eq (by omega), ← pow2_eq (by omega), heq]

/-- The loop that fills `inv` leaves the reciprocal power at each power. -/
theorem inv_pow2 {exponent : ℕ} (hexponent : exponent < 255) :
    inv (pow2 exponent) = pow2 (255 - exponent) := by
  have hfill : ∀ count ≤ 255, exponent < count →
      (range count).foldl
        (fun (table : Byte → Byte) i => update table (pow2 i) (pow2 (255 - i)))
        (fun _ => 0) (pow2 exponent) = pow2 (255 - exponent) := by
    intro count
    induction count with
    | zero => intro _ hlt; omega
    | succ count ih =>
      intro hcount hlt
      rw [range_succ, foldl_append, foldl_cons, foldl_nil]
      by_cases heq : exponent = count
      · rw [heq, update_self]
      · rw [update_of_ne]
        · exact ih (by omega) (by omega)
        · exact fun hpow => heq (pow2_injective hexponent (by omega) hpow)
  exact hfill 255 le_rfl hexponent

theorem inv_mul {value : Gf256} (hvalue : value ≠ 0) :
    ⟨inv value.bits⟩ * value = (1 : Gf256) := by
  obtain ⟨exponent, hexponent, rfl⟩ := exists_generator_pow hvalue
  rw [← pow2_eq (by omega), inv_pow2 hexponent, pow2_eq (by omega), pow2_eq (by omega),
    ← pow_add, Nat.sub_add_cancel (by omega), generator_pow_order]

/-! ## Row numbers -/

theorem mem_pairs {x y : ℕ} : (x, y) ∈ pairs ↔ x < y ∧ y < maxDataBlocks := by
  simp only [pairs, mem_flatMap, mem_range, mem_map, mem_range'_1, Prod.mk.injEq]
  constructor
  · omega
  · rintro ⟨hxy, hy⟩
    exact ⟨x, by omega, y, by omega, rfl, rfl⟩

theorem mem_triples {x y z : ℕ} :
    (x, y, z) ∈ triples ↔ x < y ∧ y < z ∧ z < maxDataBlocks := by
  simp only [triples, mem_flatMap, mem_range, mem_map, mem_range'_1, Prod.mk.injEq]
  constructor
  · omega
  · rintro ⟨hxy, hyz, hz⟩
    exact ⟨x, by omega, y, by omega, z, by omega, rfl, rfl, rfl⟩

theorem length_pairs : pairs.length = 2016 := by
  simp only [pairs, length_flatMap, length_map, length_range']
  decide

theorem length_triples : triples.length = 41664 := by
  simp only [triples, length_flatMap, length_map, length_range']
  decide +kernel

/-- The number stored in a slot is the position of a key that owns the slot. -/
theorem indexMap_spec {Key Slot : Type*} [DecidableEq Slot] (slots : Key → List Slot)
    (keys : List Key) (hlength : keys.length ≤ 2 ^ 16) (slot : Slot)
    (howner : ∃ key ∈ keys, slot ∈ slots key) :
    ∃ key, keys[indexMap slots keys slot]? = some key ∧ slot ∈ slots key := by
  induction keys using reverseRecOn with
  | nil => simp at howner
  | append_singleton keys last ih =>
    simp only [length_append, length_singleton] at hlength
    have hstep : indexMap slots (keys ++ [last]) slot =
        if slot ∈ slots last then keys.length % 2 ^ 16 else indexMap slots keys slot := by
      simp [indexMap, zipIdx_append]
    rw [hstep]
    by_cases hlast : slot ∈ slots last
    · rw [if_pos hlast, Nat.mod_eq_of_lt (by omega)]
      exact ⟨last, by simp, hlast⟩
    · rw [if_neg hlast]
      have hearlier : ∃ key ∈ keys, slot ∈ slots key := by
        obtain ⟨key, hkey, hslot⟩ := howner
        rcases mem_append.mp hkey with hmem | hmem
        · exact ⟨key, hmem, hslot⟩
        · rw [mem_singleton.mp hmem] at hslot
          exact absurd hslot hlast
      obtain ⟨key, hget, hslot⟩ := ih (by omega) hearlier
      refine ⟨key, ?_, hslot⟩
      have hlt : indexMap slots keys slot < keys.length :=
        (List.getElem?_eq_some_iff.mp hget).1
      rw [getElem?_append_left hlt, hget]

/-- A two block row is found under the map's number for its blocks. -/
theorem getElem?_r2map {Row : Type*} (row : ℕ × ℕ → Row) {x y : ℕ}
    (hxy : x < y) (hy : y < maxDataBlocks) :
    (pairs.map row)[r2map x y]? = some (row (x, y)) := by
  obtain ⟨⟨a, b⟩, hget, hslot⟩ := indexMap_spec
    (fun p : ℕ × ℕ => [(p.1, p.2), (p.2, p.1)]) pairs (by simp [length_pairs])
    (x, y) ⟨(x, y), mem_pairs.mpr ⟨hxy, hy⟩, by simp⟩
  have hsorted : a < b := (mem_pairs.mp (mem_of_getElem? hget)).1
  have hkey : (a, b) = (x, y) := by
    simp only [mem_cons, Prod.mk.injEq, not_mem_nil, or_false] at hslot
    ext <;> simp <;> omega
  rw [getElem?_map, r2map, hget, hkey, Option.map_some]

/-- A three block row is found under the map's number for its blocks. -/
theorem getElem?_r3map {Row : Type*} (row : ℕ × ℕ × ℕ → Row) {x y z : ℕ}
    (hxy : x < y) (hyz : y < z) (hz : z < maxDataBlocks) :
    (triples.map row)[r3map x y z]? = some (row (x, y, z)) := by
  obtain ⟨⟨a, b, c⟩, hget, hslot⟩ := indexMap_spec
    (fun t : ℕ × ℕ × ℕ =>
      [(t.1, t.2.1, t.2.2), (t.1, t.2.2, t.2.1), (t.2.1, t.1, t.2.2),
       (t.2.1, t.2.2, t.1), (t.2.2, t.1, t.2.1), (t.2.2, t.2.1, t.1)])
    triples (by simp [length_triples])
    (x, y, z) ⟨(x, y, z), mem_triples.mpr ⟨hxy, hyz, hz⟩, by simp⟩
  have hsorted : a < b ∧ b < c := by
    have hmem := mem_triples.mp (mem_of_getElem? hget)
    exact ⟨hmem.1, hmem.2.1⟩
  have hkey : (a, b, c) = (x, y, z) := by
    simp only [mem_cons, Prod.mk.injEq, not_mem_nil, or_false] at hslot
    ext <;> simp <;> omega
  rw [getElem?_map, r3map, hget, hkey, Option.map_some]

end Mktable

end QfsRepair.ErasureCode
