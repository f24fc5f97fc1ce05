import QfsRepair.ErasureCode.Columns

/-!
# Decoding restores what was encoded

After `rs_encode` the blocks form a codeword: the last three are the syndromes
of the data blocks at the nodes `1`, `2` and `4`.  The rows of the recovery
tables invert the Vandermonde systems of one, two or three unknown data
blocks, so each of the static decoders puts the codeword's data blocks back;
the remaining parity blocks are encoded again.
-/

namespace QfsRepair.ErasureCode

open Function List
open QfsRepair.Algebra QfsRepair.Machine Mktable
open Option hiding guard

/-! ## Recovery matrices -/

namespace Mktable

variable {x y z : ℕ} {u v : Gf256}

theorem pow2_xor_eq {left right : ℕ} (hleft : left < 256) (hright : right < 256) :
    (⟨pow2 left ^^^ pow2 right⟩ : Gf256) = generator ^ left + generator ^ right := by
  rw [← pow2_eq hleft, ← pow2_eq hright]
  rfl

theorem inv_pow2_add_mul (hxy : x < y) (hy : y < 255) :
    (⟨inv (pow2 x ^^^ pow2 y)⟩ : Gf256) * (generator ^ x + generator ^ y) = 1 := by
  have hsum : (⟨pow2 x ^^^ pow2 y⟩ : Gf256) = generator ^ x + generator ^ y :=
    pow2_xor_eq (by omega) (by omega)
  have hne : generator ^ x + generator ^ y ≠ 0 := by
    intro hzero
    have heq : generator ^ x = generator ^ y := CharTwo.add_eq_zero.mp hzero
    exact hxy.ne (generator_pow_injective (by omega) hy heq)
  rw [← hsum]
  exact inv_mul (hsum ▸ hne)

theorem generator_pow_cancel {exponent : ℕ} (hexponent : exponent ≤ 255) :
    generator ^ (255 - exponent) * generator ^ exponent = 1 := by
  rw [← pow_add, Nat.sub_add_cancel hexponent, generator_pow_order]

theorem r1Q_solve (hx : x < maxDataBlocks) :
    ∃ c, r1Q[x]? = some c ∧ ∀ u : Gf256, ⟨c⟩ * (generator ^ x * u) = u := by
  have hx' : x < 64 := hx
  refine ⟨pow2 (255 - x), by simp [r1Q, hx], fun u => ?_⟩
  rw [pow2_eq (by omega), ← mul_assoc, generator_pow_cancel (by omega), one_mul]

theorem r1R_solve (hx : x < maxDataBlocks) :
    ∃ c, r1R[x]? = some c ∧ ∀ u : Gf256, ⟨c⟩ * ((generator ^ 2) ^ x * u) = u := by
  have hx' : x < 64 := hx
  refine ⟨pow2 (255 - 2 * x), by simp [r1R, hx], fun u => ?_⟩
  rw [pow2_eq (by omega), ← mul_assoc, ← pow_mul, generator_pow_cancel (by omega), one_mul]

variable (hxy : x < y)

include hxy

section

variable (hy : y < maxDataBlocks)

include hy

theorem rowPQ_solve :
    (⟨rowPQ x y 0⟩ : Gf256) * (u + v) +
        ⟨rowPQ x y 1⟩ * (generator ^ x * u + generator ^ y * v) = u ∧
      (⟨rowPQ x y 2⟩ : Gf256) * (u + v) +
        ⟨rowPQ x y 3⟩ * (generator ^ x * u + generator ^ y * v) = v := by
  have hy' : y < 64 := hy
  have hinverse := inv_pow2_add_mul hxy (by omega : y < 255)
  have hx := pow2_eq (by omega : x < 256)
  have hy := pow2_eq (by omega : y < 256)
  simp only [rowPQ, Matrix.cons_val, mul_eq, hx, hy]
  exact ⟨solve_pair_first hinverse, solve_pair_second hinverse⟩

theorem rowPR_solve :
    (⟨rowPR x y 0⟩ : Gf256) * (u + v) +
        ⟨rowPR x y 1⟩ * ((generator ^ 2) ^ x * u + (generator ^ 2) ^ y * v) = u ∧
      (⟨rowPR x y 2⟩ : Gf256) * (u + v) +
        ⟨rowPR x y 3⟩ * ((generator ^ 2) ^ x * u + (generator ^ 2) ^ y * v) = v := by
  have hy' : y < 64 := hy
  have hinverse := inv_pow2_add_mul (by omega : 2 * x < 2 * y) (by omega : 2 * y < 255)
  have hx := pow2_eq (by omega : 2 * x < 256)
  have hy := pow2_eq (by omega : 2 * y < 256)
  simp only [rowPR, Matrix.cons_val, mul_eq, hx, hy, ← pow_mul]
  exact ⟨solve_pair_first hinverse, solve_pair_second hinverse⟩

theorem rowQR_solve :
    (⟨rowQR x y 0⟩ : Gf256) * (generator ^ x * u + generator ^ y * v) +
        ⟨rowQR x y 1⟩ * ((generator ^ 2) ^ x * u + (generator ^ 2) ^ y * v) = u ∧
      (⟨rowQR x y 2⟩ : Gf256) * (generator ^ x * u + generator ^ y * v) +
        ⟨rowQR x y 3⟩ * ((generator ^ 2) ^ x * u + (generator ^ 2) ^ y * v) = v := by
  have hy' : y < 64 := hy
  have hinverse := inv_pow2_add_mul hxy (by omega : y < 255)
  have hcancelX := generator_pow_cancel (by omega : x ≤ 255)
  have hcancelY := generator_pow_cancel (by omega : y ≤ 255)
  have hshiftX : generator ^ (y - x) = generator ^ (255 - x) * generator ^ y := by
    calc
      generator ^ (y - x) = generator ^ 255 * generator ^ (y - x) := by
        rw [generator_pow_order, one_mul]
      _ = generator ^ (255 - x) * generator ^ y := by
        rw [← pow_add, ← pow_add]
        congr 1
        omega
  have hshiftY : generator ^ (255 + x - y) = generator ^ (255 - y) * generator ^ x := by
    rw [← pow_add]
    congr 1
    omega
  simp only [rowQR, Matrix.cons_val, mul_eq, pow2_eq (by omega : y - x < 256),
    pow2_eq (by omega : 255 - x < 256), pow2_eq (by omega : 255 + x - y < 256),
    pow2_eq (by omega : 255 - y < 256), hshiftX, hshiftY,
    pow_right_comm generator 2 x, pow_right_comm generator 2 y]
  generalize (⟨inv (pow2 x ^^^ pow2 y)⟩ : Gf256) = inverse at hinverse ⊢
  generalize generator ^ (255 - x) = reciprocalX at hcancelX ⊢
  generalize generator ^ (255 - y) = reciprocalY at hcancelY ⊢
  generalize generator ^ x = a at *
  generalize generator ^ y = b at *
  constructor
  · linear_combination u * hinverse + inverse * (a + b) * u * hcancelX +
      inverse * reciprocalX * b ^ 2 * v * CharTwo.two_eq_zero (R := Gf256)
  · linear_combination v * hinverse + inverse * (a + b) * v * hcancelY +
      inverse * reciprocalY * a ^ 2 * u * CharTwo.two_eq_zero (R := Gf256)

end

theorem inv_det_mul (hyz : y < z) (hz : z < maxDataBlocks) :
    (⟨inv (mul (pow2 x ^^^ pow2 y) (mul (pow2 x ^^^ pow2 z) (pow2 y ^^^ pow2 z)))⟩ : Gf256) *
      ((generator ^ x + generator ^ y) *
        ((generator ^ x + generator ^ z) * (generator ^ y + generator ^ z))) = 1 := by
  have hz' : z < 64 := hz
  have hunit : ∀ {left right : ℕ}, left < right → right < 64 →
      IsUnit (generator ^ left + generator ^ right) := fun hlt hright =>
    IsUnit.of_mul_eq_one_right _ (inv_pow2_add_mul hlt (by omega))
  have hdet : (⟨mul (pow2 x ^^^ pow2 y)
      (mul (pow2 x ^^^ pow2 z) (pow2 y ^^^ pow2 z))⟩ : Gf256) =
        (generator ^ x + generator ^ y) *
          ((generator ^ x + generator ^ z) * (generator ^ y + generator ^ z)) := by
    rw [mul_eq, mul_eq]
    iterate 3 rw [pow2_xor_eq (by omega) (by omega)]
  rw [← hdet]
  refine inv_mul (hdet ▸ IsUnit.ne_zero ?_)
  exact (hunit hxy (by omega)).mul ((hunit (by omega) hz').mul (hunit hyz hz'))

theorem row3_solve (hyz : y < z) (hz : z < maxDataBlocks) {values : ℕ → Gf256} {p q r : Gf256}
    (hp : p = ([x, y, z].map fun j => 1 ^ j * values j).sum)
    (hq : q = ([x, y, z].map fun j => generator ^ j * values j).sum)
    (hr : r = ([x, y, z].map fun j => (generator ^ 2) ^ j * values j).sum) :
    (⟨row3 x y z 0⟩ : Gf256) * p + ⟨row3 x y z 1⟩ * q + ⟨row3 x y z 2⟩ * r = values x ∧
      (⟨row3 x y z 3⟩ : Gf256) * p + ⟨row3 x y z 4⟩ * q + ⟨row3 x y z 5⟩ * r = values y ∧
      (⟨row3 x y z 6⟩ : Gf256) * p + ⟨row3 x y z 7⟩ * q + ⟨row3 x y z 8⟩ * r = values z := by
  have hz' : z < 64 := hz
  have hinverse := inv_det_mul hxy hyz hz
  simp only [row3, Matrix.cons_val, mul_eq]
  iterate 9 rw [pow2_xor_eq (by omega) (by omega)]
  simp only [map_cons, map_nil, sum_cons, sum_nil, add_zero, one_pow, one_mul, ← add_assoc,
    pow_right_comm generator 2] at hp hq hr
  simp only [pow_add, mul_comm 2, pow_mul]
  generalize (⟨inv (mul (pow2 x ^^^ pow2 y)
    (mul (pow2 x ^^^ pow2 z) (pow2 y ^^^ pow2 z)))⟩ : Gf256) = inverse at hinverse ⊢
  subst hp hq hr
  refine ⟨solve_triple_first hinverse, ?_, ?_⟩
  · have hsecond := solve_triple_first (a := generator ^ y) (b := generator ^ x)
      (c := generator ^ z) (u := values y) (v := values x) (w := values z)
      (by rw [← hinverse]; ring : inverse * _ = 1)
    linear_combination hsecond
  · have hthird := solve_triple_first (a := generator ^ z) (b := generator ^ x)
      (c := generator ^ y) (u := values z) (v := values x) (w := values y)
      (by rw [← hinverse]; ring : inverse * _ = 1)
    linear_combination hthird

end Mktable

/-! ## Codewords and erased columns -/

/-- The three blocks after the `n` data blocks are their P, Q and R syndromes. -/
structure Codeword {words : ℕ} (n : ℕ) (blocks : ℕ → Fin words → V16) : Prop where
  parityP : ∀ i k, (blocks n i).field k =
    syndrome 1 (fun j => (blocks j i).field k) n
  parityQ : ∀ i k, (blocks (n + 1) i).field k =
    syndrome Mktable.generator (fun j => (blocks j i).field k) n
  parityR : ∀ i k, (blocks (n + 2) i).field k =
    syndrome (Mktable.generator ^ 2) (fun j => (blocks j i).field k) n

section Erased

variable {words n : ℕ} {blocks : ℕ → Fin words → V16} {missing : List ℕ}
variable {i : Fin words} {k : Fin 16} {node : Gf256}

/-- The column with the missing blocks cleared. -/
def erased (missing : List ℕ) (blocks : ℕ → Fin words → V16) (i : Fin words) (j : ℕ) : V16 :=
  if j ∈ missing then vec16 0 else blocks j i

theorem syndrome_erased (hnodup : missing.Nodup) (hlt : ∀ x ∈ missing, x < n) :
    syndrome node (fun j => (erased missing blocks i j).field k) n =
      syndrome node (fun j => (blocks j i).field k) n +
        (missing.map fun x => node ^ x * (blocks x i).field k).sum := by
  induction missing with
  | nil => simp [erased]
  | cons x missing ih =>
    obtain ⟨hfresh, hnodup⟩ := nodup_cons.mp hnodup
    have hupdate : (fun j => (erased (x :: missing) blocks i j).field k) =
        update (fun j => (erased missing blocks i j).field k) x 0 := by
      funext j
      by_cases hj : j = x <;> simp [erased, hj]
    rw [hupdate, syndrome_update_zero _ _ (hlt x (by simp)),
      ih hnodup fun y hy => hlt y (mem_cons_of_mem _ hy)]
    simp only [erased, hfresh, if_false, map_cons, sum_cons]
    ring

/-- The syndrome of the erased column differs from the stored one by the
weighted missing values. -/
theorem syndrome_erased_add_parity (hnodup : missing.Nodup) (hlt : ∀ x ∈ missing, x < n)
    {parity : V16} (hparity : parity.field k = syndrome node (fun j => (blocks j i).field k) n) :
    syndrome node (fun j => (erased missing blocks i j).field k) n + parity.field k =
      (missing.map fun x => node ^ x * (blocks x i).field k).sum := by
  rw [syndrome_erased hnodup hlt, hparity, add_right_comm, CharTwo.add_self_eq_zero, zero_add]

variable {data current : Buffers words V16} {j : ℕ}
variable (hcurrent : ∀ block, current.read block i =
  (data.replace missing fun _ _ => vec16 0).read block i)

include hcurrent

/-- Buffers that hold the codeword outside the missing data blocks read as an
erased column once those have been cleared. -/
theorem read_cleared (hintact : j ∉ missing → data j = some (blocks j)) :
    current.read j i = some (erased missing blocks i j) := by
  rw [hcurrent]
  by_cases hj : j ∈ missing
  · simp [Buffers.read, Buffers.replace, erased, hj]
  · simp [Buffers.read, Buffers.replace, erased, hj, hintact hj]

theorem read_parity (hlt : ∀ x ∈ missing, x < n) (hj : n ≤ j) (hintact : data j = some (blocks j)) :
    current.read j i = some (blocks j i) := by
  rw [read_cleared hcurrent fun _ => hintact, erased, if_neg fun hmem => hj.not_gt (hlt j hmem)]

end Erased

namespace Build

variable {build : Build} {words n x y z : ℕ} {blocks : ℕ → Fin words → V16}
variable {data : Buffers words V16}

/-! ## Encoding -/

/-- Encoding the data blocks of a codeword stores the codeword's parity. -/
theorem rsEncode_eq (hbuild : build.Doubles) {blocksize : ℕ}
    {blocks : ℕ → Fin (blocksize / 16) → V16} {data : Buffers (blocksize / 16) V16}
    (hcodeword : Codeword n blocks) (hn : 0 < n) (hblocksize : blocksize % 16 = 0)
    (hdata : ∀ j < n, data j = some (blocks j))
    (hparity : ∀ j ∈ [n, n + 1, n + 2], (data j).isSome) :
    build.rsEncode (n + 3) blocksize data =
      some (data.replace [n, n + 1, n + 2] blocks) := by
  have hloop : columnLoop (build.encodeColumn n) data () =
      some (data.replace [n, n + 1, n + 2] blocks) := by
    refine columnLoop_eq_replace _ blocks (by simp) hparity fun current i hcurrent => ?_
    have hcolumn : ∀ j < n, current.read j i = some (blocks j i) := by
      intro j hj
      rw [hcurrent, Buffers.read, hdata j hj, map_some]
    obtain ⟨p, q, r, hcompute, hfield⟩ := encodeColumn_eq_some hbuild hn hcolumn
    have hp : p = blocks n i :=
      V16.eq_of_field_eq fun k => (hfield k).1.trans (hcodeword.parityP i k).symm
    have hq : q = blocks (n + 1) i :=
      V16.eq_of_field_eq fun k => (hfield k).2.1.trans (hcodeword.parityQ i k).symm
    have hr : r = blocks (n + 2) i :=
      V16.eq_of_field_eq fun k => (hfield k).2.2.trans (hcodeword.parityR i k).symm
    rw [hcompute, hp, hq, hr]
    rfl
  simp [rsEncode, guard, hn, hblocksize, hloop]

/-- Every choice of data blocks extends to a codeword. -/
theorem exists_codeword (n : ℕ) (values : ℕ → Fin words → V16) :
    ∃ blocks, (∀ j < n, blocks j = values j) ∧ Codeword n blocks := by
  let parity (node : Gf256) (i : Fin words) : V16 :=
    ⟨fun k => (syndrome node (fun j => (values j i).field k) n).bits⟩
  let blocks : ℕ → Fin words → V16 := fun j =>
    if j < n then values j
    else if j = n then parity 1
    else if j = n + 1 then parity Mktable.generator
    else parity (Mktable.generator ^ 2)
  have hdata : ∀ j < n, blocks j = values j := fun j hj => if_pos hj
  have hsyndrome : ∀ node i k, syndrome node (fun j => (blocks j i).field k) n =
      syndrome node (fun j => (values j i).field k) n := fun node i k =>
    syndrome_congr node fun j hj => by rw [hdata j hj]
  refine ⟨blocks, hdata, ⟨fun i k => ?_, fun i k => ?_, fun i k => ?_⟩⟩
  all_goals
    rw [hsyndrome]
    refine BinaryWord.ext ?_
    simp [blocks, parity, V16.field]

/-! ## The public decoders -/

section Public

variable {blocksize : ℕ} {blocks : ℕ → Fin (blocksize / 16) → V16}
variable {data : Buffers (blocksize / 16) V16} {missing : List ℕ}

/-- The buffers hold a codeword but for the missing blocks, whose contents are
arbitrary; the pointers of missing parity blocks may be null. -/
structure Damaged (n : ℕ) (blocks : ℕ → Fin (blocksize / 16) → V16) (missing : List ℕ)
    (data : Buffers (blocksize / 16) V16) : Prop where
  codeword : Codeword n blocks
  intact : ∀ j < n + 3, j ∉ missing → data j = some (blocks j)
  nonnull : ∀ j ∈ missing, j < n → (data j).isSome

/-- The outcome of a decoder puts codeword blocks in place of every missing
data block, and of every missing block when all have a buffer. -/
def Recovers (n : ℕ) (blocks : ℕ → Fin (blocksize / 16) → V16) (missing : List ℕ)
    (data : Buffers (blocksize / 16) V16)
    (outcome : Option (Buffers (blocksize / 16) V16)) : Prop :=
  ∃ replaced : List ℕ, outcome = some (data.replace replaced blocks) ∧
    (∀ j ∈ replaced, j < n + 3) ∧ (∀ j ∈ missing, j < n → j ∈ replaced) ∧
    ((∀ j ∈ missing, (data j).isSome) → ∀ j ∈ missing, j < n + 3 → j ∈ replaced)

/-- A decoder that needs no parity block rebuilt. -/
theorem recovers_data {replaced : List ℕ} (hreplaced : ∀ j ∈ replaced, j < n)
    (hall : ∀ j ∈ missing, j ∈ replaced) :
    Recovers n blocks missing data (some (data.replace replaced blocks)) :=
  ⟨replaced, rfl, fun j hj => Nat.lt_add_right 3 (hreplaced j hj),
    fun j hj _ => hall j hj, fun _ j hj _ => hall j hj⟩

/-- A decoder that encodes again once the data blocks are back. -/
theorem recovers_encode (hbuild : build.Doubles) (hn : 0 < n) (hblocksize : blocksize % 16 = 0)
    (hdamaged : Damaged n blocks missing data) (replaced : List ℕ)
    (hreplaced : ∀ j ∈ replaced, j < n) (hall : ∀ j ∈ missing, j < n → j ∈ replaced) :
    Recovers n blocks missing data
      (build.rsEncodeIfRequested (n + 3) blocksize (data.replace replaced blocks)) := by
  have hparity : ∀ j, n ≤ j → data.replace replaced blocks j = data j := by
    intro j hj
    exact if_neg fun hmem => absurd (hreplaced j hmem) (by omega)
  have hdata : ∀ j < n, data.replace replaced blocks j = some (blocks j) := by
    intro j hj
    by_cases hmem : j ∈ replaced
    · exact if_pos hmem
    · rw [Buffers.replace, if_neg hmem]
      exact hdamaged.intact j (by omega) fun h => hmem (hall j h hj)
  rw [rsEncodeIfRequested]
  split_ifs with hrequested
  · simp only [Bool.and_eq_true, show n + 3 - 1 = n + 2 by omega,
      show n + 3 - 2 = n + 1 by omega, show n + 3 - 3 = n by omega] at hrequested
    obtain ⟨⟨hR, hQ⟩, hP⟩ := hrequested
    rw [rsEncode_eq hbuild hdamaged.codeword hn hblocksize hdata (by simp [hP, hQ, hR]),
      Buffers.replace_replace]
    refine ⟨replaced ++ [n, n + 1, n + 2], rfl, ?_, ?_, ?_⟩
    · intro j hj
      rcases mem_append.mp hj with h | h
      · exact Nat.lt_add_right 3 (hreplaced j h)
      · simp at h; omega
    · exact fun j hj hlt => mem_append_left _ (hall j hj hlt)
    · intro _ j hj hlt
      by_cases hjn : j < n
      · exact mem_append_left _ (hall j hj hjn)
      · exact mem_append_right _ (by simp; omega)
  · refine ⟨replaced, rfl, fun j hj => Nat.lt_add_right 3 (hreplaced j hj), hall, ?_⟩
    intro hnonnull
    refine absurd ?_ hrequested
    have hsome : ∀ j, n ≤ j → j < n + 3 → (data.replace replaced blocks j).isSome := by
      intro j hge hlt
      rw [hparity j hge]
      by_cases hmem : j ∈ missing
      · exact hnonnull j hmem
      · rw [hdamaged.intact j hlt hmem]
        rfl
    simp only [Bool.and_eq_true]
    exact ⟨⟨hsome _ (by omega) (by omega), hsome _ (by omega) (by omega)⟩,
      hsome _ (by omega) (by omega)⟩

section OneData

variable (hdamaged : Damaged n blocks missing data) (hx : x < n) (hmem : x ∈ missing)
variable (honly : ∀ j ∈ missing, j < n → j = x)

include hdamaged hx hmem honly

/-- One missing data block, from an intact parity block whose node the
coefficient inverts. -/
theorem decode1_eq {node c : Gf256} {step : V16 → V16 → V16} (hstep : NodeStep node step)
    {parity : ℕ} {finish : V16 → V16} (hfinish : ∀ s k, (finish s).field k = c * s.field k)
    (hsolve : ∀ u, c * (node ^ x * u) = u)
    (hparity : ∀ i k, (blocks parity i).field k = syndrome node (fun j => (blocks j i).field k) n)
    (hrange : n ≤ parity ∧ parity < n + 3) (hintact : parity ∉ missing) :
    decode1 (fun data i => accumulate step data n i) parity finish x data =
      some (data.replace [x] blocks) := by
  have hnonnull := hdamaged.nonnull x hmem hx
  rw [decode1, Buffers.fill_eq_replace hnonnull, bind_eq_bind, bind_some,
    columnLoop_eq_replace [x] blocks (nodup_singleton x), Buffers.replace_replace_same]
  · intro block hblock
    simp only [mem_singleton] at hblock
    exact Buffers.isSome_replace (hblock ▸ hnonnull)
  · intro current i hcurrent
    obtain ⟨s, -, hs, hfield⟩ := accumulate_eq_some hstep (by omega : 0 < n)
      fun j hj => read_cleared hcurrent fun hother => hdamaged.intact j (by omega) fun h =>
        hother (by simpa using honly j h hj)
    have hread : current.read parity i = some (blocks parity i) :=
      read_parity hcurrent (by simpa using hx) hrange.1 (hdamaged.intact parity hrange.2 hintact)
    have hvalue : finish (s ^^^ blocks parity i) = blocks x i := by
      refine V16.eq_of_field_eq fun k => ?_
      rw [hfinish, V16.field_xor, hfield, syndrome_erased_add_parity (nodup_singleton x)
        (by simpa using hx) (hparity i k)]
      simpa using hsolve _
    simp [hs, hread, hvalue]

theorem rsDecode1p_eq (hparity : n ∉ missing) :
    rsDecode1p n x data = some (data.replace [x] blocks) :=
  decode1_eq hdamaged hx hmem honly nodeStep_stepP (c := 1) (fun s k => (one_mul _).symm)
    (fun u => by simp) hdamaged.codeword.parityP (by omega) hparity

theorem rsDecode1q_eq (hbuild : build.Doubles) (hmax : n ≤ Mktable.maxDataBlocks)
    (hparity : n + 1 ∉ missing) :
    build.rsDecode1q n x data = some (data.replace [x] blocks) := by
  obtain ⟨c, hc, hsolve⟩ := r1Q_solve (by omega : x < Mktable.maxDataBlocks)
  rw [rsDecode1q, hc, bind_eq_bind]
  exact decode1_eq hdamaged hx hmem honly (nodeStep_stepQ hbuild) (field_mulby hbuild c) hsolve
    hdamaged.codeword.parityQ (by omega) hparity

theorem rsDecode1r_eq (hbuild : build.Doubles) (hmax : n ≤ Mktable.maxDataBlocks)
    (hparity : n + 2 ∉ missing) :
    build.rsDecode1r n x data = some (data.replace [x] blocks) := by
  obtain ⟨c, hc, hsolve⟩ := r1R_solve (by omega : x < Mktable.maxDataBlocks)
  rw [rsDecode1r, hc, bind_eq_bind]
  exact decode1_eq hdamaged hx hmem honly (nodeStep_stepR hbuild) (field_mulby hbuild c) hsolve
    hdamaged.codeword.parityR (by omega) hparity

end OneData

section TwoData

variable (hbuild : build.Doubles) (hdamaged : Damaged n blocks missing data)
variable (hxy : x < y) (hy : y < n) (hmax : n ≤ Mktable.maxDataBlocks)
variable (hmemX : x ∈ missing) (hmemY : y ∈ missing)
variable (honly : ∀ j ∈ missing, j < n → j = x ∨ j = y)

include hbuild hdamaged hxy hy hmax hmemX hmemY honly

/-- Two missing data blocks, from two intact parity blocks and the row that
solves their two equations. -/
theorem decode2_eq {row : ℕ × ℕ → Fin 4 → Byte} {nodeA nodeB : Gf256}
    {stepA stepB : V16 → V16 → V16} (hA : NodeStep nodeA stepA) (hB : NodeStep nodeB stepB)
    {offsetA offsetB : ℕ} (hoffset : offsetA < offsetB) (hlast : offsetB < 3)
    (hsolve : ∀ u v : Gf256,
      (⟨row (x, y) 0⟩ : Gf256) * (nodeA ^ x * u + nodeA ^ y * v) +
          ⟨row (x, y) 1⟩ * (nodeB ^ x * u + nodeB ^ y * v) = u ∧
        (⟨row (x, y) 2⟩ : Gf256) * (nodeA ^ x * u + nodeA ^ y * v) +
          ⟨row (x, y) 3⟩ * (nodeB ^ x * u + nodeB ^ y * v) = v)
    (hparityA : ∀ i k, (blocks (n + offsetA) i).field k =
      syndrome nodeA (fun j => (blocks j i).field k) n)
    (hparityB : ∀ i k, (blocks (n + offsetB) i).field k =
      syndrome nodeB (fun j => (blocks j i).field k) n) (hintactA : n + offsetA ∉ missing)
    (hintactB : n + offsetB ∉ missing) :
    build.decode2 stepA stepB offsetA offsetB (Mktable.pairs.map row) n x y data =
      some (data.replace [x, y] blocks) := by
  have hx := hdamaged.nonnull x hmemX (by omega)
  have hy' := hdamaged.nonnull y hmemY hy
  have hnodup : [x, y].Nodup := by simpa using hxy.ne
  have hlt : ∀ block ∈ [x, y], block < n := by simpa using ⟨by omega, hy⟩
  rw [decode2, Mktable.getElem?_r2map row hxy (by omega)]
  simp only [bind_eq_bind, bind_some, Buffers.fill_eq_replace hx,
    Buffers.fill_eq_replace (Buffers.isSome_replace hy'), Buffers.replace_replace, singleton_append]
  rw [columnLoop_eq_replace [x, y] blocks hnodup, Buffers.replace_replace_same]
  · intro block hblock
    refine Buffers.isSome_replace ?_
    simp only [mem_cons, not_mem_nil, or_false] at hblock
    rcases hblock with rfl | rfl <;> assumption
  · intro current i hcurrent
    have hcolumn : ∀ j < n, current.read j i = some (erased [x, y] blocks i j) :=
      fun j hj => read_cleared hcurrent fun hmem =>
        hdamaged.intact j (by omega) fun h => hmem (by simpa using honly j h hj)
    have hread : ∀ offset < 3, n + offset ∉ missing →
        current.read (n + offset) i = some (blocks (n + offset) i) := fun offset hlast hintact =>
      read_parity hcurrent hlt (by omega) (hdamaged.intact _ (by omega) hintact)
    obtain ⟨a, b, hdifferences, hfield⟩ := differences2_eq_some build hA hB (by omega)
      hcolumn hoffset (hread offsetA (by omega) hintactA) (hread offsetB hlast hintactB)
    have hfields : ∀ {value : V16} {c d : Fin 4},
        (∀ k, (⟨row (x, y) c⟩ : Gf256) * a.field k + ⟨row (x, y) d⟩ * b.field k = value.field k) →
        build.mulby (row (x, y) c) a ^^^ build.mulby (row (x, y) d) b = value := by
      intro value c d hfields
      refine V16.eq_of_field_eq fun k => ?_
      rw [V16.field_xor, field_mulby hbuild, field_mulby hbuild, hfields]
    have ha := fun k => (hfield k).1.trans (syndrome_erased_add_parity hnodup hlt (hparityA i k))
    have hb := fun k => (hfield k).2.trans (syndrome_erased_add_parity hnodup hlt (hparityB i k))
    have hsolved := fun k => hsolve ((blocks x i).field k) ((blocks y i).field k)
    simp only [map_cons, map_nil, sum_cons, sum_nil, add_zero] at ha hb
    simp only [← ha, ← hb] at hsolved
    simp [hdifferences, hfields fun k => (hsolved k).1, hfields fun k => (hsolved k).2]

theorem rsDecode2pq_eq (hP : n ∉ missing) (hQ : n + 1 ∉ missing) :
    build.rsDecode2pq n x y data = some (data.replace [x, y] blocks) :=
  decode2_eq hbuild hdamaged hxy hy hmax hmemX hmemY honly nodeStep_stepP
    (nodeStep_stepQ hbuild) (by omega) (by omega)
    (fun u v => by simpa using rowPQ_solve hxy (by omega))
    hdamaged.codeword.parityP hdamaged.codeword.parityQ hP hQ

theorem rsDecode2pr_eq (hP : n ∉ missing) (hR : n + 2 ∉ missing) :
    build.rsDecode2pr n x y data = some (data.replace [x, y] blocks) :=
  decode2_eq hbuild hdamaged hxy hy hmax hmemX hmemY honly nodeStep_stepP
    (nodeStep_stepR hbuild) (by omega) (by omega)
    (fun u v => by simpa using rowPR_solve hxy (by omega))
    hdamaged.codeword.parityP hdamaged.codeword.parityR hP hR

theorem rsDecode2qr_eq (hQ : n + 1 ∉ missing) (hR : n + 2 ∉ missing) :
    build.rsDecode2qr n x y data = some (data.replace [x, y] blocks) :=
  decode2_eq hbuild hdamaged hxy hy hmax hmemX hmemY honly (nodeStep_stepQ hbuild)
    (nodeStep_stepR hbuild) (by omega) (by omega)
    (fun u v => rowQR_solve hxy (by omega))
    hdamaged.codeword.parityQ hdamaged.codeword.parityR hQ hR

end TwoData

theorem rsDecode3pqr_eq (hbuild : build.Doubles) (hdamaged : Damaged n blocks missing data)
    (hxy : x < y) (hyz : y < z) (hz : z < n) (hmax : n ≤ Mktable.maxDataBlocks)
    (hmissing : ∀ j, j ∈ missing ↔ j ∈ [x, y, z]) :
    build.rsDecode3pqr n x y z data = some (data.replace [x, y, z] blocks) := by
  have hnodup : [x, y, z].Nodup := by
    simp only [nodup_cons, mem_cons, not_mem_nil, or_false, not_or]
    exact ⟨⟨by omega, by omega⟩, by omega, not_false, nodup_nil⟩
  have hlt : ∀ block ∈ [x, y, z], block < n := by
    simpa using ⟨by omega, by omega, hz⟩
  have hnonnull : ∀ block ∈ [x, y, z], (data block).isSome := fun block hblock =>
    hdamaged.nonnull block ((hmissing block).mpr hblock) (hlt block hblock)
  have hintact : ∀ j < n + 3, j ∉ [x, y, z] → data j = some (blocks j) := fun j hj hother =>
    hdamaged.intact j hj fun hmem => hother ((hmissing j).mp hmem)
  rw [rsDecode3pqr, Mktable.r3, Mktable.getElem?_r3map _ hxy hyz (by omega)]
  simp only [bind_eq_bind, bind_some, Buffers.fill_eq_replace (hnonnull x (by simp)),
    Buffers.fill_eq_replace (Buffers.isSome_replace (hnonnull y (by simp))),
    Buffers.fill_eq_replace (Buffers.isSome_replace (hnonnull z (by simp))),
    Buffers.replace_replace, cons_append, nil_append]
  rw [columnLoop_eq_replace [x, y, z] blocks hnodup, Buffers.replace_replace_same]
  · exact fun block hblock => Buffers.isSome_replace (hnonnull block hblock)
  · intro current i hcurrent
    have hparity : ∀ j, n ≤ j → j < n + 3 → current.read j i = some (blocks j i) :=
      fun j hge hj => read_parity hcurrent hlt hge
        (hintact j hj fun hmem => hge.not_gt (hlt j hmem))
    obtain ⟨p, q, r, hdifferences, hfield⟩ := differences3_eq_some hbuild (by omega)
      (fun j hj => read_cleared hcurrent (hintact j (by omega)))
      (hparity n le_rfl (by omega)) (hparity (n + 1) (by omega) (by omega))
      (hparity (n + 2) (by omega) (by omega))
    have hsum := fun k node => @syndrome_erased_add_parity _ n blocks _ i k node hnodup hlt
    have hsolve := fun k =>
      row3_solve hxy hyz (by omega : z < Mktable.maxDataBlocks)
        ((hfield k).1.trans (hsum k _ (hdamaged.codeword.parityP i k)))
        ((hfield k).2.1.trans (hsum k _ (hdamaged.codeword.parityQ i k)))
        ((hfield k).2.2.trans (hsum k _ (hdamaged.codeword.parityR i k)))
    have hvalue : ∀ {block : ℕ} {a b c : Fin 9},
        (∀ k, (⟨Mktable.row3 x y z a⟩ : Gf256) * p.field k +
          ⟨Mktable.row3 x y z b⟩ * q.field k + ⟨Mktable.row3 x y z c⟩ * r.field k =
            (blocks block i).field k) →
        build.mulby (Mktable.row3 x y z a) p ^^^ build.mulby (Mktable.row3 x y z b) q ^^^
          build.mulby (Mktable.row3 x y z c) r = blocks block i := by
      intro block a b c hfields
      refine V16.eq_of_field_eq fun k => ?_
      simp only [V16.field_xor, field_mulby hbuild]
      exact hfields k
    simp [hdifferences, hvalue fun k => (hsolve k).1, hvalue fun k => (hsolve k).2.1,
      hvalue fun k => (hsolve k).2.2]

section Sorted

variable (hbuild : build.Doubles) (hn : 0 < n) (hmax : n ≤ Mktable.maxDataBlocks)
variable (hblocksize : blocksize % 16 = 0) (hdamaged : Damaged n blocks missing data)

include hbuild hn hmax hblocksize hdamaged

omit hmax in
/-- Nothing but parity is missing. -/
theorem recovers_parity (hparity : ∀ j ∈ missing, n ≤ j) :
    Recovers n blocks missing data (build.rsEncodeIfRequested (n + 3) blocksize data) := by
  have hrecovers := recovers_encode hbuild hn hblocksize hdamaged [] (by simp)
    fun j hj hlt => absurd (hparity j hj) (by omega)
  rwa [Buffers.replace_nil] at hrecovers

omit hmax in
theorem rsDecode1_recovers (hmissing : ∀ j, j ∈ missing ↔ j = x) :
    Recovers n blocks missing data (build.rsDecode1 (n + 3) blocksize x data) := by
  simp only [rsDecode1, Nat.add_sub_cancel]
  split_ifs with hx
  · exact recovers_parity hbuild hn hblocksize hdamaged fun j hj => (hmissing j).mp hj ▸ hx
  · rw [rsDecode1p_eq hdamaged (by omega) ((hmissing x).mpr rfl)
      (fun j hj _ => (hmissing j).mp hj) (by rw [hmissing]; omega)]
    exact recovers_data (by simp; omega) (by simp [hmissing])

theorem rsDecode2Sorted_recovers (hmissing : ∀ j, j ∈ missing ↔ j = x ∨ j = y)
    (hxy : x < y) (hy : y < n + 3) :
    Recovers n blocks missing data (build.rsDecode2Sorted (n + 3) blocksize x y data) := by
  have hmemX : x ∈ missing := (hmissing x).mpr (.inl rfl)
  have hmemY : y ∈ missing := (hmissing y).mpr (.inr rfl)
  have hreencode := recovers_encode hbuild hn hblocksize hdamaged [x]
  simp only [mem_singleton, forall_eq, hmissing] at hreencode
  simp only [rsDecode2Sorted, Nat.add_sub_cancel]
  split_ifs with hx hP hQR
  · exact recovers_parity hbuild hn hblocksize hdamaged fun j hj => by
      have := (hmissing j).mp hj
      omega
  · rw [rsDecode1q_eq hdamaged (by omega) hmemX (by simp only [hmissing]; omega) hbuild hmax
      (by rw [hmissing]; omega)]
    exact hreencode (by omega) (by omega)
  · rw [rsDecode1p_eq hdamaged (by omega) hmemX (by simp only [hmissing]; omega)
      (by rw [hmissing]; omega)]
    exact hreencode (by omega) (by omega)
  · rw [rsDecode2pq_eq hbuild hdamaged hxy (by omega) hmax hmemX hmemY
      (fun j hj _ => (hmissing j).mp hj) (by rw [hmissing]; omega) (by rw [hmissing]; omega)]
    exact recovers_data (by simp; omega) (by simp [hmissing])

variable (hmissing : ∀ j, j ∈ missing ↔ j = x ∨ j = y ∨ j = z)

include hmissing

theorem rsDecode3Sorted_recovers (hxy : x < y) (hyz : y < z) (hz : z < n + 3) :
    Recovers n blocks missing data (build.rsDecode3Sorted (n + 3) blocksize x y z data) := by
  have hmemX : x ∈ missing := (hmissing x).mpr (.inl rfl)
  have hmemY : y ∈ missing := (hmissing y).mpr (.inr (.inl rfl))
  have hreencode1 := recovers_encode hbuild hn hblocksize hdamaged [x]
  have hreencode2 := recovers_encode hbuild hn hblocksize hdamaged [x, y]
  simp only [mem_cons, not_mem_nil, or_false, hmissing] at hreencode1 hreencode2
  simp only [rsDecode3Sorted, Nat.add_sub_cancel]
  split_ifs with hx hPQ hPR hQR hP hQ hR
  · exact recovers_parity hbuild hn hblocksize hdamaged fun j hj => by
      have := (hmissing j).mp hj
      omega
  · rw [rsDecode1r_eq hdamaged (by omega) hmemX (by simp only [hmissing]; omega) hbuild hmax
      (by rw [hmissing]; omega)]
    exact hreencode1 (by omega) (by omega)
  · rw [rsDecode1q_eq hdamaged (by omega) hmemX (by simp only [hmissing]; omega) hbuild hmax
      (by rw [hmissing]; omega)]
    exact hreencode1 (by omega) (by omega)
  · rw [rsDecode1p_eq hdamaged (by omega) hmemX (by simp only [hmissing]; omega)
      (by rw [hmissing]; omega)]
    exact hreencode1 (by omega) (by omega)
  · rw [rsDecode2qr_eq hbuild hdamaged hxy (by omega) hmax hmemX hmemY
      (by simp only [hmissing]; omega) (by rw [hmissing]; omega) (by rw [hmissing]; omega)]
    exact hreencode2 (by omega) (by omega)
  · rw [rsDecode2pr_eq hbuild hdamaged hxy (by omega) hmax hmemX hmemY
      (by simp only [hmissing]; omega) (by rw [hmissing]; omega) (by rw [hmissing]; omega)]
    exact hreencode2 (by omega) (by omega)
  · rw [rsDecode2pq_eq hbuild hdamaged hxy (by omega) hmax hmemX hmemY
      (by simp only [hmissing]; omega) (by rw [hmissing]; omega) (by rw [hmissing]; omega)]
    exact hreencode2 (by omega) (by omega)
  · rw [rsDecode3pqr_eq hbuild hdamaged hxy hyz (by omega) hmax (by simpa using hmissing)]
    exact recovers_data (by simp; omega) (by simp [hmissing])

omit hmissing in
theorem rsDecode2_recovers (hmissing : ∀ j, j ∈ missing ↔ j = x ∨ j = y) (hxy : x ≠ y)
    (hx : x < n + 3) (hy : y < n + 3) :
    Recovers n blocks missing data (build.rsDecode2 (n + 3) blocksize x y data) := by
  rw [rsDecode2]
  split_ifs with hswap
  · exact rsDecode2Sorted_recovers hbuild hn hmax hblocksize hdamaged
      (fun j => (hmissing j).trans or_comm) hswap hx
  · exact rsDecode2Sorted_recovers hbuild hn hmax hblocksize hdamaged hmissing
      (by omega) hy

theorem rsDecode3_recovers (hxy : x ≠ y) (hxz : x ≠ z) (hyz : y ≠ z) (hx : x < n + 3)
    (hy : y < n + 3) (hz : z < n + 3) :
    Recovers n blocks missing data (build.rsDecode3 (n + 3) blocksize x y z data) := by
  have hsorted : ∀ a b c, a < b → b < c → c < n + 3 →
      (∀ j, (j = x ∨ j = y ∨ j = z) ↔ (j = a ∨ j = b ∨ j = c)) →
      Recovers n blocks missing data (build.rsDecode3Sorted (n + 3) blocksize a b c data) :=
    fun a b c hab hbc hc hsame => rsDecode3Sorted_recovers hbuild hn hmax hblocksize hdamaged
      (fun j => (hmissing j).trans (hsame j)) hab hbc hc
  simp only [rsDecode3]
  split_ifs <;> exact hsorted _ _ _ (by omega) (by omega) (by omega) (by omega)

end Sorted

/-- The decoder for the number of missing blocks. -/
def rsDecode (build : Build) (nblocks blocksize : ℕ) (missing : List ℕ)
    (data : Buffers (blocksize / 16) V16) : Option (Buffers (blocksize / 16) V16) :=
  match missing with
  | [x] => build.rsDecode1 nblocks blocksize x data
  | [x, y] => build.rsDecode2 nblocks blocksize x y data
  | [x, y, z] => build.rsDecode3 nblocks blocksize x y z data
  | _ => none

theorem rsDecode_recovers (hbuild : build.Doubles) (hn : 0 < n)
    (hmax : n ≤ Mktable.maxDataBlocks) (hblocksize : blocksize % 16 = 0)
    (hdamaged : Damaged n blocks missing data) (hnodup : missing.Nodup)
    (hlength : 1 ≤ missing.length ∧ missing.length ≤ 3) (hlt : ∀ j ∈ missing, j < n + 3) :
    Recovers n blocks missing data (build.rsDecode (n + 3) blocksize missing data) := by
  match missing, hlength with
  | [x], _ =>
    exact rsDecode1_recovers hbuild hn hblocksize hdamaged (by simp)
  | [x, y], _ =>
    simp only [mem_cons, not_mem_nil, or_false, forall_eq_or_imp, forall_eq] at hlt
    exact rsDecode2_recovers hbuild hn hmax hblocksize hdamaged (by simp)
      (by simpa using hnodup) hlt.1 hlt.2
  | [x, y, z], _ =>
    simp only [mem_cons, not_mem_nil, or_false, forall_eq_or_imp, forall_eq] at hlt
    simp only [nodup_cons, mem_cons, not_mem_nil, or_false, not_or] at hnodup
    exact rsDecode3_recovers hbuild hn hmax hblocksize hdamaged (by simp)
      hnodup.1.1 hnodup.1.2 hnodup.2.1 hlt.1 hlt.2.1 hlt.2.2
  | _ :: _ :: _ :: _ :: _, hlength =>
    simp only [length_cons] at hlength
    omega

end Public

/-- Encoding `n` data blocks and losing up to three blocks, named in any
order, loses nothing: with buffers for all of them the decoder returns the
encoded blocks, and with null pointers for missing parity blocks it still
returns every data block and every block that was not missing. -/
theorem rsDecode_rsEncode (build : Build) (hbuild : build.Doubles) (n blocksize : ℕ)
    (hn : 1 ≤ n) (hmax : n ≤ 64) (hblocksize : blocksize % 16 = 0)
    (data : Buffers (blocksize / 16) V16) (hdata : ∀ j < n + 3, (data j).isSome) :
    ∃ encoded, build.rsEncode (n + 3) blocksize data = some encoded ∧
      (∀ j < n, encoded j = data j) ∧
      ∀ missing : List ℕ, missing.Nodup → 1 ≤ missing.length → missing.length ≤ 3 →
        (∀ j ∈ missing, j < n + 3) →
        ∀ damaged : Buffers (blocksize / 16) V16,
          (∀ j, j ∉ missing → damaged j = encoded j) →
          ((∀ j ∈ missing, (damaged j).isSome) →
            build.rsDecode (n + 3) blocksize missing damaged = some encoded) ∧
          ((∀ j ∈ missing, j < n → (damaged j).isSome) →
            ∃ result, build.rsDecode (n + 3) blocksize missing damaged = some result ∧
              ∀ j, j < n ∨ j ∉ missing → result j = encoded j) := by
  obtain ⟨blocks, hblocks, hcodeword⟩ :=
    exists_codeword n fun j => ((data j).getD fun _ => vec16 0)
  have hvalues : ∀ j < n, data j = some (blocks j) := by
    intro j hj
    obtain ⟨block, hblock⟩ := isSome_iff_exists.mp (hdata j (by omega))
    rw [hblocks j hj, hblock, getD_some]
  have hencode := rsEncode_eq hbuild hcodeword hn hblocksize hvalues (by
    intro j hj
    simp only [mem_cons, not_mem_nil, or_false] at hj
    exact hdata j (by omega))
  have hencoded : ∀ j < n + 3,
      data.replace [n, n + 1, n + 2] blocks j = some (blocks j) := by
    intro j hj
    by_cases hmem : j ∈ [n, n + 1, n + 2]
    · exact if_pos hmem
    · rw [Buffers.replace, if_neg hmem]
      refine hvalues j ?_
      simp only [mem_cons, not_mem_nil, or_false] at hmem
      omega
  refine ⟨_, hencode, fun j hj => (hencoded j (by omega)).trans (hvalues j hj).symm, ?_⟩
  intro missing hnodup hone hthree hlt damaged hdamaged
  have hrecovers : (∀ j ∈ missing, j < n → (damaged j).isSome) →
      Recovers n blocks missing damaged
        (build.rsDecode (n + 3) blocksize missing damaged) := fun hnonnull =>
    rsDecode_recovers hbuild hn hmax hblocksize
      ⟨hcodeword, fun j hj hmem => (hdamaged j hmem).trans (hencoded j hj), hnonnull⟩
      hnodup ⟨hone, hthree⟩ hlt
  constructor
  · intro hnonnull
    obtain ⟨replaced, hdecode, hreplaced, -, hall⟩ :=
      hrecovers fun j hj _ => hnonnull j hj
    rw [hdecode]
    congr 1
    funext j
    by_cases hmem : j ∈ replaced
    · exact (if_pos hmem).trans (hencoded j (hreplaced j hmem)).symm
    · rw [Buffers.replace, if_neg hmem]
      exact hdamaged j fun h => hmem (hall hnonnull j h (hlt j h))
  · intro hnonnull
    obtain ⟨replaced, hdecode, hreplaced, hrestored, -⟩ := hrecovers hnonnull
    refine ⟨_, hdecode, fun j hj => ?_⟩
    by_cases hmem : j ∈ replaced
    · exact (if_pos hmem).trans (hencoded j (hreplaced j hmem)).symm
    · rw [Buffers.replace, if_neg hmem]
      exact hdamaged j fun h => hj.elim (fun hlt => hmem (hrestored j h hlt)) (fun hn => hn h)

/-- A GNU build for SSE2. -/
def sse2 : Build := ⟨false, true, false, false, true, false⟩

theorem doubles_sse2 : sse2.Doubles := (doubles_iff _).mpr (by simp [sse2, UnsignedCompare])

/-- Two data blocks, with the first one and the Q parity overwritten. -/
theorem rsDecode_rsEncode_sse2 :
    ∃ encoded,
      rsEncode sse2 (2 + 3) 16 (fun _ => some fun _ => vec16 7) = some encoded ∧
      rsDecode sse2 (2 + 3) 16 [3, 0]
        (update (update encoded 0 (some fun _ => vec16 9)) 3
          (some fun _ => vec16 1)) = some encoded := by
  obtain ⟨encoded, hencode, -, hdecode⟩ := rsDecode_rsEncode sse2 doubles_sse2
    2 16 (by decide) (by decide) (by decide) (fun _ => some fun _ => vec16 7)
    (fun _ _ => rfl)
  refine ⟨encoded, hencode, ?_⟩
  refine (hdecode [3, 0] (by decide) (by decide) (by decide) (by decide) _ ?_).1 ?_
  · intro j hj
    simp only [mem_cons, not_mem_nil, or_false, not_or] at hj
    rw [update_of_ne hj.1, update_of_ne hj.2]
  · simp

end Build

end QfsRepair.ErasureCode
