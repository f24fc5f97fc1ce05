import QfsRepair.Algebra.Syndrome
import QfsRepair.ErasureCode.Codec

/-!
# One column of the codec in field terms

Every lane of a vector is a field element, and every operation of the codec
works lane by lane.  This module restates `mul2`, `mulby` and the syndrome
loops at one position as arithmetic in the field.
-/

namespace QfsRepair.ErasureCode

open QfsRepair.Algebra QfsRepair.Machine Option

instance : Nontrivial Gf256 := ⟨0, 1, by decide⟩

instance : CharP Gf256 2 :=
  CharTwo.of_one_ne_zero_of_two_eq_zero one_ne_zero (by decide)

namespace V16

/-- A lane as a field element. -/
def field (v : V16) (k : Fin 16) : Gf256 := ⟨v.lane k⟩

@[simp]
theorem field_xor (left right : V16) (k : Fin 16) :
    (left ^^^ right).field k = left.field k + right.field k := rfl

@[simp]
theorem field_vec16_zero (k : Fin 16) : (vec16 0#8).field k = 0 := rfl

theorem eq_of_field_eq {left right : V16}
    (hfield : ∀ k, left.field k = right.field k) : left = right :=
  V16.ext (funext fun k => congrArg BinaryWord.bits (hfield k))

end V16

namespace Build

/-- `mul2` multiplies every lane by two modulo `0x11d`. -/
def Doubles (build : Build) : Prop :=
  ∀ v k, (build.mul2 v).field k = BinaryWord.double (v.field k)

theorem fold_signed_eq_double (b : Byte) :
    b + b ^^^ (if b.slt 0 then 0xff else 0) &&& 0x1d =
      (BinaryWord.double (⟨b⟩ : Gf256)).bits := by
  revert b
  decide

theorem fold_unsigned_eq_double (b : Byte) :
    b + b ^^^ (if b < 128 then 0 else 0xff) &&& 0x1d =
      (BinaryWord.double (⟨b⟩ : Gf256)).bits := by
  revert b
  decide

/-- The branch of `mask` that compares unsigned bytes with `VEC16(128) > v`. -/
def UnsignedCompare (build : Build) : Prop :=
  ¬ build.useNeon ∧ ¬ (build.useSse2 || build.useSsse3 && !build.clang) ∧
    (build.gnuc47 || build.clang)

/-- `mul2` is doubling in every build but those that compare unsigned bytes,
where it maps zero to `0x1d`. -/
theorem doubles_iff (build : Build) : build.Doubles ↔ ¬ build.UnsignedCompare := by
  constructor
  · rintro hdoubles ⟨hneon, hsse, hcompare⟩
    have hzero := hdoubles (vec16 0) 0
    simp only [V16.field, mul2, mask, if_neg hneon, if_neg hsse, if_pos hcompare] at hzero
    exact absurd hzero (by decide)
  · intro hbranch v k
    refine BinaryWord.ext ?_
    simp only [V16.field, mul2, mask]
    split_ifs with hneon hsse hcompare
    · exact fold_signed_eq_double _
    · exact fold_signed_eq_double _
    · exact absurd ⟨hneon, hsse, hcompare⟩ hbranch
    · exact fold_unsigned_eq_double _

variable {build : Build} {words : ℕ}

theorem nibbles_add (b : Byte) :
    (⟨b &&& 0x0f⟩ + ⟨b >>> 4 <<< 4⟩ : Gf256) = ⟨b⟩ := by
  revert b
  decide

/-- `mulby` multiplies every lane by its factor. -/
theorem field_mulby (hbuild : build.Doubles) (x : Byte) (v : V16) (k : Fin 16) :
    (build.mulby x v).field k = ⟨x⟩ * v.field k := by
  unfold mulby
  split_ifs
  · calc
      (⟨nibmulLo x (v.lane k &&& 0x0f) ^^^ nibmulHi x (v.lane k >>> 4)⟩ : Gf256) =
          ⟨nibmulLo x (v.lane k &&& 0x0f)⟩ + ⟨nibmulHi x (v.lane k >>> 4)⟩ := rfl
      _ = ⟨x⟩ * ⟨v.lane k &&& 0x0f⟩ + ⟨x⟩ * ⟨v.lane k >>> 4 <<< 4⟩ := by
        rw [nibmulLo, nibmulHi, Mktable.mul_eq, Mktable.mul_eq]
      _ = ⟨x⟩ * v.field k := by rw [← mul_add, nibbles_add, V16.field]
  · rw [mulLoop_eq (fun v => v.field k) (fun left right => V16.field_xor left right k)
      (fun v => hbuild v k)]
    exact zero_add _

/-! ## Accumulation -/

/-- A step of Horner's rule at `node` in every lane. -/
def NodeStep (node : Gf256) (step : V16 → V16 → V16) : Prop :=
  ∀ accumulator d k,
    (step accumulator d).field k = node * accumulator.field k + d.field k

theorem nodeStep_stepP : NodeStep 1 stepP := by
  intro accumulator d k
  rw [stepP, V16.field_xor, one_mul]

theorem nodeStep_stepQ (hbuild : build.Doubles) :
    NodeStep Mktable.generator build.stepQ := by
  intro accumulator d k
  rw [stepQ, V16.field_xor, hbuild, BinaryWord.double_eq_mul, Mktable.generator]

theorem nodeStep_stepR (hbuild : build.Doubles) :
    NodeStep (Mktable.generator ^ 2) build.stepR := by
  intro accumulator d k
  rw [stepR, V16.field_xor, hbuild, hbuild, BinaryWord.double_eq_mul,
    BinaryWord.double_eq_mul (V16.field _ _), Mktable.generator]
  ring

end Build

section Accumulate

variable {words : ℕ} {data : Buffers words V16} {i : Fin words} {column : ℕ → V16}
variable {node nodeA nodeB : Gf256} {step stepA stepB : V16 → V16 → V16}

theorem walk_eq_some (hstep : Build.NodeStep node step) (count : ℕ) (accumulator : V16)
    (hcolumn : ∀ j < count, data.read j i = some (column j)) :
    ∃ result, walk data i step count accumulator = some result ∧ ∀ k,
      result.field k =
        horner node (fun j => (column j).field k) count (accumulator.field k) := by
  induction count generalizing accumulator with
  | zero => exact ⟨accumulator, rfl, fun k => rfl⟩
  | succ count ih =>
    obtain ⟨result, hwalk, hfield⟩ := ih (step accumulator (column count))
      fun j hj => hcolumn j (by omega)
    refine ⟨result, ?_, fun k => ?_⟩
    · simp only [walk, hcolumn count (by omega), bind_eq_bind, bind_some, hwalk]
    · rw [hfield, hstep, horner]

/-- Two accumulations in one loop. -/
theorem walk_prod {StateA StateB : Type} {stepA : StateA → V16 → StateA}
    {stepB : StateB → V16 → StateB} {count : ℕ} {a : StateA} {b : StateB} {resultA : StateA}
    {resultB : StateB} (ha : walk data i stepA count a = some resultA)
    (hb : walk data i stepB count b = some resultB) :
    walk data i (fun (s : StateA × StateB) d => (stepA s.1 d, stepB s.2 d)) count (a, b) =
      some (resultA, resultB) := by
  induction count generalizing a b with
  | zero =>
    cases ha
    cases hb
    rfl
  | succ count ih =>
    simp only [walk, bind_eq_bind, bind_eq_some_iff] at ha hb ⊢
    obtain ⟨d, hd, ha⟩ := ha
    obtain ⟨d', hd', hb⟩ := hb
    obtain rfl : d = d' := some.inj (hd.symm.trans hd')
    exact ⟨d, hd, ih ha hb⟩

/-- The syndrome of the column at the node of the step. -/
theorem accumulate_eq_some (hstep : Build.NodeStep node step) {n : ℕ} (hn : 0 < n)
    (hcolumn : ∀ j < n, data.read j i = some (column j)) :
    ∃ result, walk data i step (n - 1) (column (n - 1)) = some result ∧
      accumulate step data n i = some result ∧
      ∀ k, result.field k = syndrome node (fun j => (column j).field k) n := by
  obtain ⟨top, rfl⟩ := Nat.exists_eq_succ_of_ne_zero hn.ne'
  obtain ⟨result, hwalk, hfield⟩ := walk_eq_some hstep top (column top)
    fun j hj => hcolumn j (by omega)
  refine ⟨result, hwalk, ?_, fun k => ?_⟩
  · simp only [accumulate, hcolumn top (by omega), bind_eq_bind, bind_some, hwalk]
  · rw [hfield, ← horner_top node (fun j => (column j).field k) hn, Nat.succ_sub_one]

namespace Build

variable {build : Build} {n : ℕ}

/-- The parity values of the loop body of `rs_encode`. -/
theorem encodeColumn_eq_some (hbuild : build.Doubles) (hn : 0 < n)
    (hcolumn : ∀ j < n, data.read j i = some (column j)) :
    ∃ p q r, build.encodeColumn n data () i =
        some ([(n, p), (n + 1, q), (n + 2, r)], ()) ∧ ∀ k,
      p.field k = syndrome 1 (fun j => (column j).field k) n ∧
      q.field k = syndrome Mktable.generator (fun j => (column j).field k) n ∧
      r.field k = syndrome (Mktable.generator ^ 2) (fun j => (column j).field k) n := by
  obtain ⟨p, hwalkP, -, hp⟩ := accumulate_eq_some nodeStep_stepP hn hcolumn
  obtain ⟨q, hwalkQ, -, hq⟩ := accumulate_eq_some (nodeStep_stepQ hbuild) hn hcolumn
  obtain ⟨r, hwalkR, -, hr⟩ := accumulate_eq_some (nodeStep_stepR hbuild) hn hcolumn
  refine ⟨p, q, r, ?_, fun k => ⟨hp k, hq k, hr k⟩⟩
  simp only [encodeColumn, hcolumn (n - 1) (by omega), bind_eq_bind, bind_some,
    walk_prod hwalkP (walk_prod hwalkQ hwalkR), pure_def]

/-- Both variants of the two syndrome loop compute the differences and leave
the pointer where they found it. -/
theorem differences2_eq_some (build : Build) (hA : NodeStep nodeA stepA) (hB : NodeStep nodeB stepB)
    (hn : 0 < n) (hcolumn : ∀ j < n, data.read j i = some (column j))
    {offsetA offsetB : ℕ} (hoffset : offsetA < offsetB) {parityA parityB : V16}
    (hparityA : data.read (n + offsetA) i = some parityA)
    (hparityB : data.read (n + offsetB) i = some parityB) :
    ∃ a b, build.differences2 stepA stepB offsetA offsetB n data (n - 1) i =
        some ((a, b), n - 1) ∧ ∀ k,
      a.field k = syndrome nodeA (fun j => (column j).field k) n + parityA.field k ∧
      b.field k = syndrome nodeB (fun j => (column j).field k) n + parityB.field k := by
  obtain ⟨a, hwalkA, hA, ha⟩ := accumulate_eq_some hA hn hcolumn
  obtain ⟨b, hwalkB, hB, hb⟩ := accumulate_eq_some hB hn hcolumn
  refine ⟨a ^^^ parityA, b ^^^ parityB, ?_, fun k => ⟨by simp [ha], by simp [hb]⟩⟩
  unfold differences2
  split_ifs
  · simp only [hA, hB, hparityA, hparityB, bind_eq_bind, bind_some, pure_def]
  · simp only [hcolumn (n - 1) (by omega), walk_prod hwalkA hwalkB, hparityB,
      show n + offsetB - (offsetB - offsetA) = n + offsetA by omega, hparityA,
      show n + offsetA - offsetA - 1 = n - 1 by omega,
      bind_eq_bind, bind_some, pure_def]

/-- Both variants of the three syndrome loop compute the differences and leave
the pointer where they found it. -/
theorem differences3_eq_some (hbuild : build.Doubles) (hn : 0 < n)
    (hcolumn : ∀ j < n, data.read j i = some (column j)) {parityP parityQ parityR : V16}
    (hparityP : data.read n i = some parityP) (hparityQ : data.read (n + 1) i = some parityQ)
    (hparityR : data.read (n + 2) i = some parityR) :
    ∃ p q r, build.differences3 n data (n - 1) i = some ((p, q, r), n - 1) ∧ ∀ k,
      p.field k = syndrome 1 (fun j => (column j).field k) n + parityP.field k ∧
      q.field k =
        syndrome Mktable.generator (fun j => (column j).field k) n + parityQ.field k ∧
      r.field k =
        syndrome (Mktable.generator ^ 2) (fun j => (column j).field k) n +
          parityR.field k := by
  obtain ⟨p, hwalkP, hP, hp⟩ := accumulate_eq_some nodeStep_stepP hn hcolumn
  obtain ⟨q, hwalkQ, hQ, hq⟩ := accumulate_eq_some (nodeStep_stepQ hbuild) hn hcolumn
  obtain ⟨r, hwalkR, hR, hr⟩ := accumulate_eq_some (nodeStep_stepR hbuild) hn hcolumn
  refine ⟨p ^^^ parityP, q ^^^ parityQ, r ^^^ parityR, ?_,
    fun k => ⟨by simp [hp], by simp [hq], by simp [hr]⟩⟩
  unfold differences3
  split_ifs
  · simp only [P, Q, R, hP, hQ, hR, hparityP, hparityQ, hparityR, bind_eq_bind, bind_some, pure_def]
  · simp only [hcolumn (n - 1) (by omega), walk_prod hwalkP (walk_prod hwalkQ hwalkR),
      show n + 2 - 1 = n + 1 by omega, show n + 1 - 1 = n by omega, hparityP, hparityQ,
      hparityR, bind_eq_bind, bind_some, pure_def]

end Build

end Accumulate

end QfsRepair.ErasureCode
