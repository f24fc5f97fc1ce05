import Mathlib.Algebra.CharP.Two
import Mathlib.Tactic.Abel
import Mathlib.Tactic.Ring

/-!
# Rings of machine words under shift-and-add multiplication

A word of `width` bits stands for a polynomial over the two element field.
Doubling shifts the word left and folds the bit that falls out back in as a
fixed `reduction` word; multiplication adds up the doublings of one factor
along the bits of the other.  The ring laws hold for every width and every
reduction word, because multiplication by a word only ever applies one
endomorphism repeatedly and shows its word when applied to `1`.
-/

namespace QfsRepair.Algebra

/-- An additive group that acts on itself by pairwise commuting endomorphisms,
each of which returns the element it belongs to when applied to `unit`. -/
structure CommutingAction (V : Type*) [AddCommGroup V] where
  unit : V
  act : V → V →+ V
  act_unit : ∀ value, act value unit = value
  act_act_comm : ∀ left right value,
    act left (act right value) = act right (act left value)

namespace CommutingAction

variable {V : Type*} [AddCommGroup V] (action : CommutingAction V)

theorem act_comm (left right : V) :
    action.act left right = action.act right left := by
  calc
    action.act left right = action.act left (action.act right action.unit) := by
      rw [action.act_unit]
    _ = action.act right (action.act left action.unit) := action.act_act_comm _ _ _
    _ = action.act right left := by rw [action.act_unit]

theorem act_assoc (a b c : V) :
    action.act (action.act a b) c = action.act a (action.act b c) := by
  calc
    action.act (action.act a b) c = action.act c (action.act a b) :=
      action.act_comm _ _
    _ = action.act a (action.act c b) := action.act_act_comm _ _ _
    _ = action.act a (action.act b c) := by rw [action.act_comm c b]

/-- The commutative ring whose product lets the left factor act on the
right one. -/
@[reducible]
def toCommRing : CommRing V :=
  { (inferInstance : AddCommGroup V) with
    mul := fun left right => action.act left right
    one := action.unit
    mul_assoc := action.act_assoc
    mul_comm := action.act_comm
    one_mul := fun a => (action.act_comm _ _).trans (action.act_unit a)
    mul_one := action.act_unit
    left_distrib := fun a b c => map_add (action.act a) b c
    right_distrib := fun a b c => by
      change action.act (a + b) c = action.act a c + action.act b c
      rw [action.act_comm, map_add, action.act_comm c a, action.act_comm c b]
    zero_mul := fun a => (action.act_comm _ _).trans (map_zero (action.act a))
    mul_zero := fun a => map_zero (action.act a) }

end CommutingAction

/-- Polynomials over the two element field modulo `x ^ width + reduction`,
held as their word of coefficients. -/
@[ext]
structure BinaryWord {width : ℕ} (reduction : BitVec width) where
  bits : BitVec width
  deriving DecidableEq

namespace BinaryWord

variable {width : ℕ} {reduction : BitVec width}

instance : Zero (BinaryWord reduction) := ⟨⟨0⟩⟩
instance : Add (BinaryWord reduction) := ⟨fun left right => ⟨left.bits ^^^ right.bits⟩⟩
instance : Neg (BinaryWord reduction) := ⟨id⟩

@[simp]
theorem bits_zero : (0 : BinaryWord reduction).bits = 0 := rfl

@[simp]
theorem bits_add (left right : BinaryWord reduction) :
    (left + right).bits = left.bits ^^^ right.bits := rfl

instance : AddCommGroup (BinaryWord reduction) where
  add_assoc a b c := BinaryWord.ext (BitVec.xor_assoc _ _ _)
  zero_add a := BinaryWord.ext BitVec.zero_xor
  add_zero a := BinaryWord.ext BitVec.xor_zero
  add_comm a b := BinaryWord.ext (BitVec.xor_comm _ _)
  neg_add_cancel a := BinaryWord.ext BitVec.xor_self
  nsmul := nsmulRec
  zsmul := zsmulRec

/-- Multiplication by `x`. -/
def double (value : BinaryWord reduction) : BinaryWord reduction :=
  ⟨value.bits <<< 1 ^^^ if value.bits.msb then reduction else 0⟩

theorem double_add (left right : BinaryWord reduction) :
    double (left + right) = double left + double right := by
  have hcarry : (if (left.bits.msb ^^ right.bits.msb) then reduction else 0) =
      (if left.bits.msb then reduction else 0) ^^^
        (if right.bits.msb then reduction else 0) := by
    cases left.bits.msb <;> cases right.bits.msb <;> simp
  ext1
  simp only [double, bits_add, BitVec.shiftLeft_xor_distrib, BitVec.msb_xor]
  rw [hcarry]
  ac_rfl

@[simp]
theorem double_zero : double (0 : BinaryWord reduction) = 0 := by
  ext1
  simp [double]

/-- Add up `value` doubled along the lowest `count` bits of `factor`. -/
def shiftAdd : ℕ → BitVec width → BinaryWord reduction → BinaryWord reduction
  | 0, _, _ => 0
  | count + 1, factor, value =>
    (if factor.getLsbD 0 then value else 0) +
      shiftAdd count (factor >>> 1) (double value)

section

variable (count : ℕ)

variable (factor : BitVec width)

theorem shiftAdd_zero :
    shiftAdd count factor (0 : BinaryWord reduction) = 0 := by
  induction count generalizing factor with
  | zero => rfl
  | succ count ih => simp [shiftAdd, ih]

theorem shiftAdd_zero_factor (value : BinaryWord reduction) :
    shiftAdd count 0 value = 0 := by
  induction count generalizing value with
  | zero => rfl
  | succ count ih => simpa [shiftAdd] using ih (double value)

theorem shiftAdd_add (left right : BinaryWord reduction) :
    shiftAdd count factor (left + right) =
      shiftAdd count factor left + shiftAdd count factor right := by
  induction count generalizing factor left right with
  | zero => simp [shiftAdd]
  | succ count ih =>
    simp only [shiftAdd, double_add, ih]
    split_ifs <;> abel

theorem shiftAdd_double (value : BinaryWord reduction) :
    shiftAdd count factor (double value) = double (shiftAdd count factor value) := by
  induction count generalizing factor value with
  | zero => simp [shiftAdd]
  | succ count ih =>
    simp only [shiftAdd, double_add, ih]
    split_ifs <;> simp

end

theorem shiftAdd_shiftAdd (first second : ℕ) (left right : BitVec width)
    (value : BinaryWord reduction) :
    shiftAdd first left (shiftAdd second right value) =
      shiftAdd second right (shiftAdd first left value) := by
  induction first generalizing left value with
  | zero => simp [shiftAdd, shiftAdd_zero]
  | succ first ih =>
    simp only [shiftAdd, shiftAdd_add, ← shiftAdd_double, ih]
    split_ifs <;> simp [shiftAdd_zero]

theorem double_twoPow {exponent : ℕ} (hexponent : exponent + 1 < width) :
    double (⟨BitVec.twoPow width exponent⟩ : BinaryWord reduction) =
      ⟨BitVec.twoPow width (exponent + 1)⟩ := by
  have hmsb : (BitVec.twoPow width exponent).msb = false := by
    simp; omega
  simp only [double, hmsb]
  simp [BitVec.twoPow_eq, ← BitVec.shiftLeft_add]

/-- A shifted word is its lowest bit in place and the rest shifted once more. -/
theorem shiftLeft_split (factor : BitVec width) (exponent : ℕ) :
    (if factor.getLsbD 0 then BitVec.twoPow width exponent else 0) ^^^
      factor >>> 1 <<< (exponent + 1) = factor <<< exponent := by
  refine BitVec.eq_of_getLsbD_eq fun index hindex => ?_
  simp only [BitVec.getLsbD_xor, BitVec.getLsbD_shiftLeft,
    BitVec.getLsbD_ushiftRight, hindex, decide_true, Bool.true_and]
  have hhead :
      (if factor.getLsbD 0 then BitVec.twoPow width exponent else 0).getLsbD index =
        (factor.getLsbD 0 && decide (exponent = index)) := by
    split_ifs with hbit <;> simp [hbit, BitVec.getLsbD_twoPow]
    omega
  rw [hhead]
  rcases Nat.lt_trichotomy index exponent with hlt | rfl | hgt
  · simp [hlt, hlt.ne', Nat.lt_succ_of_lt hlt]
  · simp
  · rw [show 1 + (index - (exponent + 1)) = index - exponent by omega]
    simp [hgt.ne, show ¬ index < exponent by omega,
      show ¬ index < exponent + 1 by omega]

/-- Along its own bits a word adds up to itself. -/
theorem shiftAdd_twoPow (count exponent : ℕ) (hwidth : exponent + count = width)
    (factor : BitVec width) :
    shiftAdd count factor (⟨BitVec.twoPow width exponent⟩ : BinaryWord reduction) =
      ⟨factor <<< exponent⟩ := by
  induction count generalizing exponent factor with
  | zero =>
    ext1
    simp [shiftAdd, BitVec.shiftLeft_eq_zero (show width ≤ exponent by omega)]
  | succ count ih =>
    have htail : shiftAdd count (factor >>> 1)
        (double (⟨BitVec.twoPow width exponent⟩ : BinaryWord reduction)) =
          ⟨factor >>> 1 <<< (exponent + 1)⟩ := by
      cases count with
      | zero =>
        ext1
        simp [shiftAdd, BitVec.shiftLeft_eq_zero (show width ≤ exponent + 1 by omega)]
      | succ count =>
        rw [double_twoPow (by omega)]
        exact ih (exponent + 1) (by omega) _
    rw [shiftAdd, htail, ← shiftLeft_split factor exponent]
    ext1
    split_ifs <;> rfl

/-- Multiplication of words as a commuting action. -/
def shiftAddAction (reduction : BitVec width) :
    CommutingAction (BinaryWord reduction) where
  unit := ⟨BitVec.twoPow width 0⟩
  act factor :=
    { toFun := shiftAdd width factor.bits
      map_zero' := shiftAdd_zero _ _
      map_add' := shiftAdd_add _ _ }
  act_unit value := by
    change shiftAdd width value.bits _ = value
    rw [shiftAdd_twoPow width 0 (Nat.zero_add width), BitVec.shiftLeft_zero]
  act_act_comm left right value := shiftAdd_shiftAdd _ _ _ _ _

instance : CommRing (BinaryWord reduction) := (shiftAddAction reduction).toCommRing

theorem mul_eq_shiftAdd (left right : BinaryWord reduction) :
    left * right = shiftAdd width left.bits right := rfl

@[simp]
theorem bits_one : (1 : BinaryWord reduction).bits = BitVec.twoPow width 0 := rfl

/-- Doubling is multiplication by the doubled one. -/
theorem double_eq_mul (value : BinaryWord reduction) :
    double value = double 1 * value := by
  rw [mul_comm, mul_eq_shiftAdd, shiftAdd_double, ← mul_eq_shiftAdd, mul_one]

end BinaryWord

end QfsRepair.Algebra
