import Mathlib.Data.Finset.Card

/-!
# Reachability in a forest of pointers

Paths along a relation when the pointer of one vertex is redirected.  A path
that avoids the vertex stays; if the new target does not reach the vertex, then
what could be reached from everywhere can still be reached.
-/

namespace QfsRepair.Graph

open Relation

variable {Vertex : Type*} {edge edge' : Vertex → Vertex → Prop} {moved target root start : Vertex}

section

variable (hkeep : ∀ left right, left ≠ moved → edge left right → edge' left right)

include hkeep

/-- A path that does not lead to `moved` uses edges of other vertices only. -/
theorem reaches_of_avoids (hreach : ReflTransGen edge start root)
    (havoid : ¬ ReflTransGen edge start moved) :
    ReflTransGen edge' start root := by
  induction hreach using ReflTransGen.head_induction_on with
  | refl => exact ReflTransGen.refl
  | head hstep _ ih =>
    refine ReflTransGen.head (hkeep _ _ ?_ hstep) (ih fun hlater => havoid (hlater.head hstep))
    rintro rfl
    exact havoid ReflTransGen.refl

/-- A vertex that is redirected to a target from which it cannot be reached cuts
nothing off. -/
theorem reaches_of_redirect (hmoved : edge' moved target) (htarget : ReflTransGen edge target root)
    (havoid : ¬ ReflTransGen edge target moved) (hreach : ReflTransGen edge start root) :
    ReflTransGen edge' start root := by
  have hredirected : ReflTransGen edge' moved root :=
    (reaches_of_avoids hkeep htarget havoid).head hmoved
  induction hreach using ReflTransGen.head_induction_on with
  | refl => exact ReflTransGen.refl
  | @head left right hstep _ ih =>
    by_cases hleft : left = moved
    · exact hleft ▸ hredirected
    · exact ih.head (hkeep left right hleft hstep)

end

/-- A vertex without a predecessor is reached from itself only. -/
theorem eq_of_reaches_source (hsource : ∀ left, ¬ edge left moved)
    (hreach : ReflTransGen edge start moved) : start = moved := by
  rcases ReflTransGen.cases_tail hreach with heq | ⟨last, -, hstep⟩
  · exact heq.symm
  · exact absurd hstep (hsource last)

/-- Where each vertex has one successor and all lead to a root, only the root is
on a cycle. -/
theorem eq_root_of_cycle (hunique : Relator.RightUnique edge) (hroot : edge root root)
    (hreach : ReflTransGen edge start root) (hcycle : TransGen edge start start) :
    start = root := by
  induction hreach using ReflTransGen.head_induction_on with
  | refl => rfl
  | @head first second hstep _ ih =>
    obtain ⟨next, hnext, hback⟩ := TransGen.head'_iff.mp hcycle
    obtain rfl := hunique hstep hnext
    obtain rfl := ih (TransGen.tail' hback hstep)
    -- from the root there is no way to another vertex
    clear ih hcycle hnext hstep
    induction hback with
    | refl => rfl
    | tail _ hlast ih =>
      subst ih
      exact hunique hlast hroot

end QfsRepair.Graph
