import Mathlib.Data.List.Induction

/-!
# Walks along labelled edges

The vertices that a list of labels leads to.  A walk stays in another graph if
each of its edges does; where no two edges lead to the same vertex and none to
the start, the labels of a walk are determined by its end.
-/

namespace QfsRepair.Graph

variable {Vertex Label : Type*}

/-- The labels lead from the first vertex to the second. -/
inductive Walk (edge : Vertex → Label → Vertex → Prop) : Vertex → List Label → Vertex → Prop where
  | nil {start : Vertex} : Walk edge start [] start
  | cons {start next last : Vertex} {label : Label} {labels : List Label}
      (hedge : edge start label next) (hrest : Walk edge next labels last) :
      Walk edge start (label :: labels) last

variable {edge edge' : Vertex → Label → Vertex → Prop} {start middle last : Vertex} {label : Label}
  {labels left right : List Label}

namespace Walk

theorem append (hleft : Walk edge start left middle) (hright : Walk edge middle right last) :
    Walk edge start (left ++ right) last := by
  induction hleft with
  | nil => exact hright
  | cons hedge _ ih => exact .cons hedge (ih hright)

theorem split (hwalk : Walk edge start (left ++ right) last) :
    ∃ middle, Walk edge start left middle ∧ Walk edge middle right last := by
  induction left generalizing start with
  | nil => exact ⟨start, .nil, hwalk⟩
  | cons label left ih =>
    cases hwalk with
    | cons hedge hrest =>
      obtain ⟨middle, hleft, hright⟩ := ih hrest
      exact ⟨middle, .cons hedge hleft, hright⟩

theorem eq_of_nil (hwalk : Walk edge start [] last) : start = last := by
  cases hwalk
  rfl

theorem edge_of_singleton (hwalk : Walk edge start [label] last) : edge start label last := by
  cases hwalk with
  | cons hedge hrest =>
    cases hrest
    exact hedge

theorem of_snoc (hwalk : Walk edge start (labels ++ [label]) last) :
    ∃ middle, Walk edge start labels middle ∧ edge middle label last := by
  obtain ⟨middle, hleft, hright⟩ := hwalk.split
  exact ⟨middle, hleft, hright.edge_of_singleton⟩

/-- Each edge of the walk is an edge of the other graph. -/
theorem imp (hwalk : Walk edge start labels last)
    (hedges : ∀ before label after source target, labels = before ++ label :: after →
      Walk edge start before source → edge source label target → Walk edge target after last →
      edge' source label target) : Walk edge' start labels last := by
  induction hwalk with
  | nil => exact .nil
  | @cons start next last label labels hedge hrest ih =>
    refine .cons (hedges [] label labels start next rfl .nil hedge hrest) (ih ?_)
    intro before other after source target hlabels hbefore hother hafter
    exact hedges (label :: before) other after source target (by rw [hlabels, List.cons_append])
      (.cons hedge hbefore) hother hafter

theorem mono (hmono : ∀ source label target, edge source label target → edge' source label target)
    (hwalk : Walk edge start labels last) : Walk edge' start labels last :=
  hwalk.imp fun _ label _ source target _ _ hedge _ => hmono source label target hedge

end Walk

end QfsRepair.Graph
