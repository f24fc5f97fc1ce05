import QfsRepair.Graph.Walks
import Mathlib.Algebra.Order.BigOperators.Group.List
import Mathlib.Algebra.Order.Group.Nat
import Mathlib.Data.List.Nodup
import Mathlib.Data.Set.Function

/-!
# Trees of timed edges

A reduction tree collects the values of its vertices at the root: along each
edge the parent fetches from the child at a time.  The tree is correct if every
vertex is fetched from once, every way up ends at the root, and the times
increase along the way, so that a vertex is fetched from only after its own
fetches.  The conditions follow from facts about single pairs of edges, and
those are kept by an injective renaming of the vertices.
-/

namespace QfsRepair.Graph

open List

variable {Vertex Name : Type*}

/-- The parent fetches from the child at the time. -/
structure TimedEdge (Vertex : Type*) where
  parent : Vertex
  time : ℕ
  child : Vertex
  deriving DecidableEq

namespace TimedEdge

def map (rename : Vertex → Name) (edge : TimedEdge Vertex) : TimedEdge Name :=
  ⟨rename edge.parent, edge.time, rename edge.child⟩

end TimedEdge

/-- The steps up: from a fetched vertex to the one that fetches from it. -/
def Up (edges : List (TimedEdge Vertex)) (child : Vertex) (time : ℕ) (parent : Vertex) : Prop :=
  ⟨parent, time, child⟩ ∈ edges

/-- The edges form a tree over the vertices that is rooted at `root`, with
times that increase on every way up. -/
structure ReductionTree (edges : List (TimedEdge Vertex)) (vertices : List Vertex)
    (root : Vertex) : Prop where
  nodup : vertices.Nodup
  root_notMem : root ∉ vertices
  /-- Every vertex is fetched from exactly once, and nothing else is. -/
  children : (edges.map (·.child)).Perm vertices
  parents : ∀ edge ∈ edges, edge.parent = root ∨ edge.parent ∈ vertices
  increasing : ∀ {start times last}, Walk (Up edges) start times last → times.Pairwise (· < ·)
  /-- However far a way up has come, it goes on to the root. -/
  ends : ∀ {start times last}, start ∈ vertices → Walk (Up edges) start times last →
    ∃ more, Walk (Up edges) last more root

/-- The same, by conditions on single edges and pairs of edges. -/
@[mk_iff]
structure LocalTree (edges : List (TimedEdge Vertex)) (vertices : List Vertex)
    (root : Vertex) : Prop where
  nodup : vertices.Nodup
  root_notMem : root ∉ vertices
  children : (edges.map (·.child)).Perm vertices
  parents : ∀ edge ∈ edges, edge.parent = root ∨ edge.parent ∈ vertices
  times : ∀ edge ∈ edges, ∀ next ∈ edges, edge.parent = next.child → edge.time < next.time

namespace LocalTree

variable {edges edges' : List (TimedEdge Vertex)} {vertices vertices' : List Vertex}
  {root : Vertex}

instance decidable [DecidableEq Vertex] : Decidable (LocalTree edges vertices root) :=
  decidable_of_iff' _ (localTree_iff edges vertices root)

variable (htree : LocalTree edges vertices root)

include htree

theorem perm (hedges : edges.Perm edges') (hvertices : vertices.Perm vertices') :
    LocalTree edges' vertices' root where
  nodup := hvertices.nodup htree.nodup
  root_notMem hroot := htree.root_notMem (hvertices.mem_iff.mpr hroot)
  children := ((hedges.map _).symm.trans htree.children).trans hvertices
  parents edge hedge :=
    (htree.parents edge (hedges.mem_iff.mpr hedge)).imp_right hvertices.mem_iff.mp
  times edge hedge next hnext :=
    htree.times edge (hedges.mem_iff.mpr hedge) next (hedges.mem_iff.mpr hnext)

variable {edge : TimedEdge Vertex}

theorem child_mem (hedge : edge ∈ edges) : edge.child ∈ vertices :=
  htree.children.mem_iff.mp (mem_map_of_mem hedge)

/-- A renaming that keeps the vertices and the root apart keeps the tree. -/
theorem map (rename : Vertex → Name)
    (hrename : Set.InjOn rename {vertex | vertex = root ∨ vertex ∈ vertices}) :
    LocalTree (edges.map (TimedEdge.map rename)) (vertices.map rename) (rename root) where
  nodup := by
    refine Nodup.map_on ?_ htree.nodup
    intro left hleft right hright heq
    exact hrename (.inr hleft) (.inr hright) heq
  root_notMem := by
    intro hroot
    obtain ⟨vertex, hvertex, heq⟩ := mem_map.mp hroot
    have hvertexroot : vertex = root := hrename (.inr hvertex) (.inl rfl) heq
    exact htree.root_notMem (hvertexroot ▸ hvertex)
  children := by
    have hchildren := htree.children.map rename
    rw [map_map] at hchildren ⊢
    exact hchildren
  parents := by
    intro edge hedge
    obtain ⟨edge, hmem, rfl⟩ := mem_map.mp hedge
    exact (htree.parents edge hmem).imp (congrArg rename) (mem_map_of_mem ·)
  times := by
    intro edge hedge next hnext heq
    obtain ⟨edge, hmem, rfl⟩ := mem_map.mp hedge
    obtain ⟨next, hmem', rfl⟩ := mem_map.mp hnext
    exact htree.times edge hmem next hmem'
      (hrename (htree.parents edge hmem) (.inr (htree.child_mem hmem')) heq)

variable {times : List ℕ}

section

variable {last : Vertex} {start : Vertex} (hwalk : Walk (Up edges) start times last)

include hwalk

/-- The times of a way up are above the time of an edge that leads to its
start. -/
theorem times_gt (hedge : edge ∈ edges) (hparent : edge.parent = start) :
    ∀ time ∈ times, edge.time < time := by
  induction hwalk generalizing edge with
  | nil => simp
  | @cons start next last time times hup hrest ih =>
    have hfirst : edge.time < time := htree.times edge hedge _ hup hparent
    intro other hother
    rcases mem_cons.mp hother with rfl | hother
    · exact hfirst
    · exact hfirst.trans (ih hup rfl other hother)

theorem increasing :
    times.Pairwise (· < ·) := by
  induction hwalk with
  | nil => exact Pairwise.nil
  | @cons start next last time times hup hrest ih =>
    exact Pairwise.cons (htree.times_gt hrest hup rfl) ih

omit hwalk in
/-- Every vertex has a way up to the root.  The times bound the length of the
way: what is left is the room above the time of the last step. -/
theorem exists_walk_root {vertex : Vertex} (hvertex : vertex ∈ vertices) :
    ∃ times, Walk (Up edges) vertex times root := by
  obtain ⟨bound, hbound⟩ : ∃ bound, ∀ edge ∈ edges, edge.time ≤ bound :=
    ⟨(edges.map (·.time)).sum, fun edge hedge =>
      single_le_sum (by simp) _ (mem_map_of_mem hedge)⟩
  have hclimb : ∀ room, ∀ edge ∈ edges, bound - edge.time = room →
      ∃ times, Walk (Up edges) edge.child times root := by
    intro room
    induction room using Nat.strong_induction_on with
    | _ room ih =>
      intro edge hedge hroom
      rcases htree.parents edge hedge with hroot | hparent
      · have hup : Up edges edge.child edge.time root := hroot ▸ hedge
        exact ⟨[edge.time], .cons hup .nil⟩
      · obtain ⟨next, hnext, hchild⟩ :=
          mem_map.mp (htree.children.mem_iff.mpr hparent)
        have hlater : edge.time < next.time := htree.times edge hedge next hnext hchild.symm
        have hle : next.time ≤ bound := hbound next hnext
        obtain ⟨times, hwalk⟩ := ih (bound - next.time) (by omega) next hnext rfl
        rw [hchild] at hwalk
        exact ⟨edge.time :: times, .cons hedge hwalk⟩
  obtain ⟨edge, hedge, rfl⟩ := mem_map.mp (htree.children.mem_iff.mpr hvertex)
  exact hclimb _ edge hedge rfl

theorem mem_of_walk (hstart : start ∈ vertices) :
    last = root ∨ last ∈ vertices := by
  induction hwalk with
  | nil => exact .inr hstart
  | @cons start next last time times hup hrest ih =>
    rcases htree.parents _ hup with hroot | hnext
    · cases hrest with
      | nil => exact .inl hroot
      | cons hup' _ => exact ih (htree.child_mem hup')
    · exact ih hnext

end

theorem reductionTree :
    ReductionTree edges vertices root where
  nodup := htree.nodup
  root_notMem := htree.root_notMem
  children := htree.children
  parents := htree.parents
  increasing := htree.increasing
  ends := by
    intro start times last hstart hwalk
    rcases htree.mem_of_walk hwalk hstart with rfl | hlast
    · exact ⟨[], .nil⟩
    · exact htree.exists_walk_root hlast

end LocalTree

end QfsRepair.Graph
