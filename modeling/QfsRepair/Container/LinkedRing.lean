import Mathlib.Data.List.Chain

/-!
# Concatenation of circular lists

A `QCDLList` is a pointer to the first node of a ring in which every node points
to the next and to the previous one.  `PushBackList` joins two rings by changing
the links at their ends.
-/

namespace QfsRepair.LinkedRing

open Function List

variable {Node : Type*} [DecidableEq Node]

/-- `mNextPtr` and `mPrevPtr` of every node. -/
structure Links (Node : Type*) where
  next : Node → Node
  prev : Node → Node

namespace Links

variable (links : Links Node)

def setNext (node target : Node) : Links Node :=
  { links with next := update links.next node target }

def setPrev (node target : Node) : Links Node :=
  { links with prev := update links.prev node target }

/-- `QCDLListOp::PushBackList` of two rings. -/
def joinRings (listLs listRs : Node) : Links Node :=
  let lsPrev := links.prev listLs
  let rsPrev := links.prev listRs
  let links := (links.setNext lsPrev listRs).setPrev listRs lsPrev
  (links.setNext rsPrev listRs).setPrev listRs rsPrev

/-- `QCDLList::PushBackList`: the links and the heads of the two lists after it. -/
def pushBackList : Option Node → Option Node → Links Node × Option Node × Option Node
  | some headLs, some headRs => (links.joinRings headLs headRs, some headLs, none)
  | none, some headRs => (links, some headRs, none)
  | headLs, none => (links, headLs, none)

omit [DecidableEq Node] in
/-- The list at `head` has the elements, and its links form a ring in both
directions. -/
structure IsList (head : Option Node) (elements : List Node) : Prop where
  nodup : elements.Nodup
  first : head = elements.head?
  ring : (elements ++ head.toList).IsChain fun node after =>
    links.next node = after ∧ links.prev after = node

/-- The first list gets the elements of both in order and the second one becomes
empty. -/
def PushBackCorrect (left right : List Node) : Prop :=
  let (joined, headLs, headRs) := links.pushBackList left.head? right.head?
  joined.IsList headLs (left ++ right) ∧ joined.IsList headRs []

end Links

open Links

variable {links : Links Node} {left right : List Node}

omit [DecidableEq Node] in
theorem Links.IsList.next_getLast {head last : Node} {elements : List Node}
    (hlist : links.IsList (some head) elements) (hlast : elements.getLast? = some last) :
    links.next last = head ∧ links.prev head = last :=
  (isChain_append.mp hlist.ring).2.2 last hlast head rfl

/-- Two lists without a common node are joined if and only if one of them is empty:
the last node of the second one keeps its head as the next node. -/
theorem pushBackCorrect_iff (hleft : links.IsList left.head? left)
    (hright : links.IsList right.head? right) (hdisjoint : left.Disjoint right) :
    links.PushBackCorrect left right ↔ left = [] ∨ right = [] := by
  have hempty : ∀ links : Links Node, links.IsList none [] := fun _ => ⟨nodup_nil, rfl, .nil⟩
  cases left with
  | nil =>
    refine iff_of_true ?_ (.inl rfl)
    cases right with
    | nil => exact ⟨hleft, hempty _⟩
    | cons headRs right => exact ⟨hright, hempty _⟩
  | cons headLs left =>
    cases right with
    | nil =>
      rw [PushBackCorrect, append_nil]
      exact iff_of_true ⟨hleft, hempty _⟩ (.inr rfl)
    | cons headRs right =>
      refine iff_of_false (fun hcorrect => ?_) (by simp)
      obtain ⟨last, hlast⟩ : ∃ last, (headRs :: right).getLast? = some last := ⟨_, rfl⟩
      have hprev := (hright.next_getLast hlast).2
      have hjoined : (headLs :: left ++ headRs :: right).getLast? = some last := by
        rw [getLast?_append, hlast, Option.some_or]
      have hnext := (hcorrect.1.next_getLast hjoined).1
      have hkept : ((links.joinRings headLs headRs).next last) = headRs := by
        rw [← hprev]
        exact update_self _ _ _
      have hsame : headLs = headRs := hnext.symm.trans hkept
      exact hdisjoint mem_cons_self (hsame ▸ mem_cons_self)

/-- Every node is a ring of its own. -/
def singleRings : Links ℕ := ⟨id, id⟩

theorem pushBackCorrect_single : singleRings.PushBackCorrect [] [1] :=
  (pushBackCorrect_iff ⟨nodup_nil, rfl, .nil⟩ ⟨by decide, rfl, by decide⟩
    (disjoint_nil_left _)).mpr (.inl rfl)

/-- Two lists of one element each: the ring of the second one does not lead back to
the first one. -/
theorem not_pushBackCorrect_singles : ¬ singleRings.PushBackCorrect [0] [1] := by
  rintro ⟨hlist, -⟩
  exact absurd hlist.ring (by decide)

end QfsRepair.LinkedRing
