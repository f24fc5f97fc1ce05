import Mathlib.Data.List.Nodup
import Mathlib.Data.List.TakeWhile

/-!
# Lists that are walked backwards

A cursor is an item of a list without repetitions; what stands before it has
not been visited.  Items that are put into the list or taken out of it leave
the others on their side of the cursor, and the cursor moves to the item before
it, or to the last one before it that is selected.
-/

namespace QfsRepair.Store

open List

variable {Item : Type*} [DecidableEq Item] {items : List Item} {item mark cursor other : Item}

/-- The items before the first occurrence of a mark. -/
def before (items : List Item) (mark : Item) : List Item := items.takeWhile fun item => item ≠ mark

/-- The item before the mark. -/
def prev (items : List Item) (mark : Item) : Option Item := (before items mark).getLast?

/-- The last item before the mark that is selected. -/
def lastBefore (selected : Item → Bool) (items : List Item) (mark : Item) : Option Item :=
  (before items mark).reverse.find? selected

def insertBefore (item mark : Item) : List Item → List Item
  | [] => [item]
  | first :: rest =>
    if first = mark then item :: first :: rest else first :: insertBefore item mark rest

theorem before_cons_self (rest : List Item) : before (mark :: rest) mark = [] := by
  simp [before]

theorem before_cons_of_ne (rest : List Item) (hne : item ≠ mark) :
    before (item :: rest) mark = item :: before rest mark := by
  simp [before, hne]

theorem before_eq_of_append {left right : List Item} (hleft : mark ∉ left) :
    before (left ++ mark :: right) mark = left := by
  induction left with
  | nil => exact before_cons_self right
  | cons first left ih =>
    obtain ⟨hne, hrest⟩ := ne_and_not_mem_of_not_mem_cons hleft
    rw [cons_append, before_cons_of_ne _ (Ne.symm hne), ih hrest]

theorem exists_split (hmark : mark ∈ items) :
    ∃ right, items = before items mark ++ mark :: right := by
  induction items with
  | nil => cases hmark
  | cons first rest ih =>
    by_cases heq : first = mark
    · subst heq
      exact ⟨rest, by rw [before_cons_self, nil_append]⟩
    · obtain ⟨right, hright⟩ := ih ((mem_cons.mp hmark).resolve_left (Ne.symm heq))
      exact ⟨right, by rw [before_cons_of_ne _ heq, cons_append, ← hright]⟩

theorem mem_of_mem_before (hmem : item ∈ before items mark) : item ∈ items :=
  (takeWhile_sublist _).subset hmem

/-- The other items stand before the last one. -/
theorem mem_before_getLast (hnodup : items.Nodup) (hlast : items.getLast? = some mark)
    (hitem : item ∈ items) (hne : item ≠ mark) : item ∈ before items mark := by
  obtain ⟨init, rfl⟩ := getLast?_eq_some_iff.mp hlast
  have hinit : mark ∉ init := fun hin =>
    disjoint_of_nodup_append hnodup hin mem_cons_self
  rw [before_eq_of_append hinit]
  exact (mem_append.mp hitem).resolve_right (by simpa using hne)

/-! ## Insertion and deletion -/

theorem insertBefore_perm : (insertBefore item mark items).Perm (item :: items) := by
  induction items with
  | nil => exact Perm.refl _
  | cons first rest ih =>
    rw [insertBefore]
    split_ifs
    · exact Perm.refl _
    · exact (ih.cons first).trans (Perm.swap ..)

theorem head?_insertBefore (hne : items.head? ≠ some mark) (hitems : items ≠ []) :
    (insertBefore item mark items).head? = items.head? := by
  cases items with
  | nil => exact absurd rfl hitems
  | cons first rest =>
    rw [insertBefore, if_neg fun heq => hne (congrArg some heq), head?_cons, head?_cons]

theorem getLast?_insertBefore (hmark : mark ∈ items) :
    (insertBefore item mark items).getLast? = items.getLast? := by
  induction items with
  | nil => cases hmark
  | cons first rest ih =>
    rw [insertBefore]
    split_ifs with hfirst
    · rw [getLast?_cons_cons]
    · have hrest : mark ∈ rest := (mem_cons.mp hmark).resolve_left (Ne.symm hfirst)
      rw [getLast?_cons, getLast?_cons, ih hrest]

theorem head?_erase (hne : items.head? ≠ some item) : (items.erase item).head? = items.head? := by
  cases items with
  | nil => rfl
  | cons first rest =>
    rw [erase_cons_tail (by simpa using hne)]
    rfl

theorem getLast?_erase (hlast : items.getLast? = some mark) (hne : mark ≠ item) :
    (items.erase item).getLast? = some mark := by
  obtain ⟨init, rfl⟩ := getLast?_eq_some_iff.mp hlast
  rw [erase_append]
  split_ifs
  · simp
  · simp [erase_cons_tail, hne]

theorem mem_before_insertBefore (hne : item ≠ cursor) (hmem : other ∈ before items cursor) :
    other ∈ before (insertBefore item mark items) cursor := by
  induction items with
  | nil => cases hmem
  | cons first rest ih =>
    by_cases hfirst : first = cursor
    · subst hfirst
      rw [before_cons_self] at hmem
      cases hmem
    · rw [before_cons_of_ne _ hfirst] at hmem
      rw [insertBefore]
      split_ifs
      · rw [before_cons_of_ne _ hne, before_cons_of_ne _ hfirst]
        exact mem_cons_of_mem _ hmem
      · rw [before_cons_of_ne _ hfirst]
        exact mem_cons.mpr ((mem_cons.mp hmem).imp_right ih)

theorem mem_before_erase (hitem : item ≠ cursor) (hother : other ≠ item)
    (hmem : other ∈ before items cursor) : other ∈ before (items.erase item) cursor := by
  induction items with
  | nil => cases hmem
  | cons first rest ih =>
    by_cases hfirst : first = cursor
    · subst hfirst
      rw [before_cons_self] at hmem
      cases hmem
    · rw [before_cons_of_ne _ hfirst] at hmem
      by_cases heq : first = item
      · subst heq
        rw [erase_cons_head]
        exact (mem_cons.mp hmem).resolve_left hother
      · rw [erase_cons_tail (by simpa using heq), before_cons_of_ne _ hfirst]
        exact mem_cons.mpr ((mem_cons.mp hmem).imp_right ih)

/-! ## Moves of the cursor -/

/-- The items before an item that stands before the mark. -/
theorem before_of_before_eq {left right : List Item} (hnodup : items.Nodup) (hmark : mark ∈ items)
    (hbefore : before items mark = left ++ cursor :: right) : before items cursor = left := by
  obtain ⟨rest, hitems⟩ := exists_split hmark
  rw [hbefore, append_assoc] at hitems
  rw [hitems]
  refine before_eq_of_append fun hmem => ?_
  rw [hitems] at hnodup
  exact disjoint_of_nodup_append hnodup hmem mem_cons_self

theorem prev_spec (hnodup : items.Nodup) (hmark : mark ∈ items)
    (hprev : prev items mark = some cursor) :
    cursor ∈ before items mark ∧
      ∀ item ∈ before items mark, item = cursor ∨ item ∈ before items cursor := by
  obtain ⟨left, hleft⟩ : ∃ left, before items mark = left ++ [cursor] :=
    getLast?_eq_some_iff.mp hprev
  rw [before_of_before_eq hnodup hmark hleft, hleft]
  refine ⟨mem_append_right _ mem_cons_self, fun item hitem => ?_⟩
  exact (mem_append.mp hitem).symm.imp_left mem_singleton.mp

theorem exists_prev (hitem : item ∈ before items mark) : ∃ cursor, prev items mark = some cursor :=
  ⟨_, List.getLast?_eq_some_getLast (ne_nil_of_mem hitem)⟩

variable {selected : Item → Bool}

theorem lastBefore_eq_none (hnone : lastBefore selected items mark = none) :
    ∀ item ∈ before items mark, selected item = false := by
  intro item hitem
  rw [lastBefore, find?_eq_none] at hnone
  exact Bool.eq_false_iff.mpr (hnone item (mem_reverse.mpr hitem))

theorem lastBefore_spec (hnodup : items.Nodup) (hmark : mark ∈ items)
    (hlast : lastBefore selected items mark = some cursor) :
    selected cursor = true ∧ cursor ∈ before items mark ∧
      ∀ item ∈ before items mark, selected item = true →
        item = cursor ∨ item ∈ before items cursor := by
  obtain ⟨hselected, visited, rest, hreverse, hvisited⟩ := find?_eq_some_iff_append.mp hlast
  have hbefore : before items mark = rest.reverse ++ cursor :: visited.reverse := by
    rw [← reverse_reverse (before items mark), hreverse]
    simp
  rw [before_of_before_eq hnodup hmark hbefore, hbefore]
  refine ⟨hselected, mem_append_right _ mem_cons_self, fun item hitem hsel => ?_⟩
  rcases mem_append.mp hitem with hrest | hafter
  · exact .inr hrest
  · refine (mem_cons.mp hafter).imp_right fun hmem => ?_
    have hnot := hvisited item (mem_reverse.mp hmem)
    rw [hsel] at hnot
    exact absurd hnot Bool.false_ne_true

end QfsRepair.Store
