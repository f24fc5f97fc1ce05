import Mathlib.Data.List.Sort

/-!
# Ordered lists and their views

A store that keeps its items in a list in key order is read through views, the
values that a partial function takes on the items.  An insertion adds one value
to a view, a deletion of the first match removes one, and an update in place
maps the values; views that the item does not belong to stay as they are.
-/

namespace QfsRepair.Store

open List

variable {Item Value : Type*} {view : Item → Option Value}

section Insertion

variable (before : Item → Item → Prop) [DecidableRel before] {item : Item}

theorem filterMap_orderedInsert_of_none (items : List Item) (hitem : view item = none) :
    (items.orderedInsert before item).filterMap view = items.filterMap view := by
  induction items with
  | nil => simp [hitem]
  | cons first rest ih =>
    rw [orderedInsert_cons]
    split_ifs
    · rw [filterMap_cons, hitem]
    · simp only [filterMap_cons, ih]

variable {value : Value}

variable (items : List Item)

theorem filterMap_orderedInsert_perm (hitem : view item = some value) :
    ((items.orderedInsert before item).filterMap view).Perm (value :: items.filterMap view) := by
  have hperm := (perm_orderedInsert before item items).filterMap view
  rwa [filterMap_cons_some hitem] at hperm

/-- An item that has the only value of its view is found again. -/
theorem findSome?_orderedInsert_of_empty (hitem : view item = some value)
    (hempty : items.findSome? view = none) :
    (items.orderedInsert before item).findSome? view = some value := by
  have hperm := filterMap_orderedInsert_perm before items hitem
  rw [← head?_filterMap] at hempty ⊢
  rw [head?_eq_none_iff.mp hempty] at hperm
  rw [perm_singleton.mp hperm, head?_cons]

theorem findSome?_orderedInsert_of_none (hitem : view item = none) :
    (items.orderedInsert before item).findSome? view = items.findSome? view := by
  rw [← head?_filterMap, filterMap_orderedInsert_of_none before items hitem,
    head?_filterMap]

end Insertion

section Deletion

variable {found : Item → Bool}

section

variable (items : List Item)

theorem filterMap_eraseP_of_none (hfound : ∀ item, found item = true → view item = none) :
    (items.eraseP found).filterMap view = items.filterMap view := by
  induction items with
  | nil => rfl
  | cons first rest ih =>
    rw [eraseP_cons]
    cases hfirst : found first with
    | true => rw [cond_true, filterMap_cons_none (hfound first hfirst)]
    | false => simp only [cond_false, filterMap_cons, ih]

/-- The first match of a deletion that looks at values of a view only. -/
theorem filterMap_eraseP {selected : Value → Bool}
    (hfound : ∀ item, found item = (view item).any selected) :
    (items.eraseP found).filterMap view = (items.filterMap view).eraseP selected := by
  induction items with
  | nil => rfl
  | cons first rest ih =>
    rw [eraseP_cons, hfound]
    cases hfirst : view first with
    | none => simp only [Option.any_none, cond_false, filterMap_cons_none hfirst, ih]
    | some value =>
      rw [Option.any_some, filterMap_cons_some hfirst, eraseP_cons]
      cases selected value with
      | true => rfl
      | false => simp only [cond_false, filterMap_cons_some hfirst, ih]

/-- Deleting the only item that is selected. -/
theorem eraseP_eq_erase [DecidableEq Item] {item : Item}
    (hfound : ∀ other ∈ items, found other = true ↔ other = item) :
    items.eraseP found = items.erase item := by
  induction items with
  | nil => rfl
  | cons first rest ih =>
    rw [eraseP_cons, erase_cons]
    have hfirst := hfound first mem_cons_self
    by_cases heq : first = item
    · rw [hfirst.mpr heq, cond_true, heq, beq_self_eq_true, if_pos rfl]
    · rw [Bool.eq_false_iff.mpr (fun htrue => heq (hfirst.mp htrue)), cond_false,
        beq_false_of_ne heq, if_neg Bool.false_ne_true,
        ih fun other hother => hfound other (mem_cons_of_mem _ hother)]

end

/-- Deleting the only item that is selected from a list known up to its order. -/
theorem eraseP_perm {item : Item} {items rest : List Item} (hperm : items.Perm (item :: rest))
    (hitem : found item = true) (hrest : ∀ other ∈ rest, found other = false) :
    (items.eraseP found).Perm rest := by
  have hpairs : (item :: rest).Pairwise fun left right => found left → found right → False := by
    refine pairwise_cons.mpr ⟨fun other hother _ hfound => ?_,
      pairwise_of_forall_mem_list fun _ _ other hother _ hfound => ?_⟩ <;>
    · rw [hrest other hother] at hfound
      cases hfound
  have herased := (hperm.symm.eraseP found hpairs).symm
  rwa [eraseP_cons_of_pos hitem] at herased

end Deletion

section Update

variable {update : Item → Item}

theorem filterMap_map_of_eq (items : List Item) (hupdate : ∀ item, view (update item) = view item) :
    (items.map update).filterMap view = items.filterMap view := by
  rw [filterMap_map]
  exact filterMap_congr fun item _ => hupdate item

theorem findSome?_map_of_eq (items : List Item) (hupdate : ∀ item, view (update item) = view item) :
    (items.map update).findSome? view = items.findSome? view := by
  rw [← head?_filterMap, filterMap_map_of_eq items hupdate, head?_filterMap]

variable {change : Value → Value}

theorem filterMap_map (items : List Item)
    (hupdate : ∀ item, view (update item) = (view item).map change) :
    (items.map update).filterMap view = (items.filterMap view).map change := by
  rw [List.filterMap_map, map_filterMap]
  exact filterMap_congr fun item _ => hupdate item

theorem findSome?_map (items : List Item)
    (hupdate : ∀ item, view (update item) = (view item).map change) :
    (items.map update).findSome? view = (items.findSome? view).map change := by
  rw [← head?_filterMap, filterMap_map items hupdate, head?_map, head?_filterMap]

end Update

variable {value : Value}

/-- Items with the same value are one, if no value comes twice. -/
theorem eq_of_nodup_filterMap {items : List Item} (hnodup : (items.filterMap view).Nodup)
    {left right : Item} (hleft : left ∈ items) (hright : right ∈ items)
    (hleftValue : view left = some value) (hrightValue : view right = some value) :
    left = right := by
  induction items with
  | nil => cases hleft
  | cons first rest ih =>
    -- no later item has the value of the first one
    have hfirst : ∀ other ∈ rest, view first = some value → view other ≠ some value := by
      intro other hother hvalue hsame
      rw [filterMap_cons_some hvalue, nodup_cons] at hnodup
      exact hnodup.1 (mem_filterMap.mpr ⟨other, hother, hsame⟩)
    have hrest : (rest.filterMap view).Nodup :=
      hnodup.sublist ((sublist_cons_self first rest).filterMap view)
    rcases mem_cons.mp hleft with rfl | hleftRest <;>
      rcases mem_cons.mp hright with rfl | hrightRest
    · rfl
    · exact absurd hrightValue (hfirst right hrightRest hleftValue)
    · exact absurd hleftValue (hfirst left hleftRest hrightValue)
    · exact ih hrest hleftRest hrightRest

end QfsRepair.Store
