import Mathlib.Algebra.BigOperators.Group.List.Basic
import Mathlib.Data.List.Nodup
import Mathlib.Tactic.Abel

/-!
# Totals over children

Records that each may name a parent, and the sum of the weights of the records
that name a given one.  The sum does not depend on the order of the records,
and it moves by the difference of one share when one record changes.  All
totals together count every record below another one once.
-/

namespace QfsRepair.Graph

variable {Record Key Total : Type*} [DecidableEq Key] [AddCommGroup Total]
variable (parent : Record → Option Key) (weight : Record → Total)

/-- What a record adds to the total of `dir`. -/
def share (dir : Key) (record : Record) : Total :=
  if parent record = some dir then weight record else 0

def childTotal (dir : Key) (records : List Record) : Total :=
  (records.map (share parent weight dir)).sum

variable {parent weight} {dir : Key}

@[simp]
theorem childTotal_cons (record : Record) (records : List Record) :
    childTotal parent weight dir (record :: records) =
      share parent weight dir record + childTotal parent weight dir records := by
  simp [childTotal]

theorem childTotal_perm {left right : List Record} (hperm : left.Perm right) :
    childTotal parent weight dir left = childTotal parent weight dir right :=
  (hperm.map _).sum_eq

variable {records : List Record}

theorem childTotal_eq_zero (hnone : ∀ record ∈ records, parent record ≠ some dir) :
    childTotal parent weight dir records = 0 := by
  apply List.sum_eq_zero
  intro value hvalue
  obtain ⟨record, hrecord, rfl⟩ := List.mem_map.mp hvalue
  exact if_neg (hnone record hrecord)

/-- A change of the record with one key moves the total by the difference of its
shares. -/
theorem childTotal_update {key : Record → Key} {record : Record}
    (hnodup : (records.map key).Nodup) (hrecord : record ∈ records) (change : Record → Record) :
    childTotal parent weight dir
        (records.map fun other => if key other = key record then change other else other) =
      childTotal parent weight dir records +
        (share parent weight dir (change record) - share parent weight dir record) := by
  induction records with
  | nil => cases hrecord
  | cons first rest ih =>
    obtain ⟨hfirst, hrest⟩ := List.nodup_cons.mp hnodup
    rw [List.map_cons, childTotal_cons, childTotal_cons]
    rcases List.mem_cons.mp hrecord with rfl | hmem
    · have hsame : rest.map (fun other =>
          if key other = key record then change other else other) = rest := by
        refine (List.map_congr_left fun other hother => if_neg ?_).trans (List.map_id' rest)
        exact fun hkey => hfirst (hkey ▸ List.mem_map_of_mem hother)
      rw [hsame, if_pos rfl]
      abel
    · have hne : key first ≠ key record := fun hkey =>
        hfirst (hkey ▸ List.mem_map_of_mem hmem)
      rw [if_neg hne, ih hrest hmem]
      abel

/-- Over all keys every record that names a parent is counted once. -/
theorem sum_childTotal {keys : List Key} (hnodup : keys.Nodup)
    (hkeys : ∀ record ∈ records, ∀ key ∈ parent record, key ∈ keys) :
    (keys.map fun dir => childTotal parent weight dir records).sum =
      (records.map fun record => if (parent record).isSome then weight record else 0).sum := by
  induction records with
  | nil => simp [childTotal]
  | cons record records ih =>
    obtain ⟨hrecord, hrecords⟩ := List.forall_mem_cons.mp hkeys
    simp only [childTotal_cons, List.sum_map_add, ih hrecords, List.map_cons, List.sum_cons]
    congr 1
    cases hparent : parent record with
    | none => simp [share, hparent]
    | some key =>
      rw [List.sum_map_eq_nsmul_single key _ fun other hne _ => by simp [share, hparent, hne.symm],
        List.count_eq_one_of_mem hnodup (hrecord key hparent), one_nsmul]
      simp [share, hparent]

end QfsRepair.Graph
