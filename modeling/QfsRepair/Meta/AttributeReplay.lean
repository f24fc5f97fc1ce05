import QfsRepair.Meta.Views
import QfsRepair.Meta.Replay

/-!
# Replay of attribute changes

For every request that changes attributes and succeeds, the line it writes to
the log is replayed on the tree from before the request and compared with the
tree the live handler leaves.  The condition under which the two agree is
exact.
-/

namespace QfsRepair.Meta

open List
open Option hiding or_self

/-! ## Replication -/

namespace Fattr

variable {fa after : Fattr} {numReplicas minSTier maxSTier : ℤ}

/-- The fields of an attribute have the widths of the source, and its id has
been given out by the generator. -/
@[mk_iff]
structure Typed (fa : Fattr) : Prop where
  id_nonneg : 0 ≤ fa.id
  id_lt : fa.id < 2 ^ 63
  numReplicas_nonneg : 0 ≤ fa.numReplicas
  numReplicas_lt : fa.numReplicas < 2 ^ 14
  minSTier_ge : -2 ^ 7 ≤ fa.minSTier
  minSTier_lt : fa.minSTier < 2 ^ 7
  maxSTier_ge : -2 ^ 7 ≤ fa.maxSTier
  maxSTier_lt : fa.maxSTier < 2 ^ 7

instance (fa : Fattr) : Decidable fa.Typed := decidable_of_iff' _ (typed_iff fa)

/-- The storage tiers of two attributes differ. -/
def TiersDiffer (before after : Fattr) : Prop :=
  after.minSTier ≠ before.minSTier ∨ after.maxSTier ≠ before.maxSTier

instance (before after : Fattr) : Decidable (TiersDiffer before after) :=
  inferInstanceAs (Decidable (_ ∨ _))

def TierInRange (tier : ℤ) : Prop := sTierMin ≤ tier ∧ tier ≤ sTierMax

instance (tier : ℤ) : Decidable (TierInRange tier) := inferInstanceAs (Decidable (_ ∧ _))

/-- A tier that is kept beside one that is set is in range, unless nothing changes,
and a number of replicas that is given is not zero in its 14 bits. -/
def ReplicationReplayable (fa : Fattr) (numReplicas minSTier maxSTier : ℤ) : Prop :=
  (minSTier = sTierUndef → maxSTier ≠ sTierUndef →
      sTierMin ≤ fa.minSTier ∨ fa.maxSTier = maxSTier) ∧
    (maxSTier = sTierUndef → minSTier ≠ sTierUndef →
      fa.maxSTier ≤ sTierMax ∨ fa.minSTier = minSTier) ∧
    (0 < numReplicas → numReplicas % 2 ^ 14 = 0 → fa.numReplicas = 0)

/-- Tiers that have changed are in range, and a number of replicas that has
changed is positive. -/
def ChangeReplayable (before after : Fattr) : Prop :=
  (TiersDiffer before after → TierInRange after.minSTier ∧ TierInRange after.maxSTier) ∧
    (after.numReplicas ≠ before.numReplicas → 0 < after.numReplicas)

theorem newTiers_eq (current : ℤ × ℤ) (hmin : minSTier ≠ sTierUndef)
    (hmax : maxSTier ≠ sTierUndef) (hle : minSTier ≤ maxSTier) :
    newTiers current minSTier maxSTier = (minSTier, maxSTier) := by
  simp [newTiers, hmin, hmax, not_lt.mpr hle]

/-- Tiers that change come out in order. -/
theorem newTiers_le {current : ℤ × ℤ} (hne : newTiers current minSTier maxSTier ≠ current) :
    (newTiers current minSTier maxSTier).1 ≤ (newTiers current minSTier maxSTier).2 := by
  rw [newTiers] at hne ⊢
  split_ifs at hne ⊢ <;> simp_all

@[simp]
theorem setTiers_undef (fa : Fattr) : fa.setTiers sTierUndef sTierUndef = fa := by
  simp [setTiers, newTiers]

/-- The attribute that a change of replication leaves: new tiers, and a new
number of replicas for a file when one is asked for. -/
theorem changeReplication_ok
    (hok : fa.changeReplication numReplicas minSTier maxSTier = (.ok, after)) :
    after = { fa.setTiers minSTier maxSTier with numReplicas := after.numReplicas } ∧
      (fa.type = .file ∧ 0 < numReplicas ∧ after.numReplicas = numReplicas % 2 ^ 14 ∨
        (numReplicas ≤ 0 ∨ fa.numReplicas = numReplicas) ∧
          after.numReplicas = fa.numReplicas) := by
  simp only [changeReplication] at hok
  split_ifs at hok with hdir htier hnone hgiven
  · cases hok
  · cases hok
  · obtain ⟨-, rfl⟩ := Prod.mk.inj hok
    exact ⟨rfl, .inr ⟨.inl hnone, rfl⟩⟩
  · cases hok
  · obtain ⟨-, rfl⟩ := Prod.mk.inj hok
    exact ⟨rfl, .inr ⟨.inr (by assumption), rfl⟩⟩
  · obtain ⟨-, rfl⟩ := Prod.mk.inj hok
    refine ⟨rfl, .inl ⟨?_, not_le.mp hnone, rfl⟩⟩
    by_contra hne
    exact hdir ⟨hne, not_le.mp hnone⟩

theorem tier_cases (tier : ℤ) :
    TierInRange tier ∧ tier ≠ sTierUndef ∧ ¬ TierRefused tier ∨
      ¬ TierInRange tier ∧ (tier = sTierUndef ∨ TierRefused tier) := by
  rw [TierInRange, TierRefused, sTierMax, sTierUndef]
  omega

theorem changeReplication_eq (hmin : ¬ TierRefused minSTier) (hmax : ¬ TierRefused maxSTier)
    (hbound : numReplicas < 2 ^ 14) (hfile : fa.type ≠ .file → numReplicas ≤ 0) :
    fa.changeReplication numReplicas minSTier maxSTier =
      (if 0 < numReplicas ∨ minSTier ≠ sTierUndef ∨ maxSTier ≠ sTierUndef then .ok else .einval,
        { fa.setTiers minSTier maxSTier with
          numReplicas := if 0 < numReplicas then numReplicas else fa.numReplicas }) := by
  have hdir : ¬ (fa.type ≠ .file ∧ 0 < numReplicas) := fun h => not_lt.mpr (hfile h.1) h.2
  simp only [changeReplication, if_neg hdir, hmin, hmax, or_self, if_false]
  by_cases hpositive : 0 < numReplicas
  · simp only [not_le.mpr hpositive, hpositive, true_or, if_true, if_false]
    split_ifs with hsame
    · rw [← hsame]
    · rw [Int.emod_eq_of_lt hpositive.le hbound]
  · simp only [not_lt.mp hpositive, if_true, hpositive, false_or, if_false]
    rfl

/-- A change to tiers in order, in range. -/
theorem changeReplication_tiers (hmin : TierInRange minSTier)
    (hmax : TierInRange maxSTier) (hle : minSTier ≤ maxSTier) (hbound : numReplicas < 2 ^ 14)
    (hfile : fa.type ≠ .file → numReplicas ≤ 0) :
    fa.changeReplication numReplicas minSTier maxSTier =
      (.ok, { fa with
        minSTier := minSTier
        maxSTier := maxSTier
        numReplicas := if 0 < numReplicas then numReplicas else fa.numReplicas }) := by
  obtain ⟨-, hminGiven, hminTaken⟩ := (tier_cases minSTier).resolve_right fun h => h.1 hmin
  obtain ⟨-, hmaxGiven, hmaxTaken⟩ := (tier_cases maxSTier).resolve_right fun h => h.1 hmax
  rw [changeReplication_eq hminTaken hmaxTaken hbound hfile, if_pos (.inr (.inl hminGiven)),
    setTiers, newTiers_eq _ hminGiven hmaxGiven hle]

variable (hok : fa.changeReplication numReplicas minSTier maxSTier = (.ok, after))

/-- Tiers that are refused, or left out of the log, do not come back. -/
theorem changeReplication_ne (hdiffer : TiersDiffer fa after)
    (hrange : ¬ (TierInRange minSTier ∧ TierInRange maxSTier)) :
    let given := minSTier ≠ sTierUndef ∧ maxSTier ≠ sTierUndef
    fa.changeReplication numReplicas (if given then minSTier else sTierUndef)
      (if given then maxSTier else sTierUndef) ≠ (.ok, after) := by
  intro given hok
  obtain ⟨hafter, -⟩ := changeReplication_ok hok
  by_cases hgiven : given
  · rw [if_pos hgiven, if_pos hgiven] at hok
    have hrefused : TierRefused minSTier ∨ TierRefused maxSTier := by
      rcases tier_cases minSTier with hmin | ⟨-, hmin⟩
      · rcases tier_cases maxSTier with hmax | ⟨-, hmax⟩
        · exact absurd ⟨hmin.1, hmax.1⟩ hrange
        · exact .inr (hmax.resolve_left hgiven.2)
      · exact .inl (hmin.resolve_left hgiven.1)
    rw [changeReplication, if_pos hrefused] at hok
    split_ifs at hok <;> cases hok
  · rw [if_neg hgiven, if_neg hgiven] at hafter
    rw [TiersDiffer, hafter] at hdiffer
    simp at hdiffer

@[simp]
theorem changeReplication_id (fa : Fattr) (numReplicas minSTier maxSTier : ℤ) :
    (fa.changeReplication numReplicas minSTier maxSTier).2.id = fa.id := by
  simp only [changeReplication]
  split_ifs <;> rfl

theorem Typed.fits (htyped : fa.Typed) : Fits64 fa.id ∧ fa.id ≠ -1 := by
  have hnonneg := htyped.id_nonneg
  have hlt := htyped.id_lt
  refine ⟨⟨?_, hlt⟩, ?_⟩ <;> omega

include hok

theorem eq_setTiers :
    after = { fa with
      minSTier := after.minSTier
      maxSTier := after.maxSTier
      numReplicas := after.numReplicas } := by
  obtain ⟨hafter, -⟩ := changeReplication_ok hok
  rw [hafter, setTiers]

/-- Tiers in range that are logged come back, with the number of replicas if it
is positive. -/
theorem changeReplication_tiers_eq_iff
    (hrange : TierInRange after.minSTier ∧ TierInRange after.maxSTier)
    (hdiffer : TiersDiffer fa after) (hbound : after.numReplicas < 2 ^ 14) :
    let given := after.minSTier ≠ sTierUndef ∧ after.maxSTier ≠ sTierUndef
    fa.changeReplication (if after.type = .dir then 0 else after.numReplicas)
        (if given then after.minSTier else sTierUndef)
        (if given then after.maxSTier else sTierUndef) = (.ok, after) ↔
      ChangeReplayable fa after := by
  obtain ⟨hafter, hreplicas⟩ := changeReplication_ok hok
  have htype : after.type = fa.type := by rw [hafter, setTiers]
  have hgiven : after.minSTier ≠ sTierUndef ∧ after.maxSTier ≠ sTierUndef :=
    ⟨((tier_cases _).resolve_right fun h => h.1 hrange.1).2.1,
      ((tier_cases _).resolve_right fun h => h.1 hrange.2).2.1⟩
  have hle : after.minSTier ≤ after.maxSTier := by
    rw [hafter]
    refine newTiers_le fun hsame => ?_
    rw [TiersDiffer, hafter] at hdiffer
    simp [setTiers, hsame] at hdiffer
  intro given
  rw [if_pos hgiven, if_pos hgiven, ChangeReplayable, and_iff_right fun _ => hrange]
  have heq {count : ℤ} : ((Status.ok, { fa with
      minSTier := after.minSTier
      maxSTier := after.maxSTier
      numReplicas := count }) = (Status.ok, after)) ↔ count = after.numReplicas := by
    refine ⟨fun h => ?_, fun h => ?_⟩
    · exact congrArg (Fattr.numReplicas ∘ Prod.snd) h
    · rw [h, ← eq_setTiers hok]
  by_cases hdir : after.type = .dir
  · have hnotFile : fa.type ≠ .file := by
      rw [← htype, hdir]
      decide
    have hsame := (hreplicas.resolve_left fun h => hnotFile h.1).2
    rw [if_pos hdir, changeReplication_tiers hrange.1 hrange.2 hle (by decide) fun _ => le_rfl, heq]
    exact iff_of_true hsame.symm fun h => absurd hsame h
  · have hfile : fa.type ≠ .file → after.numReplicas ≤ 0 := fun h => by
      cases hfa : fa.type with
      | file => exact absurd hfa h
      | dir => exact absurd (htype.trans hfa) hdir
    rw [if_neg hdir, changeReplication_tiers hrange.1 hrange.2 hle hbound hfile, heq]
    split_ifs with hpositive
    · exact iff_of_true rfl fun _ => hpositive
    · exact ⟨fun h hne => absurd h.symm hne,
        fun h => by_contra fun hne => hpositive (h (Ne.symm hne))⟩

/-- The values in the log give the same attribute again exactly if they are
replayable. -/
theorem changeReplication_replay {logReplicas logMin logMax : ℤ} (htyped : fa.Typed)
    (hlog : Tree.replicationLog fa after = some (logReplicas, logMin, logMax)) :
    let given := logMin ≠ sTierUndef ∧ logMax ≠ sTierUndef
    fa.changeReplication logReplicas (if given then logMin else sTierUndef)
        (if given then logMax else sTierUndef) = (.ok, after) ↔
      ChangeReplayable fa after := by
  obtain ⟨hafter, hreplicas⟩ := changeReplication_ok hok
  have htype : after.type = fa.type := by rw [hafter, setTiers]
  have hbound : after.numReplicas < 2 ^ 14 := by
    rcases hreplicas with ⟨-, -, hreplicas⟩ | ⟨-, hreplicas⟩
    · rw [hreplicas]
      exact Int.emod_lt_of_pos _ (by decide)
    · rw [hreplicas]
      exact htyped.numReplicas_lt
  simp only [Tree.replicationLog] at hlog
  by_cases hdiffer : TiersDiffer fa after
  · rw [if_pos (show _ ∨ _ from hdiffer)] at hlog
    cases hlog
    by_cases hrange : TierInRange after.minSTier ∧ TierInRange after.maxSTier
    · exact changeReplication_tiers_eq_iff hok hrange hdiffer hbound
    · refine iff_of_false (changeReplication_ne hdiffer hrange) ?_
      exact fun hreplayable => hrange (hreplayable.1 hdiffer)
  · rw [if_neg (show ¬ (_ ∨ _) from hdiffer)] at hlog
    split_ifs at hlog with hdir hchanged hchanged
    · exact absurd hdir hchanged.1
    · cases hlog
      have hfile : fa.type = .file := by
        cases hfa : fa.type with
        | file => rfl
        | dir => exact absurd (htype.trans hfa) hdir
      have hsame : after = { fa with numReplicas := after.numReplicas } := by
        rw [TiersDiffer, not_or, not_not, not_not] at hdiffer
        nth_rewrite 1 [eq_setTiers hok]
        rw [hdiffer.1, hdiffer.2]
      simp only [ne_eq, not_true_eq_false, and_self, if_false]
      rw [changeReplication_eq (by decide) (by decide) hbound fun h => absurd hfile h,
        setTiers_undef]
      by_cases hpositive : 0 < after.numReplicas
      · rw [if_pos (.inl hpositive), if_pos hpositive, ← hsame]
        exact iff_of_true rfl ⟨fun h => absurd h hdiffer, fun _ => hpositive⟩
      · rw [if_neg (by simp [hpositive])]
        exact iff_of_false (by simp) fun h => hpositive (h.2 hchanged.2)

theorem changeReplication_not_refused :
    ¬ TierRefused minSTier ∧ ¬ TierRefused maxSTier := by
  rw [← not_or]
  intro hrefused
  rw [changeReplication] at hok
  split_ifs at hok <;> cases hok

theorem newTiers_of_ok : (after.minSTier, after.maxSTier) =
    newTiers (fa.minSTier, fa.maxSTier) minSTier maxSTier := by
  rw [(changeReplication_ok hok).1, setTiers]

theorem changeReplayable_iff (htyped : fa.Typed) :
    ChangeReplayable fa after ↔ fa.ReplicationReplayable numReplicas minSTier maxSTier := by
  obtain ⟨-, hreplicas⟩ := changeReplication_ok hok
  obtain ⟨hmin, hmax⟩ := changeReplication_not_refused hok
  have htiers := newTiers_of_ok hok
  have hnonneg := htyped.numReplicas_nonneg
  have hlt := htyped.numReplicas_lt
  rw [TierRefused, sTierUndef, sTierMin, sTierMax] at hmin hmax
  rw [ChangeReplayable, ReplicationReplayable, ← and_assoc]
  refine and_congr ?_ ?_
  · clear hreplicas
    simp only [TiersDiffer, TierInRange, sTierUndef, sTierMin, sTierMax, newTiers] at htiers ⊢
    split_ifs at htiers <;> obtain ⟨hfirst, hsecond⟩ := Prod.mk.inj htiers <;>
      simp_all <;> omega
  · clear hmin hmax htiers
    rcases hreplicas with ⟨-, hpos, heq⟩ | ⟨hkept, heq⟩
    · omega
    · omega

theorem Typed.changeReplication (htyped : fa.Typed) : after.Typed := by
  obtain ⟨hafter, hreplicas⟩ := changeReplication_ok hok
  obtain ⟨hmin, hmax⟩ := changeReplication_not_refused hok
  rw [TierRefused, sTierUndef, sTierMin, sTierMax] at hmin hmax
  have hid : after.id = fa.id := by rw [hafter, setTiers]
  have htiers := newTiers_of_ok hok
  obtain ⟨hidNonneg, hidLt, hreplicasNonneg, hreplicasLt, hminGe, hminLt, hmaxGe, hmaxLt⟩ := htyped
  simp only [newTiers, sTierUndef] at htiers
  constructor
  all_goals first
    | omega
    | (split_ifs at htiers <;> simp only [Prod.mk.injEq] at htiers <;> omega)

end Fattr

def Item.Typed : Item → Prop
  | fattr fa => fa.Typed
  | _ => True

instance : DecidablePred Item.Typed
  | .fattr fa => inferInstanceAs (Decidable fa.Typed)
  | .chunkInfo _ => isTrue trivial
  | .dentry _ => isTrue trivial

/-- The attributes of a tree have the types of the source. -/
def Tree.Typed (tree : Tree) : Prop := ∀ item ∈ tree.leaves, item.Typed

instance (tree : Tree) : Decidable tree.Typed :=
  inferInstanceAs (Decidable (∀ item ∈ tree.leaves, item.Typed))

theorem Tree.Typed.getFattr {tree : Tree} {fid : ℤ} {fa : Fattr} (htyped : tree.Typed)
    (hfattr : tree.getFattr fid = some fa) : fa.Typed := by
  obtain ⟨item, hmem, hitem⟩ := exists_of_findSome?_eq_some hfattr
  obtain ⟨rfl, -⟩ := Item.fattrWith_eq_some.mp hitem
  exact htyped _ hmem

/-! ## The lines are replayed -/

namespace Tree

variable {tree : Tree} {settings : Settings} {env : Environment} {fid : ℤ} {fa : Fattr}

section

variable (hfid : Fits64 fid ∧ fid ≠ -1)

include hfid

theorem playlog_chmodEntry {mode : ℕ} (hmode : mode < 2 ^ 16)
    (hfattr : tree.getFattr fid = some fa) :
    playlog settings env tree (chmodEntry fid mode) =
      some (tree.modifyFattr fid fun fa => { fa with mode := mode }) := by
  have hnonneg : (0 : ℤ) ≤ mode := Int.natCast_nonneg mode
  have hsmall : (mode : ℤ) < 2 ^ 16 := by exact_mod_cast hmode
  rw [chmodEntry, playlog_line _ _ _ (by decide) ?_ (by simp)]
  · change tree.replayChmod _ = _
    simp only [replayChmod, Cursor.popFid_showInt hfid.1 hfid.2, Popped.required_some,
      Cursor.popNum_showInt (by decide) hnonneg hsmall, hfattr, map_some,
      Int.emod_eq_of_lt hnonneg hsmall, Int.toNat_natCast]
  · simp only [forall_mem_cons, plain_showInt (by decide : 64 ≤ 64),
      plain_showInt (by decide : 16 ≤ 64)]
    decide

/-- The group of a `chown` line ends up as the owner. -/
theorem playlog_chownEntry {user group : ℕ} (huser : user < 2 ^ 32) (hgroup : group < 2 ^ 32)
    (hfattr : tree.getFattr fid = some fa) :
    playlog settings env tree (chownEntry fid user group) =
      if user = userNone ∧ group = groupNone then none
      else some (tree.modifyFattr fid fun fa => { fa with
        user := if group ≠ groupNone then group
          else if user ≠ userNone then user else fa.user }) := by
  have huserNonneg : (0 : ℤ) ≤ user := Int.natCast_nonneg user
  have huserSmall : (user : ℤ) < 2 ^ 32 := by exact_mod_cast huser
  have hgroupNonneg : (0 : ℤ) ≤ group := Int.natCast_nonneg group
  have hgroupSmall : (group : ℤ) < 2 ^ 32 := by exact_mod_cast hgroup
  rw [chownEntry, playlog_line _ _ _ (by decide) ?_ (by simp)]
  · change tree.replayChown _ = _
    simp only [replayChown, Cursor.popFid_showInt hfid.1 hfid.2, Popped.required_some,
      Cursor.popNum_showInt (by decide) huserNonneg huserSmall,
      Cursor.popNum_showInt (by decide) hgroupNonneg hgroupSmall, hfattr, map_some,
      Int.emod_eq_of_lt huserNonneg huserSmall, Int.emod_eq_of_lt hgroupNonneg hgroupSmall,
      Int.toNat_natCast]
    by_cases huserGiven : user = userNone <;> by_cases hgroupGiven : group = groupNone
    · simp [huserGiven, hgroupGiven]
    · simp [huserGiven, hgroupGiven]
    · simp [huserGiven, hgroupGiven]
    · simp only [huserGiven, hgroupGiven, and_self, if_false, ne_eq, not_false_eq_true, if_true]
      rw [modifyFattr_modifyFattr (by intro fa; rfl)]
  · simp only [forall_mem_cons, plain_showInt (by decide : 64 ≤ 64),
      plain_showInt (by decide : 32 ≤ 64)]
    decide

theorem playlog_setMtimeEntry {mtime : ℤ} (hmtime : Fits64 mtime) :
    playlog settings env tree (setMtimeEntry fid mtime) =
      if Cursor.TimeReadable mtime then some (tree.setMtime fid mtime) else none := by
  rw [setMtimeEntry, cons_append, playlog_line _ _ _ (by decide) ?_ (by simp [showTime])]
  · change tree.replaySetmtime _ = _
    simp only [replaySetmtime, cons_append, nil_append,
      Cursor.popFid_showInt hfid.1 hfid.2, Popped.required_some]
    have hpop : Cursor.popTime ⟨"mtime".toList :: showTime mtime ++ [], true⟩ "mtime".toList = _ :=
      Cursor.popTime_showTime hmtime
    rw [append_nil] at hpop
    rw [hpop]
    split_ifs <;> rfl
  · simp only [cons_append, nil_append, forall_mem_cons, plain_showInt (by decide : 64 ≤ 64)]
    exact ⟨by decide, by decide, trivial, by decide, plain_showTime mtime⟩

end

variable {minSTier maxSTier : ℤ}

theorem popTiers_tokens (hmin : -2 ^ 7 ≤ minSTier ∧ minSTier < 2 ^ 7)
    (hmax : -2 ^ 7 ≤ maxSTier ∧ maxSTier < 2 ^ 7) :
    let given := minSTier ≠ sTierUndef ∧ maxSTier ≠ sTierUndef
    popTiers ⟨if given then
        ["minTier".toList, showInt 32 minSTier, "maxTier".toList, showInt 32 maxSTier] else [],
        true⟩ =
      some (if given then minSTier else sTierUndef, if given then maxSTier else sTierUndef) := by
  intro given
  have hread {tier : ℤ} (htier : -2 ^ 7 ≤ tier ∧ tier < 2 ^ 7) :
      (Striping.wrap64 (tier % 2 ^ 32)).bmod (2 ^ 8) = tier := by
    rw [Striping.wrap64_of_bounds (by omega) (by omega), Int.bmod_def]
    split_ifs <;> omega
  by_cases hgiven : given
  · simp only [if_pos hgiven, popTiers, reduceCtorEq, if_false,
      Cursor.popNum_cons (hexToNumber_showInt (by decide : 32 ≤ 64) _), Popped.required_some,
      hread hmin, hread hmax]
  · simp only [if_neg hgiven, popTiers, if_true]

variable {numReplicas : ℤ}

theorem playlog_setrepEntry (hfid : Fits64 fid ∧ fid ≠ -1)
    (hreplicas : 0 ≤ numReplicas ∧ numReplicas < 2 ^ 14)
    (hmin : -2 ^ 7 ≤ minSTier ∧ minSTier < 2 ^ 7) (hmax : -2 ^ 7 ≤ maxSTier ∧ maxSTier < 2 ^ 7)
    (hfattr : tree.getFattr fid = some fa) :
    let given := minSTier ≠ sTierUndef ∧ maxSTier ≠ sTierUndef
    let change (fa : Fattr) := fa.changeReplication numReplicas
      (if given then minSTier else sTierUndef) (if given then maxSTier else sTierUndef)
    playlog settings env tree (setrepEntry fid numReplicas minSTier maxSTier) =
      if (change fa).1 = .ok then some (tree.modifyFattr fid fun fa => (change fa).2)
      else none := by
  intro given change
  have hshort : numReplicas.bmod (2 ^ 16) = numReplicas := by
    rw [Int.bmod_def]
    split_ifs <;> omega
  rw [setrepEntry, cons_append, playlog_line _ _ _ (by decide) ?_ ?_]
  · change tree.replaySetrep _ = _
    simp only [replaySetrep, cons_append, nil_append,
      Cursor.popFid_showInt hfid.1 hfid.2, Popped.required_some,
      Cursor.popShort_cons (hexToNumber_showInt_of_nonneg (by decide : 16 < 64) hreplicas.1
        (hreplicas.2.trans (by decide))), hshort, if_pos (show numReplicas ≠ -1 by omega),
      popTiers_tokens hmin hmax, bind_some, hfattr]
    rfl
  · simp only [cons_append, nil_append, forall_mem_cons,
      plain_showInt (by decide : 64 ≤ 64), plain_showInt (by decide : 16 ≤ 64)]
    refine ⟨by decide, by decide, trivial, by decide, trivial, ?_⟩
    split_ifs
    · simp only [forall_mem_cons, plain_showInt (by decide : 32 ≤ 64)]
      decide
    · simp
  · split_ifs <;> simp

end Tree

/-! ## Requests and their lines -/

namespace AttributeRequest

/-- The values of a request have the types of the source; an id that the server
notes a time for is positive. -/
def Typed : AttributeRequest → Prop
  | chmod _ mode _ => mode < 2 ^ 16
  | chown _ user group _ _ => user < 2 ^ 32 ∧ group < 2 ^ 32
  | changeReplication .. => True
  | setMtime _ mtime _ _ => Fits64 mtime
  | noteMtime fid mtime => 0 < fid ∧ fid < 2 ^ 63 ∧ Fits64 mtime

/-- The requests whose line has the effect of the request.  A `chown` has to give
something, and a group only if the file already has it and if it is the number
of the owner as well, as `replay_chown` stores it there.  A time before the
epoch has to be a number of seconds other than `-1`. -/
def Replayable (settings : Settings) (tree : Tree) : AttributeRequest → Prop
  | chmod .. => True
  | chown fid user group _ _ =>
    (user ≠ userNone ∨ group ≠ groupNone) ∧
      (group ≠ groupNone → ∀ fa ∈ tree.getFattr fid,
        fa.group = group ∧ (if user ≠ userNone then user else fa.user) = group)
  | changeReplication fid numReplicas minSTier maxSTier _ _ _ =>
    ∀ fa ∈ tree.getFattr fid, fa.ReplicationReplayable (fa.limitReplicas settings numReplicas)
      minSTier maxSTier
  | setMtime _ mtime _ _ => Cursor.TimeReadable mtime
  | noteMtime fid mtime =>
    Cursor.TimeReadable mtime ∧ ∀ fa ∈ tree.getFattr fid, fa.mtime = mtime

end AttributeRequest

namespace Tree

variable {tree live : Tree} {settings : Settings} {env replayEnv : Environment} {fid : ℤ}
  {fa : Fattr} {log : Name}

theorem handleChmod_ok {mode euser : ℕ} (hok : tree.handleChmod fid mode euser = (.ok, live)) :
    (∃ fa, tree.getFattr fid = some fa) ∧
      live = tree.modifyFattr fid fun fa => { fa with mode := mode } := by
  rw [handleChmod] at hok
  split at hok
  · cases hok
  · rename_i fa hfattr
    split_ifs at hok <;> cases hok
    exact ⟨⟨fa, hfattr⟩, rfl⟩

theorem handleChown_ok {user group euser : ℕ} {authenticated : Bool}
    (hok : tree.handleChown env fid user group euser authenticated = (.ok, live)) :
    (∃ fa, tree.getFattr fid = some fa) ∧ live = tree.setOwner fid user group := by
  rw [handleChown] at hok
  split at hok
  · cases hok
  · rename_i fa hfattr
    simp only at hok
    split_ifs at hok <;> cases hok <;> exact ⟨⟨fa, hfattr⟩, rfl⟩

theorem handleSetMtime_ok {pathname : Name} {mtime : ℤ} {euser egroup : ℕ}
    (hok : tree.handleSetMtime env pathname mtime euser egroup = some (.ok, fid, live)) :
    (∃ fa, tree.getFattr fid = some fa) ∧ live = tree.setMtime fid mtime := by
  obtain ⟨result, hlookup, hok⟩ := map_eq_some_iff.mp hok
  have hfound := lookupPath_found hlookup
  split at hok
  · exact absurd (Prod.mk.inj hok).1 hfound
  · rename_i fa
    split_ifs at hok <;> cases hok
    exact ⟨⟨fa, hfound⟩, rfl⟩

variable {numReplicas minSTier maxSTier : ℤ}

theorem handleChangeReplication_ok {stripedSupport : Bool} {euser egroup : ℕ}
    {line : Option (ℤ × ℤ × ℤ)}
    (hok : tree.handleChangeReplication env settings fid numReplicas minSTier maxSTier
      stripedSupport euser egroup = (.ok, line, live)) :
    ∃ fa after, tree.getFattr fid = some fa ∧
      fa.changeReplication (fa.limitReplicas settings numReplicas) minSTier maxSTier =
        (.ok, after) ∧
      line = replicationLog fa after ∧
      live = tree.modifyFattr fid fun other =>
        (other.changeReplication (fa.limitReplicas settings numReplicas) minSTier maxSTier).2 := by
  rw [handleChangeReplication] at hok
  split at hok
  · cases hok
  · rename_i fa hfattr
    split_ifs at hok <;> try cases hok
    simp only [Prod.mk.injEq] at hok
    obtain ⟨hstatus, hline, hlive⟩ := hok
    rw [if_pos hstatus] at hline
    exact ⟨fa, _, hfattr, Prod.ext hstatus rfl, hline.symm, hlive.symm⟩

/-- The owner and the group after a `chown` against what its line replays to. -/
theorem chown_replay_iff {user group : ℕ} (hnodup : tree.fattrIds.Nodup)
    (hfattr : tree.getFattr fid = some fa) :
    (if user = userNone ∧ group = groupNone then none
      else some (tree.modifyFattr fid fun fa => { fa with
        user := if group ≠ groupNone then group
          else if user ≠ userNone then user else fa.user })) =
      some (tree.setOwner fid user group) ↔
    (user ≠ userNone ∨ group ≠ groupNone) ∧ (group ≠ groupNone →
      fa.group = group ∧ (if user ≠ userNone then user else fa.user) = group) := by
  by_cases hgiven : user = userNone ∧ group = groupNone
  · simp [hgiven.1, hgiven.2]
  · rw [if_neg hgiven, some_inj, setOwner,
      modifyFattr_eq_iff hnodup hfattr (by intro fa; rfl) (by intro fa; rfl),
      and_iff_right (not_and_or.mp hgiven)]
    by_cases hgroup : group = groupNone
    · simp [hgroup]
    · simp only [hgroup, ne_eq, not_false_eq_true, if_true, Fattr.mk.injEq, true_and, and_true,
        forall_const]
      tauto

variable {after : Fattr}

theorem replicationLog_bounds {logReplicas logMin logMax : ℤ} (htyped : after.Typed)
    (hline : replicationLog fa after = some (logReplicas, logMin, logMax)) :
    (0 ≤ logReplicas ∧ logReplicas < 2 ^ 14) ∧ (-2 ^ 7 ≤ logMin ∧ logMin < 2 ^ 7) ∧
      (-2 ^ 7 ≤ logMax ∧ logMax < 2 ^ 7) := by
  obtain ⟨-, -, hreplicasNonneg, hreplicasLt, hminGe, hminLt, hmaxGe, hmaxLt⟩ := htyped
  simp only [replicationLog, sTierUndef] at hline
  split_ifs at hline <;> simp only [some.injEq, Prod.mk.injEq] at hline <;> omega

theorem replication_replay_iff {line : ℤ × ℤ × ℤ} (hnodup : tree.fattrIds.Nodup)
    (htyped : fa.Typed) (hfattr : tree.getFattr fid = some fa)
    (hok : fa.changeReplication numReplicas minSTier maxSTier = (.ok, after))
    (hline : replicationLog fa after = some line) :
    playlog settings env tree (setrepEntry fid line.1 line.2.1 line.2.2) =
        some (tree.modifyFattr fid fun fa =>
          (fa.changeReplication numReplicas minSTier maxSTier).2) ↔
      fa.ChangeReplayable after := by
  obtain ⟨logReplicas, logMin, logMax⟩ := line
  have hfid : Fits64 fid ∧ fid ≠ -1 := getFattr_id hfattr ▸ htyped.fits
  obtain ⟨hreplicas, hmin, hmax⟩ := replicationLog_bounds (htyped.changeReplication hok) hline
  have hreplay := Fattr.changeReplication_replay hok htyped hline
  rw [playlog_setrepEntry hfid hreplicas hmin hmax hfattr]
  dsimp only at hreplay ⊢
  generalize (if logMin ≠ sTierUndef ∧ logMax ≠ sTierUndef then logMin else sTierUndef) =
    replayMin at hreplay ⊢
  generalize (if logMin ≠ sTierUndef ∧ logMax ≠ sTierUndef then logMax else sTierUndef) =
    replayMax at hreplay ⊢
  split_ifs with hstatus
  · rw [← hreplay, some_inj, modifyFattr_eq_iff hnodup hfattr (by simp) (by simp), hok]
    exact ⟨fun h => Prod.ext hstatus h, fun h => congrArg Prod.snd h⟩
  · exact iff_of_false (by simp) fun h => hstatus (congrArg Prod.fst (hreplay.mpr h))

/-- Attributes whose replication is not logged have not changed. -/
theorem replication_unlogged
    (hok : fa.changeReplication numReplicas minSTier maxSTier = (.ok, after))
    (hline : replicationLog fa after = none) : after = fa := by
  obtain ⟨hafter, hreplicas⟩ := Fattr.changeReplication_ok hok
  have heq := Fattr.eq_setTiers hok
  have htype : after.type = fa.type := by rw [hafter, Fattr.setTiers]
  simp only [replicationLog] at hline
  split_ifs at hline with htiers hdir hchanged hchanged <;>
    rw [not_or, not_not, not_not] at htiers
  · have hsame : after.numReplicas = fa.numReplicas := by
      refine (hreplicas.resolve_left fun h => ?_).2
      rw [← htype, hdir] at h
      cases h.1
    rw [heq, htiers.1, htiers.2, hsame]
  · rw [not_and, not_not] at hchanged
    rw [heq, htiers.1, htiers.2, hchanged hdir]

/-- The line of a request that succeeded, replayed on the tree from before the
request, gives the tree after the request exactly if the request is
replayable. -/
theorem playlog_eq_iff_replayable (request : AttributeRequest) (hnodup : tree.fattrIds.Nodup)
    (htyped : tree.Typed) (hrequest : request.Typed)
    (hok : request.handle settings env tree = some (.ok, log, live)) :
    playlog settings replayEnv tree log = some live ↔ request.Replayable settings tree := by
  cases request with
  | chmod fid mode euser =>
    rcases hhandle : tree.handleChmod fid mode euser with ⟨status, next⟩
    simp only [AttributeRequest.handle, hhandle, some.injEq, Prod.mk.injEq] at hok
    obtain ⟨rfl, rfl, rfl⟩ := hok
    obtain ⟨⟨fa, hfattr⟩, rfl⟩ := handleChmod_ok hhandle
    have hfid := getFattr_id hfattr ▸ (htyped.getFattr hfattr).fits
    exact iff_of_true (playlog_chmodEntry hfid hrequest hfattr) trivial
  | chown fid user group euser authenticated =>
    rcases hhandle : tree.handleChown env fid user group euser authenticated with ⟨status, next⟩
    simp only [AttributeRequest.handle, hhandle, some.injEq, Prod.mk.injEq] at hok
    obtain ⟨rfl, rfl, rfl⟩ := hok
    obtain ⟨⟨fa, hfattr⟩, rfl⟩ := handleChown_ok hhandle
    have hfid := getFattr_id hfattr ▸ (htyped.getFattr hfattr).fits
    rw [if_pos rfl, playlog_chownEntry hfid hrequest.1 hrequest.2 hfattr,
      chown_replay_iff hnodup hfattr]
    simp [AttributeRequest.Replayable, hfattr]
  | changeReplication fid numReplicas minSTier maxSTier stripedSupport euser egroup =>
    rcases hhandle : tree.handleChangeReplication env settings fid numReplicas minSTier maxSTier
      stripedSupport euser egroup with ⟨status, line, next⟩
    simp only [AttributeRequest.handle, hhandle, some.injEq, Prod.mk.injEq] at hok
    obtain ⟨rfl, rfl, rfl⟩ := hok
    obtain ⟨fa, after, hfattr, hchange, rfl, rfl⟩ := handleChangeReplication_ok hhandle
    have hreplayable : AttributeRequest.Replayable settings tree
        (.changeReplication fid numReplicas minSTier maxSTier stripedSupport euser egroup) ↔
        fa.ChangeReplayable after := by
      rw [Fattr.changeReplayable_iff hchange (htyped.getFattr hfattr)]
      simp [AttributeRequest.Replayable, hfattr]
    rw [hreplayable]
    cases hline : replicationLog fa after with
    | none =>
      have hafter := replication_unlogged hchange hline
      have hlive : tree.modifyFattr fid (fun other => (other.changeReplication
          (fa.limitReplicas settings numReplicas) minSTier maxSTier).2) = tree := by
        rw [modifyFattr_eq_self_iff hnodup hfattr (by simp), hchange, hafter]
      rw [hlive, hafter]
      refine iff_of_true (playlog_nil _ _ _) ⟨fun h => ?_, fun h => absurd rfl h⟩
      simp [Fattr.TiersDiffer] at h
    | some line =>
      exact replication_replay_iff hnodup (htyped.getFattr hfattr) hfattr hchange hline
  | setMtime pathname mtime euser egroup =>
    obtain ⟨⟨status, fid, next⟩, hhandle, hresult⟩ := map_eq_some_iff.mp hok
    obtain ⟨rfl, rfl, rfl⟩ := hresult
    obtain ⟨⟨fa, hfattr⟩, rfl⟩ := handleSetMtime_ok hhandle
    have hfid := getFattr_id hfattr ▸ (htyped.getFattr hfattr).fits
    rw [if_pos rfl, playlog_setMtimeEntry hfid hrequest, AttributeRequest.Replayable]
    simp
  | noteMtime fid mtime =>
    obtain ⟨rfl, rfl⟩ := hok
    obtain ⟨hpos, hlt, hmtime⟩ := hrequest
    have hfid : Fits64 fid ∧ fid ≠ -1 := ⟨⟨by omega, hlt⟩, by omega⟩
    have hlive : tree.setMtime fid mtime = tree ↔
        ∀ fa ∈ tree.getFattr fid, fa.mtime = mtime := by
      cases hfattr : tree.getFattr fid with
      | none => simp [setMtime, modifyFattr_of_none hfattr]
      | some fa =>
        rw [setMtime, modifyFattr_eq_self_iff hnodup hfattr (by simp)]
        simp only [mem_def, some.injEq, forall_eq']
        exact ⟨fun h => (congrArg Fattr.mtime h).symm, fun h => h ▸ rfl⟩
    rw [playlog_setMtimeEntry hfid hmtime, AttributeRequest.Replayable, ← hlive]
    simp

/-- The root directory with one file. -/
def fileInRoot : Tree :=
  [.fattr { Fattr.create .dir rootFid 1 userRoot groupRoot 0o755 0 with subcount1 := 1 },
    .dentry ⟨rootFid, rootFid, rootName⟩,
    .dentry ⟨rootFid, rootFid, thisDir⟩,
    .dentry ⟨rootFid, rootFid, parentDir⟩,
    .fattr { Fattr.create .file 3 1 7 8 0o644 0 with parent := some rootFid },
    .dentry ⟨3, rootFid, ['f']⟩].foldl Tree.insert ⟨[], true, 3, 0⟩

/-- A file is given to another owner. -/
theorem playlog_chown_user :
    playlog {} quiet fileInRoot (chownEntry 3 9 groupNone) =
      some (fileInRoot.setOwner 3 9 groupNone) := by
  have hok : AttributeRequest.handle {} quiet fileInRoot (.chown 3 9 groupNone userRoot false) =
      some (.ok, chownEntry 3 9 groupNone, fileInRoot.setOwner 3 9 groupNone) := by
    decide +kernel
  exact (playlog_eq_iff_replayable (.chown 3 9 groupNone userRoot false) (by decide +kernel)
    (by decide +kernel) ⟨by decide, by decide⟩ hok).mpr ⟨by decide, fun h => absurd rfl h⟩

/-- A file is given to another group: the replay leaves its group and makes the
new group its owner. -/
theorem not_playlog_chown_group :
    AttributeRequest.handle {} quiet fileInRoot (.chown 3 userNone 9 userRoot false) =
        some (.ok, chownEntry 3 userNone 9, fileInRoot.setOwner 3 userNone 9) ∧
      ((fileInRoot.setOwner 3 userNone 9).getFattr 3).map (fun fa => (fa.user, fa.group)) =
        some (7, 9) ∧
      ((playlog {} quiet fileInRoot (chownEntry 3 userNone 9)).bind fun tree =>
        tree.getFattr 3).map (fun fa => (fa.user, fa.group)) = some (9, 8) := by
  decide +kernel

end Tree

end QfsRepair.Meta
