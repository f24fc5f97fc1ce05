import Mathlib.Data.List.Basic

/-!
# Runs that follow a specification while a guard holds

A machine and a specification take the same calls.  If a guard on the state
before a call is what keeps the two together, and a call outside the guard
drives them apart, then the machine behaves as the specification in every state
of a run exactly when all calls of the run meet the guard.
-/

namespace QfsRepair.Machine

variable {State Spec Call : Type*} {calls : List Call} {state : State}

/-- What is said of every call and the calls before it, call by call. -/
theorem forall_prefix_cons_iff {Said : List Call → Call → Prop} {first : Call} :
    (∀ front call, front ++ [call] <+: first :: calls → Said front call) ↔
      Said [] first ∧ ∀ front call, front ++ [call] <+: calls → Said (first :: front) call := by
  constructor
  · intro hsaid
    exact ⟨hsaid [] first (by simp), fun front call hfront =>
      hsaid (first :: front) call (List.cons_prefix_cons.mpr ⟨rfl, hfront⟩)⟩
  · rintro ⟨hfirst, hrest⟩ front call hfront
    cases front with
    | nil =>
      obtain rfl : call = first := (List.cons_prefix_cons.mp hfront).1
      exact hfirst
    | cons head front =>
      obtain ⟨rfl, htail⟩ := List.cons_prefix_cons.mp hfront
      exact hrest front call htail

/-- What every guarded call preserves holds in every state of a run of guarded
calls.  `Related` holds of a state, its specification and the calls still to
come. -/
theorem related_of_guard {step : State → Call → State} {specStep : Spec → Call → Spec}
    {Guard : State → Spec → Call → Prop} {Related : State → Spec → List Call → Prop}
    (hkeeps : ∀ state spec call calls, Related state spec (call :: calls) →
      Guard state spec call → Related (step state call) (specStep spec call) calls) {spec : Spec}
    (hrelated : Related state spec calls)
    (hguard : ∀ front call, front ++ [call] <+: calls →
      Guard (front.foldl step state) (front.foldl specStep spec) call) {front : List Call}
    (hfront : front <+: calls) :
    ∃ rest, Related (front.foldl step state) (front.foldl specStep spec) rest := by
  induction front generalizing state spec calls with
  | nil => exact ⟨calls, hrelated⟩
  | cons first front ih =>
    obtain ⟨rest, rfl⟩ := hfront
    obtain ⟨hfirst, hguard⟩ := forall_prefix_cons_iff.mp hguard
    exact ih (hkeeps state spec first (front ++ rest) hrelated hfirst) hguard
      (List.prefix_append front rest)

/-- `Related` holds of a state, its specification and the calls still to
come. -/
structure Guarded (step : State → Call → State) (specStep : Spec → Call → Spec)
    (Behaves : State → Spec → Prop) (Guard : State → Call → Prop)
    (Related : State → Spec → List Call → Prop) : Prop where
  behaves : ∀ state spec calls, Related state spec calls → Behaves state spec
  keeps : ∀ state spec call calls, Related state spec (call :: calls) → Guard state call →
    Related (step state call) (specStep spec call) calls
  needed : ∀ state spec call calls, Related state spec (call :: calls) →
    Behaves (step state call) (specStep spec call) → Guard state call

namespace Guarded

variable {step : State → Call → State} {specStep : Spec → Call → Spec}
variable {Behaves : State → Spec → Prop} {Guard : State → Call → Prop}
variable {Related : State → Spec → List Call → Prop}

theorem behaves_iff (hguarded : Guarded step specStep Behaves Guard Related) {spec : Spec}
    (hrelated : Related state spec calls) :
    (∀ front, front <+: calls → Behaves (front.foldl step state) (front.foldl specStep spec)) ↔
      ∀ front call, front ++ [call] <+: calls → Guard (front.foldl step state) call := by
  constructor
  · intro hbehaves
    induction calls generalizing state spec with
    | nil =>
      intro front call hfront
      simp at hfront
    | cons first rest ih =>
      have hfirst : Guard state first :=
        hguarded.needed _ _ _ _ hrelated (hbehaves [first] (by simp))
      have hrest := ih (hguarded.keeps _ _ _ _ hrelated hfirst) fun front hfront =>
        hbehaves (first :: front) (List.cons_prefix_cons.mpr ⟨rfl, hfront⟩)
      exact forall_prefix_cons_iff.mpr ⟨hfirst, hrest⟩
  · intro hguard front hfront
    obtain ⟨rest, hreached⟩ := related_of_guard
      (fun state spec call calls => hguarded.keeps state spec call calls) hrelated hguard hfront
    exact hguarded.behaves _ _ _ hreached

end Guarded

end QfsRepair.Machine
