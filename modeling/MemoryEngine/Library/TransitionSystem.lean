import Mathlib.Data.List.Induction
import Mathlib.Data.Option.Basic
import Mathlib.Tactic.Common

/-! Transition systems with a guarded step function.

`step state action` is `none` where the action is not enabled.  A side condition on steps
restricts the runs that are considered, a schedule is a list of actions. -/
namespace TransitionSystem

variable {S A : Type} (step : S → A → Option S)

inductive Reachable (allowed : S → A → Prop) (start : S → Prop) : S → Prop where
  | start {state : S} (h : start state) : Reachable allowed start state
  | next {state after : S} {action : A} (h : Reachable allowed start state)
      (hallow : allowed state action) (hstep : step state action = some after) :
      Reachable allowed start after

/-- The state after a schedule, if each step is enabled and meets the side condition. -/
def run (allowed : S → A → Prop) [∀ state action, Decidable (allowed state action)] :
    S → List A → Option S
  | state, [] => some state
  | state, action :: actions =>
      if allowed state action then
        (step state action).bind fun after => run allowed after actions
      else none

variable {step} {allowed weaker : S → A → Prop} {start : S → Prop} {state : S}

theorem Reachable.invariant {holds : S → Prop} (hstart : ∀ state, start state → holds state)
    (hkeep : ∀ state action after, holds state → allowed state action →
      step state action = some after → holds after)
    (h : Reachable step allowed start state) : holds state := by
  induction h with
  | start h => exact hstart _ h
  | next _ hallow hstep ih => exact hkeep _ _ _ ih hallow hstep

theorem Reachable.mono (hweaker : ∀ state action, allowed state action → weaker state action)
    (h : Reachable step allowed start state) : Reachable step weaker start state := by
  induction h with
  | start h => exact .start h
  | next _ hallow hstep ih => exact .next ih (hweaker _ _ hallow) hstep

theorem Reachable.run [∀ state action, Decidable (allowed state action)] {actions : List A}
    {after : S} (h : Reachable step allowed start state)
    (hrun : run step allowed state actions = some after) : Reachable step allowed start after := by
  induction actions generalizing state with
  | nil =>
    cases hrun
    exact h
  | cons action actions ih =>
    rw [TransitionSystem.run] at hrun
    split at hrun
    · rename_i hallow
      obtain ⟨middle, hstep, hrest⟩ := Option.bind_eq_some_iff.mp hrun
      exact ih (h.next hallow hstep) hrest
    · cases hrun

theorem Reachable.exists_of_schedule [∀ state action, Decidable (allowed state action)]
    {holds : S → Prop} [DecidablePred holds] (actions : List A) (h : start state)
    (hrun : (TransitionSystem.run step allowed state actions).any
      (fun after => holds after) = true) :
    ∃ after, Reachable step allowed start after ∧ holds after := by
  obtain ⟨after, hafter, hholds⟩ := (Option.any_eq_true _ _).mp hrun
  exact ⟨after, (Reachable.start h).run hafter, of_decide_eq_true hholds⟩

theorem Reachable.exists_of_schedules [∀ state action, Decidable (allowed state action)]
    {holds : S → S → Prop} [∀ origin after, Decidable (holds origin after)] (first second : List A)
    (h : start state)
    (hrun : (TransitionSystem.run step allowed state first).any (fun origin =>
        (TransitionSystem.run step allowed origin second).any fun after =>
          holds origin after) = true) :
    ∃ origin after, Reachable step allowed start origin ∧
      Reachable step allowed (· = origin) after ∧ holds origin after := by
  obtain ⟨origin, horigin, hrest⟩ := (Option.any_eq_true _ _).mp hrun
  obtain ⟨after, hafter, hholds⟩ := (Option.any_eq_true _ _).mp hrest
  have hself : Reachable step allowed (· = origin) origin := .start rfl
  exact ⟨origin, after, (Reachable.start h).run horigin, hself.run hafter, of_decide_eq_true hholds⟩

/-- What each action of a schedule keeps holds at its end; it may speak of the actions so
far. -/
theorem foldlM_invariant {holds : List A → S → Prop} {actions : List A} {after : S}
    (hplay : actions.foldlM step state = some after) (hstart : holds [] state)
    (hkeep : ∀ before action middle next, before.foldlM step state = some middle →
      holds before middle → action ∈ actions → step middle action = some next →
      holds (before ++ [action]) next) : holds actions after := by
  induction actions using List.reverseRecOn generalizing after with
  | nil =>
    cases hplay
    exact hstart
  | append_singleton actions action ih =>
    rw [List.foldlM_append] at hplay
    obtain ⟨middle, hmid, hstep⟩ := Option.bind_eq_some_iff.mp hplay
    refine hkeep actions action middle after hmid (ih hmid ?_) (by simp) (by simpa using hstep)
    intro before other first second hpre hholds hmem
    exact hkeep before other first second hpre hholds (List.mem_append_left _ hmem)

end TransitionSystem
