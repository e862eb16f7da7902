import Mathlib.Data.Option.Basic
import Mathlib.Data.List.Basic

/-!
# Runs of a transition system

A system moves from state to state by actions, each of which may be disabled in
a state. `Run next ok start` are the states it reaches from `start` by actions
that satisfy a condition `ok` on the state they are taken in; with the trivial
condition these are all reachable states. An invariant is proved of all of them
at once (`Run.invariant`), and one run is computed from its list of actions
(`Run.of_steps`).
-/

set_option autoImplicit false

namespace Rro.Library

section Transitions

variable {σ α : Type} {next : σ → α → Option σ} {ok : σ → α → Prop} {start : σ}

/-- The states reached by actions that meet the condition where they are taken. -/
inductive Run (next : σ → α → Option σ) (ok : σ → α → Prop) (start : σ) : σ → Prop where
  | start : Run next ok start start
  | step {s t : σ} (a : α) : Run next ok start s → ok s a → next s a = some t →
      Run next ok start t

/-- The condition that allows every action. -/
def anyAction : σ → α → Prop := fun _ _ => True

/-- What holds at the start and is kept by every allowed action holds of every run. -/
theorem Run.invariant {P : σ → Prop} {s : σ} (h : Run next ok start s) (h0 : P start)
    (hstep : ∀ s t a, P s → ok s a → next s a = some t → P t) : P s := by
  induction h with
  | start => exact h0
  | step a _ hok hnext ih => exact hstep _ _ a ih hok hnext

/-- A run may be continued. -/
theorem Run.trans {s t : σ} (h : Run next ok start s) (h' : Run next ok s t) :
    Run next ok start t := by
  induction h' with
  | start => exact h
  | step a _ hok hnext ih => exact .step a ih hok hnext

/-- The state a list of actions leads to, if none is disabled or fails the check. -/
def steps (next : σ → α → Option σ) (check : σ → α → Bool) : σ → List α → Option σ
  | s, [] => some s
  | s, a :: as => if check s a then (next s a).bind fun t => steps next check t as else none

/-- A run computed under a check that implies the condition is a run. -/
theorem Run.of_steps {check : σ → α → Bool} (hcheck : ∀ s a, check s a = true → ok s a) {s t : σ}
    (h : Run next ok start s) {as : List α} (hrun : steps next check s as = some t) :
    Run next ok start t := by
  induction as generalizing s with
  | nil =>
    obtain rfl : s = t := by simpa [steps] using hrun
    exact h
  | cons a as ih =>
    unfold steps at hrun
    split at hrun
    · rename_i hok
      obtain ⟨u, hu, hrest⟩ := Option.bind_eq_some_iff.mp hrun
      exact ih (Run.step a h (hcheck s a hok) hu) hrest
    · simp at hrun

/-- A computed run shows that a state with a given property is reached. -/
theorem exists_run_of_steps (check : σ → α → Bool) (hcheck : ∀ s a, check s a = true → ok s a)
    (as : List α) (p : σ → Bool) (h : (steps next check start as).any p = true) :
    ∃ s, Run next ok start s ∧ p s = true := by
  cases hs : steps next check start as with
  | none => simp [hs] at h
  | some s => exact ⟨s, Run.of_steps hcheck Run.start hs, by simpa [hs] using h⟩

/-- A computed run all of whose actions meet the condition. -/
theorem exists_run_of_actions {as : List α} (hok : ∀ a ∈ as, ∀ s, ok s a) (p : σ → Bool)
    (h : (steps next (fun _ _ => true) start as).any p = true) :
    ∃ s, Run next ok start s ∧ p s = true := by
  have hrun : ∀ {s t : σ} {as : List α}, (∀ a ∈ as, ∀ s, ok s a) → Run next ok start s →
      steps next (fun _ _ => true) s as = some t → Run next ok start t := by
    intro s t as hok hs ht
    induction as generalizing s with
    | nil =>
      obtain rfl : s = t := by simpa [steps] using ht
      exact hs
    | cons a as ih =>
      unfold steps at ht
      obtain ⟨u, hu, hrest⟩ := Option.bind_eq_some_iff.mp ht
      exact ih (fun b hb => hok b (List.mem_cons_of_mem a hb))
        (Run.step a hs (hok a List.mem_cons_self s) hu) hrest
  cases hs : steps next (fun _ _ => true) start as with
  | none => simp [hs] at h
  | some s => exact ⟨s, hrun hok Run.start hs, by simpa [hs] using h⟩

/-- Without a condition every action passes. -/
def noCheck : σ → α → Bool := fun _ _ => true

/-- Without a check every action is allowed. -/
theorem anyAction_of_noCheck (s : σ) (a : α) (_ : noCheck s a = true) : anyAction s a := trivial

end Transitions

end Rro.Library
