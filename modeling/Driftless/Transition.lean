import Mathlib.Data.List.Basic
import Mathlib.Logic.Basic

/-!
# Runs of a transition system with a history

A system takes a state and an input to a new state and a list of outputs, or refuses the input.
`Run` is a run of any length whose inputs all meet a guard; the guard sees the state before the
step and the history, all outputs so far, so that it can say both what an environment may deliver
and which runs are considered. `Run.invariant` is the induction rule of the development, and
`exec` runs a list of inputs, to exhibit a run.
-/

namespace Driftless

variable {σ ι ο : Type*}

/-- `Run step ok s h s' h'`: inputs that meet `ok` lead from `s` with history `h` to `s'` with
history `h'`. -/
inductive Run (step : σ → ι → Option (σ × List ο)) (ok : σ → List ο → ι → Prop) (s : σ)
    (h : List ο) : σ → List ο → Prop
  | refl : Run step ok s h s h
  | tail {s₁ s₂ : σ} {h₁ out : List ο} {i : ι} (run : Run step ok s h s₁ h₁) (hok : ok s₁ h₁ i)
      (hstep : step s₁ i = some (s₂, out)) : Run step ok s h s₂ (h₁ ++ out)

namespace Run

variable {step : σ → ι → Option (σ × List ο)} {ok ok' : σ → List ο → ι → Prop}
  {s s' s'' : σ} {h h' h'' : List ο}

theorem trans (r : Run step ok s h s' h') (r' : Run step ok s' h' s'' h'') :
    Run step ok s h s'' h'' := by
  induction r' with
  | refl => exact r
  | tail _ hok hstep ih => exact ih.tail hok hstep

theorem mono (r : Run step ok s h s' h') (hok : ∀ s h i, ok s h i → ok' s h i) :
    Run step ok' s h s' h' := by
  induction r with
  | refl => exact .refl
  | tail _ hi hstep ih => exact ih.tail (hok _ _ _ hi) hstep

/-- **The invariant rule**: what holds at the start and is kept by every step that meets the
guard holds at the end of every run. -/
theorem invariant {I : σ → List ο → Prop} (r : Run step ok s h s' h') (init : I s h)
    (next : ∀ s h i s' out, I s h → ok s h i → step s i = some (s', out) → I s' (h ++ out)) :
    I s' h' := by
  induction r with
  | refl => exact init
  | tail _ hok hstep ih => exact next _ _ _ _ _ ih hok hstep

/-- What one step relates, a run relates, where the relation is a preorder and an invariant is
at hand. -/
theorem relate {I : σ → List ο → Prop} {R : σ → σ → Prop} (r : Run step ok s h s' h')
    (init : I s h) (hrefl : ∀ s, R s s) (htrans : ∀ s₁ s₂ s₃, R s₁ s₂ → R s₂ s₃ → R s₁ s₃)
    (next : ∀ s h i s' out, I s h → ok s h i → step s i = some (s', out) →
      I s' (h ++ out) ∧ R s s') : I s' h' ∧ R s s' := by
  induction r with
  | refl => exact ⟨init, hrefl _⟩
  | tail _ hok hstep ih =>
    have hn := next _ _ _ _ _ ih.1 hok hstep
    exact ⟨hn.1, htrans _ _ _ ih.2 hn.2⟩

/-- The steps of a run meet every guard that follows from its own and an invariant. -/
theorem strengthen {I : σ → List ο → Prop} (r : Run step ok s h s' h') (init : I s h)
    (next : ∀ s h i s' out, I s h → ok s h i → step s i = some (s', out) →
      I s' (h ++ out) ∧ ok' s h i) : I s' h' ∧ Run step ok' s h s' h' := by
  induction r with
  | refl => exact ⟨init, .refl⟩
  | tail _ hok hstep ih =>
    obtain ⟨hI, hok'⟩ := next _ _ _ _ _ ih.1 hok hstep
    exact ⟨hI, ih.2.tail hok' hstep⟩

theorem history_prefix (r : Run step ok s h s' h') : h <+: h' := by
  induction r with
  | refl => exact List.prefix_rfl
  | tail _ _ _ ih => exact ih.trans (List.prefix_append _ _)

/-- An output of a run is an output of one of its steps. -/
theorem exists_step_of_mem (r : Run step ok s h s' h') {o : ο} (ho : o ∈ h') :
    o ∈ h ∨ ∃ s₁ h₁ i s₂ out, Run step ok s h s₁ h₁ ∧ ok s₁ h₁ i ∧ step s₁ i = some (s₂, out) ∧
      o ∈ out ∧ Run step ok s₂ (h₁ ++ out) s' h' := by
  induction r with
  | refl => exact .inl ho
  | tail run hok hstep ih =>
    rcases List.mem_append.1 ho with hold | hnew
    · -- the step comes before the last one
      refine (ih hold).imp_right ?_
      rintro ⟨s₁, h₁, i, s₂, out, r₁, hok₁, hstep₁, hmem, r₂⟩
      exact ⟨s₁, h₁, i, s₂, out, r₁, hok₁, hstep₁, hmem, r₂.tail hok hstep⟩
    · exact .inr ⟨_, _, _, _, _, run, hok, hstep, hnew, .refl⟩

end Run

/-- Run a list of inputs, stopping at one that is refused or does not meet the guard. -/
def exec (step : σ → ι → Option (σ × List ο)) (ok : σ → List ο → ι → Prop)
    [∀ s h i, Decidable (ok s h i)] (s : σ) (h : List ο) : List ι → Option (σ × List ο)
  | [] => some (s, h)
  | i :: is =>
    if ok s h i then
      match step s i with
      | some (s', out) => exec step ok s' (h ++ out) is
      | none => none
    else none

theorem run_of_exec {step : σ → ι → Option (σ × List ο)} {ok : σ → List ο → ι → Prop}
    [∀ s h i, Decidable (ok s h i)] {is : List ι} {s s' : σ} {h h' : List ο}
    (he : exec step ok s h is = some (s', h')) : Run step ok s h s' h' := by
  induction is generalizing s h with
  | nil =>
    obtain ⟨rfl, rfl⟩ : s = s' ∧ h = h' := by simpa [exec] using he
    exact .refl
  | cons i is ih =>
    unfold exec at he
    split at he
    next hok =>
      split at he
      next s₁ out hstep => exact (Run.refl.tail hok hstep).trans (ih he)
      next => cases he
    next => cases he

/-- A state and history that a list of inputs leads to, read off by a check. -/
theorem exists_run_of_exec (step : σ → ι → Option (σ × List ο)) (ok : σ → List ο → ι → Prop)
    [∀ s h i, Decidable (ok s h i)] (s : σ) (h : List ο) (is : List ι)
    (check : σ → List ο → Prop) [∀ s h, Decidable (check s h)]
    (he : ((exec step ok s h is).map fun x => decide (check x.1 x.2)) = some true) :
    ∃ s' h', Run step ok s h s' h' ∧ check s' h' := by
  obtain ⟨⟨s', h'⟩, hx, hc⟩ := Option.map_eq_some_iff.1 he
  exact ⟨s', h', run_of_exec hx, of_decide_eq_true hc⟩

/-- Two states one after the other. -/
theorem exists_runs_of_exec (step : σ → ι → Option (σ × List ο)) (ok : σ → List ο → ι → Prop)
    [∀ s h i, Decidable (ok s h i)] (s : σ) (h : List ο) (is js : List ι)
    (check : σ → σ → Prop) [∀ s s', Decidable (check s s')]
    (he : ((exec step ok s h is).bind fun x =>
      (exec step ok x.1 x.2 js).map fun y => decide (check x.1 y.1)) = some true) :
    ∃ s₁ h₁ s₂ h₂, Run step ok s h s₁ h₁ ∧ Run step ok s₁ h₁ s₂ h₂ ∧ check s₁ s₂ := by
  obtain ⟨⟨s₁, h₁⟩, hx, hy⟩ := Option.bind_eq_some_iff.1 he
  obtain ⟨⟨s₂, h₂⟩, hy, hc⟩ := Option.map_eq_some_iff.1 hy
  exact ⟨s₁, h₁, s₂, h₂, run_of_exec hx, run_of_exec hy, of_decide_eq_true hc⟩

end Driftless
