import Mathlib.Data.List.Induction

/-!
# Runs of a function that may fail

The states a run reaches are the results of its first steps. A property of states
that each step keeps exactly when the step is safe holds in every state of a run
exactly when every step of the run is safe.
-/
namespace Intentd.FoldedRuns

variable {σ ι : Type} {step : σ → ι → Option σ} {I P : σ → Prop} {Safe : σ → ι → Prop} {s : σ}

theorem foldlM_snoc (before : List ι) (i : ι) :
    (before ++ [i]).foldlM step s = (before.foldlM step s).bind fun t => step t i := by
  rw [List.foldlM_append]
  congr 1
  funext t
  simp

/-- An invariant of the steps holds after every run, and no run fails. -/
theorem run_invariant (hst : ∀ s i, I s → ∃ t, step s i = some t ∧ I t) (hs : I s)
    (inputs : List ι) : ∃ t, inputs.foldlM step s = some t ∧ I t := by
  induction inputs generalizing s with
  | nil => exact ⟨s, rfl, hs⟩
  | cons i inputs ih =>
    obtain ⟨t, ht, hI⟩ := hst s i hs
    obtain ⟨u, hu, hIu⟩ := ih hI
    exact ⟨u, by simpa [ht] using hu, hIu⟩

/-- The same when the invariant tells the steps that were made. -/
theorem run_history {J : List ι → σ → Prop}
    (hst : ∀ before s i, J before s → ∃ t, step s i = some t ∧ J (before ++ [i]) t) (hs : J [] s)
    (inputs : List ι) : ∃ t, inputs.foldlM step s = some t ∧ J inputs t := by
  induction inputs using List.reverseRecOn with
  | nil => exact ⟨s, rfl, hs⟩
  | append_singleton before i ih =>
    obtain ⟨t, ht, hJ⟩ := ih
    obtain ⟨u, hu, hJu⟩ := hst before t i hJ
    exact ⟨u, by rw [foldlM_snoc, ht, Option.bind_some, hu], hJu⟩

theorem states_iff_steps (hst : ∀ s i, I s → ∃ t, step s i = some t ∧ I t ∧
    (P s → (P t ↔ Safe s i))) (hI : I s) (hP : P s) (inputs : List ι) :
    (∀ before after, inputs = before ++ after → ∃ t, before.foldlM step s = some t ∧ P t) ↔
      ∀ before i after, inputs = before ++ i :: after →
        ∀ t, before.foldlM step s = some t → Safe t i := by
  have hr : ∀ before : List ι, ∃ t, before.foldlM step s = some t ∧ I t :=
    run_invariant (fun s i hs => (hst s i hs).imp fun t ht => ⟨ht.1, ht.2.1⟩) hI
  constructor
  · intro h before i after hin t ht
    obtain ⟨t', ht', hIt⟩ := hr before
    obtain ⟨t'', ht'', hPt⟩ := h before (i :: after) hin
    rw [ht] at ht' ht''
    cases ht'
    cases ht''
    obtain ⟨u, hu, -, hiff⟩ := hst t i hIt
    obtain ⟨u', hu', hPu⟩ := h (before ++ [i]) after (by simp [hin])
    rw [foldlM_snoc, ht, Option.bind_some, hu] at hu'
    cases hu'
    exact (hiff hPt).mp hPu
  · intro h before after hin
    induction before using List.reverseRecOn generalizing after with
    | nil => exact ⟨s, rfl, hP⟩
    | append_singleton before i ih =>
      have hsp : inputs = before ++ i :: after := by simp [hin]
      obtain ⟨t, ht, hPt⟩ := ih (i :: after) hsp
      obtain ⟨t', ht', hIt⟩ := hr before
      rw [ht] at ht'
      cases ht'
      obtain ⟨u, hu, -, hiff⟩ := hst t i hIt
      refine ⟨u, ?_, (hiff hPt).mpr (h before i after hsp t ht)⟩
      rw [foldlM_snoc, ht, Option.bind_some, hu]

/-- Every step of a run that cannot fail meets a condition on the state it starts in. -/
def Along (next : σ → ι → σ) (C : σ → ι → Prop) : σ → List ι → Prop
  | _, [] => True
  | s, i :: inputs => C s i ∧ Along next C (next s i) inputs

instance decidableAlong (next : σ → ι → σ) (C : σ → ι → Prop) [hdec : ∀ s i, Decidable (C s i)] :
    ∀ s inputs, Decidable (Along next C s inputs)
  | _, [] => .isTrue trivial
  | s, i :: inputs => @instDecidableAnd _ _ (hdec s i) (decidableAlong next C (next s i) inputs)

theorem Along.invariant {next : σ → ι → σ} {C : σ → ι → Prop} {inputs : List ι}
    (hst : ∀ s i, I s → C s i → I (next s i)) (hs : I s) (h : Along next C s inputs) :
    I (inputs.foldl next s) := by
  induction inputs generalizing s with
  | nil => exact hs
  | cons i inputs ih => exact ih (hst s i hs h.1) h.2

end Intentd.FoldedRuns
