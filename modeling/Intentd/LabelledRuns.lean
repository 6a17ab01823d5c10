
/-!
# Runs of a labelled step relation

A run is a chain of steps together with the labels it took. An invariant of the
steps holds after every run, and a step-by-step simulation turns a run of one
relation into a run of another with the same labels.
-/
namespace Intentd.LabelledRuns

variable {σ τ ℓ : Type}

/-- The states reached from `s` by the labels of a list, taken left to right. -/
inductive Run (step : σ → ℓ → σ → Prop) (s : σ) : List ℓ → σ → Prop
  | nil : Run step s [] s
  | snoc {labels : List ℓ} {t u : σ} {l : ℓ} :
      Run step s labels t → step t l u → Run step s (labels ++ [l]) u

variable {step : σ → ℓ → σ → Prop} {s t : σ} {labels : List ℓ}

theorem Run.invariant {I : σ → Prop} (h : Run step s labels t) (hin : I s)
    (hs : ∀ t l u, I t → step t l u → I u) : I t := by
  induction h with
  | nil => exact hin
  | snoc _ hl ih => exact hs _ _ _ ih hl

theorem Run.cons {l : ℓ} {u : σ} (hf : step s l t) (h : Run step t labels u) :
    Run step s (l :: labels) u := by
  induction h with
  | nil => exact .snoc .nil hf
  | snoc _ hl ih => exact .snoc ih hl

/-- A run that is evaluated. -/
theorem Run.of_foldlM {f : σ → ℓ → Option σ} (hf : ∀ s l t, f s l = some t → step s l t)
    (h : labels.foldlM f s = some t) : Run step s labels t := by
  induction labels generalizing s with
  | nil =>
    cases h
    exact .nil
  | cons l labels ih =>
    rw [List.foldlM_cons] at h
    obtain ⟨u, hu, h⟩ := Option.bind_eq_some_iff.mp h
    exact .cons (hf s l u hu) (ih h)

theorem Run.mono {step' : σ → ℓ → σ → Prop} (h : Run step s labels t)
    (himp : ∀ s l t, step s l t → step' s l t) : Run step' s labels t := by
  induction h with
  | nil => exact .nil
  | snoc _ hl ih => exact .snoc ih (himp _ _ _ hl)

/-- Every run is matched, label by label, by a run of a relation that simulates it. -/
theorem Run.simulation {abstract : τ → ℓ → τ → Prop} {R : σ → τ → Prop} {a : τ}
    (h : Run step s labels t) (hin : R s a)
    (hs : ∀ t l u b, R t b → step t l u → ∃ c, abstract b l c ∧ R u c) :
    ∃ b, Run abstract a labels b ∧ R t b := by
  induction h with
  | nil => exact ⟨a, .nil, hin⟩
  | snoc _ hl ih =>
    obtain ⟨b, hrun, hb⟩ := ih
    obtain ⟨c, hc, huc⟩ := hs _ _ _ b hb hl
    exact ⟨c, .snoc hrun hc, huc⟩

end Intentd.LabelledRuns
