import HttpUtils.Library.PartialRun
import Mathlib.Order.WellFounded

/-!
# What every run comes to

`Inevitable step G Q s`: from `s` on, whichever inputs of `G` are taken, the run cannot stop before a state with
`Q`, and cannot go on forever without one.
-/

namespace PartialRun
set_option autoImplicit false

universe u v

variable {σ : Type u} {α : Type v} {step : σ → α → Option σ} {G : α → Prop} {Q : σ → Prop}

inductive Inevitable (step : σ → α → Option σ) (G : α → Prop) (Q : σ → Prop) : σ → Prop where
  | now {s : σ} (h : Q s) : Inevitable step G Q s
  | later {s : σ} (hSome : ∃ a t, G a ∧ step s a = some t)
      (hAll : ∀ a t, G a → step s a = some t → Inevitable step G Q t) : Inevitable step G Q s

/-- Each step decreases a measure, and there is one as long as `Q` does not hold. -/
theorem inevitable_of_wellFounded {R : σ → σ → Prop} (hWf : WellFounded R) {I : σ → Prop}
    (hStep : ∀ s a t, I s → G a → step s a = some t → I t ∧ R t s)
    (hGoes : ∀ s, I s → Q s ∨ ∃ a t, G a ∧ step s a = some t) {s : σ} (hs : I s) : Inevitable step G Q s := by
  induction s using hWf.induction with
  | h s ih =>
    rcases hGoes s hs with hQ | hSome
    · exact .now hQ
    · refine .later hSome fun a t hG ht => ?_
      obtain ⟨hNext, hLess⟩ := hStep s a t hs hG ht
      exact ih t hLess hNext

end PartialRun
