import HttpUtils.Library.PartialRun
import Mathlib.Logic.Hydra

/-!
# Systems of components

A system takes its steps in one component at a time. What a component takes by itself is a run of its own, and
the system comes to its end if each component does.
-/

namespace PartialRun
set_option autoImplicit false

universe u v

variable {σ : Type u} {α : Type v} {step : σ → α → Option σ} {G : α → Prop}

/-- Some run from `s` with inputs of `G` ends in `t`. -/
def Reaches (step : σ → α → Option σ) (G : α → Prop) (s t : σ) : Prop :=
  ∃ as, (∀ a ∈ as, G a) ∧ run step s as = some t

theorem Reaches.refl (s : σ) : Reaches step G s s := ⟨[], by simp, rfl⟩

theorem Reaches.next {s t u : σ} {a : α} (h : Reaches step G s t) (ha : G a) (hStep : step t a = some u) :
    Reaches step G s u := by
  obtain ⟨as, hAs, hRun⟩ := h
  refine ⟨as ++ [a], ?_, ?_⟩
  · intro b hb
    rcases List.mem_append.mp hb with hb | hb
    · exact hAs b hb
    · exact List.mem_singleton.mp hb ▸ ha
  · exact run_concat hRun hStep

def OneGoes (R : σ → σ → Prop) (l' l : List σ) : Prop := ∃ i s s', l[i]? = some s ∧ R s' s ∧ l' = l.set i s'

theorem OneGoes.cutExpand {R : σ → σ → Prop} {l' l : List σ} (h : OneGoes R l' l) :
    Relation.CutExpand R (l' : Multiset σ) (l : Multiset σ) := by
  obtain ⟨i, s, s', hGet, hLess, rfl⟩ := h
  obtain ⟨hLt, rfl⟩ := List.getElem?_eq_some_iff.mp hGet
  have hOne (x : σ) : ((l.take i ++ x :: l.drop (i + 1) : List σ) : Multiset σ) =
      {x} + ((l.take i ++ l.drop (i + 1) : List σ) : Multiset σ) := by
    rw [Multiset.singleton_add, Multiset.cons_coe]
    exact Multiset.coe_eq_coe.mpr List.perm_middle
  have hBefore : l = l.take i ++ l[i] :: l.drop (i + 1) := by
    rw [← List.drop_eq_getElem_cons hLt, List.take_append_drop]
  have hAfter : l.set i s' = l.take i ++ s' :: l.drop (i + 1) := by
    rw [List.set_eq_take_append_cons_drop, if_pos hLt]
  have hGoes := Relation.cutExpand_single_add hLess ((l.take i ++ l.drop (i + 1) : List σ) : Multiset σ)
  rwa [← hOne, ← hOne, ← hBefore, ← hAfter] at hGoes

theorem wellFounded_oneGoes {R : σ → σ → Prop} (h : WellFounded R) : WellFounded (OneGoes R) :=
  Subrelation.wf OneGoes.cutExpand (InvImage.wf (fun l : List σ => (l : Multiset σ)) h.cutExpand)

end PartialRun
