import Mathlib.Data.List.Basic

/-!
# Runs of a partial step function

A machine is a partial function `step : σ → α → Option σ`. Here are its runs over a list of inputs,
the rules that lift a fact about one step to a run, and the machine that is fed in pieces with
something done at each end of a piece.
-/

namespace PartialRun
set_option autoImplicit false

universe u v

variable {σ τ : Type u} {α : Type v} {step : σ → α → Option σ} {step' : τ → α → Option τ}

def run (step : σ → α → Option σ) (s : σ) (as : List α) : Option σ := as.foldlM step s

@[simp] theorem run_nil (s : σ) : run step s [] = some s := rfl

theorem run_cons (s : σ) (a : α) (as : List α) :
    run step s (a :: as) = (step s a).bind fun t => run step t as := rfl

theorem run_cons_of_step {s t : σ} {a : α} (h : step s a = some t) (as : List α) :
    run step s (a :: as) = run step t as := by
  rw [run_cons, h, Option.bind_some]

theorem run_cons_eq_some {s t : σ} {a : α} {as : List α} :
    run step s (a :: as) = some t ↔ ∃ u, step s a = some u ∧ run step u as = some t := by
  rw [run_cons, Option.bind_eq_some_iff]

theorem run_append (s : σ) (as bs : List α) :
    run step s (as ++ bs) = (run step s as).bind fun t => run step t bs := by
  simp only [run, List.foldlM_append]
  rfl

theorem run_append_eq_some {s t : σ} {as bs : List α} :
    run step s (as ++ bs) = some t ↔ ∃ u, run step s as = some u ∧ run step u bs = some t := by
  rw [run_append, Option.bind_eq_some_iff]

theorem run_append_of_run {s t : σ} {as : List α} (h : run step s as = some t) (bs : List α) :
    run step s (as ++ bs) = run step t bs := by
  rw [run_append, h, Option.bind_some]

theorem run_singleton (s : σ) (a : α) : run step s [a] = step s a := by
  rw [run_cons]
  cases step s a <;> rfl

theorem run_concat {s t u : σ} {as : List α} {a : α} (h : run step s as = some t) (hStep : step t a = some u) :
    run step s (as ++ [a]) = some u := by
  rw [run_append_of_run h, run_singleton, hStep]

theorem run_prefix {s t : σ} {as bs : List α} (h : run step s (as ++ bs) = some t) :
    ∃ u, run step s as = some u := by
  obtain ⟨u, hu, -⟩ := run_append_eq_some.mp h
  exact ⟨u, hu⟩

/-! ### Facts about every beginning of a run -/

section Beginnings

variable {I : σ → Prop} {s t : σ} {as : List α} {a : α}

theorem forall_prefix_nil (hs : I s) : ∀ bs cs p, [] = bs ++ cs → run step s bs = some p → I p := by
  intro bs cs p hNil hp
  obtain ⟨rfl, -⟩ := List.append_eq_nil_iff.mp hNil.symm
  obtain rfl := Option.some.inj hp
  exact hs

theorem forall_prefix_before (h : ∀ bs cs p, as = bs ++ cs → run step s bs = some p → I p) :
    ∀ bs cs p, as ++ [a] = bs ++ cs → cs ≠ [] → run step s bs = some p → I p := by
  intro bs cs p hSplit hSome hp
  obtain ⟨cs, c, rfl⟩ := (List.eq_nil_or_concat cs).resolve_left hSome
  rw [List.concat_eq_append, ← List.append_assoc] at hSplit
  exact h bs cs p (List.append_inj' hSplit rfl).1 hp

theorem forall_prefix_concat (h : ∀ bs cs p, as = bs ++ cs → run step s bs = some p → I p)
    (hRun : run step s (as ++ [a]) = some t) (ht : I t) :
    ∀ bs cs p, as ++ [a] = bs ++ cs → run step s bs = some p → I p := by
  intro bs cs p hSplit hp
  cases cs with
  | nil =>
    rw [List.append_nil] at hSplit
    rw [← hSplit, hRun] at hp
    obtain rfl := Option.some.inj hp
    exact ht
  | cons c cs => exact forall_prefix_before h bs (c :: cs) p hSplit (List.cons_ne_nil c cs) hp

end Beginnings

/-! ### Invariants -/

/-- The step function keeps `I`. -/
def Preserves (step : σ → α → Option σ) (I : σ → Prop) : Prop :=
  ∀ s a t, I s → step s a = some t → I t

theorem Preserves.run {I : σ → Prop} (h : Preserves step I) {s t : σ} {as : List α} (hs : I s)
    (hRun : PartialRun.run step s as = some t) : I t := by
  induction as generalizing s with
  | nil => exact Option.some.inj hRun ▸ hs
  | cons a as ih =>
    obtain ⟨u, hStep, hRest⟩ := run_cons_eq_some.mp hRun
    exact ih (h s a u hs hStep) hRest

/-- `G` holds of the state and the input before every step of the run. -/
def Along (step : σ → α → Option σ) (G : σ → α → Prop) : σ → List α → Prop
  | _, [] => True
  | s, a :: as => G s a ∧ ∀ t, step s a = some t → Along step G t as

theorem along_cons_of_step {G : σ → α → Prop} {s t : σ} {a : α} (h : step s a = some t) (as : List α) :
    Along step G s (a :: as) ↔ G s a ∧ Along step G t as := by
  apply and_congr_right'
  constructor
  · exact fun hAll => hAll t h
  · intro hRest u hu
    exact Option.some.inj (h.symm.trans hu) ▸ hRest

theorem along_cons_of_none {G : σ → α → Prop} {s : σ} {a : α} (h : step s a = none) (as : List α) :
    Along step G s (a :: as) ↔ G s a := by
  apply and_iff_left
  intro t ht
  rw [h] at ht
  cases ht

instance decidableAlong {G : σ → α → Prop} [h : ∀ s a, Decidable (G s a)] : ∀ s as, Decidable (Along step G s as)
  | _, [] => isTrue trivial
  | s, a :: as =>
    match hStep : step s a with
    | none => decidable_of_iff' _ (along_cons_of_none hStep as)
    | some t =>
      have : Decidable (Along step G t as) := decidableAlong (h := h) t as
      decidable_of_iff' _ (along_cons_of_step hStep as)

theorem Along.append {G : σ → α → Prop} {s t : σ} {as bs : List α} (h : Along step G s (as ++ bs))
    (hRun : PartialRun.run step s as = some t) : Along step G t bs := by
  induction as generalizing s with
  | nil => exact Option.some.inj hRun ▸ h
  | cons a as ih =>
    obtain ⟨u, hStep, hRest⟩ := run_cons_eq_some.mp hRun
    exact ih (h.2 u hStep) hRest

theorem Along.prefix {G : σ → α → Prop} {s : σ} {as bs : List α} (h : Along step G s (as ++ bs)) :
    Along step G s as := by
  induction as generalizing s with
  | nil => trivial
  | cons a as ih => exact ⟨h.1, fun t ht => ih (h.2 t ht)⟩

theorem Along.trans {G : σ → α → Prop} {s t : σ} {as bs : List α} (h : Along step G s as)
    (hRun : PartialRun.run step s as = some t) (h' : Along step G t bs) : Along step G s (as ++ bs) := by
  induction as generalizing s with
  | nil => exact Option.some.inj hRun ▸ h'
  | cons a as ih =>
    obtain ⟨u, hStep, hRest⟩ := run_cons_eq_some.mp hRun
    refine ⟨h.1, fun v hv => ?_⟩
    obtain rfl : u = v := Option.some.inj (hStep.symm.trans hv)
    exact ih (h.2 u hStep) hRest

theorem Along.mono {G G' : σ → α → Prop} (hG : ∀ s a, G s a → G' s a) {s : σ} {as : List α}
    (h : Along step G s as) : Along step G' s as := by
  induction as generalizing s with
  | nil => trivial
  | cons a as ih => exact ⟨hG s a h.1, fun t ht => ih (h.2 t ht)⟩

theorem along_of_run {s t : σ} {as : List α} (h : PartialRun.run step s as = some t) :
    Along step (fun s a => ∃ u, step s a = some u) s as := by
  induction as generalizing s with
  | nil => trivial
  | cons a as ih =>
    obtain ⟨u, hStep, hRest⟩ := run_cons_eq_some.mp h
    refine ⟨⟨u, hStep⟩, fun v hv => ?_⟩
    obtain rfl : u = v := Option.some.inj (hStep.symm.trans hv)
    exact ih hRest

theorem Along.and {G G' : σ → α → Prop} {s : σ} {as : List α} (h : Along step G s as) (h' : Along step G' s as) :
    Along step (fun s a => G s a ∧ G' s a) s as := by
  induction as generalizing s with
  | nil => trivial
  | cons a as ih => exact ⟨⟨h.1, h'.1⟩, fun t ht => ih (h.2 t ht) (h'.2 t ht)⟩

theorem Along.at {G : σ → α → Prop} {s t : σ} {as bs : List α} {a : α} (h : Along step G s (as ++ a :: bs))
    (hRun : PartialRun.run step s as = some t) : G t a := (h.append hRun).1

theorem along_of_prefixes {G : σ → α → Prop} {s : σ} {as : List α}
    (h : ∀ bs a cs t, as = bs ++ a :: cs → PartialRun.run step s bs = some t → G t a) : Along step G s as := by
  induction as generalizing s with
  | nil => trivial
  | cons a as ih =>
    refine ⟨h [] a as s rfl rfl, fun t ht => ih fun bs b cs u hSplit hRun => ?_⟩
    exact h (a :: bs) b cs u (by rw [hSplit]; rfl) ((run_cons_of_step ht bs).trans hRun)

/-- An invariant that a step keeps only where `G` holds. -/
theorem Along.run {G : σ → α → Prop} {I : σ → Prop} (hStep : ∀ s a t, I s → G s a → step s a = some t → I t)
    {s t : σ} {as : List α} (h : Along step G s as) (hs : I s)
    (hRun : PartialRun.run step s as = some t) : I t := by
  induction as generalizing s with
  | nil => exact Option.some.inj hRun ▸ hs
  | cons a as ih =>
    obtain ⟨u, hFirst, hRest⟩ := run_cons_eq_some.mp hRun
    exact ih (h.2 u hFirst) (hStep s a u hs h.1 hFirst) hRest

/-- `I` holds of every state that the run reaches. -/
def Always (step : σ → α → Option σ) (I : σ → Prop) (s : σ) (as : List α) : Prop :=
  ∀ bs cs t, as = bs ++ cs → PartialRun.run step s bs = some t → I t

theorem always_cons {I : σ → Prop} {s : σ} {a : α} {as : List α} :
    Always step I s (a :: as) ↔ I s ∧ ∀ t, step s a = some t → Always step I t as := by
  constructor
  · intro h
    refine ⟨h [] (a :: as) s rfl rfl, ?_⟩
    rintro t hStep bs cs u rfl hRun
    exact h (a :: bs) cs u rfl ((run_cons_of_step hStep bs).trans hRun)
  · rintro ⟨hs, hRest⟩ bs cs u hSplit hRun
    cases bs with
    | nil => exact Option.some.inj hRun ▸ hs
    | cons b bs =>
      obtain ⟨rfl, rfl⟩ := List.cons_eq_cons.mp hSplit
      obtain ⟨t, hStep, hTail⟩ := run_cons_eq_some.mp hRun
      exact hRest t hStep bs cs u rfl hTail

theorem Preserves.always {I J : σ → Prop} (h : Preserves step J) (hIJ : ∀ s, J s → I s) {s : σ} (hs : J s)
    (as : List α) :
    Always step I s as := fun _ _ _ _ hRun => hIJ _ (h.run hs hRun)

theorem along_of_forall_mem {G : σ → α → Prop} {as : List α} (h : ∀ a ∈ as, ∀ s, G s a) (s : σ) :
    Along step G s as := by
  induction as generalizing s with
  | nil => trivial
  | cons a as ih =>
    refine ⟨h a List.mem_cons_self s, fun t _ => ih (fun b hb => h b (List.mem_cons_of_mem _ hb)) t⟩

theorem along_of_forall {G : σ → α → Prop} (h : ∀ s a, G s a) (s : σ) (as : List α) : Along step G s as :=
  along_of_forall_mem (fun a _ s => h s a) s

/-- An invariant that a step keeps where `G` holds, in every state of a run along which it does. -/
theorem Along.always {G : σ → α → Prop} {I : σ → Prop} (hStep : ∀ s a t, I s → G s a → step s a = some t → I t)
    {s : σ} {as : List α} (h : Along step G s as) (hs : I s) : Always step I s as := by
  rintro bs cs t rfl hRun
  exact h.prefix.run hStep hs hRun

/-- What follows for a step from the states around it holds along a run. -/
theorem Always.along {I J : σ → Prop} {G : σ → α → Prop} (hJ : Preserves step J)
    (hStep : ∀ s a, J s → I s → (∀ t, step s a = some t → I t) → G s a) {s : σ} {as : List α} (h : Always step I s as)
    (hs : J s) : Along step G s as := by
  induction as generalizing s with
  | nil => trivial
  | cons a as ih =>
    obtain ⟨hI, hRest⟩ := always_cons.mp h
    refine ⟨hStep s a hs hI fun t ht => hRest t ht [] as t rfl rfl, ?_⟩
    intro t ht
    exact ih (hRest t ht) (hJ s a t hs ht)

/-- A property of the states that a step keeps exactly where `G` holds. -/
theorem always_iff_along {I J : σ → Prop} {G : σ → α → Prop} (hJ : Preserves step J)
    (hStep : ∀ s a t, J s → I s → step s a = some t → (I t ↔ G s a)) {s : σ} (hs : J s) (hI : I s) (as : List α) :
    Always step I s as ↔ Along step (fun s a => ∀ t, step s a = some t → G s a) s as := by
  constructor
  · intro h
    refine h.along hJ ?_ hs
    intro s a hs hI hNext t ht
    exact (hStep s a t hs hI ht).mp (hNext t ht)
  · intro h
    have hBoth : Always step (fun s => J s ∧ I s) s as := by
      refine h.always ?_ ⟨hs, hI⟩
      rintro s a t ⟨hs, hI⟩ hG ht
      exact ⟨hJ s a t hs ht, (hStep s a t hs hI ht).mpr (hG t ht)⟩
    intro bs cs t hSplit hRun
    exact (hBoth bs cs t hSplit hRun).2

/-! ### Partial correctness -/

/-- Before every input of the run `G` holds, and where the run comes to its end the state there has `Q`. -/
structure Leads (step : σ → α → Option σ) (G : σ → α → Prop) (s : σ) (as : List α) (Q : σ → Prop) : Prop where
  along : Along step G s as
  post : ∀ t, PartialRun.run step s as = some t → Q t

namespace Leads

variable {G : σ → α → Prop} {Q R : σ → Prop} {s t : σ} {as bs : List α} {a : α}

theorem nil (h : Q s) : Leads step G s [] Q where
  along := trivial
  post _ hRun := Option.some.inj hRun ▸ h

theorem cons (hG : G s a) (h : ∀ t, step s a = some t → Leads step G t as Q) : Leads step G s (a :: as) Q where
  along := ⟨hG, fun t ht => (h t ht).along⟩
  post t hRun := by
    obtain ⟨u, hStep, hRest⟩ := run_cons_eq_some.mp hRun
    exact (h u hStep).post t hRest

theorem single (hG : G s a) (h : ∀ t, step s a = some t → Q t) : Leads step G s [a] Q :=
  cons hG fun t ht => nil (h t ht)

theorem of_single (h : Leads step G s [a] Q) : G s a ∧ ∀ t, step s a = some t → Q t :=
  ⟨h.along.1, fun t ht => h.post t (by rwa [run_singleton])⟩

theorem append (h : Leads step G s as Q) (h' : ∀ t, Q t → Leads step G t bs R) : Leads step G s (as ++ bs) R := by
  induction as generalizing s with
  | nil => exact h' s (h.post s rfl)
  | cons a as ih =>
    obtain ⟨hG, hRest⟩ := h.along
    refine cons hG fun t ht => ih ⟨hRest t ht, fun u hRun => ?_⟩
    exact h.post u ((run_cons_of_step ht as).trans hRun)

theorem mono (h : Leads step G s as Q) (hQ : ∀ t, Q t → R t) : Leads step G s as R :=
  ⟨h.along, fun t hRun => hQ t (h.post t hRun)⟩

/-- A loop over the inputs, with an invariant that may look back at those it has passed. -/
theorem loop {I : List α → σ → Prop} {us : List α}
    (hStep : ∀ vs a ws s, as = vs ++ a :: ws → I (us ++ vs) s → G s a ∧ ∀ t, step s a = some t →
      I (us ++ vs ++ [a]) t)
    (h : I us s) : Leads step G s as (I (us ++ as)) := by
  induction as generalizing s us with
  | nil => exact nil (by rwa [List.append_nil])
  | cons a as ih =>
    obtain ⟨hG, hNext⟩ := hStep [] a as s rfl (by rwa [List.append_nil])
    rw [List.append_nil] at hNext
    refine cons hG fun t ht => ?_
    have hLater (vs : List α) (b : α) (ws : List α) (u : σ) (hSplit : as = vs ++ b :: ws)
        (hI : I (us ++ [a] ++ vs) u) :
        G u b ∧ ∀ t, step u b = some t → I (us ++ [a] ++ vs ++ [b]) t := by
      have hPast : us ++ [a] ++ vs = us ++ (a :: vs) := by rw [List.append_assoc, List.singleton_append]
      rw [hPast] at hI ⊢
      exact hStep (a :: vs) b ws u (by rw [hSplit]; rfl) hI
    have hRest := ih hLater (hNext t ht)
    rwa [List.append_assoc] at hRest

theorem scan {I : List α → σ → Prop}
    (hStep : ∀ vs a ws s, as = vs ++ a :: ws → I vs s → G s a ∧ ∀ t, step s a = some t → I (vs ++ [a]) t)
    (h : I [] s) : Leads step G s as (I as) :=
  loop hStep h

end Leads

/-- A step of the run is taken where `G` holds. -/
def Occurs (step : σ → α → Option σ) (G : σ → α → Prop) (s : σ) (as : List α) : Prop :=
  ∃ bs a cs t u, as = bs ++ a :: cs ∧ run step s bs = some t ∧ step t a = some u ∧ G t a

theorem not_occurs_both {G H : σ → α → Prop} {I J : σ → Prop} (hI : Preserves step I) (hJ : Preserves step J)
    (hEnters : ∀ s a t, J s → step s a = some t → G s a ∨ H s a → I t)
    (hAfter : ∀ s a, J s → I s → ¬ G s a ∧ ¬ H s a) (hNotBoth : ∀ s a, ¬ (G s a ∧ H s a)) {s : σ} (hs : J s)
    (as : List α) :
    ¬ (Occurs step G s as ∧ Occurs step H s as) := by
  have hLater {G' H' : σ → α → Prop} (hEnters' : ∀ s a t, J s → step s a = some t → G' s a → I t)
      (hAfter' : ∀ s a, J s → I s → ¬ H' s a) {bs cs : List α} {a b : α} {t u t' : σ}
      (hRun : PartialRun.run step s bs = some t) (hStep : step t a = some u) (hG : G' t a)
      (hRun' : PartialRun.run step s (bs ++ a :: cs) = some t') : ¬ H' t' b := by
    rw [run_append_of_run hRun, run_cons_of_step hStep] at hRun'
    have ht := hJ.run hs hRun
    have hu := hEnters' t a u ht hStep hG
    exact hAfter' t' b (hJ.run (hJ t a u ht hStep) hRun') (hI.run hu hRun')
  rintro ⟨⟨bs, a, cs, t, u, rfl, hRun, hStep, hG⟩, bs', a', cs', t', u', hSplit, hRun', hStep', hH⟩
  rcases List.append_eq_append_iff.mp hSplit with ⟨d, rfl, hTail⟩ | ⟨d, rfl, hTail⟩
  · cases d with
    | nil =>
      obtain ⟨rfl, -⟩ := List.cons_eq_cons.mp hTail
      rw [List.append_nil] at hRun'
      obtain rfl := Option.some.inj (hRun.symm.trans hRun')
      exact hNotBoth _ _ ⟨hG, hH⟩
    | cons x d =>
      obtain ⟨rfl, -⟩ := List.cons_eq_cons.mp hTail
      exact hLater (fun s a t hs hStep hG => hEnters s a t hs hStep (.inl hG)) (fun s a hs hi => (hAfter s a hs hi).2)
        hRun hStep hG hRun' hH
  · cases d with
    | nil =>
      obtain ⟨rfl, -⟩ := List.cons_eq_cons.mp hTail
      rw [List.append_nil] at hRun
      obtain rfl := Option.some.inj (hRun.symm.trans hRun')
      exact hNotBoth _ _ ⟨hG, hH⟩
    | cons x d =>
      obtain ⟨rfl, -⟩ := List.cons_eq_cons.mp hTail
      exact hLater (fun s a t hs hStep hH => hEnters s a t hs hStep (.inr hH)) (fun s a hs hi => (hAfter s a hs hi).1)
        hRun' hStep' hH hRun hG

/-! ### What a run puts out -/

variable {β : Type u}

def outputs (step : σ → α → Option σ) (out : σ → σ → List β) : σ → List α → List β
  | _, [] => []
  | s, a :: as =>
    match step s a with
    | none => []
    | some t => out s t ++ outputs step out t as

theorem outputs_cons_of_step {out : σ → σ → List β} {s t : σ} {a : α} (h : step s a = some t) (as : List α) :
    outputs step out s (a :: as) = out s t ++ outputs step out t as := by
  rw [outputs, h]

theorem outputs_cons_of_none {out : σ → σ → List β} {s : σ} {a : α} (h : step s a = none) (as : List α) :
    outputs step out s (a :: as) = [] := by
  rw [outputs, h]

/-- The list as far as the first `p`. -/
def upTo (p : β → Bool) : List β → List β
  | [] => []
  | x :: xs => if p x then [x] else x :: upTo p xs

theorem upTo_append_of_none {p : β → Bool} {xs : List β} (h : ∀ x ∈ xs, p x = false) (ys : List β) :
    upTo p (xs ++ ys) = xs ++ upTo p ys := by
  induction xs with
  | nil => rfl
  | cons x xs ih =>
    have hHere := h x List.mem_cons_self
    rw [List.cons_append, upTo, hHere, if_neg Bool.false_ne_true, ih fun y hy => h y (List.mem_cons_of_mem _ hy),
      List.cons_append]

theorem upTo_append_of_mem {p : β → Bool} {x : β} {xs : List β} (hMem : x ∈ xs) (hx : p x = true) (ys : List β) :
    upTo p (xs ++ ys) = upTo p xs := by
  induction xs with
  | nil => cases hMem
  | cons y xs ih =>
    rw [List.cons_append, upTo, upTo]
    split
    · rfl
    · rename_i hy
      rcases List.mem_cons.mp hMem with rfl | hMem
      · exact absurd hx hy
      · rw [ih hMem]

/-! ### Simulation -/

/-- Every step of the first machine is one of the second, and the states stay related. -/
def Simulates (step : σ → α → Option σ) (step' : τ → α → Option τ) (R : σ → τ → Prop) : Prop :=
  ∀ s t a s', R s t → step s a = some s' → ∃ t', step' t a = some t' ∧ R s' t'

theorem Simulates.run {R : σ → τ → Prop} (h : Simulates step step' R) {s s' : σ} {t : τ} {as : List α}
    (hR : R s t) (hRun : PartialRun.run step s as = some s') :
    ∃ t', PartialRun.run step' t as = some t' ∧ R s' t' := by
  induction as generalizing s t with
  | nil => exact ⟨t, rfl, Option.some.inj hRun ▸ hR⟩
  | cons a as ih =>
    obtain ⟨u, hStep, hRest⟩ := run_cons_eq_some.mp hRun
    obtain ⟨v, hStep', hR'⟩ := h s t a u hR hStep
    obtain ⟨t', hRun', hEnd⟩ := ih hR' hRest
    exact ⟨t', (run_cons_of_step hStep' as).trans hRun', hEnd⟩

/-- Where `G` holds, the first machine can follow the second. -/
def Follows (step : σ → α → Option σ) (step' : τ → α → Option τ) (R : σ → τ → Prop) (G : τ → α → Prop) :
    Prop :=
  ∀ s t a t', R s t → G t a → step' t a = some t' → ∃ s', step s a = some s' ∧ R s' t'

theorem Follows.run {R : σ → τ → Prop} {G : τ → α → Prop} (h : Follows step step' R G) {s : σ} {t t' : τ}
    {as : List α} (hR : R s t) (hG : Along step' G t as) (hRun : PartialRun.run step' t as = some t') :
    ∃ s', PartialRun.run step s as = some s' ∧ R s' t' := by
  induction as generalizing s t with
  | nil => exact ⟨s, rfl, Option.some.inj hRun ▸ hR⟩
  | cons a as ih =>
    obtain ⟨v, hStep', hRest⟩ := run_cons_eq_some.mp hRun
    obtain ⟨u, hStep, hR'⟩ := h s t a v hR hG.1 hStep'
    obtain ⟨s', hRun', hEnd⟩ := ih hR' (hG.2 v hStep') hRest
    exact ⟨s', (run_cons_of_step hStep as).trans hRun', hEnd⟩

/-! ### A machine fed in pieces -/

/-- The run over one piece after another, with `cut` after each. -/
def feed (step : σ → α → Option σ) (cut : σ → Option σ) (s : σ) (pieces : List (List α)) : Option σ :=
  pieces.foldlM (fun s piece => (run step s piece).bind cut) s

@[simp] theorem feed_nil (cut : σ → Option σ) (s : σ) : feed step cut s [] = some s := rfl

theorem feed_cons_eq_some {cut : σ → Option σ} {s t : σ} {piece : List α} {pieces : List (List α)} :
    feed step cut s (piece :: pieces) = some t ↔
      ∃ u v, run step s piece = some u ∧ cut u = some v ∧ feed step cut v pieces = some t := by
  simp only [feed, List.foldlM_cons, Option.bind_eq_bind, Option.bind_eq_some_iff]
  constructor
  · rintro ⟨v, ⟨u, hu, hv⟩, hRest⟩
    exact ⟨u, v, hu, hv, hRest⟩
  · rintro ⟨u, v, hu, hv, hRest⟩
    exact ⟨v, ⟨u, hu, hv⟩, hRest⟩

/-- A machine that does not see the cuts simulates one that is fed in pieces. -/
theorem Simulates.feed {R : σ → τ → Prop} {cut : σ → Option σ} (h : Simulates step step' R)
    (hCut : ∀ s s' t, R s t → cut s = some s' → R s' t) {s s' : σ} {t : τ} {pieces : List (List α)}
    (hR : R s t) (hFeed : PartialRun.feed step cut s pieces = some s') :
    ∃ t', PartialRun.run step' t pieces.flatten = some t' ∧ R s' t' := by
  induction pieces generalizing s t with
  | nil => exact ⟨t, rfl, Option.some.inj hFeed ▸ hR⟩
  | cons piece pieces ih =>
    obtain ⟨u, v, hPiece, hv, hRest⟩ := feed_cons_eq_some.mp hFeed
    obtain ⟨w, hRun, hR'⟩ := h.run hR hPiece
    obtain ⟨t', hRun', hEnd⟩ := ih (hCut u v w hR' hv) hRest
    exact ⟨t', (run_append_of_run hRun pieces.flatten).trans hRun', hEnd⟩

/-- Where `G` holds, every division is fed to its end. -/
theorem Follows.feed {R : σ → τ → Prop} {G : τ → α → Prop} {cut : σ → Option σ}
    (h : Follows step step' R G) (hCut : ∀ s t, R s t → ∃ s', cut s = some s' ∧ R s' t) {s : σ} {t t' : τ}
    {pieces : List (List α)} (hR : R s t) (hG : Along step' G t pieces.flatten)
    (hRun : PartialRun.run step' t pieces.flatten = some t') :
    ∃ s', PartialRun.feed step cut s pieces = some s' ∧ R s' t' := by
  induction pieces generalizing s t with
  | nil => exact ⟨s, rfl, Option.some.inj hRun ▸ hR⟩
  | cons piece pieces ih =>
    rw [List.flatten_cons] at hG hRun
    obtain ⟨w, hPiece, hRest⟩ := run_append_eq_some.mp hRun
    obtain ⟨u, hu, hR'⟩ := h.run hR hG.prefix hPiece
    obtain ⟨v, hv, hRv⟩ := hCut u w hR'
    obtain ⟨s', hFeed, hEnd⟩ := ih hRv (hG.append hPiece) hRest
    exact ⟨s', feed_cons_eq_some.mpr ⟨u, v, hu, hv, hFeed⟩, hEnd⟩

end PartialRun
