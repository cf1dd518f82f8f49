import Mathlib.Data.Option.Basic
import Mathlib.Order.WellFounded

/-!
# Runs of a transition system

A step is a function of a state and an action that fails when the action cannot
be taken. A run is a list of actions, each of which can be taken.

* `run_invariant`: what every step keeps, every run keeps, also when only steps
  that meet a condition keep it and every step of the run meets it;
* `meets_congr`: conditions that agree step by step agree on runs;
* `meets_iff`: the same, where a step keeps the invariant if it meets the first;
* `meets_splits`: when every action can be taken, a run is met at every split;
* `run_simulated`: a system whose steps are runs of another is simulated by it;
* `run_reaches`: an action that can always be taken and comes closer to a goal
  reaches it.
-/

namespace Transition

variable {σ α : Type}

def run (step : σ → α → Option σ) (s : σ) : List α → Option σ
  | [] => some s
  | a :: as => (step s a).bind fun s' => run step s' as

/-- Every step of the run is taken in a state and with an action that `C` allows. -/
def Meets (step : σ → α → Option σ) (C : σ → α → Prop) : σ → List α → Prop
  | _, [] => True
  | s, a :: as => C s a ∧ ∀ s' ∈ step s a, Meets step C s' as

instance Meets.decidable {step : σ → α → Option σ} {C : σ → α → Prop}
    [∀ s a, Decidable (C s a)] : ∀ s as, Decidable (Meets step C s as)
  | _, [] => inferInstanceAs (Decidable True)
  | s, a :: as =>
    have := fun s' => @Meets.decidable step C _ s' as
    inferInstanceAs (Decidable (C s a ∧ ∀ s' ∈ step s a, Meets step C s' as))

variable {step : σ → α → Option σ}

theorem run_cons {s s' : σ} {a : α} {as : List α} :
    run step s (a :: as) = some s' ↔ ∃ t, step s a = some t ∧ run step t as = some s' :=
  Option.bind_eq_some_iff

theorem run_append {s s' : σ} {as bs : List α} :
    run step s (as ++ bs) = some s' ↔ ∃ t, run step s as = some t ∧ run step t bs = some s' := by
  induction as generalizing s with
  | nil => simp [run]
  | cons a as ih => simp only [List.cons_append, run_cons, ih]; grind

theorem run_meets {C : σ → α → Prop} {I : σ → Prop}
    (keep : ∀ s a s', I s → C s a → step s a = some s' → I s') {s s' : σ} {as : List α}
    (hs : I s) (hC : Meets step C s as) (h : run step s as = some s') : I s' := by
  induction as generalizing s with
  | nil =>
    cases h
    exact hs
  | cons a as ih =>
    obtain ⟨t, ht, hrun⟩ := run_cons.mp h
    exact ih (keep s a t hs hC.1 ht) (hC.2 t ht) hrun

theorem meets_true (s : σ) (as : List α) : Meets step (fun _ _ => True) s as := by
  induction as generalizing s with
  | nil => trivial
  | cons a as ih => exact ⟨trivial, fun s' _ => ih s'⟩

theorem run_invariant {I : σ → Prop} (keep : ∀ s a s', I s → step s a = some s' → I s')
    {s s' : σ} {as : List α} (hs : I s) (h : run step s as = some s') : I s' :=
  run_meets (fun s a s' hI _ => keep s a s' hI) hs (meets_true s as) h

/-- Two conditions that agree on the steps of a run are met together. -/
theorem meets_congr {C D : σ → α → Prop} {I : σ → Prop}
    (keep : ∀ s a s', I s → step s a = some s' → I s')
    (agree : ∀ s a s', I s → step s a = some s' → (C s a ↔ D s a))
    {s s' : σ} {as : List α} (hs : I s) (h : run step s as = some s') :
    Meets step C s as ↔ Meets step D s as := by
  induction as generalizing s with
  | nil => exact Iff.rfl
  | cons a as ih =>
    obtain ⟨t, ht, hrun⟩ := run_cons.mp h
    have hrest := ih (keep s a t hs ht) hrun
    simp only [Meets, ht, Option.mem_def, Option.some.injEq, forall_eq', agree s a t hs ht, hrest]

/-- Conditions that agree as long as one of them has been met agree on runs. -/
theorem meets_iff {C D : σ → α → Prop} {I : σ → Prop}
    (keep : ∀ s a s', I s → C s a → step s a = some s' → I s')
    (agree : ∀ s a, I s → (C s a ↔ D s a)) {s : σ} (hs : I s) (as : List α) :
    Meets step C s as ↔ Meets step D s as := by
  induction as generalizing s with
  | nil => exact Iff.rfl
  | cons a as ih =>
    constructor
    · rintro ⟨hC, hrest⟩
      exact ⟨(agree s a hs).mp hC, fun t ht => (ih (keep s a t hs hC ht)).mp (hrest t ht)⟩
    · rintro ⟨hD, hrest⟩
      have hC := (agree s a hs).mpr hD
      exact ⟨hC, fun t ht => (ih (keep s a t hs hC ht)).mpr (hrest t ht)⟩

theorem meets_splits {f : σ → α → σ} {C : σ → α → Prop} (s : σ) (as : List α) :
    Meets (fun s a => some (f s a)) C s as ↔
      ∀ before a after, as = before ++ a :: after → C (before.foldl f s) a := by
  induction as generalizing s with
  | nil => simp [Meets]
  | cons a as ih =>
    simp only [Meets, Option.mem_def, Option.some.injEq, forall_eq', ih]
    constructor
    · rintro ⟨hC, hrest⟩ before x after heq
      cases before with
      | nil =>
        cases heq
        exact hC
      | cons b before =>
        cases heq
        exact hrest before x after rfl
    · intro h
      exact ⟨h [] a as rfl, fun before x after heq => h (a :: before) x after (heq ▸ rfl)⟩

/-- When every step of a system is a run of another, so is every run. -/
theorem run_simulated {τ β : Type} {step' : τ → β → Option τ} {R : σ → τ → Prop}
    (simulate : ∀ s a s' t, R s t → step s a = some s' →
      ∃ bs t', run step' t bs = some t' ∧ R s' t')
    {s s' : σ} {as : List α} {t : τ} (hR : R s t) (h : run step s as = some s') :
    ∃ bs t', run step' t bs = some t' ∧ R s' t' := by
  induction as generalizing s t with
  | nil =>
    cases h
    exact ⟨[], t, rfl, hR⟩
  | cons a as ih =>
    obtain ⟨s₁, hstep, hrun⟩ := run_cons.mp h
    obtain ⟨bs, t₁, hbs, hR₁⟩ := simulate s a s₁ t hR hstep
    obtain ⟨cs, t', hcs, hR'⟩ := ih hR₁ hrun
    exact ⟨bs ++ cs, t', run_append.mpr ⟨t₁, hbs, hcs⟩, hR'⟩

/-- Until the goal is reached the action can be taken, and lowers the rank. -/
theorem run_reaches {β : Type} [Preorder β] [WellFoundedLT β] {I goal : σ → Prop} {rank : σ → β}
    {a : α} (advance : ∀ s, I s → ¬ goal s → ∃ s', step s a = some s' ∧ I s' ∧ rank s' < rank s)
    {s : σ} (hs : I s) :
    ∃ n s', run step s (List.replicate n a) = some s' ∧ I s' ∧ goal s' := by
  induction hr : rank s using WellFoundedLT.induction generalizing s with
  | ind r ih =>
    subst hr
    by_cases hgoal : goal s
    · exact ⟨0, s, rfl, hs, hgoal⟩
    · obtain ⟨t, hstep, ht, hlt⟩ := advance s hs hgoal
      obtain ⟨n, s', hrun, hs', hgoal'⟩ := ih (rank t) hlt ht rfl
      exact ⟨n + 1, s', run_cons.mpr ⟨t, hstep, hrun⟩, hs', hgoal'⟩

end Transition
