import Mathlib.Data.List.Basic

/-!
# Runs of keyed events

Every event has a key, and a step changes only what is observed under its key.
Then the events of one key, in their order, decide what a run leaves under it,
whatever the events of the other keys are and however they come in between.

* `Keyed.observe_run`: the observation is a fold over the events of the key;
* `Keyed.runs_agree`: runs that are the same key by key are observed the same.
-/

variable {σ ε κ δ β : Type}

/-- What one step does: under the event's own key an update from the event's
data, under every other key nothing. `I` is kept by every step. -/
structure Keyed (step : σ → ε → σ) (I : σ → Prop) (key : ε → κ) (data : ε → δ)
    (observe : σ → κ → β) (update : κ → δ → β → β) : Prop where
  keep : ∀ s e, I s → I (step s e)
  own : ∀ s e, I s → observe (step s e) (key e) = update (key e) (data e) (observe s (key e))
  frame : ∀ s e k, I s → key e ≠ k → observe (step s e) k = observe s k

namespace Keyed

variable [DecidableEq κ]

/-- The data of the events of one key, in order. -/
def project (key : ε → κ) (data : ε → δ) (k : κ) (es : List ε) : List δ :=
  (es.filter fun e => key e = k).map data

theorem project_cons_self (key : ε → κ) (data : ε → δ) (e : ε) (es : List ε) :
    project key data (key e) (e :: es) = data e :: project key data (key e) es := by
  simp [project]

theorem project_cons_ne {key : ε → κ} {k : κ} {e : ε} (h : key e ≠ k) (data : ε → δ)
    (es : List ε) : project key data k (e :: es) = project key data k es := by
  simp [project, h]

variable {step : σ → ε → σ} {I : σ → Prop} {key : ε → κ} {data : ε → δ}
  {observe : σ → κ → β} {update : κ → δ → β → β}

theorem observe_run (h : Keyed step I key data observe update) {s : σ} (hs : I s) (es : List ε)
    (k : κ) : observe (es.foldl step s) k =
      (project key data k es).foldl (fun b d => update k d b) (observe s k) := by
  induction es generalizing s with
  | nil => rfl
  | cons e es ih =>
    rw [List.foldl_cons, ih (h.keep s e hs)]
    by_cases hk : key e = k
    · subst hk
      rw [h.own s e hs, project_cons_self, List.foldl_cons]
    · rw [h.frame s e k hs hk, project_cons_ne hk]

theorem runs_agree (h : Keyed step I key data observe update) {s : σ} (hs : I s)
    {es es' : List ε} (hsame : ∀ k, project key data k es = project key data k es') (k : κ) :
    observe (es.foldl step s) k = observe (es'.foldl step s) k := by
  rw [h.observe_run hs, h.observe_run hs, hsame]

end Keyed
