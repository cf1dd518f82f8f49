import Mathlib.Data.List.Induction
import MqttExporter.Base.History

/-!
# Machines that answer

A machine takes requests and answers each. Two machines that are asked the same
can be told apart only at a request that they answer differently.
-/

namespace Answers

variable {σ τ ρ ο : Type}

/-- The state after a list of requests. -/
def after (step : σ → ρ → ο × σ) (s : σ) (requests : List ρ) : σ :=
  requests.foldl (fun s r => (step s r).2) s

def answers (step : σ → ρ → ο × σ) (s : σ) : List ρ → List ο
  | [] => []
  | r :: requests => (step s r).1 :: answers step (step s r).2 requests

theorem after_snoc (step : σ → ρ → ο × σ) (s : σ) (requests : List ρ) (r : ρ) :
    after step s (requests ++ [r]) = (step (after step s requests) r).2 := by
  rw [after, List.foldl_append]
  rfl

theorem answers_eq_iff {f : σ → ρ → ο × σ} {g : τ → ρ → ο × τ} {s : σ} {t : τ}
    {requests : List ρ} :
    answers f s requests = answers g t requests ↔
      ∀ before r rest, requests = before ++ r :: rest →
        (f (after f s before) r).1 = (g (after g t before) r).1 := by
  induction requests generalizing s t with
  | nil => simp [answers]
  | cons r requests ih =>
    simp only [answers, List.cons.injEq, ih]
    constructor
    · rintro ⟨hfirst, hrest⟩ before x rest heq
      cases before with
      | nil =>
        cases heq
        exact hfirst
      | cons b before =>
        cases heq
        exact hrest before x rest rfl
    · intro h
      exact ⟨h [] r requests rfl, fun before x rest heq => h (r :: before) x rest (heq ▸ rfl)⟩

/-- A request of a kind `mark` was taken in a state that `P` allows, and the value
`v` has stayed what it was then. -/
def Unchanged {β : Type} (step : σ → ρ → ο × σ) (s : σ) (mark : ρ → Prop) (P : σ → Prop)
    (v : σ → β) (requests : List ρ) : Prop :=
  ∃ before r rest, requests = before ++ r :: rest ∧ mark r ∧ P (after step s before) ∧
    ∀ x y, rest = x ++ y → v (after step s (before ++ r :: x)) = v (after step s before)

section

variable {β : Type} {step : σ → ρ → ο × σ} {s : σ} {mark : ρ → Prop} {P : σ → Prop} {v : σ → β}
  {requests : List ρ} {r : ρ}

theorem not_unchanged_nil : ¬ Unchanged step s mark P v [] := by
  rintro ⟨before, r, rest, heq, -⟩
  simp at heq

theorem unchanged_snoc : Unchanged step s mark P v (requests ++ [r]) ↔
    v (after step s (requests ++ [r])) = v (after step s requests) ∧
      ((mark r ∧ P (after step s requests)) ∨ Unchanged step s mark P v requests) := by
  constructor
  · rintro ⟨before, m, rest, heq, hm, hP, hv⟩
    rcases Transition.split_snoc.mp heq with ⟨rfl, rfl, rfl⟩ | ⟨init, rfl, rfl⟩
    · exact ⟨hv [] [] rfl, Or.inl ⟨hm, hP⟩⟩
    · have hall := hv (init ++ [r]) [] (by simp)
      have hinit := hv init [r] rfl
      rw [← List.cons_append, ← List.append_assoc] at hall
      refine ⟨hall.trans hinit.symm, Or.inr ⟨before, m, init, rfl, hm, hP, ?_⟩⟩
      exact fun x y hxy => hv x (y ++ [r]) (by simp [hxy])
  · rintro ⟨hlast, ⟨hm, hP⟩ | ⟨before, m, rest, rfl, hm, hP, hv⟩⟩
    · refine ⟨requests, r, [], rfl, hm, hP, fun x y hxy => ?_⟩
      rw [(List.append_eq_nil_iff.mp hxy.symm).1]
      exact hlast
    · refine ⟨before, m, rest ++ [r], by simp, hm, hP, fun x y hxy => ?_⟩
      rcases List.eq_nil_or_concat y with rfl | ⟨z, w, rfl⟩
      · rw [List.append_nil] at hxy
        rw [← hxy, ← List.cons_append, ← List.append_assoc, hlast]
        exact hv rest [] (by simp)
      · rw [List.concat_eq_append, ← List.append_assoc] at hxy
        exact hv x z (List.append_inj' hxy rfl).1

end

end Answers
