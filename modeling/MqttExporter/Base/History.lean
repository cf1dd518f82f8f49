import Mathlib.Data.List.Induction
import MqttExporter.Base.Transition

/-!
# Histories

The history of a state is the list of the actions that led to it. What a state
remembers of its history is stated about the list.

* `history_induction`: what holds of every history and the state after it;
* `Since`, `flag_iff`: a flag that actions raise and lower;
* `Throughout`: every action of a history was right after those before it.
-/

namespace Transition

variable {σ α : Type} {step : σ → α → Option σ}

theorem run_snoc {s s' : σ} {as : List α} {a : α} :
    run step s (as ++ [a]) = some s' ↔ ∃ t, run step s as = some t ∧ step t a = some s' := by
  rw [run_append]
  simp [run]

/-- Where an element of a list with a last one can be. -/
theorem split_snoc {as before after : List α} {a x : α} :
    as ++ [a] = before ++ x :: after ↔ (as = before ∧ a = x ∧ after = []) ∨
      ∃ rest, as = before ++ x :: rest ∧ after = rest ++ [a] := by
  constructor
  · intro heq
    rcases List.eq_nil_or_concat after with rfl | ⟨rest, y, rfl⟩
    · obtain ⟨hinit, hlast⟩ := List.append_inj' heq rfl
      exact Or.inl ⟨hinit, List.singleton_inj.mp hlast, rfl⟩
    · rw [List.concat_eq_append, ← List.cons_append, ← List.append_assoc] at heq
      obtain ⟨hinit, hlast⟩ := List.append_inj' heq rfl
      rw [List.singleton_inj.mp hlast]
      exact Or.inr ⟨rest, hinit, List.concat_eq_append⟩
  · rintro (⟨rfl, rfl, rfl⟩ | ⟨rest, rfl, rfl⟩) <;> simp

theorem history_induction {P : List α → σ → Prop} {s₀ : σ} (start : P [] s₀)
    (next : ∀ as s a s', run step s₀ as = some s → P as s → step s a = some s' → P (as ++ [a]) s')
    {as : List α} {s : σ} (h : run step s₀ as = some s) : P as s := by
  induction as using List.reverseRecOn generalizing s with
  | nil =>
    cases h
    exact start
  | append_singleton as a ih =>
    obtain ⟨t, ht, hstep⟩ := run_snoc.mp h
    exact next as t a s ht (ih ht) hstep

/-- An action of the kind `on` was taken, and none of the kind `off` after it. -/
def Since (on off : α → Prop) (as : List α) : Prop :=
  ∃ before a after, as = before ++ a :: after ∧ on a ∧ ∀ b ∈ after, ¬ off b

theorem not_since_nil {on off : α → Prop} : ¬ Since on off [] := by
  rintro ⟨before, a, after, h, -⟩
  simp at h

theorem since_snoc {on off : α → Prop} {as : List α} {a : α} :
    Since on off (as ++ [a]) ↔ on a ∨ (¬ off a ∧ Since on off as) := by
  constructor
  · rintro ⟨before, x, after, heq, hx, hafter⟩
    rcases split_snoc.mp heq with ⟨-, rfl, -⟩ | ⟨rest, rfl, rfl⟩
    · exact Or.inl hx
    · exact Or.inr ⟨hafter a (by simp), before, x, rest, rfl, hx,
        fun b hb => hafter b (by simp [hb])⟩
  · rintro (ha | ⟨ha, before, x, after, rfl, hx, hafter⟩)
    · exact ⟨as, a, [], rfl, ha, by simp⟩
    · refine ⟨before, x, after ++ [a], by simp, hx, fun b hb => ?_⟩
      rcases List.mem_append.mp hb with hb | hb
      · exact hafter b hb
      · rwa [List.mem_singleton.mp hb]

/-- What a flag says, when every action raises it, lowers it or leaves it. -/
theorem flag_iff {F : σ → Prop} {on off : α → Prop} {s₀ : σ} (start : ¬ F s₀)
    (next : ∀ s a s', step s a = some s' → (F s' ↔ on a ∨ (¬ off a ∧ F s)))
    {as : List α} {s : σ} (h : run step s₀ as = some s) : F s ↔ Since on off as := by
  refine history_induction (P := fun as s => F s ↔ Since on off as) ?_ ?_ h
  · exact ⟨fun hf => absurd hf start, fun hs => absurd hs not_since_nil⟩
  · intro as s a s' _ ih hstep
    rw [next s a s' hstep, since_snoc, ih]

/-- Every action was right, given the actions before it. -/
def Throughout (C : List α → α → Prop) (as : List α) : Prop :=
  ∀ before a after, as = before ++ a :: after → C before a

theorem throughout_nil (C : List α → α → Prop) : Throughout C [] := by
  intro before a after h
  simp at h

theorem throughout_snoc {C : List α → α → Prop} {as : List α} {a : α} :
    Throughout C (as ++ [a]) ↔ Throughout C as ∧ C as a := by
  constructor
  · intro h
    exact ⟨fun before x after heq => h before x (after ++ [a]) (by simp [heq]), h as a [] rfl⟩
  · rintro ⟨h, ha⟩ before x after heq
    rcases split_snoc.mp heq with ⟨rfl, rfl, -⟩ | ⟨rest, hrest, -⟩
    · exact ha
    · exact h before x rest hrest

end Transition
