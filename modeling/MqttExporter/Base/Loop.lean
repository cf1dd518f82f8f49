import Mathlib.Data.List.Basic

/-!
# Loops that may raise

Computations over `EStateM` change a state and may raise; what they changed
before they raised stays changed. A loop runs its body on each element in turn
and ends at the first element whose body raises.

* `forM_ok`: what a finished loop leaves, from what one pass leaves;
* `forM_raises`: the first pass that raises ends the loop;
* `forM_flatten`: nested loops are one loop over the concatenated work;
* `forM_noting`: what a log beside the state says of a loop.
-/

namespace Loop

variable {ε σ α β γ : Type}

/-- Raise what a pure computation raises. -/
def raise : Except ε α → EStateM ε σ α
  | .ok a => pure a
  | .error e => throw e

@[simp] theorem raise_ok (a : α) (s : σ) : (raise (.ok a) : EStateM ε σ α) s = .ok a s := rfl

@[simp] theorem raise_error (e : ε) (s : σ) :
    (raise (.error e) : EStateM ε σ α) s = .error e s := rfl

theorem bind_apply (x : EStateM ε σ α) (f : α → EStateM ε σ β) (s : σ) :
    (x >>= f) s = match x s with
      | .ok a s' => f a s'
      | .error e s' => .error e s' := rfl

theorem get_apply (s : σ) : (get : EStateM ε σ σ) s = .ok s s := rfl

theorem set_apply (s t : σ) : (set t : EStateM ε σ PUnit) s = .ok ⟨⟩ t := rfl

theorem bind_ok {x : EStateM ε σ α} {f : α → EStateM ε σ β} {s s' : σ} {b : β} :
    (x >>= f) s = .ok b s' ↔ ∃ a s₁, x s = .ok a s₁ ∧ f a s₁ = .ok b s' := by
  rw [bind_apply]
  cases h : x s with
  | ok a s₁ => simp
  | error e s₁ => simp

theorem bind_error {x : EStateM ε σ α} {f : α → EStateM ε σ β} {s s' : σ} {e : ε} :
    (x >>= f) s = .error e s' ↔
      x s = .error e s' ∨ ∃ a s₁, x s = .ok a s₁ ∧ f a s₁ = .error e s' := by
  rw [bind_apply]
  cases h : x s with
  | ok a s₁ => simp
  | error e s₁ => simp

theorem raise_eq_ok {x : Except ε α} {a : α} {s s' : σ} :
    raise x s = .ok a s' ↔ x = .ok a ∧ s = s' := by
  cases x with
  | ok b => simp
  | error e => simp

/-- The state left behind, whether or not something was raised. -/
def final : EStateM.Result ε σ α → σ
  | .ok _ s => s
  | .error _ s => s

/-! ## One loop -/

section

variable {m : Type → Type} [Monad m]

theorem forM_cons (f : α → m PUnit) (x : α) (xs : List α) :
    (x :: xs).forM f = f x >>= fun _ => xs.forM f := rfl

theorem forM_map (f : β → m PUnit) (g : α → β) (xs : List α) :
    (xs.map g).forM f = xs.forM fun x => f (g x) := by
  induction xs with
  | nil => rfl
  | cons x xs ih => rw [List.map_cons, forM_cons, forM_cons, ih]

end

/-- What a finished loop leaves: each pass keeps `I` and adds `g x` to the log. -/
theorem forM_ok {f : α → EStateM ε σ PUnit} {I : σ → Prop} {log : σ → List γ} {g : α → List γ}
    {xs : List α}
    (pass : ∀ x ∈ xs, ∀ s s', I s → f x s = .ok ⟨⟩ s' → I s' ∧ log s' = log s ++ g x)
    {s s' : σ} (hs : I s) (h : xs.forM f s = .ok ⟨⟩ s') :
    I s' ∧ log s' = log s ++ xs.flatMap g := by
  induction xs generalizing s with
  | nil =>
    cases h
    exact ⟨hs, by simp⟩
  | cons x xs ih =>
    obtain ⟨⟨⟩, s₁, hx, hxs⟩ := bind_ok.mp (forM_cons f x xs ▸ h)
    obtain ⟨h₁, hl⟩ := pass x List.mem_cons_self s s₁ hs hx
    obtain ⟨h₂, hl'⟩ := ih (fun y hy => pass y (List.mem_cons_of_mem x hy)) h₁ hxs
    exact ⟨h₂, by rw [hl', hl, List.append_assoc, List.flatMap_cons]⟩

/-- What every finished pass keeps, the finished loop keeps. -/
theorem forM_invariant {f : α → EStateM ε σ PUnit} {I : σ → Prop} {xs : List α}
    (ok : ∀ x ∈ xs, ∀ s s', I s → f x s = .ok ⟨⟩ s' → I s') {s s' : σ} (hs : I s)
    (h : xs.forM f s = .ok ⟨⟩ s') : I s' :=
  (@forM_ok ε σ α Unit f I (fun _ => []) (fun _ => []) xs
    (fun x hx s s' hI hf => ⟨ok x hx s s' hI hf, rfl⟩) s s' hs h).1

/-- A loop whose every pass finishes and keeps `I` finishes. -/
theorem forM_finishes {f : α → EStateM ε σ PUnit} {I : σ → Prop} {xs : List α}
    (pass : ∀ x ∈ xs, ∀ s, I s → ∃ s', f x s = .ok ⟨⟩ s' ∧ I s') {s : σ} (hs : I s) :
    ∃ s', xs.forM f s = .ok ⟨⟩ s' ∧ I s' := by
  induction xs generalizing s with
  | nil => exact ⟨s, rfl, hs⟩
  | cons x xs ih =>
    obtain ⟨s₁, hx, h₁⟩ := pass x List.mem_cons_self s hs
    obtain ⟨s', hxs, h'⟩ := ih (fun y hy => pass y (List.mem_cons_of_mem x hy)) h₁
    exact ⟨s', bind_ok.mpr ⟨⟨⟩, s₁, hx, hxs⟩, h'⟩

theorem forM_append (f : α → EStateM ε σ PUnit) (xs ys : List α) :
    (xs ++ ys).forM f = xs.forM f >>= fun _ => ys.forM f := by
  induction xs with
  | nil => rfl
  | cons x xs ih =>
    funext s
    rw [List.cons_append, forM_cons, ih, forM_cons]
    simp only [bind_apply]
    cases f x s with
    | ok a s₁ => rfl
    | error e s₁ => rfl

/-- The first pass that raises ends the loop; nothing after it runs. -/
theorem forM_raises {f : α → EStateM ε σ PUnit} {done rest : List α} {x : α} {s s₁ s' : σ} {e : ε}
    (hdone : done.forM f s = .ok ⟨⟩ s₁) (hx : f x s₁ = .error e s') :
    (done ++ x :: rest).forM f s = .error e s' := by
  rw [forM_append, bind_apply, hdone]
  exact bind_error.mpr (Or.inl hx)

/-- A loop that does nothing for some elements is one over the others. -/
theorem forM_filter (f : α → EStateM ε σ PUnit) (p : α → Bool) (xs : List α) :
    (xs.filter p).forM f = xs.forM fun x => if p x then f x else pure ⟨⟩ := by
  induction xs with
  | nil => rfl
  | cons x xs ih =>
    rw [forM_cons]
    cases hp : p x with
    | true =>
      rw [List.filter_cons_of_pos hp, forM_cons, ih]
      rfl
    | false =>
      rw [List.filter_cons_of_neg (by simp [hp]), ih]
      rfl

/-! ## Nested loops -/

/-- A body that is itself a loop makes one loop over all the work. The work of
an element may be read off the state at its start, as long as passes keep `I`. -/
theorem forM_flatten {f : α → EStateM ε σ PUnit} {h : β → EStateM ε σ PUnit} {I : σ → Prop}
    {work : α → List β} {xs : List α} (body : ∀ x ∈ xs, ∀ s, I s → f x s = (work x).forM h s)
    (keep : ∀ b s s', I s → h b s = .ok ⟨⟩ s' → I s') {s : σ} (hs : I s) :
    xs.forM f s = (xs.flatMap work).forM h s := by
  induction xs generalizing s with
  | nil => rfl
  | cons x xs ih =>
    rw [forM_cons, List.flatMap_cons, forM_append, bind_apply, bind_apply,
      body x List.mem_cons_self s hs]
    cases hx : (work x).forM h s with
    | error e s₁ => rfl
    | ok a s₁ =>
      exact ih (fun y hy => body y (List.mem_cons_of_mem x hy))
        (forM_invariant (fun b _ => keep b) hs hx)

/-! ## A log beside the state -/

/-- Make an entry in the log, then act; the action leaves the log alone. -/
def noting (entry : γ) (x : EStateM ε σ α) : EStateM ε (List γ × σ) α := fun s =>
  match x s.2 with
  | .ok a t => .ok a (s.1 ++ [entry], t)
  | .error e t => .error e (s.1 ++ [entry], t)

/-- What is left of a result when the log is dropped. -/
def withoutLog : EStateM.Result ε (List γ × σ) α → EStateM.Result ε σ α
  | .ok a s => .ok a s.2
  | .error e s => .error e s.2

/-- A loop that notes its elements has noted all of them, or those up to the
first whose body raised. -/
theorem forM_noting (f : α → EStateM ε σ PUnit) (note : α → γ) (xs : List α) (log : List γ)
    (s : σ) :
    (∃ s', xs.forM f s = .ok ⟨⟩ s' ∧
      xs.forM (fun x => noting (note x) (f x)) (log, s) = .ok ⟨⟩ (log ++ xs.map note, s')) ∨
    ∃ done x rest s₁ e s', xs = done ++ x :: rest ∧ f x s₁ = .error e s' ∧
      xs.forM f s = .error e s' ∧
      xs.forM (fun x => noting (note x) (f x)) (log, s) =
        .error e (log ++ done.map note ++ [note x], s') := by
  induction xs generalizing log s with
  | nil => exact Or.inl ⟨s, rfl, by rw [List.map_nil, List.append_nil]; rfl⟩
  | cons x xs ih =>
    cases hx : f x s with
    | error e s' =>
      refine Or.inr ⟨[], x, xs, s, e, s', rfl, hx, ?_, ?_⟩
      · exact bind_error.mpr (Or.inl hx)
      · refine bind_error.mpr (Or.inl ?_)
        simp [noting, hx]
    | ok a s₁ =>
      have hnote : noting (note x) (f x) (log, s) = .ok a (log ++ [note x], s₁) := by
        simp only [noting, hx]
      rcases ih (log ++ [note x]) s₁ with ⟨s', hrun, hnoted⟩ |
        ⟨done, y, rest, s₂, e, s', rfl, hy, hrun, hnoted⟩
      · refine Or.inl ⟨s', bind_ok.mpr ⟨a, s₁, hx, hrun⟩, bind_ok.mpr ⟨a, _, hnote, ?_⟩⟩
        rw [hnoted, List.map_cons, List.append_assoc, List.singleton_append]
      · refine Or.inr ⟨x :: done, y, rest, s₂, e, s', rfl, hy, ?_, ?_⟩
        · exact bind_error.mpr (Or.inr ⟨a, s₁, hx, hrun⟩)
        · refine bind_error.mpr (Or.inr ⟨a, _, hnote, ?_⟩)
          rw [hnoted, List.map_cons, List.append_assoc log, List.singleton_append]

end Loop
