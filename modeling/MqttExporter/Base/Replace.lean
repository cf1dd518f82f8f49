import Mathlib.Data.List.Infix

/-!
# Replacing a pattern

Scanning a list from the left, each occurrence of a pattern is replaced and the
scan goes on behind it, so inserted text is never scanned again:

* `Exposed p v`: around `v` an occurrence of `p` can appear that `v` takes part in;
* `replace_insert`: text that does not expose the pattern is a barrier for it;
* `replace_comm`: two replacements commute when no insertion and no occurrence
  of one exposes the pattern of the other;
* `replace_ne`: replacing by something else changes a list the pattern occurs in.
-/

namespace Replace

variable {α : Type}

/-! ## Exposing a pattern -/

/-- The pattern occurs in `v` with a proper part of the pattern on each side. -/
def Exposed (p v : List α) : Prop :=
  ∃ l r, l <+: p ∧ l ≠ p ∧ r <:+ p ∧ r ≠ p ∧ p <:+: l ++ v ++ r

theorem ne_of_append_left {p l w : List α} (h : p = l ++ w) (hw : w ≠ []) : l ≠ p := by
  intro e
  have := congrArg List.length h
  rw [← e, List.length_append] at this
  exact hw (List.length_eq_zero_iff.mp (by omega))

theorem ne_of_append_right {p w r : List α} (h : p = w ++ r) (hw : w ≠ []) : r ≠ p := by
  intro e
  have := congrArg List.length h
  rw [← e, List.length_append] at this
  exact hw (List.length_eq_zero_iff.mp (by omega))

/-- An occurrence that starts in `l` and reaches into `v`. -/
theorem exposed_of_reach {p v l w y : List α} (hp : p = l ++ w) (hl : l ≠ []) (hw : w ≠ [])
    (h : w <+: v ++ y) : Exposed p v := by
  obtain ⟨z, hz⟩ := h
  rcases List.append_eq_append_iff.mp hz with ⟨t, hv, _⟩ | ⟨r, hwr, _⟩
  · refine ⟨l, [], ⟨w, hp.symm⟩, ne_of_append_left hp hw, List.nil_suffix, ?_, ?_⟩
    · rintro rfl
      exact hl (List.append_eq_nil_iff.mp hp.symm).1
    · rw [hp, hv, List.append_nil, ← List.append_assoc]
      exact (List.prefix_append _ _).isInfix
  · have hp' : p = (l ++ v) ++ r := by rw [hp, hwr, List.append_assoc]
    refine ⟨l, r, ⟨w, hp.symm⟩, ne_of_append_left hp hw, ⟨l ++ v, hp'.symm⟩, ?_, ?_⟩
    · exact ne_of_append_right hp' fun e => hl (List.append_eq_nil_iff.mp e).1
    · rw [← hp']

/-- An occurrence that starts in `v`. -/
theorem exposed_of_start {p u w y : List α} (hp : p ≠ []) (hw : w ≠ []) (h : p <+: w ++ y) :
    Exposed p (u ++ w) := by
  obtain ⟨z, hz⟩ := h
  rcases List.append_eq_append_iff.mp hz with ⟨t, hwt, _⟩ | ⟨r, hpr, _⟩
  · refine ⟨[], [], List.nil_prefix, hp.symm, List.nil_suffix, hp.symm, ?_⟩
    rw [hwt, List.append_nil, List.nil_append]
    exact ⟨u, t, by simp⟩
  · refine ⟨[], r, List.nil_prefix, hp.symm, ⟨w, hpr.symm⟩, ne_of_append_right hpr hw, ?_⟩
    rw [List.nil_append, List.append_assoc, ← hpr]
    exact (List.suffix_append _ _).isInfix

variable [DecidableEq α]

/-- A pattern has finitely many proper parts. -/
instance (p v : List α) : Decidable (Exposed p v) :=
  decidable_of_iff (∃ l ∈ p.inits, ∃ r ∈ p.tails, l ≠ p ∧ r ≠ p ∧ p <:+: l ++ v ++ r) (by
    simp only [List.mem_inits, List.mem_tails, Exposed]
    constructor
    · rintro ⟨l, hl, r, hr, hl', hr', hin⟩
      exact ⟨l, r, hl, hl', hr, hr', hin⟩
    · rintro ⟨l, r, hl, hl', hr, hr', hin⟩
      exact ⟨l, hl, r, hr, hl', hr', hin⟩)

/-! ## The scan -/

/-- The scan, with the number of elements still to skip. -/
def scan (p v : List α) : List α → Nat → List α
  | [], _ => []
  | _ :: s, k + 1 => scan p v s k
  | c :: s, 0 => if p <+: c :: s then v ++ scan p v s (p.length - 1) else c :: scan p v s 0

def replace (p v s : List α) : List α := scan p v s 0

theorem scan_drop (p v s : List α) (k : Nat) : scan p v s k = replace p v (s.drop k) := by
  induction s generalizing k with
  | nil => cases k <;> rfl
  | cons c s ih =>
    cases k with
    | zero => rfl
    | succ k => exact ih k

@[simp] theorem replace_nil (p v : List α) : replace p v [] = [] := rfl

theorem replace_cons {p v s : List α} {c : α} (h : ¬ p <+: c :: s) :
    replace p v (c :: s) = c :: replace p v s := by
  rw [replace, scan, if_neg h]
  rfl

theorem replace_hit {p v : List α} (hp : p ≠ []) (s : List α) :
    replace p v (p ++ s) = v ++ replace p v s := by
  obtain ⟨c, cs, rfl⟩ := List.exists_cons_of_ne_nil hp
  have hhere : c :: cs <+: c :: (cs ++ s) := List.prefix_append (c :: cs) s
  rw [List.cons_append, replace, scan, if_pos hhere, scan_drop]
  simp

/-- Nothing is found at the positions of `x`, so the scan passes it. -/
theorem replace_pass {p v x y : List α} (h : ∀ u w, x = u ++ w → w ≠ [] → ¬ p <+: w ++ y) :
    replace p v (x ++ y) = x ++ replace p v y := by
  induction x with
  | nil => rfl
  | cons c x ih =>
    have hc : ¬ p <+: c :: (x ++ y) := h [] (c :: x) rfl (by simp)
    rw [List.cons_append, replace_cons hc, ih fun u w hx hw => h (c :: u) w (by rw [hx]; rfl) hw]
    rfl

theorem replace_of_absent {p v s : List α} (h : ¬ p <:+: s) : replace p v s = s := by
  have := replace_pass (p := p) (v := v) (x := s) (y := []) fun u w hs _ hw =>
    h (hs ▸ ((List.append_nil w ▸ hw).isInfix.trans (List.suffix_append u w).isInfix))
  simpa using this

/-- Up to its first occurrence the list is kept. -/
theorem replace_first (p v s : List α) (hp : p ≠ []) :
    ¬ p <:+: s ∨ ∃ x y, s = x ++ (p ++ y) ∧ replace p v s = x ++ (v ++ replace p v y) := by
  induction s with
  | nil => exact Or.inl fun h => hp (List.infix_nil.mp h)
  | cons c s ih =>
    by_cases hc : p <+: c :: s
    · obtain ⟨y, hy⟩ := hc
      exact Or.inr ⟨[], y, hy.symm, by rw [← hy, replace_hit hp]; rfl⟩
    · rcases ih with h | ⟨x, y, hs, hr⟩
      · exact Or.inl fun hi => (List.infix_cons_iff.mp hi).elim hc h
      · exact Or.inr ⟨c :: x, y, by rw [hs]; rfl, by rw [replace_cons hc, hr]; rfl⟩

/-- Reading a list the way the scan does. -/
theorem scan_induction {p : List α} (hp : p ≠ []) {motive : List α → Prop} (nil : motive [])
    (hit : ∀ y, motive y → motive (p ++ y))
    (pass : ∀ c s, ¬ p <+: c :: s → motive s → motive (c :: s)) (s : List α) : motive s := by
  induction hn : s.length using Nat.strongRecOn generalizing s with
  | ind n ih =>
    cases s with
    | nil => exact nil
    | cons c s =>
      by_cases hc : p <+: c :: s
      · obtain ⟨y, hy⟩ := hc
        have hlen := congrArg List.length hy
        have hpos := List.length_pos_of_ne_nil hp
        simp only [List.length_append] at hlen
        rw [← hy]
        exact hit y (ih y.length (by omega) y rfl)
      · simp only [List.length_cons] at hn
        exact pass c s hc (ih s.length (by omega) s rfl)

theorem replace_self (p s : List α) (hp : p ≠ []) : replace p p s = s := by
  induction s using scan_induction hp with
  | nil => rfl
  | hit y ih => rw [replace_hit hp, ih]
  | pass c s hc ih => rw [replace_cons hc, ih]

/-! ## Barriers -/

/-- Text that does not expose the pattern splits the replacement. -/
theorem replace_insert {p v t : List α} (hp : p ≠ []) (h : ¬ Exposed p t) (x y : List α) :
    replace p v (x ++ (t ++ y)) = replace p v x ++ (t ++ replace p v y) := by
  induction x using scan_induction hp with
  | nil =>
    rw [List.nil_append, replace_nil, List.nil_append]
    apply replace_pass
    intro u w ht hw hpre
    exact h (ht ▸ exposed_of_start hp hw hpre)
  | hit x ih =>
    rw [replace_hit hp, List.append_assoc, replace_hit hp, ih, List.append_assoc]
  | pass c x hc ih =>
    have hc' : ¬ p <+: c :: (x ++ (t ++ y)) := by
      rintro ⟨z, hz⟩
      rw [← List.cons_append] at hz
      rcases List.append_eq_append_iff.mp hz with ⟨b, hb, _⟩ | ⟨w, hw, hrest⟩
      · exact hc ⟨b, hb.symm⟩
      · rcases eq_or_ne w [] with rfl | hne
        · exact hc ⟨[], by simpa using hw⟩
        · exact h (exposed_of_reach hw (by simp) hne ⟨z, hrest.symm⟩)
    rw [List.cons_append, replace_cons hc', replace_cons hc, ih]
    rfl

/-- One replacement does not make the pattern of the other appear. -/
theorem not_prefix_replace {p q w : List α} (hq : q ≠ []) (h : ¬ Exposed p w)
    {c : α} {s : List α} (hs : ¬ p <+: c :: s) : ¬ p <+: c :: replace q w s := by
  rcases replace_first q w s hq with hi | ⟨x, y, hx, hr⟩
  · rwa [replace_of_absent hi]
  · rw [hr]
    rintro ⟨z, hz⟩
    rw [← List.cons_append] at hz
    rcases List.append_eq_append_iff.mp hz with ⟨b, hb, _⟩ | ⟨t, ht, hrest⟩
    · exact hs ⟨b ++ (q ++ y), by rw [hx, ← List.append_assoc, ← hb]; rfl⟩
    · rcases eq_or_ne t [] with rfl | hne
      · exact hs ⟨q ++ y, by rw [hx, ht, List.append_nil]; rfl⟩
      · exact h (exposed_of_reach ht (by simp) hne ⟨z, hrest.symm⟩)

/-- Replacements that do not touch each other commute. -/
theorem replace_comm {p v q w : List α} (hp : p ≠ []) (hq : q ≠ []) (hpw : ¬ Exposed p w)
    (hqv : ¬ Exposed q v) (hpq : ¬ Exposed p q) (hqp : ¬ Exposed q p) (s : List α) :
    replace p v (replace q w s) = replace q w (replace p v s) := by
  induction hn : s.length using Nat.strongRecOn generalizing s with
  | ind n ih =>
    cases s with
    | nil => rfl
    | cons c s =>
      by_cases h1 : p <+: c :: s
      · obtain ⟨y, hy⟩ := h1
        have hlen := congrArg List.length hy
        have hpos := List.length_pos_of_ne_nil hp
        simp only [List.length_append, List.length_cons] at hlen hn
        have e1 := replace_insert (v := w) hq hqp [] y
        have e2 := replace_insert (v := w) hq hqv [] (replace p v y)
        simp only [List.nil_append, replace_nil] at e1 e2
        rw [← hy, e1, replace_hit hp, replace_hit hp, e2, ih y.length (by omega) y rfl]
      · by_cases h2 : q <+: c :: s
        · obtain ⟨y, hy⟩ := h2
          have hlen := congrArg List.length hy
          have hpos := List.length_pos_of_ne_nil hq
          simp only [List.length_append, List.length_cons] at hlen hn
          have e1 := replace_insert (v := v) hp hpq [] y
          have e2 := replace_insert (v := v) hp hpw [] (replace q w y)
          simp only [List.nil_append, replace_nil] at e1 e2
          rw [← hy, replace_hit hq, e2, e1, replace_hit hq, ih y.length (by omega) y rfl]
        · simp only [List.length_cons] at hn
          rw [replace_cons h2, replace_cons h1, replace_cons (not_prefix_replace hq hpw h1),
            replace_cons (not_prefix_replace hp hqv h2), ih s.length (by omega) s rfl]

/-! ## Replacing changes the list -/

theorem length_replace_le {p v : List α} (hp : p ≠ []) (h : v.length ≤ p.length) (s : List α) :
    (replace p v s).length ≤ s.length := by
  induction s using scan_induction hp with
  | nil => simp
  | hit y ih =>
    rw [replace_hit hp]
    simp only [List.length_append]
    omega
  | pass c s hc ih =>
    rw [replace_cons hc]
    simp only [List.length_cons]
    omega

theorem le_length_replace {p v : List α} (hp : p ≠ []) (h : p.length ≤ v.length) (s : List α) :
    s.length ≤ (replace p v s).length := by
  induction s using scan_induction hp with
  | nil => simp
  | hit y ih =>
    rw [replace_hit hp]
    simp only [List.length_append]
    omega
  | pass c s hc ih =>
    rw [replace_cons hc]
    simp only [List.length_cons]
    omega

theorem replace_ne {p v s : List α} (hp : p ≠ []) (hv : v ≠ p) (hs : p <:+: s) :
    replace p v s ≠ s := by
  rcases replace_first p v s hp with hi | ⟨x, y, hx, hr⟩
  · exact absurd hs hi
  · intro h
    have he : v ++ replace p v y = p ++ y := by
      rw [hr, hx] at h
      exact List.append_cancel_left h
    rcases lt_trichotomy v.length p.length with hlt | heq | hgt
    · have h1 := length_replace_le hp hlt.le y
      have h2 := congrArg List.length he
      simp only [List.length_append] at h2
      omega
    · exact hv (List.append_inj he heq).1
    · have h1 := le_length_replace hp hgt.le y
      have h2 := congrArg List.length he
      simp only [List.length_append] at h2
      omega

end Replace
