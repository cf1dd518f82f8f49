import MqttExporter.Base.Replace

/-!
# Occurrences of a pattern

Which occurrences of a pattern are taken when a list is read from the left, and
the list with another text in their place:

* `Leftmost p s start found`: an occurrence is taken unless one taken before it
  reaches into it;
* `Leftmost.first`, `Leftmost.rest`: the first one taken is the first occurrence,
  the next ones are those taken behind it;
* `Leftmost.unique`, `leftmost_spec`: there is exactly one such list of
  positions, and it can be computed;
* `replace_eq_splice`: these are the ones that the scan replaces.
-/

namespace Replace

variable {α : Type}

/-! ## Occurrences -/

/-- The positions at which an occurrence of `p` in `s` is taken, from `start` on. -/
structure Leftmost (p s : List α) (start : Nat) (found : List Nat) : Prop where
  sorted : found.Pairwise (· < ·)
  mem_iff : ∀ i, i ∈ found ↔
    start ≤ i ∧ p <+: s.drop i ∧ ∀ j ∈ found, j < i → j + p.length ≤ i

/-- `i` is the first position from `start` on at which `p` occurs. -/
structure First (p s : List α) (start i : Nat) : Prop where
  le : start ≤ i
  occurs : p <+: s.drop i
  none_before : ∀ j, start ≤ j → j < i → ¬ p <+: s.drop j

variable {p s : List α} {start i : Nat} {found : List Nat}

/-! ## The first occurrence -/

theorem First.unique {j : Nat} (hi : First p s start i) (hj : First p s start j) : j = i := by
  have hle : ¬ i < j := fun hlt => hj.none_before i hi.le hlt hi.occurs
  have hge : ¬ j < i := fun hlt => hi.none_before j hj.le hlt hj.occurs
  omega

theorem first_here (h : p <+: s.drop start) : First p s start i ↔ i = start := by
  have hfirst : First p s start start := ⟨Nat.le_refl start, h, fun j hj hlt => by omega⟩
  constructor
  · exact hfirst.unique
  · intro heq
    rw [heq]
    exact hfirst

theorem first_cons {c : α} (hc : ¬ p <+: c :: s) : First p (c :: s) 0 (i + 1) ↔ First p s 0 i := by
  constructor
  · intro h
    refine ⟨Nat.zero_le i, h.occurs, ?_⟩
    intro j _ hlt
    exact h.none_before (j + 1) (Nat.zero_le _) (by omega)
  · intro h
    refine ⟨Nat.zero_le _, h.occurs, ?_⟩
    intro j _ hlt
    cases j with
    | zero => exact hc
    | succ j => exact h.none_before j (Nat.zero_le j) (by omega)

theorem First.drop (h : First p s start i) : First p (s.drop start) 0 (i - start) := by
  have hle := h.le
  refine ⟨Nat.zero_le _, ?_, ?_⟩
  · rw [List.drop_drop, show start + (i - start) = i by omega]
    exact h.occurs
  · intro j _ hlt
    rw [List.drop_drop]
    exact h.none_before (start + j) (by omega) (by omega)

theorem First.length_le (hi : First p s start i) (hp : p ≠ []) : i + p.length ≤ s.length := by
  have hpos := List.length_pos_of_ne_nil hp
  have hle := hi.occurs.length_le
  simp only [List.length_drop] at hle
  omega

/-! ## Those taken -/

theorem leftmost_nil : Leftmost p s start [] ↔ ∀ i, start ≤ i → ¬ p <+: s.drop i := by
  constructor
  · intro h i hi hp
    exact List.not_mem_nil ((h.mem_iff i).mpr ⟨hi, hp, by simp⟩)
  · intro h
    apply Leftmost.mk List.Pairwise.nil
    intro i
    constructor
    · simp
    · intro hi
      exact absurd hi.2.1 (h i hi.1)

theorem Leftmost.head_lt (h : Leftmost p s start (i :: found)) : ∀ x ∈ found, i < x :=
  (List.pairwise_cons.mp h.sorted).1

theorem Leftmost.first (h : Leftmost p s start (i :: found)) : First p s start i := by
  have hi := (h.mem_iff i).mp (by simp)
  apply First.mk hi.1 hi.2.1
  intro j hj hlt hocc
  have hleast : ∀ k ∈ i :: found, i ≤ k := by
    intro k hk
    by_cases hki : k = i
    · omega
    · have := h.head_lt k (by simpa [hki] using hk)
      omega
  -- nothing taken lies before `j`, so `j` would have been taken
  have hmem : j ∈ i :: found := (h.mem_iff j).mpr ⟨hj, hocc, by
    intro k hk hkj
    have := hleast k hk
    omega⟩
  have := hleast j hmem
  omega

theorem Leftmost.rest (hp : p ≠ []) (h : Leftmost p s start (i :: found)) :
    Leftmost p s (i + p.length) found := by
  have hpos := List.length_pos_of_ne_nil hp
  have hi := h.first.le
  apply Leftmost.mk (List.pairwise_cons.mp h.sorted).2
  intro x
  constructor
  · intro hx
    have hall := (h.mem_iff x).mp (List.mem_cons_of_mem i hx)
    exact ⟨hall.2.2 i (by simp) (h.head_lt x hx), hall.2.1,
      fun j hj => hall.2.2 j (List.mem_cons_of_mem i hj)⟩
  · intro hx
    have hmem : x ∈ i :: found := (h.mem_iff x).mpr ⟨by omega, hx.2.1, by
      intro j hj hlt
      by_cases hji : j = i
      · rw [hji]
        exact hx.1
      · exact hx.2.2 j (by simpa [hji] using hj) hlt⟩
    have hne : x ≠ i := by omega
    simpa [hne] using hmem

theorem Leftmost.cons (hp : p ≠ []) (hi : First p s start i)
    (h : Leftmost p s (i + p.length) found) : Leftmost p s start (i :: found) := by
  have hpos := List.length_pos_of_ne_nil hp
  have hbehind : ∀ x ∈ found, i + p.length ≤ x := fun x hx => ((h.mem_iff x).mp hx).1
  apply Leftmost.mk
  · apply List.pairwise_cons.mpr
    refine ⟨?_, h.sorted⟩
    intro x hx
    have := hbehind x hx
    omega
  · intro x
    constructor
    · intro hx
      by_cases hxi : x = i
      · subst hxi
        refine ⟨hi.le, hi.occurs, ?_⟩
        intro j hj hlt
        have := hbehind j (by simpa [Nat.ne_of_lt hlt] using hj)
        omega
      · have hall := (h.mem_iff x).mp (by simpa [hxi] using hx)
        refine ⟨Nat.le_trans hi.le (by omega), hall.2.1, ?_⟩
        intro j hj hlt
        by_cases hji : j = i
        · rw [hji]
          exact hall.1
        · exact hall.2.2 j (by simpa [hji] using hj) hlt
    · intro hx
      by_cases hlt : x < i
      · exact absurd hx.2.1 (hi.none_before x hx.1 hlt)
      · by_cases hxi : x = i
        · simp [hxi]
        · apply List.mem_cons_of_mem i
          exact (h.mem_iff x).mpr ⟨hx.2.2 i (by simp) (by omega), hx.2.1,
            fun j hj => hx.2.2 j (List.mem_cons_of_mem i hj)⟩

/-- Where the pattern does not occur, nothing is taken. -/
theorem Leftmost.pass (hn : ¬ p <+: s.drop start) (h : Leftmost p s (start + 1) found) :
    Leftmost p s start found := by
  apply Leftmost.mk h.sorted
  intro i
  rw [h.mem_iff]
  constructor
  · intro hi
    exact ⟨by omega, hi.2⟩
  · intro hi
    have hne : i ≠ start := by
      intro he
      exact hn (he ▸ hi.2.1)
    exact ⟨by omega, hi.2⟩

theorem Leftmost.unique (hp : p ≠ []) (h : Leftmost p s start found) {other : List Nat}
    (h' : Leftmost p s start other) : other = found := by
  induction found generalizing start other with
  | nil =>
    cases other with
    | nil => rfl
    | cons j other => exact absurd h'.first.occurs (leftmost_nil.mp h j h'.first.le)
  | cons i found ih =>
    cases other with
    | nil => exact absurd h.first.occurs (leftmost_nil.mp h' i h.first.le)
    | cons j other =>
      have heq := h.first.unique h'.first
      subst heq
      rw [ih (h.rest hp) (h'.rest hp)]

/-- Each one taken uses up a part of the list. -/
theorem Leftmost.length_le (hp : p ≠ []) (h : Leftmost p s start found) :
    found.length ≤ s.length - start := by
  induction found generalizing start with
  | nil => simp
  | cons i found ih =>
    have hpos := List.length_pos_of_ne_nil hp
    have hi := h.first.length_le hp
    have hle := h.first.le
    have hlen := ih (h.rest hp)
    simp only [List.length_cons]
    omega

/-! ## Computing them -/

section
variable [DecidableEq α]

/-- The positions in a list that begins at `start`, with the number of elements still to skip. -/
def leftmost (p : List α) : List α → Nat → Nat → List Nat
  | [], _, _ => []
  | _ :: s, k + 1, start => leftmost p s k (start + 1)
  | c :: s, 0, start =>
    if p <+: c :: s then start :: leftmost p s (p.length - 1) (start + 1)
    else leftmost p s 0 (start + 1)

theorem leftmost_drop (hp : p ≠ []) {t : List α} {k : Nat} (ht : s.drop start = t) :
    Leftmost p s (start + k) (leftmost p t k start) := by
  induction t generalizing start k with
  | nil =>
    apply leftmost_nil.mpr
    intro i hi hocc
    have hend : s.drop i = [] := by
      rw [List.drop_eq_nil_iff] at ht ⊢
      omega
    rw [hend] at hocc
    exact hp (List.prefix_nil.mp hocc)
  | cons c t ih =>
    have hnext : s.drop (start + 1) = t := by
      rw [← List.drop_drop, ht, List.drop_succ_cons, List.drop_zero]
    cases k with
    | succ k =>
      have hskip := @ih (start + 1) k hnext
      rw [leftmost]
      rwa [show start + 1 + k = start + (k + 1) by omega] at hskip
    | zero =>
      rw [leftmost]
      by_cases hc : p <+: c :: t
      · have hpos := List.length_pos_of_ne_nil hp
        have hbehind := @ih (start + 1) (p.length - 1) hnext
        rw [show start + 1 + (p.length - 1) = start + p.length by omega] at hbehind
        rw [if_pos hc]
        have hhere : p <+: s.drop start := by rwa [ht]
        exact Leftmost.cons hp ((first_here hhere).mpr rfl) hbehind
      · rw [if_neg hc]
        apply Leftmost.pass
        · rwa [Nat.add_zero, ht]
        · exact @ih (start + 1) 0 hnext

theorem leftmost_spec (hp : p ≠ []) (s : List α) : Leftmost p s 0 (leftmost p s 0 0) :=
  leftmost_drop (k := 0) hp (List.drop_zero)

end

/-! ## Putting another text in their place -/

/-- The position behind the last one of `found`. -/
def behind (p : List α) : Nat → List Nat → Nat
  | start, [] => start
  | _, i :: found => behind p (i + p.length) found

/-- What becomes of the list from `start` up to `behind`. -/
def rewritten (p v s : List α) : Nat → List Nat → List α
  | _, [] => []
  | start, i :: found =>
    (s.drop start).take (i - start) ++ v ++ rewritten p v s (i + p.length) found

/-- Each of the occurrences at `found` replaced by `v`, and all other elements kept. -/
def splice (p v s : List α) (found : List Nat) : List α :=
  rewritten p v s 0 found ++ s.drop (behind p 0 found)

/-- The ones left over are taken behind the others. -/
theorem Leftmost.later (hp : p ≠ []) {before later : List Nat}
    (h : Leftmost p s start (before ++ later)) : Leftmost p s (behind p start before) later := by
  induction before generalizing start with
  | nil => exact h
  | cons i before ih => exact ih (h.rest hp)

example : leftmost [0, 0] [0, 0, 0, 1, 0, 0] 0 0 = [0, 4] ∧
    splice [0, 0] [7] [0, 0, 0, 1, 0, 0] [0, 4] = [7, 0, 1, 7] := by decide

/-! ## What the scan replaces -/

/-- The scan passes what lies before the first occurrence. -/
theorem replace_of_first [DecidableEq α] (hp : p ≠ []) (h : First p s start i) (v : List α) :
    replace p v (s.drop start) =
      (s.drop start).take (i - start) ++ (v ++ replace p v (s.drop (i + p.length))) := by
  have hle := h.le
  have hi := h.length_le hp
  obtain ⟨y, hy⟩ := h.occurs
  have hrest : s.drop (i + p.length) = y := by
    rw [← List.drop_drop, ← hy, List.drop_left]
  have hsplit : (s.drop start).take (i - start) ++ (p ++ y) = s.drop start := by
    rw [hy, show s.drop i = (s.drop start).drop (i - start) by
      rw [List.drop_drop, show start + (i - start) = i by omega], List.take_append_drop]
  have hpass : ∀ u w, (s.drop start).take (i - start) = u ++ w → w ≠ [] →
      ¬ p <+: w ++ (p ++ y) := by
    intro u w hx hw hocc
    have hlen := congrArg List.length hx
    have hpos := List.length_pos_of_ne_nil hw
    simp only [List.length_append, List.length_take] at hlen
    have hdrop : s.drop (start + u.length) = w ++ (p ++ y) := by
      rw [← List.drop_drop, ← hsplit, hx, List.append_assoc, List.drop_left]
    exact h.none_before (start + u.length) (by omega) (by omega) (hdrop ▸ hocc)
  calc replace p v (s.drop start)
      = replace p v ((s.drop start).take (i - start) ++ (p ++ y)) := by rw [hsplit]
    _ = (s.drop start).take (i - start) ++ replace p v (p ++ y) := replace_pass hpass
    _ = (s.drop start).take (i - start) ++ (v ++ replace p v (s.drop (i + p.length))) := by
        rw [replace_hit hp, hrest]

theorem replace_rewritten [DecidableEq α] (hp : p ≠ []) (h : Leftmost p s start found)
    (v : List α) : replace p v (s.drop start) =
      rewritten p v s start found ++ s.drop (behind p start found) := by
  induction found generalizing start with
  | nil =>
    have hn : ¬ p <:+: s.drop start := by
      intro hin
      obtain ⟨x, y, hxy⟩ := hin
      have hocc : p <+: s.drop (start + x.length) := by
        rw [← List.drop_drop, ← hxy, List.append_assoc, List.drop_left]
        exact List.prefix_append p y
      exact leftmost_nil.mp h (start + x.length) (by omega) hocc
    rw [replace_of_absent hn, rewritten, behind, List.nil_append]
  | cons i found ih =>
    rw [replace_of_first hp h.first, ih (h.rest hp), rewritten, behind]
    simp only [List.append_assoc]

theorem replace_eq_splice [DecidableEq α] (hp : p ≠ []) (h : Leftmost p s 0 found)
    (v : List α) : replace p v s = splice p v s found :=
  replace_rewritten hp h v

end Replace
