import Mathlib.Data.Finset.Max
import MqttExporter.Base.Transition

/-!
# Threads that take mutexes in order

A thread is the mutexes it holds and the acquisitions and releases it still
makes. A mutex lets in one thread alone, or any number of them that share it.
Which of the waiting threads gets a mutex is open; a mutex may also turn away a
thread that would share it while another waits to have it alone.

* `Nested.scope`: lock guards that nest by rank are in order;
* `progress`: threads in order do not deadlock, whatever a mutex prefers;
* `drains`: they end, however they are scheduled, and all mutexes are free.
-/

namespace Mutexes

open Transition

variable {L : Type} [DecidableEq L]

inductive Mode where
  | shared
  | exclusive
  deriving DecidableEq

inductive Op (L : Type) where
  | acquire (l : L) (mode : Mode)
  | release (l : L)
  deriving DecidableEq

structure Thread (L : Type) where
  held : List (L × Mode)
  rest : List (Op L)
  deriving DecidableEq

def Finished (t : Thread L) : Prop := t.held = [] ∧ t.rest = []

/-- Nobody has the mutex in a way that excludes `mode`. -/
def Admits (threads : List (Thread L)) (l : L) (mode : Mode) : Prop :=
  ∀ t ∈ threads, ∀ h ∈ t.held, h.1 = l → h.2 = .shared ∧ mode = .shared

instance (threads : List (Thread L)) (l : L) (mode : Mode) : Decidable (Admits threads l mode) :=
  inferInstanceAs (Decidable (∀ t ∈ threads, ∀ h ∈ t.held,
    h.1 = l → h.2 = .shared ∧ mode = .shared))

/-- A thread takes its next step. -/
def step (threads : List (Thread L)) (i : ℕ) : Option (List (Thread L)) := do
  let t ← threads[i]?
  match t.rest with
  | [] => none
  | .acquire l mode :: rest =>
    if Admits threads l mode then some (threads.set i ⟨(l, mode) :: t.held, rest⟩) else none
  | .release l :: rest => some (threads.set i ⟨t.held.filter fun h => h.1 ≠ l, rest⟩)

/-- Thread `i` gets its next step from every mutex, also from one that prefers
the threads that wait to have it alone. -/
def Prompt (threads : List (Thread L)) (i : ℕ) : Prop :=
  (step threads i).isSome ∧ ∀ t l, threads[i]? = some t →
    t.rest.head? = some (.acquire l .shared) →
    ∀ u ∈ threads, u.rest.head? ≠ some (.acquire l .exclusive)

inductive Effect (threads : List (Thread L)) (i : ℕ) (t : Thread L) :
    List (Thread L) → Prop where
  | acquire (l : L) (mode : Mode) (rest : List (Op L)) : t.rest = .acquire l mode :: rest →
      Admits threads l mode → Effect threads i t (threads.set i ⟨(l, mode) :: t.held, rest⟩)
  | release (l : L) (rest : List (Op L)) : t.rest = .release l :: rest →
      Effect threads i t (threads.set i ⟨t.held.filter fun h => h.1 ≠ l, rest⟩)

theorem step_effect {threads threads' : List (Thread L)} {i : ℕ}
    (h : step threads i = some threads') :
    ∃ t, threads[i]? = some t ∧ Effect threads i t threads' := by
  obtain ⟨t, ht, h⟩ := Option.bind_eq_some_iff.mp h
  refine ⟨t, ht, ?_⟩
  split at h
  · cases h
  · rename_i l mode rest hrest
    split at h <;> cases h
    exact .acquire l mode rest hrest ‹_›
  · rename_i l rest hrest
    cases h
    exact .release l rest hrest

/-! ## Order -/

/-- What is acquired ranks above what is held, and all is released in the end. -/
def Ordered (rank : L → ℕ) : List (L × Mode) → List (Op L) → Prop
  | held, [] => held = []
  | held, .acquire l mode :: rest =>
    (∀ h ∈ held, rank h.1 < rank l) ∧ Ordered rank ((l, mode) :: held) rest
  | held, .release l :: rest => Ordered rank (held.filter fun h => h.1 ≠ l) rest

/-- Operations that are in order under what is held and release what they acquire. -/
def Nested (rank : L → ℕ) (held : List (L × Mode)) (ops : List (Op L)) : Prop :=
  ∀ rest, Ordered rank held rest → Ordered rank held (ops ++ rest)

/-- A lock guard around a block. -/
def scope (l : L) (mode : Mode) (body : List (Op L)) : List (Op L) :=
  .acquire l mode :: body ++ [.release l]

variable {rank : L → ℕ} {held : List (L × Mode)}

theorem nested_nil : Nested rank held [] := fun _ h => h

theorem Nested.append {xs ys : List (Op L)} (hx : Nested rank held xs)
    (hy : Nested rank held ys) : Nested rank held (xs ++ ys) := by
  intro rest h
  rw [List.append_assoc]
  exact hx _ (hy _ h)

theorem nested_flatMap {β : Type} {f : β → List (Op L)} {xs : List β}
    (h : ∀ x ∈ xs, Nested rank held (f x)) : Nested rank held (xs.flatMap f) := by
  induction xs with
  | nil => exact nested_nil
  | cons x xs ih =>
    rw [List.flatMap_cons]
    exact (h x List.mem_cons_self).append (ih fun y hy => h y (List.mem_cons_of_mem x hy))

theorem Nested.scope {l : L} {mode : Mode} {body : List (Op L)}
    (hrank : ∀ h ∈ held, rank h.1 < rank l) (hbody : Nested rank ((l, mode) :: held) body) :
    Nested rank held (scope l mode body) := by
  intro rest h
  have hkeep : ((l, mode) :: held).filter (fun h => h.1 ≠ l) = held := by
    rw [List.filter_cons_of_neg (by simp), List.filter_eq_self]
    intro x hx
    have hlt := hrank x hx
    simp only [ne_eq, decide_eq_true_eq]
    intro heq
    rw [heq] at hlt
    omega
  have hrest : Ordered rank ((l, mode) :: held) (.release l :: rest) := by
    rw [Ordered, hkeep]
    exact h
  have happend : Mutexes.scope l mode body ++ rest =
      .acquire l mode :: (body ++ .release l :: rest) := by
    simp [Mutexes.scope]
  rw [happend]
  exact ⟨hrank, hbody _ hrest⟩

theorem Nested.ordered {ops : List (Op L)} (h : Nested rank [] ops) : Ordered rank [] ops := by
  have := h [] rfl
  rwa [List.append_nil] at this

/-! ## What a step keeps -/

/-- Every thread keeps the order, and whoever holds a mutex with others shares it. -/
structure Sound (rank : L → ℕ) (threads : List (Thread L)) : Prop where
  ordered : ∀ t ∈ threads, Ordered rank t.held t.rest
  excluded : threads.Pairwise fun t u => ∀ h ∈ t.held, ∀ g ∈ u.held, h.1 = g.1 →
    h.2 = .shared ∧ g.2 = .shared

theorem pairwise_set {β : Type} {R : β → β → Prop} (hsymm : ∀ x y, R x y → R y x)
    {xs : List β} {i : ℕ} {y : β} (h : xs.Pairwise R)
    (hy : ∀ j x, xs[j]? = some x → j ≠ i → R x y) : (xs.set i y).Pairwise R := by
  rw [List.pairwise_iff_getElem] at h ⊢
  intro j k hj hk hjk
  rw [List.length_set] at hj hk
  rw [List.getElem_set, List.getElem_set]
  split
  · rename_i hij
    rw [if_neg (by omega)]
    exact hsymm _ _ (hy k _ (List.getElem?_eq_getElem hk) (by omega))
  · split
    · exact hy j _ (List.getElem?_eq_getElem hj) (by omega)
    · exact h j k hj hk hjk

theorem sound_step {threads threads' : List (Thread L)} {i : ℕ} (hs : Sound rank threads)
    (h : step threads i = some threads') : Sound rank threads' := by
  obtain ⟨t, ht, heffect⟩ := step_effect h
  have hmem := List.mem_of_getElem? ht
  have hordered := hs.ordered t hmem
  have hothers : ∀ j u, threads[j]? = some u → j ≠ i →
      ∀ h ∈ u.held, ∀ g ∈ t.held, h.1 = g.1 → h.2 = .shared ∧ g.2 = .shared := by
    intro j u hu hji h hh g hg heq
    obtain ⟨hjlt, hju⟩ := List.getElem?_eq_some_iff.mp hu
    obtain ⟨hilt, hit⟩ := List.getElem?_eq_some_iff.mp ht
    have hpairs := List.pairwise_iff_getElem.mp hs.excluded
    by_cases hlt : j < i
    · exact hpairs j i hjlt hilt hlt h (hju ▸ hh) g (hit ▸ hg) heq
    · have := hpairs i j hilt hjlt (by omega) g (hit ▸ hg) h (hju ▸ hh) heq.symm
      exact ⟨this.2, this.1⟩
  have hsymm : ∀ t u : Thread L,
      (∀ h ∈ t.held, ∀ g ∈ u.held, h.1 = g.1 → h.2 = .shared ∧ g.2 = .shared) →
      ∀ h ∈ u.held, ∀ g ∈ t.held, h.1 = g.1 → h.2 = .shared ∧ g.2 = .shared := by
    intro t u hold h hh g hg heq
    have := hold g hg h hh heq.symm
    exact ⟨this.2, this.1⟩
  cases heffect with
  | acquire l mode rest hrest hadmits =>
    rw [hrest] at hordered
    refine ⟨fun u hu => ?_, pairwise_set hsymm hs.excluded fun j u hu hji h hh g hg heq => ?_⟩
    · rcases List.mem_or_eq_of_mem_set hu with hu | rfl
      · exact hs.ordered u hu
      · exact hordered.2
    · rcases List.mem_cons.mp hg with rfl | hg
      · exact hadmits u (List.mem_of_getElem? hu) h hh heq
      · exact hothers j u hu hji h hh g hg heq
  | release l rest hrest =>
    rw [hrest] at hordered
    refine ⟨fun u hu => ?_, pairwise_set hsymm hs.excluded fun j u hu hji h hh g hg heq => ?_⟩
    · rcases List.mem_or_eq_of_mem_set hu with hu | rfl
      · exact hs.ordered u hu
      · exact hordered
    · exact hothers j u hu hji h hh g (List.mem_of_mem_filter hg) heq

/-! ## Progress -/

theorem step_acquire {threads : List (Thread L)} {i : ℕ} {t : Thread L} {l : L} {mode : Mode}
    (ht : threads[i]? = some t) (hrest : t.rest.head? = some (.acquire l mode))
    (hadmits : Admits threads l mode) : (step threads i).isSome := by
  obtain ⟨rest, hrest⟩ : ∃ rest, t.rest = .acquire l mode :: rest := by
    cases hops : t.rest with
    | nil =>
      rw [hops] at hrest
      cases hrest
    | cons op rest =>
      rw [hops] at hrest
      cases hrest
      exact ⟨rest, rfl⟩
  simp [step, ht, hrest, hadmits]

theorem prompt_release {threads : List (Thread L)} {i : ℕ} {t : Thread L} {l : L}
    {rest : List (Op L)} (ht : threads[i]? = some t) (hrest : t.rest = .release l :: rest) :
    Prompt threads i := by
  refine ⟨by simp [step, ht, hrest], fun u l' hu hhead => ?_⟩
  rw [ht] at hu
  cases hu
  rw [hrest] at hhead
  cases hhead

/-- What a thread acquires next. -/
def wanted (t : Thread L) : Option L :=
  match t.rest with
  | .acquire l _ :: _ => some l
  | _ => none

omit [DecidableEq L] in
theorem wanted_eq_some {t : Thread L} {l : L} :
    wanted t = some l ↔ ∃ mode, t.rest.head? = some (.acquire l mode) := by
  unfold wanted
  split
  · rename_i l' mode rest hrest
    simp [hrest]
  · rename_i hne
    constructor
    · intro h
      cases h
    · rintro ⟨mode, hhead⟩
      obtain ⟨rest, hrest⟩ := List.head?_eq_some_iff.mp hhead
      exact absurd hrest (hne l mode rest)

/-- A mutex that is wanted and that nobody holds goes to one of those who wait. -/
theorem prompt_free {threads : List (Thread L)} {l : L} (hwanted : l ∈ threads.filterMap wanted)
    (hfree : ∀ t ∈ threads, ∀ h ∈ t.held, h.1 ≠ l) : ∃ i, Prompt threads i := by
  have hadmits : ∀ mode, Admits threads l mode :=
    fun mode t ht h hh heq => absurd heq (hfree t ht h hh)
  by_cases halone : ∃ t ∈ threads, t.rest.head? = some (.acquire l .exclusive)
  · obtain ⟨t, ht, hrest⟩ := halone
    obtain ⟨i, hi⟩ := List.getElem?_of_mem ht
    refine ⟨i, step_acquire hi hrest (hadmits _), fun u l' hu hhead => ?_⟩
    rw [hi] at hu
    cases hu
    rw [hrest] at hhead
    cases hhead
  · obtain ⟨t, ht, hwant⟩ := List.mem_filterMap.mp hwanted
    obtain ⟨mode, hrest⟩ := wanted_eq_some.mp hwant
    obtain ⟨i, hi⟩ := List.getElem?_of_mem ht
    refine ⟨i, step_acquire hi hrest (hadmits _), fun u l' hu hhead v hv hwaiting => ?_⟩
    rw [hi] at hu
    cases hu
    rw [hrest] at hhead
    cases hhead
    exact halone ⟨v, hv, hwaiting⟩

/-- Threads in order do not deadlock: who holds the highest mutex that is wanted
does not want another. -/
theorem progress {threads : List (Thread L)} (hs : Sound rank threads)
    (hwork : ∃ t ∈ threads, t.rest ≠ []) : ∃ i, Prompt threads i := by
  by_cases hrelease : ∃ t ∈ threads, ∃ l rest, t.rest = .release l :: rest
  · obtain ⟨t, ht, l, rest, hrest⟩ := hrelease
    obtain ⟨i, hi⟩ := List.getElem?_of_mem ht
    exact ⟨i, prompt_release hi hrest⟩
  have hacquires : ∀ t ∈ threads, t.rest ≠ [] →
      ∃ l mode rest, t.rest = .acquire l mode :: rest := by
    intro t ht hne
    cases hops : t.rest with
    | nil => exact absurd hops hne
    | cons op rest =>
      cases op with
      | acquire l mode => exact ⟨l, mode, rest, rfl⟩
      | release l => exact absurd ⟨t, ht, l, rest, hops⟩ hrelease
  have hwanted : ((threads.filterMap wanted).toFinset).Nonempty := by
    obtain ⟨t, ht, hne⟩ := hwork
    obtain ⟨l, mode, rest, hrest⟩ := hacquires t ht hne
    refine ⟨l, List.mem_toFinset.mpr (List.mem_filterMap.mpr ⟨t, ht, ?_⟩)⟩
    rw [wanted, hrest]
  obtain ⟨l, hl, hhighest⟩ := (threads.filterMap wanted).toFinset.exists_max_image rank hwanted
  refine prompt_free (List.mem_toFinset.mp hl) fun t ht h hh heq => ?_
  have hordered := hs.ordered t ht
  by_cases hne : t.rest = []
  · rw [hne, Ordered] at hordered
    rw [hordered] at hh
    cases hh
  · obtain ⟨l', mode, rest, hrest⟩ := hacquires t ht hne
    rw [hrest] at hordered
    have habove : rank h.1 < rank l' := hordered.1 h hh
    have hle := hhighest l' (List.mem_toFinset.mpr
      (List.mem_filterMap.mpr ⟨t, ht, by rw [wanted, hrest]⟩))
    rw [heq] at habove
    omega

/-! ## The end -/

/-- What is left to do. -/
def left : List (Thread L) → ℕ
  | [] => 0
  | t :: threads => t.rest.length + left threads

omit [DecidableEq L] in
theorem left_set {threads : List (Thread L)} {i : ℕ} {t u : Thread L}
    (ht : threads[i]? = some t) (hu : u.rest.length + 1 = t.rest.length) :
    left (threads.set i u) + 1 = left threads := by
  induction threads generalizing i with
  | nil => cases ht
  | cons v threads ih =>
    cases i with
    | zero =>
      cases ht
      simp only [List.set_cons_zero, left]
      omega
    | succ i =>
      have hrest := ih ht
      simp only [List.set_cons_succ, left]
      omega

theorem left_step {threads threads' : List (Thread L)} {i : ℕ}
    (h : step threads i = some threads') : left threads' + 1 = left threads := by
  obtain ⟨t, ht, heffect⟩ := step_effect h
  cases heffect with
  | acquire l mode rest hrest hadmits => exact left_set ht (by rw [hrest, List.length_cons])
  | release l rest hrest => exact left_set ht (by rw [hrest, List.length_cons])

theorem left_run {threads threads' : List (Thread L)} {is : List ℕ}
    (h : run step threads is = some threads') : left threads' + is.length = left threads := by
  induction is generalizing threads with
  | nil =>
    cases h
    rfl
  | cons i is ih =>
    obtain ⟨t, ht, hrun⟩ := run_cons.mp h
    have := left_step ht
    have := ih hrun
    simp only [List.length_cons]
    omega

omit [DecidableEq L] in
theorem rest_of_left {threads : List (Thread L)} (h : left threads = 0) :
    ∀ t ∈ threads, t.rest = [] := by
  induction threads with
  | nil =>
    intro t ht
    cases ht
  | cons u threads ih =>
    rw [left, Nat.add_eq_zero_iff] at h
    intro t ht
    rcases List.mem_cons.mp ht with rfl | ht
    · exact List.length_eq_zero_iff.mp h.1
    · exact ih h.2 t ht

omit [DecidableEq L] in
theorem left_of_rest {threads : List (Thread L)} (h : ∀ t ∈ threads, t.rest = []) :
    left threads = 0 := by
  induction threads with
  | nil => rfl
  | cons u threads ih =>
    have hrest := ih fun t ht => h t (List.mem_cons_of_mem u ht)
    rw [left, h u List.mem_cons_self]
    exact (Nat.zero_add _).trans hrest

/-- However threads in order are scheduled, one of them can go on until all of
them have ended, after as many steps as there were left, and hold nothing. -/
theorem drains {threads threads' : List (Thread L)} {is : List ℕ} (hs : Sound rank threads)
    (h : run step threads is = some threads') : is.length ≤ left threads ∧
      (is.length < left threads → ∃ i, Prompt threads' i) ∧
      (is.length = left threads → ∀ t ∈ threads', Finished t) := by
  have hs' : Sound rank threads' := run_invariant (fun _ _ _ hI hstep => sound_step hI hstep) hs h
  have hleft := left_run h
  refine ⟨by omega, fun hlt => ?_, fun heq t ht => ?_⟩
  · apply progress hs'
    by_contra hidle
    have hzero : left threads' = 0 := by
      apply left_of_rest
      intro t ht
      by_contra hne
      exact hidle ⟨t, ht, hne⟩
    omega
  · have hrest := rest_of_left (show left threads' = 0 by omega) t ht
    have hordered := hs'.ordered t ht
    rw [hrest] at hordered
    exact ⟨hordered, hrest⟩

end Mutexes
