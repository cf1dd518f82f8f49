import Mathlib.Data.List.Induction
import Mathlib.Logic.Function.Basic
import MqttExporter.Base.History

/-!
# Weak references through a lazy filter

A list of weak references is iterated through a view that locks each of them and
drops those that have expired. The view is lazy: the filter's test locks a
reference, and so does every later use of the element, each anew. Between two
locks the last holder of an object may release it.

* `null_iff`: a lock that the test has promised fails exactly if the object under
  the iterator was released after its test and the iteration went on;
* `run_alone`: undisturbed, the iteration sees the live objects in order.
-/

namespace WeakView

/-- What the use of an element leads to. -/
inductive Verdict where
  | next
  | found
  | leave
  deriving DecidableEq

/-- Where the iteration stands. The lock of the next step is that of the filter's
test, that of the use, or that of the element found. -/
inductive Phase (κ : Type) where
  | test (rest : List κ)
  | use (k : κ) (rest : List κ)
  | again (k : κ)
  /-- A null pointer was used. -/
  | faulted
  | returned (pointer : Option κ)
  | exhausted
  | left
  deriving DecidableEq

/-- `used`: the objects whose use has begun. -/
structure View (κ : Type) where
  live : κ → Bool
  phase : Phase κ
  used : List κ

inductive Act (κ : Type) where
  | lock
  | release (k : κ)

variable {κ : Type}

def start (live : κ → Bool) (refs : List κ) : View κ := ⟨live, .test refs, []⟩

/-- One lock, and what follows until the next. -/
def lockStep (verdict : κ → Verdict) (v : View κ) : View κ :=
  match v.phase with
  | .test [] => { v with phase := .exhausted }
  | .test (k :: rest) => { v with phase := if v.live k then .use k rest else .test rest }
  | .use k rest =>
    if v.live k then
      { v with
        phase := match verdict k with
          | .next => .test rest
          | .found => .again k
          | .leave => .left
        used := v.used ++ [k] }
    else { v with phase := .faulted }
  | .again k => { v with phase := .returned (if v.live k then some k else none) }
  | _ => v

variable [DecidableEq κ]

def step (verdict : κ → Verdict) (v : View κ) : Act κ → View κ
  | .lock => lockStep verdict v
  | .release k => { v with live := Function.update v.live k false }

def run (verdict : κ → Verdict) (v : View κ) (acts : List (Act κ)) : View κ :=
  acts.foldl (step verdict) v

/-- A null pointer was used or returned. -/
def View.Null (v : View κ) : Prop := v.phase = .faulted ∨ v.phase = .returned none

/-- The filter has let the object through, and it is to be locked again. -/
def View.On (v : View κ) (k : κ) : Prop := (∃ rest, v.phase = .use k rest) ∨ v.phase = .again k

/-- The object under the iterator was released, and the iteration went on. -/
def Overtaken (verdict : κ → Verdict) (v : View κ) (acts : List (Act κ)) : Prop :=
  ∃ before k rest, acts = before ++ .release k :: rest ∧ (run verdict v before).On k ∧
    .lock ∈ rest

theorem run_snoc (verdict : κ → Verdict) (v : View κ) (acts : List (Act κ)) (a : Act κ) :
    run verdict v (acts ++ [a]) = step verdict (run verdict v acts) a := by
  rw [run, List.foldl_append]
  rfl

/-! ## One step -/

omit [DecidableEq κ] in
theorem live_lockStep (verdict : κ → Verdict) (v : View κ) :
    (lockStep verdict v).live = v.live := by
  unfold lockStep
  split
  · rfl
  · rfl
  · split <;> rfl
  · rfl
  · rfl

omit [DecidableEq κ] in
/-- A lock fails where it matters if the object under the iterator has expired. -/
theorem null_lockStep (verdict : κ → Verdict) (v : View κ) :
    (lockStep verdict v).Null ↔ v.Null ∨ ∃ k, v.On k ∧ v.live k = false := by
  obtain ⟨live, phase, used⟩ := v
  cases phase with
  | test rest =>
    cases rest with
    | nil => simp [lockStep, View.Null, View.On]
    | cons k rest => by_cases hk : live k = true <;> simp [lockStep, View.Null, View.On, hk]
  | use k rest =>
    cases hk : live k with
    | true => cases hv : verdict k <;> simp [lockStep, View.Null, View.On, hk, hv]
    | false => simp [lockStep, View.Null, View.On, hk]
  | again k => cases hk : live k <;> simp [lockStep, View.Null, View.On, hk]
  | faulted => simp [lockStep, View.Null, View.On]
  | returned p => simp [lockStep, View.Null, View.On]
  | exhausted => simp [lockStep, View.Null, View.On]
  | left => simp [lockStep, View.Null, View.On]

omit [DecidableEq κ] in
/-- What the iterator comes to stand on was live when it was locked. -/
theorem live_of_on_lockStep {verdict : κ → Verdict} {v : View κ} {k : κ}
    (h : (lockStep verdict v).On k) : v.live k = true := by
  obtain ⟨live, phase, used⟩ := v
  cases phase with
  | test rest =>
    cases rest with
    | nil => simp [lockStep, View.On] at h
    | cons j rest =>
      by_cases hj : live j = true
      · simp only [lockStep, View.On, hj, if_true, Phase.use.injEq, reduceCtorEq, or_false] at h
        obtain ⟨_, rfl, -⟩ := h
        exact hj
      · simp [lockStep, View.On, hj] at h
  | use j rest =>
    cases hj : live j with
    | true =>
      cases hv : verdict j with
      | found =>
        simp only [lockStep, View.On, hj, hv, if_true, Phase.again.injEq, reduceCtorEq,
          exists_false, false_or] at h
        exact h ▸ hj
      | next => simp [lockStep, View.On, hj, hv] at h
      | leave => simp [lockStep, View.On, hj, hv] at h
    | false => simp [lockStep, View.On, hj] at h
  | again j => simp [lockStep, View.On] at h
  | faulted => simp [lockStep, View.On] at h
  | returned p => simp [lockStep, View.On] at h
  | exhausted => simp [lockStep, View.On] at h
  | left => simp [lockStep, View.On] at h

/-! ## The history of a view -/

/-- The object under the iterator was released, and there was no lock since. -/
def Dropped (verdict : κ → Verdict) (v : View κ) (acts : List (Act κ)) (k : κ) : Prop :=
  ∃ before rest, acts = before ++ .release k :: rest ∧ (run verdict v before).On k ∧ .lock ∉ rest

section

variable {verdict : κ → Verdict} {v : View κ} {acts : List (Act κ)} {j k : κ}

theorem overtaken_release :
    Overtaken verdict v (acts ++ [.release j]) ↔ Overtaken verdict v acts := by
  constructor
  · rintro ⟨before, k, rest, heq, hon, hlock⟩
    rcases Transition.split_snoc.mp heq with ⟨-, -, rfl⟩ | ⟨init, rfl, rfl⟩
    · cases hlock
    · exact ⟨before, k, init, rfl, hon, by simpa using hlock⟩
  · rintro ⟨before, k, rest, rfl, hon, hlock⟩
    exact ⟨before, k, rest ++ [.release j], by simp, hon, List.mem_append_left _ hlock⟩

theorem overtaken_lock : Overtaken verdict v (acts ++ [.lock]) ↔
    Overtaken verdict v acts ∨ ∃ k, Dropped verdict v acts k := by
  constructor
  · rintro ⟨before, k, rest, heq, hon, -⟩
    rcases Transition.split_snoc.mp heq with ⟨-, hact, -⟩ | ⟨init, rfl, -⟩
    · cases hact
    · by_cases hlock : .lock ∈ init
      · exact Or.inl ⟨before, k, init, rfl, hon, hlock⟩
      · exact Or.inr ⟨k, before, init, rfl, hon, hlock⟩
  · rintro (⟨before, k, rest, rfl, hon, -⟩ | ⟨k, before, rest, rfl, hon, -⟩)
    · exact ⟨before, k, rest ++ [.lock], by simp, hon, by simp⟩
    · exact ⟨before, k, rest ++ [.lock], by simp, hon, by simp⟩

theorem dropped_release : Dropped verdict v (acts ++ [.release j]) k ↔
    (j = k ∧ (run verdict v acts).On k) ∨ Dropped verdict v acts k := by
  constructor
  · rintro ⟨before, rest, heq, hon, hlock⟩
    rcases Transition.split_snoc.mp heq with ⟨rfl, hact, -⟩ | ⟨init, rfl, rfl⟩
    · cases hact
      exact Or.inl ⟨rfl, hon⟩
    · exact Or.inr ⟨before, init, rfl, hon, fun h => hlock (List.mem_append_left _ h)⟩
  · rintro (⟨rfl, hon⟩ | ⟨before, rest, rfl, hon, hlock⟩)
    · exact ⟨acts, [], rfl, hon, by simp⟩
    · exact ⟨before, rest ++ [.release j], by simp, hon, by simpa using hlock⟩

theorem not_dropped_lock : ¬ Dropped verdict v (acts ++ [.lock]) k := by
  rintro ⟨before, rest, heq, -, hlock⟩
  rcases Transition.split_snoc.mp heq with ⟨-, hact, -⟩ | ⟨init, -, rfl⟩
  · cases hact
  · exact hlock (by simp)

end

/-- What a view after some acts tells of them. -/
structure Told (verdict : κ → Verdict) (v : View κ) (acts : List (Act κ)) : Prop where
  null : (run verdict v acts).Null ↔ Overtaken verdict v acts
  dropped : ∀ k, (run verdict v acts).On k →
    ((run verdict v acts).live k = false ↔ Dropped verdict v acts k)
  on : ∀ k, Dropped verdict v acts k → (run verdict v acts).On k

section

variable {verdict : κ → Verdict} {v : View κ} {acts : List (Act κ)}

theorem told_lock (h : Told verdict v acts) : Told verdict v (acts ++ [.lock]) := by
  have hnext : run verdict v (acts ++ [.lock]) = lockStep verdict (run verdict v acts) :=
    run_snoc _ _ _ _
  refine ⟨?_, fun k hon => ?_, fun k hdropped => absurd hdropped not_dropped_lock⟩
  · rw [overtaken_lock, hnext, null_lockStep, h.null]
    apply or_congr_right
    constructor
    · rintro ⟨k, hon, hlive⟩
      exact ⟨k, (h.dropped k hon).mp hlive⟩
    · rintro ⟨k, hdropped⟩
      have hon := h.on k hdropped
      exact ⟨k, hon, (h.dropped k hon).mpr hdropped⟩
  · rw [hnext] at hon ⊢
    rw [live_lockStep, live_of_on_lockStep hon]
    exact ⟨fun hlive => (by cases hlive), fun hdropped => absurd hdropped not_dropped_lock⟩

theorem told_release (h : Told verdict v acts) (j : κ) :
    Told verdict v (acts ++ [.release j]) := by
  have hnext : run verdict v (acts ++ [.release j]) = { run verdict v acts with
      live := Function.update (run verdict v acts).live j false } := run_snoc _ _ _ _
  have hsame : ∀ k, (run verdict v (acts ++ [.release j])).On k ↔ (run verdict v acts).On k := by
    intro k
    rw [hnext]
    rfl
  refine ⟨?_, fun k hon => ?_, fun k hdropped => ?_⟩
  · rw [overtaken_release, ← h.null, hnext]
    rfl
  · have hold := (hsame k).mp hon
    rw [dropped_release, ← h.dropped k hold, hnext]
    by_cases hkj : k = j
    · subst hkj
      simp [hold]
    · simp [hkj, Ne.symm hkj]
  · rw [hsame]
    rcases dropped_release.mp hdropped with ⟨-, hon⟩ | hbefore
    · exact hon
    · exact h.on k hbefore

end

theorem told_run (verdict : κ → Verdict) (live : κ → Bool) (refs : List κ) (acts : List (Act κ)) :
    Told verdict (start live refs) acts := by
  induction acts using List.reverseRecOn with
  | nil =>
    constructor
    · simp [run, start, View.Null, Overtaken]
    · intro k hon
      simp [run, start, View.On] at hon
    · rintro k ⟨before, rest, heq, -⟩
      simp at heq
  | append_singleton acts a ih =>
    cases a with
    | lock => exact told_lock ih
    | release j => exact told_release ih j

/-- A null pointer is used or returned exactly if the object under the iterator
was released after the filter's test and the iteration went on. -/
theorem null_iff (verdict : κ → Verdict) (live : κ → Bool) (refs : List κ) (acts : List (Act κ)) :
    (run verdict (start live refs) acts).Null ↔ Overtaken verdict (start live refs) acts :=
  (told_run verdict live refs acts).null

/-! ## Undisturbed -/

/-- Where an iteration ends that nothing disturbs. -/
def ending (verdict : κ → Verdict) : List κ → Phase κ
  | [] => .exhausted
  | k :: rest =>
    match verdict k with
    | .next => ending verdict rest
    | .found => .returned (some k)
    | .leave => .left

/-- The objects that it uses. -/
def seen (verdict : κ → Verdict) : List κ → List κ
  | [] => []
  | k :: rest => k :: if verdict k = .next then seen verdict rest else []

theorem run_cons (verdict : κ → Verdict) (v : View κ) (a : Act κ) (acts : List (Act κ)) :
    run verdict v (a :: acts) = run verdict (step verdict v a) acts := rfl

/-- With enough locks and no release the view is that of the live objects. -/
theorem run_alone (verdict : κ → Verdict) (live : κ → Bool) (refs used : List κ) :
    ∃ n, run verdict ⟨live, .test refs, used⟩ (List.replicate n .lock) =
      ⟨live, ending verdict (refs.filter live), used ++ seen verdict (refs.filter live)⟩ := by
  induction refs generalizing used with
  | nil => exact ⟨1, by simp [run, step, lockStep, ending, seen]⟩
  | cons k refs ih =>
    cases hk : live k with
    | false =>
      obtain ⟨n, hn⟩ := ih used
      refine ⟨n + 1, ?_⟩
      rw [List.replicate_succ, run_cons, List.filter_cons_of_neg (by simp [hk]), ← hn]
      simp [step, lockStep, hk]
    | true =>
      rw [List.filter_cons_of_pos hk]
      cases hv : verdict k with
      | next =>
        obtain ⟨n, hn⟩ := ih (used ++ [k])
        refine ⟨n + 2, ?_⟩
        rw [List.replicate_succ, List.replicate_succ, run_cons, run_cons]
        simp only [step, lockStep, hk, if_true, hv]
        rw [hn]
        simp [ending, seen, hv]
      | found =>
        exact ⟨3, by simp [run, List.replicate, step, lockStep, hk, hv, ending, seen]⟩
      | leave =>
        exact ⟨2, by simp [run, List.replicate, step, lockStep, hk, hv, ending, seen]⟩

end WeakView
