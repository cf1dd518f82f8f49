import MqttExporter.Base.KeyedRun

/-!
# Interleavings of two programs

Two threads, named by a boolean, each take the steps of a program in order. A
trace lists the steps of both as they happen.

* `serial_or_overlap`: either one thread runs after the other, or one starts
  while the other is at work.
-/

namespace Interleaving

variable {α : Type}

/-- The steps of one thread, in order. -/
def thread (c : Bool) (trace : List (Bool × α)) : List α :=
  Keyed.project Prod.fst Prod.snd c trace

def IsInterleaving (program : Bool → List α) (trace : List (Bool × α)) : Prop :=
  ∀ c, thread c trace = program c

/-- A thread that runs alone. -/
def alone (c : Bool) (steps : List α) : List (Bool × α) := steps.map fun a => (c, a)

def Serial (program : Bool → List α) (trace : List (Bool × α)) : Prop :=
  ∃ c, trace = alone c (program c) ++ alone (!c) (program !c)

@[simp] theorem thread_nil (c : Bool) : thread c ([] : List (Bool × α)) = [] := rfl

@[simp] theorem thread_cons_self (c : Bool) (a : α) (trace : List (Bool × α)) :
    thread c ((c, a) :: trace) = a :: thread c trace :=
  Keyed.project_cons_self Prod.fst Prod.snd (c, a) trace

theorem thread_cons_ne {c d : Bool} (h : d ≠ c) (a : α) (trace : List (Bool × α)) :
    thread c ((d, a) :: trace) = thread c trace :=
  Keyed.project_cons_ne h Prod.snd trace

@[simp] theorem thread_append (c : Bool) (trace trace' : List (Bool × α)) :
    thread c (trace ++ trace') = thread c trace ++ thread c trace' := by
  simp [thread, Keyed.project]

theorem mem_thread {c : Bool} {a : α} {trace : List (Bool × α)} :
    a ∈ thread c trace ↔ (c, a) ∈ trace := by
  simp [thread, Keyed.project]

/-- While the other thread is idle, a trace is the steps of one thread. -/
theorem eq_alone {c : Bool} {trace : List (Bool × α)} (h : thread (!c) trace = []) :
    trace = alone c (thread c trace) := by
  induction trace with
  | nil => rfl
  | cons x xs ih =>
    obtain ⟨d, a⟩ := x
    by_cases hd : d = c
    · subst hd
      rw [thread_cons_ne (by simp)] at h
      rw [thread_cons_self, alone, List.map_cons, ← alone, ← ih h]
    · rw [Bool.eq_not.mpr hd, thread_cons_self] at h
      cases h

theorem thread_alone_self (c : Bool) (steps : List α) : thread c (alone c steps) = steps := by
  induction steps with
  | nil => rfl
  | cons a as ih => rw [alone, List.map_cons, thread_cons_self, ← alone, ih]

theorem thread_alone_other (c : Bool) (steps : List α) : thread (!c) (alone c steps) = [] := by
  induction steps with
  | nil => rfl
  | cons a as ih => rw [alone, List.map_cons, thread_cons_ne (by simp), ← alone, ih]

/-- The trace up to the first step of a thread. -/
theorem first_step {c : Bool} {trace : List (Bool × α)} (h : thread c trace ≠ []) :
    ∃ steps first post, trace = alone (!c) steps ++ (c, first) :: post := by
  induction trace with
  | nil => exact absurd rfl h
  | cons x xs ih =>
    obtain ⟨d, a⟩ := x
    by_cases hd : d = c
    · subst hd
      exact ⟨[], a, xs, rfl⟩
    · rw [thread_cons_ne hd] at h
      obtain ⟨steps, first, post, heq⟩ := ih h
      exact ⟨a :: steps, first, post, by rw [heq, Bool.eq_not.mpr hd]; rfl⟩

/-- A step of a thread splits the trace as it splits the program. -/
theorem split_step {c : Bool} {a : α} {before after : List α} {trace : List (Bool × α)}
    (h : thread c trace = before ++ a :: after) :
    ∃ pre post, trace = pre ++ (c, a) :: post ∧ thread c pre = before ∧ thread c post = after := by
  induction trace generalizing before with
  | nil => simp at h
  | cons x xs ih =>
    obtain ⟨d, b⟩ := x
    by_cases hd : d = c
    · subst hd
      rw [thread_cons_self] at h
      cases before with
      | nil =>
        obtain ⟨rfl, hrest⟩ := List.cons.inj h
        exact ⟨[], xs, rfl, rfl, hrest⟩
      | cons b' before =>
        obtain ⟨rfl, hrest⟩ := List.cons.inj h
        obtain ⟨pre, post, rfl, hpre, hpost⟩ := ih hrest
        exact ⟨(d, b) :: pre, post, rfl, by rw [thread_cons_self, hpre], hpost⟩
    · rw [thread_cons_ne hd] at h
      obtain ⟨pre, post, rfl, hpre, hpost⟩ := ih h
      exact ⟨(d, b) :: pre, post, rfl, by rw [thread_cons_ne hd, hpre], hpost⟩

/-- One thread runs after the other, or starts while the other is at work: in
between its first step and its last. -/
theorem serial_or_overlap {program : Bool → List α} (hne : ∀ c, program c ≠ [])
    {trace : List (Bool × α)} (h : IsInterleaving program trace) :
    Serial program trace ∨ ∃ c done first post,
      trace = alone c done ++ (!c, first) :: post ∧ done ≠ [] ∧ thread c post ≠ [] := by
  -- `c` is the thread of the first step
  obtain ⟨c, hc⟩ : ∃ c, ∃ a xs, trace = (c, a) :: xs := by
    cases trace with
    | nil => exact absurd (h true).symm (hne true)
    | cons x xs => exact ⟨x.1, x.2, xs, rfl⟩
  have hother : thread (!c) trace ≠ [] := by
    rw [h]
    exact hne _
  obtain ⟨done, first, post, heq⟩ := first_step hother
  rw [Bool.not_not] at heq
  by_cases hidle : thread c post = []
  · left
    refine ⟨c, ?_⟩
    have hown : program c = done := by
      rw [← h c, heq, thread_append, thread_alone_self, thread_cons_ne (by simp), hidle,
        List.append_nil]
    have hstart : program (!c) = first :: thread (!c) post := by
      rw [← h (!c), heq, thread_append, thread_alone_other, thread_cons_self, List.nil_append]
    have hpost : post = alone (!c) (thread (!c) post) := eq_alone (by rwa [Bool.not_not])
    rw [hown, hstart, heq]
    congr 1
    rw [alone, List.map_cons, ← alone, ← hpost]
  · right
    refine ⟨c, done, first, post, heq, ?_, hidle⟩
    rintro rfl
    obtain ⟨a, xs, hcons⟩ := hc
    rw [hcons] at heq
    simp [alone] at heq

end Interleaving
