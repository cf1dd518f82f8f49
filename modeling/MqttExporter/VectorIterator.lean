import MqttExporter.MetricFamily

/-!
# Iterating a family

`VectorIterator` carries its own copy of what it iterates, so `begin()` and
`end()` of a family belong to two snapshots. Iterators that are past their ends
are equal, whatever they carry, and that ends the loop.

* `walk_snapshot`: the loop ends and visits the first snapshot, whatever the
  second is;
* `visited_eq_walk`: what `stringify` visits.
-/

namespace MqttExporter

structure VectorIterator (α : Type) where
  vec : List α
  index : Nat
  deriving DecidableEq

namespace VectorIterator

variable {α : Type}

def isValid (it : VectorIterator α) : Bool := it.index < it.vec.length

/-- `operator==`; `same` compares two elements. -/
def equals (same : α → α → Bool) (it other : VectorIterator α) : Bool :=
  (!it.isValid && !other.isValid) ||
    (it.index == other.index && it.vec.isEqv other.vec same)

/-- `operator++`. -/
def next (it : VectorIterator α) : VectorIterator α := { it with index := it.index + 1 }

/-- `operator*`, with `none` for an index out of range. -/
def deref (it : VectorIterator α) : Option α := it.vec[it.index]?

/-- A range-based `for` loop; `none` also when the fuel ends before the loop. -/
def walk (same : α → α → Bool) : Nat → VectorIterator α → VectorIterator α → Option (List α)
  | 0, _, _ => none
  | fuel + 1, it, last =>
    if it.equals same last then some []
    else do
      let x ← it.deref
      let rest ← walk same fuel it.next last
      return x :: rest

theorem length_of_isEqv {same : α → α → Bool} {xs ys : List α} (h : xs.isEqv ys same = true) :
    xs.length = ys.length := by
  induction xs generalizing ys with
  | nil =>
    cases ys with
    | nil => rfl
    | cons y ys => cases h
  | cons x xs ih =>
    cases ys with
    | nil => cases h
    | cons y ys =>
      rw [List.isEqv_cons_cons, Bool.and_eq_true] at h
      rw [List.length_cons, List.length_cons, ih h.2]

/-- An iterator reaches an end exactly when it is past its own. -/
theorem equals_end (same : α → α → Bool) (it : VectorIterator α) (vec : List α) :
    it.equals same ⟨vec, vec.length⟩ = !it.isValid := by
  have hend : (⟨vec, vec.length⟩ : VectorIterator α).isValid = false := by
    simp [isValid]
  unfold equals
  rw [hend]
  cases hit : it.isValid with
  | false => rfl
  | true =>
    -- vectors that compare equal are of one length
    simp only [Bool.not_true, Bool.not_false, Bool.false_and, Bool.false_or, Bool.and_eq_false_iff]
    by_cases hindex : it.index = vec.length
    · right
      cases heqv : it.vec.isEqv vec same with
      | false => rfl
      | true =>
        have hlen := length_of_isEqv heqv
        simp only [isValid, decide_eq_true_eq] at hit
        omega
    · left
      simpa using hindex

theorem walk_from (same : α → α → Bool) {vec other : List α} {fuel i : Nat}
    (h : vec.length < fuel + i) (hi : i ≤ vec.length) :
    walk same fuel ⟨vec, i⟩ ⟨other, other.length⟩ = some (vec.drop i) := by
  induction fuel generalizing i with
  | zero => omega
  | succ fuel ih =>
    rw [walk, equals_end]
    by_cases hlt : i < vec.length
    · have hvalid : (⟨vec, i⟩ : VectorIterator α).isValid = true := by
        simpa [isValid] using hlt
      have hrest := @ih (i + 1) (by omega) hlt
      rw [hvalid]
      simp only [Bool.not_true, Bool.false_eq_true, if_false, deref, next,
        List.getElem?_eq_getElem hlt, hrest]
      rw [List.drop_eq_getElem_cons hlt]
      rfl
    · have hvalid : (⟨vec, i⟩ : VectorIterator α).isValid = false := by
        simpa [isValid] using hlt
      have hnil : vec.drop i = [] := List.drop_eq_nil_iff.mpr (not_lt.mp hlt)
      rw [hvalid, hnil]
      rfl

/-- The loop visits the elements of its own vector, whatever that of the end is. -/
theorem walk_eq (same : α → α → Bool) (vec other : List α) (more : Nat) :
    walk same (vec.length + 1 + more) ⟨vec, 0⟩ ⟨other, other.length⟩ = some vec := by
  rw [walk_from same (by omega) (Nat.zero_le _), List.drop_zero]

end VectorIterator

namespace MetricFamily

/-- `MetricFamily::begin`. -/
def beginIterator (f : MetricFamily) : VectorIterator (Option IMetric) := ⟨f.begin, 0⟩

/-- `MetricFamily::end`. -/
def endIterator (f : MetricFamily) : VectorIterator (Option IMetric) := ⟨f.begin, f.begin.length⟩

/-- The loop over a family ends and visits the metrics stored when `begin()` was
called, in the order of their label sets, whatever is stored when `end()` is. -/
theorem walk_snapshot (same : Option IMetric → Option IMetric → Bool) (s₁ s₂ : MetricFamily) :
    ∃ stored : List (LabelSet × MetricItem),
      (∀ labels item, s₁.metrics.find? labels = some item ↔ (labels, item) ∈ stored) ∧
      stored.Pairwise (fun a b => a.1 < b.1) ∧
      ∀ more, VectorIterator.walk same (stored.length + 1 + more) s₁.beginIterator
        s₂.endIterator = some (stored.map fun e => e.2.metric) := by
  refine ⟨s₁.metrics.entries, fun labels item => s₁.metrics.mem_entries_iff.symm,
    s₁.metrics.sorted, fun more => ?_⟩
  have hwalk := VectorIterator.walk_eq same s₁.begin s₂.begin more
  rwa [begin, List.length_map] at hwalk

/-- `stringify` dereferences the metrics that its loop visits. -/
theorem visited_eq_walk (same : Option IMetric → Option IMetric → Bool) (s₁ s₂ : MetricFamily) :
    s₁.visited = (VectorIterator.walk same (s₁.begin.length + 1) s₁.beginIterator
      s₂.endIterator).bind fun metrics => metrics.mapM id := by
  have hwalk := VectorIterator.walk_eq same s₁.begin s₂.begin 0
  rw [beginIterator, endIterator, hwalk]
  rfl

end MetricFamily

end MqttExporter
