import Mathlib.Data.List.Sort
import Mathlib.Logic.Function.Iterate

/-!
# Loops that leave early

A loop that changes the elements of a list in turn and leaves at the first one
that fails a test.

* `foldl_mapWhile_cons`: what one such loop after another makes of the first
  element and of those behind it;
* `foldl_mapWhile`: on a list where an element passes only if those before it do,
  each element is changed as often as its tests passed;
* `foldl_mapWhile_insert`: when more turns of the loop, on a list in any order,
  leave the elements as they are;
* `pairwise_mergeSort`: sorting needs an order on the sorted elements only.
-/

namespace EarlyExit

variable {α β : Type}

def mapWhile (p : α → Bool) (f : α → α) : List α → List α
  | [] => []
  | a :: as => if p a then f a :: mapWhile p f as else a :: as

theorem foldl_mapWhile_nil (p : β → α → Bool) (f : α → α) (xs : List β) :
    xs.foldl (fun l x => mapWhile (p x) f l) [] = [] := by
  induction xs with
  | nil => rfl
  | cons x xs ih => exact ih

/-- The first element sees every turn, the others see those that got past it. -/
theorem foldl_mapWhile_cons {p : β → α → Bool} {f : α → α} (frame : ∀ x a, p x (f a) = p x a)
    (a : α) (l : List α) (xs : List β) :
    xs.foldl (fun l x => mapWhile (p x) f l) (a :: l) =
      f^[xs.countP (p · a)] a ::
        (xs.filter (p · a)).foldl (fun l x => mapWhile (p x) f l) l := by
  induction xs generalizing a l with
  | nil => rfl
  | cons x xs ih =>
    rw [List.foldl_cons, mapWhile]
    by_cases hp : p x a
    · rw [if_pos hp, ih]
      simp only [frame, List.countP_cons, List.filter_cons, hp, if_true, List.foldl_cons,
        Function.iterate_succ_apply]
    · rw [if_neg hp, ih]
      simp only [List.countP_cons, List.filter_cons, hp, if_false, Bool.false_eq_true, Nat.add_zero]

/-- A change that the tests do not see is made as often as they pass. -/
theorem foldl_mapWhile {p : β → α → Bool} {f : α → α} (frame : ∀ x a, p x (f a) = p x a)
    {l : List α} (order : l.Pairwise fun a b => ∀ x, p x b = true → p x a = true)
    (xs : List β) :
    xs.foldl (fun l x => mapWhile (p x) f l) l =
      l.map fun a => f^[xs.countP fun x => p x a] a := by
  induction l generalizing xs with
  | nil => exact foldl_mapWhile_nil p f xs
  | cons a l ih =>
    obtain ⟨hfirst, hrest⟩ := List.pairwise_cons.mp order
    rw [foldl_mapWhile_cons frame, ih hrest, List.map_cons]
    congr 1
    apply List.map_congr_left
    intro b hb
    -- what passes `b` has passed `a`
    have hboth : ∀ x, (p x b && p x a) = p x b := by
      intro x
      cases hx : p x b with
      | false => rfl
      | true => rw [hfirst b hb x hx, Bool.and_self]
    rw [List.countP_filter]
    simp only [hboth]

/-! ## Turns put in between -/

/-- The loop on `x` gets through these elements. -/
def passes (p : β → α → Bool) (x : β) (l : List α) : Bool := l.all (p x)

theorem passes_cons (p : β → α → Bool) (x : β) (a : α) (l : List α) :
    passes p x (a :: l) = (p x a && passes p x l) := List.all_cons

theorem foldl_mapWhile_perm {p : β → α → Bool} {f : α → α} (frame : ∀ x a, p x (f a) = p x a)
    {xs ys : List β} (h : xs.Perm ys) (l : List α) :
    xs.foldl (fun l x => mapWhile (p x) f l) l = ys.foldl (fun l x => mapWhile (p x) f l) l := by
  induction l generalizing xs ys with
  | nil => rw [foldl_mapWhile_nil, foldl_mapWhile_nil]
  | cons a l ih =>
    rw [foldl_mapWhile_cons frame, foldl_mapWhile_cons frame, h.countP_eq, ih (h.filter _)]

/-- A bound on the turns that get through each prefix, element by element. -/
theorem forall_prefix_cons {p : β → α → Bool} {x : β} {a : α} (hx : p x a = true) {N : ℕ}
    {l : List α} {xs : List β} :
    (∀ pre, pre <+: a :: l → pre ≠ [] → passes p x pre = true →
        N ≤ xs.countP fun y => passes p y pre) ↔
      N ≤ xs.countP (p · a) ∧ ∀ pre, pre <+: l → pre ≠ [] → passes p x pre = true →
        N ≤ (xs.filter (p · a)).countP fun y => passes p y pre := by
  have hcons : ∀ pre, (xs.filter (p · a)).countP (fun y => passes p y pre) =
      xs.countP fun y => passes p y (a :: pre) := by
    intro pre
    rw [List.countP_filter]
    simp only [passes_cons, Bool.and_comm]
  have hone : ∀ y, passes p y [a] = p y a := by
    intro y
    simp [passes]
  constructor
  · intro h
    constructor
    · have hfirst := h [a] (List.prefix_cons_iff.mpr (Or.inr ⟨[], rfl, List.nil_prefix⟩)) (by simp)
        ((hone x).trans hx)
      simpa only [hone] using hfirst
    · intro pre hpre _ hpass
      rw [hcons]
      exact h (a :: pre) (List.prefix_cons_iff.mpr (Or.inr ⟨pre, rfl, hpre⟩)) (by simp)
        (by rw [passes_cons, hx, hpass, Bool.and_self])
  · rintro ⟨hfirst, hrest⟩ pre hpre hne hpass
    obtain rfl | ⟨pre, rfl, hshorter⟩ := List.prefix_cons_iff.mp hpre
    · exact absurd rfl hne
    · by_cases hnil : pre = []
      · subst hnil
        simpa only [hone] using hfirst
      · rw [passes_cons, hx, Bool.true_and] at hpass
        rw [← hcons]
        exact hrest pre hshorter hnil hpass

/-- `f` makes a difference `N` times. Then more turns on `x` make none exactly where
every element they get to has been changed that often. -/
theorem foldl_mapWhile_insert {p : β → α → Bool} {f : α → α} (frame : ∀ x a, p x (f a) = p x a)
    {N : ℕ} {l : List α} (limit : ∀ a ∈ l, ∀ k m, f^[k + m] a = f^[k] a ↔ m = 0 ∨ N ≤ k)
    (xs : List β) (x : β) (m : ℕ) :
    (xs ++ List.replicate m x).foldl (fun l x => mapWhile (p x) f l) l =
        xs.foldl (fun l x => mapWhile (p x) f l) l ↔
      m = 0 ∨ ∀ pre, pre <+: l → pre ≠ [] → passes p x pre = true →
        N ≤ xs.countP fun y => passes p y pre := by
  induction l generalizing xs with
  | nil =>
    rw [foldl_mapWhile_nil, foldl_mapWhile_nil]
    refine iff_of_true rfl (Or.inr fun pre hpre hne => ?_)
    exact absurd (List.prefix_nil.mp hpre) hne
  | cons a l ih =>
    have ih := ih (fun b hb => limit b (List.mem_cons_of_mem a hb)) (xs.filter (p · a))
    rw [foldl_mapWhile_cons frame, foldl_mapWhile_cons frame, List.filter_append,
      List.countP_append, List.countP_replicate, List.filter_replicate]
    by_cases hx : p x a
    · rw [if_pos hx, if_pos hx, List.cons.injEq, limit a List.mem_cons_self, ih,
        forall_prefix_cons hx, or_and_left]
    · -- the turns on `x` leave at `a`, so no prefix is passed
      rw [if_neg hx, if_neg hx, Nat.add_zero, List.append_nil]
      refine iff_of_true rfl (Or.inr fun pre hpre hne hpass => ?_)
      obtain rfl | ⟨pre, rfl, -⟩ := List.prefix_cons_iff.mp hpre
      · exact absurd rfl hne
      · rw [passes_cons, Bool.and_eq_true] at hpass
        exact absurd hpass.1 hx

/-- The elements have a rank that the comparison goes by. -/
theorem pairwise_mergeSort {γ : Type} [LinearOrder γ] {le : α → α → Bool} (rank : α → γ)
    {l : List α} (h : ∀ a ∈ l, ∀ b ∈ l, le a b = decide (rank b ≤ rank a)) :
    (l.mergeSort le).Pairwise fun a b => rank b ≤ rank a := by
  have hmap := List.map_mergeSort (r := le) (s := fun a b => decide (rank b ≤ rank a)) (f := id) h
  rw [List.map_id, List.map_id] at hmap
  have hsort : (l.mergeSort fun a b => decide (rank b ≤ rank a)).Pairwise
      fun a b => decide (rank b ≤ rank a) := by
    apply List.pairwise_mergeSort
    · intro a b c hab hbc
      exact decide_eq_true ((of_decide_eq_true hbc).trans (of_decide_eq_true hab))
    · intro a b
      simpa using le_total (rank b) (rank a)
  rw [hmap]
  exact hsort.imp of_decide_eq_true

end EarlyExit
