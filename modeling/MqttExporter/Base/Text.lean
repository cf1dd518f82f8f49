import Mathlib.Data.List.DropRight
import Mathlib.Data.List.Infix

/-!
# Separators and lines

* `split_first`, `split_last`: where a separator cuts a text;
* `lastField`: what follows the last separator;
* `lines`: the lines of a text, empty ones left out.
-/

namespace Text

variable {α : Type}

/-- The first separator cuts a text in one way. -/
theorem split_first {sep : α} {a b x y : List α} (ha : sep ∉ a) (hb : sep ∉ b)
    (h : a ++ sep :: x = b ++ sep :: y) : a = b ∧ x = y := by
  induction a generalizing b with
  | nil =>
    cases b with
    | nil => exact ⟨rfl, (List.cons.inj h).2⟩
    | cons c b => exact absurd ((List.cons.inj h).1 ▸ List.mem_cons_self) hb
  | cons c a ih =>
    cases b with
    | nil => exact absurd ((List.cons.inj h).1 ▸ List.mem_cons_self) ha
    | cons d b =>
      obtain ⟨rfl, htail⟩ := List.cons.inj h
      obtain ⟨rfl, hxy⟩ := ih (fun hm => ha (List.mem_cons_of_mem c hm))
        (fun hm => hb (List.mem_cons_of_mem c hm)) htail
      exact ⟨rfl, hxy⟩

/-- So does the last. -/
theorem split_last {sep : α} {a b x y : List α} (hx : sep ∉ x) (hy : sep ∉ y)
    (h : a ++ sep :: x = b ++ sep :: y) : a = b ∧ x = y := by
  have hr := congrArg List.reverse h
  simp only [List.reverse_append, List.reverse_cons, List.append_assoc, List.singleton_append]
    at hr
  obtain ⟨hxy, hab⟩ := split_first (fun hm => hx (List.mem_reverse.mp hm))
    (fun hm => hy (List.mem_reverse.mp hm)) hr
  exact ⟨List.reverse_injective hab, List.reverse_injective hxy⟩

variable [DecidableEq α]

def lastField (sep : α) (s : List α) : List α := s.rtakeWhile (· ≠ sep)

theorem lastField_append {sep : α} {x : List α} (hx : sep ∉ x) (a : List α) :
    lastField sep (a ++ sep :: x) = x := by
  induction x using List.reverseRecOn with
  | nil => exact List.rtakeWhile_concat_neg _ _ sep (by simp)
  | append_singleton x c ih =>
    have hc : c ≠ sep := fun h => hx (by simp [h])
    have ih := ih fun hm => hx (List.mem_append_left _ hm)
    rw [lastField, ← List.cons_append, ← List.append_assoc,
      List.rtakeWhile_concat_pos _ _ c (by simp [hc])]
    exact congrArg (· ++ [c]) ih

/-! ## Lines -/

/-- The lines that are not empty, for the line break `sep`. -/
def lines (sep : α) (s : List α) : List (List α) := (s.splitOn sep).filter (· ≠ [])

theorem lines_nil (sep : α) : lines sep [] = [] := by simp [lines]

theorem lines_append (sep : α) (x y : List α) :
    lines sep (x ++ sep :: y) = lines sep x ++ lines sep y := by
  rw [lines, List.splitOn_append_cons_self, List.filter_append]
  rfl

theorem lines_break (sep : α) (s : List α) : lines sep (sep :: s) = lines sep s := by
  rw [← List.nil_append (sep :: s), lines_append, lines_nil, List.nil_append]

theorem lines_line {sep : α} {x : List α} (hx : sep ∉ x) (hne : x ≠ []) : lines sep x = [x] := by
  rw [lines, List.splitOn_eq_singleton hx]
  simp [hne]

theorem not_mem_of_mem_splitOn {sep : α} (s : List α) : ∀ l ∈ s.splitOn sep, sep ∉ l := by
  induction s with
  | nil => simp
  | cons c s ih =>
    rw [List.splitOn_cons_eq_if_modifyHead]
    split
    · intro l hl
      rcases List.mem_cons.mp hl with rfl | hl
      · exact List.not_mem_nil
      · exact ih l hl
    · rename_i hc
      obtain ⟨x, xs, hx⟩ := List.exists_cons_of_ne_nil (List.splitOn_ne_nil sep s)
      rw [hx] at ih
      rw [hx, List.modifyHead_cons]
      intro l hl
      rcases List.mem_cons.mp hl with rfl | hl
      · intro hm
        rcases List.mem_cons.mp hm with rfl | hm
        · exact hc (beq_self_eq_true _)
        · exact ih x List.mem_cons_self hm
      · exact ih l (List.mem_cons_of_mem x hl)

theorem not_mem_of_mem_lines {sep : α} {s l : List α} (h : l ∈ lines sep s) : sep ∉ l :=
  not_mem_of_mem_splitOn s l (List.mem_filter.mp h).1

/-- Lines written one after the other come back. -/
theorem lines_flatMap {β : Type} {sep : α} {f : β → List α} {xs : List β}
    (h : ∀ x ∈ xs, sep ∉ f x ∧ f x ≠ []) (rest : List α) :
    lines sep (xs.flatMap (fun x => f x ++ [sep]) ++ rest) = xs.map f ++ lines sep rest := by
  induction xs with
  | nil => rfl
  | cons x xs ih =>
    obtain ⟨hx, hne⟩ := h x List.mem_cons_self
    rw [List.flatMap_cons, List.append_assoc, List.append_assoc, List.singleton_append,
      lines_append, lines_line hx hne, ih fun y hy => h y (List.mem_cons_of_mem x hy),
      List.map_cons, List.singleton_append, List.cons_append]

end Text
