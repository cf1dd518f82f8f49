import Mathlib.Data.List.Induction
import Mathlib.Order.Lattice

/-!
# Ordered multimaps

A multimap keeps its entries sorted by key, and those of one key in the order
in which they were put in. So a search from the front finds, of all entries with
a property, the one with the least key that was put in first (`find?_ofList`).
-/

structure OrderedMultimap (κ α : Type) [LinearOrder κ] where
  entries : List (κ × α)
  sorted : entries.Pairwise fun a b => a.1 ≤ b.1

namespace OrderedMultimap

variable {κ α : Type} [LinearOrder κ]

def empty : OrderedMultimap κ α := ⟨[], List.Pairwise.nil⟩

/-- The new entry goes behind those with the same key. -/
def insertBehind (k : κ) (a : α) : List (κ × α) → List (κ × α)
  | [] => [(k, a)]
  | e :: es => if k < e.1 then (k, a) :: e :: es else e :: insertBehind k a es

theorem mem_insertBehind {k : κ} {a : α} {e : κ × α} {es : List (κ × α)} :
    e ∈ insertBehind k a es ↔ e = (k, a) ∨ e ∈ es := by
  induction es with
  | nil => simp [insertBehind]
  | cons x es ih =>
    unfold insertBehind
    split
    · rw [List.mem_cons]
    · rw [List.mem_cons, List.mem_cons, ih]
      exact or_left_comm

theorem insertBehind_sorted {k : κ} {a : α} {es : List (κ × α)}
    (h : es.Pairwise fun a b => a.1 ≤ b.1) :
    (insertBehind k a es).Pairwise fun a b => a.1 ≤ b.1 := by
  induction es with
  | nil => exact List.pairwise_singleton _ _
  | cons x es ih =>
    obtain ⟨hx, hes⟩ := List.pairwise_cons.mp h
    unfold insertBehind
    split
    · rename_i hk
      refine List.pairwise_cons.mpr ⟨fun y hy => ?_, h⟩
      rcases List.mem_cons.mp hy with rfl | hy
      · exact hk.le
      · exact hk.le.trans (hx y hy)
    · rename_i hk
      refine List.pairwise_cons.mpr ⟨fun y hy => ?_, ih hes⟩
      rcases mem_insertBehind.mp hy with rfl | hy
      · exact not_lt.mp hk
      · exact hx y hy

def emplace (m : OrderedMultimap κ α) (k : κ) (a : α) : OrderedMultimap κ α :=
  ⟨insertBehind k a m.entries, insertBehind_sorted m.sorted⟩

/-- What is put in, one entry after the other. -/
def ofList (es : List (κ × α)) : OrderedMultimap κ α :=
  es.foldl (fun m e => m.emplace e.1 e.2) empty

theorem ofList_snoc (es : List (κ × α)) (e : κ × α) :
    ofList (es ++ [e]) = (ofList es).emplace e.1 e.2 := by
  rw [ofList, List.foldl_append]
  rfl

/-! ## Searching -/

/-- A new entry without the property changes nothing, one with it is found
unless there is one with a key that is not greater. -/
theorem find?_insertBehind {p : κ × α → Bool} {k : κ} {a : α} {es : List (κ × α)}
    (h : es.Pairwise fun a b => a.1 ≤ b.1) : (insertBehind k a es).find? p =
      if p (k, a) then some (((es.find? p).filter fun e => e.1 ≤ k).getD (k, a))
      else es.find? p := by
  induction es with
  | nil =>
    unfold insertBehind
    cases hp : p (k, a) <;> simp [hp]
  | cons x es ih =>
    obtain ⟨hx, hes⟩ := List.pairwise_cons.mp h
    unfold insertBehind
    by_cases hk : k < x.1
    · rw [if_pos hk]
      cases hp : p (k, a) with
      | false => rw [List.find?_cons_of_neg (by simp [hp]), if_neg (by simp)]
      | true =>
        -- all that could be found before has a greater key
        have hnone : ((x :: es).find? p).filter (fun e => e.1 ≤ k) = none := by
          rw [Option.filter_eq_none_iff]
          intro e he
          have hmem := List.mem_of_find?_eq_some he
          have hlt : k < e.1 := by
            rcases List.mem_cons.mp hmem with rfl | hmem
            · exact hk
            · exact hk.trans_le (hx e hmem)
          simpa using hlt
        rw [List.find?_cons_of_pos hp, hnone]
        simp
    · rw [if_neg hk]
      cases hpx : p x with
      | false =>
        rw [List.find?_cons_of_neg (by simp [hpx]), List.find?_cons_of_neg (by simp [hpx]), ih hes]
      | true =>
        rw [List.find?_cons_of_pos hpx, List.find?_cons_of_pos hpx]
        have hle : x.1 ≤ k := not_lt.mp hk
        simp [Option.filter_some, hle]

/-- Of the entries with the property this one has the least key, and of those
with its key it was put in first. -/
structure IsFirst (p : κ × α → Bool) (es : List (κ × α)) (i : ℕ) (e : κ × α) : Prop where
  there : es[i]? = some e
  holds : p e = true
  least : ∀ j e', es[j]? = some e' → p e' = true → e.1 < e'.1 ∨ (e.1 = e'.1 ∧ i ≤ j)

theorem isFirst_kept {p : κ × α → Bool} {es : List (κ × α)} {i : ℕ} {e x : κ × α}
    (h : IsFirst p es i e) (hx : p x = true → e.1 ≤ x.1) : IsFirst p (es ++ [x]) i e := by
  have hi := (List.getElem?_eq_some_iff.mp h.there).1
  refine ⟨by rw [List.getElem?_append_left hi, h.there], h.holds, fun j e' he' hp => ?_⟩
  by_cases hj : j < es.length
  · rw [List.getElem?_append_left hj] at he'
    exact h.least j e' he' hp
  · rw [List.getElem?_append_right (by omega)] at he'
    obtain rfl := List.mem_singleton.mp (List.mem_of_getElem? he')
    rcases (hx hp).lt_or_eq with hlt | heq
    · exact Or.inl hlt
    · exact Or.inr ⟨heq, by omega⟩

theorem isFirst_new {p : κ × α → Bool} {es : List (κ × α)} {x : κ × α} (hx : p x = true)
    (h : ∀ e ∈ es, p e = true → x.1 < e.1) : IsFirst p (es ++ [x]) es.length x := by
  refine ⟨by simp, hx, fun j e' he' hp => ?_⟩
  by_cases hj : j < es.length
  · rw [List.getElem?_append_left hj] at he'
    exact Or.inl (h e' (List.mem_of_getElem? he') hp)
  · rw [List.getElem?_append_right (by omega)] at he'
    obtain rfl := List.mem_singleton.mp (List.mem_of_getElem? he')
    exact Or.inr ⟨rfl, by omega⟩

theorem find?_ofList (p : κ × α → Bool) (es : List (κ × α)) :
    (∃ i e, (ofList es).entries.find? p = some e ∧ IsFirst p es i e) ∨
      ((ofList es).entries.find? p = none ∧ ∀ e ∈ es, p e = false) := by
  induction es using List.reverseRecOn with
  | nil => exact Or.inr ⟨rfl, fun e he => by cases he⟩
  | append_singleton es x ih =>
    rw [ofList_snoc, emplace, find?_insertBehind (ofList es).sorted]
    cases hp : p (x.1, x.2) with
    | false =>
      rcases ih with ⟨i, e, hfind, hfirst⟩ | ⟨hfind, hnone⟩
      · exact Or.inl ⟨i, e, by simpa using hfind, isFirst_kept hfirst (by simp [hp])⟩
      · refine Or.inr ⟨by simpa using hfind, fun e he => ?_⟩
        rcases List.mem_append.mp he with he | he
        · exact hnone e he
        · rw [List.mem_singleton.mp he]
          exact hp
    | true =>
      rcases ih with ⟨i, e, hfind, hfirst⟩ | ⟨hfind, hnone⟩
      · by_cases hle : e.1 ≤ x.1
        · exact Or.inl ⟨i, e, by simp [hfind, Option.filter_some, hle],
            isFirst_kept hfirst fun _ => hle⟩
        · refine Or.inl ⟨es.length, x, by simp [hfind, Option.filter_some, hle],
            isFirst_new hp fun e' he' hpe' => ?_⟩
          obtain ⟨j, hj⟩ := List.mem_iff_getElem?.mp he'
          rcases hfirst.least j e' hj hpe' with hlt | ⟨heq, -⟩
          · exact (not_le.mp hle).trans hlt
          · exact heq ▸ not_le.mp hle
      · refine Or.inl ⟨es.length, x, by simp [hfind], isFirst_new hp fun e' he' hpe' => ?_⟩
        rw [hnone e' he'] at hpe'
        cases hpe'

end OrderedMultimap
