import Mathlib.Data.List.Basic
import Mathlib.Data.Option.Basic

/-!
# References to shared objects

A table holds objects by reference. Whoever copies a reference keeps the object:
when the table drops it, the object stays as it was then, and nobody writes it
any more.

* `Step.keeps`: what a step does with an object that the table held;
* `Step.sees`: what a copied reference may read, carried along a step.
-/

namespace References

variable {κ ν : Type}

structure Store (κ ν : Type) where
  refs : κ → Option ℕ
  objects : List ν

namespace Store

/-- The object that a key holds. -/
def view (s : Store κ ν) (k : κ) : Option ν := (s.refs k).bind (s.objects[·]?)

/-- Every key holds an object, and none that another key holds. -/
structure Owned (s : Store κ ν) : Prop where
  bound : ∀ k a, s.refs k = some a → a < s.objects.length
  apart : ∀ k q a, s.refs k = some a → s.refs q = some a → k = q

def Detached (s : Store κ ν) (a : ℕ) : Prop := ∀ k, s.refs k ≠ some a

theorem owned_empty : (⟨fun _ => none, []⟩ : Store κ ν).Owned :=
  ⟨fun k a h => by simp at h, fun k q a h => by simp at h⟩

end Store

/-- A key goes on with its object, drops it or holds a new one; an object that
no key holds afterwards is as it was. -/
structure Step (s t : Store κ ν) : Prop where
  grows : s.objects.length ≤ t.objects.length
  held : ∀ k a, t.refs k = some a → a < s.objects.length → s.refs k = some a
  bound : ∀ k a, t.refs k = some a → a < t.objects.length
  fresh : ∀ k q a, t.refs k = some a → t.refs q = some a → s.objects.length ≤ a → k = q
  frozen : ∀ a, a < s.objects.length → t.Detached a → t.objects[a]? = s.objects[a]?

variable {s t : Store κ ν} {k : κ} {a : ℕ}

theorem Step.refl (hs : s.Owned) : Step s s :=
  ⟨Nat.le_refl _, fun _ _ h _ => h, hs.bound, fun k q a hk hq _ => hs.apart k q a hk hq,
    fun _ _ _ => rfl⟩

theorem Step.owned (h : Step s t) (hs : s.Owned) : t.Owned := by
  refine ⟨h.bound, fun k q a hk hq => ?_⟩
  by_cases ha : a < s.objects.length
  · exact hs.apart k q a (h.held k a hk ha) (h.held q a hq ha)
  · exact h.fresh k q a hk hq (Nat.not_lt.mp ha)

theorem Step.detached (h : Step s t) (ha : a < s.objects.length) (hd : s.Detached a) :
    t.Detached a ∧ t.objects[a]? = s.objects[a]? := by
  have hdetached : t.Detached a := fun q hq => hd q (h.held q a hq ha)
  exact ⟨hdetached, h.frozen a ha hdetached⟩

/-- The key goes on with its object, or nobody holds it and it is as it was. -/
theorem Step.keeps (h : Step s t) (hs : s.Owned) (hk : s.refs k = some a) :
    t.refs k = some a ∨ (t.Detached a ∧ t.objects[a]? = s.objects[a]?) := by
  have ha := hs.bound k a hk
  by_cases hkt : t.refs k = some a
  · exact Or.inl hkt
  · right
    have hdetached : t.Detached a := by
      intro q hq
      have hkq := hs.apart k q a hk (h.held q a hq ha)
      subst hkq
      exact hkt hq
    exact ⟨hdetached, h.frozen a ha hdetached⟩

/-- Who copied the reference of `k` to `a` reads what `k` holds, or something
that `seen` allows. -/
def Sees (seen : ν → Prop) (k : κ) (a : ℕ) (s : Store κ ν) : Prop :=
  s.refs k = some a ∨ (s.Detached a ∧ ∃ v, s.objects[a]? = some v ∧ seen v)

/-- What the key held before the step is to be allowed afterwards, if the key
dropped it. -/
theorem Step.sees {seen seen' : ν → Prop} (h : Step s t) (hs : s.Owned)
    (hold : ∀ v, seen v → seen' v)
    (hview : ∀ v, s.refs k = some a → t.refs k ≠ some a → s.view k = some v → seen' v)
    (hsees : Sees seen k a s) : Sees seen' k a t := by
  rcases hsees with hk | ⟨hdetached, v, hv, hseen⟩
  · by_cases hkt : t.refs k = some a
    · exact Or.inl hkt
    · obtain hkt' | ⟨hdetached, hsame⟩ := h.keeps hs hk
      · exact absurd hkt' hkt
      · have ha := hs.bound k a hk
        have hget : s.objects[a]? = some s.objects[a] := List.getElem?_eq_getElem ha
        refine Or.inr ⟨hdetached, s.objects[a], hsame.trans hget, hview _ hk hkt ?_⟩
        rw [Store.view, hk]
        exact hget
  · have ha := (List.getElem?_eq_some_iff.mp hv).1
    obtain ⟨hdetached', hsame⟩ := h.detached ha hdetached
    exact Or.inr ⟨hdetached', v, hsame.trans hv, hold v hseen⟩

theorem Sees.read {seen : ν → Prop} (h : Sees seen k a s) {v : ν} (hv : s.objects[a]? = some v) :
    (s.refs k = some a ∧ s.view k = some v) ∨ seen v := by
  rcases h with hk | ⟨-, v', hv', hseen⟩
  · left
    rw [Store.view, hk]
    exact ⟨rfl, hv⟩
  · right
    rw [hv] at hv'
    cases hv'
    exact hseen

end References
