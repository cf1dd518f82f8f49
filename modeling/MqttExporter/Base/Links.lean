import Mathlib.Data.List.Nodup
import Mathlib.Logic.Function.Basic

/-!
# A link that both ends store

Things belong to owners: a thing knows its owner, and an owner has the list of
what it owns. `Linked` says that the two agree; taking in, giving up and giving
up everything keep it when both ends are changed.
-/

namespace Links

variable {ι κ : Type}

structure Linked (owner : κ → Option ι) (owned : ι → List κ) : Prop where
  agree : ∀ k i, owner k = some i ↔ k ∈ owned i
  nodup : ∀ i, (owned i).Nodup

variable {owner : κ → Option ι} {owned : ι → List κ}

theorem linked_empty : Linked (fun _ : κ => (none : Option ι)) fun _ => [] :=
  ⟨fun _ _ => by simp, fun _ => List.nodup_nil⟩

/-- A thing has one owner. -/
theorem Linked.owner_unique (h : Linked owner owned) {k : κ} {i j : ι} (hi : k ∈ owned i)
    (hj : k ∈ owned j) : i = j := by
  have hki := (h.agree k i).mpr hi
  have hkj := (h.agree k j).mpr hj
  rw [hki] at hkj
  exact Option.some.inj hkj

variable [DecidableEq ι] [DecidableEq κ]

theorem Linked.attach (h : Linked owner owned) {k : κ} (hk : owner k = none) (i : ι) :
    Linked (Function.update owner k (some i))
      (Function.update owned i (owned i ++ [k])) := by
  have hfree : ∀ j, k ∉ owned j := by
    intro j hj
    rw [(h.agree k j).mpr hj] at hk
    cases hk
  constructor
  · intro x j
    by_cases hx : x = k
    · subst hx
      by_cases hj : j = i
      · subst hj
        simp
      · simp only [Function.update_self, Function.update_of_ne hj, Option.some.injEq]
        exact ⟨fun he => absurd he.symm hj, fun hm => absurd hm (hfree j)⟩
    · rw [Function.update_of_ne hx, h.agree x j]
      by_cases hj : j = i
      · subst hj
        simp [hx]
      · rw [Function.update_of_ne hj]
  · intro j
    by_cases hj : j = i
    · subst hj
      rw [Function.update_self]
      apply (h.nodup j).append (List.nodup_singleton k)
      simpa using hfree j
    · rw [Function.update_of_ne hj]
      exact h.nodup j

theorem Linked.detach (h : Linked owner owned) {k : κ} {i : ι} (hk : owner k = some i) :
    Linked (Function.update owner k none) (Function.update owned i ((owned i).erase k)) := by
  constructor
  · intro x j
    by_cases hx : x = k
    · subst hx
      rw [Function.update_self]
      by_cases hj : j = i
      · subst hj
        simpa using (h.nodup j).not_mem_erase
      · rw [Function.update_of_ne hj, ← h.agree x j, hk]
        simpa using fun he => hj he.symm
    · rw [Function.update_of_ne hx, h.agree x j]
      by_cases hj : j = i
      · subst hj
        rw [Function.update_self, List.mem_erase_of_ne hx]
      · rw [Function.update_of_ne hj]
  · intro j
    by_cases hj : j = i
    · subst hj
      rw [Function.update_self]
      exact (h.nodup j).erase k
    · rw [Function.update_of_ne hj]
      exact h.nodup j

theorem Linked.clear (h : Linked owner owned) (i : ι) :
    Linked (fun k => if k ∈ owned i then none else owner k) (Function.update owned i []) := by
  constructor
  · intro x j
    by_cases hj : j = i
    · subst hj
      rw [Function.update_self]
      split
      · simp
      · rename_i hx
        rw [h.agree x j]
        simpa using hx
    · rw [Function.update_of_ne hj]
      split
      · rename_i hx
        simpa using fun hm => hj (h.owner_unique hm hx)
      · exact h.agree x j
  · intro j
    by_cases hj : j = i
    · subst hj
      rw [Function.update_self]
      exact List.nodup_nil
    · rw [Function.update_of_ne hj]
      exact h.nodup j

end Links
