import Mathlib.Data.List.Sort
import Mathlib.Data.Prod.Lex
import Mathlib.Data.List.Lex
import Mathlib.Data.List.Lattice
import Mathlib.Data.List.Nodup
import Mathlib.Data.List.Pairwise

/-!
# Ordered maps

A finite map kept as a strictly increasing list of entries, so iterating it
visits the keys in order, once each. The order is a field, so two maps with the
same lookups are equal (`OrderedMap.ext_find`) and a map can itself be a key.
-/

structure OrderedMap (κ α : Type) [LinearOrder κ] where
  entries : List (κ × α)
  sorted : entries.Pairwise (fun a b => a.1 < b.1)
  deriving DecidableEq

namespace OrderedMap

section
variable {κ α β : Type} [LinearOrder κ]

theorem eq_of_entries {m m' : OrderedMap κ α} (h : m.entries = m'.entries) : m = m' := by
  cases m; cases m'; cases h; rfl

def empty : OrderedMap κ α := ⟨[], List.Pairwise.nil⟩

def keys (m : OrderedMap κ α) : List κ := m.entries.map Prod.fst

theorem keys_nodup (m : OrderedMap κ α) : m.keys.Nodup := by
  rw [keys, List.Nodup, List.pairwise_map]
  exact m.sorted.imp ne_of_lt

/-! ## Lookup -/

def lookup (k : κ) : List (κ × α) → Option α
  | [] => none
  | e :: es => if e.1 = k then some e.2 else lookup k es

def find? (m : OrderedMap κ α) (k : κ) : Option α := lookup k m.entries

def contains (m : OrderedMap κ α) (k : κ) : Bool := (m.find? k).isSome

@[simp] theorem find?_empty (k : κ) : (empty : OrderedMap κ α).find? k = none := rfl

theorem lookup_eq_none {k : κ} {es : List (κ × α)} :
    lookup k es = none ↔ ∀ e ∈ es, e.1 ≠ k := by
  induction es with
  | nil => simp [lookup]
  | cons e es ih => by_cases h : e.1 = k <;> simp [lookup, h, ih]

theorem mem_of_lookup {k : κ} {a : α} {es : List (κ × α)} (h : lookup k es = some a) :
    (k, a) ∈ es := by
  induction es with
  | nil => cases h
  | cons e es ih =>
    simp only [lookup] at h
    split at h
    · rename_i hk
      cases h
      subst hk
      exact List.mem_cons_self
    · exact List.mem_cons_of_mem _ (ih h)

theorem lookup_of_mem {k : κ} {a : α} {es : List (κ × α)} (hs : (es.map Prod.fst).Nodup)
    (h : (k, a) ∈ es) : lookup k es = some a := by
  induction es with
  | nil => cases h
  | cons e es ih =>
    obtain ⟨hnot, hs⟩ := List.nodup_cons.mp hs
    rcases List.mem_cons.mp h with rfl | h
    · simp [lookup]
    · have hne : e.1 ≠ k := fun he => hnot (he ▸ List.mem_map_of_mem h)
      simp only [lookup, hne, if_false, ih hs h]

/-- Lookups read exactly the entries. -/
theorem mem_entries_iff (m : OrderedMap κ α) {k : κ} {a : α} :
    (k, a) ∈ m.entries ↔ m.find? k = some a :=
  ⟨lookup_of_mem m.keys_nodup, mem_of_lookup⟩

theorem mem_keys_iff (m : OrderedMap κ α) {k : κ} : k ∈ m.keys ↔ ∃ a, m.find? k = some a := by
  simp only [keys, List.mem_map, ← mem_entries_iff]
  constructor
  · rintro ⟨⟨k, a⟩, h, rfl⟩; exact ⟨a, h⟩
  · rintro ⟨a, h⟩; exact ⟨(k, a), h, rfl⟩

theorem find?_eq_none (m : OrderedMap κ α) {k : κ} : m.find? k = none ↔ k ∉ m.keys := by
  rw [mem_keys_iff]
  cases m.find? k <;> simp

theorem contains_iff (m : OrderedMap κ α) {k : κ} : m.contains k = true ↔ k ∈ m.keys := by
  rw [contains, mem_keys_iff, Option.isSome_iff_exists]

/-- Equal lookups give equal maps: the order leaves one list for each content. -/
theorem ext_find {m m' : OrderedMap κ α} (h : ∀ k, m.find? k = m'.find? k) : m = m' := by
  apply eq_of_entries
  have hp : m.entries.Perm m'.entries := by
    rw [List.perm_ext_iff_of_nodup (m.sorted.imp fun hab e => absurd (congrArg Prod.fst e) hab.ne)
      (m'.sorted.imp fun hab e => absurd (congrArg Prod.fst e) hab.ne)]
    rintro ⟨k, a⟩
    rw [mem_entries_iff, mem_entries_iff, h]
  exact hp.eq_of_pairwise (fun a b _ _ hab hba => absurd hab hba.asymm) m.sorted m'.sorted

/-- The entries can be gone through in any order. -/
theorem lookup_perm {m : OrderedMap κ α} {es : List (κ × α)} (h : es.Perm m.entries) (k : κ) :
    lookup k es = m.find? k := by
  have hs : (es.map Prod.fst).Nodup := (h.map Prod.fst).nodup_iff.mpr m.keys_nodup
  cases hk : m.find? k with
  | none =>
    rw [lookup_eq_none]
    intro e he
    exact lookup_eq_none.mp hk e (h.subset he)
  | some a => exact lookup_of_mem hs (h.mem_iff.mpr (mem_of_lookup hk))

theorem entries_nodup (m : OrderedMap κ α) : m.entries.Nodup := List.Nodup.of_map _ m.keys_nodup

theorem eq_of_mem_entries {m : OrderedMap κ α} {e e' : κ × α} (h : e ∈ m.entries)
    (h' : e' ∈ m.entries) (hk : e.1 = e'.1) : e = e' :=
  List.inj_on_of_nodup_map m.keys_nodup h h' hk

/-- Lists without duplicates make one list without duplicates exactly when no two
keys share an element. -/
theorem nodup_flatMap_iff {m : OrderedMap κ α} {f : κ × α → List β}
    (hf : ∀ e ∈ m.entries, (f e).Nodup) : (m.entries.flatMap f).Nodup ↔
      ∀ e ∈ m.entries, ∀ e' ∈ m.entries, e ≠ e' → List.Disjoint (f e) (f e') := by
  rw [List.nodup_flatMap]
  constructor
  · rintro ⟨-, hpairs⟩ e he e' he' hne
    have : Std.Symm (Function.onFun List.Disjoint f) := ⟨fun _ _ h => List.Disjoint.symm h⟩
    exact hpairs.forall he he' hne
  · intro h
    exact ⟨hf, m.entries_nodup.pairwise_of_forall_ne h⟩

/-! ## Assignment, insertion and removal -/

def insertEntry (k : κ) (a : α) : List (κ × α) → List (κ × α)
  | [] => [(k, a)]
  | e :: es =>
    if k < e.1 then (k, a) :: e :: es
    else if e.1 = k then (k, a) :: es
    else e :: insertEntry k a es

theorem mem_insertEntry {k : κ} {a : α} {e : κ × α} {es : List (κ × α)}
    (h : e ∈ insertEntry k a es) : e = (k, a) ∨ e ∈ es := by
  induction es with
  | nil => exact Or.inl (List.mem_singleton.mp h)
  | cons x es ih =>
    simp only [insertEntry] at h
    split at h
    · exact List.mem_cons.mp h
    · split at h
      · exact (List.mem_cons.mp h).imp_right (List.mem_cons_of_mem _)
      · rcases List.mem_cons.mp h with rfl | h
        · exact Or.inr List.mem_cons_self
        · exact (ih h).imp_right (List.mem_cons_of_mem _)

theorem insertEntry_sorted {k : κ} {a : α} {es : List (κ × α)}
    (hs : es.Pairwise (fun a b => a.1 < b.1)) :
    (insertEntry k a es).Pairwise (fun a b => a.1 < b.1) := by
  induction es with
  | nil => exact List.pairwise_singleton _ _
  | cons x es ih =>
    obtain ⟨hlt, ht⟩ := List.pairwise_cons.mp hs
    simp only [insertEntry]
    split
    · rename_i hk
      refine List.pairwise_cons.mpr ⟨fun e he => ?_, hs⟩
      rcases List.mem_cons.mp he with rfl | he
      · exact hk
      · exact hk.trans (hlt e he)
    · split
      · rename_i heq
        exact List.pairwise_cons.mpr ⟨fun e he => heq ▸ hlt e he, ht⟩
      · rename_i hk hne
        refine List.pairwise_cons.mpr ⟨fun e he => ?_, ih ht⟩
        rcases mem_insertEntry he with rfl | he
        · exact lt_of_le_of_ne (not_lt.mp hk) hne
        · exact hlt e he

theorem lookup_insertEntry {k q : κ} {a : α} {es : List (κ × α)} :
    lookup q (insertEntry k a es) = if k = q then some a else lookup q es := by
  induction es with
  | nil => rfl
  | cons x es ih =>
    simp only [insertEntry]
    split
    · rfl
    · split
      · rename_i heq
        by_cases h : k = q <;> simp [lookup, heq, h]
      · rename_i hne
        by_cases hx : x.1 = q
        · have hk : k ≠ q := fun h => hne (hx.trans h.symm)
          simp [lookup, hx, hk]
        · simp [lookup, hx, ih]

/-- `m[k] = a`. -/
def set (m : OrderedMap κ α) (k : κ) (a : α) : OrderedMap κ α :=
  ⟨insertEntry k a m.entries, insertEntry_sorted m.sorted⟩

/-- `m.emplace(k, a)`: an entry already under `k` stays. -/
def emplace (m : OrderedMap κ α) (k : κ) (a : α) : OrderedMap κ α :=
  if m.contains k then m else m.set k a

/-- Insert in turn; the first of several entries with one key stays. -/
def ofList (es : List (κ × α)) : OrderedMap κ α :=
  es.foldl (fun m e => m.emplace e.1 e.2) empty

/-- Keep the entries that `p` accepts. -/
def filter (m : OrderedMap κ α) (p : κ → α → Bool) : OrderedMap κ α :=
  ⟨m.entries.filter fun e => p e.1 e.2, m.sorted.filter _⟩

def erase (m : OrderedMap κ α) (k : κ) : OrderedMap κ α := m.filter fun k' _ => k' ≠ k

/-- Go through the entries and erase, on the way, those that `p` accepts. -/
def eraseIf (m : OrderedMap κ α) (p : κ → α → Bool) : OrderedMap κ α :=
  m.entries.foldl (fun m' e => if p e.1 e.2 then m'.erase e.1 else m') m

/-- Change every value in place. -/
def mapValues (m : OrderedMap κ α) (f : κ → α → β) : OrderedMap κ β :=
  ⟨m.entries.map fun e => (e.1, f e.1 e.2), List.pairwise_map.mpr m.sorted⟩

theorem find?_set (m : OrderedMap κ α) (k q : κ) (a : α) :
    (m.set k a).find? q = if k = q then some a else m.find? q := lookup_insertEntry

@[simp] theorem find?_set_self (m : OrderedMap κ α) (k : κ) (a : α) :
    (m.set k a).find? k = some a := by rw [find?_set, if_pos rfl]

theorem find?_set_ne (m : OrderedMap κ α) {k q : κ} (a : α) (h : k ≠ q) :
    (m.set k a).find? q = m.find? q := by rw [find?_set, if_neg h]

@[simp] theorem set_set (m : OrderedMap κ α) (k : κ) (a b : α) :
    (m.set k a).set k b = m.set k b := by
  apply ext_find
  intro q
  by_cases h : k = q <;> simp [find?_set, h]

theorem set_of_find? {m : OrderedMap κ α} {k : κ} {a : α} (h : m.find? k = some a) :
    m.set k a = m := by
  apply ext_find
  intro q
  by_cases hq : k = q
  · subst hq
    rw [find?_set_self, h]
  · rw [find?_set_ne m a hq]

theorem find?_emplace (m : OrderedMap κ α) (k q : κ) (a : α) :
    (m.emplace k a).find? q = if k = q ∧ m.find? k = none then some a else m.find? q := by
  unfold emplace contains
  cases h : m.find? k with
  | none =>
    simp only [Option.isSome_none, Bool.false_eq_true, if_false, find?_set, and_true]
  | some b => simp

/-- What holds of the old entries and of the new one holds after an assignment. -/
theorem forall_set {m : OrderedMap κ α} {k : κ} {a : α} {P : κ → α → Prop} (ha : P k a)
    (hm : ∀ q b, m.find? q = some b → P q b) (q : κ) (b : α) (h : (m.set k a).find? q = some b) :
    P q b := by
  rw [find?_set] at h
  split at h
  · rename_i hk
    cases h
    exact hk ▸ ha
  · exact hm q b h

theorem forall_emplace {m : OrderedMap κ α} {k : κ} {a : α} {P : κ → α → Prop} (ha : P k a)
    (hm : ∀ q b, m.find? q = some b → P q b) (q : κ) (b : α)
    (h : (m.emplace k a).find? q = some b) : P q b := by
  unfold emplace at h
  split at h
  · exact hm q b h
  · exact forall_set ha hm q b h

/-- The first entry with a key is the one inserted. -/
theorem find?_ofList (es : List (κ × α)) (k : κ) : (ofList es).find? k = lookup k es := by
  have run : ∀ (es : List (κ × α)) (m : OrderedMap κ α),
      (es.foldl (fun m e => m.emplace e.1 e.2) m).find? k = (m.find? k).or (lookup k es) := by
    intro es
    induction es with
    | nil => simp [lookup]
    | cons e es ih =>
      intro m
      rw [List.foldl_cons, ih, find?_emplace, lookup]
      by_cases he : e.1 = k
      · subst he
        cases m.find? e.1 <;> simp
      · simp [he]
  rw [ofList, run, find?_empty, Option.none_or]

theorem find?_filter (m : OrderedMap κ α) (p : κ → α → Bool) (k : κ) :
    (m.filter p).find? k = (m.find? k).filter (p k) := by
  apply Option.ext
  intro a
  rw [← mem_entries_iff, Option.filter_eq_some_iff, ← mem_entries_iff]
  simp only [filter, List.mem_filter]

@[simp] theorem find?_erase_self (m : OrderedMap κ α) (k : κ) : (m.erase k).find? k = none := by
  rw [erase, find?_filter]
  cases m.find? k <;> simp

theorem find?_erase_ne (m : OrderedMap κ α) {k q : κ} (h : k ≠ q) :
    (m.erase k).find? q = m.find? q := by
  rw [erase, find?_filter]
  cases m.find? q <;> simp [Ne.symm h]

/-- Erasing on the way removes a key exactly when one of the entries visited has
it and is accepted. -/
theorem find?_foldl_erase (p : κ → α → Bool) (k : κ) (es : List (κ × α)) (m : OrderedMap κ α) :
    (es.foldl (fun m' e => if p e.1 e.2 then m'.erase e.1 else m') m).find? k =
      if ∃ e ∈ es, e.1 = k ∧ p e.1 e.2 = true then none else m.find? k := by
  induction es generalizing m with
  | nil => simp
  | cons e es ih =>
    rw [List.foldl_cons, ih]
    by_cases hes : ∃ e ∈ es, e.1 = k ∧ p e.1 e.2 = true
    · rw [if_pos hes, if_pos (hes.imp fun x hx => ⟨List.mem_cons_of_mem e hx.1, hx.2⟩)]
    · have hcons : (∃ x ∈ e :: es, x.1 = k ∧ p x.1 x.2 = true) ↔ e.1 = k ∧ p e.1 e.2 = true := by
        constructor
        · rintro ⟨x, hx, hxk⟩
          rcases List.mem_cons.mp hx with rfl | hx
          · exact hxk
          · exact absurd ⟨x, hx, hxk⟩ hes
        · exact fun he => ⟨e, List.mem_cons_self, he⟩
      rw [if_neg hes]
      simp only [hcons]
      by_cases he : p e.1 e.2 = true
      · by_cases hk : e.1 = k
        · rw [if_pos he, if_pos ⟨hk, he⟩, hk, find?_erase_self]
        · rw [if_pos he, if_neg fun h => hk h.1, find?_erase_ne m hk]
      · rw [if_neg he, if_neg fun h => he h.2]

theorem find?_eraseIf (m : OrderedMap κ α) (p : κ → α → Bool) (k : κ) :
    (m.eraseIf p).find? k = (m.find? k).filter fun a => !p k a := by
  rw [eraseIf, find?_foldl_erase]
  cases hm : m.find? k with
  | none => simp
  | some a =>
    have hex : (∃ e ∈ m.entries, e.1 = k ∧ p e.1 e.2 = true) ↔ p k a = true := by
      constructor
      · rintro ⟨⟨k', b⟩, hb, rfl, hp⟩
        rw [mem_entries_iff, hm, Option.some.injEq] at hb
        subst hb
        exact hp
      · exact fun hp => ⟨(k, a), m.mem_entries_iff.mpr hm, rfl, hp⟩
    by_cases hp : p k a = true <;> simp [hex, hp, Option.filter]

theorem find?_mapValues (m : OrderedMap κ α) (f : κ → α → β) (k : κ) :
    (m.mapValues f).find? k = (m.find? k).map (f k) := by
  have key : ∀ es : List (κ × α),
      lookup k (es.map fun e => (e.1, f e.1 e.2)) = (lookup k es).map (f k) := by
    intro es
    induction es with
    | nil => rfl
    | cons e es ih =>
      by_cases h : e.1 = k
      · subst h; simp [lookup]
      · simp [lookup, h, ih]
  exact key m.entries

@[simp] theorem keys_mapValues (m : OrderedMap κ α) (f : κ → α → β) :
    (m.mapValues f).keys = m.keys := by
  simp [keys, mapValues]

end

/-! ## Maps as keys -/

/-- Maps compare entry by entry, key before value. -/
instance {κ α : Type} [LinearOrder κ] [LinearOrder α] : LinearOrder (OrderedMap κ α) :=
  LinearOrder.lift' (fun m => m.entries.map (toLex : κ × α → κ ×ₗ α)) fun _ _ h =>
    eq_of_entries (List.map_injective_iff.mpr toLex.injective h)

end OrderedMap
