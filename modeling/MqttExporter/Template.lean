import MqttExporter.Base.Text
import MqttExporter.ReplaceAll

/-!
# Label templates

Variables are taken from a message by regular expressions and put into the
label values, one variable after the other, in the order of a hash table.

* `replace_eq`: a label set keeps its keys, each value is substituted by itself;
* `replace_order`: when the order of the variables does not matter.
-/

namespace MqttExporter

/-! ## Variables -/

/-- `App::parse`; the variable configured last wins its name. -/
def parse (lib : Libraries) (vars : List Variable) (topic payload : Str) :
    Except Error (OrderedMap Str Str) :=
  vars.foldlM (fun result v => do
    let source := match v.target with
      | .topic => topic
      | .payload => payload
    let value ← lib.searchGroup v.regex source
    return result.set v.name value) .empty

def placeholder (name : Str) : Str := '$' :: '{' :: (name ++ ['}'])

theorem placeholder_ne_nil (name : Str) : placeholder name ≠ [] := by
  simp [placeholder]

def replaceVariable (labels : LabelSet) (v : Str × Str) : LabelSet :=
  labels.mapValues fun _ value => replaceAll value (placeholder v.1) v.2

/-- `App::replace`; the variables come in the order in which they are iterated. -/
def replace (labels : LabelSet) (vars : List (Str × Str)) : LabelSet :=
  vars.foldl replaceVariable labels

def substituteOne (s : Str) (v : Str × Str) : Str := Replace.replace (placeholder v.1) v.2 s

def substitute (vars : List (Str × Str)) (s : Str) : Str := vars.foldl substituteOne s

theorem substitute_append (xs ys : List (Str × Str)) (s : Str) :
    substitute (xs ++ ys) s = substitute ys (substitute xs s) := List.foldl_append

theorem substitute_pair (x y : Str × Str) (s : Str) :
    substitute [x, y] s = substituteOne (substituteOne s x) y := rfl

theorem find?_replace (labels : LabelSet) (vars : List (Str × Str)) (k : Str) :
    (replace labels vars).find? k = (labels.find? k).map (substitute vars) := by
  induction vars generalizing labels with
  | nil =>
    change labels.find? k = (labels.find? k).map id
    rw [Option.map_id, id]
  | cons v vars ih =>
    have h := ih (replaceVariable labels v)
    rw [replaceVariable, OrderedMap.find?_mapValues, Option.map_map] at h
    rw [replace, List.foldl_cons, ← replace, replaceVariable, h]
    congr 1
    funext s
    simp only [Function.comp_apply, substitute, List.foldl_cons, substituteOne,
      replaceAll_eq (placeholder_ne_nil v.1)]

/-- The keys stay, and each value is substituted by itself. -/
theorem replace_eq (labels : LabelSet) (vars : List (Str × Str)) :
    replace labels vars = labels.mapValues fun _ s => substitute vars s :=
  OrderedMap.ext_find fun k => by rw [find?_replace, OrderedMap.find?_mapValues]

/-! ## The order of the variables -/

def OrderIndependent (vars : OrderedMap Str Str) : Prop :=
  ∀ (labels : LabelSet) (o₁ o₂ : List (Str × Str)),
    o₁.Perm vars.entries → o₂.Perm vars.entries → replace labels o₁ = replace labels o₂

/-- No value can take part in another variable's placeholder, unless that
variable stands for its own placeholder. -/
def Separate (vars : OrderedMap Str Str) : Prop :=
  ∀ n₁ v₁ n₂ v₂, vars.find? n₁ = some v₁ → vars.find? n₂ = some v₂ → n₁ ≠ n₂ →
    v₂ = placeholder n₂ ∨ ¬ Replace.Exposed (placeholder n₂) v₁

def WellNamed (name : Str) : Prop := '$' ∉ name ∧ '}' ∉ name

/-- No placeholder can take part in another one. -/
def NamesApart (vars : OrderedMap Str Str) : Prop :=
  ∀ n₁ ∈ vars.keys, ∀ n₂ ∈ vars.keys, n₁ ≠ n₂ →
    ¬ Replace.Exposed (placeholder n₂) (placeholder n₁)

instance (vars : OrderedMap Str Str) : Decidable (Separate vars) :=
  decidable_of_iff (∀ x ∈ vars.entries, ∀ y ∈ vars.entries, x.1 ≠ y.1 →
      y.2 = placeholder y.1 ∨ ¬ Replace.Exposed (placeholder y.1) x.2)
    ⟨fun h n₁ v₁ n₂ v₂ h₁ h₂ =>
      h (n₁, v₁) (vars.mem_entries_iff.mpr h₁) (n₂, v₂) (vars.mem_entries_iff.mpr h₂),
    fun h x hx y hy =>
      h x.1 x.2 y.1 y.2 (vars.mem_entries_iff.mp hx) (vars.mem_entries_iff.mp hy)⟩

instance (name : Str) : Decidable (WellNamed name) :=
  inferInstanceAs (Decidable ('$' ∉ name ∧ '}' ∉ name))

theorem placeholder_cons (name : Str) : placeholder name = '$' :: ('{' :: name ++ ['}']) := rfl

/-- Before a `$` no placeholder is open. -/
theorem not_prefix_open {name w z : Str} (hname : WellNamed name) (hw : w ≠ []) (hclose : '}' ∉ w) :
    ¬ placeholder name <+: w ++ '$' :: z := by
  rintro ⟨y, hy⟩
  obtain ⟨c, w', rfl⟩ := List.exists_cons_of_ne_nil hw
  obtain ⟨rfl, htail⟩ := List.cons.inj
    (show '$' :: ('{' :: name ++ ['}'] ++ y) = c :: (w' ++ '$' :: z) from hy)
  rcases List.append_eq_append_iff.mp htail with ⟨t, ht, _⟩ | ⟨t, ht, hz⟩
  · exact hclose (List.mem_cons_of_mem _ (ht ▸ by simp))
  · cases t with
    | nil => exact hclose (List.mem_cons_of_mem _ (by rw [← List.append_nil w', ← ht]; simp))
    | cons d t =>
      obtain ⟨rfl, _⟩ := List.cons.inj hz
      have hmem : '$' ∈ '{' :: name ++ ['}'] := ht ▸ by simp
      simp [hname.1] at hmem

theorem absent_plain {name r : Str} (hr : '$' ∉ r) : ¬ placeholder name <:+: r :=
  fun h => hr (h.subset (by simp [placeholder]))

/-- Inside one placeholder with incomplete text around it there is no other. -/
theorem absent_other {n m l r : Str} (hn : WellNamed n) (hm : WellNamed m) (hne : n ≠ m)
    (hl : '}' ∉ l) (hr : '$' ∉ r) : ¬ placeholder n <:+: l ++ (placeholder m ++ r) := by
  induction l with
  | nil =>
    intro h
    rw [List.nil_append, placeholder_cons m, List.cons_append] at h
    rcases List.infix_cons_iff.mp h with ⟨y, hy⟩ | h
    · rw [placeholder_cons, List.cons_append] at hy
      have he : n ++ ('}' :: y) = m ++ ('}' :: r) := by simpa using hy
      exact hne (Text.split_first hn.2 hm.2 he).1
    · exact absent_plain (by simp [hm.1, hr]) h
  | cons c l ih =>
    intro h
    rcases List.infix_cons_iff.mp h with hp | h
    · exact not_prefix_open (z := '{' :: m ++ ['}'] ++ r) hn (List.cons_ne_nil c l) hl hp
    · exact ih (fun hx => hl (List.mem_cons_of_mem c hx)) h

/-- A proper prefix of a placeholder is not closed. -/
theorem close_not_mem {name l : Str} (hn : WellNamed name) (hl : l <+: placeholder name)
    (hne : l ≠ placeholder name) : '}' ∉ l := by
  have hl' : l <+: '$' :: '{' :: name := by
    rcases List.prefix_concat_iff.mp (show l <+: ('$' :: '{' :: name) ++ ['}'] from hl) with h | h
    · exact absurd h hne
    · exact h
  exact fun h => by simpa [hn.2] using hl'.subset h

/-- A proper suffix of a placeholder does not open one. -/
theorem open_not_mem {name r : Str} (hn : WellNamed name) (hr : r <:+ placeholder name)
    (hne : r ≠ placeholder name) : '$' ∉ r := by
  rcases List.suffix_cons_iff.mp (placeholder_cons name ▸ hr) with h | h
  · exact absurd h hne
  · exact fun hx => by simpa [hn.1] using h.subset hx

theorem namesApart_of_wellNamed {vars : OrderedMap Str Str} (h : ∀ n ∈ vars.keys, WellNamed n) :
    NamesApart vars := by
  rintro n₁ h₁ n₂ h₂ hne ⟨l, r, hl, hl', hr, hr', hin⟩
  rw [List.append_assoc] at hin
  exact absent_other (h n₂ h₂) (h n₁ h₁) hne.symm (close_not_mem (h n₂ h₂) hl hl')
    (open_not_mem (h n₂ h₂) hr hr') hin

/-- Two variables that are apart commute. -/
theorem substituteOne_comm {vars : OrderedMap Str Str} (hs : Separate vars)
    (ha : NamesApart vars) {x y : Str × Str} (hx : x ∈ vars.entries) (hy : y ∈ vars.entries)
    (s : Str) : substituteOne (substituteOne s x) y = substituteOne (substituteOne s y) x := by
  obtain ⟨n₁, v₁⟩ := x
  obtain ⟨n₂, v₂⟩ := y
  have hf₁ := vars.mem_entries_iff.mp hx
  have hf₂ := vars.mem_entries_iff.mp hy
  rcases eq_or_ne n₁ n₂ with rfl | hne
  · rw [hf₁] at hf₂
    cases hf₂
    rfl
  · have hk₁ := vars.mem_keys_iff.mpr ⟨v₁, hf₁⟩
    have hk₂ := vars.mem_keys_iff.mpr ⟨v₂, hf₂⟩
    simp only [substituteOne]
    rcases hs n₁ v₁ n₂ v₂ hf₁ hf₂ hne with rfl | h₁
    · rw [Replace.replace_self _ _ (placeholder_ne_nil n₂),
        Replace.replace_self _ _ (placeholder_ne_nil n₂)]
    · rcases hs n₂ v₂ n₁ v₁ hf₂ hf₁ hne.symm with rfl | h₂
      · rw [Replace.replace_self _ _ (placeholder_ne_nil n₁),
          Replace.replace_self _ _ (placeholder_ne_nil n₁)]
      · exact Replace.replace_comm (placeholder_ne_nil n₂) (placeholder_ne_nil n₁)
          h₁ h₂ (ha n₁ hk₁ n₂ hk₂ hne) (ha n₂ hk₂ n₁ hk₁ hne.symm) s

theorem orderIndependent_of_separate {vars : OrderedMap Str Str} (hs : Separate vars)
    (ha : NamesApart vars) : OrderIndependent vars := by
  intro labels o₁ o₂ h₁ h₂
  have hsub : substitute o₁ = substitute o₂ := by
    funext s
    refine (h₁.trans h₂.symm).foldl_eq' (fun x hx y hy z => ?_) s
    exact substituteOne_comm hs ha (h₁.subset hx) (h₁.subset hy) z
  rw [replace_eq, replace_eq, hsub]

/-- A text that contains no placeholder of these variables stays. -/
theorem substitute_of_absent {vars : List (Str × Str)} {s : Str}
    (h : ∀ v ∈ vars, ¬ placeholder v.1 <:+: s) : substitute vars s = s := by
  induction vars with
  | nil => rfl
  | cons v vars ih =>
    rw [substitute, List.foldl_cons, substituteOne,
      Replace.replace_of_absent (h v List.mem_cons_self)]
    exact ih fun w hw => h w (List.mem_cons_of_mem v hw)

/-- Whatever the variables stand for, a label set without their placeholders stays,
so for such a label set their order never matters. -/
theorem replace_of_absent {labels : LabelSet} {vars : List (Str × Str)}
    (h : ∀ k s, labels.find? k = some s → ∀ v ∈ vars, ¬ placeholder v.1 <:+: s) :
    replace labels vars = labels := by
  refine OrderedMap.ext_find fun k => ?_
  rw [find?_replace]
  cases hk : labels.find? k with
  | none => rfl
  | some s => rw [Option.map_some, substitute_of_absent (h k s hk)]

theorem substituteOne_own {name value l r : Str} (hn : WellNamed name) (hl : '}' ∉ l)
    (hr : '$' ∉ r) : substituteOne (l ++ (placeholder name ++ r)) (name, value) =
      l ++ (value ++ r) := by
  have hpass := Replace.replace_pass (p := placeholder name) (v := value) (x := l)
    (y := placeholder name ++ r) fun u w hx hw =>
      not_prefix_open (z := '{' :: name ++ ['}'] ++ r) hn hw
        fun h => hl (hx ▸ List.mem_append_right u h)
  rw [substituteOne, hpass, Replace.replace_hit (placeholder_ne_nil name),
    Replace.replace_of_absent (absent_plain hr)]

/-- Two members can be put last, in either order. -/
theorem perm_last {α : Type} [DecidableEq α] {es : List α} {x y : α} (hx : x ∈ es) (hy : y ∈ es)
    (hne : x ≠ y) : ∃ rest, (rest ++ [x, y]).Perm es ∧ (rest ++ [y, x]).Perm es := by
  have h : es.Perm (x :: y :: (es.erase x).erase y) :=
    (List.perm_cons_erase hx).trans
      ((List.perm_cons_erase ((List.mem_erase_of_ne hne.symm).mpr hy)).cons x)
  have hlast : ((es.erase x).erase y ++ [x, y]).Perm es :=
    List.perm_append_comm.trans (h.symm : ([x, y] ++ (es.erase x).erase y).Perm es)
  exact ⟨_, hlast, ((List.Perm.swap x y []).append_left _).trans hlast⟩

theorem OrderIndependent.substitute_eq {vars : OrderedMap Str Str} (h : OrderIndependent vars)
    {o₁ o₂ : List (Str × Str)} (h₁ : o₁.Perm vars.entries) (h₂ : o₂.Perm vars.entries) (t : Str) :
    substitute o₁ t = substitute o₂ t := by
  have heq := congrArg (fun m => m.find? []) (h (OrderedMap.empty.set [] t) o₁ o₂ h₁ h₂)
  simpa only [find?_replace, OrderedMap.find?_set, if_true, Option.map_some, Option.some.injEq]
    using heq

/-- A value that exposes another variable's placeholder is found out by a
template that completes it. -/
theorem separate_of_orderIndependent {vars : OrderedMap Str Str}
    (hw : ∀ n ∈ vars.keys, WellNamed n) (h : OrderIndependent vars) : Separate vars := by
  intro n₁ v₁ n₂ v₂ hf₁ hf₂ hne
  by_contra hc
  obtain ⟨hv, hex⟩ := not_or.mp hc
  obtain ⟨l, r, hl, hl', hr, hr', hin⟩ := not_not.mp hex
  have hw₁ := hw n₁ (vars.mem_keys_iff.mpr ⟨v₁, hf₁⟩)
  have hw₂ := hw n₂ (vars.mem_keys_iff.mpr ⟨v₂, hf₂⟩)
  have hlc := close_not_mem hw₂ hl hl'
  have hro := open_not_mem hw₂ hr hr'
  obtain ⟨rest, hp, hp'⟩ := perm_last (x := (n₁, v₁)) (y := (n₂, v₂)) (vars.mem_entries_iff.mpr hf₁)
    (vars.mem_entries_iff.mpr hf₂) fun he => hne (congrArg Prod.fst he)
  let t := l ++ (placeholder n₁ ++ r)
  have hrest : substitute rest t = t := by
    apply substitute_of_absent
    intro e he
    have hk : ((rest ++ [(n₁, v₁), (n₂, v₂)]).map Prod.fst).Nodup :=
      (hp.map Prod.fst).nodup_iff.mpr vars.keys_nodup
    rw [List.map_append, List.nodup_append] at hk
    have hek : e.1 ≠ n₁ := hk.2.2 e.1 (List.mem_map_of_mem he) n₁ (by simp)
    have hmem := hp.subset (List.mem_append_left _ he)
    exact absent_other (hw e.1 (List.mem_map_of_mem hmem)) hw₁ hek hlc hro
  have hown : substituteOne t (n₁, v₁) = l ++ (v₁ ++ r) := substituteOne_own hw₁ hlc hro
  have hother : substituteOne t (n₂, v₂) = t :=
    Replace.replace_of_absent (absent_other hw₂ hw₁ hne.symm hlc hro)
  have heq := h.substitute_eq hp hp' t
  rw [substitute_append, substitute_append, hrest, substitute_pair, substitute_pair, hown, hother,
    hown] at heq
  exact Replace.replace_ne (placeholder_ne_nil n₂) hv (by rwa [← List.append_assoc]) heq

/-- Values that stay apart from the placeholders make the order irrelevant, and
for names without `$` and `}` nothing less does. -/
theorem replace_order (vars : OrderedMap Str Str) :
    (Separate vars → NamesApart vars → OrderIndependent vars) ∧
      ((∀ n ∈ vars.keys, WellNamed n) → (OrderIndependent vars ↔ Separate vars)) :=
  ⟨orderIndependent_of_separate, fun hw =>
    ⟨separate_of_orderIndependent hw,
      fun hs => orderIndependent_of_separate hs (namesApart_of_wellNamed hw)⟩⟩

/-- The signs of a placeholder alone do no harm, but a value that ends where another
variable's placeholder could begin does. -/
theorem replace_order_two :
    let apart : OrderedMap Str Str :=
      .ofList [("a".toList, ['$', 'x', '}']), ("b".toList, ['{', 'y'])]
    let exposing : OrderedMap Str Str :=
      .ofList [("a".toList, ['$']), ("b".toList, ['{', 'y'])]
    NamesApart apart ∧ Separate apart ∧ OrderIndependent apart ∧
      (∀ n ∈ exposing.keys, WellNamed n) ∧ ¬ OrderIndependent exposing := by
  intro apart exposing
  have hapart : NamesApart apart := namesApart_of_wellNamed (by decide)
  have hsep : Separate apart := by decide
  have hnames : ∀ n ∈ exposing.keys, WellNamed n := by decide
  refine ⟨hapart, hsep, (replace_order apart).1 hsep hapart, hnames, fun h => ?_⟩
  exact absurd (((replace_order exposing).2 hnames).mp h) (by decide)

/-- A value that is another variable's placeholder. -/
theorem replace_order_matters : ¬ ∀ vars : OrderedMap Str Str, OrderIndependent vars := by
  intro h
  let vars : OrderedMap Str Str :=
    .ofList [("a".toList, placeholder "b".toList), ("b".toList, "x".toList)]
  have := h vars (.ofList [("id".toList, placeholder "a".toList)]) vars.entries vars.entries.reverse
    (List.Perm.refl _) vars.entries.reverse_perm
  revert this
  decide

end MqttExporter
