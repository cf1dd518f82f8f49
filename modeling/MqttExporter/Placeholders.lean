import MqttExporter.Template

/-!
# What a label template stands for

A label value of the configuration is written as literals and placeholders. The
variables are put in one after the other, each into the text that the ones
before it have left, and the result is the template read once.
-/

namespace MqttExporter

instance (name : Str) : Decidable (WellNamed name) :=
  inferInstanceAs (Decidable ('$' ∉ name ∧ '}' ∉ name))

/-- A literal opens no placeholder, and the name of a placeholder does not close
it early. -/
inductive Segment where
  | literal (text : Str) (plain : '$' ∉ text)
  | placeholder (name : Str) (wellNamed : WellNamed name)

def Segment.render : Segment → Str
  | .literal text _ => text
  | .placeholder name _ => MqttExporter.placeholder name

/-- A placeholder of an undefined variable stays as it stands. -/
def Segment.evaluate (vars : Str → Option Str) : Segment → Str
  | .literal text _ => text
  | .placeholder name _ => (vars name).getD (MqttExporter.placeholder name)

def render (template : List Segment) : Str := template.flatMap Segment.render

def evaluate (vars : Str → Option Str) (template : List Segment) : Str :=
  template.flatMap (Segment.evaluate vars)

theorem evaluate_cons (vars : Str → Option Str) (s : Segment) (template : List Segment) :
    evaluate vars (s :: template) = s.evaluate vars ++ evaluate vars template :=
  List.flatMap_cons

theorem evaluate_undefined (template : List Segment) :
    evaluate (fun _ => none) template = render template := by
  have h : Segment.evaluate (fun _ => none) = Segment.render := by
    funext s
    cases s with
    | literal text _ => rfl
    | placeholder name _ => rfl
  rw [evaluate, render, h]

/-! ## One variable -/

/-- The values put in so far open no placeholder. -/
def DollarFree (vars : Str → Option Str) : Prop :=
  ∀ name value, vars name = some value → '$' ∉ value

/-- What is known after one more variable. -/
def extend (vars : Str → Option Str) (v : Str × Str) : Str → Option Str :=
  fun name => (vars name).or (if name = v.1 then some v.2 else none)

theorem dollarFree_extend {vars : Str → Option Str} (h : DollarFree vars) {v : Str × Str}
    (hv : '$' ∉ v.2) : DollarFree (extend vars v) := by
  intro name value hvalue
  unfold extend at hvalue
  cases hn : vars name with
  | some old =>
    rw [hn, Option.some_or] at hvalue
    cases hvalue
    exact h name value hn
  | none =>
    rw [hn, Option.none_or] at hvalue
    split at hvalue
    · cases hvalue
      exact hv
    · cases hvalue

theorem not_prefix_plain {name w y : Str} (hw : w ≠ []) (hplain : '$' ∉ w) :
    ¬ placeholder name <+: w ++ y := by
  obtain ⟨c, w', rfl⟩ := List.exists_cons_of_ne_nil hw
  rintro ⟨z, hz⟩
  obtain ⟨rfl, _⟩ :=
    List.cons.inj (show '$' :: ('{' :: name ++ ['}'] ++ z) = c :: (w' ++ y) from hz)
  exact hplain List.mem_cons_self

/-- Text without `$` is passed, whatever comes behind it. -/
theorem substituteOne_plain {x : Str} (hx : '$' ∉ x) (v : Str × Str) (y : Str) :
    substituteOne (x ++ y) v = x ++ substituteOne y v := by
  apply Replace.replace_pass
  intro u w hsplit hw
  apply not_prefix_plain hw
  intro hmem
  exact hx (hsplit ▸ List.mem_append_right u hmem)

theorem substituteOne_same (v : Str × Str) (y : Str) :
    substituteOne (placeholder v.1 ++ y) v = v.2 ++ substituteOne y v :=
  Replace.replace_hit (placeholder_ne_nil v.1) y

/-- Of two placeholders one begins with the other only if their names agree, also
where one name is a prefix of the other. -/
theorem substituteOne_other {name : Str} (hname : WellNamed name) {v : Str × Str}
    (hv : WellNamed v.1) (hne : name ≠ v.1) (y : Str) :
    substituteOne (placeholder name ++ y) v = placeholder name ++ substituteOne y v := by
  have hhere : ¬ placeholder v.1 <+: '$' :: ('{' :: name ++ ['}'] ++ y) := by
    rintro ⟨z, hz⟩
    have hnames : v.1 ++ ('}' :: z) = name ++ ('}' :: y) := by simpa [placeholder] using hz
    exact hne (Text.split_first hv.2 hname.2 hnames).1.symm
  have hrest : '$' ∉ '{' :: name ++ ['}'] := by simp [hname.1]
  calc substituteOne (placeholder name ++ y) v
      = '$' :: substituteOne ('{' :: name ++ ['}'] ++ y) v := Replace.replace_cons hhere
    _ = placeholder name ++ substituteOne y v := by
      rw [substituteOne_plain hrest]
      rfl

/-- One variable takes the template from what is known before it to what is
known after it. -/
theorem substituteOne_evaluate {vars : Str → Option Str} (hfree : DollarFree vars) {v : Str × Str}
    (hv : WellNamed v.1) (template : List Segment) :
    substituteOne (evaluate vars template) v = evaluate (extend vars v) template := by
  induction template with
  | nil => rfl
  | cons s template ih =>
    rw [evaluate_cons, evaluate_cons, ← ih]
    cases s with
    | literal text htext => exact substituteOne_plain htext v _
    | placeholder name hname =>
      simp only [Segment.evaluate, extend]
      cases hn : vars name with
      | some value => exact substituteOne_plain (hfree name value hn) v _
      | none =>
        by_cases he : name = v.1
        · subst he
          rw [if_pos rfl]
          exact substituteOne_same v _
        · rw [if_neg he]
          exact substituteOne_other hname hv he _

/-! ## All variables -/

theorem substitute_evaluate {order : List (Str × Str)}
    (horder : ∀ v ∈ order, WellNamed v.1 ∧ '$' ∉ v.2) {vars : Str → Option Str}
    (hfree : DollarFree vars) (template : List Segment) :
    substitute order (evaluate vars template) =
      evaluate (fun name => (vars name).or (OrderedMap.lookup name order)) template := by
  induction order generalizing vars with
  | nil => simp [substitute, OrderedMap.lookup]
  | cons v order ih =>
    obtain ⟨hv, hvalue⟩ := horder v List.mem_cons_self
    have hstep := ih (fun w hw => horder w (List.mem_cons_of_mem v hw))
      (dollarFree_extend hfree hvalue)
    rw [substitute, List.foldl_cons, substituteOne_evaluate hfree hv, ← substitute, hstep]
    congr 1
    funext name
    simp only [extend, OrderedMap.lookup]
    cases vars name with
    | some value => rfl
    | none =>
      by_cases he : name = v.1
      · simp [he]
      · simp [he, Ne.symm he]

theorem substitute_render {order : List (Str × Str)}
    (horder : ∀ v ∈ order, WellNamed v.1 ∧ '$' ∉ v.2) (template : List Segment) :
    substitute order (render template) =
      evaluate (fun name => OrderedMap.lookup name order) template := by
  have h := @substitute_evaluate order horder (fun _ => none) (fun _ _ hn => by cases hn) template
  rw [evaluate_undefined] at h
  simpa only [Option.none_or] using h

/-- Every order in which the variables are iterated puts each value of a defined
variable in for its placeholders, and changes nothing else. -/
theorem replace_simultaneous {vars : OrderedMap Str Str}
    (hvars : ∀ v ∈ vars.entries, WellNamed v.1 ∧ '$' ∉ v.2)
    (templates : OrderedMap Str (List Segment)) {order : List (Str × Str)}
    (horder : order.Perm vars.entries) :
    replace (templates.mapValues fun _ template => render template) order =
      templates.mapValues fun _ template => evaluate vars.find? template := by
  have hmem : ∀ v ∈ order, WellNamed v.1 ∧ '$' ∉ v.2 := by
    intro v hv
    exact hvars v (horder.subset hv)
  have hlookup : (fun name => OrderedMap.lookup name order) = vars.find? := by
    funext name
    exact OrderedMap.lookup_perm horder name
  apply OrderedMap.ext_find
  intro k
  rw [find?_replace, OrderedMap.find?_mapValues, OrderedMap.find?_mapValues, Option.map_map]
  congr 1
  funext template
  rw [Function.comp_apply, substitute_render hmem, hlookup]

/-- The name of one variable is a prefix of the other's, the values have braces,
and `c` is undefined. -/
theorem replace_simultaneous_prefix :
    replace (.ofList [("id".toList, placeholder "a".toList ++ '-' ::
        (placeholder "ab".toList ++ '-' :: placeholder "c".toList))])
      [("ab".toList, ['{', '1', '}']), ("a".toList, ['}', '{'])] =
        .ofList [("id".toList, ['}', '{', '-', '{', '1', '}', '-'] ++ placeholder "c".toList)] := by
  have h := @replace_simultaneous
    (.ofList [("a".toList, ['}', '{']), ("ab".toList, ['{', '1', '}'])]) (by decide)
    (.ofList [("id".toList, [.placeholder "a".toList (by decide), .literal "-".toList (by decide),
      .placeholder "ab".toList (by decide), .literal "-".toList (by decide),
      .placeholder "c".toList (by decide)])])
    [("ab".toList, ['{', '1', '}']), ("a".toList, ['}', '{'])] (List.Perm.swap _ _ [])
  exact h

end MqttExporter
