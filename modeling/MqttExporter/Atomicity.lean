import MqttExporter.Base.Transition
import MqttExporter.FamilyRun

/-!
# Calls that raise

`newSample` inserts a null metric before it builds one, and sets the timestamp
before it samples. A call that raises in between leaves what it wrote, so it
changes nothing only if all of that was there already.
-/

namespace MqttExporter

open Loop Transition

namespace MetricFamily

/-- Every stored item has a metric, as `stringify` takes for granted. -/
def NonNull (f : MetricFamily) : Prop :=
  ∀ labels item, f.metrics.find? labels = some item → item.metric ≠ none

/-- The event leaves no null metric, and nothing changed if it raised. -/
def AllOrNothing (lib : Libraries) (f : MetricFamily) (e : FamilyEvent) : Prop :=
  (f.apply lib e).NonNull ∧
    ∀ now payload labels, e = .sample now payload labels →
      ∀ err f', newSample lib now payload labels f = .error err f' → f'.metrics = f.metrics

/-- A sample does not raise, or its series was sampled at the same reading of
the clock. -/
def Harmless (lib : Libraries) (f : MetricFamily) : FamilyEvent → Prop
  | .sample now payload labels =>
    trial lib f.config.openMetric.pattern payload = .ok () ∨
      ∃ m, f.metrics.find? labels = some ⟨some m, now⟩
  | .routine _ => True

theorem apply_wellTyped {lib : Libraries} {f : MetricFamily} (hf : f.WellTyped lib)
    (e : FamilyEvent) : (f.apply lib e).WellTyped lib := by
  cases e with
  | routine now => exact routine_wellTyped hf now
  | sample now payload labels =>
    obtain ⟨item, hset, hitem⟩ := final_newSample lib now payload labels f
    rw [apply, hset]
    apply hf.set
    intro m' hm'
    obtain ⟨m, ht, hm⟩ := hitem m' hm'
    obtain ⟨hpattern, hvalid⟩ := hf.target_ok ht
    rcases hm with rfl | hsample
    · exact ⟨hpattern, hvalid⟩
    · exact ⟨(IMetric.pattern_newSample hsample).trans hpattern, hvalid⟩

theorem routine_nonNull {f : MetricFamily} (hf : f.NonNull) (now : Int) :
    (f.routine now).NonNull := by
  intro labels item h
  rw [find?_routine] at h
  exact hf labels item (Option.filter_eq_some_iff.mp h).1

theorem nonNull_set {f : MetricFamily} (hf : f.NonNull) (labels : LabelSet) (m : IMetric)
    (now : Int) : NonNull { f with metrics := f.metrics.set labels ⟨some m, now⟩ } := by
  intro q item h
  exact OrderedMap.forall_set (by simp) hf q item h

/-- A call that raises changes nothing exactly if the metric and the reading of
the clock that it writes are there already. -/
theorem raised_unchanged {lib : Libraries} {f f' : MetricFamily} (hn : f.NonNull) {now : Int}
    {payload : Str} {labels : LabelSet} {err : Error}
    (h : newSample lib now payload labels f = .error err f') :
    f'.metrics = f.metrics ↔ ∃ m, f.metrics.find? labels = some ⟨some m, now⟩ := by
  rw [newSample_eq] at h
  cases ht : f.target lib labels with
  | error e =>
    simp only [ht] at h
    cases h
    -- without a metric to sample there was no item, and now there is one
    have hnone : f.metrics.find? labels = none := by
      cases hfind : f.metrics.find? labels with
      | none => rfl
      | some item =>
        obtain ⟨m, hm⟩ := Option.ne_none_iff_exists'.mp (hn labels item hfind)
        simp only [target, current, hfind, Option.bind_some, hm] at ht
        cases ht
    constructor
    · intro hsame
      have hfind := congrArg (OrderedMap.find? · labels) hsame
      simp only [OrderedMap.find?_set_self, hnone] at hfind
      cases hfind
    · rintro ⟨m, hm⟩
      rw [hnone] at hm
      cases hm
  | ok m =>
    simp only [ht] at h
    cases hm : m.newSample lib payload with
    | ok m' =>
      simp only [hm] at h
      cases h
    | error e =>
      simp only [hm] at h
      cases h
      constructor
      · intro hsame
        refine ⟨m, ?_⟩
        rw [← hsame, OrderedMap.find?_set_self]
      · rintro ⟨m₀, hfind⟩
        simp only [target, current, hfind, Option.bind_some] at ht
        cases ht
        exact OrderedMap.set_of_find? hfind

theorem allOrNothing_iff_harmless {lib : Libraries} {f : MetricFamily} (hf : f.WellTyped lib)
    (hn : f.NonNull) (e : FamilyEvent) : AllOrNothing lib f e ↔ Harmless lib f e := by
  cases e with
  | routine now =>
    exact ⟨fun _ => trivial, fun _ => ⟨routine_nonNull hn now, fun _ _ _ h => by cases h⟩⟩
  | sample now payload labels =>
    rcases hf.newSample_trial now payload labels with ⟨f', hok, htrial⟩ | ⟨e, f', herr, htrial⟩
    · refine ⟨fun _ => Or.inl htrial, fun _ => ⟨?_, fun now' payload' labels' heq => ?_⟩⟩
      · obtain ⟨m, m', -, -, rfl⟩ := newSample_ok hok
        rw [apply, hok]
        exact nonNull_set hn labels m' now
      · cases heq
        intro err g hg
        rw [hok] at hg
        cases hg
    · have hsame := raised_unchanged hn herr
      constructor
      · rintro ⟨-, hkept⟩
        exact Or.inr (hsame.mp (hkept now payload labels rfl e f' herr))
      · rintro (hno | hfind)
        · rw [htrial] at hno
          cases hno
        · have hmetrics := hsame.mpr hfind
          refine ⟨?_, fun now' payload' labels' heq => ?_⟩
          · rw [apply, herr]
            unfold NonNull final
            rw [hmetrics]
            exact hn
          · cases heq
            intro err g hg
            rw [herr] at hg
            cases hg
            exact hmetrics

/-- A run leaves no null metric and no trace of a call that raised exactly if
every call that raised found its series sampled at the same reading. -/
theorem allOrNothing_run (lib : Libraries) {config : Configuration} {f : MetricFamily}
    (h : create config = .ok f) (events : List FamilyEvent) :
    (∀ before e after, events = before ++ e :: after →
        AllOrNothing lib (f.run lib before) e) ↔
      ∀ before e after, events = before ++ e :: after → Harmless lib (f.run lib before) e := by
  have hstart : f.WellTyped lib ∧ f.NonNull := by
    refine ⟨create_wellTyped h lib, fun labels item hitem => ?_⟩
    cases create_ok h
    cases hitem
  have hruns : Meets (fun g e => some (apply lib g e)) (AllOrNothing lib) f events ↔
      Meets (fun g e => some (apply lib g e)) (Harmless lib) f events := by
    apply meets_iff (I := fun g => g.WellTyped lib ∧ g.NonNull) _ _ hstart
    · intro g e g' hg hC hstep
      cases hstep
      exact ⟨apply_wellTyped hg.1 e, hC.1⟩
    · exact fun g e hg => allOrNothing_iff_harmless hg.1 hg.2 e
  rw [meets_splits, meets_splits] at hruns
  exact hruns

/-- Searching the empty text raises. -/
def fragileLibraries : Libraries :=
  { simpleLibraries with
    regexCount := fun _ payload => if payload = [] then .error .regex else .ok 1 }

/-- A gauge that counts the matches of a pattern. -/
def patternEntry (pattern : String) : Configuration :=
  ⟨"t".toList, ⟨"m".toList, .matchGauge, [], [], [], [], [], [], pattern.toList⟩, [], 86400⟩

/-- The second sample raises, and its series was sampled at the same reading. -/
theorem allOrNothing_run_stamped :
    let f := run fragileLibraries ⟨patternEntry "x", .empty⟩ [.sample 5 "1".toList .empty]
    (∃ f', newSample fragileLibraries 5 [] .empty f = .error .regex f' ∧
      f'.metrics = f.metrics) ∧
    AllOrNothing fragileLibraries f (.sample 5 [] .empty) := by
  intro f
  have hcreate : create (patternEntry "x") = .ok ⟨patternEntry "x", .empty⟩ := rfl
  have hharmless : ∀ before e after, [FamilyEvent.sample 5 "1".toList .empty,
      .sample 5 [] .empty] = before ++ e :: after →
      Harmless fragileLibraries (run fragileLibraries ⟨patternEntry "x", .empty⟩ before) e := by
    intro before e after heq
    match before with
    | [] =>
      cases heq
      exact Or.inl rfl
    | [_] =>
      cases heq
      exact Or.inr ⟨_, rfl⟩
    | _ :: _ :: before =>
      have hlen := congrArg List.length heq
      simp at hlen
  have hall := (allOrNothing_run fragileLibraries hcreate _).mpr hharmless
    [.sample 5 "1".toList .empty] _ [] rfl
  exact ⟨⟨_, rfl, hall.2 5 [] .empty rfl .regex _ rfl⟩, hall⟩

/-- The pattern is not valid. -/
def brokenEntry : Configuration := patternEntry "("

theorem broken_leaves_null :
    ¬ (run simpleLibraries ⟨brokenEntry, .empty⟩ [.sample 0 "1".toList .empty]).NonNull :=
  fun h => h .empty ⟨none, 0⟩ (by decide) rfl

end MetricFamily

end MqttExporter
