import MqttExporter.FamilyRun
import MqttExporter.Registration

/-!
# What one response announces

A response is one block for each registered family: the lines that announce the
family, then a line for each point.

* `App.family_run`: a registered family is in a state that its samples and
  passes led to;
* `MetricFamily.points_single`: a family without histograms has one point for
  each label set, all of one name;
* `App.one_line_iff`: when nothing in a response is there twice.
-/

namespace MqttExporter

open Loop

/-! ## Registered families are runs -/

namespace App

/-- Every registered family is in a state that some samples and passes led to. -/
theorem family_run {lib : Libraries} {metrics : List Configuration} {app : App}
    (hr : Reachable lib metrics app) : Registered (fun metric =>
      ∃ events, metric = MetricFamily.run lib ⟨metric.config, .empty⟩ events) app := by
  have happly : ∀ (f : MetricFamily) e,
      (∃ events, f = MetricFamily.run lib ⟨f.config, .empty⟩ events) →
      ∃ events, f.apply lib e =
        MetricFamily.run lib ⟨(f.apply lib e).config, .empty⟩ events := by
    rintro f e ⟨events, hf⟩
    refine ⟨events ++ [e], ?_⟩
    rw [MetricFamily.config_apply, MetricFamily.run_snoc, ← hf]
  refine hr.registered ⟨?_, ?_, ?_⟩
  · intro config f h
    obtain rfl := MetricFamily.create_ok h
    exact ⟨[], rfl⟩
  · intro now payload labels f f' hf h
    have hfinal : f.apply lib (.sample now payload labels) = f' := by
      rw [MetricFamily.apply, h]
      rfl
    exact hfinal ▸ happly f (.sample now payload labels) hf
  · intro now f hf
    exact happly f (.routine now) hf

end App

/-! ## The points of one family -/

/-- What tells the line of a point from others. -/
def IPoint.series (p : IPoint) : Str × LabelSet := (p.fullname, p.labelSet)

def IPoint.line (p : IPoint) : Str := p.stringify ++ "\n".toList

/-- A type whose metrics have one point each. -/
def MetricType.IsPlain (type : MetricType) : Prop :=
  type = .counter ∨ type = .gauge ∨ type = .matchGauge

namespace MetricFamily

/-- What the points are called. -/
def pointName (f : MetricFamily) : Str :=
  if f.config.openMetric.type = .counter then f.getFullname ++ "_total".toList else f.getFullname

/-- A metric has one point, called after the label set it is under. -/
def Single (lib : Libraries) (f : MetricFamily) : Prop :=
  ∀ labels item m, f.metrics.find? labels = some item → item.metric = some m →
    m.series lib f.getFullname = [(f.pointName, labels)]

theorem series_create {lib : Libraries} {f : MetricFamily} (hp : f.config.openMetric.type.IsPlain)
    {labels : LabelSet} {m : IMetric} (h : IMetric.create lib f.config.openMetric labels = .ok m) :
    m.series lib f.getFullname = [(f.pointName, labels)] := by
  unfold IMetric.create at h
  unfold pointName
  rcases hp with ht | ht | ht
  · simp only [ht] at h ⊢
    cases h
    rfl
  · simp only [ht] at h ⊢
    cases h
    rfl
  · simp only [ht] at h ⊢
    obtain rfl := IMetric.matchGauge_create_ok h
    rfl

theorem apply_single {lib : Libraries} {f : MetricFamily}
    (hp : f.config.openMetric.type.IsPlain) (hf : f.Single lib) (e : FamilyEvent) :
    (f.apply lib e).Single lib := by
  have hname := getFullname_congr (config_apply lib f e)
  have hpoint : (f.apply lib e).pointName = f.pointName := by
    unfold pointName
    rw [config_apply, hname]
  unfold Single
  rw [hname, hpoint]
  apply apply_metrics hf
  · intro labels _ m hm
    exact series_create hp hm
  · intro labels _ m m' payload hm hsample
    exact (IMetric.series_newSample hsample f.getFullname).trans hm

theorem run_single {lib : Libraries} {config : Configuration}
    (hp : config.openMetric.type.IsPlain) (events : List FamilyEvent) :
    (run lib ⟨config, .empty⟩ events).Single lib := by
  refine (run_induction (I := fun f => f.config = config ∧ f.Single lib) ?_ ⟨rfl, ?_⟩).2
  · rintro e - f ⟨rfl, hf⟩
    exact ⟨config_apply lib f e, apply_single hp hf e⟩
  · intro labels item m hfind
    cases hfind

/-- Metrics with one point each give one line each. -/
theorem flatMap_single {lib : Libraries} {name n : Str} {es : List (LabelSet × MetricItem)}
    {ms : List IMetric} (hms : es.map (fun e => e.2.metric) = ms.map some)
    (hes : ∀ e ∈ es, ∀ m, e.2.metric = some m → m.series lib name = [(n, e.1)]) :
    (ms.flatMap fun m => m.points lib name).map IPoint.series = es.map (fun e => (n, e.1)) ∧
      (ms.flatMap fun m => metricText (m.points lib name)) =
        (ms.flatMap fun m => m.points lib name).flatMap IPoint.line := by
  induction es generalizing ms with
  | nil =>
    cases ms with
    | nil => exact ⟨rfl, rfl⟩
    | cons m ms => cases hms
  | cons e es ih =>
    cases ms with
    | nil => cases hms
    | cons m ms =>
      obtain ⟨hm, hrest⟩ := List.cons.inj hms
      obtain ⟨p, hpoints, hp⟩ := List.map_eq_singleton_iff.mp (hes e List.mem_cons_self m hm)
      obtain ⟨hseries, htext⟩ := ih hrest fun x hx => hes x (List.mem_cons_of_mem e hx)
      have hline : metricText [p] = p.line := by
        simp [metricText, IPoint.line]
      simp only [List.flatMap_cons, List.map_append, List.map_cons, List.flatMap_append, hpoints,
        hseries, htext, hline, IPoint.series, hp, List.map_nil, List.flatMap_nil]
      exact ⟨rfl, by rw [List.append_nil]⟩

/-- Without null metrics there is one point for each label set, and its line. -/
theorem points_single {lib : Libraries} {f : MetricFamily} (hc : f.Consistent lib)
    (hf : f.Single lib) : ∃ points, f.points lib = some points ∧
      points.map IPoint.series = f.metrics.keys.map (fun labels => (f.pointName, labels)) ∧
      f.samples lib = some (points.flatMap IPoint.line) := by
  obtain ⟨ms, hv⟩ := visited_defined hc
  obtain ⟨hseries, htext⟩ := @flatMap_single lib f.getFullname f.pointName f.metrics.entries ms
    (visited_eq_some.mp hv)
    fun e he m hm => hf e.1 e.2 m (f.metrics.mem_entries_iff.mp he) hm
  refine ⟨_, by rw [points, hv]; rfl, ?_, by rw [samples, hv, ← htext]; rfl⟩
  rw [hseries, OrderedMap.keys, List.map_map]
  rfl

end MetricFamily

/-! ## The blocks of a response -/

namespace App

/-- The families that a response goes through, with the points they have. -/
def blocks (lib : Libraries) (app : App) : Option (List (MetricFamily × List IPoint)) :=
  app.metrics.entries.mapM fun e => (e.2.points lib).map fun points => (e.2, points)

def blockText (b : MetricFamily × List IPoint) : Str :=
  b.1.header ++ b.2.flatMap IPoint.line ++ "\n".toList ++ "\n".toList

/-- The response is the text of the blocks; no two of its sample lines are of
one series, and no two TYPE lines announce one full name. -/
def OneLine (lib : Libraries) (app : App) : Prop :=
  ∃ bs, blocks lib app = some bs ∧
    handleGet lib app = some (bs.flatMap blockText ++ "# EOF\n".toList) ∧
    (bs.flatMap fun b => b.2.map IPoint.series).Nodup ∧
    (bs.map fun b => b.1.getFullname).Nodup

/-- The series of a family: what its points are called. -/
def seriesOf (f : MetricFamily) : List (Str × LabelSet) :=
  f.metrics.keys.map fun labels => (f.pointName, labels)

theorem seriesOf_nodup (f : MetricFamily) : (seriesOf f).Nodup :=
  f.metrics.keys_nodup.map fun _ _ h => (Prod.mk.inj h).2

theorem blocks_single {lib : Libraries} {es : List (Str × MetricFamily)}
    (h : ∀ e ∈ es, e.2.Consistent lib ∧ e.2.Single lib) :
    ∃ bs, es.mapM (fun e => (e.2.points lib).map fun points => (e.2, points)) = some bs ∧
      es.mapM (fun e => e.2.stringify lib) =
        some (bs.map fun b => b.1.header ++ b.2.flatMap IPoint.line ++ "\n".toList) ∧
      (bs.flatMap fun b => b.2.map IPoint.series) = es.flatMap (fun e => seriesOf e.2) ∧
      (bs.map fun b => b.1.getFullname) = es.map fun e => e.2.getFullname := by
  induction es with
  | nil => exact ⟨[], rfl, rfl, rfl, rfl⟩
  | cons e es ih =>
    obtain ⟨bs, hbs, htexts, hseries, hnames⟩ := ih fun x hx => h x (List.mem_cons_of_mem e hx)
    obtain ⟨hc, hf⟩ := h e List.mem_cons_self
    obtain ⟨points, hpoints, hp, hsamples⟩ := MetricFamily.points_single hc hf
    have htext : e.2.stringify lib =
        some (e.2.header ++ points.flatMap IPoint.line ++ "\n".toList) := by
      rw [MetricFamily.stringify, hsamples]
      rfl
    refine ⟨(e.2, points) :: bs, ?_, ?_, ?_, ?_⟩
    · simp [List.mapM_cons, hpoints, hbs]
    · rw [List.mapM_cons, htext, htexts]
      rfl
    · rw [List.flatMap_cons, List.flatMap_cons, hseries, hp]
      rfl
    · rw [List.map_cons, List.map_cons, hnames]

/-- The condition in terms of the registry alone. -/
theorem oneLine_iff_nodup {lib : Libraries} {app : App}
    (h : ∀ e ∈ app.metrics.entries, e.2.Consistent lib ∧ e.2.Single lib) :
    OneLine lib app ↔ (app.metrics.entries.flatMap fun e => seriesOf e.2).Nodup ∧
      (app.metrics.entries.map fun e => e.2.getFullname).Nodup := by
  obtain ⟨bs, hbs, htexts, hseries, hnames⟩ := blocks_single h
  have hresponse : handleGet lib app = some (bs.flatMap blockText ++ "# EOF\n".toList) := by
    rw [handleGet, htexts]
    exact congrArg (fun t => some (t ++ "# EOF\n".toList)) (List.flatMap_map _ _ bs)
  rw [← hseries, ← hnames]
  constructor
  · rintro ⟨bs', hbs', -, hone⟩
    cases hbs.symm.trans hbs'
    exact hone
  · intro hone
    exact ⟨bs, hbs, hresponse, hone⟩

/-! ## When nothing collides -/

/-- No two entries have one full name, and where the name of a counter with its
suffix is the full name of another family, the two have no common label set. -/
structure Apart (metrics : List Configuration) (app : App) : Prop where
  fullnames : ∀ e ∈ metrics, ∀ e' ∈ metrics,
    MetricFamily.getFullname ⟨e, .empty⟩ = MetricFamily.getFullname ⟨e', .empty⟩ → e = e'
  suffixed : ∀ key f key' g, app.metrics.find? key = some f → app.metrics.find? key' = some g →
    f.config.openMetric.type = .counter → g.config.openMetric.type ≠ .counter →
    f.getFullname ++ "_total".toList = g.getFullname →
    ∀ labels, labels ∈ f.metrics.keys → labels ∉ g.metrics.keys

/-- The registered full names are those of the entries. -/
theorem fullnames_nodup_iff {lib : Libraries} {metrics : List Configuration} {app : App}
    (hr : Running lib metrics app) (hd : DistinctTopics metrics) :
    (app.metrics.entries.map fun e => e.2.getFullname).Nodup ↔ ∀ e ∈ metrics, ∀ e' ∈ metrics,
      MetricFamily.getFullname ⟨e, .empty⟩ = MetricFamily.getFullname ⟨e', .empty⟩ → e = e' := by
  rw [List.nodup_map_iff_inj_on app.metrics.entries_nodup]
  constructor
  · intro h e he e' he' hname
    obtain ⟨f, hf, rfl⟩ := hr.hasFamily hd he
    obtain ⟨g, hg, rfl⟩ := hr.hasFamily hd he'
    have heq := h _ (app.metrics.mem_entries_iff.mpr hf) _ (app.metrics.mem_entries_iff.mpr hg)
      hname
    rw [(Prod.mk.inj heq).2]
  · intro h x hx y hy hname
    obtain ⟨hxm, hxt⟩ := hr.entry (app.metrics.mem_entries_iff.mp hx)
    obtain ⟨hym, hyt⟩ := hr.entry (app.metrics.mem_entries_iff.mp hy)
    have hconfig := h _ hxm _ hym hname
    apply OrderedMap.eq_of_mem_entries hx hy
    rw [← hxt, ← hyt, hconfig]

/-- With distinct full names, families share a series only through the suffix. -/
theorem series_nodup_iff {app : App}
    (hn : (app.metrics.entries.map fun e => e.2.getFullname).Nodup) :
    (app.metrics.entries.flatMap fun e => seriesOf e.2).Nodup ↔
      ∀ key f key' g, app.metrics.find? key = some f → app.metrics.find? key' = some g →
        f.config.openMetric.type = .counter → g.config.openMetric.type ≠ .counter →
        f.getFullname ++ "_total".toList = g.getFullname →
        ∀ labels, labels ∈ f.metrics.keys → labels ∉ g.metrics.keys := by
  have hinj := (List.nodup_map_iff_inj_on app.metrics.entries_nodup).mp hn
  rw [OrderedMap.nodup_flatMap_iff fun e _ => seriesOf_nodup e.2]
  constructor
  · intro h key f key' g hf hg htf htg hname labels hlf hlg
    have hne : (key, f) ≠ (key', g) := by
      intro heq
      cases heq
      exact htg htf
    refine h _ (app.metrics.mem_entries_iff.mpr hf) _ (app.metrics.mem_entries_iff.mpr hg) hne
      (List.mem_map_of_mem hlf) (List.mem_map.mpr ⟨labels, hlg, ?_⟩)
    rw [MetricFamily.pointName, MetricFamily.pointName, if_pos htf, if_neg htg, hname]
  · rintro h ⟨key, f⟩ hf ⟨key', g⟩ hg hne s hsf hsg
    obtain ⟨labels, hlf, rfl⟩ := List.mem_map.mp hsf
    obtain ⟨labels', hlg, heq⟩ := List.mem_map.mp hsg
    obtain ⟨hname, rfl⟩ := Prod.mk.inj heq
    have hne' : f.getFullname ≠ g.getFullname := fun hfg => hne (hinj _ hf _ hg hfg)
    rw [app.metrics.mem_entries_iff] at hf hg
    unfold MetricFamily.pointName at hname
    by_cases htf : f.config.openMetric.type = .counter
    · by_cases htg : g.config.openMetric.type = .counter
      · rw [if_pos htf, if_pos htg] at hname
        exact hne' (List.append_cancel_right hname).symm
      · rw [if_pos htf, if_neg htg] at hname
        exact h key f key' g hf hg htf htg hname.symm labels' hlf hlg
    · by_cases htg : g.config.openMetric.type = .counter
      · rw [if_neg htf, if_pos htg] at hname
        exact h key' g key f hg hf htg htf hname labels' hlg hlf
      · rw [if_neg htf, if_neg htg] at hname
        exact hne' hname.symm

/-- With one point for each metric and a topic for each entry, nothing in a
response is there twice exactly when the names keep the families apart. -/
theorem one_line_iff (lib : Libraries) (metrics : List Configuration) (app : App)
    (hd : DistinctTopics metrics) (hp : ∀ e ∈ metrics, e.openMetric.type.IsPlain)
    (hr : Reachable lib metrics app) : OneLine lib app ↔ Apart metrics app := by
  have hfamilies : ∀ e ∈ app.metrics.entries, e.2.Consistent lib ∧ e.2.Single lib := by
    rintro ⟨key, f⟩ he
    have hm := app.metrics.mem_entries_iff.mp he
    refine ⟨(hr.running.families key f hm).1, ?_⟩
    obtain ⟨events, hrun⟩ := family_run hr key f hm
    rw [hrun]
    exact MetricFamily.run_single (hp f.config (hr.running.entry hm).1) events
  rw [oneLine_iff_nodup hfamilies]
  constructor
  · rintro ⟨hseries, hnames⟩
    exact ⟨(fullnames_nodup_iff hr.running hd).mp hnames, (series_nodup_iff hnames).mp hseries⟩
  · rintro ⟨hnames, hsuffixed⟩
    have hnodup := (fullnames_nodup_iff hr.running hd).mpr hnames
    exact ⟨(series_nodup_iff hnodup).mpr hsuffixed, hnodup⟩

/-- Two counters of different names, one of them sampled. -/
theorem one_line_two : ∃ app app',
    register [counterEntry "a" "one", counterEntry "b" "two"] initial = .ok () app ∧
    onMessage simpleLibraries ⟨"a".toList, []⟩ app = .ok () app' ∧
    OneLine simpleLibraries app' := by
  refine ⟨_, _, rfl, rfl, ?_⟩
  have hr : Reachable simpleLibraries [counterEntry "a" "one", counterEntry "b" "two"] _ :=
    ⟨_, [.message ⟨"a".toList, []⟩], rfl, rfl⟩
  refine (one_line_iff simpleLibraries _ _ (by simp [DistinctTopics, counterEntry])
    (by simp [counterEntry, MetricType.IsPlain]) hr).mpr ⟨?_, ?_⟩
  · simp [counterEntry, MetricFamily.getFullname, MetricFamily.getUnit, MetricFamily.getBaseName]
  · intro key f key' g hf hg htf htg
    have hmem := (hr.running.entry hg).1
    simp only [List.mem_cons, List.not_mem_nil, or_false] at hmem
    rcases hmem with h | h <;> exact absurd (by rw [h]; rfl) htg

/-- Two entries of one name on different topics. -/
theorem announced_twice : ¬ ∀ lib metrics app, DistinctTopics metrics →
    (∀ e ∈ metrics, e.openMetric.type.IsPlain) → Reachable lib metrics app →
    OneLine lib app := by
  intro h
  let metrics := [counterEntry "a" "n", counterEntry "b" "n"]
  obtain ⟨bs, hbs, -, -, hnames⟩ := h simpleLibraries metrics _
    (by simp [metrics, DistinctTopics, counterEntry])
    (by simp [metrics, counterEntry, MetricType.IsPlain]) ⟨_, [], rfl, rfl⟩
  cases hbs
  revert hnames
  decide

end App

end MqttExporter
