import MqttExporter.MetricFamily

/-!
# Runs of a family

A family lives through samples and routine passes, in any order and with any
clock readings. A sample that raises leaves what it left.

* `run_induction`: what every event keeps, every run keeps;
* `run_named`: the points of every state of a run are called after label sets
  that were sampled.
-/

namespace MqttExporter

open Loop

inductive FamilyEvent where
  | sample (now : Int) (payload : Str) (labels : LabelSet)
  | routine (now : Int)

/-- The label set that an event samples. -/
def FamilyEvent.sampled : FamilyEvent → Option LabelSet
  | .sample _ _ labels => some labels
  | .routine _ => none

namespace MetricFamily

def apply (lib : Libraries) (f : MetricFamily) : FamilyEvent → MetricFamily
  | .sample now payload labels => final (newSample lib now payload labels f)
  | .routine now => f.routine now

def run (lib : Libraries) (f : MetricFamily) (events : List FamilyEvent) : MetricFamily :=
  events.foldl (apply lib) f

theorem run_snoc (lib : Libraries) (f : MetricFamily) (events : List FamilyEvent)
    (e : FamilyEvent) : f.run lib (events ++ [e]) = (f.run lib events).apply lib e := by
  rw [run, List.foldl_append]
  rfl

theorem run_induction {lib : Libraries} {I : MetricFamily → Prop} {events : List FamilyEvent}
    (step : ∀ e ∈ events, ∀ f, I f → I (f.apply lib e)) {f : MetricFamily} (hf : I f) :
    I (f.run lib events) := by
  induction events generalizing f with
  | nil => exact hf
  | cons e es ih =>
    exact ih (fun x hx => step x (List.mem_cons_of_mem e hx)) (step e List.mem_cons_self f hf)

/-- However a call ends, one item is written, and a metric in it is the one the
call samples, before or after the sample. -/
theorem final_newSample (lib : Libraries) (now : Int) (payload : Str) (labels : LabelSet)
    (f : MetricFamily) :
    ∃ item, final (newSample lib now payload labels f) =
        { f with metrics := f.metrics.set labels item } ∧
      ∀ m', item.metric = some m' →
        ∃ m, f.target lib labels = .ok m ∧ (m' = m ∨ m.newSample lib payload = .ok m') := by
  rw [newSample_eq]
  cases ht : f.target lib labels with
  | error e =>
    refine ⟨_, rfl, fun m' hm' => ?_⟩
    have hcur : f.current labels = ((f.metrics.find? labels).getD ⟨none, 0⟩).metric := by
      unfold current
      cases f.metrics.find? labels <;> rfl
    rw [target, hcur, hm'] at ht
    cases ht
  | ok m =>
    cases hs : m.newSample lib payload with
    | error e =>
      refine ⟨⟨some m, now⟩, by simp only [hs, final], fun m' hm' => ⟨m, rfl, Or.inl ?_⟩⟩
      cases hm'
      rfl
    | ok m₁ =>
      refine ⟨⟨some m₁, now⟩, by simp only [hs, final], fun m' hm' => ⟨m, rfl, Or.inr ?_⟩⟩
      cases hm'
      exact hs

theorem config_apply (lib : Libraries) (f : MetricFamily) (e : FamilyEvent) :
    (f.apply lib e).config = f.config := by
  cases e with
  | sample now payload labels =>
    obtain ⟨item, hf, -⟩ := final_newSample lib now payload labels f
    rw [apply, hf]
  | routine now => rfl

theorem config_run (lib : Libraries) (f : MetricFamily) (events : List FamilyEvent) :
    (f.run lib events).config = f.config :=
  run_induction (I := fun g => g.config = f.config)
    (fun e _ g hg => (config_apply lib g e).trans hg) rfl

/-- What a new metric has and a sample keeps, the metrics have after every event. -/
theorem apply_metrics {lib : Libraries} {f : MetricFamily} {Q : LabelSet → IMetric → Prop}
    (hf : ∀ labels item m, f.metrics.find? labels = some item → item.metric = some m →
      Q labels m) {e : FamilyEvent}
    (created : ∀ labels ∈ e.sampled, ∀ m,
      IMetric.create lib f.config.openMetric labels = .ok m → Q labels m)
    (sampled : ∀ labels ∈ e.sampled, ∀ m m' payload, Q labels m →
      m.newSample lib payload = .ok m' → Q labels m') :
    ∀ labels item m, (f.apply lib e).metrics.find? labels = some item →
      item.metric = some m → Q labels m := by
  cases e with
  | sample now payload labels =>
    obtain ⟨item, hset, hitem⟩ := final_newSample lib now payload labels f
    rw [apply, hset]
    have hnew : ∀ m', item.metric = some m' → Q labels m' := by
      intro m' hm'
      obtain ⟨m, ht, hm⟩ := hitem m' hm'
      have hold : Q labels m := forall_target (hf labels) (created labels rfl) ht
      cases hm with
      | inl heq =>
        rw [heq]
        exact hold
      | inr hsample => exact sampled labels rfl m m' payload hold hsample
    intro q x m' hq
    exact OrderedMap.forall_set hnew (fun q x hq m' => hf q x m' hq) q x hq m'
  | routine now =>
    intro q x m hq hx
    rw [apply, find?_routine] at hq
    exact hf q x m (Option.filter_eq_some_iff.mp hq).1 hx

/-! ## What the points are called -/

/-- Every metric belongs to the label set it is under, which has the property `P`. -/
def Named (lib : Libraries) (P : LabelSet → Prop) (f : MetricFamily) : Prop :=
  ∀ labels item m, f.metrics.find? labels = some item → item.metric = some m →
    P labels ∧ m.BelongsTo lib labels

theorem apply_named {lib : Libraries} {P : LabelSet → Prop} {e : FamilyEvent}
    (he : ∀ labels ∈ e.sampled, P labels) {f : MetricFamily} (hf : f.Named lib P) :
    (f.apply lib e).Named lib P := by
  apply apply_metrics hf
  · intro labels hl m hm
    exact ⟨he labels hl, IMetric.belongsTo_create hm⟩
  · intro labels hl m m' payload hm hsample
    exact ⟨hm.1, IMetric.belongsTo_newSample hm.2 hsample⟩

theorem run_named {lib : Libraries} {P : LabelSet → Prop} {config : Configuration}
    {events : List FamilyEvent} (he : ∀ e ∈ events, ∀ labels ∈ e.sampled, P labels) :
    (run lib ⟨config, .empty⟩ events).Named lib P :=
  run_induction (fun e hmem _ hf => apply_named (he e hmem) hf)
    (fun _ _ _ hfind => by cases hfind)

/-- Each point's name and label set are those of a series. -/
theorem point_named {lib : Libraries} {P : LabelSet → Prop} {f : MetricFamily}
    (hf : f.Named lib P) {points : List IPoint} (hp : f.points lib = some points) {p : IPoint}
    (hmem : p ∈ points) : ∃ labels, P labels ∧
      IMetric.IsSeries f.getFullname labels (p.fullname, p.labelSet) := by
  obtain ⟨ms, hv, rfl⟩ := Option.map_eq_some_iff.mp hp
  obtain ⟨m, hm, hpm⟩ := List.mem_flatMap.mp hmem
  obtain ⟨labels, item, hfind, hitem⟩ := mem_visited hv hm
  obtain ⟨hP, hbelongs⟩ := hf labels item m hfind hitem
  exact ⟨labels, hP, hbelongs.2 f.getFullname _ (List.mem_map_of_mem hpm)⟩

end MetricFamily

end MqttExporter
