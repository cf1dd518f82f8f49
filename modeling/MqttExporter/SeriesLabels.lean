import MqttExporter.Registration

/-!
# Labels of the stored series

The configured labels are split into constant and templated ones. The templated
ones travel with the message into the series; `labels_complete_iff` says when
nothing is missing there.
-/

namespace MqttExporter

open Loop

/-! ## The templated labels -/

theorem find?_selectLabels {labels : List Label} (hn : (labels.map Label.key).Nodup)
    (p : Label → Bool) {l : Label} (hl : l ∈ labels) :
    (MetricFamily.selectLabels p labels).find? l.key = if p l then some l.value else none := by
  rw [MetricFamily.selectLabels, OrderedMap.find?_ofList]
  split
  · rename_i hp
    apply OrderedMap.lookup_of_mem
    · rw [List.map_map]
      exact hn.sublist (List.filter_sublist.map Label.key)
    · exact List.mem_map.mpr ⟨l, List.mem_filter.mpr ⟨hl, hp⟩, rfl⟩
  · rename_i hp
    apply OrderedMap.lookup_eq_none.mpr
    intro e he hkey
    obtain ⟨l', hl', rfl⟩ := List.mem_map.mp he
    obtain ⟨hmem, hp'⟩ := List.mem_filter.mp hl'
    obtain rfl := List.inj_on_of_nodup_map hn hmem hl hkey
    exact hp hp'

theorem mem_keys_selectLabels {labels : List Label} {p : Label → Bool} {k : Str}
    (h : k ∈ (MetricFamily.selectLabels p labels).keys) : ∃ l ∈ labels, l.key = k := by
  obtain ⟨v, hv⟩ := (OrderedMap.mem_keys_iff _).mp h
  rw [MetricFamily.selectLabels, OrderedMap.find?_ofList] at hv
  obtain ⟨l, hl, he⟩ := List.mem_map.mp (OrderedMap.mem_of_lookup hv)
  cases he
  exact ⟨l, (List.mem_filter.mp hl).1, rfl⟩

/-! ## Complete label sets -/

/-- A label set has the configured keys, the constant values as they are, and
the templated ones with the variables of the message put in. -/
structure CompleteLabels (lib : Libraries) (m : Message) (config : Configuration)
    (labels : LabelSet) : Prop where
  keys : ∀ k, k ∈ labels.keys ↔ ∃ l ∈ config.openMetric.labels, l.key = k
  constant : ∀ l ∈ config.openMetric.labels, '$' ∉ l.value → labels.find? l.key = some l.value
  templated : ∃ vars, parse lib config.vars m.topic m.payload = .ok vars ∧
    ∀ l ∈ config.openMetric.labels, '$' ∈ l.value →
      labels.find? l.key = some (substitute (lib.hashOrder vars) l.value)

namespace App

theorem extract_ok {lib : Libraries} {metric : MetricFamily} {topic payload p : Str}
    {labels : LabelSet} (h : extract lib metric topic payload = .ok (p, labels)) :
    ∃ vars, parse lib metric.config.vars topic payload = .ok vars ∧
      labels = replace metric.getVariableLabels (lib.hashOrder vars) := by
  unfold extract at h
  cases hparse : parse lib metric.getVariables topic payload with
  | error e =>
    rw [hparse] at h
    cases h
  | ok vars =>
    cases hpayload : metric.parsePayload lib payload with
    | error e =>
      rw [hparse, hpayload] at h
      cases h
    | ok parsed =>
      rw [hparse, hpayload] at h
      cases h
      exact ⟨vars, hparse, rfl⟩

/-- What is extracted from a message is complete exactly when nothing configured
is constant. -/
theorem extract_complete_iff {lib : Libraries} {m : Message} {metric : MetricFamily} {p : Str}
    {labels : LabelSet} (h : extract lib metric m.topic m.payload = .ok (p, labels))
    (hn : (metric.config.openMetric.labels.map Label.key).Nodup) :
    CompleteLabels lib m metric.config labels ↔
      ∀ l ∈ metric.config.openMetric.labels, '$' ∈ l.value := by
  obtain ⟨vars, hparse, rfl⟩ := extract_ok h
  have hfind : ∀ l ∈ metric.config.openMetric.labels,
      (replace metric.getVariableLabels (lib.hashOrder vars)).find? l.key =
        if '$' ∈ l.value then some (substitute (lib.hashOrder vars) l.value) else none := by
    intro l hl
    rw [find?_replace, MetricFamily.getVariableLabels, find?_selectLabels hn _ hl]
    by_cases hv : '$' ∈ l.value
    · simp [hv]
    · simp [hv]
  constructor
  · intro hc l hl
    by_contra hv
    have hconstant := hc.constant l hl hv
    rw [hfind l hl, if_neg hv] at hconstant
    cases hconstant
  · intro hall
    refine ⟨fun k => ⟨fun hk => ?_, ?_⟩, fun l hl hv => absurd (hall l hl) hv,
      vars, hparse, fun l hl hv => by rw [hfind l hl, if_pos hv]⟩
    · rw [replace_eq, OrderedMap.keys_mapValues] at hk
      exact mem_keys_selectLabels hk
    · rintro ⟨l, hl, rfl⟩
      exact (OrderedMap.mem_keys_iff _).mpr ⟨_, by rw [hfind l hl, if_pos (hall l hl)]⟩

/-! ## Where the samples are stored -/

/-- The series of the calls are there. -/
def Stored (calls : List SampleCall) (app : App) : Prop :=
  ∀ call ∈ calls, ∃ metric, app.metrics.find? call.key = some metric ∧
    (metric.current call.labels).isSome

/-- A handling stores what it samples and removes nothing. -/
theorem perform_stored {lib : Libraries} {m : Message} {x : Handling} {app app' : App}
    {calls : List SampleCall} (hs : Stored calls app) (h : perform lib m x app = .ok () app') :
    ∃ new, app'.history = app.history ++ new ∧ Stored (calls ++ new) app' := by
  have hnone : ∃ new, app.history = app.history ++ new ∧ Stored (calls ++ new) app :=
    ⟨[], (List.append_nil _).symm, by rwa [List.append_nil]⟩
  cases x with
  | check filter =>
    obtain ⟨-, rfl⟩ := raise_eq_ok.mp h
    exact hnone
  | sample key =>
    obtain ⟨-, rfl⟩ | ⟨metric, p, labels, metric', hm, -, hn, rfl⟩ := sampleFamily_ok h
    · exact hnone
    · refine ⟨[⟨key, p, labels⟩], rfl, fun call hcall => ?_⟩
      rcases List.mem_append.mp hcall with hold | hnew
      · obtain ⟨f, hf, hcurrent⟩ := hs call hold
        by_cases hkey : key = call.key
        · rw [← hkey, hm] at hf
          cases hf
          exact ⟨metric', by simp only [hkey, OrderedMap.find?_set_self],
            MetricFamily.current_newSample hn call.labels (Or.inr hcurrent)⟩
        · exact ⟨f, by simp only [OrderedMap.find?_set_ne _ _ hkey, hf], hcurrent⟩
      · cases List.mem_singleton.mp hnew
        exact ⟨metric', OrderedMap.find?_set_self _ _ _,
          MetricFamily.current_newSample hn labels (Or.inl rfl)⟩

theorem onMessage_stored {lib : Libraries} {m : Message} {app app' : App}
    (hc : app.client.AllLive) (h : onMessage lib m app = .ok () app') :
    Stored (samplesSince app app') app' := by
  rw [onMessage_eq_plan lib m hc] at h
  obtain ⟨calls, hhistory, hstored⟩ := forM_invariant
    (I := fun a => ∃ calls, a.history = app.history ++ calls ∧ Stored calls a)
    (fun x _ a a' ha hp => by
      obtain ⟨calls, hhistory, hstored⟩ := ha
      obtain ⟨new, hnew, hstored'⟩ := perform_stored hstored hp
      exact ⟨calls ++ new, by rw [hnew, hhistory, List.append_assoc], hstored'⟩)
    ⟨[], (List.append_nil _).symm, fun call hcall => absurd hcall List.not_mem_nil⟩ h
  rwa [samplesSince_append hhistory]

/-- The calls of a handled message carry what was extracted from it. -/
theorem extracted_of_mem {lib : Libraries} {m : Message} {app app' : App}
    (hc : app.client.AllLive) (h : onMessage lib m app = .ok () app') {call : SampleCall}
    (hcall : call ∈ samplesSince app app') {metric : MetricFamily}
    (hm : app'.metrics.find? call.key = some metric) :
    extract lib metric m.topic m.payload = .ok (call.payload, call.labels) := by
  obtain ⟨hsetup, hhistory⟩ := onMessage_history hc h
  rw [samplesSince_append hhistory] at hcall
  obtain ⟨x, -, hx⟩ := List.mem_flatMap.mp hcall
  cases x with
  | check filter => cases hx
  | sample key =>
    rw [sampleCall] at hx
    split at hx
    · cases hx
    · rename_i config hconfig
      split at hx
      · cases hx
      · rename_i payload labels he
        cases List.mem_singleton.mp hx
        rw [← hsetup.2, find?_configs, hm] at hconfig
        cases hconfig
        exact he

/-- A sample of a handled message is in a series of its family under its labels.
These are complete exactly when every configured label is templated. -/
theorem labels_complete_iff (lib : Libraries) (metrics : List Configuration) (app app' : App)
    (m : Message) (hr : Reachable lib metrics app) (h : onMessage lib m app = .ok () app')
    (call : SampleCall) (hcall : call ∈ samplesSince app app') :
    ∃ metric sampled, app'.metrics.find? call.key = some metric ∧
      metric.current call.labels = some sampled ∧ sampled.BelongsTo lib call.labels ∧
      ((metric.config.openMetric.labels.map Label.key).Nodup →
        (CompleteLabels lib m metric.config call.labels ↔
          ∀ l ∈ metric.config.openMetric.labels, '$' ∈ l.value)) := by
  obtain ⟨metric, hm, hcurrent⟩ := onMessage_stored hr.running.live h call hcall
  obtain ⟨sampled, hsampled⟩ := Option.isSome_iff_exists.mp hcurrent
  obtain ⟨item, hitem, hmetric⟩ := Option.bind_eq_some_iff.mp hsampled
  obtain ⟨sampled', hsampled', hbelongs⟩ :=
    ((onMessage_running hr.running h).families call.key metric hm).1 call.labels item hitem
  rw [hmetric] at hsampled'
  cases hsampled'
  refine ⟨metric, sampled, hm, hsampled, hbelongs, fun hn => ?_⟩
  exact extract_complete_iff (extracted_of_mem hr.running.live h hcall hm) hn

/-- A counter on every topic, with the topic as a variable. -/
def labelledEntry (labels : List Label) : Configuration :=
  let entry := counterEntry "#" "n"
  { entry with
    openMetric := { entry.openMetric with labels := labels }
    vars := [⟨"id".toList, .topic, "(.*)".toList⟩] }

/-- A templated label. -/
theorem labels_complete_templated : ∃ app app' call,
    register [labelledEntry [⟨"device".toList, placeholder "id".toList⟩]] initial = .ok () app ∧
    onMessage simpleLibraries ⟨"a".toList, []⟩ app = .ok () app' ∧
    samplesSince app app' = [call] ∧ call.labels.entries = [("device".toList, "a".toList)] ∧
    CompleteLabels simpleLibraries ⟨"a".toList, []⟩
      (labelledEntry [⟨"device".toList, placeholder "id".toList⟩]) call.labels := by
  let metrics := [labelledEntry [⟨"device".toList, placeholder "id".toList⟩]]
  let call : SampleCall := ⟨"#".toList, [], .ofList [("device".toList, "a".toList)]⟩
  obtain ⟨metric, sampled, hm, -, -, hcomplete⟩ := labels_complete_iff simpleLibraries metrics _ _
    ⟨"a".toList, []⟩ ⟨_, [], rfl, rfl⟩ rfl call (by decide)
  cases hm
  exact ⟨_, _, call, rfl, rfl, by decide, by decide, (hcomplete (by decide)).mpr (by decide)⟩

/-- A constant label is not in the series. -/
theorem constant_label_dropped : ¬ ∀ lib metrics app app' m, Reachable lib metrics app →
    onMessage lib m app = .ok () app' → ∀ call ∈ samplesSince app app', ∀ metric,
      app'.metrics.find? call.key = some metric →
      (metric.config.openMetric.labels.map Label.key).Nodup →
      CompleteLabels lib m metric.config call.labels := by
  intro h
  let metrics := [labelledEntry [⟨"site".toList, "home".toList⟩]]
  have hcomplete := h simpleLibraries metrics _ _ ⟨"a".toList, []⟩ ⟨_, [], rfl, rfl⟩ rfl
    ⟨"#".toList, [], .empty⟩ (by decide) _ rfl (by decide)
  have hsite := hcomplete.constant ⟨"site".toList, "home".toList⟩ List.mem_cons_self (by decide)
  cases hsite

end App

end MqttExporter
