import MqttExporter.Registration

/-!
# Failures in the handling of a message

Nothing between the client's callback and a family catches an exception, so a
handling that raises ends the message.

* `perform_attempt`: whether a handling raises can be read off the settings;
* `failure_outcome`: a message is isolated exactly when nothing in its plan
  raises; the first handling that does keeps what came before it, drops what
  comes after it and leaves with its exception.
-/

namespace MqttExporter

namespace App

open Loop

/-- How a handling ends. -/
def attempt (lib : Libraries) (m : Message) (configs : OrderedMap Str Configuration) :
    Handling → Except Error Unit
  | .check filter => (MosquittoClient.matchTopic lib filter m.topic).map fun _ => ()
  | .sample key =>
    match configs.find? key with
    | none => .ok ()
    | some config => do
      let (payload, _) ← extract lib ⟨config, .empty⟩ m.topic m.payload
      trial lib config.openMetric.pattern payload

/-- A handling that is tried in a running program ends as its settings say; one
that raises records nothing. -/
theorem perform_attempt {lib : Libraries} {metrics : List Configuration} {m : Message} {app : App}
    (hr : Running lib metrics app) (x : Handling) :
    (attempt lib m app.configs x = .ok () ∧ ∃ app', perform lib m x app = .ok () app') ∨
    ∃ e app', attempt lib m app.configs x = .error e ∧ perform lib m x app = .error e app' ∧
      app'.history = app.history := by
  cases x with
  | check filter =>
    cases hm : MosquittoClient.matchTopic lib filter m.topic with
    | ok b => exact Or.inl ⟨by rw [attempt, hm]; rfl, app, perform_check hm app⟩
    | error e =>
      exact Or.inr ⟨e, app, by rw [attempt, hm]; rfl, perform_check_error hm app, rfl⟩
  | sample key =>
    cases hm : app.metrics.find? key with
    | none =>
      exact Or.inl ⟨by rw [attempt, find?_configs, hm]; rfl, app,
        sampleFamily_none hm lib m.topic m.payload⟩
    | some metric =>
      have heq := sampleFamily_eq hm lib m.topic m.payload
      have hattempt : attempt lib m app.configs (.sample key) =
          (extract lib metric m.topic m.payload >>= fun x =>
            trial lib metric.config.openMetric.pattern x.1) := by
        rw [attempt, find?_configs, hm]
        rfl
      rw [hattempt]
      cases he : extract lib metric m.topic m.payload with
      | error e =>
        rw [he] at heq
        exact Or.inr ⟨e, app, rfl, heq, rfl⟩
      | ok extracted =>
        obtain ⟨payload, labels⟩ := extracted
        simp only [he, newSample] at heq
        have htyped := (hr.families key metric hm).2
        rcases htyped.newSample_trial (lib.clock app.ticks) payload labels with
          ⟨metric', hn, ht⟩ | ⟨e, metric', hn, ht⟩
        · rw [hn] at heq
          exact Or.inl ⟨ht, _, heq⟩
        · rw [hn] at heq
          exact Or.inr ⟨e, _, ht, heq, rfl⟩

/-- A handling changes the family it samples, if any, and no other. -/
theorem perform_untouched {lib : Libraries} {m : Message} {x : Handling} {app : App} {key : Str}
    (hx : x ≠ .sample key) :
    (final (perform lib m x app)).metrics.find? key = app.metrics.find? key := by
  cases x with
  | check filter =>
    cases hm : MosquittoClient.matchTopic lib filter m.topic with
    | ok b => rw [perform_check hm, final]
    | error e => rw [perform_check_error hm, final]
  | sample q =>
    cases h : perform lib m (.sample q) app with
    | error e app' =>
      exact (sampleFamily_error h).2.2 key fun hk => hx (hk ▸ rfl)
    | ok _ app' =>
      obtain ⟨-, rfl⟩ | ⟨metric, p, labels, metric', -, -, -, rfl⟩ := sampleFamily_ok h
      · rfl
      · exact OrderedMap.find?_set_ne _ _ fun hk => hx (hk ▸ rfl)

/-- Where not all goes well there is a first failure. -/
theorem exists_first_failure {lib : Libraries} {m : Message}
    {configs : OrderedMap Str Configuration} {xs : List Handling}
    (h : ¬ ∀ x ∈ xs, attempt lib m configs x = .ok ()) :
    ∃ done x rest e, xs = done ++ x :: rest ∧ (∀ y ∈ done, attempt lib m configs y = .ok ()) ∧
      attempt lib m configs x = .error e := by
  induction xs with
  | nil => exact absurd (fun x hx => absurd hx List.not_mem_nil) h
  | cons x xs ih =>
    cases hx : attempt lib m configs x with
    | error e => exact ⟨[], x, xs, e, rfl, fun y hy => absurd hy List.not_mem_nil, hx⟩
    | ok u =>
      obtain ⟨done, y, rest, e, rfl, hdone, hy⟩ := ih fun hxs => h fun z hz => by
        rcases List.mem_cons.mp hz with rfl | hz
        · exact hx
        · exact hxs z hz
      refine ⟨x :: done, y, rest, e, rfl, fun z hz => ?_, hy⟩
      rcases List.mem_cons.mp hz with rfl | hz
      · exact hx
      · exact hdone z hz

/-! ## Isolation -/

/-- No exception leaves the client's callback. -/
def Contained (lib : Libraries) (m : Message) (app : App) : Prop :=
  ∃ app', onMessage lib m app = .ok () app'

/-- Every family that the message is for and that can extract from it is sampled. -/
def OthersSampled (lib : Libraries) (m : Message) (app : App) : Prop :=
  ∀ key metric payload labels, app.metrics.find? key = some metric → Matches lib key m.topic →
    extract lib metric m.topic m.payload = .ok (payload, labels) →
    ⟨key, payload, labels⟩ ∈ samplesSince app (final (onMessage lib m app))

theorem sample_mem_plan {lib : Libraries} {metrics : List Configuration} {m : Message} {app : App}
    (hr : Running lib metrics app) {key : Str} {metric : MetricFamily}
    (hm : app.metrics.find? key = some metric) (hmatch : Matches lib key m.topic) :
    Handling.sample key ∈ plan lib m app := by
  obtain ⟨hentry, htopic⟩ := hr.entry hm
  have hname : metric.getBaseName ∈ app.client.callbacks lib m.topic := by
    rw [(hr.callbacks m.topic).mem_iff]
    exact List.mem_map_of_mem (List.mem_filter.mpr ⟨hentry, by simpa [htopic] using hmatch⟩)
  have hpos : 0 < ((plan lib m app).flatMap fun x => x.key?.toList).count key := by
    rw [count_plan hm, if_pos hmatch]
    exact List.count_pos_iff.mpr hname
  exact mem_keys_of_handlings.mp (List.count_pos_iff.mp hpos)

/-- A message without failures is handled to its end. -/
theorem plan_finishes {lib : Libraries} {metrics : List Configuration} {m : Message} {app : App}
    (hr : Running lib metrics app) {xs : List Handling}
    (hxs : ∀ x ∈ xs, attempt lib m app.configs x = .ok ()) :
    ∃ app', xs.forM (perform lib m) app = .ok () app' ∧ Running lib metrics app' ∧
      SameSetup app app' := by
  refine forM_finishes (I := fun a => Running lib metrics a ∧ SameSetup app a)
    (fun x hx a ha => ?_) ⟨hr, sameSetup_refl app⟩
  have hattempt := hxs x hx
  rw [← ha.2.2] at hattempt
  rcases perform_attempt (m := m) ha.1 x with ⟨-, a', hp⟩ | ⟨e, a', he, -⟩
  · exact ⟨a', hp, perform_running ha.1 hp, ha.2.trans (perform_sameSetup hp)⟩
  · rw [hattempt] at he
    cases he

theorem plan_untouched {lib : Libraries} {m : Message} {xs : List Handling} {app app' : App}
    {key : Str} (hkey : Handling.sample key ∉ xs) (h : xs.forM (perform lib m) app = .ok () app') :
    app'.metrics.find? key = app.metrics.find? key := by
  refine forM_invariant (I := fun a => a.metrics.find? key = app.metrics.find? key)
    (fun x hx a a' ha hp => ?_) rfl h
  have hne : x ≠ .sample key := fun he => hkey (he ▸ hx)
  have hother : (final (perform lib m x a)).metrics.find? key = a.metrics.find? key :=
    perform_untouched hne
  rw [hp, final] at hother
  exact hother.trans ha

/-- The first handling that raises ends the message. -/
theorem plan_raises {lib : Libraries} {metrics : List Configuration} {m : Message} {app : App}
    (hr : Running lib metrics app) {done rest : List Handling} {x : Handling} {e : Error}
    (hplan : plan lib m app = done ++ x :: rest)
    (hdone : ∀ y ∈ done, attempt lib m app.configs y = .ok ())
    (hx : attempt lib m app.configs x = .error e) :
    ∃ app', onMessage lib m app = .error e app' ∧
      samplesSince app app' = done.flatMap (sampleCall lib m app.configs) ∧
      ∀ key, Handling.sample key ∉ done ++ [x] →
        app'.metrics.find? key = app.metrics.find? key := by
  obtain ⟨app₁, hrun, hr₁, hs₁⟩ := plan_finishes hr hdone
  rw [← hs₁.2] at hx
  rcases perform_attempt hr₁ x with ⟨hok, -⟩ | ⟨e', app', he, hp, hhistory⟩
  · rw [hx] at hok
    cases hok
  · rw [hx] at he
    cases he
    refine ⟨app', ?_, ?_, ?_⟩
    · rw [onMessage_eq_plan lib m hr.live, hplan]
      exact forM_raises hrun hp
    · apply samplesSince_append
      rw [hhistory]
      exact (plan_history hrun).2
    · intro key hkey
      have hother : (final (perform lib m x app₁)).metrics.find? key = app₁.metrics.find? key :=
        perform_untouched fun h => hkey (by simp [h])
      rw [hp, final] at hother
      exact hother.trans (plan_untouched (fun h => hkey (List.mem_append_left _ h)) hrun)

/-- A message whose plan never raises is isolated. -/
theorem isolated_of_attempts {lib : Libraries} {metrics : List Configuration} {m : Message}
    {app : App} (hr : Running lib metrics app)
    (h : ∀ x ∈ plan lib m app, attempt lib m app.configs x = .ok ()) :
    Contained lib m app ∧ OthersSampled lib m app := by
  obtain ⟨app', hrun, -, -⟩ := plan_finishes hr h
  rw [← onMessage_eq_plan lib m hr.live] at hrun
  refine ⟨⟨app', hrun⟩, fun key metric payload labels hm hmatch he => ?_⟩
  have hcall : sampleCall lib m app.configs (.sample key) = [⟨key, payload, labels⟩] := by
    have he' : extract lib ⟨metric.config, .empty⟩ m.topic m.payload = .ok (payload, labels) := he
    simp [sampleCall, find?_configs, hm, he']
  rw [hrun, final, samplesSince_append (onMessage_history hr.live hrun).2]
  exact List.mem_flatMap.mpr ⟨.sample key, sample_mem_plan hr hm hmatch, by simp [hcall]⟩

/-- A message is isolated exactly when nothing in its plan raises. The first
handling that does leaves with its exception: the calls before it stay, nothing
after it is called, and no family that was not called changes. -/
theorem failure_outcome (lib : Libraries) (metrics : List Configuration) (app : App) (m : Message)
    (hr : Reachable lib metrics app) :
    (Contained lib m app ∧ OthersSampled lib m app ↔
      ∀ x ∈ plan lib m app, attempt lib m app.configs x = .ok ()) ∧
    ∀ done x rest e, plan lib m app = done ++ x :: rest →
      (∀ y ∈ done, attempt lib m app.configs y = .ok ()) →
      attempt lib m app.configs x = .error e →
      ∃ app', onMessage lib m app = .error e app' ∧
        samplesSince app app' = done.flatMap (sampleCall lib m app.configs) ∧
        ∀ key, Handling.sample key ∉ done ++ [x] →
          app'.metrics.find? key = app.metrics.find? key := by
  constructor
  · refine ⟨fun h => ?_, isolated_of_attempts hr.running⟩
    obtain ⟨⟨app', hok⟩, -⟩ := h
    by_contra hfail
    obtain ⟨done, x, rest, e, hplan, hdone, hx⟩ := exists_first_failure hfail
    obtain ⟨app'', herror, -⟩ := plan_raises hr.running hplan hdone hx
    rw [hok] at herror
    cases herror
  · intro done x rest e hplan hdone hx
    exact plan_raises hr.running hplan hdone hx

/-- A counter that samples what a JSON pointer names. -/
def jsonEntry (topic name : String) : Configuration :=
  let entry := counterEntry topic name
  { entry with openMetric := { entry.openMetric with payloadJsonPath := "/value".toList } }

/-- The family before the one that raises keeps its sample. -/
theorem failure_outcome_kept : ∃ app app',
    register [counterEntry "a" "plain", jsonEntry "#" "json"] initial = .ok () app ∧
    onMessage simpleLibraries ⟨"a".toList, []⟩ app = .error .json app' ∧
    samplesSince app app' = [⟨"a".toList, [], .empty⟩] := by
  let metrics := [counterEntry "a" "plain", jsonEntry "#" "json"]
  let before : List Handling := [.check "a".toList, .check "#".toList, .check "a".toList,
    .sample "a".toList, .check "#".toList, .check "#".toList, .check "a".toList]
  obtain ⟨app', hraise, hsamples, -⟩ :=
    (failure_outcome simpleLibraries metrics _ ⟨"a".toList, []⟩ ⟨_, [], rfl, rfl⟩).2 before
      (.sample "#".toList) [] .json (by decide) (by decide) (by decide)
  exact ⟨_, app', rfl, hraise, hsamples⟩

/-- A payload that is not JSON: the exception leaves, and the family behind the
one that reads JSON has no sample. -/
theorem not_isolated :
    (¬ ∀ lib metrics m app, Reachable lib metrics app → Contained lib m app) ∧
      ¬ ∀ lib metrics m app, Reachable lib metrics app → OthersSampled lib m app := by
  let metrics := [jsonEntry "#" "json", counterEntry "a" "plain"]
  constructor
  · intro h
    obtain ⟨app', hok⟩ := h simpleLibraries metrics ⟨"a".toList, []⟩ _ ⟨_, [], rfl, rfl⟩
    cases hok
  · intro h
    have hcall := h simpleLibraries metrics ⟨"a".toList, []⟩ _ ⟨_, [], rfl, rfl⟩ "a".toList _ []
      .empty rfl (by decide) rfl
    revert hcall
    decide

end App

end MqttExporter
