import MqttExporter.Replies

/-!
# One call after the other

`App` takes messages and routine passes one by one, each as a whole. That is one
of the schedules of the threads, so whatever `App` can do the program can do.

* `handle_writes`, `perform_simulated`, `sweep_simulated`: the calls, step by step;
* `runs_sequentially`: every run of `App` is a schedule, with the same registry.
-/

namespace MqttExporter

open Loop Transition

namespace Concurrent

variable {lib : Libraries} {config : Configuration} {s : Concurrent}

/-- A sample that does not raise has writes left when it has found its object. -/
theorem newSample_ok (hs : Sound lib config s) (hidle : s.call = none) {now : Int} {payload : Str}
    {labels : LabelSet} {f' : MetricFamily}
    (h : MetricFamily.newSample lib now payload labels s.family.value = .ok () f') :
    ∃ s₁ pointer ws, step lib s (.sample now payload labels) = some s₁ ∧
      s₁.call = some (pointer, ws) := by
  rw [step, if_pos hidle, newSample]
  rw [MetricFamily.newSample_eq] at h
  rcases s.family.locate_spec lib now labels hs.owned with
    ⟨e, f, hlocate, htarget, -, -⟩ | ⟨pointer, m, f, hlocate, htarget, -, -, hm, -⟩
  · rw [htarget] at h
    cases h
  · rw [htarget] at h
    simp only [hlocate, hm, Option.bind_eq_bind, Option.bind_some]
    rcases m.writes_spec lib payload with ⟨e, hwrites, hsample⟩ | ⟨ws, m', hwrites, -, -, -⟩
    · simp only [hsample] at h
      cases h
    · rw [hwrites]
      exact ⟨_, pointer, ws, rfl, rfl⟩

theorem config_of_sound (hs : Sound lib config s) (hidle : s.call = none) :
    s.family.config = config := by
  have hvalue := congrArg MetricFamily.config (hs.idle hidle)
  rw [familyAfter, MetricFamily.config_run] at hvalue
  exact hvalue

theorem value_after (hs : Sound lib config s) (hidle : s.call = none) {s' : Concurrent}
    (hs' : Sound lib config s') (hidle' : s'.call = none) {e : FamilyEvent}
    (hhistory : s'.history = s.history ++ [e]) :
    s'.family.value = s.family.value.apply lib e := by
  rw [hs'.idle hidle', hhistory, familyAfter_snoc, hs.idle hidle]

end Concurrent

namespace Exporter

variable {lib : Libraries} {e : Exporter} {app : App}

/-- The call that holds the lock of a family goes on until it releases it. -/
theorem handle_writes {config : Configuration} {key : Str} {f : Concurrent} {pointer : ℕ}
    {ws : List IMetric} (hs : Concurrent.Sound lib config f) (hf : e.families.find? key = some f)
    (hcall : f.call = some (pointer, ws)) (hsampling : e.sampling = some key) :
    ∃ f' : Concurrent, run (step lib) e (List.replicate (ws.length + 1) .handle) =
        some { e with families := e.families.set key f', sampling := none } ∧
      Concurrent.Sound lib config f' ∧ f'.call = none ∧ f'.history = f.history := by
  induction ws generalizing e f with
  | nil =>
    have hstep : f.step lib .write = some { f with call := none } := by
      simp only [Concurrent.step, hcall]
    refine ⟨{ f with call := none }, ?_, (Concurrent.step_sound hs hstep).1, rfl, rfl⟩
    simp [run, step, handle, hsampling, onFamily, hf, hstep]
  | cons w ws ih =>
    let f₁ : Concurrent := { f with
      family := f.family.assign pointer w, call := some (pointer, ws) }
    have hstep : f.step lib .write = some f₁ := by
      simp only [Concurrent.step, hcall]
      rfl
    have hhandle : step lib e .handle =
        some { e with families := e.families.set key f₁, sampling := some key } := by
      simp [step, handle, hsampling, onFamily, hf, hstep, f₁]
    obtain ⟨f', hrun, hs', hcall', hhistory⟩ :=
      @ih { e with families := e.families.set key f₁, sampling := some key } f₁
        (Concurrent.step_sound hs hstep).1 (OrderedMap.find?_set_self _ _ _) rfl rfl
    refine ⟨f', ?_, hs', hcall', hhistory⟩
    rw [List.length_cons, List.replicate_succ]
    refine run_cons.mpr ⟨_, hhandle, ?_⟩
    rw [hrun]
    simp only [OrderedMap.set_set]

/-- Between calls: the families are those of `app`, and the lock of none is held. -/
structure Resting (lib : Libraries) (app : App) (e : Exporter)
    (todo : Option (Message × List Work)) (selecting : Bool) (sweep : Option (List Str)) :
    Prop where
  client : e.client = app.client
  ticks : e.ticks = app.ticks
  handling : e.handling = todo
  selecting : e.selecting = selecting
  sampling : e.sampling = none
  sweep : e.sweep = sweep
  families : ∀ key, app.metrics.find? key = (e.families.find? key).map fun f => f.family.value
  idle : ∀ key f, e.families.find? key = some f →
    f.call = none ∧ Concurrent.Sound lib f.family.config f

variable {todo : Option (Message × List Work)} {selecting : Bool} {sweep : Option (List Str)}

theorem Resting.find (hr : Resting lib app e todo selecting sweep) {key : Str}
    {metric : MetricFamily} (h : app.metrics.find? key = some metric) :
    ∃ f, e.families.find? key = some f ∧ f.family.value = metric ∧ f.call = none ∧
      Concurrent.Sound lib f.family.config f := by
  rw [hr.families key] at h
  obtain ⟨f, hf, hvalue⟩ := Option.map_eq_some_iff.mp h
  exact ⟨f, hf, hvalue, hr.idle key f hf⟩

theorem Resting.find_none (hr : Resting lib app e todo selecting sweep) {key : Str}
    (h : app.metrics.find? key = none) : e.families.find? key = none := by
  rw [hr.families key] at h
  exact Option.map_eq_none_iff.mp h

/-- One family has been given another state, on both sides. -/
theorem Resting.set (hr : Resting lib app e todo selecting sweep) {f' : Concurrent}
    {metric : MetricFamily}
    (hvalue : f'.family.value = metric) (hidle : f'.call = none)
    (hs : Concurrent.Sound lib f'.family.config f') (key : Str) :
    (∀ q, (app.metrics.set key metric).find? q =
      ((e.families.set key f').find? q).map fun f => f.family.value) ∧
    ∀ q f, (e.families.set key f').find? q = some f →
      f.call = none ∧ Concurrent.Sound lib f.family.config f := by
  refine ⟨fun q => ?_, fun q f hq => ?_⟩
  · rw [OrderedMap.find?_set, OrderedMap.find?_set]
    split
    · rw [Option.map_some, hvalue]
    · exact hr.families q
  · rw [OrderedMap.find?_set] at hq
    split at hq
    · cases hq
      exact ⟨hidle, hs⟩
    · exact hr.idle q f hq

/-- A handling that does not raise is a few steps of the network thread. -/
theorem perform_simulated {m : Message} {x : App.Handling} {rest : List Work} {app' : App}
    (hr : Resting lib app e (some (m, .handling x :: rest)) selecting sweep)
    (h : App.perform lib m x app = .ok () app') :
    ∃ actions e', run (step lib) e actions = some e' ∧
      Resting lib app' e' (some (m, rest)) selecting sweep := by
  cases x with
  | check filter =>
    obtain ⟨hcheck, rfl⟩ := raise_eq_ok.mp h
    refine ⟨[.handle], { e with handling := some (m, rest) }, ?_, hr.client, hr.ticks, rfl,
      hr.selecting, hr.sampling, hr.sweep, hr.families, hr.idle⟩
    cases hmatch : MosquittoClient.matchTopic lib filter m.topic with
    | error err =>
      rw [hmatch] at hcheck
      cases hcheck
    | ok b => simp [run, step, handle, hr.sampling, hr.handling, handleOne, hmatch]
  | sample key =>
    rcases App.sampleFamily_ok h with
      ⟨hnone, rfl⟩ | ⟨metric, payload, labels, metric', hm, hextract, hsample, rfl⟩
    · refine ⟨[.handle], { e with handling := some (m, rest) }, ?_, hr.client, hr.ticks, rfl,
        hr.selecting, hr.sampling, hr.sweep, hr.families, hr.idle⟩
      simp [run, step, handle, hr.sampling, hr.handling, handleOne, hr.find_none hnone]
    · obtain ⟨f, hf, rfl, hidle, hs⟩ := hr.find hm
      rw [← hr.ticks] at hsample
      obtain ⟨f₁, pointer, ws, hstep, hcall⟩ := Concurrent.newSample_ok hs hidle hsample
      let e₁ : Exporter := { e with
        families := e.families.set key f₁, ticks := e.ticks + 1, handling := some (m, rest),
        sampling := some key }
      have hfirst : step lib e .handle = some e₁ := by
        simp [step, handle, hr.sampling, hr.handling, handleOne, hf, hextract, onFamily, hstep,
          hcall, e₁]
      have hconfig := Concurrent.config_step hstep
      have hs₁ : Concurrent.Sound lib f.family.config f₁ := (Concurrent.step_sound hs hstep).1
      have hfind : e₁.families.find? key = some f₁ := OrderedMap.find?_set_self _ _ _
      obtain ⟨f', hrun, hs', hidle', hhistory⟩ := handle_writes hs₁ hfind hcall rfl
      have hhistory₁ : f'.history = f.history ++ [.sample (lib.clock e.ticks) payload labels] := by
        rw [hhistory, Concurrent.history_step hstep]
        rfl
      have hvalue : f'.family.value = metric' := by
        rw [Concurrent.value_after hs hidle hs' hidle' hhistory₁, MetricFamily.apply, hsample]
        rfl
      have hown : Concurrent.Sound lib f'.family.config f' := by
        rw [Concurrent.config_of_sound hs' hidle']
        exact hs'
      have hset : e₁.families.set key f' = e.families.set key f' := OrderedMap.set_set _ _ _ _
      rw [hset] at hrun
      obtain ⟨hfamilies, hidles⟩ := hr.set hvalue hidle' hown key
      exact ⟨_, _, run_cons.mpr ⟨e₁, hfirst, hrun⟩, hr.client, congrArg (· + 1) hr.ticks, rfl,
        hr.selecting, rfl, hr.sweep, hfamilies, hidles⟩

/-- Whether the lock is shared after a step. -/
def Work.shares (before : Bool) : Work → Bool
  | .lock => true
  | .unlock => false
  | .handling _ => before

theorem shares_handlings {α : Type} (f : α → App.Handling) (xs : List α) (before : Bool) :
    (xs.map fun x => Work.handling (f x)).foldl Work.shares before = before := by
  induction xs with
  | nil => rfl
  | cons x xs ih => exact ih

/-- A callback has released the lock when it is done. -/
theorem shares_work (lib : Libraries) (m : Message) (client : MosquittoClient Str)
    (configs : OrderedMap Str Configuration) :
    (work lib m client configs).foldl Work.shares false = false := by
  have hflat : ∀ {α : Type} (f : α → List Work) (xs : List α),
      (∀ x ∈ xs, (f x).foldl Work.shares false = false) →
      (xs.flatMap f).foldl Work.shares false = false := by
    intro α f xs hf
    induction xs with
    | nil => rfl
    | cons x xs ih =>
      rw [List.flatMap_cons, List.foldl_append, hf x List.mem_cons_self]
      exact ih fun y hy => hf y (List.mem_cons_of_mem x hy)
  refine hflat _ _ fun s _ => ?_
  rw [subscriptionWork, List.foldl_cons]
  split
  · refine hflat _ _ fun omName _ => ?_
    rw [callbackWork, List.foldl_append, List.foldl_cons]
    exact shares_handlings _ _ false
  · rfl

theorem plan_simulated {m : Message} {xs : List Work} {app' : App}
    (hr : Resting lib app e (some (m, xs)) selecting none)
    (h : (handlings xs).forM (App.perform lib m) app = .ok () app') :
    ∃ actions e', run (step lib) e actions = some e' ∧
      Resting lib app' e' (some (m, [])) (xs.foldl Work.shares selecting) none := by
  induction xs generalizing app e selecting with
  | nil =>
    cases h
    exact ⟨[], e, rfl, hr⟩
  | cons x xs ih =>
    cases x with
    | lock =>
      let e₁ : Exporter := { e with handling := some (m, xs), selecting := true }
      have hlock : step lib e .handle = some e₁ := by
        simp [step, handle, hr.sampling, hr.handling, handleOne, hr.sweep, e₁]
      obtain ⟨actions, e', hrun, hr'⟩ := @ih e₁ app true ⟨hr.client, hr.ticks, rfl, rfl,
        hr.sampling, hr.sweep, hr.families, hr.idle⟩ h
      exact ⟨.handle :: actions, e', run_cons.mpr ⟨e₁, hlock, hrun⟩, hr'⟩
    | unlock =>
      let e₁ : Exporter := { e with handling := some (m, xs), selecting := false }
      have hunlock : step lib e .handle = some e₁ := by
        simp [step, handle, hr.sampling, hr.handling, handleOne, e₁]
      obtain ⟨actions, e', hrun, hr'⟩ := @ih e₁ app false ⟨hr.client, hr.ticks, rfl, rfl,
        hr.sampling, hr.sweep, hr.families, hr.idle⟩ h
      exact ⟨.handle :: actions, e', run_cons.mpr ⟨e₁, hunlock, hrun⟩, hr'⟩
    | handling x =>
      rw [handlings_handling, forM_cons] at h
      obtain ⟨⟨⟩, next, hx, hrest⟩ := bind_ok.mp h
      obtain ⟨actions, e₁, hrun, hr₁⟩ := perform_simulated hr hx
      obtain ⟨later, e', hlater, hr'⟩ := ih hr₁ hrest
      exact ⟨actions ++ later, e', run_append.mpr ⟨e₁, hrun, hlater⟩, hr'⟩

/-- A message that is handled without an error is a schedule. -/
theorem message_simulated {m : Message} {app' : App} (hr : Resting lib app e none false none)
    (hlive : app.client.AllLive) (h : App.onMessage lib m app = .ok () app') :
    ∃ actions e', run (step lib) e actions = some e' ∧ Resting lib app' e' none false none := by
  have hconfigs : e.configs = app.configs := by
    apply OrderedMap.ext_find
    intro key
    rw [configs, OrderedMap.find?_mapValues, App.find?_configs, hr.families key, Option.map_map]
    rfl
  let xs := work lib m e.client e.configs
  have hplan : handlings xs = App.plan lib m app := by
    rw [handlings_work, hr.client, hconfigs]
    rfl
  rw [App.onMessage_eq_plan lib m hlive, ← hplan] at h
  let e₁ : Exporter := { e with handling := some (m, xs), delivered := e.delivered ++ [m] }
  have hdeliver : step lib e (.deliver m) = some e₁ := by
    simp only [step, hr.handling, e₁, xs]
  have hr₁ : Resting lib app e₁ (some (m, xs)) false none :=
    ⟨hr.client, hr.ticks, rfl, hr.selecting, hr.sampling, hr.sweep, hr.families, hr.idle⟩
  obtain ⟨actions, e₂, hrun, hr₂⟩ := plan_simulated hr₁ h
  rw [shares_work] at hr₂
  have hlast : step lib e₂ .handle = some { e₂ with handling := none } := by
    simp [step, handle, hr₂.sampling, hr₂.handling]
  exact ⟨.deliver m :: (actions ++ [.handle]), { e₂ with handling := none },
    run_cons.mpr ⟨e₁, hdeliver, run_append.mpr ⟨e₂, hrun, run_cons.mpr ⟨_, hlast, rfl⟩⟩⟩,
    hr₂.client, hr₂.ticks, rfl, hr₂.selecting, hr₂.sampling, hr₂.sweep, hr₂.families, hr₂.idle⟩

/-- The routine pass over one family is a step of the routine thread. -/
theorem routine_simulated {key : Str} {keys : List Str} {metric : MetricFamily}
    (hr : Resting lib app e none false (some (key :: keys)))
    (hm : app.metrics.find? key = some metric) :
    ∃ e', step lib e .routine = some e' ∧
      Resting lib (app.routineFamily lib key) e' none false (some keys) := by
  obtain ⟨f, hf, rfl, hidle, hs⟩ := hr.find hm
  let f' : Concurrent := { f with
    family := f.family.routine (lib.clock e.ticks)
    history := f.history ++ [.routine (lib.clock e.ticks)] }
  have hstep : f.step lib (.routine (lib.clock e.ticks)) = some f' := by
    simp only [Concurrent.step, if_pos hidle, f']
  have hs' : Concurrent.Sound lib f.family.config f' := (Concurrent.step_sound hs hstep).1
  have hidle' : f'.call = none := hidle
  have hvalue : f'.family.value = f.family.value.routine (lib.clock app.ticks) := by
    rw [Concurrent.value_after hs hidle hs' hidle' rfl, hr.ticks]
    rfl
  have hown : Concurrent.Sound lib f'.family.config f' := by
    rw [Concurrent.config_of_sound hs' hidle']
    exact hs'
  have hroutine : app.routineFamily lib key = { app with
      metrics := app.metrics.set key (f.family.value.routine (lib.clock app.ticks))
      ticks := app.ticks + 1 } := by
    simp only [App.routineFamily, hm]
  obtain ⟨hfamilies, hidles⟩ := hr.set hvalue hidle' hown key
  refine ⟨{ e with
    families := e.families.set key f', ticks := e.ticks + 1, sweep := some keys }, ?_, ?_⟩
  · simp [step, routine, hr.sweep, onFamily, hf, hstep]
  · rw [hroutine]
    exact ⟨hr.client, congrArg (· + 1) hr.ticks, hr.handling, hr.selecting, hr.sampling, rfl,
      hfamilies, hidles⟩

theorem isSome_routineFamily {key q : Str} (h : (app.metrics.find? q).isSome) :
    ((app.routineFamily lib key).metrics.find? q).isSome := by
  unfold App.routineFamily
  split
  · exact h
  · rw [OrderedMap.find?_set]
    split
    · rfl
    · exact h

theorem routines_simulated {keys : List Str} (hr : Resting lib app e none false (some keys))
    (hsome : ∀ key ∈ keys, (app.metrics.find? key).isSome) :
    ∃ actions e', run (step lib) e actions = some e' ∧
      Resting lib (keys.foldl (App.routineFamily lib) app) e' none false (some []) := by
  induction keys generalizing app e with
  | nil => exact ⟨[], e, rfl, hr⟩
  | cons key keys ih =>
    obtain ⟨metric, hm⟩ := Option.isSome_iff_exists.mp (hsome key List.mem_cons_self)
    obtain ⟨e₁, hfirst, hr₁⟩ := routine_simulated hr hm
    obtain ⟨actions, e', hrun, hr'⟩ := ih hr₁ fun q hq =>
      isSome_routineFamily (hsome q (List.mem_cons_of_mem key hq))
    exact ⟨.routine :: actions, e', run_cons.mpr ⟨e₁, hfirst, hrun⟩, hr'⟩

/-- A pass of the routine thread is a schedule. -/
theorem sweep_simulated (hr : Resting lib app e none false none) :
    ∃ actions e', run (step lib) e actions = some e' ∧
      Resting lib (app.routine lib) e' none false none := by
  have hkeys : app.metrics.keys = e.families.keys := by
    have hmetrics : app.metrics = e.families.mapValues fun _ f => f.family.value := by
      apply OrderedMap.ext_find
      intro key
      rw [OrderedMap.find?_mapValues, hr.families key]
    rw [hmetrics, OrderedMap.keys_mapValues]
  let e₁ : Exporter := { e with sweep := some e.families.keys, sweeps := e.sweeps + 1 }
  have hwake : step lib e .wake = some e₁ := by
    simp [step, hr.selecting, hr.sweep, e₁]
  have hr₁ : Resting lib app e₁ none false (some app.metrics.keys) :=
    ⟨hr.client, hr.ticks, hr.handling, hr.selecting, hr.sampling, congrArg some hkeys.symm,
      hr.families, hr.idle⟩
  obtain ⟨actions, e₂, hrun, hr₂⟩ := routines_simulated hr₁ fun key hkey =>
    Option.isSome_iff_exists.mpr (app.metrics.mem_keys_iff.mp hkey)
  have hlast : step lib e₂ .routine = some { e₂ with sweep := none } := by
    simp only [step, routine, hr₂.sweep]
  exact ⟨.wake :: (actions ++ [.routine]), { e₂ with sweep := none },
    run_cons.mpr ⟨e₁, hwake, run_append.mpr ⟨e₂, hrun, run_cons.mpr ⟨_, hlast, rfl⟩⟩⟩,
    hr₂.client, hr₂.ticks, hr₂.handling, hr₂.selecting, hr₂.sampling, rfl, hr₂.families, hr₂.idle⟩

/-- What registration leaves: families without a series. -/
theorem resting_start (lib : Libraries) {metrics : List Configuration} {app : App}
    (h : App.register metrics .initial = .ok () app) :
    Resting lib app (start app) none false none := by
  have hfresh : app.ticks = 0 ∧
      ∀ key metric, app.metrics.find? key = some metric → metric = ⟨metric.config, .empty⟩ := by
    refine forM_invariant (I := fun a : App => a.ticks = 0 ∧ ∀ key metric,
      a.metrics.find? key = some metric → metric = ⟨metric.config, .empty⟩) ?_ ?_ h
    · rintro config - a a' ⟨hticks, ha⟩ hentry
      rw [App.registerEntry_eq] at hentry
      split at hentry
      · cases hentry
      · rename_i metric hcreate
        cases hentry
        obtain rfl := MetricFamily.create_ok hcreate
        exact ⟨hticks, OrderedMap.forall_emplace rfl ha⟩
    · exact ⟨rfl, fun key metric hm => by cases hm⟩
  refine ⟨rfl, hfresh.1.symm, rfl, rfl, rfl, rfl, fun key => ?_, fun key f hf => ?_⟩
  · rw [start, OrderedMap.find?_mapValues]
    cases hm : app.metrics.find? key with
    | none => rfl
    | some metric =>
      rw [hfresh.2 key metric hm]
      rfl
  · rw [start, OrderedMap.find?_mapValues] at hf
    obtain ⟨metric, -, rfl⟩ := Option.map_eq_some_iff.mp hf
    exact ⟨rfl, Concurrent.sound_start lib metric.config⟩

/-- Every run of `App` is a schedule of the threads: in its end no thread is at
work, and the families are those of `App`. -/
theorem runs_sequentially (lib : Libraries) (metrics : List Configuration) (app app' : App)
    (events : List App.Event) (h : App.register metrics .initial = .ok () app)
    (hrun : run (App.step lib) app events = some app') :
    ∃ actions e, run (step lib) (start app) actions = some e ∧
      e.handling = none ∧ e.sampling = none ∧ e.sweep = none ∧
      sequential lib e = { app' with history := [] } := by
  have hsimulate : ∀ (a : App) event a' e,
      (App.Running lib metrics a ∧ Resting lib a e none false none) →
      App.step lib a event = some a' →
      ∃ actions e', run (step lib) e actions = some e' ∧
        (App.Running lib metrics a' ∧ Resting lib a' e' none false none) := by
    rintro a event a' e ⟨hrunning, hr⟩ hstep
    have hrunning' := App.running_step hrunning hstep
    obtain ⟨m, -, hm⟩ | ⟨-, rfl⟩ := App.step_cases hstep
    · obtain ⟨actions, e', hactions, hr'⟩ := message_simulated hr hrunning.live hm
      exact ⟨actions, e', hactions, hrunning', hr'⟩
    · obtain ⟨actions, e', hactions, hr'⟩ := sweep_simulated hr
      exact ⟨actions, e', hactions, hrunning', hr'⟩
  obtain ⟨actions, e, hactions, -, hr⟩ := run_simulated hsimulate
    ⟨App.register_running h, resting_start lib h⟩ hrun
  refine ⟨actions, e, hactions, hr.handling, hr.sampling, hr.sweep, ?_⟩
  have hmetrics : app'.metrics = e.families.mapValues fun _ f =>
      Concurrent.familyAfter lib f.family.config f.history := by
    apply OrderedMap.ext_find
    intro key
    rw [hr.families key, OrderedMap.find?_mapValues]
    cases hf : e.families.find? key with
    | none => rfl
    | some f =>
      obtain ⟨hidle, hs⟩ := hr.idle key f hf
      exact congrArg some (hs.idle hidle)
  rw [sequential, ← hmetrics, hr.client, hr.ticks]

/-- A message and a pass. -/
theorem runs_sequentially_one : ∃ app app' e,
    run (App.step simpleLibraries) app [.message ⟨"a".toList, []⟩, .routine] = some app' ∧
    Reachable simpleLibraries [counterEntry "a" "one"] app e ∧ app'.history.length = 1 ∧
    sequential simpleLibraries e = { app' with history := [] } := by
  let app := final (App.register [counterEntry "a" "one"] .initial)
  have hend : (run (App.step simpleLibraries) app [.message ⟨"a".toList, []⟩, .routine]).map
      (fun a => a.history.length) = some 1 := by
    decide +kernel
  obtain ⟨app', hrun, hlength⟩ := Option.map_eq_some_iff.mp hend
  obtain ⟨actions, e, hactions, -, -, -, hsame⟩ := runs_sequentially simpleLibraries
    [counterEntry "a" "one"] app app' _ rfl hrun
  exact ⟨app, app', e, hrun, ⟨rfl, actions, hactions⟩, hlength, hsame⟩

end Exporter

end MqttExporter
