import MqttExporter.Dispatch
import MqttExporter.FamilyRun

/-!
# What the log says

The handling of messages logs each sample that finished, with the key of its
family. No function reads the log; the theorems that count samples do. A
registered family is what the samples logged under its key, and routine passes,
made of a new family.

* `onMessage_grows`, `routine_grows`: what a message and a pass do to the families;
* `Logged.grows`, `Logged.insert`: the log stays right through them, and through
  the registration of a family;
* `Logged.timesSampled_eq`: a family has had as many samples as are counted for it.
-/

namespace MqttExporter

open Loop

/-! ## Events and logged calls -/

/-- The sample that an event is, as a family under `key` logs it. -/
def FamilyEvent.call? (key : Str) : FamilyEvent → Option SampleCall
  | .sample _ payload labels => some ⟨key, payload, labels⟩
  | .routine _ => none

namespace MetricFamily

/-- None of the samples raises. -/
def Finishes (lib : Libraries) (f : MetricFamily) : List FamilyEvent → Prop
  | [] => True
  | e :: events => (∀ now payload labels, e = .sample now payload labels →
      newSample lib now payload labels f = .ok () (f.apply lib e)) ∧
    (f.apply lib e).Finishes lib events

theorem finishes_append {lib : Libraries} {f : MetricFamily} {xs ys : List FamilyEvent} :
    f.Finishes lib (xs ++ ys) ↔ f.Finishes lib xs ∧ (f.run lib xs).Finishes lib ys := by
  induction xs generalizing f with
  | nil => exact (true_and _).to_iff.symm
  | cons e xs ih =>
    rw [List.cons_append, Finishes, ih, Finishes, and_assoc]
    rfl

theorem run_append (lib : Libraries) (f : MetricFamily) (xs ys : List FamilyEvent) :
    f.run lib (xs ++ ys) = (f.run lib xs).run lib ys := List.foldl_append

end MetricFamily

namespace App

variable {lib : Libraries}

/-- The logged samples of the family under a key. -/
def callsOf (app : App) (key : Str) : List SampleCall :=
  app.history.filter fun call => call.key = key

theorem timesSampled_eq_length (app : App) (key : Str) :
    timesSampled app key = (callsOf app key).length := by
  rw [timesSampled, callsOf, List.count, List.countP_map, ← List.countP_eq_length_filter]
  congr 1
  funext call
  exact beq_eq_decide _ _

/-! ## From one state to the next -/

/-- A registered family went through what was logged for it, and a topic without
a family had nothing logged. -/
structure Grows (lib : Libraries) (app app' : App) : Prop where
  families : ∀ key metric, app.metrics.find? key = some metric → ∃ events,
    metric.Finishes lib events ∧ app'.metrics.find? key = some (metric.run lib events) ∧
      callsOf app' key = callsOf app key ++ events.filterMap (FamilyEvent.call? key)
  others : ∀ key, app.metrics.find? key = none →
    app'.metrics.find? key = none ∧ callsOf app' key = callsOf app key

theorem Grows.refl (app : App) : Grows lib app app where
  families _ _ hm := ⟨[], trivial, hm, (List.append_nil _).symm⟩
  others _ hm := ⟨hm, rfl⟩

theorem Grows.trans {a b c : App} (h : Grows lib a b) (h' : Grows lib b c) : Grows lib a c where
  families key metric hm := by
    obtain ⟨xs, hxs, hb, hcalls⟩ := h.families key metric hm
    obtain ⟨ys, hys, hc, hcalls'⟩ := h'.families key _ hb
    refine ⟨xs ++ ys, MetricFamily.finishes_append.mpr ⟨hxs, hys⟩, ?_, ?_⟩
    · rw [hc, MetricFamily.run_append]
    · rw [hcalls', hcalls, List.filterMap_append, List.append_assoc]
  others key hm := by
    obtain ⟨hb, hcalls⟩ := h.others key hm
    obtain ⟨hc, hcalls'⟩ := h'.others key hb
    exact ⟨hc, hcalls'.trans hcalls⟩

/-- One event of one family. -/
theorem Grows.one {app app' : App} {key : Str} {metric : MetricFamily} {e : FamilyEvent}
    (hm : app.metrics.find? key = some metric) (he : metric.Finishes lib [e])
    (hset : app'.metrics = app.metrics.set key (metric.apply lib e))
    (hlog : app'.history = app.history ++ (e.call? key).toList) : Grows lib app app' where
  families q f hq := by
    rw [callsOf, hlog, List.filter_append, hset]
    rcases eq_or_ne key q with rfl | hne
    · rw [hm] at hq
      cases hq
      refine ⟨[e], he, OrderedMap.find?_set_self _ _ _, ?_⟩
      cases e <;> simp [FamilyEvent.call?, callsOf]
    · refine ⟨[], trivial, (OrderedMap.find?_set_ne _ _ hne).trans hq, ?_⟩
      cases e <;> simp [FamilyEvent.call?, callsOf, hne]
  others q hq := by
    have hne : key ≠ q := by
      rintro rfl
      rw [hm] at hq
      cases hq
    rw [callsOf, hlog, List.filter_append, hset, OrderedMap.find?_set_ne _ _ hne]
    refine ⟨hq, ?_⟩
    cases e <;> simp [FamilyEvent.call?, callsOf, hne]

theorem perform_grows {m : Message} {x : Handling} {app app' : App}
    (h : perform lib m x app = .ok () app') : Grows lib app app' := by
  cases x with
  | check filter =>
    obtain ⟨-, rfl⟩ := raise_eq_ok.mp h
    exact .refl app
  | sample key =>
    obtain ⟨-, rfl⟩ | ⟨metric, p, labels, metric', hm, -, hn, rfl⟩ := sampleFamily_ok h
    · exact .refl app
    · have happly : metric.apply lib (.sample (lib.clock app.ticks) p labels) = metric' := by
        rw [MetricFamily.apply, hn, final]
      refine .one hm ⟨fun now payload labels' he => ?_, trivial⟩ (by rw [happly]) rfl
      cases he
      rw [happly, hn]

theorem onMessage_grows {m : Message} {app app' : App} (hc : app.client.AllLive)
    (h : onMessage lib m app = .ok () app') : Grows lib app app' := by
  rw [onMessage_eq_plan lib m hc] at h
  exact forM_invariant (I := Grows lib app) (fun _ _ _ _ ha hx => ha.trans (perform_grows hx))
    (.refl app) h

theorem routineFamily_grows (app : App) (key : Str) :
    Grows lib app (app.routineFamily lib key) := by
  unfold routineFamily
  split
  · exact .refl app
  · rename_i metric hm
    have hlog : app.history = app.history ++ [] := (List.append_nil _).symm
    refine .one (e := .routine (lib.clock app.ticks)) hm ⟨?_, trivial⟩ rfl hlog
    intro _ _ _ he
    cases he

theorem routine_grows (app : App) : Grows lib app (app.routine lib) := by
  unfold routine
  generalize app.metrics.keys = keys
  induction keys generalizing app with
  | nil => exact .refl app
  | cons key keys ih => exact (routineFamily_grows app key).trans (ih _)

/-! ## From the beginning -/

/-- Every registered family is the run of its logged samples and of routine
passes, and no other topic was sampled. -/
structure Logged (lib : Libraries) (app : App) : Prop where
  families : ∀ key metric, app.metrics.find? key = some metric → ∃ events,
    MetricFamily.Finishes lib ⟨metric.config, .empty⟩ events ∧
      metric = MetricFamily.run lib ⟨metric.config, .empty⟩ events ∧
      events.filterMap (FamilyEvent.call? key) = callsOf app key
  others : ∀ key, app.metrics.find? key = none → callsOf app key = []

theorem logged_initial : Logged lib initial where
  families _ _ h := by cases h
  others _ _ := rfl

theorem Logged.grows {app app' : App} (hl : Logged lib app) (h : Grows lib app app') :
    Logged lib app' where
  families key metric' hm' := by
    cases hm : app.metrics.find? key with
    | none =>
      rw [(h.others key hm).1] at hm'
      cases hm'
    | some metric =>
      obtain ⟨xs, hxs, heq, hcalls⟩ := hl.families key metric hm
      obtain ⟨ys, hys, hrun, hcalls'⟩ := h.families key metric hm
      rw [hrun] at hm'
      cases hm'
      rw [MetricFamily.config_run]
      refine ⟨xs ++ ys, MetricFamily.finishes_append.mpr ⟨hxs, heq ▸ hys⟩, ?_, ?_⟩
      · rw [MetricFamily.run_append, ← heq]
      · rw [List.filterMap_append, hcalls, hcalls']
  others key hm' := by
    cases hm : app.metrics.find? key with
    | none => rw [(h.others key hm).2, hl.others key hm]
    | some metric =>
      obtain ⟨events, -, hrun, -⟩ := h.families key metric hm
      rw [hrun] at hm'
      cases hm'

/-- A new family has been through nothing, and nothing was logged for it. -/
theorem Logged.insert {app : App} (hl : Logged lib app) {m : Configuration}
    {metric : MetricFamily} (h : MetricFamily.create m = .ok metric) (topic : Str) :
    Logged lib (app.insert topic metric) where
  families key f hf := by
    rw [App.insert, OrderedMap.find?_emplace] at hf
    split at hf
    · rename_i hkey
      cases hf
      obtain rfl := MetricFamily.create_ok h
      exact ⟨[], trivial, rfl, (hl.others key (hkey.1 ▸ hkey.2)).symm⟩
    · exact hl.families key f hf
  others key hf := by
    rw [App.insert, OrderedMap.find?_emplace] at hf
    split at hf
    · cases hf
    · exact hl.others key hf

/-- The client takes no part in it. -/
theorem Logged.setClient {app : App} (hl : Logged lib app) (client : MosquittoClient Str) :
    Logged lib { app with client := client } where
  families := hl.families
  others := hl.others

/-- A family has had as many samples as are logged for it. -/
theorem Logged.timesSampled_eq {app : App} (hl : Logged lib app) {key : Str}
    {metric : MetricFamily} (hm : app.metrics.find? key = some metric) : ∃ events,
    MetricFamily.Finishes lib ⟨metric.config, .empty⟩ events ∧
      metric = MetricFamily.run lib ⟨metric.config, .empty⟩ events ∧
      timesSampled app key = (events.filterMap (FamilyEvent.call? key)).length := by
  obtain ⟨events, hfin, hrun, hcalls⟩ := hl.families key metric hm
  exact ⟨events, hfin, hrun, by rw [hcalls, timesSampled_eq_length]⟩

end App

end MqttExporter
