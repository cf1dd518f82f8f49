import MqttExporter.Base.Transition
import MqttExporter.MosquittoClient
import MqttExporter.MetricFamily
import MqttExporter.Template

/-!
# The exporter

Registration of the configured entries, handling of messages, scrapes and the
routine thread. The registry maps topics to families; a family is referred to
by its key. A callback captures the name of its entry.

* `sampleFamily_ok`, `sampleFamily_error`: how the handling of one family ends.
-/

namespace MqttExporter

open Loop

/-- A finished call of `newSample`, with what it was given. -/
structure SampleCall where
  key : Str
  payload : Str
  labels : LabelSet
  deriving DecidableEq

/-- `App` with what its threads share. `ticks` counts the clock readings;
`history` is the list of the samples so far. Nothing reads it, and `Logged` says
that it is what the families went through. -/
structure App where
  client : MosquittoClient Str
  metrics : OrderedMap Str MetricFamily
  ticks : Nat
  history : List SampleCall

namespace App

/-- Connected, before the registration loop. -/
def initial : App := ⟨.create, .empty, 0, []⟩

/-! ## Registration -/

def connect (app : App) (place : Nat) (omName : Str) : App :=
  { app with client := app.client.connect place omName }

/-- `_metrics->emplace`, which keeps a family that is there already. -/
def insert (app : App) (topic : Str) (metric : MetricFamily) : App :=
  { app with metrics := app.metrics.emplace topic metric }

/-- One pass of the loop over the configured metrics. -/
def registerEntry (m : Configuration) : EStateM Error App Unit := do
  let app ← get
  let (place, client) := app.client.subscribe m.topic
  set (connect { app with client := client } place m.openMetric.name)
  let metric ← raise (MetricFamily.create m)
  modify fun app => app.insert m.topic metric

def register (metrics : List Configuration) : EStateM Error App Unit := metrics.forM registerEntry

/-! ## Messages -/

/-- The loop over the registry: the families that match by topic and by name. -/
def select (lib : Libraries) (topic omName : Str) :
    List (Str × MetricFamily) → Except Error (List Str)
  | [] => .ok []
  | (name, metric) :: rest => do
    let found ← MosquittoClient.matchTopic lib name topic
    let metrics ← select lib topic omName rest
    return if found && metric.getBaseName = omName then name :: metrics else metrics

/-- What a family takes from a message: the payload and the labels to sample. -/
def extract (lib : Libraries) (metric : MetricFamily) (topic payload : Str) :
    Except Error (Str × LabelSet) := do
  let parsed ← parse lib metric.getVariables topic payload
  let variableLabels := replace metric.getVariableLabels (lib.hashOrder parsed)
  let parsedPayload ← metric.parsePayload lib payload
  return (parsedPayload, variableLabels)

/-- `metric->newSample`, for the family under `key`. -/
def newSample (lib : Libraries) (key : Str) (metric : MetricFamily) (payload : Str)
    (labels : LabelSet) : EStateM Error App Unit := fun app =>
  match MetricFamily.newSample lib (lib.clock app.ticks) payload labels metric with
  | .ok _ metric' => .ok () { app with
      metrics := app.metrics.set key metric'
      ticks := app.ticks + 1
      history := app.history ++ [⟨key, payload, labels⟩] }
  | .error e metric' => .error e { app with
      metrics := app.metrics.set key metric'
      ticks := app.ticks + 1 }

/-- The body of the loop over the selected families. -/
def sampleFamily (lib : Libraries) (topic payload key : Str) : EStateM Error App Unit := do
  let app ← get
  match app.metrics.find? key with
  | none => pure ()
  | some metric =>
    let (parsedPayload, variableLabels) ← raise (extract lib metric topic payload)
    newSample lib key metric parsedPayload variableLabels

def messageArrived (lib : Libraries) (topic payload omName : Str) : EStateM Error App Unit := do
  let app ← get
  let metrics ← raise (select lib topic omName app.metrics.entries)
  metrics.forM (sampleFamily lib topic payload)

/-- `MosquittoClient::onMessage` with the callbacks of the constructor. -/
def onMessage (lib : Libraries) (m : Message) : EStateM Error App Unit := do
  let app ← get
  app.client.onMessage lib m fun omName m => messageArrived lib m.topic m.payload omName

/-! ## Scrapes and the routine thread -/

/-- `MetricsHandler::handleGet`: the body of the response. -/
def handleGet (lib : Libraries) (app : App) : Option Str := do
  let texts ← app.metrics.entries.mapM fun e => e.2.stringify lib
  return texts.flatMap (fun text => text ++ "\n".toList) ++ "# EOF\n".toList

def routineFamily (lib : Libraries) (app : App) (key : Str) : App :=
  match app.metrics.find? key with
  | none => app
  | some metric =>
    { app with
      metrics := app.metrics.set key (metric.routine (lib.clock app.ticks))
      ticks := app.ticks + 1 }

/-- One pass of the routine thread over the registry. -/
def routine (lib : Libraries) (app : App) : App :=
  app.metrics.keys.foldl (routineFamily lib) app

/-! ## Runs -/

inductive Event where
  | message (m : Message)
  | routine

/-- An exception leaves the client's callback, and the program ends with it. -/
def step (lib : Libraries) (app : App) : Event → Option App
  | .message m =>
    match onMessage lib m app with
    | .ok _ app' => some app'
    | .error _ _ => none
  | .routine => some (app.routine lib)

/-- What a step can be. -/
theorem step_cases {lib : Libraries} {app app' : App} {e : Event} (h : step lib app e = some app') :
    (∃ m, e = .message m ∧ onMessage lib m app = .ok () app') ∨
      (e = .routine ∧ app' = app.routine lib) := by
  cases e with
  | message m =>
    simp only [step] at h
    split at h
    · rename_i a hm
      cases h
      exact Or.inl ⟨m, rfl, hm⟩
    · cases h
  | routine =>
    cases h
    exact Or.inr ⟨rfl, rfl⟩

/-- The states of the program started with a configuration. -/
def Reachable (lib : Libraries) (metrics : List Configuration) (app : App) : Prop :=
  ∃ app₀ events, register metrics initial = .ok () app₀ ∧
    Transition.run (step lib) app₀ events = some app

/-! ## What one family does with a message -/

theorem sampleFamily_eq {app : App} {key : Str} {metric : MetricFamily}
    (h : app.metrics.find? key = some metric) (lib : Libraries) (topic payload : Str) :
    sampleFamily lib topic payload key app =
      match extract lib metric topic payload with
      | .error e => .error e app
      | .ok (p, labels) => newSample lib key metric p labels app := by
  simp only [sampleFamily, bind_apply, get_apply, h]
  cases extract lib metric topic payload with
  | error e => rfl
  | ok x => rfl

theorem sampleFamily_none {app : App} {key : Str} (h : app.metrics.find? key = none)
    (lib : Libraries) (topic payload : Str) :
    sampleFamily lib topic payload key app = .ok () app := by
  simp only [sampleFamily, bind_apply, get_apply, h]
  rfl

/-- A finished handling stores one sample in the family and records it. -/
theorem sampleFamily_ok {lib : Libraries} {topic payload key : Str} {app app' : App}
    (h : sampleFamily lib topic payload key app = .ok () app') :
    (app.metrics.find? key = none ∧ app = app') ∨
    ∃ metric p labels metric', app.metrics.find? key = some metric ∧
      extract lib metric topic payload = .ok (p, labels) ∧
      MetricFamily.newSample lib (lib.clock app.ticks) p labels metric = .ok () metric' ∧
      app' = { app with
        metrics := app.metrics.set key metric'
        ticks := app.ticks + 1
        history := app.history ++ [⟨key, p, labels⟩] } := by
  cases hm : app.metrics.find? key with
  | none =>
    rw [sampleFamily_none hm] at h
    cases h
    exact Or.inl ⟨rfl, rfl⟩
  | some metric =>
    rw [sampleFamily_eq hm] at h
    cases he : extract lib metric topic payload with
    | error e =>
      rw [he] at h
      cases h
    | ok x =>
      obtain ⟨p, labels⟩ := x
      simp only [he, newSample] at h
      cases hn : MetricFamily.newSample lib (lib.clock app.ticks) p labels metric with
      | error e metric' =>
        rw [hn] at h
        cases h
      | ok _ metric' =>
        rw [hn] at h
        cases h
        exact Or.inr ⟨metric, p, labels, metric', rfl, he, hn, rfl⟩

/-- A handling that raised recorded nothing, and touched no other family. -/
theorem sampleFamily_error {lib : Libraries} {topic payload key : Str} {app app' : App}
    {e : Error} (h : sampleFamily lib topic payload key app = .error e app') :
    app'.history = app.history ∧ app'.client = app.client ∧
      ∀ q, q ≠ key → app'.metrics.find? q = app.metrics.find? q := by
  cases hm : app.metrics.find? key with
  | none =>
    rw [sampleFamily_none hm] at h
    cases h
  | some metric =>
    rw [sampleFamily_eq hm] at h
    cases he : extract lib metric topic payload with
    | error e =>
      rw [he] at h
      cases h
      exact ⟨rfl, rfl, fun _ _ => rfl⟩
    | ok x =>
      simp only [he, newSample] at h
      cases hn : MetricFamily.newSample lib (lib.clock app.ticks) x.1 x.2 metric with
      | ok _ metric' =>
        rw [hn] at h
        cases h
      | error e metric' =>
        rw [hn] at h
        cases h
        exact ⟨rfl, rfl, fun q hq => OrderedMap.find?_set_ne _ _ hq.symm⟩

end App

end MqttExporter
