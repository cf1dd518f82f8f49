import MqttExporter.ConcurrentScrape
import MqttExporter.Registration

/-!
# The threads of the exporter

The network thread handles one message after the other, the routine thread makes
its passes, and the threads of the server answer requests, all on the registered
families. A thread's step on a family is a step of `Concurrent`. The registry
itself no longer changes. Its lock is shared by the callbacks that go through the
filters and by the requests that copy it, and held alone by a routine pass.

* `Work`: the handlings of a message, and where a callback takes the lock;
* `Effect`, `step_effect`: what a step of a thread can do;
* `Reachable.exclusive`: what the lock of the registry keeps apart;
* `Parts`: for one family, a run of the exporter is a run of its own;
* `nothing_lost`: no sample is lost, made twice or out of order.
-/

namespace MqttExporter

open Transition

/-- A request in `handleGet`. `since` notes how many events each family had when
the request came, `blocks` the texts it has appended, and `alone` that no other
request was at work in the meantime: no step reads them. -/
structure Reply where
  since : OrderedMap Str ℕ
  blocks : List (Str × Str)
  alone : Bool
  /-- The families that the loop still comes to, once the registry was copied. -/
  rest : Option (List Str)
  /-- The family that is being written, and its pass. -/
  current : Option (Str × ℕ)
  /-- The end mark was appended. -/
  ended : Bool
  /-- What `mg_write` was given. -/
  written : Option Str

/-- Another request comes in. -/
def Reply.disturb (r : Reply) : Reply := { r with alone := r.alone && r.written.isSome }

/-- What the network thread does for a message: its handlings, and the lock that a
callback shares while it goes through the registry. -/
inductive Work where
  | lock
  | unlock
  | handling (x : App.Handling)

def Work.handling? : Work → Option App.Handling
  | .lock | .unlock => none
  | .handling x => some x

def handlings (work : List Work) : List App.Handling := work.filterMap Work.handling?

/-- `delivered` lists the messages so far, `sweeps` counts the passes of the
routine thread begun: no step reads them. -/
structure Exporter where
  client : MosquittoClient Str
  families : OrderedMap Str Concurrent
  ticks : ℕ
  /-- The message at work, and what is left to do for it. -/
  handling : Option (Message × List Work)
  /-- A callback shares the lock of the registry. -/
  selecting : Bool
  /-- The family that the message is sampling. -/
  sampling : Option Str
  /-- The families that the pass of the routine thread still comes to; it holds
  the lock of the registry to its end. -/
  sweep : Option (List Str)
  /-- The member `_output` of the one handler that all requests go to. -/
  output : Str
  replies : List Reply
  delivered : List Message
  sweeps : ℕ

namespace Exporter

inductive Action where
  | deliver (m : Message)
  /-- The network thread goes on with its message. -/
  | handle
  /-- The routine thread has the lock of the registry, and its pass begins. -/
  | wake
  | routine
  | get
  /-- The next step of a request. -/
  | serve (reply : ℕ)

def configs (e : Exporter) : OrderedMap Str Configuration :=
  e.families.mapValues fun _ f => f.family.config

/-- What one callback does. -/
def callbackWork (lib : Libraries) (m : Message) (configs : OrderedMap Str Configuration)
    (omName : Str) : List Work :=
  .lock :: configs.keys.map (fun key => .handling (.check key)) ++
    .unlock :: (App.selected lib m.topic omName configs).map fun key => .handling (.sample key)

/-- What one subscription does. -/
def subscriptionWork (lib : Libraries) (m : Message) (configs : OrderedMap Str Configuration)
    (s : Subscription Str) : List Work :=
  .handling (.check s.topic) ::
    if Matches lib s.topic m.topic then s.onArrived.functions.flatMap (callbackWork lib m configs)
    else []

def work (lib : Libraries) (m : Message) (client : MosquittoClient Str)
    (configs : OrderedMap Str Configuration) : List Work :=
  client.subscriptions.flatMap (subscriptionWork lib m configs)

@[simp] theorem handlings_lock (work : List Work) : handlings (.lock :: work) = handlings work :=
  rfl

@[simp] theorem handlings_unlock (work : List Work) :
    handlings (.unlock :: work) = handlings work := rfl

@[simp] theorem handlings_handling (x : App.Handling) (work : List Work) :
    handlings (.handling x :: work) = x :: handlings work := rfl

theorem handlings_append (work work' : List Work) :
    handlings (work ++ work') = handlings work ++ handlings work' := List.filterMap_append

theorem handlings_map {α : Type} (f : α → App.Handling) (xs : List α) :
    handlings (xs.map fun x => .handling (f x)) = xs.map f := by
  induction xs with
  | nil => rfl
  | cons x xs ih => rw [List.map_cons, handlings_handling, ih, List.map_cons]

theorem handlings_flatMap {α : Type} (f : α → List Work) (xs : List α) :
    handlings (xs.flatMap f) = xs.flatMap fun x => handlings (f x) := by
  induction xs with
  | nil => rfl
  | cons x xs ih => rw [List.flatMap_cons, handlings_append, ih, List.flatMap_cons]

/-- The handlings are those of the plan. -/
theorem handlings_work (lib : Libraries) (m : Message) (client : MosquittoClient Str)
    (configs : OrderedMap Str Configuration) : handlings (work lib m client configs) =
      client.subscriptions.flatMap (App.subscriptionPlan lib m configs) := by
  have hcallback : ∀ omName, handlings (callbackWork lib m configs omName) =
      App.callbackPlan lib m configs omName := by
    intro omName
    rw [callbackWork, List.cons_append, handlings_lock, handlings_append, handlings_map,
      handlings_unlock, handlings_map, App.callbackPlan]
  rw [work, handlings_flatMap]
  congr 1
  funext s
  rw [subscriptionWork, handlings_handling, App.subscriptionPlan]
  split
  · rw [handlings_flatMap]
    simp only [hcallback]
  · rfl

/-- A thread takes a step on a family. -/
def onFamily (lib : Libraries) (e : Exporter) (key : Str) (a : Concurrent.Action) :
    Option (Concurrent × Exporter) := do
  let f ← e.families.find? key
  let f' ← f.step lib a
  return (f', { e with families := e.families.set key f' })

/-- One step for a message; an exception ends the program. -/
def handleOne (lib : Libraries) (e : Exporter) (m : Message) (rest : List Work) :
    Work → Option Exporter
  | .lock =>
    match e.sweep with
    | some _ => none
    | none => some { e with handling := some (m, rest), selecting := true }
  | .unlock => some { e with handling := some (m, rest), selecting := false }
  | .handling (.check filter) =>
    match MosquittoClient.matchTopic lib filter m.topic with
    | .error _ => none
    | .ok _ => some { e with handling := some (m, rest) }
  | .handling (.sample key) =>
    match e.families.find? key with
    | none => some { e with handling := some (m, rest) }
    | some f =>
      match App.extract lib f.family.value m.topic m.payload with
      | .error _ => none
      | .ok (payload, labels) => do
        let (f', e') ← onFamily lib e key (.sample (lib.clock e.ticks) payload labels)
        -- a call that raised has released the lock
        if f'.call = none then none
        else some { e' with
          ticks := e.ticks + 1, handling := some (m, rest), sampling := some key }

def handle (lib : Libraries) (e : Exporter) : Option Exporter :=
  match e.sampling with
  | some key => do
    let (f', e') ← onFamily lib e key .write
    return { e' with sampling := if f'.call = none then none else some key }
  | none =>
    match e.handling with
    | none => none
    | some (_, []) => some { e with handling := none }
    | some (m, x :: rest) => handleOne lib e m rest x

def routine (lib : Libraries) (e : Exporter) : Option Exporter :=
  match e.sweep with
  | none => none
  | some [] => some { e with sweep := none }
  | some (key :: rest) => do
    let (_, e') ← onFamily lib e key (.routine (lib.clock e.ticks))
    return { e' with ticks := e.ticks + 1, sweep := some rest }

/-- A request that comes in. -/
def arrival (e : Exporter) : Reply :=
  ⟨e.families.mapValues fun _ f => f.history.length, [],
    e.replies.all fun r => r.written.isSome, none, none, false, none⟩

def serveOne (lib : Libraries) (e : Exporter) (i : ℕ) (r : Reply) : Option Exporter :=
  match r.current with
  | some (key, n) => do
    let f ← e.families.find? key
    let p ← f.passes[n]?
    if Concurrent.Finished p then
      let text := Concurrent.passText f.family.config p
      return { e with
        output := e.output ++ (text ++ "\n".toList)
        replies :=
          e.replies.set i { r with current := none, blocks := r.blocks ++ [(key, text)] } }
    else
      let (_, e') ← onFamily lib e key (.read n)
      return e'
  | none =>
    match r.rest with
    | none =>
      match e.sweep with
      | some _ => none
      | none => some { e with replies := e.replies.set i { r with rest := some e.families.keys } }
    | some [] =>
      if r.ended then
        if r.written = none then
          some { e with replies := e.replies.set i { r with written := some e.output } }
        else none
      else
        some { e with
          output := e.output ++ "# EOF\n".toList
          replies := e.replies.set i { r with ended := true } }
    | some (key :: rest) => do
      let f ← e.families.find? key
      let (_, e') ← onFamily lib e key .begin
      return { e' with
        replies :=
          e.replies.set i { r with rest := some rest, current := some (key, f.passes.length) } }

def step (lib : Libraries) (e : Exporter) : Action → Option Exporter
  | .deliver m =>
    match e.handling with
    | some _ => none
    | none => some { e with
        handling := some (m, work lib m e.client e.configs), delivered := e.delivered ++ [m] }
  | .handle => handle lib e
  | .wake =>
    if e.selecting then none
    else
      match e.sweep with
      | some _ => none
      | none => some { e with sweep := some e.families.keys, sweeps := e.sweeps + 1 }
  | .routine => routine lib e
  | .get => some { e with output := [], replies := e.replies.map Reply.disturb ++ [arrival e] }
  | .serve i => do
    let r ← e.replies[i]?
    serveOne lib e i r

/-- After the registration of the entries. -/
def start (app : App) : Exporter :=
  ⟨app.client, app.metrics.mapValues fun _ f => Concurrent.start f.config, 0, none, false, none,
    none, [], [], [], 0⟩

/-- The states of the program, once its entries are registered. -/
def Reachable (lib : Libraries) (metrics : List Configuration) (app : App) (e : Exporter) : Prop :=
  App.register metrics .initial = .ok () app ∧
    ∃ actions, run (step lib) (start app) actions = some e

/-! ## What a step is for the families -/

variable {lib : Libraries} {e e' : Exporter} {app : App}

theorem onFamily_some {key : Str} {a : Concurrent.Action} {f' : Concurrent} :
    onFamily lib e key a = some (f', e') ↔ ∃ f, e.families.find? key = some f ∧
      f.step lib a = some f' ∧ { e with families := e.families.set key f' } = e' := by
  simp [onFamily, Option.bind_eq_some_iff]

/-- What a step can do. -/
inductive Effect (lib : Libraries) (e : Exporter) : Exporter → Prop where
  | deliver (m : Message) : e.handling = none → Effect lib e { e with
      handling := some (m, work lib m e.client e.configs), delivered := e.delivered ++ [m] }
  | write (key : Str) (f f' : Concurrent) :
      e.sampling = some key → e.families.find? key = some f → f.step lib .write = some f' →
      Effect lib e { e with
        families := e.families.set key f',
        sampling := if f'.call = none then none else some key }
  | handled (m : Message) : e.handling = some (m, []) → Effect lib e { e with handling := none }
  | skip (m : Message) (x : Work) (rest : List Work) (selecting : Bool) :
      e.handling = some (m, x :: rest) →
      (∀ key, x = .handling (.sample key) → e.families.find? key = none) →
      (selecting = true → e.selecting = true ∨ e.sweep = none) →
      Effect lib e { e with handling := some (m, rest), selecting := selecting }
  | sample (m : Message) (key : Str) (rest : List Work) (payload : Str)
      (labels : LabelSet) (f f' : Concurrent) :
      e.sampling = none → e.handling = some (m, .handling (.sample key) :: rest) →
      e.families.find? key = some f →
      App.extract lib f.family.value m.topic m.payload = .ok (payload, labels) →
      f.step lib (.sample (lib.clock e.ticks) payload labels) = some f' → f'.call ≠ none →
      Effect lib e { e with
        families := e.families.set key f', ticks := e.ticks + 1, handling := some (m, rest),
        sampling := some key }
  | wake : e.selecting = false → e.sweep = none →
      Effect lib e { e with sweep := some e.families.keys, sweeps := e.sweeps + 1 }
  | rest : e.sweep = some [] → Effect lib e { e with sweep := none }
  | routine (key : Str) (rest : List Str) (f f' : Concurrent) :
      e.sweep = some (key :: rest) → e.families.find? key = some f →
      f.step lib (.routine (lib.clock e.ticks)) = some f' →
      Effect lib e { e with
        families := e.families.set key f', ticks := e.ticks + 1, sweep := some rest }
  | get : Effect lib e
      { e with output := [], replies := e.replies.map Reply.disturb ++ [arrival e] }
  | copy (i : ℕ) (r : Reply) :
      e.replies[i]? = some r → r.current = none → r.rest = none → e.sweep = none →
      Effect lib e { e with
        replies := e.replies.set i { r with rest := some e.families.keys } }
  | next (i : ℕ) (r : Reply) (key : Str) (rest : List Str) (f f' : Concurrent) :
      e.replies[i]? = some r → r.current = none → r.rest = some (key :: rest) →
      e.families.find? key = some f → f.step lib .begin = some f' →
      Effect lib e { e with
        families := e.families.set key f'
        replies :=
          e.replies.set i { r with rest := some rest, current := some (key, f.passes.length) } }
  | read (key : Str) (n : ℕ) (f f' : Concurrent) :
      e.families.find? key = some f → f.step lib (.read n) = some f' →
      Effect lib e { e with families := e.families.set key f' }
  | block (i : ℕ) (r : Reply) (key : Str) (n : ℕ) (f : Concurrent) (p : Pass) :
      e.replies[i]? = some r → r.current = some (key, n) → e.families.find? key = some f →
      f.passes[n]? = some p → Concurrent.Finished p →
      Effect lib e { e with
        output := e.output ++ (Concurrent.passText f.family.config p ++ "\n".toList)
        replies := e.replies.set i { r with
          current := none
          blocks := r.blocks ++ [(key, Concurrent.passText f.family.config p)] } }
  | eof (i : ℕ) (r : Reply) : e.replies[i]? = some r → r.current = none → r.rest = some [] →
      r.ended = false → Effect lib e { e with
        output := e.output ++ "# EOF\n".toList
        replies := e.replies.set i { r with ended := true } }
  | answer (i : ℕ) (r : Reply) : e.replies[i]? = some r → r.ended = true → r.written = none →
      Effect lib e { e with replies := e.replies.set i { r with written := some e.output } }

theorem effect_handleOne {m : Message} {x : Work} {rest : List Work}
    (hidle : e.sampling = none) (hwork : e.handling = some (m, x :: rest))
    (h : handleOne lib e m rest x = some e') :
    Effect lib e e' := by
  match x with
  | .lock =>
    simp only [handleOne] at h
    split at h <;> cases h
    rename_i hsweep
    exact .skip m _ rest true hwork (fun key heq => by cases heq) fun _ => Or.inr hsweep
  | .unlock =>
    cases h
    exact .skip m _ rest false hwork (fun key heq => by cases heq) fun hfalse => by cases hfalse
  | .handling (.check filter) =>
    simp only [handleOne] at h
    split at h <;> cases h
    exact .skip m _ rest e.selecting hwork (fun key heq => by cases heq) Or.inl
  | .handling (.sample key) =>
    simp only [handleOne] at h
    cases hfind : e.families.find? key with
    | none =>
      simp only [hfind] at h
      cases h
      exact .skip m _ rest e.selecting hwork (fun q heq => by cases heq; exact hfind) Or.inl
    | some f =>
      simp only [hfind] at h
      split at h
      · cases h
      · rename_i payload labels hextract
        obtain ⟨⟨f', e₁⟩, hfamily, heq⟩ := Option.bind_eq_some_iff.mp h
        obtain ⟨f₀, hf₀, hstep, rfl⟩ := onFamily_some.mp hfamily
        rw [hfind] at hf₀
        cases hf₀
        simp only at heq
        split at heq <;> cases heq
        rename_i hbusy
        exact .sample m key rest payload labels f f' hidle hwork hfind hextract hstep hbusy

theorem effect_serveOne {i : ℕ} {r : Reply} (hr : e.replies[i]? = some r)
    (h : serveOne lib e i r = some e') : Effect lib e e' := by
  unfold serveOne at h
  cases hcurrent : r.current with
  | some c =>
    obtain ⟨key, n⟩ := c
    simp only [hcurrent] at h
    obtain ⟨f, hf, h⟩ := Option.bind_eq_some_iff.mp h
    obtain ⟨p, hp, h⟩ := Option.bind_eq_some_iff.mp h
    split at h
    · rename_i hfinished
      cases h
      exact .block i r key n f p hr hcurrent hf hp hfinished
    · obtain ⟨⟨f', e₁⟩, hfamily, heq⟩ := Option.bind_eq_some_iff.mp h
      obtain ⟨f₀, hf₀, hstep, rfl⟩ := onFamily_some.mp hfamily
      cases heq
      exact .read key n f₀ f' hf₀ hstep
  | none =>
    match hrest : r.rest with
    | none =>
      simp only [hcurrent, hrest] at h
      split at h <;> cases h
      rename_i hsweep
      have heffect : Effect lib e _ := .copy i r hr hcurrent hrest hsweep
      rwa [hcurrent] at heffect
    | some [] =>
      simp only [hcurrent, hrest] at h
      split at h
      · rename_i hended
        split at h <;> cases h
        rename_i hwritten
        have heffect : Effect lib e _ := .answer i r hr hended hwritten
        rwa [hcurrent, hrest] at heffect
      · rename_i hended
        cases h
        have heffect : Effect lib e _ := .eof i r hr hcurrent hrest (by simpa using hended)
        rwa [hcurrent, hrest] at heffect
    | some (key :: rest) =>
      simp only [hcurrent, hrest] at h
      obtain ⟨f, hf, h⟩ := Option.bind_eq_some_iff.mp h
      obtain ⟨⟨f', e₁⟩, hfamily, heq⟩ := Option.bind_eq_some_iff.mp h
      obtain ⟨f₀, hf₀, hstep, rfl⟩ := onFamily_some.mp hfamily
      rw [hf] at hf₀
      cases hf₀
      cases heq
      exact .next i r key rest f f' hr hcurrent hrest hf hstep

theorem step_effect {a : Action} (h : step lib e a = some e') : Effect lib e e' := by
  cases a with
  | deliver m =>
    simp only [step] at h
    split at h <;> cases h
    rename_i hidle
    exact .deliver m hidle
  | handle =>
    simp only [step, handle] at h
    split at h
    · rename_i key hsampling
      obtain ⟨⟨f', e₁⟩, hfamily, heq⟩ := Option.bind_eq_some_iff.mp h
      obtain ⟨f, hf, hstep, rfl⟩ := onFamily_some.mp hfamily
      cases heq
      exact .write key f f' hsampling hf hstep
    · rename_i hidle
      split at h
      · cases h
      · rename_i m hwork
        cases h
        exact .handled m hwork
      · rename_i m x rest hwork
        exact effect_handleOne hidle hwork h
  | wake =>
    simp only [step] at h
    split at h
    · cases h
    · rename_i hshared
      split at h <;> cases h
      rename_i hidle
      exact .wake (by simpa using hshared) hidle
  | routine =>
    simp only [step, routine] at h
    split at h
    · cases h
    · rename_i hsweep
      cases h
      exact .rest hsweep
    · rename_i key rest hsweep
      obtain ⟨⟨f', e₁⟩, hfamily, heq⟩ := Option.bind_eq_some_iff.mp h
      obtain ⟨f, hf, hstep, rfl⟩ := onFamily_some.mp hfamily
      cases heq
      exact .routine key rest f f' hsweep hf hstep
  | get =>
    cases h
    exact .get
  | serve i =>
    obtain ⟨r, hr, h⟩ := Option.bind_eq_some_iff.mp h
    exact effect_serveOne hr h

/-- One family takes a step of its own, or none does. -/
theorem families_step (h : Effect lib e e') : e'.client = e.client ∧
    (e'.families = e.families ∨ ∃ key f f' act, e.families.find? key = some f ∧
      f.step lib act = some f' ∧ e'.families = e.families.set key f') := by
  cases h with
  | deliver m _ => exact ⟨rfl, Or.inl rfl⟩
  | write key f f' _ hf hstep => exact ⟨rfl, Or.inr ⟨key, f, f', _, hf, hstep, rfl⟩⟩
  | handled m _ => exact ⟨rfl, Or.inl rfl⟩
  | skip m x rest selecting _ _ _ => exact ⟨rfl, Or.inl rfl⟩
  | sample m key rest payload labels f f' _ _ hf _ hstep _ =>
    exact ⟨rfl, Or.inr ⟨key, f, f', _, hf, hstep, rfl⟩⟩
  | wake _ _ => exact ⟨rfl, Or.inl rfl⟩
  | rest _ => exact ⟨rfl, Or.inl rfl⟩
  | routine key rest f f' _ hf hstep => exact ⟨rfl, Or.inr ⟨key, f, f', _, hf, hstep, rfl⟩⟩
  | get => exact ⟨rfl, Or.inl rfl⟩
  | copy i r _ _ _ _ => exact ⟨rfl, Or.inl rfl⟩
  | next i r key rest f f' _ _ _ hf hstep => exact ⟨rfl, Or.inr ⟨key, f, f', _, hf, hstep, rfl⟩⟩
  | read key n f f' hf hstep => exact ⟨rfl, Or.inr ⟨key, f, f', _, hf, hstep, rfl⟩⟩
  | block i r key n f p _ _ _ _ _ => exact ⟨rfl, Or.inl rfl⟩
  | eof i r _ _ _ _ => exact ⟨rfl, Or.inl rfl⟩
  | answer i r _ _ _ => exact ⟨rfl, Or.inl rfl⟩

theorem configs_effect (h : Effect lib e e') : e'.configs = e.configs := by
  obtain ⟨-, hsame | ⟨key, f, f', act, hf, hstep, hset⟩⟩ := families_step h
  · rw [configs, hsame, configs]
  · apply OrderedMap.ext_find
    intro q
    rw [configs, configs, hset, OrderedMap.find?_mapValues, OrderedMap.find?_mapValues,
      OrderedMap.find?_set]
    split
    · rename_i hkey
      rw [← hkey, hf, Option.map_some, Option.map_some, Concurrent.config_step hstep]
    · rfl

theorem keys_effect (h : Effect lib e e') : e'.families.keys = e.families.keys := by
  rw [← OrderedMap.keys_mapValues e'.families fun _ f => f.family.config,
    ← OrderedMap.keys_mapValues e.families fun _ f => f.family.config]
  exact congrArg OrderedMap.keys (configs_effect h)

/-! ## What a run is for one family -/

/-- Every family has taken a run of its own. -/
structure Parts (lib : Libraries) (app : App) (e : Exporter) : Prop where
  client : e.client = app.client
  configs : e.configs = app.configs
  run : ∀ key f, e.families.find? key = some f → ∃ actions,
    run (Concurrent.step lib) (Concurrent.start f.family.config) actions = some f

theorem parts_start (lib : Libraries) (app : App) : Parts lib app (start app) := by
  refine ⟨rfl, ?_, fun key f hf => ?_⟩
  · apply OrderedMap.ext_find
    intro key
    rw [configs, start, OrderedMap.find?_mapValues, OrderedMap.find?_mapValues,
      App.find?_configs]
    cases app.metrics.find? key <;> rfl
  · rw [start, OrderedMap.find?_mapValues] at hf
    obtain ⟨metric, -, rfl⟩ := Option.map_eq_some_iff.mp hf
    exact ⟨[], rfl⟩

theorem Parts.effect (hp : Parts lib app e) (h : Effect lib e e') : Parts lib app e' := by
  have hconfigs := (configs_effect h).trans hp.configs
  obtain ⟨hclient, hsame | ⟨key, f, f', act, hf, hstep, hset⟩⟩ := families_step h
  · refine ⟨hclient.trans hp.client, hconfigs, ?_⟩
    rw [hsame]
    exact hp.run
  · refine ⟨hclient.trans hp.client, hconfigs, fun q g hq => ?_⟩
    rw [hset, OrderedMap.find?_set] at hq
    split at hq
    · cases hq
      obtain ⟨actions, hrun⟩ := hp.run key f hf
      rw [← Concurrent.config_step hstep] at hrun
      exact ⟨actions ++ [act], run_snoc.mpr ⟨f, hrun, hstep⟩⟩
    · exact hp.run q g hq

theorem Parts.find (hp : Parts lib app e) {key : Str} {f : Concurrent}
    (h : e.families.find? key = some f) : app.configs.find? key = some f.family.config := by
  rw [← hp.configs, Exporter.configs, OrderedMap.find?_mapValues, h]
  rfl

theorem Parts.registered (hp : Parts lib app e) {key : Str} {config : Configuration}
    (h : app.configs.find? key = some config) :
    ∃ f, e.families.find? key = some f ∧ f.family.config = config := by
  rw [← hp.configs, Exporter.configs, OrderedMap.find?_mapValues] at h
  obtain ⟨f, hf, hconfig⟩ := Option.map_eq_some_iff.mp h
  exact ⟨f, hf, hconfig⟩

theorem Parts.keys (hp : Parts lib app e) : e.families.keys = app.configs.keys := by
  rw [← hp.configs, Exporter.configs, OrderedMap.keys_mapValues]

/-! ## Samples and passes -/

/-- The samples among the events of a family. -/
def samplesIn (events : List FamilyEvent) : List (Str × LabelSet) :=
  events.filterMap fun
    | .sample _ payload labels => some (payload, labels)
    | .routine _ => none

/-- The routine passes among the events of a family. -/
def passesIn (events : List FamilyEvent) : ℕ :=
  events.countP fun e => e.sampled = none

/-- The samples that handlings of a message make in a family. -/
def samplesFor (lib : Libraries) (app : App) (m : Message) (key : Str)
    (xs : List App.Handling) : List (Str × LabelSet) :=
  (xs.flatMap (App.sampleCall lib m app.configs)).filterMap fun call =>
    if call.key = key then some (call.payload, call.labels) else none

/-- The samples of a family that are still to come from the message at work. -/
def pending (lib : Libraries) (app : App) (e : Exporter) (key : Str) : List (Str × LabelSet) :=
  match e.handling with
  | none => []
  | some (m, xs) => samplesFor lib app m key (handlings xs)

/-- Samples are made in the order of the messages and of their plans; passes are
made once for each sweep. -/
structure Ledger (lib : Libraries) (app : App) (e : Exporter) : Prop where
  samples : ∀ key f, e.families.find? key = some f →
    samplesIn f.history ++ pending lib app e key =
      e.delivered.flatMap fun m => samplesFor lib app m key (App.plan lib m app)
  passes : ∀ key f, e.families.find? key = some f →
    passesIn f.history + (e.sweep.getD []).count key = e.sweeps

theorem samplesFor_cons (lib : Libraries) (app : App) (m : Message) (key : Str)
    (x : App.Handling) (xs : List App.Handling) :
    samplesFor lib app m key (x :: xs) =
      samplesFor lib app m key [x] ++ samplesFor lib app m key xs := by
  simp [samplesFor]

theorem samplesFor_none {m : Message} {key : Str} {x : App.Handling}
    (h : ∀ q, x = .sample q → app.configs.find? q = none) : samplesFor lib app m key [x] = [] := by
  cases x with
  | check filter => rfl
  | sample q => simp [samplesFor, App.sampleCall, h q rfl]

theorem samplesFor_sample {m : Message} {key q : Str} {config : Configuration} {payload : Str}
    {labels : LabelSet} (hc : app.configs.find? key = some config)
    (h : App.extract lib ⟨config, .empty⟩ m.topic m.payload = .ok (payload, labels)) :
    samplesFor lib app m q [.sample key] = if key = q then [(payload, labels)] else [] := by
  have hcall : App.sampleCall lib m app.configs (.sample key) = [⟨key, payload, labels⟩] := by
    simp only [App.sampleCall, hc, h]
  rw [samplesFor, List.flatMap_singleton, hcall]
  by_cases hq : key = q <;> simp [hq]

/-- A family that takes a step, with what that adds to its events. -/
theorem set_history {key : Str} {f f' : Concurrent} {act : Concurrent.Action}
    (hstep : f.step lib act = some f') {P : Str → List FamilyEvent → Prop}
    (hP : ∀ q g, e.families.find? q = some g → P q (g.history ++
      if key = q then act.event?.toList else []))
    (hf : e.families.find? key = some f) (q : Str) (g : Concurrent)
    (hq : (e.families.set key f').find? q = some g) : P q g.history := by
  rw [OrderedMap.find?_set] at hq
  split at hq
  · rename_i hkey
    cases hq
    subst hkey
    have hold := hP key f hf
    rw [if_pos rfl] at hold
    rw [Concurrent.history_step hstep]
    exact hold
  · rename_i hkey
    have hold := hP q g hq
    rwa [if_neg hkey, List.append_nil] at hold

theorem ticks_effect (h : Effect lib e e') : e.ticks ≤ e'.ticks := by
  cases h with
  | sample => exact Nat.le_succ e.ticks
  | routine => exact Nat.le_succ e.ticks
  | _ => exact le_refl e.ticks

/-- What is so of the events of every family stays so, if it is of the samples
that do not raise and of the passes that a step can add. -/
theorem histories_effect (h : Effect lib e e') {P : Str → List FamilyEvent → Prop}
    (hold : ∀ q g, e.families.find? q = some g → P q g.history)
    (hsample : ∀ key f f' payload labels, e.families.find? key = some f →
      f.step lib (.sample (lib.clock e.ticks) payload labels) = some f' → f'.call ≠ none →
      e'.ticks = e.ticks + 1 → P key (f.history ++ [.sample (lib.clock e.ticks) payload labels]))
    (hroutine : ∀ key f, e.families.find? key = some f → e'.ticks = e.ticks + 1 →
      P key (f.history ++ [.routine (lib.clock e.ticks)])) :
    ∀ q g, e'.families.find? q = some g → P q g.history := by
  have hset : ∀ {key f f' act}, e.families.find? key = some f → f.step lib act = some f' →
      (∀ event ∈ act.event?, P key (f.history ++ [event])) →
      ∀ q g, (e.families.set key f').find? q = some g → P q g.history := by
    intro key f f' act hf hstep hevent
    refine set_history hstep (fun q g hg => ?_) hf
    split
    · rename_i hkey
      subst hkey
      rw [hf] at hg
      cases hg
      cases hact : act.event? with
      | none => simpa using hold key f hf
      | some event => exact hevent event hact
    · simpa using hold q g hg
  cases h with
  | sample m key rest payload labels f f' _ _ hf _ hstep hbusy =>
    refine hset hf hstep fun event hevent => ?_
    cases hevent
    exact hsample key f f' payload labels hf hstep hbusy rfl
  | routine key rest f f' _ hf hstep =>
    refine hset hf hstep fun event hevent => ?_
    cases hevent
    exact hroutine key f hf rfl
  | write key f f' _ hf hstep => exact hset hf hstep fun event hevent => by cases hevent
  | next i r key rest f f' _ _ _ hf hstep => exact hset hf hstep fun event hevent => by cases hevent
  | read key n f f' hf hstep => exact hset hf hstep fun event hevent => by cases hevent
  | deliver => exact hold
  | handled => exact hold
  | skip => exact hold
  | wake => exact hold
  | rest => exact hold
  | get => exact hold
  | copy => exact hold
  | block => exact hold
  | eof => exact hold
  | answer => exact hold

@[simp] theorem samplesIn_append (es es' : List FamilyEvent) :
    samplesIn (es ++ es') = samplesIn es ++ samplesIn es' := List.filterMap_append

@[simp] theorem passesIn_append (es es' : List FamilyEvent) :
    passesIn (es ++ es') = passesIn es + passesIn es' := List.countP_append

/-- A step that makes no event and changes no work keeps the accounts. -/
theorem Ledger.quiet (hl : Ledger lib app e) {key : Str} {f f' : Concurrent}
    {act : Concurrent.Action} (hf : e.families.find? key = some f)
    (hstep : f.step lib act = some f') (hact : act.event? = none)
    (hfamilies : e'.families = e.families.set key f') (hhandling : e'.handling = e.handling)
    (hsweep : e'.sweep = e.sweep) (hsweeps : e'.sweeps = e.sweeps)
    (hdelivered : e'.delivered = e.delivered) : Ledger lib app e' := by
  have hpending : pending lib app e' = pending lib app e := by
    funext q
    rw [pending, pending, hhandling]
  refine ⟨fun q g hq => ?_, fun q g hq => ?_⟩
  · rw [hfamilies] at hq
    refine set_history hstep (P := fun q es => samplesIn es ++ pending lib app e' q =
      e'.delivered.flatMap fun m => samplesFor lib app m q (App.plan lib m app))
      (fun q g hg => ?_) hf q g hq
    rw [hact, hpending, hdelivered]
    simpa [samplesIn] using hl.samples q g hg
  · rw [hfamilies] at hq
    refine set_history hstep (P := fun q es =>
      passesIn es + (e'.sweep.getD []).count q = e'.sweeps) (fun q g hg => ?_) hf q g hq
    rw [hact, hsweep, hsweeps]
    simpa [passesIn] using hl.passes q g hg

/-- The step that samples a family. -/
theorem Ledger.sample (hp : Parts lib app e) (hl : Ledger lib app e) {m : Message} {key : Str}
    {rest : List Work} {payload : Str} {labels : LabelSet} {f f' : Concurrent}
    (hwork : e.handling = some (m, .handling (.sample key) :: rest))
    (hf : e.families.find? key = some f)
    (hextract : App.extract lib f.family.value m.topic m.payload = .ok (payload, labels))
    (hstep : f.step lib (.sample (lib.clock e.ticks) payload labels) = some f') :
    Ledger lib app { e with
      families := e.families.set key f', ticks := e.ticks + 1, handling := some (m, rest),
      sampling := some key } := by
  have hconfig := hp.find hf
  have hcall : App.extract lib ⟨f.family.config, .empty⟩ m.topic m.payload =
      .ok (payload, labels) := hextract
  refine ⟨fun q g hq => ?_, fun q g hq => ?_⟩
  · refine set_history hstep (P := fun q es =>
      samplesIn es ++ samplesFor lib app m q (handlings rest) =
      e.delivered.flatMap fun m => samplesFor lib app m q (App.plan lib m app))
      (fun q g hg => ?_) hf q g hq
    have hold := hl.samples q g hg
    simp only [pending, hwork] at hold
    rw [handlings_handling, samplesFor_cons, samplesFor_sample hconfig hcall] at hold
    rw [← hold, samplesIn_append, List.append_assoc]
    by_cases hkey : key = q <;> simp [hkey, samplesIn, Concurrent.Action.event?]
  · refine set_history hstep (P := fun q es => passesIn es + (e.sweep.getD []).count q = e.sweeps)
      (fun q g hg => ?_) hf q g hq
    rw [passesIn_append, ← hl.passes q g hg]
    by_cases hkey : key = q <;>
      simp [hkey, passesIn, Concurrent.Action.event?, FamilyEvent.sampled]

/-- The step that the routine thread takes on a family. -/
theorem Ledger.routine (hl : Ledger lib app e) {key : Str} {rest : List Str}
    {f f' : Concurrent} (hsweep : e.sweep = some (key :: rest))
    (hf : e.families.find? key = some f)
    (hstep : f.step lib (.routine (lib.clock e.ticks)) = some f') :
    Ledger lib app { e with
      families := e.families.set key f', ticks := e.ticks + 1, sweep := some rest } := by
  refine ⟨fun q g hq => ?_, fun q g hq => ?_⟩
  · refine set_history hstep (P := fun q es => samplesIn es ++ pending lib app e q =
      e.delivered.flatMap fun m => samplesFor lib app m q (App.plan lib m app))
      (fun q g hg => ?_) hf q g hq
    rw [← hl.samples q g hg, samplesIn_append]
    by_cases hkey : key = q <;> simp [hkey, samplesIn, Concurrent.Action.event?]
  · refine set_history hstep (P := fun q es => passesIn es + rest.count q = e.sweeps)
      (fun q g hg => ?_) hf q g hq
    have hold := hl.passes q g hg
    rw [hsweep, Option.getD_some, List.count_cons] at hold
    rw [passesIn_append, ← hold]
    by_cases hkey : key = q
    · simp [hkey, passesIn, Concurrent.Action.event?, FamilyEvent.sampled]
      omega
    · simp [hkey, passesIn]

theorem Ledger.effect (hp : Parts lib app e) (hl : Ledger lib app e) (h : Effect lib e e') :
    Ledger lib app e' := by
  cases h with
  | deliver m hidle =>
    refine ⟨fun q g hq => ?_, hl.passes⟩
    have hold := hl.samples q g hq
    have hplan : handlings (work lib m e.client e.configs) = App.plan lib m app := by
      rw [handlings_work, hp.client, hp.configs]
      rfl
    simp only [pending, hidle, List.append_nil] at hold
    simp only [pending, hplan, List.flatMap_append, List.flatMap_singleton, hold]
  | write key f f' _ hf hstep => exact hl.quiet hf hstep rfl rfl rfl rfl rfl rfl
  | handled m hwork =>
    refine ⟨fun q g hq => ?_, hl.passes⟩
    have hold := hl.samples q g hq
    simp only [pending, hwork] at hold
    simpa [pending, samplesFor, handlings] using hold
  | skip m x rest selecting hwork hnone _ =>
    refine ⟨fun q g hq => ?_, hl.passes⟩
    have hold := hl.samples q g hq
    simp only [pending, hwork] at hold
    cases x with
    | lock => exact hold
    | unlock => exact hold
    | handling x =>
      rw [handlings_handling, samplesFor_cons, samplesFor_none, List.nil_append] at hold
      · exact hold
      · intro key hx
        cases hc : app.configs.find? key with
        | none => rfl
        | some config =>
          obtain ⟨f, hf, -⟩ := hp.registered hc
          rw [hnone key (congrArg Work.handling hx)] at hf
          cases hf
  | sample m key rest payload labels f f' _ hwork hf hextract hstep _ =>
    exact hl.sample hp hwork hf hextract hstep
  | wake _ hidle =>
    refine ⟨hl.samples, fun q g hq => ?_⟩
    have hold := hl.passes q g hq
    have hcount : e.families.keys.count q = 1 :=
      List.count_eq_one_of_mem e.families.keys_nodup (e.families.mem_keys_iff.mpr ⟨g, hq⟩)
    simp only [hidle, Option.getD_none, List.count_nil] at hold
    simp only [Option.getD_some, hcount]
    omega
  | rest hsweep =>
    refine ⟨hl.samples, fun q g hq => ?_⟩
    have hold := hl.passes q g hq
    rw [hsweep] at hold
    exact hold
  | routine key rest f f' hsweep hf hstep => exact hl.routine hsweep hf hstep
  | get => exact ⟨hl.samples, hl.passes⟩
  | copy i r _ _ _ _ => exact ⟨hl.samples, hl.passes⟩
  | next i r key rest f f' _ _ _ hf hstep => exact hl.quiet hf hstep rfl rfl rfl rfl rfl rfl
  | read key n f f' hf hstep => exact hl.quiet hf hstep rfl rfl rfl rfl rfl rfl
  | block i r key n f p _ _ _ _ _ => exact ⟨hl.samples, hl.passes⟩
  | eof i r _ _ _ _ => exact ⟨hl.samples, hl.passes⟩
  | answer i r _ _ _ => exact ⟨hl.samples, hl.passes⟩

theorem ledger_start (lib : Libraries) (app : App) : Ledger lib app (start app) := by
  have hfamily : ∀ key f, (start app).families.find? key = some f → f.history = [] := by
    intro key f hf
    rw [start, OrderedMap.find?_mapValues] at hf
    obtain ⟨metric, -, rfl⟩ := Option.map_eq_some_iff.mp hf
    rfl
  refine ⟨fun key f hf => ?_, fun key f hf => ?_⟩
  · rw [hfamily key f hf]
    rfl
  · rw [hfamily key f hf]
    rfl

theorem Reachable.parts {metrics : List Configuration} (h : Reachable lib metrics app e) :
    Parts lib app e := by
  obtain ⟨-, actions, hrun⟩ := h
  exact run_invariant (fun _ _ _ hp hstep => hp.effect (step_effect hstep)) (parts_start lib app)
    hrun

theorem Reachable.ledger {metrics : List Configuration} (h : Reachable lib metrics app e) :
    Ledger lib app e := by
  obtain ⟨-, actions, hrun⟩ := h
  refine (run_invariant (I := fun e => Parts lib app e ∧ Ledger lib app e) ?_
    ⟨parts_start lib app, ledger_start lib app⟩ hrun).2
  rintro e a e' ⟨hp, hl⟩ hstep
  exact ⟨hp.effect (step_effect hstep), hl.effect hp (step_effect hstep)⟩

theorem exclusive_effect (h : Effect lib e e') (hx : e.selecting = true → e.sweep = none) :
    e'.selecting = true → e'.sweep = none := by
  cases h with
  | skip m x rest selecting _ _ hshared => exact fun hs => (hshared hs).elim hx id
  | wake hshared =>
    intro hs
    rw [show e.selecting = true from hs] at hshared
    cases hshared
  | rest => exact fun _ => rfl
  | routine key rest f f' hsweep =>
    intro hs
    rw [hx hs] at hsweep
    cases hsweep
  | _ => exact hx

/-- No routine pass is under way while a callback goes through the registry. -/
theorem Reachable.exclusive {metrics : List Configuration} (h : Reachable lib metrics app e) :
    e.selecting = true → e.sweep = none := by
  obtain ⟨-, actions, hrun⟩ := h
  exact run_invariant (fun _ _ _ hx hstep => exclusive_effect (step_effect hstep) hx)
    (fun _ => rfl) hrun

/-- However the threads come in between each other: what a family holds is what
its samples and passes made of it, one after the other. When no message is at
work, its samples are those of the delivered messages, each once and in order;
and every sweep has passed it once. -/
theorem nothing_lost (lib : Libraries) (metrics : List Configuration) (app : App) (e : Exporter)
    (h : Reachable lib metrics app e) (key : Str) (config : Configuration)
    (hc : app.configs.find? key = some config) :
    ∃ f, e.families.find? key = some f ∧
      (f.call = none →
        f.family.value = MetricFamily.run lib ⟨config, .empty⟩ f.history) ∧
      (e.handling = none → samplesIn f.history =
        e.delivered.flatMap fun m => samplesFor lib app m key (App.plan lib m app)) ∧
      (e.sweep = none → passesIn f.history = e.sweeps) := by
  obtain ⟨f, hf, hconfig⟩ := h.parts.registered hc
  refine ⟨f, hf, fun hidle => ?_, fun hidle => ?_, fun hidle => ?_⟩
  · obtain ⟨actions, hrun⟩ := h.parts.run key f hf
    rw [hconfig] at hrun
    exact (Concurrent.sound_run hrun).idle hidle
  · have hsamples := h.ledger.samples key f hf
    simp only [pending, hidle, List.append_nil] at hsamples
    exact hsamples
  · have hpasses := h.ledger.passes key f hf
    simp only [hidle, Option.getD_none, List.count_nil, Nat.add_zero] at hpasses
    exact hpasses

/-- A sweep comes between the checks of a message and its sample. -/
theorem nothing_lost_sweep : ∃ app e f, Reachable simpleLibraries [counterEntry "a" "one"] app e ∧
    e.families.find? "a".toList = some f ∧ samplesIn f.history = [([], .empty)] ∧
    passesIn f.history = 1 := by
  let app := Loop.final (App.register [counterEntry "a" "one"] .initial)
  let actions : List Action := [.deliver ⟨"a".toList, []⟩, .handle, .handle, .handle, .handle,
    .wake, .routine, .handle, .handle, .handle, .handle, .routine]
  have hend : (run (step simpleLibraries) (start app) actions).map
      (fun e => (e.handling.isNone, e.sweep.isNone, e.delivered, e.sweeps)) =
        some (true, true, [⟨"a".toList, []⟩], 1) := by
    decide +kernel
  obtain ⟨e, hrun, he⟩ := Option.map_eq_some_iff.mp hend
  have hreach : Reachable simpleLibraries [counterEntry "a" "one"] app e := ⟨rfl, actions, hrun⟩
  obtain ⟨f, hf, -, hsamples, hpasses⟩ := nothing_lost simpleLibraries [counterEntry "a" "one"]
    app e hreach "a".toList (counterEntry "a" "one") rfl
  simp only [Prod.mk.injEq, Option.isNone_iff_eq_none] at he
  obtain ⟨hhandling, hsweep, hdelivered, hsweeps⟩ := he
  have hplan : samplesFor simpleLibraries app ⟨"a".toList, []⟩ "a".toList
      (App.plan simpleLibraries ⟨"a".toList, []⟩ app) = [([], .empty)] := by
    decide +kernel
  refine ⟨app, e, f, hreach, hf, ?_, ?_⟩
  · rw [hsamples hhandling, hdelivered, List.flatMap_singleton, hplan]
  · rw [hpasses hsweep, hsweeps]

end Exporter

end MqttExporter
