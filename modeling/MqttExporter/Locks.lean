import MqttExporter.Base.Mutexes
import MqttExporter.Dispatch

/-!
# The mutexes of the program

What each function locks, and in which nesting. Only two functions lock under a
lock: a routine pass has the registry to itself while it locks the families, and
`publish` writes its last log entry while it has `_messageTicketsMutex`.

* `families_onMessage`: a message locks the families that it samples;
* `no_deadlock`: no set of threads ever waits for itself.
-/

namespace MqttExporter

open Mutexes Transition

inductive Lock where
  /-- The mutex that `_metrics` is, which can be shared. -/
  | metrics
  | messageTickets
  | family (key : Str)
  | sink (name : Str)
  deriving DecidableEq

namespace Lock

/-- What is locked under a lock ranks above it. -/
def rank : Lock → ℕ
  | .metrics => 0
  | .messageTickets => 0
  | .family _ => 1
  | .sink _ => 1

end Lock

namespace Locks

/-! ## What the functions lock -/

/-- `Sink::write`; the entry is formatted before. -/
def log (sink : Str) : List (Op Lock) := scope (.sink sink) .exclusive []

/-- A member function of `MetricFamily`: each locks, and calls nothing that does. -/
def family (key : Str) : List (Op Lock) := scope (.family key) .exclusive []

/-- The loop of `stringify` calls `begin` and `end` of the family. -/
def stringify (key : Str) : List (Op Lock) := family key ++ family key

/-- `keys` are the families in the copy of the registry. -/
def handleGet (keys : List Str) : List (Op Lock) :=
  scope .metrics .shared [] ++ keys.flatMap stringify

/-- A pass of the routine thread. -/
def routine (keys : List Str) : List (Op Lock) := scope .metrics .exclusive (keys.flatMap family)

/-- `_metrics->emplace` in the constructor. -/
def emplace : List (Op Lock) := scope .metrics .exclusive []

/-- The families are selected under the lock, and sampled after it. -/
def messageArrived (lib : Libraries) (m : Message) (app : App) (omName : Str) : List (Op Lock) :=
  scope .metrics .shared [] ++ (App.selected lib m.topic omName app.configs).flatMap family

def onArrived (lib : Libraries) (m : Message) (app : App) (s : Subscription Str) :
    List (Op Lock) :=
  if Matches lib s.topic m.topic then
    s.onArrived.functions.flatMap (messageArrived lib m app)
  else []

def onMessage (lib : Libraries) (m : Message) (app : App) : List (Op Lock) :=
  app.client.subscriptions.flatMap (onArrived lib m app)

/-- How a call of `publish` ends. -/
inductive Published where
  | returned
  | refused
  | duplicate
  deriving DecidableEq

/-- The log entries of `publish` go to `debug` and to `trace`. -/
def publish (debug trace : Str) : Published → List (Op Lock)
  | .returned => log debug ++ scope .messageTickets .exclusive []
  | .refused => log debug ++ log trace
  | .duplicate => log debug ++ scope .messageTickets .exclusive (log trace)

def onPublished (trace : Str) : List (Op Lock) :=
  log trace ++ scope .messageTickets .exclusive []

/-- A call from outside, with what it sees of the registry. -/
inductive Call where
  | log (sink : Str)
  | emplace
  | publish (debug trace : Str) (result : Published)
  | onPublished (trace : Str)
  | onMessage (m : Message) (app : App)
  | handleGet (app : App)
  | routine (app : App)

def Call.locks (lib : Libraries) : Call → List (Op Lock)
  | .log sink => Locks.log sink
  | .emplace => Locks.emplace
  | .publish debug trace result => Locks.publish debug trace result
  | .onPublished trace => Locks.onPublished trace
  | .onMessage m app => Locks.onMessage lib m app
  | .handleGet app => Locks.handleGet app.metrics.keys
  | .routine app => Locks.routine app.metrics.keys

/-! ## The families of a message -/

def lockedFamily : Op Lock → Option Str
  | .acquire (.family key) _ => some key
  | _ => none

theorem lockedFamily_families (keys : List Str) :
    (keys.flatMap family).filterMap lockedFamily = keys := by
  induction keys with
  | nil => rfl
  | cons key keys ih =>
    rw [List.flatMap_cons, List.filterMap_append, ih]
    rfl

theorem filterMap_flatMap {α β γ : Type} (f : α → List β) (g : β → Option γ) (xs : List α) :
    (xs.flatMap f).filterMap g = xs.flatMap fun x => (f x).filterMap g := by
  induction xs with
  | nil => rfl
  | cons x xs ih => rw [List.flatMap_cons, List.filterMap_append, ih, List.flatMap_cons]

/-- A message locks the families that it samples, in this order. -/
theorem families_onMessage (lib : Libraries) (m : Message) (app : App) :
    (onMessage lib m app).filterMap lockedFamily =
      (App.plan lib m app).filterMap App.Handling.key? := by
  have hcallback : ∀ omName, (messageArrived lib m app omName).filterMap lockedFamily =
      (App.callbackPlan lib m app.configs omName).filterMap App.Handling.key? := by
    intro omName
    have hchecks : (app.configs.keys.map App.Handling.check).filterMap App.Handling.key? = [] := by
      simp [List.filterMap_map, App.Handling.key?]
    have hsamples : ∀ keys : List Str,
        (keys.map App.Handling.sample).filterMap App.Handling.key? = keys := by
      intro keys
      rw [List.filterMap_map]
      exact List.filterMap_some
    rw [messageArrived, List.filterMap_append, lockedFamily_families, App.callbackPlan,
      List.filterMap_append, hchecks, hsamples]
    rfl
  rw [onMessage, App.plan, filterMap_flatMap, filterMap_flatMap]
  congr 1
  funext s
  rw [onArrived, App.subscriptionPlan, List.filterMap_cons_none rfl]
  split
  · rw [filterMap_flatMap, filterMap_flatMap]
    congr 1
    funext omName
    exact hcallback omName
  · rfl

/-! ## All threads -/

inductive Action where
  /-- A thread that is at rest calls a function. -/
  | call (i : ℕ) (c : Call)
  | step (i : ℕ)

def step (lib : Libraries) (threads : List (Thread Lock)) : Action → Option (List (Thread Lock))
  | .call i c => do
    let t ← threads[i]?
    if t.rest = [] then some (threads.set i { t with rest := c.locks lib }) else none
  | .step i => Mutexes.step threads i

def start (n : ℕ) : List (Thread Lock) := List.replicate n ⟨[], []⟩

section

variable {held : List (Lock × Mode)}

/-- Below the families and the sinks. -/
def Low (held : List (Lock × Mode)) : Prop := ∀ h ∈ held, h.1.rank = 0

theorem low_nil : Low [] := fun _ h => absurd h List.not_mem_nil

theorem nested_low (hheld : Low held) {l : Lock} (hl : l.rank = 1) :
    Nested Lock.rank held (scope l .exclusive []) := by
  apply Nested.scope _ nested_nil
  intro h hh
  rw [hheld h hh, hl]
  exact Nat.one_pos

theorem nested_family (hheld : Low held) (key : Str) : Nested Lock.rank held (family key) :=
  nested_low hheld rfl

theorem nested_log (hheld : Low held) (sink : Str) : Nested Lock.rank held (log sink) :=
  nested_low hheld rfl

theorem nested_outer {l : Lock} {mode : Mode} {body : List (Op Lock)}
    (hbody : Nested Lock.rank [(l, mode)] body) : Nested Lock.rank [] (scope l mode body) :=
  Nested.scope (fun _ h => absurd h List.not_mem_nil) hbody

theorem nested_messageArrived (lib : Libraries) (m : Message) (app : App) (omName : Str) :
    Nested Lock.rank [] (messageArrived lib m app omName) :=
  (nested_outer nested_nil).append (nested_flatMap fun key _ => nested_family low_nil key)

/-- Every function locks in order. -/
theorem nested_locks (lib : Libraries) (c : Call) : Nested Lock.rank [] (c.locks lib) := by
  cases c with
  | log sink => exact nested_log low_nil sink
  | emplace => exact nested_outer nested_nil
  | publish debug trace result =>
    cases result with
    | returned => exact (nested_log low_nil debug).append (nested_outer nested_nil)
    | refused => exact (nested_log low_nil debug).append (nested_log low_nil trace)
    | duplicate =>
      apply (nested_log low_nil debug).append
      apply nested_outer
      apply nested_log
      intro h hh
      cases List.mem_singleton.mp hh
      rfl
  | onPublished trace => exact (nested_log low_nil trace).append (nested_outer nested_nil)
  | onMessage m app =>
    apply nested_flatMap
    intro s _
    rw [onArrived]
    split
    · exact nested_flatMap fun omName _ => nested_messageArrived lib m app omName
    · exact nested_nil
  | handleGet app =>
    apply (nested_outer nested_nil).append
    apply nested_flatMap
    intro key _
    exact (nested_family low_nil key).append (nested_family low_nil key)
  | routine app =>
    apply nested_outer
    apply nested_flatMap
    intro key _
    apply nested_family
    intro h hh
    cases List.mem_singleton.mp hh
    rfl

end

theorem sound_start (n : ℕ) : Sound Lock.rank (start n) where
  ordered := by
    intro t ht
    rw [List.eq_of_mem_replicate ht]
    rfl
  excluded := by
    rw [start, List.pairwise_replicate]
    exact Or.inr fun h hh => absurd hh List.not_mem_nil

theorem sound_action {lib : Libraries} {threads threads' : List (Thread Lock)} {a : Action}
    (hs : Sound Lock.rank threads) (h : step lib threads a = some threads') :
    Sound Lock.rank threads' := by
  cases a with
  | step i => exact sound_step hs h
  | call i c =>
    obtain ⟨t, ht, h⟩ := Option.bind_eq_some_iff.mp h
    split at h <;> cases h
    rename_i hrest
    have hmem := List.mem_of_getElem? ht
    have hheld : t.held = [] := by
      have hordered := hs.ordered t hmem
      rwa [hrest] at hordered
    refine ⟨fun u hu => ?_, pairwise_set ?_ hs.excluded ?_⟩
    · rcases List.mem_or_eq_of_mem_set hu with hu | rfl
      · exact hs.ordered u hu
      · simp only [hheld]
        exact (nested_locks lib c).ordered
    · intro t u hold h hh g hg heq
      have := hold g hg h hh heq.symm
      exact ⟨this.2, this.1⟩
    · intro j u hu hji h hh g hg
      simp only [hheld] at hg
      cases hg

/-- Whatever functions the threads have called, and however they were scheduled:
a mutex is held by one thread or shared; if any thread is at work one of them gets
its next lock, even from mutexes that prefer writers; and without further calls
all come to rest, after as many steps as are left, with every mutex free. -/
theorem no_deadlock (lib : Libraries) (n : ℕ) (actions : List Action)
    (threads : List (Thread Lock)) (h : run (step lib) (start n) actions = some threads) :
    (threads.Pairwise fun t u => ∀ h ∈ t.held, ∀ g ∈ u.held, h.1 = g.1 →
      h.2 = .shared ∧ g.2 = .shared) ∧
    ∀ is threads', run Mutexes.step threads is = some threads' → is.length ≤ left threads ∧
      (is.length < left threads → ∃ i, Prompt threads' i) ∧
      (is.length = left threads → ∀ t ∈ threads', Finished t) := by
  have hs : Sound Lock.rank threads :=
    run_invariant (fun _ _ _ hI hstep => sound_action hI hstep) (sound_start n) h
  exact ⟨hs.excluded, fun is threads' hrun => drains hs hrun⟩

/-- A request comes while a routine pass has the registry. -/
theorem no_deadlock_scrape :
    let app := Loop.final (App.register [counterEntry "a" "one"] .initial)
    ∃ threads, run (step simpleLibraries) (start 2)
      [.call 0 (.routine app), .step 0, .call 1 (.handleGet app)] = some threads ∧
        Mutexes.step threads 1 = none ∧ ∃ i, Prompt threads i := by
  intro app
  have hend : (run (step simpleLibraries) (start 2)
      [.call 0 (.routine app), .step 0, .call 1 (.handleGet app)]).map
        (fun threads => (left threads, (Mutexes.step threads 1).isNone)) = some (9, true) := by
    decide +kernel
  obtain ⟨threads, hrun, heq⟩ := Option.map_eq_some_iff.mp hend
  obtain ⟨hleft, hwaits⟩ := Prod.mk.inj heq
  obtain ⟨-, hnone⟩ := no_deadlock simpleLibraries 2 _ threads hrun
  obtain ⟨-, hprompt, -⟩ := hnone [] threads rfl
  refine ⟨threads, hrun, Option.isNone_iff_eq_none.mp hwaits, hprompt ?_⟩
  rw [hleft]
  decide

end Locks

end MqttExporter
