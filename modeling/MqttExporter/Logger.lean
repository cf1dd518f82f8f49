import MqttExporter.Base.Loop
import MqttExporter.Base.OrderedMultimap
import MqttExporter.Configuration

/-!
# The logger

An entry is logged by its destructor, so an exception there ends the process.
Routers are asked in the order of their numbers for the name of a sink.

* `contains_run`: a sink's name stays registered;
* `exists_first`: the answer is that of the first router which gives one;
* `log_run`: so an entry is written once, to the sink that router names.
-/

namespace MqttExporter

open Loop

/-- `LogEntry`: its fields, what `@timestamp` and `@location` print, and the text
streamed into it. -/
structure LogEntry where
  fields : OrderedMap Str Str
  timestamp : Str
  location : Str
  text : Str
  deriving DecidableEq

namespace LogEntry

def hasField (entry : LogEntry) (key : Str) : Bool := entry.fields.contains key

def field (entry : LogEntry) (key : Str) : Except Error Str :=
  if key = "@timestamp".toList then .ok entry.timestamp
  else if key = "@location".toList then .ok entry.location
  else
    match entry.fields.find? key with
    | some value => .ok value
    | none => .error (.runtime "unordered_map::at")

end LogEntry

abbrev Router := LogEntry → Except Error Str

/-- A sink of type `S` is what a pointer to it names; it is never null. -/
structure Logger (S : Type) where
  routers : OrderedMultimap Int Router
  sinks : OrderedMap Str S

namespace Logger

variable {S σ : Type}

/-- The rule for all entries that have no other. -/
def defaultRouter : Router := fun _ => .ok "@clog".toList

def levelRouter : Router := fun entry => do
  if entry.hasField "level".toList then
    let level ← entry.field "level".toList
    if level = "fatal".toList ∨ level = "error".toList then
      return "@cerr".toList
  return []

def setSink (l : Logger S) (name : Str) (sink : S) : Logger S :=
  { l with sinks := l.sinks.set name sink }

def addRouter (l : Logger S) (router : Router) (order : Int) : Logger S :=
  { l with routers := l.routers.emplace order router }

/-- `Logger::Logger`, with the three sinks of the standard streams. -/
def create (cout clog cerr : S) : Logger S :=
  let sinks := (((⟨.empty, .empty⟩ : Logger S).setSink "@cout".toList cout).setSink
    "@clog".toList clog).setSink "@cerr".toList cerr
  (sinks.addRouter defaultRouter 100).addRouter levelRouter 10

/-- The loop over the routers. -/
def firstName (entry : LogEntry) : List (Int × Router) → Except Error Str
  | [] => .ok []
  | r :: rs => do
    let name ← r.2 entry
    if name ≠ [] then return name
    firstName entry rs

def route (l : Logger S) (entry : LogEntry) : Except Error Str := firstName entry l.routers.entries

/-- `write` is the virtual `Sink::write`. -/
def log (write : S → LogEntry → EStateM Error σ Unit) (l : Logger S) (entry : LogEntry) :
    EStateM Error σ Unit := do
  let name ← raise (l.route entry)
  if name ≠ [] then
    match l.sinks.find? name with
    | some sink => write sink entry
    | none => throw (.runtime ("No sink found for name: " ++ String.ofList name))
  else throw (.runtime "Sending it to the empty sink")

end Logger

/-- `LogEntry::~LogEntry`. -/
def LogEntry.destroy {S σ : Type} (write : S → LogEntry → EStateM Error σ Unit)
    (logger : Logger S) (entry : LogEntry) : EStateM Error σ Unit := logger.log write entry

namespace Logger

variable {S σ : Type}

inductive Call (S : Type) where
  | setSink (name : Str) (sink : S)
  | addRouter (router : Router) (order : Int)

def apply (l : Logger S) : Call S → Logger S
  | .setSink name sink => l.setSink name sink
  | .addRouter router order => l.addRouter router order

def run (l : Logger S) (calls : List (Call S)) : Logger S := calls.foldl apply l

/-- The routers in the order in which they were added, those of the constructor
first. -/
def added (calls : List (Call S)) : List (Int × Router) :=
  (100, defaultRouter) :: (10, levelRouter) :: calls.filterMap fun
    | .setSink _ _ => none
    | .addRouter router order => some (order, router)

/-- The router does not leave the entry to the others. -/
def answers (entry : LogEntry) (r : Int × Router) : Bool :=
  match r.2 entry with
  | .ok name => name ≠ []
  | .error _ => true

theorem run_append (l : Logger S) (xs ys : List (Call S)) :
    l.run (xs ++ ys) = (l.run xs).run ys := List.foldl_append

/-! ## Sinks and routers after a run -/

/-- A name keeps a sink, whatever is called. -/
theorem contains_run {l : Logger S} {name : Str} (h : l.sinks.contains name = true)
    (calls : List (Call S)) : (l.run calls).sinks.contains name = true := by
  induction calls generalizing l with
  | nil => exact h
  | cons call calls ih =>
    apply ih
    cases call with
    | setSink q sink =>
      change (l.sinks.set q sink).contains name = true
      rw [OrderedMap.contains, OrderedMap.find?_set]
      split
      · rfl
      · exact h
    | addRouter router order => exact h

theorem routers_run (cout clog cerr : S) (calls : List (Call S)) :
    ((create cout clog cerr).run calls).routers = OrderedMultimap.ofList (added calls) := by
  induction calls using List.reverseRecOn with
  | nil => rfl
  | append_singleton calls call ih =>
    rw [run_append]
    cases call with
    | setSink name sink =>
      have hadded : added (calls ++ [.setSink name sink]) = added calls := by
        simp [added]
      rw [hadded, ← ih]
      rfl
    | addRouter router order =>
      have hadded : added (calls ++ [.addRouter router order]) =
          added calls ++ [(order, router)] := by
        simp [added]
      rw [hadded, OrderedMultimap.ofList_snoc, ← ih]
      rfl

/-! ## Routing -/

/-- The loop returns what the first router that answers does. -/
theorem firstName_eq (entry : LogEntry) (rs : List (Int × Router)) :
    firstName entry rs = match rs.find? (answers entry) with
      | some r => r.2 entry
      | none => .ok [] := by
  induction rs with
  | nil => rfl
  | cons r rs ih =>
    unfold firstName
    cases hr : r.2 entry with
    | error e =>
      have ha : answers entry r = true := by
        simp [answers, hr]
      rw [List.find?_cons_of_pos ha]
      simp only [hr]
      rfl
    | ok name =>
      by_cases hname : name = []
      · have ha : ¬ answers entry r = true := by
          simp [answers, hr, hname]
        rw [List.find?_cons_of_neg ha, ← ih, hname]
        rfl
      · have ha : answers entry r = true := by
          simp [answers, hr, hname]
        rw [List.find?_cons_of_pos ha]
        simp only [hr]
        exact if_pos hname

/-- The rule for levels reads only a field that is there. -/
theorem levelRouter_answer (entry : LogEntry) :
    levelRouter entry = .ok [] ∨ levelRouter entry = .ok "@cerr".toList := by
  unfold levelRouter LogEntry.hasField OrderedMap.contains
  cases hf : entry.fields.find? "level".toList with
  | none => exact Or.inl rfl
  | some level =>
    have hfield : entry.field "level".toList = .ok level := by
      rw [LogEntry.field, if_neg (by decide), if_neg (by decide), hf]
    simp only [hfield]
    by_cases hlevel : level = "fatal".toList ∨ level = "error".toList
    · exact Or.inr (if_pos hlevel)
    · exact Or.inl (if_neg hlevel)

/-- Of the routers that answer, one comes first, as the default one answers. -/
theorem exists_first (entry : LogEntry) (calls : List (Call S)) :
    ∃ i r, OrderedMultimap.IsFirst (answers entry) (added calls) i r ∧
      ∀ cout clog cerr : S, ((create cout clog cerr).run calls).route entry = r.2 entry := by
  rcases OrderedMultimap.find?_ofList (answers entry) (added calls) with
    ⟨i, r, hfind, hfirst⟩ | ⟨-, hnone⟩
  · refine ⟨i, r, hfirst, fun cout clog cerr => ?_⟩
    rw [route, routers_run, firstName_eq, hfind]
  · have hdefault := hnone (100, defaultRouter) List.mem_cons_self
    cases hdefault

/-- Some call in the run has left a sink under the name, and others may follow. -/
def RegisteredOnce (cout clog cerr : S) (calls : List (Call S)) (name : Str) : Prop :=
  ∃ before rest, calls = before ++ rest ∧
    ((create cout clog cerr).run before).sinks.contains name = true

theorem RegisteredOnce.contains {cout clog cerr : S} {calls : List (Call S)} {name : Str}
    (h : RegisteredOnce cout clog cerr calls name) :
    ((create cout clog cerr).run calls).sinks.contains name = true := by
  obtain ⟨before, rest, rfl, hbefore⟩ := h
  rw [run_append]
  exact contains_run hbefore rest

/-- Whoever added a router, it answers with the name of a registered sink. -/
theorem answer_registered {cout clog cerr : S} {calls : List (Call S)} {entry : LogEntry}
    (hrouters : ∀ router order, .addRouter router order ∈ calls → ∃ name,
      router entry = .ok name ∧ (name = [] ∨ RegisteredOnce cout clog cerr calls name))
    {r : Int × Router} (hr : r ∈ added calls) : ∃ name, r.2 entry = .ok name ∧
      (name = [] ∨ ((create cout clog cerr).run calls).sinks.contains name = true) := by
  rcases List.mem_cons.mp hr with rfl | hr
  · exact ⟨_, rfl, Or.inr (contains_run rfl calls)⟩
  · rcases List.mem_cons.mp hr with rfl | hr
    · rcases levelRouter_answer entry with h | h
      · exact ⟨_, h, Or.inl rfl⟩
      · exact ⟨_, h, Or.inr (contains_run rfl calls)⟩
    · obtain ⟨call, hcall, hsome⟩ := List.mem_filterMap.mp hr
      cases call with
      | setSink name sink => cases hsome
      | addRouter router order =>
        cases hsome
        obtain ⟨name, hname, hreg⟩ := hrouters router order hcall
        exact ⟨name, hname, hreg.imp_right RegisteredOnce.contains⟩

/-- When the routers that were added answer with the names of sinks that were
registered at some time, or not at all, and no registered sink raises, an entry
is written to one sink: that which the first router to answer names. -/
theorem log_run {write : S → LogEntry → EStateM Error σ Unit} {cout clog cerr : S}
    {calls : List (Call S)} {entry : LogEntry}
    (hrouters : ∀ router order, .addRouter router order ∈ calls → ∃ name,
      router entry = .ok name ∧ (name = [] ∨ RegisteredOnce cout clog cerr calls name))
    (hwrite : ∀ name sink, ((create cout clog cerr).run calls).sinks.find? name = some sink →
      ∀ s, ∃ s', write sink entry s = .ok () s') :
    ∃ i r name sink, OrderedMultimap.IsFirst (answers entry) (added calls) i r ∧
      r.2 entry = .ok name ∧ name ≠ [] ∧
      ((create cout clog cerr).run calls).sinks.find? name = some sink ∧
      entry.destroy write ((create cout clog cerr).run calls) = write sink entry ∧
      ∀ s, ∃ s', entry.destroy write ((create cout clog cerr).run calls) s = .ok () s' := by
  obtain ⟨i, r, hfirst, hroute⟩ := exists_first entry calls
  obtain ⟨name, hname, hreg⟩ := answer_registered hrouters (List.mem_of_getElem? hfirst.there)
  have hne : name ≠ [] := by
    have hanswers := hfirst.holds
    rw [answers, hname] at hanswers
    simpa using hanswers
  obtain ⟨sink, hsink⟩ := Option.isSome_iff_exists.mp (hreg.resolve_left hne)
  have hlog : entry.destroy write ((create cout clog cerr).run calls) = write sink entry := by
    funext s
    rw [LogEntry.destroy, log, bind_apply, hroute, hname, raise_ok]
    simp only [ne_eq, hne, not_false_eq_true, if_true, hsink]
  refine ⟨i, r, name, sink, hfirst, hname, hne, hsink, hlog, fun s => ?_⟩
  rw [hlog]
  exact hwrite name sink hsink s

/-- The default router comes after the one that was added: the entry is written
once, to the sink of `std::clog`. -/
theorem log_run_clog : ∃ name sink,
    ((create 0 1 2).run [.addRouter (fun _ => .ok "@clog".toList) 50]).sinks.find? name =
      some sink ∧
    LogEntry.destroy (fun sink _ => modify fun s => s ++ [sink])
      ((create 0 1 2).run [.addRouter (fun _ => .ok "@clog".toList) 50]) ⟨.empty, [], [], []⟩ [] =
        (.ok () [sink] : EStateM.Result Error (List ℕ) Unit) ∧ sink = 1 := by
  have hrouters : ∀ router order, Call.addRouter router order ∈
      [Call.addRouter (S := ℕ) (fun _ => .ok "@clog".toList) 50] → ∃ name,
        router ⟨.empty, [], [], []⟩ = .ok name ∧ (name = [] ∨
          RegisteredOnce 0 1 2 [.addRouter (fun _ => .ok "@clog".toList) 50] name) := by
    intro router order hmem
    cases List.mem_singleton.mp hmem
    exact ⟨_, rfl, Or.inr ⟨[], _, rfl, rfl⟩⟩
  have hwrite : ∀ name sink, ((create 0 1 2).run
      [.addRouter (fun _ => .ok "@clog".toList) 50]).sinks.find? name = some sink →
      ∀ s : List ℕ, ∃ s', (modify fun s => s ++ [sink] : EStateM Error (List ℕ) Unit) s =
        .ok () s' := by
    intro name sink _ s
    exact ⟨s ++ [sink], rfl⟩
  obtain ⟨i, r, name, sink, -, -, -, hsink, hlog, -⟩ :=
    @log_run _ _ (fun sink _ => modify fun s => s ++ [sink]) _ _ _ _ _ hrouters hwrite
  have hwritten := congrFun hlog []
  refine ⟨name, sink, hsink, hwritten, ?_⟩
  have hone : (.ok () [1] : EStateM.Result Error (List ℕ) Unit) = .ok () [sink] := hwritten
  cases hone
  rfl

end Logger

end MqttExporter
