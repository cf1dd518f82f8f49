import MqttExporter.Base.History
import MqttExporter.SharedFamily

/-!
# A family shared by threads

`newSample`, `routine` and `begin()` hold the lock of the family. A pass of
`stringify` holds it while `begin()` copies the pointers only, and then reads
the points one by one, while other threads sample the objects, evict them and
make new ones.
-/

namespace MqttExporter

open Loop Transition

/-- A pass of `stringify`. Beside each pointer stands the label set it was copied
from, and `start` is the number of events before `begin()`: no step reads them. -/
structure Pass where
  start : ℕ
  /-- The metrics that the loop still comes to. -/
  rest : List (LabelSet × Option ℕ)
  /-- The metric that the loop is at, and the points it has read of it. -/
  current : Option (LabelSet × ℕ × List IPoint)
  done : List (LabelSet × List IPoint)

/-- `call` is the call of `newSample` that holds the lock: the object that it
samples, and what its writes still make of it. `history` lists the calls of
`newSample` and `routine` in the order in which they took the lock; no step
reads it. -/
structure Concurrent where
  family : SharedFamily
  call : Option (ℕ × List IMetric)
  passes : List Pass
  history : List FamilyEvent

namespace Concurrent

inductive Action where
  | sample (now : Int) (payload : Str) (labels : LabelSet)
  /-- The call that holds the lock writes a point, or releases the lock. -/
  | write
  | routine (now : Int)
  | begin
  /-- The next step of a pass. -/
  | read (pass : ℕ)

def fullname (s : Concurrent) : Str := s.family.value.getFullname

/-- A pointer that is null, or not that of an object, cannot be used. -/
def advance (lib : Libraries) (s : Concurrent) (p : Pass) : Option Pass :=
  match p.current with
  | some (labels, pointer, printed) => do
    let m ← s.family.objects[pointer]?
    match (m.points lib s.fullname)[printed.length]? with
    | some point => some { p with current := some (labels, pointer, printed ++ [point]) }
    | none => some { p with current := none, done := p.done ++ [(labels, printed)] }
  | none =>
    match p.rest with
    | (labels, some pointer) :: rest =>
      some { p with rest := rest, current := some (labels, pointer, []) }
    | (_, none) :: _ => none
    | [] => none

def newSample (lib : Libraries) (now : Int) (payload : Str) (labels : LabelSet)
    (s : Concurrent) : Option Concurrent :=
  let history := s.history ++ [.sample now payload labels]
  match s.family.locate lib now labels with
  | .error _ f => some { s with family := f, history := history }
  | .ok pointer f => do
    let m ← f.objects[pointer]?
    match m.writes lib payload with
    | .error _ => some { s with family := f, history := history }
    | .ok ws => some { s with family := f, call := some (pointer, ws), history := history }

def step (lib : Libraries) (s : Concurrent) : Action → Option Concurrent
  | .sample now payload labels =>
    if s.call = none then newSample lib now payload labels s else none
  | .write =>
    match s.call with
    | none => none
    | some (_, []) => some { s with call := none }
    | some (pointer, w :: ws) =>
      some { s with family := s.family.assign pointer w, call := some (pointer, ws) }
  | .routine now =>
    if s.call = none then
      some { s with family := s.family.routine now, history := s.history ++ [.routine now] }
    else none
  | .begin =>
    if s.call = none then
      let rest := s.family.metrics.entries.map fun e => (e.1, e.2.metric)
      some { s with passes := s.passes ++ [⟨s.history.length, rest, none, []⟩] }
    else none
  | .read i => do
    let p ← s.passes[i]?
    let p' ← advance lib s p
    return { s with passes := s.passes.set i p' }

def start (config : Configuration) : Concurrent := ⟨⟨config, .empty, []⟩, none, [], []⟩

variable {lib : Libraries} {config : Configuration} {s s' : Concurrent}

/-! ## What a step can do -/

/-- What a step of a pass can do. -/
inductive Reads (lib : Libraries) (s : Concurrent) (p : Pass) : Pass → Prop where
  | point (labels : LabelSet) (pointer : ℕ) (printed : List IPoint) (m : IMetric)
      (point : IPoint) : p.current = some (labels, pointer, printed) →
      s.family.objects[pointer]? = some m →
      (m.points lib s.fullname)[printed.length]? = some point →
      Reads lib s p { p with current := some (labels, pointer, printed ++ [point]) }
  | done (labels : LabelSet) (pointer : ℕ) (printed : List IPoint) (m : IMetric) :
      p.current = some (labels, pointer, printed) → s.family.objects[pointer]? = some m →
      (m.points lib s.fullname)[printed.length]? = none →
      Reads lib s p { p with current := none, done := p.done ++ [(labels, printed)] }
  | next (labels : LabelSet) (pointer : ℕ) (rest : List (LabelSet × Option ℕ)) :
      p.current = none → p.rest = (labels, some pointer) :: rest →
      Reads lib s p { p with rest := rest, current := some (labels, pointer, []) }

theorem advance_reads {p p' : Pass} (h : advance lib s p = some p') : Reads lib s p p' := by
  unfold advance at h
  split at h
  · rename_i labels pointer printed hcurrent
    obtain ⟨m, hm, hread⟩ := Option.bind_eq_some_iff.mp h
    split at hread <;> cases hread
    · rename_i point hpoint
      exact .point labels pointer printed m point hcurrent hm hpoint
    · rename_i hend
      exact .done labels pointer printed m hcurrent hm hend
  · rename_i hcurrent
    split at h <;> cases h
    rename_i labels pointer rest hrest
    exact .next labels pointer rest hcurrent hrest

/-- What a step can do, action by action. -/
inductive Effect (lib : Libraries) (s : Concurrent) : Action → Concurrent → Prop where
  | sample (now : Int) (payload : Str) (labels : LabelSet) (s' : Concurrent) : s.call = none →
      newSample lib now payload labels s = some s' → Effect lib s (.sample now payload labels) s'
  | release (pointer : ℕ) : s.call = some (pointer, []) →
      Effect lib s .write { s with call := none }
  | write (pointer : ℕ) (v : IMetric) (ws : List IMetric) : s.call = some (pointer, v :: ws) →
      Effect lib s .write
        { s with family := s.family.assign pointer v, call := some (pointer, ws) }
  | routine (now : Int) : s.call = none → Effect lib s (.routine now)
      { s with family := s.family.routine now, history := s.history ++ [.routine now] }
  | begin : s.call = none → Effect lib s .begin { s with
      passes := s.passes ++ [⟨s.history.length,
        s.family.metrics.entries.map fun e => (e.1, e.2.metric), none, []⟩] }
  | read (i : ℕ) (p p' : Pass) : s.passes[i]? = some p → advance lib s p = some p' →
      Effect lib s (.read i) { s with passes := s.passes.set i p' }

theorem step_effect {a : Action} (h : step lib s a = some s') : Effect lib s a s' := by
  cases a with
  | sample now payload labels =>
    simp only [step] at h
    split at h
    · rename_i hidle
      exact .sample now payload labels s' hidle h
    · cases h
  | write =>
    simp only [step] at h
    split at h <;> cases h
    · rename_i pointer hcall
      exact .release pointer hcall
    · rename_i pointer v ws hcall
      exact .write pointer v ws hcall
  | routine now =>
    simp only [step] at h
    split at h <;> cases h
    rename_i hidle
    exact .routine now hidle
  | begin =>
    simp only [step] at h
    split at h <;> cases h
    rename_i hidle
    exact .begin hidle
  | read i =>
    obtain ⟨p, hp, h⟩ := Option.bind_eq_some_iff.mp h
    obtain ⟨p', hadvance, heq⟩ := Option.bind_eq_some_iff.mp h
    cases heq
    exact .read i p p' hp hadvance

/-- However a call goes, it is one more event, and leaves the passes alone. -/
theorem newSample_keeps {now : Int} {payload : Str} {labels : LabelSet}
    (h : newSample lib now payload labels s = some s') :
    s'.history = s.history ++ [.sample now payload labels] ∧ s'.passes = s.passes ∧
      s'.family.config = s.family.config := by
  unfold newSample at h
  rw [SharedFamily.locate_eq] at h
  cases hrefs : s.family.store.refs labels with
  | some pointer =>
    simp only [hrefs] at h
    obtain ⟨m, -, hrest⟩ := Option.bind_eq_some_iff.mp h
    split at hrest <;> cases hrest <;> exact ⟨rfl, rfl, rfl⟩
  | none =>
    simp only [hrefs] at h
    cases hc : IMetric.create lib s.family.config.openMetric labels with
    | error e =>
      simp only [hc] at h
      cases h
      exact ⟨rfl, rfl, rfl⟩
    | ok m =>
      simp only [hc] at h
      obtain ⟨m', -, hrest⟩ := Option.bind_eq_some_iff.mp h
      split at hrest <;> cases hrest <;> exact ⟨rfl, rfl, rfl⟩

/-- After a step every pass is an old one, has just begun or has just read. -/
theorem passes_effect {a : Action} (h : Effect lib s a s') {P : Pass → Prop}
    (hold : ∀ p ∈ s.passes, P p)
    (hbegin : s.call = none → P ⟨s.history.length,
      s.family.metrics.entries.map fun e => (e.1, e.2.metric), none, []⟩)
    (hread : ∀ p ∈ s.passes, ∀ p', advance lib s p = some p' → P p') : ∀ p ∈ s'.passes, P p := by
  cases h with
  | sample now payload labels s' _ hsample =>
    rw [(newSample_keeps hsample).2.1]
    exact hold
  | release => exact hold
  | write => exact hold
  | routine => exact hold
  | begin hidle =>
    intro p hp
    rcases List.mem_append.mp hp with hp | hp
    · exact hold p hp
    · cases List.mem_singleton.mp hp
      exact hbegin hidle
  | read i p p' hp hadvance =>
    intro q hq
    rcases List.mem_or_eq_of_mem_set hq with hq | rfl
    · exact hold q hq
    · exact hread p (List.mem_of_getElem? hp) _ hadvance

/-! ## The family behind the steps -/

/-- The family after its events, at the level of values. -/
def familyAfter (lib : Libraries) (config : Configuration) (events : List FamilyEvent) :
    MetricFamily :=
  MetricFamily.run lib ⟨config, .empty⟩ events

/-- The call in progress is the last event: its object is still as `w`, and the
writes to come make of it what the sample makes of the metric. -/
structure Sampling (lib : Libraries) (config : Configuration) (s : Concurrent) (pointer : ℕ)
    (ws : List IMetric) (labels : LabelSet) (before : List FamilyEvent) (m m' w : IMetric) :
    Prop where
  history : ∃ t payload, s.history = before ++ [.sample t payload labels] ∧
    (familyAfter lib config before).target lib labels = .ok m ∧ m.newSample lib payload = .ok m' ∧
    s.family.metrics.find? labels = some ⟨some pointer, t⟩ ∧
    s.family.value = { familyAfter lib config before with
      metrics := (familyAfter lib config before).metrics.set labels ⟨some w, t⟩ }
  object : s.family.objects[pointer]? = some w
  last : (w :: ws).getLast (List.cons_ne_nil _ _) = m'
  between : ∀ v ∈ w :: ws, ∀ fullname, IMetric.Between lib fullname m m' v

/-- The objects, read through the pointers, are what the events make of the family. -/
structure Sound (lib : Libraries) (config : Configuration) (s : Concurrent) : Prop where
  owned : s.family.store.Owned
  idle : s.call = none → s.family.value = familyAfter lib config s.history
  busy : ∀ pointer ws, s.call = some (pointer, ws) →
    ∃ labels before m m' w, Sampling lib config s pointer ws labels before m m' w

theorem sound_start (lib : Libraries) (config : Configuration) :
    Sound lib config (start config) where
  owned := References.Store.owned_empty
  idle _ := rfl
  busy pointer ws h := by cases h

theorem familyAfter_snoc (lib : Libraries) (config : Configuration) (history : List FamilyEvent)
    (e : FamilyEvent) :
    familyAfter lib config (history ++ [e]) = (familyAfter lib config history).apply lib e :=
  MetricFamily.run_snoc lib _ history e

/-- What a call does, in the cases of `newSample`. -/
theorem newSample_spec (hs : Sound lib config s) (hidle : s.call = none) (now : Int)
    (payload : Str) (labels : LabelSet) :
    ∃ s₁, newSample lib now payload labels s = some s₁ ∧
      References.Step s.family.store s₁.family.store ∧ s₁.passes = s.passes ∧
      s₁.history = s.history ++ [.sample now payload labels] ∧
      ((s₁.call = none ∧ s₁.family.value = familyAfter lib config s₁.history) ∨
        ∃ pointer ws m m', s₁.call = some (pointer, ws) ∧
          Sampling lib config s₁ pointer ws labels s.history m m' m) := by
  have hvalue := hs.idle hidle
  unfold newSample
  rcases s.family.locate_spec lib now labels hs.owned with
    ⟨e, f, hlocate, htarget, hstep, hf⟩ | ⟨pointer, m, f, hlocate, htarget, hstep, hitem, hm, hf⟩
  · rw [hlocate]
    refine ⟨_, rfl, hstep, rfl, rfl, Or.inl ⟨hidle, ?_⟩⟩
    rw [hvalue] at htarget hf
    rw [familyAfter_snoc, MetricFamily.apply, MetricFamily.newSample_eq, htarget]
    exact hf
  · rw [hlocate]
    simp only [hm, Option.bind_eq_bind, Option.bind_some]
    rw [hvalue] at htarget hf
    rcases m.writes_spec lib payload with
      ⟨e, hwrites, hsample⟩ | ⟨ws, m', hwrites, hsample, hlast, hbetween⟩
    · rw [hwrites]
      refine ⟨_, rfl, hstep, rfl, rfl, Or.inl ⟨hidle, ?_⟩⟩
      rw [familyAfter_snoc, MetricFamily.apply, MetricFamily.newSample_eq, htarget]
      simp only [hsample]
      exact hf
    · rw [hwrites]
      refine ⟨_, rfl, hstep, rfl, rfl, Or.inr ⟨pointer, ws, m, m', rfl, ?_⟩⟩
      refine ⟨⟨now, payload, rfl, htarget, hsample, hitem, hf⟩, hm, hlast, fun v hv name => ?_⟩
      rcases List.mem_cons.mp hv with rfl | hv
      · exact IMetric.between_left lib name v m'
      · exact hbetween v hv name

/-- What the events so far make of the family, when a call in progress is done. -/
theorem Sampling.after {pointer : ℕ} {ws : List IMetric} {labels : LabelSet}
    {before : List FamilyEvent} {m m' w : IMetric}
    (h : Sampling lib config s pointer ws labels before m m' w) :
    ∃ t, s.family.metrics.find? labels = some ⟨some pointer, t⟩ ∧
      familyAfter lib config s.history = { familyAfter lib config before with
        metrics := (familyAfter lib config before).metrics.set labels ⟨some m', t⟩ } := by
  obtain ⟨t, payload, hhistory, htarget, hsample, hitem, -⟩ := h.history
  refine ⟨t, hitem, ?_⟩
  rw [hhistory, familyAfter_snoc, MetricFamily.apply, MetricFamily.newSample_eq, htarget]
  simp only [hsample, final]

/-- The call writes its next point. -/
theorem Sampling.write (hs : Sound lib config s) {pointer : ℕ} {ws : List IMetric}
    {labels : LabelSet} {before : List FamilyEvent} {m m' w v : IMetric}
    (h : Sampling lib config s pointer (v :: ws) labels before m m' w) :
    Sampling lib config
      { s with family := s.family.assign pointer v, call := some (pointer, ws) }
      pointer ws labels before m m' v := by
  obtain ⟨t, payload, hhistory, htarget, hsample, hitem, hvalue⟩ := h.history
  refine ⟨⟨t, payload, hhistory, htarget, hsample, hitem, ?_⟩, ?_, ?_, ?_⟩
  · rw [SharedFamily.value_assign hs.owned hitem, hvalue, OrderedMap.set_set]
  · exact List.getElem?_set_self (hs.owned.bound labels pointer (SharedFamily.refs_of_find? hitem))
  · rw [← h.last, List.getLast_cons (List.cons_ne_nil _ _)]
  · exact fun x hx => h.between x (List.mem_cons_of_mem w hx)

/-- The passes only read. -/
theorem Sound.withPasses (hs : Sound lib config s) (passes : List Pass) :
    Sound lib config { s with passes := passes } := by
  refine ⟨hs.owned, hs.idle, fun pointer ws hcall => ?_⟩
  obtain ⟨labels, before, m, m', w, h⟩ := hs.busy pointer ws hcall
  exact ⟨labels, before, m, m', w, h.history, h.object, h.last, h.between⟩

/-- What a step does with the objects, and with the events. -/
theorem step_sound (hs : Sound lib config s) {a : Action} (h : step lib s a = some s') :
    Sound lib config s' ∧ References.Step s.family.store s'.family.store ∧
      ((s'.history = s.history ∧ s'.family.store.refs = s.family.store.refs ∧
          (s'.call ≠ none → s.call ≠ none)) ∨
        s.call = none ∧ ∃ e, s'.history = s.history ++ [e]) := by
  cases step_effect h with
  | sample now payload labels s' hidle hsample =>
    obtain ⟨s₁, hs₁, hstep, -, hhistory, hcase⟩ := newSample_spec hs hidle now payload labels
    rw [hs₁] at hsample
    cases hsample
    refine ⟨⟨hstep.owned hs.owned, fun hidle' => ?_, fun pointer ws hcall => ?_⟩, hstep,
      Or.inr ⟨hidle, _, hhistory⟩⟩
    · rcases hcase with ⟨-, hvalue⟩ | ⟨pointer, ws, m, m', hcall, -⟩
      · exact hvalue
      · rw [hidle'] at hcall
        cases hcall
    · rcases hcase with ⟨hnone, -⟩ | ⟨pointer', ws', m, m', hcall', hsampling⟩
      · rw [hnone] at hcall
        cases hcall
      · rw [hcall'] at hcall
        cases hcall
        exact ⟨labels, s.history, m, m', m, hsampling⟩
  | release pointer hcall =>
    obtain ⟨labels, before, m, m', w, hsampling⟩ := hs.busy pointer [] hcall
    refine ⟨⟨hs.owned, fun _ => ?_, fun p ws hp => by cases hp⟩, .refl hs.owned,
      Or.inl ⟨rfl, rfl, fun hcall' => absurd rfl hcall'⟩⟩
    obtain ⟨t, payload, hhistory, htarget, hsample, hitem, hvalue⟩ := hsampling.history
    obtain ⟨t', hitem', hafter⟩ := hsampling.after
    have hlast : w = m' := hsampling.last
    have htime : t = t' := by
      rw [hitem] at hitem'
      cases hitem'
      rfl
    change s.family.value = familyAfter lib config s.history
    rw [hafter, hvalue, hlast, htime]
  | write pointer v ws hcall =>
    obtain ⟨labels, before, m, m', w, hsampling⟩ := hs.busy pointer (v :: ws) hcall
    obtain ⟨t, payload, -, -, -, hitem, -⟩ := hsampling.history
    have hstep := SharedFamily.step_assign hs.owned (SharedFamily.refs_of_find? hitem) v
    refine ⟨⟨hstep.owned hs.owned, fun hidle => (by cases hidle), fun p ws' hp => ?_⟩, hstep,
      Or.inl ⟨rfl, rfl, fun _ hidle => (by rw [hcall] at hidle; cases hidle)⟩⟩
    cases hp
    exact ⟨labels, before, m, m', v, hsampling.write hs⟩
  | routine now hidle =>
    have hstep := SharedFamily.step_routine hs.owned now
    refine ⟨⟨hstep.owned hs.owned, fun _ => ?_, fun pointer ws hcall => ?_⟩, hstep,
      Or.inr ⟨hidle, _, rfl⟩⟩
    · rw [familyAfter_snoc, SharedFamily.value_routine, hs.idle hidle]
      rfl
    · rw [hidle] at hcall
      cases hcall
  | begin => exact ⟨hs.withPasses _, .refl hs.owned, Or.inl ⟨rfl, rfl, id⟩⟩
  | read => exact ⟨hs.withPasses _, .refl hs.owned, Or.inl ⟨rfl, rfl, id⟩⟩

theorem sound_run {actions : List Action} (h : run (step lib) (start config) actions = some s) :
    Sound lib config s :=
  run_invariant (fun _ _ _ hs hstep => (step_sound hs hstep).1) (sound_start lib config) h

/-! ## The family of values behind a run -/

/-- The event of the family that an action begins. -/
def Action.event? : Action → Option FamilyEvent
  | .sample now payload labels => some (.sample now payload labels)
  | .routine now => some (.routine now)
  | .write | .begin | .read _ => none

theorem history_step {a : Action} (h : step lib s a = some s') :
    s'.history = s.history ++ a.event?.toList := by
  cases step_effect h with
  | sample now payload labels s' _ hsample => exact (newSample_keeps hsample).1
  | release => exact (List.append_nil _).symm
  | write => exact (List.append_nil _).symm
  | routine => rfl
  | begin => exact (List.append_nil _).symm
  | read => exact (List.append_nil _).symm

theorem history_run {actions : List Action} (h : run (step lib) (start config) actions = some s) :
    s.history = actions.filterMap Action.event? := by
  refine history_induction (P := fun actions s => s.history = actions.filterMap Action.event?)
    rfl ?_ h
  intro as s a s' _ ih hstep
  rw [history_step hstep, ih, List.filterMap_append]
  cases a <;> rfl

theorem config_step {a : Action} (h : step lib s a = some s') :
    s'.family.config = s.family.config := by
  cases step_effect h with
  | sample now payload labels s' _ hsample => exact (newSample_keeps hsample).2.2
  | release => rfl
  | write => rfl
  | routine => rfl
  | begin => rfl
  | read => rfl

/-- Whenever no call is at work, the objects, read through the pointers, are what
the calls have made of the family, one after the other and each as a whole. -/
theorem shared_refines (lib : Libraries) (config : Configuration) (actions : List Action)
    (s : Concurrent) (h : run (step lib) (start config) actions = some s)
    (hidle : s.call = none) :
    s.family.value = MetricFamily.run lib ⟨config, .empty⟩ (actions.filterMap Action.event?) := by
  rw [(sound_run h).idle hidle, history_run h]
  rfl

/-- A counter is sampled, goes to a pass, and is evicted before it is read. -/
theorem shared_refines_evicted : ∃ s,
    run (step simpleLibraries) (start (counterEntry "t" "c"))
      [.sample 0 [] .empty, .write, .write, .begin, .routine 90000, .read 0, .read 0] = some s ∧
    s.family.value = MetricFamily.run simpleLibraries ⟨counterEntry "t" "c", .empty⟩
      [.sample 0 [] .empty, .routine 90000] :=
  ⟨_, rfl, shared_refines simpleLibraries (counterEntry "t" "c")
    [.sample 0 [] .empty, .write, .write, .begin, .routine 90000, .read 0, .read 0] _ rfl rfl⟩

end Concurrent

end MqttExporter
