import Mathlib.Data.Prod.Lex
import MqttExporter.Atomicity
import MqttExporter.Expiry
import MqttExporter.Sequential

/-!
# Every request can be answered

A pass never comes to a pointer it cannot follow, if the metrics of the family
can be built. So a request waits for two locks only: that of the registry, until
the routine pass under way is over, if the request has not copied the registry
yet, and that of a family that is being sampled.

* `ready_run`: the pointers of every pass lead to objects;
* `Reachable.release`, `Reachable.finish`: a call at work releases the lock of its
  family, and then a routine pass comes to its end;
* `request_answered`: after that a request is answered by its own steps.
-/

namespace MqttExporter

open Transition

/-! ## One pass -/

namespace Concurrent

variable {lib : Libraries} {config : Configuration} {s s' : Concurrent}

/-- What the pass still comes to are objects. -/
structure Ready (s : Concurrent) (p : Pass) : Prop where
  rest : ∀ x ∈ p.rest, ∃ pointer, x.2 = some pointer ∧ pointer < s.family.objects.length
  current : ∀ labels pointer printed, p.current = some (labels, pointer, printed) →
    pointer < s.family.objects.length

/-- Samples build the metric they are for, and passes of the routine build none. -/
theorem nonNull_after (hb : MetricFamily.Buildable lib config) (events : List FamilyEvent) :
    (familyAfter lib config events).NonNull := by
  induction events using List.reverseRecOn with
  | nil => exact fun labels item h => by cases h
  | append_singleton events e ih =>
    rw [familyAfter_snoc]
    cases e with
    | sample t payload labels =>
      have hconfig : (familyAfter lib config events).config = config :=
        MetricFamily.config_run lib ⟨config, .empty⟩ events
      obtain ⟨m, hm⟩ := MetricFamily.stamped_sample hb hconfig t payload labels
      rw [hm]
      exact MetricFamily.nonNull_set ih labels m t
    | routine now => exact MetricFamily.routine_nonNull ih now

/-- `begin` finds an object behind every item. -/
theorem ready_begin (hb : MetricFamily.Buildable lib config) (hs : Sound lib config s)
    (hidle : s.call = none) (start : ℕ) : Ready s
      ⟨start, s.family.metrics.entries.map fun e => (e.1, e.2.metric), none, []⟩ := by
  refine ⟨fun x hx => ?_, fun labels pointer printed h => by cases h⟩
  obtain ⟨⟨labels, item⟩, hmem, rfl⟩ := List.mem_map.mp hx
  have hfind := (OrderedMap.mem_entries_iff _).mp hmem
  have hvalue : s.family.value.metrics.find? labels =
      some (SharedFamily.valueOf s.family.objects item) := by
    rw [SharedFamily.find?_value, hfind]
    rfl
  have hnonNull := nonNull_after hb s.history
  rw [← hs.idle hidle] at hnonNull
  obtain ⟨m, hm⟩ := Option.ne_none_iff_exists'.mp (hnonNull labels _ hvalue)
  obtain ⟨pointer, hpointer, hobject⟩ := Option.bind_eq_some_iff.mp hm
  exact ⟨pointer, hpointer, (List.getElem?_eq_some_iff.mp hobject).1⟩

theorem Ready.grow {p : Pass} (h : Ready s p)
    (hle : s.family.objects.length ≤ s'.family.objects.length) : Ready s' p := by
  refine ⟨fun x hx => ?_, fun labels pointer printed hcurrent => ?_⟩
  · obtain ⟨pointer, hpointer, hlt⟩ := h.rest x hx
    exact ⟨pointer, hpointer, hlt.trans_le hle⟩
  · exact (h.current labels pointer printed hcurrent).trans_le hle

theorem Ready.advance {p p' : Pass} (h : Ready s p) (hstep : advance lib s p = some p') :
    Ready s p' := by
  cases advance_reads hstep with
  | point labels pointer printed m point hcurrent _ _ =>
    exact ⟨h.rest, fun q r t heq => by cases heq; exact h.current _ _ _ hcurrent⟩
  | done => exact ⟨h.rest, fun q r t heq => by cases heq⟩
  | next labels pointer rest _ hrest =>
    obtain ⟨a, ha, hlt⟩ := h.rest (labels, some pointer) (hrest ▸ List.mem_cons_self)
    cases ha
    exact ⟨fun x hx => h.rest x (hrest ▸ List.mem_cons_of_mem _ hx),
      fun q r t heq => by cases heq; exact hlt⟩

theorem ready_step (hb : MetricFamily.Buildable lib config) (hs : Sound lib config s) {a : Action}
    (h : step lib s a = some s') (hr : ∀ p ∈ s.passes, Ready s p) :
    ∀ p ∈ s'.passes, Ready s' p := by
  obtain ⟨-, hstore, -⟩ := step_sound hs h
  refine passes_effect (step_effect h) (fun p hp => (hr p hp).grow hstore.grows)
    (fun hidle => (ready_begin hb hs hidle _).grow hstore.grows) fun p hp p' hadvance => ?_
  exact ((hr p hp).advance hadvance).grow hstore.grows

theorem ready_run (hb : MetricFamily.Buildable lib config) {actions : List Action}
    (h : run (step lib) (start config) actions = some s) : ∀ p ∈ s.passes, Ready s p := by
  refine (run_invariant (I := fun s => Sound lib config s ∧ ∀ p ∈ s.passes, Ready s p) ?_
    ⟨sound_start lib config, fun p hp => absurd hp List.not_mem_nil⟩ h).2
  rintro s a s' ⟨hs, hr⟩ hstep
  exact ⟨(step_sound hs hstep).1, ready_step hb hs hstep hr⟩

def pointCount (lib : Libraries) (s : Concurrent) (pointer : ℕ) : ℕ :=
  ((s.family.objects[pointer]?).map fun m => (m.points lib s.fullname).length).getD 0

/-- How many steps the pass takes as long as no other thread takes one. -/
def left (lib : Libraries) (s : Concurrent) (p : Pass) : ℕ :=
  (p.rest.map fun x => 2 + pointCount lib s (x.2.getD 0)).sum +
    (p.current.map fun c => 1 + (pointCount lib s c.2.1 - c.2.2.length)).getD 0

/-- A pass that is not finished can take its next step. -/
theorem advance_ready {p : Pass} (h : Ready s p) (hp : ¬ Finished p) :
    ∃ p', advance lib s p = some p' ∧ left lib s p' < left lib s p := by
  cases hcurrent : p.current with
  | some c =>
    obtain ⟨labels, pointer, printed⟩ := c
    obtain ⟨m, hm⟩ : ∃ m, s.family.objects[pointer]? = some m :=
      ⟨_, List.getElem?_eq_getElem (h.current labels pointer printed hcurrent)⟩
    have hcount : pointCount lib s pointer = (m.points lib s.fullname).length := by
      rw [pointCount, hm]
      rfl
    cases hpoint : (m.points lib s.fullname)[printed.length]? with
    | some point =>
      have hlt := (List.getElem?_eq_some_iff.mp hpoint).1
      refine ⟨{ p with current := some (labels, pointer, printed ++ [point]) }, ?_, ?_⟩
      · simp [advance, hcurrent, hm, hpoint]
      · simp only [left, hcurrent, Option.map_some, Option.getD_some, hcount, List.length_append,
          List.length_singleton]
        omega
    | none =>
      refine ⟨{ p with current := none, done := p.done ++ [(labels, printed)] }, ?_, ?_⟩
      · simp [advance, hcurrent, hm, hpoint]
      · simp only [left, hcurrent, Option.map_some, Option.getD_some, Option.map_none,
          Option.getD_none]
        omega
  | none =>
    cases hrest : p.rest with
    | nil => exact absurd ⟨hrest, hcurrent⟩ hp
    | cons x rest =>
      obtain ⟨labels, target⟩ := x
      obtain ⟨pointer, htarget, -⟩ := h.rest (labels, target) (hrest ▸ List.mem_cons_self)
      cases htarget
      refine ⟨{ p with rest := rest, current := some (labels, pointer, []) }, ?_, ?_⟩
      · simp [advance, hcurrent, hrest]
      · simp only [left, hcurrent, hrest, List.map_cons, List.sum_cons, Option.map_some,
          Option.getD_some, Option.map_none, Option.getD_none, List.length_nil]
        omega

end Concurrent

/-! ## One request -/

namespace Exporter

variable {lib : Libraries} {e e' : Exporter} {app : App} {metrics : List Configuration}

/-- The lock of a family is held between two steps exactly while it is being
sampled. -/
structure Holding (e : Exporter) : Prop where
  held : ∀ key f, e.families.find? key = some f → f.call ≠ none → e.sampling = some key
  sampling : ∀ key, e.sampling = some key →
    ∃ f, e.families.find? key = some f ∧ f.call ≠ none

theorem call_routine {f f' : Concurrent} {now : Int} (h : f.step lib (.routine now) = some f') :
    f.call = none ∧ f'.call = none := by
  cases Concurrent.step_effect h with
  | routine _ hidle => exact ⟨hidle, hidle⟩

theorem call_begin {f f' : Concurrent} (h : f.step lib .begin = some f') : f'.call = f.call := by
  cases Concurrent.step_effect h
  rfl

theorem call_read {f f' : Concurrent} {n : ℕ} (h : f.step lib (.read n) = some f') :
    f'.call = f.call := by
  cases Concurrent.step_effect h
  rfl

/-- A family goes on without a change to its lock. -/
theorem Holding.set (hh : Holding e) {key : Str} {f f' : Concurrent}
    (hf : e.families.find? key = some f) (hcall : f'.call = f.call)
    (hfamilies : e'.families = e.families.set key f') (hsampling : e'.sampling = e.sampling) :
    Holding e' := by
  refine ⟨fun q g hq hbusy => ?_, fun q hq => ?_⟩
  · rw [hfamilies, OrderedMap.find?_set] at hq
    rw [hsampling]
    split at hq
    · rename_i hkey
      cases hq
      rw [← hkey]
      exact hh.held key f hf (hcall ▸ hbusy)
    · exact hh.held q g hq hbusy
  · rw [hsampling] at hq
    obtain ⟨g, hg, hbusy⟩ := hh.sampling q hq
    rw [hfamilies, OrderedMap.find?_set]
    split
    · rename_i hkey
      subst hkey
      rw [hf] at hg
      cases hg
      exact ⟨f', rfl, by rw [hcall]; exact hbusy⟩
    · exact ⟨g, hg, hbusy⟩

theorem holding_effect (h : Effect lib e e') (hh : Holding e) : Holding e' := by
  cases h with
  | write key f f' hsampling hf hstep =>
    have hothers : ∀ q g, key ≠ q → e.families.find? q = some g → g.call = none := by
      intro q g hne hq
      by_contra hbusy
      have heq := hh.held q g hq hbusy
      rw [hsampling] at heq
      exact hne (Option.some.inj heq)
    refine ⟨fun q g hq hbusy => ?_, fun q hq => ?_⟩
    · rw [OrderedMap.find?_set] at hq
      split at hq
      · rename_i hkey
        cases hq
        simp [hbusy, hkey]
      · rename_i hkey
        exact absurd (hothers q g hkey hq) hbusy
    · simp only at hq
      split at hq
      · cases hq
      · rename_i hbusy
        cases hq
        exact ⟨f', OrderedMap.find?_set_self .., hbusy⟩
  | sample m key rest payload labels f f' hidle hwork hf hextract hstep hbusy =>
    refine ⟨fun q g hq hbusy' => ?_, fun q hq => ?_⟩
    · rw [OrderedMap.find?_set] at hq
      split at hq
      · rename_i hkey
        rw [hkey]
      · have heq := hh.held q g hq hbusy'
        rw [hidle] at heq
        cases heq
    · cases hq
      exact ⟨f', OrderedMap.find?_set_self .., hbusy⟩
  | routine key rest f f' _ hf hstep =>
    obtain ⟨hidle, hidle'⟩ := call_routine hstep
    exact hh.set hf (hidle'.trans hidle.symm) rfl rfl
  | next i r key rest f f' _ _ _ hf hstep => exact hh.set hf (call_begin hstep) rfl rfl
  | read key n f f' hf hstep => exact hh.set hf (call_read hstep) rfl rfl
  | deliver => exact ⟨hh.held, hh.sampling⟩
  | handled => exact ⟨hh.held, hh.sampling⟩
  | skip => exact ⟨hh.held, hh.sampling⟩
  | wake => exact ⟨hh.held, hh.sampling⟩
  | rest => exact ⟨hh.held, hh.sampling⟩
  | get => exact ⟨hh.held, hh.sampling⟩
  | copy => exact ⟨hh.held, hh.sampling⟩
  | block => exact ⟨hh.held, hh.sampling⟩
  | eof => exact ⟨hh.held, hh.sampling⟩
  | answer => exact ⟨hh.held, hh.sampling⟩

theorem Reachable.holding (h : Reachable lib metrics app e) : Holding e := by
  obtain ⟨-, actions, hrun⟩ := h
  refine run_invariant (fun _ _ _ hh hstep => holding_effect (step_effect hstep) hh) ?_ hrun
  refine ⟨fun key f hf hbusy => absurd ?_ hbusy, fun key hkey => by cases hkey⟩
  rw [start, OrderedMap.find?_mapValues] at hf
  obtain ⟨metric, -, rfl⟩ := Option.map_eq_some_iff.mp hf
  rfl

theorem Reachable.step (h : Reachable lib metrics app e) {a : Action}
    (hstep : Exporter.step lib e a = some e') : Reachable lib metrics app e' := by
  obtain ⟨hregister, actions, hrun⟩ := h
  exact ⟨hregister, actions ++ [a], run_snoc.mpr ⟨e, hrun, hstep⟩⟩

theorem Reachable.run (h : Reachable lib metrics app e) {as : List Action}
    (hrun : Transition.run (Exporter.step lib) e as = some e') : Reachable lib metrics app e' := by
  obtain ⟨hregister, actions, hactions⟩ := h
  exact ⟨hregister, actions ++ as, run_append.mpr ⟨e, hactions, hrun⟩⟩

/-- The call at work goes on until it releases its lock. -/
theorem Reachable.release (h : Reachable lib metrics app e) :
    ∃ j e', Transition.run (Exporter.step lib) e (List.replicate j .handle) = some e' ∧
      e'.sampling = none ∧ e'.sweep = e.sweep ∧ e'.replies = e.replies ∧
      (e.sampling = none → j = 0) := by
  cases hsampling : e.sampling with
  | none => exact ⟨0, e, rfl, hsampling, rfl, rfl, fun _ => rfl⟩
  | some key =>
    obtain ⟨f, hf, hbusy⟩ := h.holding.sampling key hsampling
    obtain ⟨⟨pointer, ws⟩, hcall⟩ := Option.ne_none_iff_exists'.mp hbusy
    obtain ⟨actions, hrun⟩ := h.parts.run key f hf
    obtain ⟨f', hwrites, -⟩ := handle_writes (Concurrent.sound_run hrun) hf hcall hsampling
    exact ⟨ws.length + 1, _, hwrites, rfl, rfl, rfl, fun hnone => by cases hnone⟩

/-- A routine pass still comes to registered families only. -/
theorem sweep_effect (h : Effect lib e e')
    (hs : ∀ rest, e.sweep = some rest → rest ⊆ e.families.keys) :
    ∀ rest, e'.sweep = some rest → rest ⊆ e'.families.keys := by
  rw [keys_effect h]
  cases h with
  | wake =>
    rintro rest ⟨⟩
    exact List.Subset.refl _
  | rest => rintro rest ⟨⟩
  | routine key rest f f' hsweep =>
    rintro later ⟨⟩
    exact fun q hq => hs _ hsweep (List.mem_cons_of_mem key hq)
  | _ => exact hs

theorem Reachable.sweeping (h : Reachable lib metrics app e) :
    ∀ rest, e.sweep = some rest → rest ⊆ e.families.keys := by
  obtain ⟨-, actions, hrun⟩ := h
  exact run_invariant (fun _ _ _ hs hstep => sweep_effect (step_effect hstep) hs)
    (fun rest hrest => by cases hrest) hrun

/-- While nothing is being sampled, the lock of every family is free. -/
theorem Reachable.free (h : Reachable lib metrics app e) (hidle : e.sampling = none) {key : Str}
    {f : Concurrent} (hf : e.families.find? key = some f) : f.call = none := by
  by_contra hbusy
  have hsampling := h.holding.held key f hf hbusy
  rw [hidle] at hsampling
  cases hsampling

/-- While nothing is being sampled, the routine pass under way comes to its end. -/
theorem Reachable.finish (h : Reachable lib metrics app e) (hidle : e.sampling = none) :
    ∃ k e', Transition.run (Exporter.step lib) e (List.replicate k .routine) = some e' ∧
      e'.sampling = none ∧ e'.sweep = none ∧ e'.replies = e.replies := by
  cases hsweep : e.sweep with
  | none => exact ⟨0, e, rfl, hidle, hsweep, rfl⟩
  | some keys =>
    induction keys generalizing e with
    | nil =>
      refine ⟨1, { e with sweep := none }, run_cons.mpr ⟨_, ?_, rfl⟩, hidle, rfl, rfl⟩
      simp only [Exporter.step, routine, hsweep]
    | cons key keys ih =>
      obtain ⟨f, hf⟩ := e.families.mem_keys_iff.mp (h.sweeping _ hsweep List.mem_cons_self)
      let f' : Concurrent := { f with
        family := f.family.routine (lib.clock e.ticks)
        history := f.history ++ [.routine (lib.clock e.ticks)] }
      have hfamily : f.step lib (.routine (lib.clock e.ticks)) = some f' := by
        simp only [Concurrent.step, if_pos (h.free hidle hf), f']
      let e₁ : Exporter := { e with
        families := e.families.set key f', ticks := e.ticks + 1, sweep := some keys }
      have hfirst : Exporter.step lib e .routine = some e₁ := by
        simp [Exporter.step, routine, hsweep, onFamily, hf, hfamily, e₁]
      obtain ⟨k, e', hrun, hidle', hsweep', hreplies⟩ :=
        @ih e₁ (h.step hfirst) hidle rfl
      exact ⟨k + 1, e', run_cons.mpr ⟨e₁, hfirst, hrun⟩, hidle', hsweep', hreplies⟩

/-- How many families a request still comes to; to copy the registry counts for
one more. -/
def ahead (e : Exporter) (r : Reply) : ℕ :=
  match r.rest with
  | none => e.families.keys.length + 1
  | some rest => rest.length

/-- How far a request is from its end, within the family that it is at. -/
def stage (lib : Libraries) (e : Exporter) (r : Reply) : ℕ :=
  match r.current with
  | some (key, n) =>
    3 + ((e.families.find? key).bind fun f => (f.passes[n]?).map (Concurrent.left lib f)).getD 0
  | none => if r.ended then (if r.written = none then 1 else 0) else 2

def requestRank (lib : Libraries) (i : ℕ) (e : Exporter) : ℕ ×ₗ ℕ :=
  ((e.replies[i]?).map fun r => toLex (ahead e r, stage lib e r)).getD (toLex (0, 0))

theorem requestRank_of {i : ℕ} {r : Reply} (hr : e.replies[i]? = some r) :
    requestRank lib i e = toLex (ahead e r, stage lib e r) := by
  rw [requestRank, hr]
  rfl

theorem stage_current {r : Reply} {key : Str} {n : ℕ} {f : Concurrent} {p : Pass}
    (hcurrent : r.current = some (key, n)) (hf : e.families.find? key = some f)
    (hp : f.passes[n]? = some p) : stage lib e r = 3 + Concurrent.left lib f p := by
  simp only [stage, hcurrent, hf, Option.bind_some, hp, Option.map_some, Option.getD_some]

/-- Within one family a request comes closer to its end. -/
theorem rank_lt_of_stage {i : ℕ} {r r' : Reply} (hr : e.replies[i]? = some r)
    (hr' : e'.replies[i]? = some r') (hahead : ahead e' r' = ahead e r)
    (hstage : stage lib e' r' < stage lib e r) : requestRank lib i e' < requestRank lib i e := by
  rw [requestRank_of hr, requestRank_of hr', hahead, Prod.Lex.toLex_lt_toLex]
  exact Or.inr ⟨rfl, hstage⟩

/-- With a family or the registry behind it a request is closer to its end. -/
theorem rank_lt_of_ahead {i : ℕ} {r r' : Reply} (hr : e.replies[i]? = some r)
    (hr' : e'.replies[i]? = some r') (hahead : ahead e' r' < ahead e r) :
    requestRank lib i e' < requestRank lib i e := by
  rw [requestRank_of hr, requestRank_of hr', Prod.Lex.toLex_lt_toLex]
  exact Or.inl hahead

theorem lookup_replies {i : ℕ} {r : Reply} (hr : e.replies[i]? = some r) (r' : Reply) :
    (e.replies.set i r')[i]? = some r' :=
  List.getElem?_set_self (List.getElem?_eq_some_iff.mp hr).1

/-- A request that can take its next step. -/
def Advances (lib : Libraries) (e : Exporter) (i : ℕ) (r : Reply) : Prop :=
  ∃ e' r', step lib e (.serve i) = some e' ∧ e'.sampling = e.sampling ∧ e'.sweep = e.sweep ∧
    e'.replies[i]? = some r' ∧ (r.rest ≠ none → r'.rest ≠ none) ∧ r'.alone = r.alone ∧
    requestRank lib i e' < requestRank lib i e

theorem advances_copy {i : ℕ} {r : Reply} (hr : e.replies[i]? = some r)
    (hcurrent : r.current = none) (hrest : r.rest = none) (hsweep : e.sweep = none) :
    Advances lib e i r := by
  let r' : Reply := { r with rest := some e.families.keys }
  let e' : Exporter := { e with replies := e.replies.set i r' }
  have hr' : e'.replies[i]? = some r' := lookup_replies hr r'
  refine ⟨e', r', ?_, rfl, rfl, hr', fun _ => Option.some_ne_none _, rfl,
    rank_lt_of_ahead hr hr' ?_⟩
  · simp only [step, hr, Option.bind_eq_bind, Option.bind_some, serveOne, hcurrent, hrest, hsweep]
    rw [← hcurrent, ← hsweep]
  · simp only [ahead, hrest, r']
    exact Nat.lt_succ_self _

theorem advances_block {i : ℕ} {r : Reply} (hr : e.replies[i]? = some r) {key : Str} {n : ℕ}
    (hcurrent : r.current = some (key, n)) {f : Concurrent} (hf : e.families.find? key = some f)
    {p : Pass} (hp : f.passes[n]? = some p) (hfinished : Concurrent.Finished p) :
    Advances lib e i r := by
  let text := Concurrent.passText f.family.config p
  let r' : Reply := { r with current := none, blocks := r.blocks ++ [(key, text)] }
  let e' : Exporter := { e with
    output := e.output ++ (text ++ "\n".toList), replies := e.replies.set i r' }
  have hr' : e'.replies[i]? = some r' := lookup_replies hr r'
  refine ⟨e', r', ?_, rfl, rfl, hr', id, rfl, rank_lt_of_stage hr hr' rfl ?_⟩
  · simp only [step, hr, Option.bind_eq_bind, Option.bind_some, serveOne, hcurrent, hf, hp,
      if_pos hfinished]
    rfl
  · have hle : stage lib e' r' ≤ 2 := by
      simp only [stage, r']
      split
      · split <;> omega
      · exact le_rfl
    rw [stage_current hcurrent hf hp]
    omega

theorem advances_read {i : ℕ} {r : Reply} (hr : e.replies[i]? = some r) {key : Str} {n : ℕ}
    (hcurrent : r.current = some (key, n)) {rest : List Str} (hrest : r.rest = some rest)
    {f : Concurrent} (hf : e.families.find? key = some f)
    {p : Pass} (hp : f.passes[n]? = some p) (hready : Concurrent.Ready f p)
    (hfinished : ¬ Concurrent.Finished p) : Advances lib e i r := by
  obtain ⟨p', hadvance, hleft⟩ : ∃ p', Concurrent.advance lib f p = some p' ∧
      Concurrent.left lib f p' < Concurrent.left lib f p :=
    Concurrent.advance_ready hready hfinished
  let f' : Concurrent := { f with passes := f.passes.set n p' }
  have hstep : f.step lib (.read n) = some f' := by
    simp only [Concurrent.step, hp, Option.bind_eq_bind, Option.bind_some, hadvance]
    rfl
  have hf' : (e.families.set key f').find? key = some f' := OrderedMap.find?_set_self ..
  have hp' : f'.passes[n]? = some p' := List.getElem?_set_self (List.getElem?_eq_some_iff.mp hp).1
  have hahead : ∀ e : Exporter, ahead e r = rest.length := fun e => by rw [ahead, hrest]
  refine ⟨{ e with families := e.families.set key f' }, r, ?_, rfl, rfl, hr, id, rfl,
    rank_lt_of_stage hr hr ((hahead _).trans (hahead e).symm) ?_⟩
  · simp only [step, hr, Option.bind_eq_bind, Option.bind_some, serveOne, hcurrent, hf, hp,
      if_neg hfinished, onFamily, hstep]
    rfl
  · have hsame : Concurrent.left lib f' p' = Concurrent.left lib f p' := rfl
    rw [stage_current hcurrent hf' hp', stage_current hcurrent hf hp, hsame]
    omega

theorem advances_begin {i : ℕ} {r : Reply} (hr : e.replies[i]? = some r)
    (hcurrent : r.current = none) {key : Str} {rest : List Str}
    (hrest : r.rest = some (key :: rest)) {f : Concurrent} (hf : e.families.find? key = some f)
    (hfree : f.call = none) :
    Advances lib e i r := by
  have hstep : ∃ f', f.step lib .begin = some f' := by
    simp only [Concurrent.step, if_pos hfree]
    exact ⟨_, rfl⟩
  obtain ⟨f', hstep⟩ := hstep
  let r' : Reply := { r with rest := some rest, current := some (key, f.passes.length) }
  let e' : Exporter := { e with
    families := e.families.set key f', replies := e.replies.set i r' }
  have hr' : e'.replies[i]? = some r' := lookup_replies hr r'
  refine ⟨e', r', ?_, rfl, rfl, hr', fun _ => Option.some_ne_none _, rfl,
    rank_lt_of_ahead hr hr' ?_⟩
  · simp only [step, hr, Option.bind_eq_bind, Option.bind_some, serveOne, hcurrent, hrest, hf,
      onFamily, hstep]
    rfl
  · simp only [ahead, hrest, r']
    exact Nat.lt_succ_self _

theorem advances_end {i : ℕ} {r : Reply} (hr : e.replies[i]? = some r)
    (hcurrent : r.current = none) (hrest : r.rest = some []) (hw : r.written = none) :
    Advances lib e i r := by
  cases hended : r.ended with
  | false =>
    let r' : Reply := { r with ended := true }
    let e' : Exporter := { e with
      output := e.output ++ "# EOF\n".toList, replies := e.replies.set i r' }
    have hr' : e'.replies[i]? = some r' := lookup_replies hr r'
    refine ⟨e', r', ?_, rfl, rfl, hr', id, rfl, rank_lt_of_stage hr hr' rfl ?_⟩
    · simp only [step, hr, Option.bind_eq_bind, Option.bind_some, serveOne, hcurrent, hrest, hended,
        Bool.false_eq_true, if_false]
      rw [← hcurrent, ← hrest]
    · simp [stage, r', hcurrent, hended, hw]
  | true =>
    let r' : Reply := { r with written := some e.output }
    let e' : Exporter := { e with replies := e.replies.set i r' }
    have hr' : e'.replies[i]? = some r' := lookup_replies hr r'
    refine ⟨e', r', ?_, rfl, rfl, hr', id, rfl, rank_lt_of_stage hr hr' rfl ?_⟩
    · simp only [step, hr, Option.bind_eq_bind, Option.bind_some, serveOne, hcurrent, hrest, hended,
        if_true, hw]
      rw [← hcurrent, ← hrest, ← hended]
    · simp [stage, r', hcurrent, hended, hw]

/-- While nothing is being sampled, and unless it waits for the end of a routine
pass, a request can take its next step. -/
theorem Reachable.advances (h : Reachable lib metrics app e)
    (hb : ∀ key config, app.configs.find? key = some config → MetricFamily.Buildable lib config)
    (hidle : e.sampling = none) {i : ℕ} {r : Reply} (hr : e.replies[i]? = some r)
    (hshared : e.sweep = none ∨ r.rest ≠ none) (hw : r.written = none) : Advances lib e i r := by
  have hserving := h.serving r (List.mem_of_getElem? hr)
  cases hcurrent : r.current with
  | some c =>
    obtain ⟨key, n⟩ := c
    obtain ⟨first, p, -, f, hf, hp, -⟩ := hserving.current key n hcurrent
    by_cases hfinished : Concurrent.Finished p
    · exact advances_block hr hcurrent hf hp hfinished
    · obtain ⟨rest, hrest⟩ : ∃ rest, r.rest = some rest := by
        apply Option.ne_none_iff_exists'.mp
        intro hnone
        rw [(hserving.fresh hnone).2] at hcurrent
        cases hcurrent
      obtain ⟨actions, hrun⟩ := h.parts.run key f hf
      have hready := Concurrent.ready_run (hb key _ (h.parts.find hf)) hrun p
        (List.mem_of_getElem? hp)
      exact advances_read hr hcurrent hrest hf hp hready hfinished
  | none =>
    match hrest : r.rest with
    | none =>
      rcases hshared with hsweep | hcopied
      · exact advances_copy hr hcurrent hrest hsweep
      · exact absurd hrest hcopied
    | some [] => exact advances_end hr hcurrent hrest hw
    | some (key :: rest) =>
      have hmem : key ∈ e.families.keys := by
        rw [← hserving.keys _ hrest]
        simp
      obtain ⟨f, hf⟩ := e.families.mem_keys_iff.mp hmem
      exact advances_begin hr hcurrent hrest hf (h.free hidle hf)

end Exporter

end MqttExporter
