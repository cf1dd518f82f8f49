import MqttExporter.Exporter
import MqttExporter.CounterRun
import MqttExporter.SeriesLabels

/-!
# What a response is made of

A request goes from family to family and reads each in a pass of its own, while
messages are handled and series are evicted.

* `Undisturbed`: a request that was alone at work had `_output` for itself;
* `reply_regular`: then a response has one block for each entry, and each is a
  pass that began after the request;
* `reply_counts`: every line of a counter counts the samples that the series had
  at some moment between the request and its answer.
-/

namespace MqttExporter

open Transition

/-! ## Passes over one family -/

namespace Concurrent

variable {lib : Libraries} {s s' : Concurrent}

theorem advance_start {p p' : Pass} (h : advance lib s p = some p') : p'.start = p.start := by
  cases advance_reads h <;> rfl

theorem advance_finished {p : Pass} (hp : Finished p) : advance lib s p = none := by
  unfold advance
  rw [hp.2, hp.1]

/-- A pass stays in its place, and one that has gone through everything stays as
it is. -/
theorem passes_step {a : Action} (h : step lib s a = some s') {n : ℕ} {p : Pass}
    (hp : s.passes[n]? = some p) :
    ∃ p', s'.passes[n]? = some p' ∧ p'.start = p.start ∧ (Finished p → p' = p) := by
  have hsame : s'.passes = s.passes → ∃ p', s'.passes[n]? = some p' ∧ p'.start = p.start ∧
      (Finished p → p' = p) := fun heq => ⟨p, by rw [heq, hp], rfl, fun _ => rfl⟩
  cases step_effect h with
  | sample now payload labels s' _ hsample => exact hsame (newSample_keeps hsample).2.1
  | release => exact hsame rfl
  | write => exact hsame rfl
  | routine => exact hsame rfl
  | begin =>
    refine ⟨p, ?_, rfl, fun _ => rfl⟩
    rw [List.getElem?_append_left (List.getElem?_eq_some_iff.mp hp).1]
    exact hp
  | read i q q' hq hadvance =>
    by_cases hi : i = n
    · subst hi
      rw [hp] at hq
      cases hq
      refine ⟨q', ?_, advance_start hadvance, fun hfinished => ?_⟩
      · exact List.getElem?_set_self (List.getElem?_eq_some_iff.mp hp).1
      · rw [advance_finished hfinished] at hadvance
        cases hadvance
    · refine ⟨p, ?_, rfl, fun _ => rfl⟩
      rw [List.getElem?_set_ne hi]
      exact hp

end Concurrent

/-! ## Requests -/

namespace Exporter

variable {lib : Libraries} {e e' : Exporter} {app : App}

/-- A pass over a family that began when the family had had `first` events or
more. -/
def HasPass (e : Exporter) (key : Str) (n first : ℕ) (p : Pass) : Prop :=
  ∃ f, e.families.find? key = some f ∧ f.passes[n]? = some p ∧ first ≤ p.start

/-- What is so of a request at every moment. -/
structure Serving (e : Exporter) (r : Reply) : Prop where
  fresh : r.rest = none → r.blocks = [] ∧ r.current = none
  keys : ∀ rest, r.rest = some rest →
    r.blocks.map Prod.fst ++ (r.current.map Prod.fst).toList ++ rest = e.families.keys
  since : ∀ key f, e.families.find? key = some f →
    ∃ first, r.since.find? key = some first ∧ first ≤ f.history.length
  current : ∀ key n, r.current = some (key, n) →
    ∃ first p, r.since.find? key = some first ∧ HasPass e key n first p
  blocks : ∀ key text, (key, text) ∈ r.blocks → ∃ first n p config,
    r.since.find? key = some first ∧ HasPass e key n first p ∧ Concurrent.Finished p ∧
      e.configs.find? key = some config ∧ text = Concurrent.passText config p
  ended : r.ended = true → r.rest = some [] ∧ r.current = none
  written : r.written ≠ none → r.ended = true

/-- The passes of the other families, and the finished ones, stay. -/
theorem HasPass.step {key : Str} {f f' : Concurrent} {act : Concurrent.Action}
    (hf : e.families.find? key = some f) (hstep : f.step lib act = some f')
    (hset : e'.families = e.families.set key f') {q : Str} {n first : ℕ} {p : Pass}
    (h : HasPass e q n first p) :
    ∃ p', HasPass e' q n first p' ∧ (Concurrent.Finished p → p' = p) := by
  obtain ⟨g, hg, hp, hfirst⟩ := h
  by_cases hq : key = q
  · subst hq
    rw [hf] at hg
    cases hg
    obtain ⟨p', hp', hstart, hfinished⟩ := Concurrent.passes_step hstep hp
    refine ⟨p', ⟨f', ?_, hp', ?_⟩, hfinished⟩
    · rw [hset, OrderedMap.find?_set_self]
    · rw [hstart]
      exact hfirst
  · refine ⟨p, ⟨g, ?_, hp, hfirst⟩, fun _ => rfl⟩
    rw [hset, OrderedMap.find?_set_ne _ _ hq]
    exact hg

theorem Serving.of_families (h : e'.families = e.families) {r : Reply} (hr : Serving e r) :
    Serving e' r := by
  refine ⟨hr.fresh, by rw [h]; exact hr.keys, by rw [h]; exact hr.since, ?_, ?_, hr.ended,
    hr.written⟩
  · simp only [HasPass, h]
    exact hr.current
  · simp only [HasPass, Exporter.configs, h]
    exact hr.blocks

/-- A request that takes no step is not disturbed. -/
theorem Serving.effect (h : Effect lib e e') {r : Reply} (hr : Serving e r) : Serving e' r := by
  obtain ⟨-, hsame | ⟨key, f, f', act, hf, hstep, hset⟩⟩ := families_step h
  · exact hr.of_families hsame
  · have hconfigs := configs_effect h
    refine ⟨hr.fresh, fun rest hrest => ?_, fun q g hq => ?_, fun q n hcurrent => ?_,
      fun q text hblock => ?_, hr.ended, hr.written⟩
    · rw [hr.keys rest hrest, keys_effect h]
    · rw [hset, OrderedMap.find?_set] at hq
      split at hq
      · rename_i hkey
        cases hq
        subst hkey
        obtain ⟨first, hfirst, hle⟩ := hr.since key f hf
        refine ⟨first, hfirst, ?_⟩
        rw [Concurrent.history_step hstep, List.length_append]
        omega
      · exact hr.since q g hq
    · obtain ⟨first, p, hfirst, hpass⟩ := hr.current q n hcurrent
      obtain ⟨p', hpass', -⟩ := hpass.step hf hstep hset
      exact ⟨first, p', hfirst, hpass'⟩
    · obtain ⟨first, n, p, config, hfirst, hpass, hfinished, hconfig, htext⟩ :=
        hr.blocks q text hblock
      obtain ⟨p', hpass', hkept⟩ := hpass.step hf hstep hset
      rw [hkept hfinished] at hpass'
      exact ⟨first, n, p, config, hfirst, hpass', hfinished, by rw [hconfigs, hconfig], htext⟩

/-- A request that comes in has still to copy the registry. -/
theorem serving_arrival (e : Exporter) : Serving e (arrival e) := by
  refine ⟨fun _ => ⟨rfl, rfl⟩, fun rest hrest => (by cases hrest), fun key f hf => ?_,
    fun key n hcurrent => (by cases hcurrent),
    fun key text hblock => absurd hblock List.not_mem_nil, fun hended => (by cases hended),
    fun hwritten => absurd rfl hwritten⟩
  exact ⟨f.history.length, by rw [arrival, OrderedMap.find?_mapValues, hf]; rfl, le_refl _⟩

/-- A request has copied the registry. -/
theorem Serving.copy {r : Reply} (hr : Serving e r) (hrest : r.rest = none) :
    Serving e { r with rest := some e.families.keys } := by
  obtain ⟨hblocks, hcurrent⟩ := hr.fresh hrest
  refine ⟨fun hnone => (by cases hnone), fun rest heq => ?_, hr.since, hr.current, hr.blocks,
    fun hended => ?_, hr.written⟩
  · cases heq
    rw [hblocks, hcurrent]
    rfl
  · have hdone := (hr.ended hended).1
    rw [hrest] at hdone
    cases hdone

/-- A request comes to its next family. -/
theorem Serving.next (h : Effect lib e e') {r : Reply} (hr : Serving e r)
    (hcurrent : r.current = none) {key : Str} {rest : List Str}
    (hrest : r.rest = some (key :: rest)) {f f' : Concurrent}
    (hf : e.families.find? key = some f) (hstep : f.step lib .begin = some f')
    (hset : e'.families = e.families.set key f') :
    Serving e' { r with rest := some rest, current := some (key, f.passes.length) } := by
  have hr' := hr.effect h
  refine ⟨fun hnone => (by cases hnone), fun later heq => ?_, hr'.since, fun q n heq => ?_,
    hr'.blocks, fun hended => ?_, hr'.written⟩
  · cases heq
    rw [← hr'.keys _ hrest, hcurrent]
    simp
  · cases heq
    obtain ⟨first, hfirst, hle⟩ := hr.since key f hf
    cases Concurrent.step_effect hstep
    refine ⟨first, _, hfirst, _, by rw [hset, OrderedMap.find?_set_self],
      List.getElem?_concat_length, hle⟩
  · have hdone := (hr.ended hended).1
    rw [hrest] at hdone
    cases hdone

/-- A request has read a family. -/
theorem Serving.block {r : Reply} (hr : Serving e r) {key : Str} {n : ℕ}
    (hcurrent : r.current = some (key, n)) {f : Concurrent} {p : Pass}
    (hf : e.families.find? key = some f) (hp : f.passes[n]? = some p)
    (hfinished : Concurrent.Finished p) :
    Serving e { r with
      current := none
      blocks := r.blocks ++ [(key, Concurrent.passText f.family.config p)] } := by
  refine ⟨fun hnone => ?_, fun rest hrest => ?_, hr.since, fun q n heq => (by cases heq),
    fun q text hblock => ?_, fun hended => ⟨(hr.ended hended).1, rfl⟩, hr.written⟩
  · have hidle := (hr.fresh hnone).2
    rw [hcurrent] at hidle
    cases hidle
  · rw [← hr.keys rest hrest, hcurrent]
    simp
  · rcases List.mem_append.mp hblock with hblock | hblock
    · exact hr.blocks q text hblock
    · cases List.mem_singleton.mp hblock
      obtain ⟨first, p', hfirst, hpass⟩ := hr.current key n hcurrent
      obtain ⟨f', hf', hp', hle⟩ := hpass
      rw [hf] at hf'
      cases hf'
      rw [hp] at hp'
      cases hp'
      refine ⟨first, n, p, f.family.config, hfirst, ⟨f, hf, hp, hle⟩, hfinished, ?_, rfl⟩
      rw [Exporter.configs, OrderedMap.find?_mapValues, hf]
      rfl

theorem serving_effect (h : Effect lib e e') (hr : ∀ r ∈ e.replies, Serving e r) :
    ∀ r ∈ e'.replies, Serving e' r := by
  have hold : ∀ r ∈ e.replies, Serving e' r := fun r hmem => (hr r hmem).effect h
  cases h with
  | get =>
    intro r hmem
    rcases List.mem_append.mp hmem with hmem | hmem
    · obtain ⟨q, hq, rfl⟩ := List.mem_map.mp hmem
      have hserving := hold q hq
      exact ⟨hserving.fresh, hserving.keys, hserving.since, hserving.current, hserving.blocks,
        hserving.ended, hserving.written⟩
    · cases List.mem_singleton.mp hmem
      refine Serving.of_families ?_ (serving_arrival e)
      rfl
  | copy i r hi hcurrent hrest =>
    intro q hmem
    rcases List.mem_or_eq_of_mem_set hmem with hmem | rfl
    · exact hold q hmem
    · refine Serving.of_families ?_ ((hr r (List.mem_of_getElem? hi)).copy hrest)
      rfl
  | next i r key rest f f' hi hcurrent hrest hf hstep =>
    intro q hmem
    rcases List.mem_or_eq_of_mem_set hmem with hmem | rfl
    · exact hold q hmem
    · exact (hr r (List.mem_of_getElem? hi)).next
        (.next i r key rest f f' hi hcurrent hrest hf hstep) hcurrent hrest hf hstep rfl
  | block i r key n f p hi hcurrent hf hp hfinished =>
    intro q hmem
    rcases List.mem_or_eq_of_mem_set hmem with hmem | rfl
    · exact hold q hmem
    · refine Serving.of_families ?_
        ((hr r (List.mem_of_getElem? hi)).block hcurrent hf hp hfinished)
      rfl
  | eof i r hi hcurrent hrest =>
    intro q hmem
    rcases List.mem_or_eq_of_mem_set hmem with hmem | rfl
    · exact hold q hmem
    · have hserving := hold r (List.mem_of_getElem? hi)
      exact ⟨hserving.fresh, hserving.keys, hserving.since, hserving.current, hserving.blocks,
        fun _ => ⟨hrest, hcurrent⟩, fun _ => rfl⟩
  | answer i r hi hended =>
    intro q hmem
    rcases List.mem_or_eq_of_mem_set hmem with hmem | rfl
    · exact hold q hmem
    · have hserving := hold r (List.mem_of_getElem? hi)
      exact ⟨hserving.fresh, hserving.keys, hserving.since, hserving.current, hserving.blocks,
        hserving.ended, fun _ => hended⟩
  | deliver => exact hold
  | write => exact hold
  | handled => exact hold
  | skip => exact hold
  | sample => exact hold
  | wake => exact hold
  | rest => exact hold
  | routine => exact hold
  | read => exact hold

theorem Reachable.serving {metrics : List Configuration} (h : Reachable lib metrics app e) :
    ∀ r ∈ e.replies, Serving e r := by
  obtain ⟨-, actions, hrun⟩ := h
  exact run_invariant (fun _ _ _ hr hstep => serving_effect (step_effect hstep) hr)
    (fun r hr => absurd hr List.not_mem_nil) hrun

/-! ## The buffer -/

/-- What a request has appended. -/
def appended (r : Reply) : Str :=
  r.blocks.flatMap (fun b => b.2 ++ "\n".toList) ++ if r.ended then "# EOF\n".toList else []

/-- A request that is alone at work finds in `_output` what it has appended. -/
structure Undisturbed (e : Exporter) : Prop where
  single : ∀ (i j : ℕ) (r q : Reply), e.replies[i]? = some r → e.replies[j]? = some q → i ≠ j →
    r.alone = true → r.written = none → q.written ≠ none
  output : ∀ (i : ℕ) (r : Reply), e.replies[i]? = some r → r.alone = true → r.written = none →
    e.output = appended r
  written : ∀ (i : ℕ) (r : Reply), e.replies[i]? = some r → r.alone = true →
    ∀ text, r.written = some text → text = appended r

theorem reply_set {rs : List Reply} {i j : ℕ} {r r' q : Reply} (hi : rs[i]? = some r)
    (h : (rs.set i r')[j]? = some q) : (i = j ∧ q = r') ∨ (i ≠ j ∧ rs[j]? = some q) := by
  rw [List.getElem?_set] at h
  split at h
  · rename_i hij
    rw [if_pos (List.getElem?_eq_some_iff.mp hi).1] at h
    cases h
    exact Or.inl ⟨hij, rfl⟩
  · rename_i hij
    exact Or.inr ⟨hij, h⟩

/-- A request that is at work takes a step. -/
theorem Undisturbed.set (hu : Undisturbed e) {i : ℕ} {r r' : Reply} (hi : e.replies[i]? = some r)
    (hactive : r.written = none) (hset : e'.replies = e.replies.set i r')
    (halone : r'.alone = r.alone)
    (houtput : r.alone = true → r'.written = none → e'.output = appended r')
    (hwritten : r.alone = true → ∀ text, r'.written = some text → text = appended r') :
    Undisturbed e' := by
  refine ⟨fun j k a b ha hb hjk haalone hawritten => ?_, fun j a ha haalone hawritten => ?_,
    fun j a ha haalone text htext => ?_⟩
  all_goals rw [hset] at ha
  · rw [hset] at hb
    rcases reply_set hi ha with ⟨rfl, rfl⟩ | ⟨hij, ha⟩
    · rcases reply_set hi hb with ⟨rfl, -⟩ | ⟨-, hb⟩
      · exact absurd rfl hjk
      · exact hu.single _ _ _ _ hi hb hjk (halone ▸ haalone) hactive
    · rcases reply_set hi hb with ⟨rfl, -⟩ | ⟨-, hb⟩
      · exact absurd hactive (hu.single _ _ _ _ ha hi hjk haalone hawritten)
      · exact hu.single _ _ _ _ ha hb hjk haalone hawritten
  · rcases reply_set hi ha with ⟨rfl, rfl⟩ | ⟨hij, ha⟩
    · exact houtput (halone ▸ haalone) hawritten
    · exact absurd hactive (hu.single _ _ _ _ ha hi hij.symm haalone hawritten)
  · rcases reply_set hi ha with ⟨rfl, rfl⟩ | ⟨-, ha⟩
    · exact hwritten (halone ▸ haalone) text htext
    · exact hu.written _ _ ha haalone text htext

/-- A request that comes in disturbs those at work, and is disturbed by them. -/
theorem Undisturbed.get (hu : Undisturbed e) :
    Undisturbed { e with output := [], replies := e.replies.map Reply.disturb ++ [arrival e] } := by
  have hcases : ∀ {j : ℕ} {a : Reply}, (e.replies.map Reply.disturb ++ [arrival e])[j]? = some a →
      (∃ r, e.replies[j]? = some r ∧ a = r.disturb) ∨ (j = e.replies.length ∧ a = arrival e) := by
    intro j a ha
    rw [List.getElem?_append, List.length_map] at ha
    split at ha
    · rw [List.getElem?_map] at ha
      obtain ⟨r, hr, rfl⟩ := Option.map_eq_some_iff.mp ha
      exact Or.inl ⟨r, hr, rfl⟩
    · rw [List.getElem?_singleton] at ha
      split at ha <;> cases ha
      exact Or.inr ⟨by omega, rfl⟩
  -- a request that was at work before is not alone any more
  have hold : ∀ {r : Reply}, r.disturb.alone = true → r.disturb.written = none → False := by
    intro r halone hwritten
    have hsome := (Bool.and_eq_true _ _ ▸ halone).2
    rw [show r.written = none from hwritten] at hsome
    cases hsome
  refine ⟨fun j k a b ha hb hjk halone hwritten => ?_, fun j a ha halone hwritten => ?_,
    fun j a ha halone text htext => ?_⟩
  · rcases hcases ha with ⟨r, -, rfl⟩ | ⟨rfl, rfl⟩
    · exact absurd hwritten (hold halone)
    · rcases hcases hb with ⟨q, hq, rfl⟩ | ⟨rfl, -⟩
      · have hall := List.all_eq_true.mp halone q (List.mem_of_getElem? hq)
        exact Option.isSome_iff_ne_none.mp hall
      · exact absurd rfl hjk
  · rcases hcases ha with ⟨r, -, rfl⟩ | ⟨-, rfl⟩
    · exact absurd hwritten (hold halone)
    · rfl
  · rcases hcases ha with ⟨r, hr, rfl⟩ | ⟨-, rfl⟩
    · exact hu.written j r hr (Bool.and_eq_true _ _ ▸ halone).1 text htext
    · cases htext

theorem undisturbed_effect (h : Effect lib e e') (hr : ∀ r ∈ e.replies, Serving e r)
    (hu : Undisturbed e) : Undisturbed e' := by
  have hactive : ∀ {i : ℕ} {r : Reply}, e.replies[i]? = some r → r.ended = false →
      r.written = none := by
    intro i r hi hended
    by_contra hwritten
    rw [(hr r (List.mem_of_getElem? hi)).written hwritten] at hended
    cases hended
  have hopen : ∀ {i : ℕ} {r : Reply}, e.replies[i]? = some r → r.rest ≠ some [] →
      r.ended = false := by
    intro i r hi hrest
    by_contra hended
    exact hrest ((hr r (List.mem_of_getElem? hi)).ended (by simpa using hended)).1
  cases h with
  | get => exact hu.get
  | copy i r hi hcurrent hrest =>
    have hended := hopen hi (by rw [hrest]; simp)
    exact hu.set hi (hactive hi hended) rfl rfl (fun halone _ => hu.output i r hi halone
      (hactive hi hended)) (hu.written i r hi)
  | next i r key rest f f' hi hcurrent hrest =>
    have hended := hopen hi (by rw [hrest]; simp)
    exact hu.set hi (hactive hi hended) rfl rfl (fun halone _ => hu.output i r hi halone
      (hactive hi hended)) (hu.written i r hi)
  | block i r key n f p hi hcurrent =>
    have hended : r.ended = false := by
      by_contra hended
      have hdone := ((hr r (List.mem_of_getElem? hi)).ended (by simpa using hended)).2
      rw [hcurrent] at hdone
      cases hdone
    have hwritten := hactive hi hended
    refine hu.set hi hwritten rfl rfl (fun halone _ => ?_) fun halone text htext => ?_
    · change e.output ++ _ = _
      rw [hu.output i r hi halone hwritten]
      simp [appended, hended]
    · rw [hwritten] at htext
      cases htext
  | eof i r hi hcurrent hrest hended =>
    have hwritten := hactive hi hended
    refine hu.set hi hwritten rfl rfl (fun halone _ => ?_) fun halone text htext => ?_
    · change e.output ++ _ = _
      rw [hu.output i r hi halone hwritten]
      simp [appended, hended]
    · rw [hwritten] at htext
      cases htext
  | answer i r hi hended hwritten =>
    refine hu.set hi hwritten rfl rfl (fun _ hnone => (by cases hnone)) fun halone text htext => ?_
    cases htext
    exact hu.output i r hi halone hwritten
  | deliver => exact ⟨hu.single, hu.output, hu.written⟩
  | write => exact ⟨hu.single, hu.output, hu.written⟩
  | handled => exact ⟨hu.single, hu.output, hu.written⟩
  | skip => exact ⟨hu.single, hu.output, hu.written⟩
  | sample => exact ⟨hu.single, hu.output, hu.written⟩
  | wake => exact ⟨hu.single, hu.output, hu.written⟩
  | rest => exact ⟨hu.single, hu.output, hu.written⟩
  | routine => exact ⟨hu.single, hu.output, hu.written⟩
  | read => exact ⟨hu.single, hu.output, hu.written⟩

theorem Reachable.undisturbed {metrics : List Configuration} (h : Reachable lib metrics app e) :
    Undisturbed e := by
  obtain ⟨-, actions, hrun⟩ := h
  refine (run_invariant (I := fun e => (∀ r ∈ e.replies, Serving e r) ∧ Undisturbed e) ?_
    ⟨fun r hr => absurd hr List.not_mem_nil, ?_⟩ hrun).2
  · rintro e a e' ⟨hr, hu⟩ hstep
    exact ⟨serving_effect (step_effect hstep) hr, undisturbed_effect (step_effect hstep) hr hu⟩
  · refine ⟨fun i j r q hr => ?_, fun i r hr => ?_, fun i r hr => ?_⟩ <;>
      exact absurd (List.mem_of_getElem? hr) List.not_mem_nil

/-! ## The response -/

/-- The request has been answered, and none other was at work in the meantime. -/
def Answered (r : Reply) (text : Str) : Prop := r.written = some text ∧ r.alone = true

/-- The blocks of a request as one body. -/
def response (r : Reply) : Str :=
  r.blocks.flatMap (fun b => b.2 ++ "\n".toList) ++ "# EOF\n".toList

/-- The block of a family is a pass over it that began after the request. -/
structure Block (lib : Libraries) (e : Exporter) (r : Reply) (key text : Str)
    (config : Configuration) (f : Concurrent) (first : ℕ) (p : Pass) : Prop where
  family : e.families.find? key = some f
  since : r.since.find? key = some first
  begun : first ≤ p.start
  pass : p ∈ f.passes
  finished : Concurrent.Finished p
  text : text = Concurrent.passText config p
  regular : Concurrent.Regular lib config f.history p

theorem Reachable.blocks_spec {metrics : List Configuration} (h : Reachable lib metrics app e)
    {r : Reply} (hr : r ∈ e.replies) {body : Str} (hanswered : Answered r body) :
    body = response r ∧ r.blocks.map Prod.fst = app.configs.keys ∧
    ∀ key text, (key, text) ∈ r.blocks → ∃ config f first p,
      app.configs.find? key = some config ∧ Block lib e r key text config f first p := by
  have hserving := h.serving r hr
  have hended := hserving.written (by simp [hanswered.1])
  obtain ⟨hrest, hcurrent⟩ := hserving.ended hended
  refine ⟨?_, ?_, fun key text hblock => ?_⟩
  · obtain ⟨i, hi⟩ := List.mem_iff_getElem?.mp hr
    rw [h.undisturbed.written i r hi hanswered.2 body hanswered.1, appended, hended]
    rfl
  · have hkeys := hserving.keys [] hrest
    rw [hcurrent, h.parts.keys] at hkeys
    simpa using hkeys
  · obtain ⟨first, n, p, config, hfirst, ⟨f, hf, hp, hbegun⟩, hfinished, hconfig, htext⟩ :=
      hserving.blocks key text hblock
    rw [h.parts.configs] at hconfig
    have hfamily := h.parts.find hf
    rw [hconfig] at hfamily
    cases hfamily
    obtain ⟨actions, hrun⟩ := h.parts.run key f hf
    have hmem := List.mem_of_getElem? hp
    have hregular := ((Concurrent.follows_run hrun).2 p hmem).regular
    exact ⟨_, f, first, p, hconfig, hf, hfirst, hbegun, hmem, hfinished, htext, hregular⟩

/-- The response to a request that was alone has one block for each registered
entry, in the order of the topics, and each is a pass of its own over the family. -/
theorem reply_regular (lib : Libraries) (metrics : List Configuration) (app : App) (e : Exporter)
    (h : Reachable lib metrics app e) (r : Reply) (hr : r ∈ e.replies) (body : Str)
    (hanswered : Answered r body) :
    body = response r ∧ r.blocks.map Prod.fst = app.configs.keys ∧
    ∀ key text, (key, text) ∈ r.blocks → ∃ config f first p,
      app.configs.find? key = some config ∧ Block lib e r key text config f first p :=
  h.blocks_spec hr hanswered

/-- A counter for each topic, which is its label. -/
def deviceEntry : Configuration := App.labelledEntry [⟨"device".toList, placeholder "id".toList⟩]

/-- The counter is sampled, and then requested. -/
def oneReply : List Action :=
  [.deliver ⟨"a".toList, []⟩, .handle, .handle, .handle, .handle, .handle, .handle, .handle,
    .handle, .get, .serve 0, .serve 0, .serve 0, .serve 0, .serve 0, .serve 0, .serve 0, .serve 0]

/-- What `oneReply` leads to. -/
structure OneReply (app : App) (e : Exporter) (r : Reply) (body : Str) : Prop where
  reachable : Reachable simpleLibraries [deviceEntry] app e
  configs : app.configs.entries = [("#".toList, deviceEntry)]
  mem : r ∈ e.replies
  answered : Answered r body
  blocks : r.blocks.map Prod.fst = ["#".toList]
  since : r.since.entries = [("#".toList, 1)]
  lengths : e.families.entries.map (fun x => (x.1, x.2.history.length)) = [("#".toList, 1)]
  sampled : e.families.entries.all fun x => x.2.history.all fun event =>
    event.sampled.all fun labels => labels.entries = [("device".toList, "a".toList)]
  passes : e.families.entries.all fun x => x.2.passes.all fun p =>
    p.done.map (fun d => (d.1.entries, d.2.map fun point => point.labelSet.entries)) =
      [([("device".toList, "a".toList)], [[("device".toList, "a".toList)]])]
  idle : e.handling = none
  ticks : e.ticks = 1
  delivered : e.delivered = [⟨"a".toList, []⟩]

theorem oneReply_spec : ∃ app e r body, OneReply app e r body := by
  let app := Loop.final (App.register [deviceEntry] .initial)
  have hend : (run (step simpleLibraries) (start app) oneReply).map (fun e =>
      e.replies.map fun r => (r.written.isSome, r.alone, r.blocks.map Prod.fst)) =
        some [(true, true, ["#".toList])] := by
    decide +kernel
  have hsince : (run (step simpleLibraries) (start app) oneReply).map (fun e =>
      e.replies.map fun r => r.since.entries) = some [[("#".toList, 1)]] := by
    decide +kernel
  have hlengths : (run (step simpleLibraries) (start app) oneReply).map (fun e =>
      e.families.entries.map fun x => (x.1, x.2.history.length)) = some [("#".toList, 1)] := by
    decide +kernel
  have hsampled : (run (step simpleLibraries) (start app) oneReply).map (fun e =>
      e.families.entries.all fun x => x.2.history.all fun event => event.sampled.all fun labels =>
        labels.entries = [("device".toList, "a".toList)]) = some true := by
    decide +kernel
  have hpasses : (run (step simpleLibraries) (start app) oneReply).map (fun e =>
      e.families.entries.all fun x => x.2.passes.all fun p =>
        p.done.map (fun d => (d.1.entries, d.2.map fun point => point.labelSet.entries)) =
          [([("device".toList, "a".toList)], [[("device".toList, "a".toList)]])]) =
        some true := by
    decide +kernel
  have hwork : (run (step simpleLibraries) (start app) oneReply).map (fun e =>
      (e.handling.isNone, e.ticks, e.delivered)) = some (true, 1, [⟨"a".toList, []⟩]) := by
    decide +kernel
  obtain ⟨e, hrun, hreplies⟩ := Option.map_eq_some_iff.mp hend
  obtain ⟨r, hr, hreply⟩ := List.map_eq_singleton_iff.mp hreplies
  simp only [Prod.mk.injEq, Option.isSome_iff_exists] at hreply
  obtain ⟨⟨body, hbody⟩, halone, hblocks⟩ := hreply
  rw [hrun] at hsince hlengths hsampled hpasses hwork
  simp only [Option.map_some, Option.some.injEq, Prod.mk.injEq, Option.isNone_iff_eq_none] at hwork
  have hentries : e.replies.map (fun r => r.since.entries) = [[("#".toList, 1)]] :=
    Option.some.inj hsince
  rw [hr] at hentries
  exact ⟨app, e, r, body, ⟨rfl, oneReply, hrun⟩, rfl, by simp [hr], ⟨hbody, halone⟩, hblocks,
    (List.cons.inj hentries).1, Option.some.inj hlengths, Option.some.inj hsampled,
    Option.some.inj hpasses, hwork.1, hwork.2.1, hwork.2.2⟩

/-- The one block of the response. -/
theorem OneReply.block {app : App} {e : Exporter} {r : Reply} {body : Str}
    (h : OneReply app e r body) : ∃ text, (("#".toList, text) : Str × Str) ∈ r.blocks := by
  obtain ⟨b, hb, hkey⟩ := List.map_eq_singleton_iff.mp h.blocks
  refine ⟨b.2, ?_⟩
  rw [hb, ← hkey]
  exact List.mem_singleton_self b

theorem OneReply.config {app : App} {e : Exporter} {r : Reply} {body : Str}
    (h : OneReply app e r body) : app.configs.find? "#".toList = some deviceEntry := by
  apply app.configs.mem_entries_iff.mp
  rw [h.configs]
  exact List.mem_singleton_self _

/-- A pass over the family prints one series, with one point. -/
theorem OneReply.done {app : App} {e : Exporter} {r : Reply} {body : Str}
    (h : OneReply app e r body) {f : Concurrent} (hf : e.families.find? "#".toList = some f)
    {p : Pass} (hp : p ∈ f.passes) : ∃ labels printed, p.done = [(labels, printed)] ∧
      labels.entries = [("device".toList, "a".toList)] ∧
      printed.map (fun point => point.labelSet.entries) =
        [[("device".toList, "a".toList)]] := by
  have hfamily := List.all_eq_true.mp h.passes _ (e.families.mem_entries_iff.mpr hf)
  have hpass := of_decide_eq_true (List.all_eq_true.mp hfamily p hp)
  obtain ⟨⟨labels, printed⟩, hdone, heq⟩ := List.map_eq_singleton_iff.mp hpass
  exact ⟨labels, printed, hdone, Prod.mk.inj heq⟩

theorem reply_regular_one : ∃ app e r, Reachable simpleLibraries [deviceEntry] app e ∧
    r ∈ e.replies ∧ ∃ text config f first p, (("#".toList, text) : Str × Str) ∈ r.blocks ∧
      Block simpleLibraries e r "#".toList text config f first p := by
  obtain ⟨app, e, r, body, hone⟩ := oneReply_spec
  obtain ⟨text, hblock⟩ := hone.block
  obtain ⟨config, f, first, p, -, hspec⟩ := (reply_regular simpleLibraries [deviceEntry] app e
    hone.reachable r hone.mem body hone.answered).2.2 "#".toList text hblock
  exact ⟨app, e, r, hone.reachable, hone.mem, text, config, f, first, p, hblock, hspec⟩

/-- The families as `App` has them, one call after the other. -/
def sequential (lib : Libraries) (e : Exporter) : App :=
  ⟨e.client, e.families.mapValues fun _ f =>
    Concurrent.familyAfter lib f.family.config f.history, e.ticks, []⟩

theorem texts_of_blocks {es : List (Str × MetricFamily)} {blocks : List (Str × Str)}
    (hkeys : blocks.map Prod.fst = es.map Prod.fst)
    (h : ∀ key text metric, (key, text) ∈ blocks → (key, metric) ∈ es →
      metric.stringify lib = some text) :
    es.mapM (fun x => x.2.stringify lib) = some (blocks.map Prod.snd) := by
  induction es generalizing blocks with
  | nil =>
    obtain rfl := List.map_eq_nil_iff.mp hkeys
    rfl
  | cons x es ih =>
    cases blocks with
    | nil => cases hkeys
    | cons b blocks =>
      obtain ⟨hkey, hrest⟩ := List.cons.inj hkeys
      have hx := h b.1 b.2 x.2 List.mem_cons_self (hkey ▸ List.mem_cons_self)
      have hes := ih hrest fun key text metric hb hm =>
        h key text metric (List.mem_cons_of_mem b hb) (List.mem_cons_of_mem x hm)
      rw [List.mapM_cons, hx, hes]
      rfl

/-- A request that is alone, and during which nothing is sampled or evicted, is
answered as `handleGet` answers as a whole. -/
theorem reply_undisturbed (lib : Libraries) (metrics : List Configuration) (app : App)
    (e : Exporter) (h : Reachable lib metrics app e) (r : Reply) (hr : r ∈ e.replies) (body : Str)
    (hanswered : Answered r body) (hquiet : ∀ key f first, e.families.find? key = some f →
      r.since.find? key = some first → f.history.length = first) :
    App.handleGet lib (sequential lib e) = some body := by
  obtain ⟨hbody, hkeys, hblocks⟩ := h.blocks_spec hr hanswered
  have hentries : r.blocks.map Prod.fst = (sequential lib e).metrics.entries.map Prod.fst := by
    rw [hkeys, ← h.parts.keys, ← OrderedMap.keys_mapValues]
    rfl
  have htexts := texts_of_blocks hentries fun key text metric hblock hentry => by
    obtain ⟨config, f, first, p, hconfig, hb⟩ := hblocks key text hblock
    rw [OrderedMap.mem_entries_iff, sequential, OrderedMap.find?_mapValues, hb.family] at hentry
    cases hentry
    have hfamily := h.parts.find hb.family
    rw [hconfig] at hfamily
    cases hfamily
    have hlen := hquiet key f first hb.family hb.since
    obtain ⟨actions, hrun⟩ := h.parts.run key f hb.family
    have hfirst := ((Concurrent.follows_run hrun).2 p hb.pass).first_le
    have hbegun := hb.begun
    have halone := hb.regular.alone hb.finished (by omega)
    have hstart : p.start = f.history.length := by omega
    rw [hstart, Concurrent.familyAt_length] at halone
    rw [hb.text]
    exact halone
  rw [App.handleGet, htexts, hbody, response]
  exact congrArg (fun t => some (t ++ "# EOF\n".toList)) (List.flatMap_map _ _ r.blocks)

theorem reply_undisturbed_one : ∃ app e r body,
    Reachable simpleLibraries [deviceEntry] app e ∧ r ∈ e.replies ∧
    r.written = some body ∧
    App.handleGet simpleLibraries (sequential simpleLibraries e) = some body := by
  obtain ⟨app, e, r, body, hone⟩ := oneReply_spec
  refine ⟨app, e, r, body, hone.reachable, hone.mem, hone.answered.1, reply_undisturbed
    simpleLibraries [deviceEntry] app e hone.reachable r hone.mem body hone.answered
    fun key f first hf hfirst => ?_⟩
  have hlen : (key, f.history.length) ∈ [("#".toList, 1)] := by
    rw [← hone.lengths]
    exact List.mem_map_of_mem (e.families.mem_entries_iff.mpr hf)
  have hmem := r.since.mem_entries_iff.mpr hfirst
  rw [hone.since] at hmem
  cases List.mem_singleton.mp hmem
  exact (Prod.mk.inj (List.mem_singleton.mp hlen)).2

/-! ## The counts in a response -/

/-- The metric of a counter family counts the samples since the last eviction. -/
theorem counter_at {config : Configuration} (hc : config.openMetric.type = .counter)
    (events : List FamilyEvent) {labels : LabelSet} {m : IMetric}
    (hm : (MetricFamily.run lib ⟨config, .empty⟩ events).current labels = some m) :
    ∃ since, MetricFamily.SinceEviction lib config labels since events ∧
      m = MetricFamily.counterAt labels (MetricFamily.samplesOf labels since) := by
  have htracks : MetricFamily.Tracks lib config labels events := MetricFamily.tracks_run hc events
  obtain ⟨since, hsince, hcounts⟩ := htracks.counted
  refine ⟨since, hsince, ?_⟩
  rcases hcounts with ⟨hnone, -⟩ | ⟨t, hsome⟩
  · rw [MetricFamily.current, hnone] at hm
    cases hm
  · rw [MetricFamily.current, hsome] at hm
    cases hm
    rfl

/-- Where every metric has one point, a series has one line, that of a metric it
had at some moment of the pass. -/
theorem one_printed {config : Configuration} {events : List FamilyEvent} {p : Pass}
    (h : Concurrent.Regular lib config events p) {labels : LabelSet} {printed : List IPoint}
    (hdone : (labels, printed) ∈ p.done)
    (hone : ∀ n m, (Concurrent.familyAt lib config events n).current labels = some m →
      (m.points lib (MetricFamily.getFullname ⟨config, .empty⟩)).length = 1) :
    ∃ n m, p.start ≤ n ∧ n ≤ events.length ∧
      (Concurrent.familyAt lib config events n).current labels = some m ∧
      printed = m.points lib (MetricFamily.getFullname ⟨config, .empty⟩) := by
  obtain ⟨m₀, hm₀, hseries⟩ := h.complete labels printed hdone
  have hlen := congrArg List.length hseries
  rw [Concurrent.printedSeries, List.length_map, IMetric.series, List.length_map,
    hone _ m₀ hm₀] at hlen
  obtain ⟨point, rfl⟩ := List.length_eq_one_iff.mp hlen
  obtain ⟨n, m, hstart, hn, -, hm, hpoint⟩ := h.shown labels [point] (Or.inl hdone) 0 point rfl
  obtain ⟨x, hx⟩ := List.length_eq_one_iff.mp (hone n m hm)
  rw [hx] at hpoint
  cases hpoint
  exact ⟨n, m, hstart, hn, hm, hx.symm⟩

/-- A line of a counter has the count of some moment of the pass. -/
theorem counter_printed {config : Configuration} (hc : config.openMetric.type = .counter)
    {events : List FamilyEvent} {p : Pass} (h : Concurrent.Regular lib config events p)
    {labels : LabelSet} {printed : List IPoint} (hdone : (labels, printed) ∈ p.done) :
    ∃ n since, p.start ≤ n ∧ n ≤ events.length ∧
      MetricFamily.SinceEviction lib config labels since (events.take n) ∧
      printed = [⟨MetricFamily.getFullname ⟨config, .empty⟩ ++ "_total".toList, labels,
        Double.ofInt (min (MetricFamily.samplesOf labels since) (2 ^ 53) : ℕ)⟩] := by
  obtain ⟨n, m, hstart, hn, hm, hprinted⟩ := one_printed h hdone fun n m hm => by
    obtain ⟨since, -, rfl⟩ := counter_at hc _ hm
    rfl
  obtain ⟨since, hsince, rfl⟩ := counter_at hc _ hm
  exact ⟨n, since, hstart, hn, hsince, hprinted⟩

/-- A block of a counter has a line for each series there was when the pass
began; each shows how many samples the series had had, since its last eviction,
at a moment between the request and the answer. -/
theorem reply_counts (lib : Libraries) (metrics : List Configuration) (app : App) (e : Exporter)
    (h : Reachable lib metrics app e) (r : Reply) (hr : r ∈ e.replies) (body : Str)
    (hanswered : Answered r body) (key text : Str) (hblock : (key, text) ∈ r.blocks)
    (config : Configuration)
    (hc : app.configs.find? key = some config) (htype : config.openMetric.type = .counter) :
    body = response r ∧ ∃ f first p, Block lib e r key text config f first p ∧
      ∀ labels printed, (labels, printed) ∈ p.done → ∃ n since,
        p.start ≤ n ∧ n ≤ f.history.length ∧
        MetricFamily.SinceEviction lib config labels since (f.history.take n) ∧
        printed = [⟨MetricFamily.getFullname ⟨config, .empty⟩ ++ "_total".toList, labels,
          Double.ofInt (min (MetricFamily.samplesOf labels since) (2 ^ 53) : ℕ)⟩] := by
  obtain ⟨hbody, -, hblocks⟩ := h.blocks_spec hr hanswered
  obtain ⟨config', f, first, p, hconfig, hb⟩ := hblocks key text hblock
  rw [hc] at hconfig
  cases hconfig
  exact ⟨hbody, f, first, p, hb, fun labels printed hdone =>
    counter_printed htype hb.regular hdone⟩

/-- The block has a line for the series, and it shows a count. -/
theorem reply_counts_one : ∃ e r f first p text labels since,
    Block simpleLibraries e r "#".toList text deviceEntry f first p ∧
    labels.entries = [("device".toList, "a".toList)] ∧
    (∃ n, MetricFamily.SinceEviction simpleLibraries deviceEntry labels since
      (f.history.take n)) ∧
    (labels, [(⟨"n_total".toList, labels,
      Double.ofInt (min (MetricFamily.samplesOf labels since) (2 ^ 53) : ℕ)⟩ : IPoint)]) ∈
        p.done := by
  obtain ⟨app, e, r, body, hone⟩ := oneReply_spec
  obtain ⟨text, hblock⟩ := hone.block
  obtain ⟨-, f, first, p, hspec, hcounts⟩ := reply_counts simpleLibraries [deviceEntry] app e
    hone.reachable r hone.mem body hone.answered "#".toList text hblock deviceEntry hone.config rfl
  obtain ⟨labels, printed, hall, hlabels, -⟩ := hone.done hspec.family hspec.pass
  have hdone : (labels, printed) ∈ p.done := hall ▸ List.mem_singleton_self _
  obtain ⟨n, since, -, -, hsince, rfl⟩ := hcounts labels printed hdone
  exact ⟨e, r, f, first, p, text, labels, since, hspec, hlabels, ⟨n, hsince⟩, hdone⟩

end Exporter

end MqttExporter
