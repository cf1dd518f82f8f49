import MqttExporter.ConcurrentFamily

/-!
# What a scrape reads while a family changes

A pass goes through the series that the family had at `begin()`. It reads each
point at a moment of its own, and an object that was evicted in the meantime
keeps the value it had then.

* `current_apply`: what one event makes of a metric;
* `Follows`: what is so of a pass at every moment;
* `scrape_regular`: the series of a pass are those of one moment, each point it
  prints is one that the series had at some moment of the pass.
-/

namespace MqttExporter

open Loop Transition References

/-! ## One series, event by event -/

namespace MetricFamily

/-- A metric that stays is as it was or has been sampled. -/
theorem current_apply {lib : Libraries} {f : MetricFamily} {labels : LabelSet} {m m' : IMetric}
    (hm : f.current labels = some m) {e : FamilyEvent}
    (hm' : (f.apply lib e).current labels = some m') :
    m' = m ∨ ∃ payload, m.newSample lib payload = .ok m' := by
  cases e with
  | sample now payload q =>
    obtain ⟨item, hset, hitem⟩ := final_newSample lib now payload q f
    simp only [apply, hset, current] at hm'
    by_cases hq : q = labels
    · subst hq
      rw [OrderedMap.find?_set_self] at hm'
      obtain ⟨m₀, htarget, hcase⟩ := hitem m' hm'
      rw [target, hm] at htarget
      cases htarget
      exact hcase.imp_right fun h => ⟨payload, h⟩
    · rw [OrderedMap.find?_set_ne _ _ hq] at hm'
      rw [current, hm'] at hm
      cases hm
      exact Or.inl rfl
  | routine now =>
    simp only [apply, current, find?_routine] at hm'
    obtain ⟨item, hfind, hitem⟩ := Option.bind_eq_some_iff.mp hm'
    rw [current, (Option.filter_eq_some_iff.mp hfind).1, Option.bind_some, hitem] at hm
    cases hm
    exact Or.inl rfl

theorem header_congr {f g : MetricFamily} (h : f.config = g.config) : f.header = g.header := by
  unfold header getStandardType getHelp getUnit
  rw [getFullname_congr h, h]

end MetricFamily

namespace Concurrent

/-- The family after the first `n` events. -/
def familyAt (lib : Libraries) (config : Configuration) (events : List FamilyEvent) (n : ℕ) :
    MetricFamily :=
  familyAfter lib config (events.take n)

/-- The label set had a metric at every moment from one to another. -/
def HeldFrom (lib : Libraries) (config : Configuration) (events : List FamilyEvent)
    (first last : ℕ) (labels : LabelSet) : Prop :=
  ∀ n, first ≤ n → n ≤ last → (familyAt lib config events n).current labels ≠ none

/-- A metric that the label set had at some moment since `first`, and without an
eviction in between. -/
def Shown (lib : Libraries) (config : Configuration) (events : List FamilyEvent) (first : ℕ)
    (labels : LabelSet) (m : IMetric) : Prop :=
  ∃ n, first ≤ n ∧ n ≤ events.length ∧ HeldFrom lib config events first n labels ∧
    (familyAt lib config events n).current labels = some m

variable {lib : Libraries} {config : Configuration} {events : List FamilyEvent}
  {first last : ℕ} {labels : LabelSet}

theorem familyAt_append (more : List FamilyEvent) {n : ℕ} (hn : n ≤ events.length) :
    familyAt lib config (events ++ more) n = familyAt lib config events n := by
  rw [familyAt, List.take_append_of_le_length hn, familyAt]

theorem familyAt_length (lib : Libraries) (config : Configuration) (events : List FamilyEvent) :
    familyAt lib config events events.length = familyAfter lib config events := by
  rw [familyAt, List.take_length]

theorem familyAt_succ {n : ℕ} (hn : n < events.length) :
    familyAt lib config events (n + 1) = (familyAt lib config events n).apply lib events[n] := by
  rw [familyAt, List.take_succ_eq_append_getElem hn, familyAfter_snoc, familyAt]

theorem heldFrom_append (more : List FamilyEvent) (hlast : last ≤ events.length)
    (h : HeldFrom lib config events first last labels) :
    HeldFrom lib config (events ++ more) first last labels := by
  intro n hfirst hn
  rw [familyAt_append more (hn.trans hlast)]
  exact h n hfirst hn

theorem Shown.append (more : List FamilyEvent) {m : IMetric}
    (h : Shown lib config events first labels m) :
    Shown lib config (events ++ more) first labels m := by
  obtain ⟨n, hfirst, hn, hheld, hm⟩ := h
  refine ⟨n, hfirst, ?_, heldFrom_append more hn hheld, ?_⟩
  · rw [List.length_append]
    omega
  · rw [familyAt_append more hn]
    exact hm

/-- What samples keep of a metric, a series keeps from moment to moment. -/
theorem heldFrom_keeps {R : IMetric → IMetric → Prop} (refl : ∀ m, R m m)
    (trans : ∀ a b c, R a b → R b c → R a c)
    (sampled : ∀ m m' payload, m.newSample lib payload = .ok m' → R m m')
    (hlast : last ≤ events.length) (hheld : HeldFrom lib config events first last labels)
    {i j : ℕ} (hfirst : first ≤ i) (hij : i ≤ j) (hj : j ≤ last) {m m' : IMetric}
    (hm : (familyAt lib config events i).current labels = some m)
    (hm' : (familyAt lib config events j).current labels = some m') : R m m' := by
  induction j, hij using Nat.le_induction generalizing m' with
  | base =>
    rw [hm] at hm'
    cases hm'
    exact refl m
  | succ j hij ih =>
    obtain ⟨x, hx⟩ := Option.ne_none_iff_exists'.mp (hheld j (hfirst.trans hij) (by omega))
    have hprevious := ih (by omega) hx
    rw [familyAt_succ (by omega)] at hm'
    rcases MetricFamily.current_apply hx hm' with rfl | ⟨payload, hsample⟩
    · exact hprevious
    · exact trans m x m' hprevious (sampled x m' payload hsample)

theorem getFullname_familyAt (n : ℕ) :
    (familyAt lib config events n).getFullname = MetricFamily.getFullname ⟨config, .empty⟩ :=
  MetricFamily.getFullname_congr (MetricFamily.config_run lib _ _)

/-! ## The objects and the moments -/

section

variable {s s' : Concurrent}

/-- A label set whose item refers to an object has a metric, also while a call is
at work. -/
theorem current_of_refs (hs : Sound lib config s) {pointer : ℕ}
    (h : s.family.store.refs labels = some pointer) :
    (familyAfter lib config s.history).current labels ≠ none := by
  have hbound := hs.owned.bound labels pointer h
  have hview : s.family.value.current labels = some s.family.objects[pointer] := by
    rw [SharedFamily.current_value, Store.view, h]
    exact List.getElem?_eq_getElem hbound
  cases hcall : s.call with
  | none =>
    rw [← hs.idle hcall, hview]
    simp
  | some call =>
    obtain ⟨labels', before, m, m', w, hsampling⟩ := hs.busy call.1 call.2 hcall
    obtain ⟨t, payload, -, -, -, -, hvalue⟩ := hsampling.history
    obtain ⟨t', hitem, hafter⟩ := hsampling.after
    rw [hafter, MetricFamily.current]
    rw [hvalue, MetricFamily.current] at hview
    by_cases hlabels : labels' = labels
    · subst hlabels
      simp
    · rw [OrderedMap.find?_set_ne _ _ hlabels] at hview ⊢
      rw [hview]
      simp

theorem shown_last (hfirst : first ≤ s.history.length)
    (hheld : HeldFrom lib config s.history first s.history.length labels) {m : IMetric}
    (hm : (familyAfter lib config s.history).current labels = some m) :
    Shown lib config s.history first labels m := by
  refine ⟨s.history.length, hfirst, le_refl _, hheld, ?_⟩
  rw [familyAt_length]
  exact hm

/-- A point of an object that is being sampled is as before the call or as after it. -/
theorem Sampling.shown {pointer : ℕ} {ws : List IMetric} {before : List FamilyEvent}
    {m m' w : IMetric} (h : Sampling lib config s pointer ws labels before m m' w)
    (hfirst : first < s.history.length)
    (hheld : HeldFrom lib config s.history first s.history.length labels) (fullname : Str)
    (i : ℕ) : ∃ x, Shown lib config s.history first labels x ∧
      (w.points lib fullname)[i]? = (x.points lib fullname)[i]? := by
  obtain ⟨t, payload, hhistory, htarget, -, -, -⟩ := h.history
  obtain ⟨t', -, hafter⟩ := h.after
  rcases h.between w List.mem_cons_self fullname i with heq | heq
  · have hlen : s.history.length = before.length + 1 := by rw [hhistory]; simp
    have hbefore : familyAt lib config s.history before.length =
        familyAfter lib config before := by
      rw [familyAt, hhistory, List.take_left]
    obtain ⟨x, hx⟩ := Option.ne_none_iff_exists'.mp (hheld before.length (by omega) (by omega))
    have hmx : m = x := by
      rw [hbefore] at hx
      rw [MetricFamily.target, hx] at htarget
      cases htarget
      rfl
    subst hmx
    refine ⟨m, ⟨before.length, by omega, by omega, fun n hn hn' => ?_, hx⟩, heq⟩
    exact hheld n hn (by omega)
  · refine ⟨m', shown_last hfirst.le hheld ?_, heq⟩
    rw [hafter, MetricFamily.current, OrderedMap.find?_set_self]
    rfl

/-- What an item refers to is, point by point, a metric that the label set had. -/
theorem shown_of_refs (hs : Sound lib config s) (hfirst : first ≤ s.history.length)
    (hearlier : s.call ≠ none → first < s.history.length)
    (hheld : HeldFrom lib config s.history first s.history.length labels) {pointer : ℕ}
    (h : s.family.store.refs labels = some pointer) {w : IMetric}
    (hw : s.family.objects[pointer]? = some w) (fullname : Str) (i : ℕ) :
    ∃ m, Shown lib config s.history first labels m ∧
      (w.points lib fullname)[i]? = (m.points lib fullname)[i]? := by
  have hview : s.family.value.current labels = some w := by
    rw [SharedFamily.current_value, Store.view, h]
    exact hw
  cases hcall : s.call with
  | none =>
    rw [hs.idle hcall] at hview
    exact ⟨w, shown_last hfirst hheld hview, rfl⟩
  | some call =>
    obtain ⟨labels', before, m, m', w', hsampling⟩ := hs.busy call.1 call.2 hcall
    obtain ⟨t, payload, -, -, -, hitem, hvalue⟩ := hsampling.history
    obtain ⟨t', -, hafter⟩ := hsampling.after
    by_cases hlabels : labels' = labels
    · subst hlabels
      have hpointer : call.1 = pointer := by
        rw [SharedFamily.refs_of_find? hitem] at h
        cases h
        rfl
      have hsame : w' = w := by
        have hobject := hsampling.object
        rw [hpointer, hw] at hobject
        cases hobject
        rfl
      subst hsame
      exact hsampling.shown (hearlier (by rw [hcall]; simp)) hheld fullname i
    · refine ⟨w, shown_last hfirst hheld ?_, rfl⟩
      rw [hvalue, MetricFamily.current, OrderedMap.find?_set_ne _ _ hlabels] at hview
      rw [hafter, MetricFamily.current, OrderedMap.find?_set_ne _ _ hlabels]
      exact hview

/-- A label set that has its object after a step too has had a metric all along. -/
theorem heldFrom_step (hs : Sound lib config s) {a : Action} (hstep : step lib s a = some s')
    (hheld : HeldFrom lib config s.history first s.history.length labels) {pointer : ℕ}
    (h : s'.family.store.refs labels = some pointer) :
    HeldFrom lib config s'.history first s'.history.length labels := by
  obtain ⟨hs', -, hcase⟩ := step_sound hs hstep
  intro n hfirst hn
  by_cases hnow : n = s'.history.length
  · rw [hnow, familyAt_length]
    exact current_of_refs hs' h
  · rcases hcase with ⟨hsame, -⟩ | ⟨-, e, hmore⟩
    · rw [hsame] at hn ⊢
      exact hheld n hfirst hn
    · rw [hmore, List.length_append, List.length_singleton] at hn hnow
      rw [hmore, familyAt_append [e] (by omega)]
      exact hheld n hfirst (by omega)

/-- What a step drops is what the label set had last: nothing is dropped while a
call is at work. -/
theorem shown_dropped (hs : Sound lib config s) {a : Action} (hstep : step lib s a = some s')
    (hfirst : first ≤ s.history.length)
    (hheld : HeldFrom lib config s.history first s.history.length labels) {pointer : ℕ}
    (hrefs : s.family.store.refs labels = some pointer)
    (hdrop : s'.family.store.refs labels ≠ some pointer) {v : IMetric}
    (hview : s.family.store.view labels = some v) :
    Shown lib config s.history first labels v := by
  obtain ⟨-, -, ⟨-, hrefs', -⟩ | ⟨hidle, -⟩⟩ := step_sound hs hstep
  · rw [hrefs'] at hdrop
    exact absurd hrefs hdrop
  · apply shown_last hfirst hheld
    rw [← hs.idle hidle, SharedFamily.current_value]
    exact hview

/-! ## One pass -/

/-- The pass still has to read the object of the label set. -/
def Refers (p : Pass) (labels : LabelSet) (pointer : ℕ) : Prop :=
  (labels, some pointer) ∈ p.rest ∨ ∃ printed, p.current = some (labels, pointer, printed)

/-- The points read so far for the label set. -/
def Printed (p : Pass) (labels : LabelSet) (printed : List IPoint) : Prop :=
  (labels, printed) ∈ p.done ∨ ∃ pointer, p.current = some (labels, pointer, printed)

/-- The label sets that the pass goes through. -/
def passKeys (p : Pass) : List LabelSet :=
  p.done.map Prod.fst ++ (p.current.map Prod.fst).toList ++ p.rest.map Prod.fst

/-- Point `i` of a metric that the label set had since `first`. -/
def ShownPoint (lib : Libraries) (config : Configuration) (events : List FamilyEvent) (first : ℕ)
    (labels : LabelSet) (i : ℕ) (point : IPoint) : Prop :=
  ∃ m, Shown lib config events first labels m ∧
    (m.points lib (MetricFamily.getFullname ⟨config, .empty⟩))[i]? = some point

structure Follows (lib : Libraries) (config : Configuration) (s : Concurrent) (p : Pass) :
    Prop where
  first_le : p.start ≤ s.history.length
  earlier : s.call ≠ none → p.start < s.history.length
  keys : passKeys p = (familyAt lib config s.history p.start).metrics.keys
  sees : ∀ labels pointer, Refers p labels pointer →
    Sees (Shown lib config s.history p.start labels) labels pointer s.family.store
  held : ∀ labels pointer, Refers p labels pointer → s.family.store.refs labels = some pointer →
    HeldFrom lib config s.history p.start s.history.length labels
  printed : ∀ labels printed, Printed p labels printed → ∀ i point, printed[i]? = some point →
    ShownPoint lib config s.history p.start labels i point
  complete : ∀ labels printed, (labels, printed) ∈ p.done →
    ∃ m, (familyAt lib config s.history p.start).current labels = some m ∧
      printed.length = (m.points lib (MetricFamily.getFullname ⟨config, .empty⟩)).length

/-- A step does not disturb the passes that do not take it. -/
theorem Follows.step (hs : Sound lib config s) {a : Action} (hstep : step lib s a = some s')
    {p : Pass} (h : Follows lib config s p) : Follows lib config s' p := by
  obtain ⟨-, hstore, hcase⟩ := step_sound hs hstep
  obtain ⟨more, hhistory⟩ : ∃ more, s'.history = s.history ++ more := by
    rcases hcase with ⟨hsame, -⟩ | ⟨-, e, hmore⟩
    · exact ⟨[], by rw [hsame, List.append_nil]⟩
    · exact ⟨[e], hmore⟩
  have hfirst := h.first_le
  have hstart : familyAt lib config s'.history p.start =
      familyAt lib config s.history p.start := by
    rw [hhistory]
    exact familyAt_append more hfirst
  refine ⟨?_, fun hcall => ?_, ?_, fun labels pointer hrefers => ?_,
    fun labels pointer hrefers hrefs' => ?_, fun labels printed hprinted i point hpoint => ?_,
    fun labels printed hdone => ?_⟩
  · rw [hhistory, List.length_append]
    omega
  · rcases hcase with ⟨hsame, -, hbusy⟩ | ⟨-, e, hmore⟩
    · rw [hsame]
      exact h.earlier (hbusy hcall)
    · rw [hmore, List.length_append, List.length_singleton]
      omega
  · rw [hstart]
    exact h.keys
  · refine hstore.sees hs.owned (fun v hv => ?_) (fun v hrefs hdrop hview => ?_)
      (h.sees labels pointer hrefers)
    · rw [hhistory]
      exact hv.append more
    · rw [hhistory]
      have hheld := h.held labels pointer hrefers hrefs
      exact (shown_dropped hs hstep hfirst hheld hrefs hdrop hview).append more
  · have hbound : pointer < s.family.store.objects.length := by
      rcases h.sees labels pointer hrefers with hrefs | ⟨-, v, hv, -⟩
      · exact hs.owned.bound labels pointer hrefs
      · exact (List.getElem?_eq_some_iff.mp hv).1
    have hrefs := hstore.held labels pointer hrefs' hbound
    exact heldFrom_step hs hstep (h.held labels pointer hrefers hrefs) hrefs'
  · obtain ⟨m, hm, hmpoint⟩ := h.printed labels printed hprinted i point hpoint
    rw [hhistory]
    exact ⟨m, hm.append more, hmpoint⟩
  · rw [hstart]
    exact h.complete labels printed hdone

theorem fullname_eq (hs : Sound lib config s) :
    s.fullname = MetricFamily.getFullname ⟨config, .empty⟩ := by
  have hconfig : s.family.value.config = config := by
    cases hcall : s.call with
    | none =>
      rw [hs.idle hcall]
      exact MetricFamily.config_run lib _ _
    | some call =>
      obtain ⟨labels, before, m, m', w, hsampling⟩ := hs.busy call.1 call.2 hcall
      obtain ⟨t, payload, -, -, -, -, hvalue⟩ := hsampling.history
      rw [hvalue]
      exact MetricFamily.config_run lib _ _
  exact MetricFamily.getFullname_congr hconfig

/-- A metric that was shown is called as the one at the beginning. -/
theorem Shown.series {m : IMetric} (h : Shown lib config events first labels m)
    (fullname : Str) : ∃ m₀, (familyAt lib config events first).current labels = some m₀ ∧
      m.series lib fullname = m₀.series lib fullname := by
  obtain ⟨n, hfirst, hn, hheld, hm⟩ := h
  obtain ⟨m₀, hm₀⟩ := Option.ne_none_iff_exists'.mp (hheld first (le_refl _) hfirst)
  refine ⟨m₀, hm₀, (heldFrom_keeps (R := fun a b => a.series lib fullname = b.series lib fullname)
    (fun _ => rfl) (fun _ _ _ hab hbc => hab.trans hbc)
    (fun _ _ _ h => (IMetric.series_newSample h fullname).symm) hn hheld (le_refl _) hfirst
    (le_refl _) hm₀ hm).symm⟩

/-- What an object that a pass refers to reads as. -/
theorem Follows.reads (hs : Sound lib config s) {p : Pass} (h : Follows lib config s p)
    {pointer : ℕ} (hrefers : Refers p labels pointer) {w : IMetric}
    (hw : s.family.objects[pointer]? = some w) (fullname : Str) (i : ℕ) :
    ∃ m, Shown lib config s.history p.start labels m ∧
      (w.points lib fullname)[i]? = (m.points lib fullname)[i]? := by
  rcases (h.sees labels pointer hrefers).read hw with ⟨hrefs, -⟩ | hshown
  · exact shown_of_refs hs h.first_le h.earlier (h.held labels pointer hrefers hrefs) hrefs hw
      fullname i
  · exact ⟨w, hshown, rfl⟩

theorem length_points_of_series {m m' : IMetric} {fullname : Str}
    (h : m.series lib fullname = m'.series lib fullname) :
    (m.points lib fullname).length = (m'.points lib fullname).length := by
  have hlen := congrArg List.length h
  simpa [IMetric.series] using hlen

/-- The step that reads the next point. -/
theorem Follows.read_point (hs : Sound lib config s) {p : Pass} (h : Follows lib config s p)
    {pointer : ℕ} {printed : List IPoint} (hcurrent : p.current = some (labels, pointer, printed))
    {w : IMetric} (hw : s.family.objects[pointer]? = some w) {point : IPoint}
    (hpoint : (w.points lib s.fullname)[printed.length]? = some point) :
    Follows lib config s { p with current := some (labels, pointer, printed ++ [point]) } := by
  have hrefers : ∀ q a,
      Refers { p with current := some (labels, pointer, printed ++ [point]) } q a →
        Refers p q a := by
    rintro q a (hrest | ⟨printed', heq⟩)
    · exact Or.inl hrest
    · cases heq
      exact Or.inr ⟨printed, hcurrent⟩
  refine ⟨h.first_le, h.earlier, ?_, fun q a ha => h.sees q a (hrefers q a ha),
    fun q a ha => h.held q a (hrefers q a ha), fun q printed' hp i x hx => ?_, h.complete⟩
  · have hkeys := h.keys
    simp only [passKeys, hcurrent] at hkeys
    exact hkeys
  · rcases hp with hdone | ⟨a, heq⟩
    · exact h.printed q printed' (Or.inl hdone) i x hx
    · cases heq
      by_cases hi : i < printed.length
      · rw [List.getElem?_append_left hi] at hx
        exact h.printed labels printed (Or.inr ⟨pointer, hcurrent⟩) i x hx
      · -- the new point
        have hlen : i < (printed ++ [point]).length := (List.getElem?_eq_some_iff.mp hx).1
        rw [List.length_append, List.length_singleton] at hlen
        have hlast : i = printed.length := by omega
        subst hlast
        rw [List.getElem?_concat_length] at hx
        cases hx
        obtain ⟨m, hshown, hm⟩ := h.reads hs (Or.inr ⟨printed, hcurrent⟩) hw s.fullname
          printed.length
        refine ⟨m, hshown, ?_⟩
        rw [← fullname_eq hs, ← hm, hpoint]

/-- The step that finds no further point of a metric. -/
theorem Follows.read_end (hs : Sound lib config s) {p : Pass} (h : Follows lib config s p)
    {pointer : ℕ} {printed : List IPoint} (hcurrent : p.current = some (labels, pointer, printed))
    {w : IMetric} (hw : s.family.objects[pointer]? = some w)
    (hpoint : (w.points lib s.fullname)[printed.length]? = none) :
    Follows lib config s { p with current := none, done := p.done ++ [(labels, printed)] } := by
  have hprinted := h.printed labels printed (Or.inr ⟨pointer, hcurrent⟩)
  obtain ⟨x, hshown, hx⟩ := h.reads hs (Or.inr ⟨printed, hcurrent⟩) hw s.fullname printed.length
  rw [hpoint, fullname_eq hs] at hx
  obtain ⟨m₀, hm₀, hseries⟩ := hshown.series (MetricFamily.getFullname ⟨config, .empty⟩)
  have hlen := length_points_of_series hseries
  have hge := List.getElem?_eq_none_iff.mp hx.symm
  have hle : printed.length ≤
      (m₀.points lib (MetricFamily.getFullname ⟨config, .empty⟩)).length := by
    by_contra hlt
    obtain ⟨m, hm, hmpoint⟩ := hprinted _ printed[(m₀.points lib
      (MetricFamily.getFullname ⟨config, .empty⟩)).length] (List.getElem?_eq_getElem (by omega))
    obtain ⟨m₁, hm₁, hseries₁⟩ := hm.series (MetricFamily.getFullname ⟨config, .empty⟩)
    rw [hm₀] at hm₁
    cases hm₁
    have hlen₁ := length_points_of_series hseries₁
    have hbound := (List.getElem?_eq_some_iff.mp hmpoint).1
    omega
  have hrefers : ∀ q a, Refers { p with current := none, done := p.done ++ [(labels, printed)] }
      q a → Refers p q a := by
    rintro q a (hrest | ⟨printed', heq⟩)
    · exact Or.inl hrest
    · cases heq
  refine ⟨h.first_le, h.earlier, ?_, fun q a ha => h.sees q a (hrefers q a ha),
    fun q a ha => h.held q a (hrefers q a ha), fun q printed' hp => ?_,
    fun q printed' hdone => ?_⟩
  · have hkeys := h.keys
    simp only [passKeys, hcurrent] at hkeys
    rw [← hkeys]
    simp [passKeys]
  · rcases hp with hdone | ⟨a, heq⟩
    · rcases List.mem_append.mp hdone with hdone | hlast
      · exact h.printed q printed' (Or.inl hdone)
      · cases List.mem_singleton.mp hlast
        exact hprinted
    · cases heq
  · rcases List.mem_append.mp hdone with hdone | hlast
    · exact h.complete q printed' hdone
    · cases List.mem_singleton.mp hlast
      exact ⟨m₀, hm₀, by omega⟩

/-- The step to the next metric. -/
theorem Follows.read_next {p : Pass} (h : Follows lib config s p) (hcurrent : p.current = none)
    {pointer : ℕ} {rest : List (LabelSet × Option ℕ)}
    (hrest : p.rest = (labels, some pointer) :: rest) :
    Follows lib config s { p with rest := rest, current := some (labels, pointer, []) } := by
  have hrefers : ∀ q a,
      Refers { p with rest := rest, current := some (labels, pointer, []) } q a →
        Refers p q a := by
    rintro q a (hmem | ⟨printed, heq⟩)
    · left
      rw [hrest]
      exact List.mem_cons_of_mem _ hmem
    · cases heq
      left
      rw [hrest]
      exact List.mem_cons_self
  refine ⟨h.first_le, h.earlier, ?_, fun q a ha => h.sees q a (hrefers q a ha),
    fun q a ha => h.held q a (hrefers q a ha), fun q printed hp i x hx => ?_, h.complete⟩
  · have hkeys := h.keys
    simp only [passKeys, hcurrent, hrest] at hkeys
    rw [← hkeys]
    simp [passKeys]
  · rcases hp with hdone | ⟨a, heq⟩
    · exact h.printed q printed (Or.inl hdone) i x hx
    · cases heq
      simp at hx

theorem Follows.advance (hs : Sound lib config s) {p p' : Pass} (h : Follows lib config s p)
    (hadvance : advance lib s p = some p') : Follows lib config s p' := by
  cases advance_reads hadvance with
  | point labels pointer printed w point hcurrent hw hpoint =>
    exact h.read_point hs hcurrent hw hpoint
  | done labels pointer printed w hcurrent hw hend => exact h.read_end hs hcurrent hw hend
  | next labels pointer rest hcurrent hrest => exact h.read_next hcurrent hrest

/-- `begin()` copies the pointers of the family as it is. -/
theorem follows_begin (hs : Sound lib config s) (hidle : s.call = none) :
    Follows lib config s ⟨s.history.length,
      s.family.metrics.entries.map fun e => (e.1, e.2.metric), none, []⟩ := by
  have hnow : familyAt lib config s.history s.history.length = s.family.value := by
    rw [familyAt_length, hs.idle hidle]
  have hrefs : ∀ labels pointer, Refers ⟨s.history.length,
      s.family.metrics.entries.map fun e => (e.1, e.2.metric), none, []⟩ labels pointer →
        s.family.store.refs labels = some pointer := by
    rintro labels pointer (hmem | ⟨printed, heq⟩)
    · obtain ⟨⟨q, item⟩, he, heq⟩ := List.mem_map.mp hmem
      obtain ⟨rfl, hmetric⟩ := Prod.mk.inj heq
      exact Option.bind_eq_some_iff.mpr ⟨item, s.family.metrics.mem_entries_iff.mp he, hmetric⟩
    · cases heq
  refine ⟨le_refl _, fun hcall => absurd hidle hcall, ?_, fun labels pointer h =>
    Or.inl (hrefs labels pointer h), fun labels pointer h _ n hn hn' => ?_, ?_, ?_⟩
  · rw [hnow, SharedFamily.value, OrderedMap.keys_mapValues]
    simp [passKeys, OrderedMap.keys]
  · obtain rfl : n = s.history.length := le_antisymm hn' hn
    rw [familyAt_length]
    exact current_of_refs hs (hrefs labels pointer h)
  · rintro labels printed (hdone | ⟨a, heq⟩)
    · cases hdone
    · cases heq
  · intro labels printed hdone
    cases hdone

/-- What is so of every pass, every step keeps. -/
theorem follows_step (hs : Sound lib config s) {a : Action} (hstep : step lib s a = some s')
    (h : ∀ p ∈ s.passes, Follows lib config s p) : ∀ p ∈ s'.passes, Follows lib config s' p := by
  refine passes_effect (step_effect hstep) (fun p hp => (h p hp).step hs hstep)
    (fun hidle => (follows_begin hs hidle).step hs hstep) fun p hp p' hadvance => ?_
  exact ((h p hp).advance hs hadvance).step hs hstep

theorem follows_run {actions : List Action} (h : run (step lib) (start config) actions = some s) :
    Sound lib config s ∧ ∀ p ∈ s.passes, Follows lib config s p := by
  refine run_invariant (I := fun s => Sound lib config s ∧ ∀ p ∈ s.passes, Follows lib config s p)
    ?_ ⟨sound_start lib config, fun p hp => absurd hp List.not_mem_nil⟩ h
  rintro s a s' ⟨hs, hpasses⟩ hstep
  exact ⟨(step_sound hs hstep).1, follows_step hs hstep hpasses⟩

end

/-! ## What a pass prints -/

/-- The text of a pass that has gone through everything. -/
def passText (config : Configuration) (p : Pass) : Str :=
  MetricFamily.header ⟨config, .empty⟩ ++
    p.done.flatMap (fun d => MetricFamily.metricText d.2) ++ "\n".toList

def Finished (p : Pass) : Prop := p.rest = [] ∧ p.current = none

instance (p : Pass) : Decidable (Finished p) := inferInstanceAs (Decidable (_ ∧ _))

/-- The names and label sets of what was printed. -/
def printedSeries (printed : List IPoint) : List (Str × LabelSet) :=
  printed.map fun point => (point.fullname, point.labelSet)

/-- The series of a pass are those of the family at `begin()`, in their order.
Each point was, at some moment since and without an eviction in between, one of
its series. Undisturbed, the pass prints the family. -/
structure Regular (lib : Libraries) (config : Configuration) (events : List FamilyEvent)
    (p : Pass) : Prop where
  keys : passKeys p = (familyAt lib config events p.start).metrics.keys
  complete : ∀ labels printed, (labels, printed) ∈ p.done →
    ∃ m, (familyAt lib config events p.start).current labels = some m ∧
      printedSeries printed = m.series lib (MetricFamily.getFullname ⟨config, .empty⟩)
  shown : ∀ labels printed, Printed p labels printed → ∀ (i : ℕ) point, printed[i]? = some point →
    ∃ n m, p.start ≤ n ∧ n ≤ events.length ∧ HeldFrom lib config events p.start n labels ∧
      (familyAt lib config events n).current labels = some m ∧
      (m.points lib (MetricFamily.getFullname ⟨config, .empty⟩))[i]? = some point
  alone : Finished p → events.length = p.start →
    (familyAt lib config events p.start).stringify lib = some (passText config p)

/-- Lines that are those of the metrics, label set by label set. -/
theorem visited_of_done {name : Str} {es : List (LabelSet × MetricItem)}
    {done : List (LabelSet × List IPoint)} (hkeys : done.map Prod.fst = es.map Prod.fst)
    (h : ∀ labels printed item, (labels, printed) ∈ done → (labels, item) ∈ es →
      ∃ m, item.metric = some m ∧ printed = m.points lib name) :
    ∃ ms : List IMetric, es.map (fun e => e.2.metric) = ms.map some ∧
      ms.flatMap (fun m => MetricFamily.metricText (m.points lib name)) =
        done.flatMap (fun d => MetricFamily.metricText d.2) := by
  induction es generalizing done with
  | nil =>
    obtain rfl := List.map_eq_nil_iff.mp hkeys
    exact ⟨[], rfl, rfl⟩
  | cons e es ih =>
    cases done with
    | nil => cases hkeys
    | cons d done =>
      obtain ⟨hkey, hrest⟩ := List.cons.inj hkeys
      obtain ⟨ms, hms, htext⟩ := ih hrest fun labels printed item hd he =>
        h labels printed item (List.mem_cons_of_mem d hd) (List.mem_cons_of_mem e he)
      obtain ⟨m, hm, hprinted⟩ := h d.1 d.2 e.2 List.mem_cons_self
        (hkey ▸ List.mem_cons_self)
      refine ⟨m :: ms, ?_, ?_⟩
      · rw [List.map_cons, List.map_cons, hm, hms]
      · rw [List.flatMap_cons, List.flatMap_cons, htext, hprinted]

section

variable {s : Concurrent} {p : Pass}

theorem Follows.series (h : Follows lib config s p) {printed : List IPoint}
    (hdone : (labels, printed) ∈ p.done) :
    ∃ m, (familyAt lib config s.history p.start).current labels = some m ∧
      printedSeries printed = m.series lib (MetricFamily.getFullname ⟨config, .empty⟩) := by
  obtain ⟨m₀, hm₀, hlen⟩ := h.complete labels printed hdone
  refine ⟨m₀, hm₀, List.ext_getElem ?_ fun i hi hi' => ?_⟩
  · rw [printedSeries, List.length_map, IMetric.series, List.length_map, hlen]
  · have hlt : i < printed.length := by
      rwa [printedSeries, List.length_map] at hi
    obtain ⟨m, hshown, hpoint⟩ := h.printed labels printed (Or.inl hdone) i printed[i]
      (List.getElem?_eq_getElem hlt)
    obtain ⟨m₁, hm₁, hseries⟩ := hshown.series (MetricFamily.getFullname ⟨config, .empty⟩)
    rw [hm₀] at hm₁
    cases hm₁
    obtain ⟨hbound, heq⟩ := List.getElem?_eq_some_iff.mp hpoint
    rw [List.getElem_of_eq hseries.symm hi']
    simp only [printedSeries, IMetric.series, List.getElem_map, heq]

/-- Without an event since `begin()`, every metric is printed as it is. -/
theorem Follows.undisturbed (h : Follows lib config s p) (hquiet : s.history.length = p.start)
    {printed : List IPoint} (hdone : (labels, printed) ∈ p.done) :
    ∃ m, (familyAt lib config s.history p.start).current labels = some m ∧
      printed = m.points lib (MetricFamily.getFullname ⟨config, .empty⟩) := by
  obtain ⟨m₀, hm₀, hlen⟩ := h.complete labels printed hdone
  refine ⟨m₀, hm₀, List.ext_getElem hlen fun i hi hi' => ?_⟩
  obtain ⟨m, ⟨n, hfirst, hn, -, hm⟩, hpoint⟩ := h.printed labels printed (Or.inl hdone) i
    printed[i] (List.getElem?_eq_getElem hi)
  obtain rfl : n = p.start := by omega
  rw [hm₀] at hm
  cases hm
  exact (List.getElem?_eq_some_iff.mp hpoint).2.symm

theorem Follows.regular (h : Follows lib config s p) : Regular lib config s.history p := by
  refine ⟨h.keys, fun labels printed hdone => h.series hdone, ?_, ?_⟩
  · intro labels printed hprinted i point hpoint
    obtain ⟨m, ⟨n, hfirst, hn, hheld, hm⟩, hmpoint⟩ := h.printed labels printed hprinted i point
      hpoint
    exact ⟨n, m, hfirst, hn, hheld, hm, hmpoint⟩
  · rintro ⟨hrest, hcurrent⟩ hquiet
    have hkeys := h.keys
    simp only [passKeys, hrest, hcurrent] at hkeys
    have hentries : p.done.map Prod.fst =
        (familyAt lib config s.history p.start).metrics.entries.map Prod.fst := by
      simpa [OrderedMap.keys] using hkeys
    obtain ⟨ms, hms, htext⟩ := visited_of_done hentries fun labels printed item hdone hitem => by
      obtain ⟨m, hm, hprinted⟩ := h.undisturbed hquiet hdone
      rw [OrderedMap.mem_entries_iff] at hitem
      rw [MetricFamily.current, hitem] at hm
      exact ⟨m, hm, hprinted⟩
    have hvisited : (familyAt lib config s.history p.start).visited = some ms :=
      MetricFamily.visited_eq_some.mpr hms
    have hheader : (familyAt lib config s.history p.start).header =
        MetricFamily.header ⟨config, .empty⟩ :=
      MetricFamily.header_congr (MetricFamily.config_run lib _ _)
    rw [MetricFamily.stringify, MetricFamily.samples, hvisited, hheader, getFullname_familyAt,
      passText, ← htext]
    rfl

end

/-- Every pass, whatever the other threads do, goes through the series of one
moment and prints points that they had since. -/
theorem scrape_regular (lib : Libraries) (config : Configuration) (actions : List Action)
    (s : Concurrent) (h : run (step lib) (start config) actions = some s) :
    ∀ p ∈ s.passes, Regular lib config s.history p :=
  fun p hp => ((follows_run h).2 p hp).regular

/-- A series is evicted and sampled anew while a pass is at it. -/
theorem scrape_regular_evicted : ∃ s,
    run (step simpleLibraries) (start (counterEntry "t" "c"))
      [.sample 0 [] .empty, .write, .write, .begin, .read 0, .routine 90000,
        .sample 90001 [] .empty, .write, .read 0, .write, .read 0] = some s ∧
    ∀ p ∈ s.passes, Regular simpleLibraries (counterEntry "t" "c") s.history p :=
  ⟨_, rfl, scrape_regular simpleLibraries (counterEntry "t" "c")
    [.sample 0 [] .empty, .write, .write, .begin, .read 0, .routine 90000,
      .sample 90001 [] .empty, .write, .read 0, .write, .read 0] _ rfl⟩

end Concurrent

end MqttExporter
