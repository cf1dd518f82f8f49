import MqttExporter.Base.Transition
import MqttExporter.Configuration

/-!
# Publishing and its acknowledgements

Any number of `publish` calls and the network thread, step by step. A call gets
its mid outside the lock and registers its ticket under it inside the lock; an
acknowledgement of the mid may be handled in between.

* `triggered_acknowledged`: a triggered ticket is never a false confirmation;
* `acknowledged_triggered`: no acknowledgement is lost, and no call raises, in
  runs that handle acknowledgements after the registration.
-/

namespace MqttExporter

/-- How far a call has come. It raises when it finds its mid in use. -/
inductive PublishPhase where
  | handedOver
  | returned
  | raised (e : Error)
  deriving DecidableEq

/-- A call whose message was handed over, with the ticket it returns. -/
structure PublishCall where
  mid : Int
  phase : PublishPhase
  acked : Bool
  held : Bool
  triggered : Bool
  deriving DecidableEq

/-- The calls in the order of their hand-over, and `_messageTickets`, where the
weak reference to a ticket is the number of its call. -/
structure Publishing where
  calls : List PublishCall
  messageTickets : OrderedMap Int Nat
  deriving DecidableEq

inductive PublishAction where
  | handOver (mid : Int)
  | refuse
  | register (i : Nat)
  | acknowledge (i : Nat)
  | drop (i : Nat)

namespace Publishing

def initial : Publishing := ⟨[], .empty⟩

def duplicate : Error := .client "Generated a duplicate messageId that is currently on-the-fly"

/-- `publish` from the lock on, for call `i`. -/
def register (s : Publishing) (i : Nat) (c : PublishCall) : Publishing :=
  if s.messageTickets.contains c.mid then
    { s with calls := s.calls.set i { c with phase := .raised duplicate } }
  else
    { calls := s.calls.set i { c with phase := .returned, held := true }
      messageTickets := s.messageTickets.set c.mid i }

/-- `Ticket::trigger`, when the weak reference still leads to the ticket. -/
def trigger (c : PublishCall) : PublishCall := if c.held then { c with triggered := true } else c

def onPublished (s : Publishing) (mid : Int) : Publishing :=
  match s.messageTickets.find? mid with
  | none => s
  | some i =>
    { calls := s.calls.modify i trigger, messageTickets := s.messageTickets.erase mid }

/-- A mid is used again only after the earlier message was acknowledged, and a
message is acknowledged at most once. `refuse` is a `mosquitto_publish` that
fails: `publish` throws, and nothing was handed over. -/
def step (s : Publishing) : PublishAction → Option Publishing
  | .handOver mid =>
    if ∀ c ∈ s.calls, c.mid = mid → c.acked = true then
      some { s with calls := s.calls ++ [⟨mid, .handedOver, false, false, false⟩] }
    else none
  | .refuse => some s
  | .register i =>
    match s.calls[i]? with
    | some c => if c.phase = .handedOver then some (s.register i c) else none
    | none => none
  | .acknowledge i =>
    match s.calls[i]? with
    | some c =>
      if c.acked then none
      else some (onPublished { s with calls := s.calls.set i { c with acked := true } } c.mid)
    | none => none
  | .drop i =>
    match s.calls[i]? with
    | some c =>
      if c.held then some { s with calls := s.calls.set i { c with held := false } } else none
    | none => none

/-- What a step can do. -/
theorem step_cases {s s' : Publishing} {a : PublishAction} (h : s.step a = some s') :
    (∃ mid, a = .handOver mid ∧ (∀ c ∈ s.calls, c.mid = mid → c.acked = true) ∧
      s' = { s with calls := s.calls ++ [⟨mid, .handedOver, false, false, false⟩] }) ∨
    (a = .refuse ∧ s' = s) ∨
    (∃ i c, a = .register i ∧ s.calls[i]? = some c ∧ c.phase = .handedOver ∧ s' = s.register i c) ∨
    (∃ i c, a = .acknowledge i ∧ s.calls[i]? = some c ∧ c.acked = false ∧
      s' = onPublished { s with calls := s.calls.set i { c with acked := true } } c.mid) ∨
    (∃ i c, a = .drop i ∧ s.calls[i]? = some c ∧ c.held = true ∧
      s' = { s with calls := s.calls.set i { c with held := false } }) := by
  cases a with
  | handOver mid =>
    simp only [step] at h
    split at h
    · rename_i hfree
      cases h
      exact Or.inl ⟨mid, rfl, hfree, rfl⟩
    · cases h
  | refuse =>
    cases h
    exact Or.inr (Or.inl ⟨rfl, rfl⟩)
  | register i =>
    simp only [step] at h
    split at h
    · rename_i c hc
      split at h
      · rename_i hphase
        cases h
        exact Or.inr (Or.inr (Or.inl ⟨i, c, rfl, hc, hphase, rfl⟩))
      · cases h
    · cases h
  | acknowledge i =>
    simp only [step] at h
    split at h
    · rename_i c hc
      split at h
      · cases h
      · rename_i hacked
        cases h
        exact Or.inr (Or.inr (Or.inr (Or.inl ⟨i, c, rfl, hc, by simpa using hacked, rfl⟩)))
    · cases h
  | drop i =>
    simp only [step] at h
    split at h
    · rename_i c hc
      split at h
      · rename_i hheld
        cases h
        exact Or.inr (Or.inr (Or.inr (Or.inr ⟨i, c, rfl, hc, hheld, rfl⟩)))
      · cases h
    · cases h

/-! ## Looking at one call -/

theorem lookup_set {cs : List PublishCall} {i j : Nat} {c c' d : PublishCall}
    (hi : cs[i]? = some c) :
    (cs.set i c')[j]? = some d ↔ (i = j ∧ d = c') ∨ (i ≠ j ∧ cs[j]? = some d) := by
  have hlt : i < cs.length := (List.getElem?_eq_some_iff.mp hi).1
  rw [List.getElem?_set]
  by_cases h : i = j
  · subst h
    simp [hlt, eq_comm]
  · simp [h]

/-- After a change of one call there are the changed call and the others. -/
theorem forall_lookup_set {P : Nat → PublishCall → Prop} {cs : List PublishCall} {i : Nat}
    {c c' : PublishCall} (hi : cs[i]? = some c) (changed : P i c')
    (kept : ∀ j d, i ≠ j → cs[j]? = some d → P j d) :
    ∀ j d, (cs.set i c')[j]? = some d → P j d := by
  intro j d hd
  rcases (lookup_set hi).mp hd with ⟨rfl, rfl⟩ | ⟨hne, hd₀⟩
  · exact changed
  · exact kept j d hne hd₀

theorem lookup_concat {cs : List PublishCall} {c d : PublishCall} {j : Nat} :
    (cs ++ [c])[j]? = some d ↔ cs[j]? = some d ∨ (j = cs.length ∧ d = c) := by
  rcases lt_trichotomy j cs.length with h | h | h
  · rw [List.getElem?_append_left h]
    simp [h.ne]
  · subst h
    simp [eq_comm]
  · rw [List.getElem?_eq_none (by simp; omega), List.getElem?_eq_none h.le]
    simp [h.ne']

theorem forall_lookup_concat {P : Nat → PublishCall → Prop} {cs : List PublishCall}
    {c : PublishCall} (last : P cs.length c) (kept : ∀ j d, cs[j]? = some d → P j d) :
    ∀ j d, (cs ++ [c])[j]? = some d → P j d := by
  intro j d hd
  rcases lookup_concat.mp hd with hd₀ | ⟨rfl, rfl⟩
  · exact kept j d hd₀
  · exact last

theorem lookup_trigger {cs : List PublishCall} {i j : Nat} {d : PublishCall} :
    (cs.modify i trigger)[j]? = some d ↔
      ∃ c, cs[j]? = some c ∧ d = if i = j then trigger c else c := by
  rw [List.getElem?_modify]
  simp [eq_comm]

@[simp] theorem trigger_mid (c : PublishCall) : (trigger c).mid = c.mid := by
  unfold trigger; split <;> rfl

@[simp] theorem trigger_acked (c : PublishCall) : (trigger c).acked = c.acked := by
  unfold trigger; split <;> rfl

@[simp] theorem trigger_phase (c : PublishCall) : (trigger c).phase = c.phase := by
  unfold trigger; split <;> rfl

@[simp] theorem trigger_held (c : PublishCall) : (trigger c).held = c.held := by
  unfold trigger; split <;> rfl

theorem trigger_triggered {c : PublishCall} (h : c.held = true) : (trigger c).triggered = true := by
  rw [trigger, if_pos h]

/-! ## No false confirmation -/

/-- Tickets are registered under the mids of their calls, and of two calls with
one mid the earlier one was acknowledged. -/
structure Sound (s : Publishing) : Prop where
  registered : ∀ m i, s.messageTickets.find? m = some i → ∃ c, s.calls[i]? = some c ∧ c.mid = m
  reused : ∀ (i j : Nat) (c d : PublishCall), i < j → s.calls[i]? = some c →
    s.calls[j]? = some d → c.mid = d.mid → c.acked = true
  confirmed : ∀ (i : Nat) (c : PublishCall), s.calls[i]? = some c → c.triggered = true →
    c.acked = true

theorem Sound.set {s : Publishing} (hs : s.Sound) {i : Nat} {c c' : PublishCall}
    (hc : s.calls[i]? = some c) (hm : c'.mid = c.mid) (ha : c.acked = true → c'.acked = true)
    (ht : c'.triggered = true → c'.acked = true) : Sound { s with calls := s.calls.set i c' } where
  registered m j hj := by
    obtain ⟨d, hd, hdm⟩ := hs.registered m j hj
    by_cases h : i = j
    · subst h
      rw [hc] at hd
      cases hd
      exact ⟨c', (lookup_set hc).mpr (Or.inl ⟨rfl, rfl⟩), hm.trans hdm⟩
    · exact ⟨d, (lookup_set hc).mpr (Or.inr ⟨h, hd⟩), hdm⟩
  reused j k d e hjk hd he hde := by
    rcases (lookup_set hc).mp hd with ⟨rfl, rfl⟩ | ⟨-, hd₀⟩
    · rcases (lookup_set hc).mp he with ⟨rfl, -⟩ | ⟨-, he₀⟩
      · omega
      · exact ha (hs.reused _ k c e hjk hc he₀ (by rw [← hm, hde]))
    · rcases (lookup_set hc).mp he with ⟨rfl, rfl⟩ | ⟨-, he₀⟩
      · exact hs.reused j _ d c hjk hd₀ hc (by rw [hde, hm])
      · exact hs.reused j k d e hjk hd₀ he₀ hde
  confirmed := forall_lookup_set hc ht fun j d _ hd => hs.confirmed j d hd

theorem Sound.onPublished {s : Publishing} (hs : s.Sound) {mid : Int}
    (hacked : ∀ (i : Nat) (c : PublishCall), s.messageTickets.find? mid = some i →
      s.calls[i]? = some c → c.acked = true) : (s.onPublished mid).Sound := by
  unfold Publishing.onPublished
  split
  · exact hs
  · rename_i i hi
    refine ⟨fun m j hj => ?_, fun j k d' e' hjk hd he hde => ?_, fun j d' hd htr => ?_⟩
    · have hne : mid ≠ m := by
        rintro rfl
        rw [OrderedMap.find?_erase_self] at hj
        cases hj
      rw [OrderedMap.find?_erase_ne _ hne] at hj
      obtain ⟨c, hc, hm⟩ := hs.registered m j hj
      refine ⟨_, lookup_trigger.mpr ⟨c, hc, rfl⟩, ?_⟩
      split
      · rw [trigger_mid, hm]
      · exact hm
    · obtain ⟨d, hd₀, rfl⟩ := lookup_trigger.mp hd
      obtain ⟨e, he₀, rfl⟩ := lookup_trigger.mp he
      have hmid : d.mid = e.mid := by
        split at hde <;> split at hde <;> simpa using hde
      have h := hs.reused j k d e hjk hd₀ he₀ hmid
      split
      · rwa [trigger_acked]
      · exact h
    · obtain ⟨d, hd₀, rfl⟩ := lookup_trigger.mp hd
      split
      · rename_i hij
        subst hij
        rw [trigger_acked]
        exact hacked i d hi hd₀
      · rename_i hij
        rw [if_neg hij] at htr
        exact hs.confirmed j d hd₀ htr

theorem handOver_sound {s : Publishing} (hs : s.Sound) {mid : Int}
    (hfree : ∀ c ∈ s.calls, c.mid = mid → c.acked = true) :
    Sound { s with calls := s.calls ++ [⟨mid, .handedOver, false, false, false⟩] } where
  registered m i hi := by
    obtain ⟨c, hc, hm⟩ := hs.registered m i hi
    exact ⟨c, lookup_concat.mpr (Or.inl hc), hm⟩
  reused i j c d hij hc hd hmid := by
    have hi : s.calls[i]? = some c := by
      rcases lookup_concat.mp hc with hc | ⟨rfl, -⟩
      · exact hc
      · rcases lookup_concat.mp hd with hd | ⟨rfl, -⟩
        · have := (List.getElem?_eq_some_iff.mp hd).1
          omega
        · omega
    rcases lookup_concat.mp hd with hd | ⟨-, rfl⟩
    · exact hs.reused i j c d hij hi hd hmid
    · exact hfree c (List.mem_of_getElem? hi) hmid
  confirmed := forall_lookup_concat (fun htr => by cases htr) hs.confirmed

theorem register_sound {s : Publishing} (hs : s.Sound) {i : Nat} {c : PublishCall}
    (hc : s.calls[i]? = some c) : (s.register i c).Sound := by
  unfold register
  split
  · exact hs.set hc rfl id (hs.confirmed i c hc)
  · have hset := @Sound.set s hs i c { c with phase := .returned, held := true } hc rfl id
      (hs.confirmed i c hc)
    refine ⟨fun m j hj => ?_, hset.reused, hset.confirmed⟩
    exact OrderedMap.forall_set ⟨_, (lookup_set hc).mpr (Or.inl ⟨rfl, rfl⟩), rfl⟩
      hset.registered m j hj

theorem acknowledge_sound {s : Publishing} (hs : s.Sound) {i : Nat} {c : PublishCall}
    (hc : s.calls[i]? = some c) (hacked : c.acked = false) :
    (onPublished { s with calls := s.calls.set i { c with acked := true } } c.mid).Sound := by
  refine (@Sound.set s hs i c { c with acked := true } hc rfl (fun _ => rfl)
    fun _ => rfl).onPublished ?_
  -- a ticket under this mid belongs to this call, or to an earlier one of the mid
  intro j d' hj hd'
  rcases (lookup_set hc).mp hd' with ⟨rfl, rfl⟩ | ⟨hne, hd⟩
  · rfl
  · obtain ⟨d, hd₀, hmid⟩ := hs.registered c.mid j hj
    rw [hd] at hd₀
    cases hd₀
    rcases Nat.lt_or_gt_of_ne hne with hlt | hgt
    · have := hs.reused i j c d' hlt hc hd hmid.symm
      rw [hacked] at this
      cases this
    · exact hs.reused j i d' c hgt hd hc hmid

theorem step_sound {s s' : Publishing} {a : PublishAction} (hs : s.Sound)
    (h : s.step a = some s') : s'.Sound := by
  obtain ⟨mid, rfl, hfree, rfl⟩ | ⟨rfl, rfl⟩ | ⟨i, c, rfl, hc, -, rfl⟩ |
    ⟨i, c, rfl, hc, hacked, rfl⟩ | ⟨i, c, rfl, hc, -, rfl⟩ := step_cases h
  · exact handOver_sound hs hfree
  · exact hs
  · exact register_sound hs hc
  · exact acknowledge_sound hs hc hacked
  · exact hs.set hc rfl id (hs.confirmed i c hc)

theorem sound_initial : initial.Sound where
  registered m i h := by cases h
  reused i j c d _ h := by cases h
  confirmed i c h := by cases h

/-- In every state of every run a triggered ticket is that of a message whose
acknowledgement was handled. -/
theorem triggered_acknowledged (actions : List PublishAction) {s : Publishing}
    (h : Transition.run step initial actions = some s) :
    ∀ c ∈ s.calls, c.triggered = true → c.acked = true := by
  intro c hc htr
  obtain ⟨i, hi⟩ := List.mem_iff_getElem?.mp hc
  have hs := Transition.run_invariant (I := Sound) (fun _ _ _ hs hstep => step_sound hs hstep)
    sound_initial h
  exact hs.confirmed i c hi htr

/-- Two messages with one mid; the ticket of the second is triggered by its own
acknowledgement. -/
theorem triggered_acknowledged_reuse : ∃ s, Transition.run step initial
    [.handOver 7, .acknowledge 0, .handOver 7, .register 1, .acknowledge 1] = some s ∧
    (∃ c ∈ s.calls, c.triggered = true) ∧ ∀ c ∈ s.calls, c.triggered = true → c.acked = true :=
  ⟨_, rfl, by decide, triggered_acknowledged
    [.handOver 7, .acknowledge 0, .handOver 7, .register 1, .acknowledge 1] rfl⟩

/-! ## No lost acknowledgement -/

/-- An acknowledgement is not handled before its call has registered a ticket. -/
def Registered (s : Publishing) : PublishAction → Prop
  | .acknowledge i => ∀ c ∈ s.calls[i]?, c.phase ≠ .handedOver
  | _ => True

instance (s : Publishing) : DecidablePred s.Registered
  | .acknowledge i => inferInstanceAs (Decidable (∀ c ∈ s.calls[i]?, c.phase ≠ .handedOver))
  | .handOver _ | .refuse | .register _ | .drop _ => inferInstanceAs (Decidable True)

/-- The map holds the tickets of the calls that returned and still wait. -/
structure Prompt (s : Publishing) : Prop extends Sound s where
  waiting : ∀ (i : Nat) (c : PublishCall), s.calls[i]? = some c → c.phase = .returned →
    c.acked = false → s.messageTickets.find? c.mid = some i
  live : ∀ (i : Nat) (c : PublishCall), s.messageTickets.find? c.mid = some i →
    s.calls[i]? = some c → c.phase = .returned ∧ c.acked = false
  accepted : ∀ (i : Nat) (c : PublishCall), s.calls[i]? = some c →
    (∀ e, c.phase ≠ .raised e) ∧ (c.phase = .handedOver → c.acked = false)
  delivered : ∀ (i : Nat) (c : PublishCall), s.calls[i]? = some c → c.phase = .returned →
    c.acked = true → c.held = true → c.triggered = true

/-- A call that is about to register finds its mid free. -/
theorem Prompt.free {s : Publishing} (hs : s.Prompt) {i : Nat} {c : PublishCall}
    (hc : s.calls[i]? = some c) (hphase : c.phase = .handedOver) :
    s.messageTickets.find? c.mid = none := by
  cases hf : s.messageTickets.find? c.mid with
  | none => rfl
  | some j =>
    obtain ⟨d, hd, hmid⟩ := hs.registered c.mid j hf
    obtain ⟨hreturned, hwaits⟩ := hs.live j d (hmid ▸ hf) hd
    rcases lt_trichotomy i j with h | rfl | h
    · have := hs.reused i j c d h hc hd hmid.symm
      rw [(hs.accepted i c hc).2 hphase] at this
      cases this
    · rw [hd] at hc
      cases hc
      rw [hphase] at hreturned
      cases hreturned
    · have := hs.reused j i d c h hd hc hmid
      rw [hwaits] at this
      cases this

theorem onPublished_waiting {s : Publishing} {i : Nat} {c' : PublishCall} {mid : Int}
    (h : s.messageTickets.find? mid = some i) :
    onPublished { s with calls := s.calls.set i c' } mid =
      { calls := s.calls.set i (trigger c'), messageTickets := s.messageTickets.erase mid } := by
  have hmodify : (s.calls.set i c').modify i trigger = s.calls.set i (trigger c') := by
    apply List.ext_getElem?
    intro j
    rcases eq_or_ne i j with rfl | hne
    · rw [List.getElem?_modify_eq, List.getElem?_set_self', List.getElem?_set_self']
      cases s.calls[i]? <;> rfl
    · rw [List.getElem?_modify_ne _ _ hne, List.getElem?_set_ne hne, List.getElem?_set_ne hne]
  rw [onPublished, h]
  exact congrArg (Publishing.mk · _) hmodify

theorem handOver_prompt {s : Publishing} (hs : s.Prompt) {mid : Int}
    (hfree : ∀ c ∈ s.calls, c.mid = mid → c.acked = true) :
    Prompt { s with calls := s.calls ++ [⟨mid, .handedOver, false, false, false⟩] } where
  toSound := handOver_sound hs.toSound hfree
  waiting := forall_lookup_concat (fun hr => by cases hr) hs.waiting
  live j d hf hd := by
    rcases lookup_concat.mp hd with hd₀ | ⟨rfl, rfl⟩
    · exact hs.live j d hf hd₀
    · obtain ⟨e, he, -⟩ := hs.registered _ _ hf
      exact absurd (List.getElem?_eq_some_iff.mp he).1 (lt_irrefl _)
  accepted := forall_lookup_concat ⟨fun _ => by simp, fun _ => rfl⟩ hs.accepted
  delivered := forall_lookup_concat (fun hr => by cases hr) hs.delivered

theorem register_prompt {s : Publishing} (hs : s.Prompt) {i : Nat} {c : PublishCall}
    (hc : s.calls[i]? = some c) (hphase : c.phase = .handedOver) : (s.register i c).Prompt := by
  have hsound := register_sound hs.toSound hc
  have hfree := hs.free hc hphase
  have hwaits := (hs.accepted i c hc).2 hphase
  have hcontains : s.messageTickets.contains c.mid = false := by
    rw [OrderedMap.contains, hfree]
    rfl
  unfold register at hsound ⊢
  rw [hcontains] at hsound ⊢
  refine ⟨hsound, forall_lookup_set hc ?_ ?_, fun j d hf hd => ?_, forall_lookup_set hc ?_ ?_,
    forall_lookup_set hc ?_ ?_⟩
  · intro _ _
    exact OrderedMap.find?_set_self ..
  · intro j d _ hd hr hw
    have hfind := hs.waiting j d hd hr hw
    have hmid : c.mid ≠ d.mid := by
      intro hm
      rw [← hm, hfree] at hfind
      cases hfind
    exact (OrderedMap.find?_set_ne _ _ hmid).trans hfind
  · rcases (lookup_set hc).mp hd with ⟨rfl, rfl⟩ | ⟨hne, hd₀⟩
    · exact ⟨rfl, hwaits⟩
    · simp only [Bool.false_eq_true, if_false, OrderedMap.find?_set] at hf
      split at hf
      · cases hf
        exact absurd rfl hne
      · exact hs.live j d hf hd₀
  · exact ⟨fun _ => by simp, fun h => by cases h⟩
  · exact fun j d _ => hs.accepted j d
  · intro _ hacked
    exact absurd hacked (by simp [hwaits])
  · exact fun j d _ => hs.delivered j d

/-- An acknowledgement that comes after the registration finds the ticket of its
own call, and no other ticket is under that mid. -/
theorem acknowledge_prompt {s : Publishing} (hs : s.Prompt) {i : Nat} {c : PublishCall}
    (hc : s.calls[i]? = some c) (hacked : c.acked = false) (hphase : c.phase ≠ .handedOver) :
    (onPublished { s with calls := s.calls.set i { c with acked := true } } c.mid).Prompt := by
  have hsound := acknowledge_sound hs.toSound hc hacked
  have hreturned : c.phase = .returned := by
    cases hp : c.phase with
    | handedOver => exact absurd hp hphase
    | returned => rfl
    | raised e => exact absurd hp ((hs.accepted i c hc).1 e)
  have hfind := hs.waiting i c hc hreturned hacked
  rw [onPublished_waiting hfind] at hsound ⊢
  have hmid : ∀ {j : Nat} {d : PublishCall}, i ≠ j → s.messageTickets.find? d.mid = some j →
      c.mid ≠ d.mid := by
    intro j d hne hj hm
    rw [← hm, hfind] at hj
    exact hne (Option.some.inj hj)
  refine ⟨hsound, forall_lookup_set hc ?_ ?_, fun j d hf hd => ?_, forall_lookup_set hc ?_ ?_,
    forall_lookup_set hc ?_ ?_⟩
  · intro _ hw
    simp at hw
  · intro j d hne hd hr hw
    have hj := hs.waiting j d hd hr hw
    exact (OrderedMap.find?_erase_ne _ (hmid hne hj)).trans hj
  · have hne : c.mid ≠ d.mid := by
      intro hm
      rw [← hm, OrderedMap.find?_erase_self] at hf
      cases hf
    rcases (lookup_set hc).mp hd with ⟨rfl, rfl⟩ | ⟨-, hd₀⟩
    · simp at hne
    · exact hs.live j d (OrderedMap.find?_erase_ne _ hne ▸ hf) hd₀
  · simp [hreturned]
  · exact fun j d _ => hs.accepted j d
  · intro _ _ hh
    rw [trigger_held] at hh
    exact trigger_triggered hh
  · exact fun j d _ => hs.delivered j d

theorem drop_prompt {s : Publishing} (hs : s.Prompt) {i : Nat} {c : PublishCall}
    (hc : s.calls[i]? = some c) :
    Prompt { s with calls := s.calls.set i { c with held := false } } where
  toSound := hs.toSound.set hc rfl id (hs.confirmed i c hc)
  waiting := forall_lookup_set hc (hs.waiting i c hc) fun j d _ => hs.waiting j d
  live j d hf hd := by
    rcases (lookup_set hc).mp hd with ⟨rfl, rfl⟩ | ⟨-, hd₀⟩
    · exact hs.live _ c hf hc
    · exact hs.live j d hf hd₀
  accepted := forall_lookup_set hc (hs.accepted i c hc) fun j d _ => hs.accepted j d
  delivered := forall_lookup_set hc (fun _ _ hh => by cases hh) fun j d _ => hs.delivered j d

theorem step_prompt {s s' : Publishing} {a : PublishAction} (hs : s.Prompt) (ha : s.Registered a)
    (h : s.step a = some s') : s'.Prompt := by
  obtain ⟨mid, rfl, hfree, rfl⟩ | ⟨rfl, rfl⟩ | ⟨i, c, rfl, hc, hphase, rfl⟩ |
    ⟨i, c, rfl, hc, hacked, rfl⟩ | ⟨i, c, rfl, hc, -, rfl⟩ := step_cases h
  · exact handOver_prompt hs hfree
  · exact hs
  · exact register_prompt hs hc hphase
  · exact acknowledge_prompt hs hc hacked (ha c hc)
  · exact drop_prompt hs hc

theorem prompt_initial : initial.Prompt where
  toSound := sound_initial
  waiting i c h := by cases h
  live i c h := by cases h
  accepted i c h := by cases h
  delivered i c h := by cases h

/-- When no acknowledgement comes before the registration, each acknowledged
call that returned a ticket still held has triggered it, and no call raised. -/
theorem acknowledged_triggered (actions : List PublishAction) {s : Publishing}
    (hreg : Transition.Meets step Registered initial actions)
    (h : Transition.run step initial actions = some s) :
    ∀ c ∈ s.calls, (c.phase = .returned → c.acked = true → c.held = true → c.triggered = true) ∧
      ∀ e, c.phase ≠ .raised e := by
  intro c hc
  obtain ⟨i, hi⟩ := List.mem_iff_getElem?.mp hc
  have hs := Transition.run_meets (I := Prompt)
    (fun _ _ _ hs ha hstep => step_prompt hs ha hstep) prompt_initial hreg h
  exact ⟨hs.delivered i c hi, (hs.accepted i c hi).1⟩

theorem acknowledged_triggered_pair : ∃ s, Transition.run step initial
    [.handOver 7, .handOver 8, .register 1, .register 0, .acknowledge 0] = some s ∧
    (∃ c ∈ s.calls, c.phase = .returned ∧ c.acked = true ∧ c.held = true) ∧
    ∀ c ∈ s.calls, (c.phase = .returned → c.acked = true → c.held = true → c.triggered = true) ∧
      ∀ e, c.phase ≠ .raised e :=
  ⟨_, rfl, by decide, acknowledged_triggered
    [.handOver 7, .handOver 8, .register 1, .register 0, .acknowledge 0]
    (by decide) rfl⟩

/-- The acknowledgement is handled between the hand-over and the registration. -/
theorem acknowledgement_lost : ¬ ∀ actions s, Transition.run step initial actions = some s →
    ∀ c ∈ s.calls, c.phase = .returned → c.acked = true → c.held = true → c.triggered = true := by
  intro h
  have hlost := h [.handOver 7, .acknowledge 0, .register 0] _ rfl
  revert hlost
  decide

end Publishing

end MqttExporter
