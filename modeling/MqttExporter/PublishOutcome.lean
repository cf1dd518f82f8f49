import MqttExporter.Base.History
import MqttExporter.Publish

/-!
# What becomes of a publish call

The outcome of a call, read off the order in which registrations and
acknowledgements were handled. A mid is in use from a registration under it to
the next acknowledgement of it.

* `Recorded`, `recorded_run`: what the state says of that order;
* `publish_outcome`: when a call raises, and when its ticket is triggered.
-/

namespace MqttExporter

namespace Publishing

open Transition

/-! ## The order of the actions

`mids` says which mid each call was given. -/

section

variable (mids : ℕ → Option Int)

def Registers (m : Int) (a : PublishAction) : Prop := ∃ i, a = .register i ∧ mids i = some m

def Acknowledges (m : Int) (a : PublishAction) : Prop := ∃ i, a = .acknowledge i ∧ mids i = some m

/-- Under `m` a ticket was registered, and since then no acknowledgement came. -/
def InUse (actions : List PublishAction) (m : Int) : Prop :=
  Since (Registers mids m) (Acknowledges mids m) actions

/-- The ticket of call `i` is the one that the next acknowledgement of `m` finds. -/
def Awaits (actions : List PublishAction) (i : ℕ) (m : Int) : Prop :=
  ∃ before after, actions = before ++ .register i :: after ∧ mids i = some m ∧
    ¬ InUse mids before m ∧ ∀ a ∈ after, ¬ Acknowledges mids m a

/-- Call `i` came to register while its mid was in use. -/
def Collides (actions : List PublishAction) (i : ℕ) (m : Int) : Prop :=
  ∃ before after, actions = before ++ .register i :: after ∧ InUse mids before m

/-- The acknowledgement that found the ticket of call `i` came while the caller
had not dropped it. -/
def Confirmed (actions : List PublishAction) (i : ℕ) (m : Int) : Prop :=
  ∃ before a after, actions = before ++ a :: after ∧ Awaits mids before i m ∧
    Acknowledges mids m a ∧ .drop i ∉ before

/-- The acknowledgement of call `i` was handled before the call registered. -/
def Early (actions : List PublishAction) (i : ℕ) : Prop :=
  ∃ before after, actions = before ++ .register i :: after ∧ .acknowledge i ∈ before

end

variable {mids : ℕ → Option Int} {actions : List PublishAction} {a : PublishAction} {i : ℕ}
  {m : Int}

theorem awaits_snoc : Awaits mids (actions ++ [a]) i m ↔
    (a = .register i ∧ mids i = some m ∧ ¬ InUse mids actions m) ∨
      (¬ Acknowledges mids m a ∧ Awaits mids actions i m) := by
  constructor
  · rintro ⟨before, after, heq, hmid, hfree, hafter⟩
    rcases split_snoc.mp heq with ⟨rfl, rfl, -⟩ | ⟨rest, rfl, rfl⟩
    · exact Or.inl ⟨rfl, hmid, hfree⟩
    · exact Or.inr ⟨hafter a (by simp), before, rest, rfl, hmid, hfree,
        fun b hb => hafter b (List.mem_append_left _ hb)⟩
  · rintro (⟨rfl, hmid, hfree⟩ | ⟨ha, before, rest, rfl, hmid, hfree, hrest⟩)
    · exact ⟨actions, [], rfl, hmid, hfree, fun b hb => absurd hb List.not_mem_nil⟩
    · refine ⟨before, rest ++ [a], by simp, hmid, hfree, fun b hb => ?_⟩
      rcases List.mem_append.mp hb with hb | hb
      · exact hrest b hb
      · rwa [List.mem_singleton.mp hb]

theorem collides_snoc : Collides mids (actions ++ [a]) i m ↔
    (a = .register i ∧ InUse mids actions m) ∨ Collides mids actions i m := by
  constructor
  · rintro ⟨before, after, heq, huse⟩
    rcases split_snoc.mp heq with ⟨rfl, rfl, -⟩ | ⟨rest, rfl, -⟩
    · exact Or.inl ⟨rfl, huse⟩
    · exact Or.inr ⟨before, rest, rfl, huse⟩
  · rintro (⟨rfl, huse⟩ | ⟨before, after, rfl, huse⟩)
    · exact ⟨actions, [], rfl, huse⟩
    · exact ⟨before, after ++ [a], by simp, huse⟩

theorem confirmed_snoc : Confirmed mids (actions ++ [a]) i m ↔
    (Awaits mids actions i m ∧ Acknowledges mids m a ∧ .drop i ∉ actions) ∨
      Confirmed mids actions i m := by
  constructor
  · rintro ⟨before, x, after, heq, hawaits, hx, hdrop⟩
    rcases split_snoc.mp heq with ⟨rfl, rfl, -⟩ | ⟨rest, rfl, -⟩
    · exact Or.inl ⟨hawaits, hx, hdrop⟩
    · exact Or.inr ⟨before, x, rest, rfl, hawaits, hx, hdrop⟩
  · rintro (⟨hawaits, ha, hdrop⟩ | ⟨before, x, after, rfl, hawaits, hx, hdrop⟩)
    · exact ⟨actions, a, [], rfl, hawaits, ha, hdrop⟩
    · exact ⟨before, x, after ++ [a], by simp, hawaits, hx, hdrop⟩

theorem early_snoc (h : Early actions i) : Early (actions ++ [a]) i := by
  obtain ⟨before, after, rfl, hack⟩ := h
  exact ⟨before, after ++ [a], by simp, hack⟩

theorem Awaits.registered (h : Awaits mids actions i m) : .register i ∈ actions := by
  obtain ⟨before, after, rfl, -⟩ := h
  simp

/-- A ticket that still waits, though its call was acknowledged, came too late. -/
theorem Awaits.early (h : Awaits mids actions i m) (hack : .acknowledge i ∈ actions) :
    Early actions i := by
  obtain ⟨before, after, rfl, hmid, -, hafter⟩ := h
  refine ⟨before, after, rfl, ?_⟩
  rcases List.mem_append.mp hack with hack | hack
  · exact hack
  · rcases List.mem_cons.mp hack with heq | hack
    · cases heq
    · exact absurd ⟨i, rfl, hmid⟩ (hafter _ hack)

/-! ## What the state says of it -/

/-- What a call shows of the actions so far. -/
structure Told (mids : ℕ → Option Int) (actions : List PublishAction) (i : ℕ)
    (c : PublishCall) : Prop where
  mid : mids i = some c.mid
  handedOver : c.phase = .handedOver ↔ .register i ∉ actions
  raised : (∃ e, c.phase = .raised e) ↔ Collides mids actions i c.mid
  early : (∃ e, c.phase = .raised e) → ∃ j, mids j = some c.mid ∧ Early actions j
  held : c.held = true ↔ c.phase = .returned ∧ .drop i ∉ actions
  dropped : .drop i ∈ actions → c.phase = .returned
  acked : c.acked = true ↔ .acknowledge i ∈ actions
  triggered : c.triggered = true ↔ Confirmed mids actions i c.mid

/-- `_messageTickets` and the calls show the order of the actions. -/
structure Recorded (mids : ℕ → Option Int) (actions : List PublishAction) (s : Publishing) :
    Prop where
  used : ∀ m, (∃ i, s.messageTickets.find? m = some i) ↔ InUse mids actions m
  ticket : ∀ m i, s.messageTickets.find? m = some i ↔ Awaits mids actions i m
  returned : ∀ m i, s.messageTickets.find? m = some i →
    ∃ c, s.calls[i]? = some c ∧ c.mid = m ∧ c.phase = .returned
  unborn : ∀ i, s.calls.length ≤ i →
    .register i ∉ actions ∧ .acknowledge i ∉ actions ∧ .drop i ∉ actions
  told : ∀ i c, s.calls[i]? = some c → Told mids actions i c

/-- An action that neither is of the call nor acknowledges its ticket. -/
theorem Told.keep {c : PublishCall} (h : Told mids actions i c) (hreg : a ≠ .register i)
    (hack : a ≠ .acknowledge i) (hdrop : a ≠ .drop i)
    (hquiet : Awaits mids actions i c.mid → ¬ Acknowledges mids c.mid a) :
    Told mids (actions ++ [a]) i c where
  mid := h.mid
  handedOver := by simpa [hreg.symm] using h.handedOver
  raised := by
    rw [collides_snoc, h.raised]
    exact ⟨Or.inr, fun hor => hor.resolve_left fun hfirst => hreg hfirst.1⟩
  early hraised := by
    obtain ⟨j, hj, hearly⟩ := h.early hraised
    exact ⟨j, hj, early_snoc hearly⟩
  held := by simpa [hdrop.symm] using h.held
  dropped hmem := h.dropped (by simpa [hdrop.symm] using hmem)
  acked := by simpa [hack.symm] using h.acked
  triggered := by
    rw [confirmed_snoc, h.triggered]
    exact ⟨Or.inr, fun hor => hor.resolve_left fun hfirst => hquiet hfirst.1 hfirst.2.1⟩

/-- An action that registers nothing and acknowledges nothing leaves the tickets. -/
theorem Recorded.tickets {s : Publishing} (hr : Recorded mids actions s)
    (hreg : ∀ m, ¬ Registers mids m a) (hack : ∀ m, ¬ Acknowledges mids m a) :
    (∀ m, (∃ i, s.messageTickets.find? m = some i) ↔ InUse mids (actions ++ [a]) m) ∧
    ∀ m i, s.messageTickets.find? m = some i ↔ Awaits mids (actions ++ [a]) i m := by
  refine ⟨fun m => ?_, fun m i => ?_⟩
  · rw [hr.used, InUse, InUse, since_snoc]
    simp [hreg m, hack m]
  · rw [hr.ticket, awaits_snoc]
    refine ⟨fun hawaits => Or.inr ⟨hack m, hawaits⟩, ?_⟩
    rintro (⟨rfl, hmid, -⟩ | ⟨-, hawaits⟩)
    · exact absurd ⟨i, rfl, hmid⟩ (hreg m)
    · exact hawaits

theorem recorded_handOver {s : Publishing} (hr : Recorded mids actions s) {mid : Int}
    (hmid : mids s.calls.length = some mid) :
    Recorded mids (actions ++ [.handOver mid])
      { s with calls := s.calls ++ [⟨mid, .handedOver, false, false, false⟩] } := by
  have htickets := hr.tickets (a := .handOver mid)
    (fun m h => by obtain ⟨i, hi, -⟩ := h; cases hi)
    (fun m h => by obtain ⟨i, hi, -⟩ := h; cases hi)
  refine ⟨htickets.1, htickets.2, fun m i hi => ?_, fun i hi => ?_,
    forall_lookup_concat ?_ fun i c hc => ?_⟩
  · obtain ⟨c, hc, hcm, hphase⟩ := hr.returned m i hi
    exact ⟨c, lookup_concat.mpr (Or.inl hc), hcm, hphase⟩
  · obtain ⟨h₁, h₂, h₃⟩ := hr.unborn i (by simp at hi; omega)
    simp [h₁, h₂, h₃]
  · obtain ⟨h₁, h₂, h₃⟩ := hr.unborn s.calls.length le_rfl
    have hcollides : ¬ Collides mids (actions ++ [.handOver mid]) s.calls.length mid := by
      rintro ⟨before, after, heq, -⟩
      have hmem : .register s.calls.length ∈ actions ++ [.handOver mid] := by simp [heq]
      simp [h₁] at hmem
    have hconfirmed : ¬ Confirmed mids (actions ++ [.handOver mid]) s.calls.length mid := by
      rintro ⟨before, x, after, heq, hawaits, -⟩
      have hmem : .register s.calls.length ∈ actions ++ [.handOver mid] := by
        rw [heq]
        exact List.mem_append_left _ hawaits.registered
      simp [h₁] at hmem
    exact ⟨hmid, by simp [h₁], by simp [hcollides], by simp, by simp, by simp [h₃], by simp [h₂],
      by simp [hconfirmed]⟩
  · exact (hr.told i c hc).keep (by simp) (by simp) (by simp)
      fun _ h => by obtain ⟨j, hj, -⟩ := h; cases hj

theorem recorded_refuse {s : Publishing} (hr : Recorded mids actions s) :
    Recorded mids (actions ++ [.refuse]) s := by
  have htickets := hr.tickets (a := .refuse)
    (fun m h => by obtain ⟨i, hi, -⟩ := h; cases hi)
    (fun m h => by obtain ⟨i, hi, -⟩ := h; cases hi)
  refine ⟨htickets.1, htickets.2, hr.returned, fun i hi => ?_, fun i c hc => ?_⟩
  · simpa using hr.unborn i hi
  · exact (hr.told i c hc).keep (by simp) (by simp) (by simp)
      fun _ h => by obtain ⟨j, hj, -⟩ := h; cases hj

/-- Who finds the mid in use of another call met an acknowledgement that came
early: that of the other call, or its own. -/
theorem Recorded.collision {s : Publishing} (hr : Recorded mids actions s) (hs : s.Sound)
    {c : PublishCall} (hc : s.calls[i]? = some c) (hphase : c.phase = .handedOver)
    (huse : InUse mids actions c.mid) :
    ∃ j, mids j = some c.mid ∧ Early (actions ++ [.register i]) j := by
  obtain ⟨k, hk⟩ := (hr.used c.mid).mpr huse
  obtain ⟨d, hd, hmid, hreturned⟩ := hr.returned c.mid k hk
  have hawaits := (hr.ticket c.mid k).mp hk
  rcases lt_trichotomy k i with hlt | rfl | hgt
  · have hacked := hs.reused k i d c hlt hd hc hmid
    have hearly := hawaits.early ((hr.told k d hd).acked.mp hacked)
    exact ⟨k, hmid ▸ (hr.told k d hd).mid, early_snoc hearly⟩
  · rw [hc] at hd
    cases hd
    rw [hphase] at hreturned
    cases hreturned
  · have hacked := hs.reused i k c d hgt hc hd hmid.symm
    exact ⟨i, (hr.told i c hc).mid, actions, [], rfl, (hr.told i c hc).acked.mp hacked⟩

theorem registers_register {mid : Int} (hmid : mids i = some mid) :
    Registers mids m (.register i) ↔ mid = m := by
  constructor
  · rintro ⟨j, hj, hm⟩
    cases hj
    rw [hmid] at hm
    exact Option.some.inj hm
  · rintro rfl
    exact ⟨i, rfl, hmid⟩

theorem acknowledges_acknowledge {mid : Int} (hmid : mids i = some mid) :
    Acknowledges mids m (.acknowledge i) ↔ mid = m := by
  constructor
  · rintro ⟨j, hj, hm⟩
    cases hj
    rw [hmid] at hm
    exact Option.some.inj hm
  · rintro rfl
    exact ⟨i, rfl, hmid⟩

theorem not_acknowledges_register : ¬ Acknowledges mids m (.register i) := by
  rintro ⟨j, hj, -⟩
  cases hj

theorem inUse_register {mid : Int} (hmid : mids i = some mid) :
    InUse mids (actions ++ [.register i]) m ↔ mid = m ∨ InUse mids actions m := by
  rw [InUse, InUse, since_snoc, registers_register hmid]
  simp [not_acknowledges_register]

theorem awaits_register {mid : Int} (hmid : mids i = some mid) {k : ℕ} :
    Awaits mids (actions ++ [.register i]) k m ↔
      (i = k ∧ mid = m ∧ ¬ InUse mids actions m) ∨ Awaits mids actions k m := by
  rw [awaits_snoc]
  simp only [not_acknowledges_register, not_false_eq_true, true_and,
    PublishAction.register.injEq]
  refine or_congr_left ⟨?_, ?_⟩
  · rintro ⟨rfl, hk, hfree⟩
    rw [hmid] at hk
    exact ⟨rfl, Option.some.inj hk, hfree⟩
  · rintro ⟨rfl, rfl, hfree⟩
    exact ⟨rfl, hmid, hfree⟩

/-- A call that has not registered has no ticket. -/
theorem Told.unregistered {c : PublishCall} (h : Told mids actions i c)
    (hphase : c.phase = .handedOver) : c.held = false ∧ .drop i ∉ actions := by
  refine ⟨?_, fun hmem => ?_⟩
  · by_contra hheld
    have hreturned := (h.held.mp (by simpa using hheld)).1
    rw [hphase] at hreturned
    cases hreturned
  · have hreturned := h.dropped hmem
    rw [hphase] at hreturned
    cases hreturned

theorem Recorded.not_ticket {s : Publishing} (hr : Recorded mids actions s) {c : PublishCall}
    (hc : s.calls[i]? = some c) (hphase : c.phase = .handedOver) :
    s.messageTickets.find? m ≠ some i := by
  intro hi
  obtain ⟨d, hd, -, hreturned⟩ := hr.returned m i hi
  rw [hc] at hd
  cases hd
  rw [hphase] at hreturned
  cases hreturned

theorem Recorded.unborn_register {s : Publishing} (hr : Recorded mids actions s)
    (hi : i < s.calls.length) {j : ℕ} (hj : s.calls.length ≤ j) :
    .register j ∉ actions ++ [.register i] ∧ .acknowledge j ∉ actions ++ [.register i] ∧
      .drop j ∉ actions ++ [.register i] := by
  obtain ⟨h₁, h₂, h₃⟩ := hr.unborn j hj
  simp [h₁, h₂, h₃]
  omega

theorem Recorded.register_others {s : Publishing} (hr : Recorded mids actions s) (j : ℕ)
    (d : PublishCall) (hne : i ≠ j) (hd : s.calls[j]? = some d) :
    Told mids (actions ++ [.register i]) j d :=
  (hr.told j d hd).keep (by simpa using hne) (by simp) (by simp) fun _ => not_acknowledges_register

/-- The call finds its mid in use, and raises. -/
theorem recorded_collision {s : Publishing} (hr : Recorded mids actions s) (hs : s.Sound)
    {c : PublishCall} (hc : s.calls[i]? = some c) (hphase : c.phase = .handedOver)
    (huse : InUse mids actions c.mid) :
    Recorded mids (actions ++ [.register i])
      { s with calls := s.calls.set i { c with phase := .raised duplicate } } := by
  have htold := hr.told i c hc
  obtain ⟨hunheld, hundropped⟩ := htold.unregistered hphase
  have hearly := hr.collision hs hc hphase huse
  refine ⟨fun m => ?_, fun m k => ?_, fun m k hk => ?_, fun j hj => ?_,
    forall_lookup_set hc ⟨htold.mid, ?_, ?_, fun _ => hearly, ?_, ?_, ?_, ?_⟩ hr.register_others⟩
  · rw [inUse_register htold.mid, hr.used]
    refine ⟨Or.inr, ?_⟩
    rintro (rfl | huse')
    · exact huse
    · exact huse'
  · rw [awaits_register htold.mid, hr.ticket]
    refine ⟨Or.inr, ?_⟩
    rintro (⟨rfl, rfl, hfree⟩ | hold)
    · exact absurd huse hfree
    · exact hold
  · obtain ⟨d, hd, hmid, hreturned⟩ := hr.returned m k hk
    refine ⟨d, (lookup_set hc).mpr (Or.inr ⟨?_, hd⟩), hmid, hreturned⟩
    rintro rfl
    exact hr.not_ticket hc hphase hk
  · exact hr.unborn_register (List.getElem?_eq_some_iff.mp hc).1 (by simpa using hj)
  · simp
  · exact ⟨fun _ => collides_snoc.mpr (Or.inl ⟨rfl, huse⟩), fun _ => ⟨duplicate, rfl⟩⟩
  · simp [hunheld]
  · simp [hundropped]
  · simpa using htold.acked
  · rw [confirmed_snoc, ← htold.triggered]
    simp [not_acknowledges_register]

/-- The call finds its mid free, and enters its ticket. -/
theorem recorded_entry {s : Publishing} (hr : Recorded mids actions s) {c : PublishCall}
    (hc : s.calls[i]? = some c) (hphase : c.phase = .handedOver)
    (hfree : ¬ InUse mids actions c.mid) :
    Recorded mids (actions ++ [.register i])
      { calls := s.calls.set i { c with phase := .returned, held := true }
        messageTickets := s.messageTickets.set c.mid i } := by
  have htold := hr.told i c hc
  obtain ⟨-, hundropped⟩ := htold.unregistered hphase
  refine ⟨fun m => ?_, fun m k => ?_, fun m k hk => ?_, fun j hj => ?_,
    forall_lookup_set hc ⟨htold.mid, ?_, ?_, ?_, ?_, ?_, ?_, ?_⟩ hr.register_others⟩
  · rw [inUse_register htold.mid, ← hr.used]
    simp only [OrderedMap.find?_set]
    by_cases hm : c.mid = m <;> simp [hm]
  · rw [awaits_register htold.mid, ← hr.ticket]
    simp only [OrderedMap.find?_set]
    by_cases hm : c.mid = m
    · subst hm
      have hfind : s.messageTickets.find? c.mid ≠ some k := fun hk =>
        hfree ((hr.used c.mid).mp ⟨k, hk⟩)
      simp [hfree, hfind]
    · simp [hm]
  · simp only [OrderedMap.find?_set] at hk
    split at hk
    · rename_i hm
      cases hk
      exact ⟨_, (lookup_set hc).mpr (Or.inl ⟨rfl, rfl⟩), hm, rfl⟩
    · obtain ⟨d, hd, hmid, hreturned⟩ := hr.returned m k hk
      refine ⟨d, (lookup_set hc).mpr (Or.inr ⟨?_, hd⟩), hmid, hreturned⟩
      rintro rfl
      exact hr.not_ticket hc hphase hk
  · exact hr.unborn_register (List.getElem?_eq_some_iff.mp hc).1 (by simpa using hj)
  · simp
  · have hcollides : ¬ Collides mids actions i c.mid := fun h => by
      obtain ⟨e, he⟩ := htold.raised.mpr h
      rw [hphase] at he
      cases he
    simp [collides_snoc, hfree, hcollides]
  · simp
  · simp [hundropped]
  · simp
  · simpa using htold.acked
  · rw [confirmed_snoc, ← htold.triggered]
    simp [not_acknowledges_register]

theorem recorded_register {s : Publishing} (hr : Recorded mids actions s) (hs : s.Sound)
    {c : PublishCall} (hc : s.calls[i]? = some c) (hphase : c.phase = .handedOver) :
    Recorded mids (actions ++ [.register i]) (s.register i c) := by
  have hcontains : s.messageTickets.contains c.mid = true ↔ InUse mids actions c.mid := by
    rw [OrderedMap.contains_iff, OrderedMap.mem_keys_iff, hr.used]
  unfold register
  split
  · rename_i hused
    exact recorded_collision hr hs hc hphase (hcontains.mp hused)
  · rename_i hfree
    exact recorded_entry hr hc hphase fun huse => hfree (hcontains.mpr huse)

/-! ## Acknowledgements -/

theorem triggered_trigger (c : PublishCall) :
    (trigger c).triggered = true ↔ c.held = true ∨ c.triggered = true := by
  unfold trigger
  split <;> simp_all

/-- The state after the acknowledgement of call `j` was handled. -/
def acknowledged (s : Publishing) (j : ℕ) (c : PublishCall) : Publishing :=
  onPublished { s with calls := s.calls.set j { c with acked := true } } c.mid

theorem length_acknowledged (s : Publishing) (j : ℕ) (c : PublishCall) :
    (s.acknowledged j c).calls.length = s.calls.length := by
  unfold acknowledged onPublished
  split <;> simp

theorem find?_acknowledged (s : Publishing) (j : ℕ) (c : PublishCall) (m : Int) :
    (s.acknowledged j c).messageTickets.find? m =
      if c.mid = m then none else s.messageTickets.find? m := by
  unfold acknowledged onPublished
  split
  · rename_i hnone
    split
    · rename_i hm
      exact hm ▸ hnone
    · rfl
  · split
    · rename_i hm
      rw [hm]
      exact OrderedMap.find?_erase_self ..
    · rename_i hm
      exact OrderedMap.find?_erase_ne _ hm

/-- A call before and after the acknowledgement of call `j`. -/
structure Acked (s : Publishing) (j : ℕ) (m : Int) (i : ℕ) (d₀ d : PublishCall) : Prop where
  mid : d.mid = d₀.mid
  phase : d.phase = d₀.phase
  held : d.held = d₀.held
  acked : d.acked = true ↔ j = i ∨ d₀.acked = true
  triggered : d.triggered = true ↔
    (s.messageTickets.find? m = some i ∧ d₀.held = true) ∨ d₀.triggered = true

theorem lookup_acknowledged {s : Publishing} {j : ℕ} {c : PublishCall}
    (hc : s.calls[j]? = some c) {d : PublishCall}
    (hd : (s.acknowledged j c).calls[i]? = some d) :
    ∃ d₀, s.calls[i]? = some d₀ ∧ Acked s j c.mid i d₀ d := by
  have hset : ∀ {d : PublishCall}, (s.calls.set j { c with acked := true })[i]? = some d →
      ∃ d₀, s.calls[i]? = some d₀ ∧ d = { d₀ with acked := d.acked } ∧
        (d.acked = true ↔ j = i ∨ d₀.acked = true) := by
    intro d hd
    rcases (lookup_set hc).mp hd with ⟨rfl, rfl⟩ | ⟨hne, hd₀⟩
    · exact ⟨c, hc, rfl, by simp⟩
    · exact ⟨d, hd₀, rfl, by simp [hne]⟩
  unfold acknowledged onPublished at hd
  split at hd
  · rename_i hnone
    obtain ⟨d₀, hd₀, heq, hacked⟩ := hset hd
    rw [heq]
    exact ⟨d₀, hd₀, rfl, rfl, rfl, hacked, by simp [show s.messageTickets.find? c.mid = none from
      hnone]⟩
  · rename_i k hk
    have hfind : s.messageTickets.find? c.mid = some k := hk
    obtain ⟨d₁, hd₁, heq⟩ := lookup_trigger.mp hd
    obtain ⟨d₀, hd₀, heq₁, hacked⟩ := hset hd₁
    refine ⟨d₀, hd₀, ?_⟩
    rw [heq₁] at heq
    by_cases hki : k = i
    · rw [if_pos hki] at heq
      rw [heq]
      exact ⟨by simp, by simp, by simp, by simpa using hacked,
        by simp [triggered_trigger, hfind, hki]⟩
    · rw [if_neg hki] at heq
      rw [heq]
      exact ⟨rfl, rfl, rfl, hacked, by simp [hfind, hki]⟩

theorem recorded_acknowledge {s : Publishing} (hr : Recorded mids actions s) {j : ℕ}
    {c : PublishCall} (hc : s.calls[j]? = some c) :
    Recorded mids (actions ++ [.acknowledge j]) (s.acknowledged j c) := by
  have hmid := (hr.told j c hc).mid
  have hregisters : ∀ m, ¬ Registers mids m (.acknowledge j) := fun m h => by
    obtain ⟨k, hk, -⟩ := h
    cases hk
  refine ⟨fun m => ?_, fun m i => ?_, fun m i hi => ?_, fun i hi => ?_, fun i d hd => ?_⟩
  · rw [find?_acknowledged, InUse, since_snoc, acknowledges_acknowledge hmid, ← InUse, ← hr.used]
    by_cases hm : c.mid = m <;> simp [hm, hregisters]
  · rw [find?_acknowledged, awaits_snoc, acknowledges_acknowledge hmid, ← hr.ticket]
    by_cases hm : c.mid = m <;> simp [hm]
  · rw [find?_acknowledged] at hi
    split at hi
    · cases hi
    · obtain ⟨d₀, hd₀, hdm, hreturned⟩ := hr.returned m i hi
      have hlt : i < (s.acknowledged j c).calls.length := by
        rw [length_acknowledged]
        exact (List.getElem?_eq_some_iff.mp hd₀).1
      have hd := List.getElem?_eq_getElem hlt
      obtain ⟨d₁, hd₁, hchange⟩ := lookup_acknowledged hc hd
      rw [hd₀] at hd₁
      cases hd₁
      exact ⟨_, hd, hchange.mid.trans hdm, hchange.phase.trans hreturned⟩
  · rw [length_acknowledged] at hi
    have hlt := (List.getElem?_eq_some_iff.mp hc).1
    obtain ⟨h₁, h₂, h₃⟩ := hr.unborn i hi
    simp [h₁, h₂, h₃]
    omega
  · obtain ⟨d₀, hd₀, hchange⟩ := lookup_acknowledged hc hd
    have htold := hr.told i d₀ hd₀
    refine ⟨by rw [hchange.mid, htold.mid], ?_, ?_, ?_, ?_, ?_, ?_, ?_⟩
    · rw [hchange.phase, htold.handedOver]
      simp
    · rw [hchange.phase, hchange.mid, htold.raised, collides_snoc]
      simp
    · rw [hchange.phase, hchange.mid]
      intro hraised
      obtain ⟨k, hk, hearly⟩ := htold.early hraised
      exact ⟨k, hk, early_snoc hearly⟩
    · rw [hchange.held, hchange.phase, htold.held]
      simp
    · rw [hchange.phase]
      intro hmem
      exact htold.dropped (by simpa using hmem)
    · rw [hchange.acked, htold.acked]
      simp [or_comm, eq_comm]
    · rw [hchange.triggered, hchange.mid, confirmed_snoc, acknowledges_acknowledge hmid,
        htold.triggered, htold.held]
      -- the ticket that is found is that of a call which has returned
      refine or_congr_left ⟨?_, ?_⟩
      · rintro ⟨hfind, -, hdrop⟩
        obtain ⟨d₁, hd₁, hdm, -⟩ := hr.returned c.mid i hfind
        rw [hd₀] at hd₁
        cases hd₁
        rw [hdm]
        exact ⟨(hr.ticket c.mid i).mp hfind, rfl, hdrop⟩
      · rintro ⟨hawaits, hm, hdrop⟩
        rw [← hm] at hawaits
        have hfind := (hr.ticket c.mid i).mpr hawaits
        obtain ⟨d₁, hd₁, -, hreturned⟩ := hr.returned c.mid i hfind
        rw [hd₀] at hd₁
        cases hd₁
        exact ⟨hfind, hreturned, hdrop⟩

theorem recorded_drop {s : Publishing} (hr : Recorded mids actions s) {c : PublishCall}
    (hc : s.calls[i]? = some c) (hheld : c.held = true) :
    Recorded mids (actions ++ [.drop i])
      { s with calls := s.calls.set i { c with held := false } } := by
  have htold := hr.told i c hc
  have hacknowledges : ∀ m, ¬ Acknowledges mids m (.drop i) := fun m h => by
    obtain ⟨k, hk, -⟩ := h
    cases hk
  have htickets := hr.tickets (a := .drop i)
    (fun m h => by obtain ⟨k, hk, -⟩ := h; cases hk) hacknowledges
  refine ⟨htickets.1, htickets.2, fun m j hj => ?_, fun j hj => ?_, forall_lookup_set hc
    ⟨htold.mid, by simpa using htold.handedOver, ?_, fun hraised => ?_, by simp,
      fun _ => (htold.held.mp hheld).1, by simpa using htold.acked, ?_⟩ fun j d hne hd => ?_⟩
  · obtain ⟨d, hd, hdm, hreturned⟩ := hr.returned m j hj
    by_cases hij : i = j
    · subst hij
      rw [hc] at hd
      cases hd
      exact ⟨_, (lookup_set hc).mpr (Or.inl ⟨rfl, rfl⟩), hdm, hreturned⟩
    · exact ⟨d, (lookup_set hc).mpr (Or.inr ⟨hij, hd⟩), hdm, hreturned⟩
  · have hlt := (List.getElem?_eq_some_iff.mp hc).1
    obtain ⟨h₁, h₂, h₃⟩ := hr.unborn j (by simpa using hj)
    have hne : j ≠ i := by
      rintro rfl
      simp at hj
      omega
    simp [h₁, h₂, h₃, hne]
  · rw [collides_snoc, htold.raised]
    simp
  · obtain ⟨k, hk, hearly⟩ := htold.early hraised
    exact ⟨k, hk, early_snoc hearly⟩
  · rw [confirmed_snoc, ← htold.triggered]
    simp [hacknowledges]
  · exact (hr.told j d hd).keep (by simp) (by simp) (by simpa using hne)
      fun _ => hacknowledges _

/-! ## Runs -/

theorem recorded_initial (mids : ℕ → Option Int) : Recorded mids [] initial := by
  refine ⟨fun m => ⟨fun h => ?_, fun h => absurd h not_since_nil⟩, fun m i => ⟨fun h => ?_, ?_⟩,
    fun m i h => ?_, fun i _ => by simp, fun i c h => by cases h⟩
  · obtain ⟨i, hi⟩ := h
    cases hi
  · cases h
  · rintro ⟨before, after, heq, -⟩
    simp at heq
  · cases h

/-- Calls keep their mids. -/
theorem mid_step {s s' : Publishing} (h : s.step a = some s') {c : PublishCall}
    (hc : s.calls[i]? = some c) : ∃ c', s'.calls[i]? = some c' ∧ c'.mid = c.mid := by
  have hset : ∀ {j : ℕ} {d d' : PublishCall}, s.calls[j]? = some d → d'.mid = d.mid →
      ∃ c', (s.calls.set j d')[i]? = some c' ∧ c'.mid = c.mid := by
    intro j d d' hd hmid
    by_cases hj : j = i
    · subst hj
      rw [hc] at hd
      cases hd
      exact ⟨d', (lookup_set hc).mpr (Or.inl ⟨rfl, rfl⟩), hmid⟩
    · exact ⟨c, (lookup_set hd).mpr (Or.inr ⟨hj, hc⟩), rfl⟩
  obtain ⟨mid, rfl, -, rfl⟩ | ⟨rfl, rfl⟩ | ⟨j, d, rfl, hd, -, rfl⟩ |
    ⟨j, d, rfl, hd, -, rfl⟩ | ⟨j, d, rfl, hd, -, rfl⟩ := step_cases h
  · exact ⟨c, lookup_concat.mpr (Or.inl hc), rfl⟩
  · exact ⟨c, hc, rfl⟩
  · unfold register
    split <;> exact hset hd rfl
  · have hlt : i < (s.acknowledged j d).calls.length := by
      rw [length_acknowledged]
      exact (List.getElem?_eq_some_iff.mp hc).1
    have hc' := List.getElem?_eq_getElem hlt
    obtain ⟨c₀, hc₀, hchange⟩ := lookup_acknowledged hd hc'
    rw [hc] at hc₀
    cases hc₀
    exact ⟨_, hc', hchange.mid⟩
  · exact hset hd rfl

theorem recorded_step {s s' : Publishing} (hr : Recorded mids actions s) (hs : s.Sound)
    (hmids : ∀ i c, s'.calls[i]? = some c → mids i = some c.mid) (h : s.step a = some s') :
    Recorded mids (actions ++ [a]) s' := by
  obtain ⟨mid, rfl, -, rfl⟩ | ⟨rfl, rfl⟩ | ⟨i, c, rfl, hc, hphase, rfl⟩ |
    ⟨i, c, rfl, hc, -, rfl⟩ | ⟨i, c, rfl, hc, hheld, rfl⟩ := step_cases h
  · exact recorded_handOver hr (hmids _ _ (lookup_concat.mpr (Or.inr ⟨rfl, rfl⟩)))
  · exact recorded_refuse hr
  · exact recorded_register hr hs hc hphase
  · exact recorded_acknowledge hr hc
  · exact recorded_drop hr hc hheld

theorem recorded_run {s : Publishing} (h : run step initial actions = some s)
    (hmids : ∀ i c, s.calls[i]? = some c → mids i = some c.mid) : Recorded mids actions s := by
  refine (history_induction (P := fun actions s =>
    (∀ i c, s.calls[i]? = some c → mids i = some c.mid) → Recorded mids actions s ∧ s.Sound)
    ?_ ?_ h hmids).1
  · exact fun _ => ⟨recorded_initial mids, sound_initial⟩
  · intro actions s a s' _ ih hstep hmids
    obtain ⟨hr, hs⟩ := ih fun i c hc => by
      obtain ⟨c', hc', hmid⟩ := mid_step hstep hc
      rw [hmids i c' hc', hmid]
    exact ⟨recorded_step hr hs hmids hstep, step_sound hs hstep⟩

/-- The mids that the calls were given. -/
def midOf (s : Publishing) (i : ℕ) : Option Int := (s.calls[i]?).map PublishCall.mid

/-- A call raises exactly if it came to register while its mid was in use, and
then an acknowledgement of the mid came before its own registration. Its ticket
is triggered exactly if it was registered under a free mid and still held when
the next acknowledgement of the mid was handled. -/
theorem publish_outcome (actions : List PublishAction) (s : Publishing)
    (h : run step initial actions = some s) (i : ℕ) (c : PublishCall)
    (hc : s.calls[i]? = some c) :
    ((∃ e, c.phase = .raised e) ↔ Collides s.midOf actions i c.mid) ∧
    ((∃ e, c.phase = .raised e) → ∃ j, s.midOf j = some c.mid ∧ Early actions j) ∧
    (c.triggered = true ↔ Confirmed s.midOf actions i c.mid) := by
  have hr : Recorded s.midOf actions s := recorded_run h fun j d hd => by
    rw [midOf, hd]
    rfl
  have htold := hr.told i c hc
  exact ⟨htold.raised, htold.early, htold.triggered⟩

/-- The first message is acknowledged before its ticket is registered, and the
mid is given again. -/
theorem publish_outcome_reuse : ∃ s, run step initial
    [.handOver 7, .acknowledge 0, .register 0, .handOver 7, .register 1] = some s ∧
    Collides s.midOf [.handOver 7, .acknowledge 0, .register 0, .handOver 7, .register 1] 1 7 ∧
    ∃ j, s.midOf j = some 7 ∧
      Early [.handOver 7, .acknowledge 0, .register 0, .handOver 7, .register 1] j := by
  obtain ⟨hraised, hearly, -⟩ := publish_outcome
    [.handOver 7, .acknowledge 0, .register 0, .handOver 7, .register 1] _ rfl 1
    ⟨7, .raised duplicate, false, false, false⟩ rfl
  exact ⟨_, rfl, hraised.mp ⟨duplicate, rfl⟩, hearly ⟨duplicate, rfl⟩⟩

end Publishing

end MqttExporter
