import MqttExporter.Base.Interleaving
import MqttExporter.App

/-!
# Scrapes at the same time

The server runs two handler threads on the one `MetricsHandler`, and a call puts
its response together in a member of it. Every interleaving of the steps of two
calls is considered, each step taken as atomic.
-/

namespace MqttExporter

open Interleaving

/-- The member `_output`, and what the two calls have written to their connections. -/
structure MetricsHandler where
  output : Str
  written : Bool → Option Str

namespace MetricsHandler

inductive Step where
  | clear
  | copy
  /-- The text of a family and its newline, by the family's place in the registry. -/
  | append (i : ℕ)
  | eof
  | write
  deriving DecidableEq

/-- `MetricsHandler::handleGet` with `n` families in the registry. -/
def handleGet (n : ℕ) : List Step :=
  .clear :: .copy :: ((List.range n).map .append ++ [.eof, .write])

/-- One step of a call; `text c i` is what `stringify` returns to call `c`. -/
def exec (text : Bool → ℕ → Str) (h : MetricsHandler) : Bool × Step → MetricsHandler
  | (_, .clear) => { h with output := [] }
  | (_, .copy) => h
  | (c, .append i) => { h with output := h.output ++ (text c i ++ "\n".toList) }
  | (_, .eof) => { h with output := h.output ++ "# EOF\n".toList }
  | (c, .write) => { h with written := Function.update h.written c (some h.output) }

def run (text : Bool → ℕ → Str) (h : MetricsHandler) (trace : List (Bool × Step)) :
    MetricsHandler :=
  trace.foldl (exec text) h

/-- The body of one response. -/
def response (n : ℕ) (text : ℕ → Str) : Str :=
  (List.range n).flatMap (fun i => text i ++ "\n".toList) ++ "# EOF\n".toList

/-- That of the call as a whole, when nothing comes in between. -/
theorem handleGet_response {lib : Libraries} {app : App} {n : ℕ} {text : ℕ → Str}
    (h : app.metrics.entries.mapM (fun e => e.2.stringify lib) = some ((List.range n).map text)) :
    app.handleGet lib = some (response n text) := by
  rw [App.handleGet, h]
  simp [response, List.flatMap_map]

/-! ## What the steps do -/

/-- What a step appends. -/
def bytes (text : Bool → ℕ → Str) : Bool × Step → Str
  | (c, .append i) => text c i ++ "\n".toList
  | (_, .eof) => "# EOF\n".toList
  | (_, .clear) | (_, .copy) | (_, .write) => []

theorem run_append (text : Bool → ℕ → Str) (h : MetricsHandler) (t t' : List (Bool × Step)) :
    run text h (t ++ t') = run text (run text h t) t' :=
  List.foldl_append

theorem run_cons (text : Bool → ℕ → Str) (h : MetricsHandler) (x : Bool × Step)
    (t : List (Bool × Step)) : run text h (x :: t) = run text (exec text h x) t := rfl

theorem output_clear (text : Bool → ℕ → Str) (h : MetricsHandler) (c : Bool) :
    (exec text h (c, .clear)).output = [] := rfl

theorem written_write (text : Bool → ℕ → Str) (h : MetricsHandler) (c : Bool) :
    (exec text h (c, .write)).written c = some h.output := Function.update_self ..

/-- Until the next `clear`, whoever it is by, the buffer grows. -/
theorem output_run (text : Bool → ℕ → Str) {t : List (Bool × Step)}
    (ht : ∀ c, (c, Step.clear) ∉ t) (h : MetricsHandler) :
    (run text h t).output = h.output ++ t.flatMap (bytes text) := by
  induction t generalizing h with
  | nil => simp [run]
  | cons x xs ih =>
    rw [run_cons, ih fun c hc => ht c (List.mem_cons_of_mem x hc), List.flatMap_cons]
    obtain ⟨c, s⟩ := x
    cases s with
    | clear => exact absurd List.mem_cons_self (ht c)
    | copy | write => rfl
    | append i | eof => exact List.append_assoc _ _ _

theorem written_run (text : Bool → ℕ → Str) {c : Bool} {t : List (Bool × Step)}
    (ht : (c, Step.write) ∉ t) (h : MetricsHandler) :
    (run text h t).written c = h.written c := by
  induction t generalizing h with
  | nil => rfl
  | cons x xs ih =>
    rw [run_cons, ih fun hc => ht (List.mem_cons_of_mem x hc)]
    obtain ⟨d, s⟩ := x
    cases s with
    | clear => rfl
    | copy => rfl
    | append i => rfl
    | eof => rfl
    | write =>
      have hne : c ≠ d := fun heq => ht (heq ▸ List.mem_cons_self)
      simp [exec, Function.update_of_ne hne]

/-! ## One call after the other -/

/-- The steps between the first and the last. -/
def inner (n : ℕ) : List Step := .copy :: ((List.range n).map .append ++ [.eof])

theorem handleGet_eq (n : ℕ) : handleGet n = .clear :: (inner n ++ [.write]) := by
  simp [handleGet, inner]

theorem clear_not_mem (n : ℕ) : Step.clear ∉ inner n ++ [.write] := by
  simp [inner]

theorem write_not_mem (n : ℕ) : Step.write ∉ inner n := by
  simp [inner]

theorem bytes_inner (text : Bool → ℕ → Str) (c : Bool) (n : ℕ) :
    (alone c (inner n)).flatMap (bytes text) = response n (text c) := by
  have hsteps : alone c (inner n) =
      (c, Step.copy) :: ((List.range n).map (fun i => (c, Step.append i)) ++ [(c, .eof)]) := by
    simp [alone, inner]
  rw [hsteps, List.flatMap_cons, List.flatMap_append, List.flatMap_map, List.flatMap_singleton]
  rfl

/-- A call that nothing interrupts writes its own response. -/
theorem run_alone (text : Bool → ℕ → Str) (h : MetricsHandler) (c : Bool) (n : ℕ) :
    (run text h (alone c (handleGet n))).written =
      Function.update h.written c (some (response n (text c))) := by
  have hclear : ∀ d, (d, Step.clear) ∉ alone c (inner n) := by
    intro d hd
    obtain ⟨s, hs, heq⟩ := List.mem_map.mp hd
    cases heq
    exact clear_not_mem n (List.mem_append_left _ hs)
  have hwritten : ∀ d, (run text { h with output := [] } (alone c (inner n))).written d =
      h.written d := by
    intro d
    apply written_run
    intro hd
    obtain ⟨s, hs, heq⟩ := List.mem_map.mp hd
    cases heq
    exact write_not_mem n hs
  have houtput := output_run text hclear { h with output := [] }
  rw [bytes_inner, List.nil_append] at houtput
  have hsteps : alone c (handleGet n) =
      (c, Step.clear) :: (alone c (inner n) ++ [(c, Step.write)]) := by
    rw [handleGet_eq]
    simp [alone]
  rw [hsteps, run_cons, run_append]
  change Function.update (run text _ _).written c (some (run text _ _).output) = _
  rw [exec, houtput, funext hwritten]

theorem serial_written {n : ℕ} {trace : List (Bool × Step)}
    (hserial : Serial (fun _ => handleGet n) trace) (text : Bool → ℕ → Str) (h : MetricsHandler)
    (c : Bool) : (run text h trace).written c = some (response n (text c)) := by
  obtain ⟨d, rfl⟩ := hserial
  rw [run_append, run_alone, run_alone]
  by_cases hc : c = d
  · subst hc
    simp
  · rw [Bool.eq_not.mpr hc]
    simp

/-! ## Calls that overlap -/

/-- Texts that tell the calls apart. -/
def mark (c : Bool) : Char := if c then 'a' else 'b'

def IsAppend (c : Bool) (x : Bool × Step) : Prop := ∃ i, x = (c, .append i)

instance (c : Bool) (x : Bool × Step) : Decidable (IsAppend c x) :=
  match x with
  | (d, .append i) =>
    decidable_of_iff (d = c) ⟨fun h => ⟨i, h ▸ rfl⟩, fun ⟨_, h⟩ => by cases h; rfl⟩
  | (_, .clear) | (_, .copy) | (_, .eof) | (_, .write) => .isFalse fun ⟨_, h⟩ => by cases h

theorem count_bytes (c : Bool) (x : Bool × Step) :
    (bytes (fun d _ => [mark d]) x).count (mark c) = if IsAppend c x then 1 else 0 := by
  obtain ⟨d, s⟩ := x
  have hno : ∀ s : Step, (∀ i, s ≠ .append i) → ¬ IsAppend c (d, s) := by
    rintro s hs ⟨i, heq⟩
    cases heq
    exact hs i rfl
  cases s with
  | append i =>
    by_cases hd : d = c
    · subst hd
      rw [if_pos ⟨i, rfl⟩]
      cases d <;> rfl
    · rw [if_neg fun ⟨j, heq⟩ => hd (by cases heq; rfl), Bool.eq_not.mpr hd]
      cases c <;> rfl
  | clear => rw [if_neg (hno _ (by simp))]; rfl
  | copy => rw [if_neg (hno _ (by simp))]; rfl
  | write => rw [if_neg (hno _ (by simp))]; rfl
  | eof =>
    rw [if_neg (hno _ (by simp))]
    cases c <;> rfl

theorem count_output (c : Bool) (t : List (Bool × Step)) :
    (t.flatMap (bytes fun d _ => [mark d])).count (mark c) = t.countP fun x => IsAppend c x := by
  induction t with
  | nil => rfl
  | cons x xs ih =>
    rw [List.flatMap_cons, List.count_append, ih, count_bytes, List.countP_cons, Nat.add_comm]
    by_cases h : IsAppend c x <;> simp [h]

theorem count_response (n : ℕ) (c d : Bool) :
    (response n fun _ => [mark d]).count (mark c) = if d = c then n else 0 := by
  have hline : ∀ k, ((List.range k).flatMap fun _ => [mark d] ++ "\n".toList).count (mark c) =
      if d = c then k else 0 := by
    intro k
    induction k with
    | zero => simp
    | succ k ih =>
      rw [List.range_succ, List.flatMap_append, List.count_append, ih]
      cases c <;> cases d <;> rfl
  have heof : "# EOF\n".toList.count (mark c) = 0 := by cases c <;> rfl
  rw [response, List.count_append, hline, heof, Nat.add_zero]

/-- Where a call writes its own response, its own appends and no others have
come since the last `clear`. -/
theorem appends_at_write {n : ℕ} {h : MetricsHandler} {pre u v : List (Bool × Step)} {c d : Bool}
    (hclear : ∀ e, (e, Step.clear) ∉ u) (hlast : (d, Step.write) ∉ v)
    (hw : (run (fun e _ => [mark e]) h (pre ++ (c, .clear) :: (u ++ (d, .write) :: v))).written d =
      some (response n fun _ => [mark d])) (e : Bool) :
    (u.countP fun x => IsAppend e x) = if d = e then n else 0 := by
  rw [run_append, run_cons, run_append, run_cons, written_run _ hlast, written_write,
    output_run _ hclear, output_clear, List.nil_append] at hw
  have hcount := congrArg (List.count (mark e)) (Option.some.inj hw)
  rwa [count_output, count_response] at hcount

/-- What is left of a call that has begun ends with its write. -/
theorem rest_of_call {n : ℕ} {done rest : List Step} (hdone : done ≠ []) (hrest : rest ≠ [])
    (h : done ++ rest = handleGet n) :
    ∃ w, rest = w ++ [.write] ∧ Step.clear ∉ rest := by
  obtain ⟨first, done, rfl⟩ := List.exists_cons_of_ne_nil hdone
  have htail : done ++ rest = inner n ++ [.write] := by
    rw [handleGet_eq] at h
    exact (List.cons.inj h).2
  rcases List.eq_nil_or_concat rest with rfl | ⟨w, x, rfl⟩
  · exact absurd rfl hrest
  · rw [List.concat_eq_append] at htail ⊢
    have hclear : Step.clear ∉ w ++ [x] := fun hmem =>
      clear_not_mem n (htail ▸ List.mem_append_right done hmem)
    rw [← List.append_assoc] at htail
    obtain ⟨-, hx⟩ := List.append_inj' htail rfl
    rw [List.singleton_inj.mp hx] at hclear ⊢
    exact ⟨w, rfl, hclear⟩

theorem overlap_mixes {n : ℕ} (hn : n ≠ 0) {trace : List (Bool × Step)}
    (htrace : IsInterleaving (fun _ => handleGet n) trace) {h : MetricsHandler}
    (hall : ∀ text c, (run text h trace).written c = some (response n (text c))) :
    Serial (fun _ => handleGet n) trace := by
  rcases serial_or_overlap (fun _ => by simp [handleGet]) htrace with
    hserial | ⟨c, done, first, post, rfl, hdone, hpost⟩
  · exact hserial
  exfalso
  have hown : done ++ thread c post = handleGet n := by
    have hc : thread c _ = handleGet n := htrace c
    rwa [thread_append, thread_alone_self, thread_cons_ne (by simp)] at hc
  have hother : [first] ++ thread (!c) post = handleGet n := by
    have hc : thread (!c) _ = handleGet n := htrace (!c)
    rwa [thread_append, thread_alone_other, thread_cons_self] at hc
  have hfirst : first = .clear := by
    rw [handleGet_eq] at hother
    exact (List.cons.inj hother).1
  have hpost' : thread (!c) post ≠ [] := by
    intro hnil
    rw [hnil, handleGet_eq] at hother
    simp at hother
  subst hfirst
  obtain ⟨w, hw, hclear⟩ := rest_of_call hdone hpost hown
  obtain ⟨w', hw', hclear'⟩ := rest_of_call (by simp) hpost' hother
  have hnoclear : ∀ e, (e, Step.clear) ∉ post := by
    intro e he
    rcases Bool.eq_or_eq_not e c with rfl | rfl
    · exact hclear (mem_thread.mpr he)
    · exact hclear' (mem_thread.mpr he)
  -- from the later `clear` on, both calls append all of their texts before they write
  have happends : ∀ d w, thread d post = w ++ [.write] → ∃ u, u <+: post ∧
      ∀ e, (u.countP fun x => IsAppend e x) = if d = e then n else 0 := by
    intro d w hd
    obtain ⟨u, v, rfl, -, hv⟩ := split_step hd
    refine ⟨u, List.prefix_append u _, fun e => ?_⟩
    have hlast : (d, Step.write) ∉ v := fun hmem => by
      rw [← mem_thread, hv] at hmem
      cases hmem
    exact appends_at_write (fun e he => hnoclear e (List.mem_append_left _ he)) hlast
      (hall (fun e _ => [mark e]) d) e
  obtain ⟨u, hu, hcount⟩ := happends c w hw
  obtain ⟨u', hu', hcount'⟩ := happends (!c) w' hw'
  -- so the one that writes later writes what the other has appended as well
  rcases List.prefix_or_prefix_of_prefix hu hu' with hle | hle
  · have hmono := hle.sublist.countP_le (p := fun x => decide (IsAppend c x))
    rw [hcount, hcount'] at hmono
    simp at hmono
    exact hn hmono
  · have hmono := hle.sublist.countP_le (p := fun x => decide (IsAppend (!c) x))
    rw [hcount, hcount'] at hmono
    simp at hmono
    exact hn hmono

/-- Both calls write their own response, whatever the texts are, exactly if one
runs after the other. Without a family only the first part is left. -/
theorem unmixed_iff_serial (h : MetricsHandler) {n : ℕ} {trace : List (Bool × Step)}
    (htrace : IsInterleaving (fun _ => handleGet n) trace) :
    (Serial (fun _ => handleGet n) trace →
      ∀ text c, (run text h trace).written c = some (response n (text c))) ∧
    (n ≠ 0 → (∀ text c, (run text h trace).written c = some (response n (text c))) →
      Serial (fun _ => handleGet n) trace) :=
  ⟨fun hserial text c => serial_written hserial text h c,
    fun hn hall => overlap_mixes hn htrace hall⟩

/-- Before the server has answered a request. -/
def initial : MetricsHandler := ⟨[], fun _ => none⟩

theorem unmixed_serial :
    (run (fun c _ => if c then "a".toList else "b".toList) initial
      (alone true (handleGet 2) ++ alone false (handleGet 2))).written false =
      some "b\nb\n# EOF\n".toList := by
  have htrace : IsInterleaving (fun _ => handleGet 2)
      (alone true (handleGet 2) ++ alone false (handleGet 2)) := by
    intro c
    cases c <;> rfl
  exact (unmixed_iff_serial initial htrace).1 ⟨true, rfl⟩ _ false

/-- The second call clears the buffer while the first is appending to it. -/
def mixedTrace : List (Bool × Step) :=
  [(true, .clear), (true, .copy), (true, .append 0), (false, .clear), (false, .copy),
   (true, .eof), (true, .write), (false, .append 0), (false, .eof), (false, .write)]

theorem mixed_output :
    IsInterleaving (fun _ => handleGet 1) mixedTrace ∧
      (run (fun _ _ => "x".toList) initial mixedTrace).written true = some "# EOF\n".toList ∧
      (run (fun _ _ => "x".toList) initial mixedTrace).written false =
        some "# EOF\nx\n# EOF\n".toList ∧
      response 1 (fun _ => "x".toList) = "x\n# EOF\n".toList := by
  refine ⟨fun c => ?_, by rfl, by rfl, by rfl⟩
  cases c <;> rfl

end MetricsHandler

end MqttExporter
