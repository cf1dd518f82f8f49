import Mathlib.Logic.Function.Basic
import MqttExporter.Base.Transition
import MqttExporter.HistogramCounts

/-!
# A scrape of a histogram while it is sampled

The lock of a family guards the copying of the pointers only: `stringify` reads
the buckets one by one while `newSample` increments them one by one, both from
the greatest bound down. The values read are those of one moment or another, and
they are cumulative as long as no call is overtaken by the pass and then
overtakes it.
-/

namespace MqttExporter

open Transition
open Histogram hiding run

structure Scrape where
  buckets : List Bucket
  /-- The sample of the call in progress, and the bucket it comes to next. -/
  call : Option (Double × ℕ)
  /-- The points read so far, as they were then. -/
  printed : List Bucket
  /-- The call in progress has incremented a bucket that had been read. -/
  behind : Bool

namespace Scrape

inductive Action where
  /-- A call of `newSample` begins. -/
  | sample (payload : Str)
  /-- The next turn of its loop over the buckets. -/
  | loop
  /-- The pass reads the next point. -/
  | read

def step (s : Scrape) : Action → Option Scrape
  | .sample payload =>
    if s.call = none then some { s with call := some (sampleOf payload, 0), behind := false }
    else none
  | .loop =>
    match s.call with
    | none => none
    | some (sample, p) =>
      match s.buckets[p]? with
      | none => some { s with call := none }
      | some b =>
        if sample.le b.le then
          some { s with
            buckets := s.buckets.set p (bump b)
            call := some (sample, p + 1)
            behind := s.behind || p < s.printed.length }
        else some { s with call := none }
  | .read =>
    match s.buckets[s.printed.length]? with
    | none => none
    | some b => some { s with printed := s.printed ++ [b] }

/-- `begin` has taken the points of a new histogram. -/
def start (labels : LabelSet) (bounds : List Double) : Scrape :=
  ⟨(Histogram.create labels bounds).buckets, none, [], false⟩

/-- What the pass prints does not fall from one bound to a greater one. -/
def NonDecreasing (printed : List Bucket) : Prop :=
  ∀ a ∈ printed, ∀ b ∈ printed, a.le.lt b.le = true → a.value.le b.value = true

/-- A call that has incremented a bucket after it was read increments none that
is still to be read. -/
def NoOvertaking (s : Scrape) : Action → Prop
  | .loop => ∀ sample p b, s.call = some (sample, p) → s.buckets[p]? = some b →
      sample.le b.le = true → s.behind = true → p < s.printed.length
  | .sample _ | .read => True

/-! ## The counts that the pass sees -/

/-- The call in progress has counted its sample in bucket `i` before the pass
came there, and will count it in bucket `j`. -/
def Pending (les : List Double) (s : Scrape) (i j : ℕ) : Prop :=
  s.behind = false ∧ s.printed.length ≤ j ∧ ∃ sample p le, s.call = some (sample, p) ∧
    i < p ∧ p ≤ j ∧ les[j]? = some le ∧ sample.le le = true

/-- `w i` is the count of bucket `i`, as it was read if it has been. -/
structure Sees (les : List Double) (s : Scrape) (w : ℕ → ℕ) : Prop where
  bounds : s.buckets.map Bucket.le = les
  read : s.printed.map Bucket.le = les.take s.printed.length
  printed : ∀ i b, s.printed[i]? = some b → b.value = Double.ofInt (min (w i) (2 ^ 53) : ℕ)
  unread : ∀ i b, s.printed.length ≤ i → s.buckets[i]? = some b →
    b.value = Double.ofInt (min (w i) (2 ^ 53) : ℕ)
  order : ∀ i j, i < j → w j ≤ w i ∧ (Pending les s i j → w j < w i)

variable {les : List Double} {s s' : Scrape} {w : ℕ → ℕ}

theorem not_pending_idle (hs : s.call = none) (i j : ℕ) : ¬ Pending les s i j := by
  rintro ⟨-, -, sample, p, le, hcall, -⟩
  rw [hs] at hcall
  cases hcall

/-- Nothing that the pass sees has changed, and nothing is pending. -/
theorem Sees.of_frame (h : Sees les s w) (hb : s'.buckets.map Bucket.le = les)
    (hp : s'.printed = s.printed)
    (hu : ∀ i, s.printed.length ≤ i → s'.buckets[i]? = s.buckets[i]?)
    (hpending : ∀ i j, ¬ Pending les s' i j) : Sees les s' w := by
  refine ⟨hb, ?_, ?_, ?_, ?_⟩
  · rw [hp]
    exact h.read
  · rw [hp]
    exact h.printed
  · intro i b hi hib
    rw [hp] at hi
    rw [hu i hi] at hib
    exact h.unread i b hi hib
  · exact fun i j hij => ⟨(h.order i j hij).1, fun hpend => absurd hpend (hpending i j)⟩

theorem bounds_set {bs : List Bucket} {p : ℕ} {b : Bucket} (hb : bs[p]? = some b) :
    (bs.set p (bump b)).map Bucket.le = bs.map Bucket.le := by
  obtain ⟨hp, rfl⟩ := List.getElem?_eq_some_iff.mp hb
  have hp' : p < (bs.map Bucket.le).length := by rwa [List.length_map]
  have hle : (bump bs[p]).le = (bs.map Bucket.le)[p] := by simp [bump]
  rw [List.map_set, hle, List.set_getElem_self]

theorem sees_read (h : Sees les s w) {b : Bucket} (hb : s.buckets[s.printed.length]? = some b) :
    Sees les { s with printed := s.printed ++ [b] } w := by
  have hlength : (s.printed ++ [b]).length = s.printed.length + 1 := by simp
  refine ⟨h.bounds, ?_, ?_, ?_, ?_⟩
  · have hle : les[s.printed.length]? = some b.le := by
      rw [← h.bounds, List.getElem?_map, hb]
      rfl
    rw [hlength, List.take_add_one, hle, List.map_append, h.read]
    rfl
  · intro i x hx
    by_cases hi : i < s.printed.length
    · rw [List.getElem?_append_left hi] at hx
      exact h.printed i x hx
    · have hlt : i < (s.printed ++ [b]).length := (List.getElem?_eq_some_iff.mp hx).1
      rw [hlength] at hlt
      have heq : i = s.printed.length := by omega
      subst heq
      rw [List.getElem?_concat_length] at hx
      cases hx
      exact h.unread _ b le_rfl hb
  · intro i x hi hx
    have hi' : s.printed.length + 1 ≤ i := hlength ▸ hi
    exact h.unread i x (by omega) hx
  · intro i j hij
    refine ⟨(h.order i j hij).1, fun hpend => (h.order i j hij).2 ?_⟩
    obtain ⟨hbehind, hj, hcall⟩ := hpend
    have hj' : s.printed.length + 1 ≤ j := hlength ▸ hj
    exact ⟨hbehind, by omega, hcall⟩

/-- An increment that the pass will see: the buckets above were counted before. -/
theorem sees_increment (h : Sees les s w) {sample : Double} {p : ℕ} {b : Bucket}
    (hcall : s.call = some (sample, p)) (hb : s.buckets[p]? = some b)
    (hle : sample.le b.le = true) (hbehind : s.behind = false) (hp : s.printed.length ≤ p) :
    Sees les { s with
      buckets := s.buckets.set p (bump b)
      call := some (sample, p + 1)
      behind := s.behind || decide (p < s.printed.length) }
      (Function.update w p (w p + 1)) := by
  refine ⟨(bounds_set hb).trans h.bounds, h.read, ?_, ?_, ?_⟩
  · intro i x hx
    have hlt : i < s.printed.length := (List.getElem?_eq_some_iff.mp hx).1
    rw [Function.update_of_ne (by omega)]
    exact h.printed i x hx
  · intro i x hi hx
    by_cases hip : i = p
    · subst hip
      rw [List.getElem?_set_self (List.getElem?_eq_some_iff.mp hb).1] at hx
      cases hx
      rw [Function.update_self, bump, h.unread i b hp hb, Double.succ_count]
    · rw [List.getElem?_set_ne (Ne.symm hip)] at hx
      rw [Function.update_of_ne hip]
      exact h.unread i x hi hx
  · intro i j hij
    obtain ⟨hw, hpend⟩ := h.order i j hij
    have hlep : les[p]? = some b.le := by
      rw [← h.bounds, List.getElem?_map, hb]
      rfl
    by_cases hj : j = p
    · subst hj
      -- the call counted its sample in bucket `i` before the pass came there
      have hlt := hpend ⟨hbehind, hp, sample, j, b.le, hcall, hij, le_rfl, hlep, hle⟩
      rw [Function.update_self, Function.update_of_ne (by omega)]
      refine ⟨hlt, ?_⟩
      rintro ⟨-, -, sample', p', le, heq, -, hp', -⟩
      cases heq
      omega
    · rw [Function.update_of_ne hj]
      by_cases hi : i = p
      · subst hi
        rw [Function.update_self]
        exact ⟨by omega, fun _ => by omega⟩
      · rw [Function.update_of_ne hi]
        refine ⟨hw, ?_⟩
        rintro ⟨-, hlen, sample', p', le, heq, hip', hp'j, hlej, hsample⟩
        cases heq
        exact hpend ⟨hbehind, hlen, sample, p, le, hcall, by omega, by omega, hlej, hsample⟩

theorem step_sees {a : Action} (h : Sees les s w) (hC : NoOvertaking s a)
    (hstep : step s a = some s') : ∃ w', Sees les s' w' := by
  cases a with
  | sample payload =>
    simp only [step] at hstep
    split at hstep
    · cases hstep
      refine ⟨w, h.of_frame h.bounds rfl (fun _ _ => rfl) fun i j => ?_⟩
      rintro ⟨-, -, sample, p, le, hcall, hp, -⟩
      cases hcall
      omega
    · cases hstep
  | read =>
    simp only [step] at hstep
    cases hb : s.buckets[s.printed.length]? with
    | none =>
      rw [hb] at hstep
      cases hstep
    | some b =>
      rw [hb] at hstep
      cases hstep
      exact ⟨w, sees_read h hb⟩
  | loop =>
    simp only [step] at hstep
    cases hcall : s.call with
    | none =>
      rw [hcall] at hstep
      cases hstep
    | some c =>
      obtain ⟨sample, p⟩ := c
      simp only [hcall] at hstep
      cases hb : s.buckets[p]? with
      | none =>
        rw [hb] at hstep
        cases hstep
        exact ⟨w, h.of_frame h.bounds rfl (fun _ _ => rfl) (not_pending_idle rfl)⟩
      | some b =>
        simp only [hb] at hstep
        split at hstep
        · rename_i hle
          cases hstep
          by_cases hp : p < s.printed.length
          · -- the pass has read this bucket, and the call is behind from now on
            refine ⟨w, h.of_frame ((bounds_set hb).trans h.bounds) rfl (fun i hi => ?_) ?_⟩
            · exact List.getElem?_set_ne (by omega)
            · rintro i j ⟨hbehind, -⟩
              simp [hp] at hbehind
          · have hbehind : s.behind = false := by
              by_contra hne
              exact hp (hC sample p b hcall hb hle (by simpa using hne))
            exact ⟨_, sees_increment h hcall hb hle hbehind (by omega)⟩
        · cases hstep
          exact ⟨w, h.of_frame h.bounds rfl (fun _ _ => rfl) (not_pending_idle rfl)⟩

theorem sees_start (labels : LabelSet) (bounds : List Double) :
    Sees ((Histogram.create labels bounds).buckets.map Bucket.le) (start labels bounds)
      fun _ => 0 := by
  refine ⟨rfl, rfl, fun i b hb => ?_, fun i b _ hb => ?_, fun i j hij => ⟨le_rfl, ?_⟩⟩
  · cases hb
  · obtain ⟨le, -, rfl⟩ := mem_create.mp (List.mem_of_getElem? hb)
    rfl
  · exact fun hpend => absurd hpend (not_pending_idle rfl i j)

/-- The bounds fall along the list, so a greater bound was read earlier. -/
theorem nonDecreasing_of_sees (hsorted : les.Pairwise fun a b => b.rank ≤ a.rank)
    (hnan : ∀ le ∈ les, le ≠ Double.nan) (h : Sees les s w) : NonDecreasing s.printed := by
  intro a ha b hb hlt
  obtain ⟨i, hi, hia⟩ := List.mem_iff_getElem.mp ha
  obtain ⟨j, hj, hjb⟩ := List.mem_iff_getElem.mp hb
  have hlook : ∀ (k : ℕ) (x : Bucket), s.printed[k]? = some x → les[k]? = some x.le := by
    intro k x hx
    have hk := (List.getElem?_eq_some_iff.mp hx).1
    have hread := congrArg (fun l => l[k]?) h.read
    simp only [List.getElem?_map, hx, Option.map_some, List.getElem?_take, hk, if_true] at hread
    exact hread.symm
  have ha? : s.printed[i]? = some a := List.getElem?_eq_some_iff.mpr ⟨hi, hia⟩
  have hb? : s.printed[j]? = some b := List.getElem?_eq_some_iff.mpr ⟨hj, hjb⟩
  obtain ⟨hli, hai⟩ := List.getElem?_eq_some_iff.mp (hlook i a ha?)
  obtain ⟨hlj, hbj⟩ := List.getElem?_eq_some_iff.mp (hlook j b hb?)
  have hana : a.le ≠ Double.nan := hnan a.le (hai ▸ List.getElem_mem hli)
  have hbna : b.le ≠ Double.nan := hnan b.le (hbj ▸ List.getElem_mem hlj)
  have hle : a.le.le b.le = true ∧ b.le.le a.le = false := by simpa [Double.lt] using hlt
  have hrank : ¬ b.le.rank ≤ a.le.rank := by
    rw [← Double.le_iff_rank hbna hana, hle.2]
    simp
  have hji : j ≤ i := by
    by_contra hij
    have hpair := List.pairwise_iff_getElem.mp hsorted i j hli hlj (by omega)
    rw [hai, hbj] at hpair
    exact hrank hpair
  have hw : w i ≤ w j := by
    rcases Nat.eq_or_lt_of_le hji with heq | hlt
    · rw [heq]
    · exact (h.order j i hlt).1
  rw [h.printed i a ha?, h.printed j b hb?]
  exact Double.ofInt_le (min_le_min_right _ hw) (min_le_right _ _)

/-- As long as no call overtakes the pass, what the pass prints is cumulative at
every moment. -/
theorem scrape_nonDecreasing (labels : LabelSet) {bounds : List Double} {actions : List Action}
    {s : Scrape} (hbounds : ∀ le ∈ bounds, le ≠ Double.nan)
    (hmeets : Meets step NoOvertaking (start labels bounds) actions)
    (hrun : run step (start labels bounds) actions = some s) : NonDecreasing s.printed := by
  obtain ⟨w, hw⟩ := run_meets
    (I := fun s => ∃ w, Sees ((Histogram.create labels bounds).buckets.map Bucket.le) s w)
    (fun s a s' ⟨w, hw⟩ hC hstep => step_sees hw hC hstep)
    ⟨_, sees_start labels bounds⟩ hmeets hrun
  apply nonDecreasing_of_sees _ _ hw
  · exact List.pairwise_map.mpr (sorted_create labels hbounds)
  · intro le hle
    obtain ⟨b, hb, rfl⟩ := List.mem_map.mp hle
    exact le_create labels hbounds b hb

/-! ## Without interruption -/

/-- A call alone does what `newSample` does. -/
theorem loops_alone (sample : Double) (done rest printed : List Bucket) (behind : Bool) :
    ∃ n behind', run step ⟨done ++ rest, some (sample, done.length), printed, behind⟩
      (List.replicate n .loop) = some ⟨done ++ observe sample rest, none, printed, behind'⟩ := by
  induction rest generalizing done behind with
  | nil =>
    refine ⟨1, behind, ?_⟩
    simp [run, step, observe]
  | cons b bs ih =>
    by_cases hle : sample.le b.le
    · obtain ⟨n, behind', hn⟩ :=
        ih (done ++ [bump b]) (behind || decide (done.length < printed.length))
      refine ⟨n + 1, behind', ?_⟩
      rw [List.replicate_succ, run_cons]
      refine ⟨_, ?_, hn.trans ?_⟩
      · simp [step, hle]
      · simp [observe, hle, bump]
    · refine ⟨1, behind, ?_⟩
      simp [run, step, observe, hle]

theorem call_alone (h : Histogram) (payload : Str) (printed : List Bucket) (behind : Bool) :
    ∃ n behind', run step ⟨h.buckets, none, printed, behind⟩
      (.sample payload :: List.replicate n .loop) =
        some ⟨(h.newSample payload).buckets, none, printed, behind'⟩ := by
  obtain ⟨n, behind', hn⟩ := loops_alone (sampleOf payload) [] h.buckets printed false
  refine ⟨n, behind', ?_⟩
  rw [run_cons]
  exact ⟨_, rfl, hn⟩

/-- A pass alone prints the points as they are. -/
theorem pass_alone (done rest : List Bucket) (call : Option (Double × ℕ)) (behind : Bool) :
    run step ⟨done ++ rest, call, done, behind⟩ (List.replicate rest.length .read) =
      some ⟨done ++ rest, call, done ++ rest, behind⟩ := by
  induction rest generalizing done with
  | nil => simp [run]
  | cons b bs ih =>
    rw [List.length_cons, List.replicate_succ, run_cons]
    refine ⟨⟨done ++ b :: bs, call, done ++ [b], behind⟩, by simp [step], ?_⟩
    have hrest := ih (done ++ [b])
    rwa [List.append_assoc, List.singleton_append] at hrest

theorem le_one : (sampleOf (Double.showInt 1)).le (Double.ofInt 1) = true ∧
    (sampleOf (Double.showInt 1)).le (.infinite false) = true := by
  rw [sampleOf_showInt (by norm_num), Double.ofInt_exact (by norm_num)]
  exact ⟨by simp [Double.le], rfl⟩

/-- The buckets of a histogram with one bound, the greater first. -/
theorem buckets_one : (Histogram.create .empty [Double.ofInt 1]).buckets =
    [Bucket.create .empty (.infinite false), Bucket.create .empty (Double.ofInt 1)] := by
  rw [Double.ofInt_exact (by norm_num)]
  simp [Histogram.create, List.mergeSort, List.MergeSort.Internal.splitInTwo, Bucket.create,
    Double.lt, Double.le]

theorem run_ahead (payload : Str) (b₀ b₁ : Bucket) (h₀ : (sampleOf payload).le b₀.le = true)
    (h₁ : (sampleOf payload).le b₁.le = true) :
    run step ⟨[b₀, b₁], none, [], false⟩ [.sample payload, .loop, .read, .loop, .loop, .read] =
      some ⟨[bump b₀, bump b₁], none, [bump b₀, bump b₁], false⟩ ∧
    Meets step NoOvertaking ⟨[b₀, b₁], none, [], false⟩
      [.sample payload, .loop, .read, .loop, .loop, .read] := by
  simp [run, step, Meets, NoOvertaking, h₀, h₁]

/-- The pass reads each bucket while the call is at work, and after the call has
incremented it. -/
theorem scrape_nonDecreasing_one : ∃ s,
    run step (start .empty [Double.ofInt 1])
      [.sample (Double.showInt 1), .loop, .read, .loop, .loop, .read] = some s ∧
      s.printed.map Bucket.le = [.infinite false, Double.ofInt 1] ∧
      s.printed.map Bucket.value = [Double.ofInt 1, Double.ofInt 1] ∧
      NonDecreasing s.printed := by
  obtain ⟨hrun, hmeets⟩ := run_ahead (Double.showInt 1) (Bucket.create .empty (.infinite false))
    (Bucket.create .empty (Double.ofInt 1)) le_one.2 le_one.1
  have hnan : ∀ le ∈ [Double.ofInt 1], le ≠ Double.nan := by
    rw [Double.ofInt_exact (by norm_num)]
    simp
  rw [← buckets_one] at hrun hmeets
  have hone : (Double.ofInt 0).succ = Double.ofInt (1 : ℕ) :=
    Double.succ_exact (n := 0) (by norm_num)
  refine ⟨_, hrun, rfl, ?_, scrape_nonDecreasing .empty hnan hmeets hrun⟩
  simp [bump, Bucket.create, hone]

theorem run_overtaken (payload : Str) (b₀ b₁ : Bucket) (h₀ : (sampleOf payload).le b₀.le = true)
    (h₁ : (sampleOf payload).le b₁.le = true) :
    run step ⟨[b₀, b₁], none, [], false⟩ [.read, .sample payload, .loop, .loop, .read] =
      some ⟨[bump b₀, bump b₁], some (sampleOf payload, 2), [b₀, bump b₁], true⟩ := by
  simp [run, step, h₀, h₁]

/-- The pass reads the greatest bound first: a sample that comes in between is
in the smaller bucket that is read next, and not in the greater one. -/
theorem overtaken : ∃ s,
    run step (start .empty [Double.ofInt 1])
      [.read, .sample (Double.showInt 1), .loop, .loop, .read] = some s ∧
      ¬ NonDecreasing s.printed := by
  have hrun := run_overtaken (Double.showInt 1) (Bucket.create .empty (.infinite false))
    (Bucket.create .empty (Double.ofInt 1)) le_one.2 le_one.1
  rw [← buckets_one] at hrun
  refine ⟨_, hrun, fun h => ?_⟩
  have hlt : (Double.ofInt 1).lt (.infinite false) = true := by
    rw [Double.ofInt_exact (by norm_num)]
    rfl
  have hvalue := h (bump (Bucket.create .empty (Double.ofInt 1))) (by simp)
    (Bucket.create .empty (.infinite false)) (by simp) hlt
  have hone : (Double.ofInt 0).succ = Double.ofInt (1 : ℕ) :=
    Double.succ_exact (n := 0) (by norm_num)
  rw [bump, Bucket.create, Bucket.create, hone, Double.ofInt_exact (by norm_num),
    Double.ofInt_exact (by norm_num)] at hvalue
  norm_num [Double.le] at hvalue

end Scrape

end MqttExporter
