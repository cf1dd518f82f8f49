import MqttExporter.Base.EarlyExit
import MqttExporter.Metric

/-!
# What a histogram counts

The buckets are sorted by falling bound, so the loop that leaves at the first
bucket below the sample has passed every bucket that contains it. The points of
the count and of the sum are exposed beside the buckets, and no sample changes
them.
-/

namespace MqttExporter

open EarlyExit

namespace Histogram

/-- What `newSample` reads; a payload without a number leaves the 0. -/
def sampleOf (payload : Str) : Double := (Double.fromChars payload).getD (Double.ofInt 0)

def run (h : Histogram) (payloads : List Str) : Histogram := payloads.foldl newSample h

/-- How many samples a bucket with this bound contains. -/
def atMost (samples : List Double) (le : Double) : ℕ := samples.countP fun sample => sample.le le

def bump (b : Bucket) : Bucket := { b with value := b.value.succ }

theorem observe_eq (sample : Double) (bs : List Bucket) :
    observe sample bs = mapWhile (fun b => sample.le b.le) bump bs := by
  induction bs with
  | nil => rfl
  | cons b bs ih =>
    rw [observe, mapWhile, ih]
    rfl

theorem run_eq (h : Histogram) (payloads : List Str) :
    h.run payloads = { h with
      buckets := payloads.foldl
        (fun bs payload => mapWhile (fun b => (sampleOf payload).le b.le) bump bs) h.buckets } := by
  induction payloads generalizing h with
  | nil => rfl
  | cons payload payloads ih =>
    change (h.newSample payload).run payloads = _
    rw [ih, List.foldl_cons, ← observe_eq]
    rfl

/-! ## The buckets in order -/

theorem mem_create {labels : LabelSet} {bounds : List Double} {b : Bucket} :
    b ∈ (create labels bounds).buckets ↔
      ∃ le ∈ bounds ++ [Double.infinite false], Bucket.create labels le = b := by
  rw [create, List.mem_mergeSort, List.mem_map]

theorem le_create (labels : LabelSet) {bounds : List Double}
    (hbounds : ∀ le ∈ bounds, le ≠ Double.nan) :
    ∀ b ∈ (create labels bounds).buckets, b.le ≠ Double.nan := by
  intro b hb
  obtain ⟨le, hle, rfl⟩ := mem_create.mp hb
  rcases List.mem_append.mp hle with hle | hle
  · exact hbounds le hle
  · cases List.mem_singleton.mp hle
    exact fun h => by cases h

/-- The constructor makes a bucket of each bound, in some order. -/
theorem map_create {γ : Type} (labels : LabelSet) (bounds : List Double) (f : Bucket → γ) :
    ((create labels bounds).buckets.map f).Perm
      ((bounds ++ [Double.infinite false]).map fun le => f (Bucket.create labels le)) := by
  have hperm := (List.mergeSort_perm
    ((bounds ++ [Double.infinite false]).map (Bucket.create labels)) fun a b => !a.le.lt b.le).map f
  rwa [List.map_map] at hperm

theorem bounds_create (labels : LabelSet) (bounds : List Double) :
    ((create labels bounds).buckets.map Bucket.le).Perm (bounds ++ [Double.infinite false]) := by
  have hperm := map_create labels bounds Bucket.le
  rwa [show (fun le => (Bucket.create labels le).le) = id from rfl, List.map_id] at hperm

/-- The constructor's sort: the bounds fall along the list. -/
theorem sorted_create (labels : LabelSet) {bounds : List Double}
    (hbounds : ∀ le ∈ bounds, le ≠ Double.nan) :
    (create labels bounds).buckets.Pairwise fun a b => b.le.rank ≤ a.le.rank := by
  apply pairwise_mergeSort fun b : Bucket => b.le.rank
  intro a ha b hb
  have hle := le_create labels hbounds
  have hna := hle a (List.mem_mergeSort.mpr ha)
  have hnb := hle b (List.mem_mergeSort.mpr hb)
  have hab := Double.le_iff_rank hna hnb
  have hba := Double.le_iff_rank hnb hna
  rw [Bool.eq_iff_iff, decide_eq_true_eq, ← hba, Double.lt]
  cases hx : a.le.le b.le with
  | false =>
    have hlt : ¬ a.le.rank ≤ b.le.rank := fun h => by simp [hab.mpr h] at hx
    simpa using hba.mpr (le_of_not_ge hlt)
  | true => simp

/-! ## The buckets after a run -/

theorem iterate_bump (n : ℕ) (b : Bucket) :
    bump^[n] b = { b with value := Double.succ^[n] b.value } := by
  induction n with
  | zero => rfl
  | succ n ih => rw [Function.iterate_succ_apply', Function.iterate_succ_apply', ih, bump]

theorem atMost_map (payloads : List Str) (le : Double) :
    atMost (payloads.map sampleOf) le = payloads.countP fun p => (sampleOf p).le le :=
  List.countP_map

/-- Every bucket has been incremented once for each sample it contains. -/
theorem run_buckets (labels : LabelSet) {bounds : List Double}
    (hbounds : ∀ le ∈ bounds, le ≠ Double.nan) (payloads : List Str) :
    ((create labels bounds).run payloads).buckets =
      (create labels bounds).buckets.map fun b => { b with
        value := Double.succ^[atMost (payloads.map sampleOf) b.le] b.value } := by
  have hle := le_create labels hbounds
  have hsorted : (create labels bounds).buckets.Pairwise fun a b =>
      ∀ payload, (sampleOf payload).le b.le = true → (sampleOf payload).le a.le = true := by
    refine (sorted_create labels hbounds).imp_of_mem fun {a b} ha hb hrank payload h => ?_
    exact Double.le_trans_rank (hle b hb) (hle a ha) h hrank
  have hfold := foldl_mapWhile (p := fun payload b => (sampleOf payload).le b.le) (f := bump)
    (fun _ _ => rfl) hsorted payloads
  rw [run_eq]
  refine hfold.trans ?_
  apply List.map_congr_left
  intro b _
  rw [iterate_bump, atMost_map]

theorem mem_run {labels : LabelSet} {bounds : List Double}
    (hbounds : ∀ le ∈ bounds, le ≠ Double.nan) {payloads : List Str} {b : Bucket}
    (hb : b ∈ ((create labels bounds).run payloads).buckets) :
    b.le ∈ bounds ++ [Double.infinite false] ∧
      b.value = Double.ofInt (min (atMost (payloads.map sampleOf) b.le) (2 ^ 53) : ℕ) := by
  rw [run_buckets labels hbounds] at hb
  obtain ⟨old, hold, rfl⟩ := List.mem_map.mp hb
  obtain ⟨le, hle, rfl⟩ := mem_create.mp hold
  exact ⟨hle, Double.iterate_succ _⟩

theorem bounds_run (labels : LabelSet) {bounds : List Double}
    (hbounds : ∀ le ∈ bounds, le ≠ Double.nan) (payloads : List Str) :
    (((create labels bounds).run payloads).buckets.map Bucket.le).Perm
      (bounds ++ [Double.infinite false]) := by
  rw [run_buckets labels hbounds, List.map_map]
  exact bounds_create labels bounds

theorem exists_last (labels : LabelSet) {bounds : List Double}
    (hbounds : ∀ le ∈ bounds, le ≠ Double.nan) (payloads : List Str) :
    ∃ b ∈ ((create labels bounds).run payloads).buckets, b.le = .infinite false :=
  List.mem_map.mp ((bounds_run labels hbounds payloads).mem_iff.mpr (by simp))

theorem atMost_infinite {samples : List Double} (h : ∀ sample ∈ samples, sample ≠ Double.nan) :
    atMost samples (.infinite false) = samples.length := by
  apply List.countP_eq_length.mpr
  intro sample hmem
  exact (Double.le_iff_rank (h sample hmem) (by simp)).mpr le_top

theorem atMost_mono (samples : List Double) {a b : Double} (ha : a ≠ Double.nan)
    (hb : b ≠ Double.nan) (hab : a.le b = true) : atMost samples a ≤ atMost samples b := by
  apply List.countP_mono_left
  intro sample _ h
  exact Double.le_trans_rank ha hb h ((Double.le_iff_rank ha hb).mp hab)

/-- A bucket holds the number of samples up to its bound, as far as a double
counts; so the last bucket holds the number of all samples, and a bucket holds
no more than one with a greater bound. -/
theorem run_counts (labels : LabelSet) {bounds : List Double} {payloads : List Str}
    (hbounds : ∀ le ∈ bounds, le ≠ Double.nan) (hsamples : ∀ p ∈ payloads, sampleOf p ≠ .nan) :
    (((create labels bounds).run payloads).buckets.map Bucket.le).Perm
        (bounds ++ [Double.infinite false]) ∧
      (∀ b ∈ ((create labels bounds).run payloads).buckets,
        b.value = Double.ofInt (min (atMost (payloads.map sampleOf) b.le) (2 ^ 53) : ℕ)) ∧
      (∀ b ∈ ((create labels bounds).run payloads).buckets, b.le = .infinite false →
        b.value = Double.ofInt (min payloads.length (2 ^ 53) : ℕ)) ∧
      ∀ a ∈ ((create labels bounds).run payloads).buckets,
        ∀ b ∈ ((create labels bounds).run payloads).buckets,
          a.le.le b.le = true → a.value.le b.value = true := by
  have hall : ∀ sample ∈ payloads.map sampleOf, sample ≠ Double.nan := by
    intro sample hmem
    obtain ⟨p, hp, rfl⟩ := List.mem_map.mp hmem
    exact hsamples p hp
  have hnan : ∀ b ∈ ((create labels bounds).run payloads).buckets, b.le ≠ Double.nan := by
    intro b hb
    rcases List.mem_append.mp (mem_run hbounds hb).1 with hle | hle
    · exact hbounds b.le hle
    · rw [List.mem_singleton.mp hle]
      simp
  refine ⟨bounds_run labels hbounds payloads, fun b hb => (mem_run hbounds hb).2, ?_, ?_⟩
  · intro b hb hinf
    rw [(mem_run hbounds hb).2, hinf, atMost_infinite hall, List.length_map]
  · intro a ha b hb hab
    rw [(mem_run hbounds ha).2, (mem_run hbounds hb).2]
    have hmono := atMost_mono (payloads.map sampleOf) (hnan a ha) (hnan b hb) hab
    exact Double.ofInt_le (min_le_min_right _ hmono) (min_le_right _ _)

theorem sampleOf_showInt {n : ℤ} (h : |n| ≤ 2 ^ 53) :
    sampleOf (Double.showInt n) = Double.ofInt n := by
  rw [sampleOf, Double.fromChars_showInt h]
  rfl

theorem run_counts_three : ((create .empty [Double.ofInt 2, Double.ofInt 1]).run
    [Double.showInt 1, Double.showInt 2, Double.showInt 3]).buckets.all
      (fun b => b.le = .infinite false → b.value = Double.ofInt 3) = true := by
  have hbounds : ∀ le ∈ [Double.ofInt 2, Double.ofInt 1], le ≠ Double.nan := by
    simp [Double.ofInt_exact (n := 2) (by norm_num), Double.ofInt_exact (n := 1) (by norm_num)]
  have hsamples : ∀ p ∈ [Double.showInt 1, Double.showInt 2, Double.showInt 3],
      sampleOf p ≠ .nan := by
    simp [sampleOf_showInt (n := 1) (by norm_num), sampleOf_showInt (n := 2) (by norm_num),
      sampleOf_showInt (n := 3) (by norm_num), Double.ofInt_exact (n := 2) (by norm_num),
      Double.ofInt_exact (n := 1) (by norm_num), Double.ofInt_exact (n := 3) (by norm_num)]
  have hlast := (run_counts .empty hbounds hsamples).2.2.1
  exact List.all_eq_true.mpr fun b hb => decide_eq_true (hlast b hb)

/-- Counting ends at `2 ^ 53`: two more samples are not counted. -/
theorem run_past_limit {n : ℕ} (h : n = 2 ^ 53) {b : Bucket}
    (hb : b ∈ ((create .empty []).run (List.replicate (n + 2) (Double.showInt 1))).buckets) :
    b.value ≠ Double.ofInt
      (atMost ((List.replicate (n + 2) (Double.showInt 1)).map sampleOf) b.le : ℕ) := by
  have hone : sampleOf (Double.showInt 1) ≠ .nan := by
    simp [sampleOf_showInt (n := 1) (by norm_num), Double.ofInt_exact (n := 1) (by norm_num)]
  obtain ⟨hle, hvalue⟩ := mem_run (by simp) hb
  have hinf : b.le = .infinite false := by simpa using hle
  have hcount : atMost ((List.replicate (n + 2) (Double.showInt 1)).map sampleOf) b.le = n + 2 := by
    rw [hinf, atMost_infinite, List.length_map, List.length_replicate]
    intro sample hmem
    rw [List.map_replicate] at hmem
    rwa [List.eq_of_mem_replicate hmem]
  rw [hvalue, hcount, min_eq_right (h ▸ Nat.le_add_right n 2), ← h]
  exact (Double.ofInt_past_limit h).symm

theorem counts_past_limit :
    ∃ b ∈ ((create .empty []).run (List.replicate (2 ^ 53 + 2) (Double.showInt 1))).buckets,
      b.value ≠ Double.ofInt
        (atMost ((List.replicate (2 ^ 53 + 2) (Double.showInt 1)).map sampleOf) b.le : ℕ) := by
  obtain ⟨b, hb, -⟩ :=
    @exists_last .empty [] (by simp) (List.replicate (2 ^ 53 + 2) (Double.showInt 1))
  exact ⟨b, hb, run_past_limit rfl hb⟩

/-! ## The count and the sum -/

/-- The value of the point that `begin` adds behind the buckets. -/
def exposedCount (lib : Libraries) (fullname : Str) (h : Histogram) : Option Double :=
  (h.points lib fullname)[h.buckets.length]?.map IPoint.value

def exposedSum (lib : Libraries) (fullname : Str) (h : Histogram) : Option Double :=
  (h.points lib fullname)[h.buckets.length + 1]?.map IPoint.value

/-- The count is that of the samples and of the last bucket, and the sum theirs. -/
def CountAndSum (lib : Libraries) (fullname : Str) (samples : List ℤ) (h : Histogram) : Prop :=
  h.exposedCount lib fullname = some (Double.ofInt samples.length) ∧
    (∀ b ∈ h.buckets, b.le = .infinite false → h.exposedCount lib fullname = some b.value) ∧
    h.exposedSum lib fullname = some (Double.ofInt samples.sum)

theorem exposed_create (lib : Libraries) (fullname : Str) (h : Histogram) :
    h.exposedCount lib fullname = some h.count ∧
      h.exposedSum lib fullname = some (h.sum.getD lib.uninitialised) := by
  simp [exposedCount, exposedSum, points]

/-- No sample changes either of the two points. -/
theorem run_keeps (h : Histogram) (payloads : List Str) :
    (h.run payloads).count = h.count ∧ (h.run payloads).sum = h.sum := by
  rw [run_eq]
  exact ⟨rfl, rfl⟩

theorem run_exposed (lib : Libraries) (fullname : Str) (labels : LabelSet) (bounds : List Double)
    (payloads : List Str) :
    ((create labels bounds).run payloads).exposedCount lib fullname = some (Double.ofInt 0) ∧
      ((create labels bounds).run payloads).exposedSum lib fullname = some lib.uninitialised := by
  obtain ⟨hcount, hsum⟩ := exposed_create lib fullname ((create labels bounds).run payloads)
  obtain ⟨hc, hs⟩ := run_keeps (create labels bounds) payloads
  rw [hcount, hsum, hc, hs]
  exact ⟨rfl, rfl⟩

/-- The two points agree with the samples only as long as there are none, and
then only if the sum's memory happens to hold 0. -/
theorem countAndSum_iff (lib : Libraries) (fullname : Str) (labels : LabelSet)
    (bounds : List Double) (samples : List ℤ) :
    CountAndSum lib fullname samples ((create labels bounds).run (samples.map Double.showInt)) ↔
      samples = [] ∧ lib.uninitialised = Double.ofInt 0 := by
  obtain ⟨hcount, hsum⟩ :=
    run_exposed lib fullname labels bounds (samples.map Double.showInt)
  unfold CountAndSum
  rw [hcount, hsum]
  constructor
  · rintro ⟨hn, -, hs⟩
    have hzero := Double.ofInt_eq_zero.mp (Option.some.inj hn).symm
    obtain rfl := List.length_eq_zero_iff.mp hzero
    exact ⟨rfl, Option.some.inj hs⟩
  · rintro ⟨rfl, hu⟩
    refine ⟨rfl, fun b hb _ => ?_, by rw [hu]; rfl⟩
    obtain ⟨le, -, rfl⟩ := mem_create.mp hb
    rfl

theorem one_sample_not_counted :
    ¬ CountAndSum simpleLibraries "t".toList [1]
      ((create .empty []).run ([1].map Double.showInt)) := by
  rintro ⟨hcount, -, -⟩
  rw [(run_exposed simpleLibraries "t".toList .empty [] _).1] at hcount
  have hzero := Double.ofInt_eq_zero.mp (Option.some.inj hcount).symm
  cases hzero

end Histogram

end MqttExporter
