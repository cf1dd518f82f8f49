import MqttExporter.HistogramCounts

/-!
# Payloads without a number

`Histogram::newSample` does not look at the outcome of `std::from_chars`, and its
sample starts at 0. So a payload without a number is counted as a 0, in every
bucket whose bound is not negative; `Gauge::newSample` keeps its value instead.
-/

namespace MqttExporter

open EarlyExit

namespace Histogram

theorem sampleOf_invalid {payload : Str} (h : hasNumber payload = false) :
    sampleOf payload = Double.ofInt 0 := by
  have hnone : Double.fromChars payload = none := by simpa [hasNumber] using h
  rw [sampleOf, hnone, Option.getD_none]

/-- How far the loop gets: past these buckets. -/
def reaches (sample : Double) (bs : List Bucket) : Bool := passes (fun s b => s.le b.le) sample bs

/-- Every bucket that a 0 reaches has been reached by so many samples that it
counts no further. -/
def ZeroFull (samples : List Double) (bs : List Bucket) : Prop :=
  ∀ pre, pre <+: bs → pre ≠ [] → reaches (Double.ofInt 0) pre = true →
    2 ^ 53 ≤ samples.countP fun sample => reaches sample pre

/-- The loop of `newSample`, for one sample after the other. -/
def observeAll (samples : List Double) (bs : List Bucket) : List Bucket :=
  samples.foldl (fun bs sample => mapWhile (fun b => sample.le b.le) bump bs) bs

theorem run_observeAll (h : Histogram) (payloads : List Str) :
    h.run payloads = { h with buckets := observeAll (payloads.map sampleOf) h.buckets } := by
  rw [run_eq, observeAll, List.foldl_map]

theorem observeAll_perm {xs ys : List Double} (h : xs.Perm ys) (bs : List Bucket) :
    observeAll xs bs = observeAll ys bs :=
  foldl_mapWhile_perm (p := fun (s : Double) (b : Bucket) => s.le b.le) (f := bump)
    (fun _ _ => rfl) h bs

/-- A bucket counts up to `2 ^ 53`. -/
theorem bump_limit {b : Bucket} (hb : b.value = Double.ofInt 0) (k m : ℕ) :
    bump^[k + m] b = bump^[k] b ↔ m = 0 ∨ 2 ^ 53 ≤ k := by
  rw [iterate_bump, iterate_bump, hb, Double.iterate_succ, Double.iterate_succ,
    Double.ofInt_natCast (min_le_right _ _), Double.ofInt_natCast (min_le_right _ _)]
  simp only [Bucket.mk.injEq, Double.finite.injEq, and_true]
  norm_cast
  omega

/-- Zeros put among the samples are noticed unless `ZeroFull`. -/
theorem observeAll_zeros {bs : List Bucket} (hbs : ∀ b ∈ bs, b.value = Double.ofInt 0)
    (samples : List Double) (m : ℕ) :
    observeAll (samples ++ List.replicate m (Double.ofInt 0)) bs = observeAll samples bs ↔
      m = 0 ∨ ZeroFull samples bs :=
  foldl_mapWhile_insert (p := fun (s : Double) (b : Bucket) => s.le b.le) (f := bump)
    (fun _ _ => rfl) (fun b hb => bump_limit (hbs b hb)) samples (Double.ofInt 0) m

theorem create_zero (labels : LabelSet) (bounds : List Double) :
    ∀ b ∈ (create labels bounds).buckets, b.value = Double.ofInt 0 := by
  intro b hb
  obtain ⟨le, -, rfl⟩ := mem_create.mp hb
  rfl

/-- The samples are those of the valid payloads and one 0 for each of the others. -/
theorem samples_perm (payloads : List Str) :
    (payloads.map sampleOf).Perm ((payloads.filter hasNumber).map sampleOf ++
      List.replicate (payloads.filter fun p => !hasNumber p).length (Double.ofInt 0)) := by
  have hzeros : (payloads.filter fun p => !hasNumber p).map sampleOf =
      List.replicate (payloads.filter fun p => !hasNumber p).length (Double.ofInt 0) := by
    apply List.eq_replicate_iff.mpr
    constructor
    · exact List.length_map sampleOf
    · intro sample hsample
      obtain ⟨p, hp, rfl⟩ := List.mem_map.mp hsample
      exact sampleOf_invalid (by simpa using (List.mem_filter.mp hp).2)
  rw [← hzeros, ← List.map_append]
  exact ((List.filter_append_perm hasNumber payloads).map sampleOf).symm

theorem newSample_invalid (labels : LabelSet) (bounds : List Double) (payloads : List Str)
    {payload : Str} (hpayload : hasNumber payload = false) :
    ((create labels bounds).run payloads).newSample payload = (create labels bounds).run payloads ↔
      ZeroFull (payloads.map sampleOf) (create labels bounds).buckets := by
  have hzero := observeAll_zeros (create_zero labels bounds)
    (payloads.map sampleOf) 1
  have hsnoc : ((create labels bounds).run payloads).newSample payload =
      (create labels bounds).run (payloads ++ [payload]) := by
    rw [run, run, List.foldl_append]
    rfl
  rw [hsnoc, run_observeAll, run_observeAll, List.map_append, List.map_singleton,
    sampleOf_invalid hpayload]
  simpa using hzero

theorem run_invalid (labels : LabelSet) (bounds : List Double) (payloads : List Str) :
    ((create labels bounds).run payloads).buckets =
        ((create labels bounds).run (payloads.filter hasNumber)).buckets ↔
      (∀ p ∈ payloads, hasNumber p = true) ∨
        ZeroFull ((payloads.filter hasNumber).map sampleOf) (create labels bounds).buckets := by
  have hzeros := observeAll_zeros (create_zero labels bounds)
    ((payloads.filter hasNumber).map sampleOf) (payloads.filter fun p => !hasNumber p).length
  rw [run_observeAll, run_observeAll, observeAll_perm (samples_perm payloads), hzeros]
  simp

/-! ## Bounds that are numbers -/

/-- The bounds fall along the list, so the last of them decides. -/
theorem reaches_last {pre : List Bucket} {b : Bucket}
    (hsorted : (pre ++ [b]).Pairwise fun a b => b.le.rank ≤ a.le.rank)
    (hnan : ∀ c ∈ pre ++ [b], c.le ≠ Double.nan) (sample : Double) :
    reaches sample (pre ++ [b]) = sample.le b.le := by
  rw [reaches, passes, List.all_append, List.all_cons, List.all_nil, Bool.and_true]
  by_cases hb : sample.le b.le = true
  · have hpre : pre.all (fun c => sample.le c.le) = true := by
      apply List.all_eq_true.mpr
      intro c hc
      have hrank := (List.pairwise_append.mp hsorted).2.2 c hc b List.mem_cons_self
      exact Double.le_trans_rank (hnan b (by simp)) (hnan c (by simp [hc])) hb hrank
    rw [hpre, Bool.true_and]
  · rw [eq_false_of_ne_true hb, Bool.and_false]

/-- The condition in terms of the bounds: each that is not negative has been
counted in as often as a double counts. -/
theorem zeroFull_iff (labels : LabelSet) {bounds : List Double}
    (hbounds : ∀ le ∈ bounds, le ≠ Double.nan) (samples : List Double) :
    ZeroFull samples (create labels bounds).buckets ↔
      ∀ le ∈ bounds ++ [Double.infinite false], (Double.ofInt 0).le le = true →
        2 ^ 53 ≤ atMost samples le := by
  have hlast : ∀ pre b, pre ++ [b] <+: (create labels bounds).buckets →
      ∀ sample, reaches sample (pre ++ [b]) = sample.le b.le := by
    intro pre b hpre
    apply reaches_last ((sorted_create labels hbounds).sublist hpre.sublist)
    intro c hc
    exact le_create labels hbounds c (hpre.subset hc)
  constructor
  · intro hfull le hle hzero
    obtain ⟨pre, post, hsplit⟩ := List.append_of_mem (mem_create.mpr ⟨le, hle, rfl⟩)
    have hpre : pre ++ [Bucket.create labels le] <+: (create labels bounds).buckets :=
      ⟨post, by rw [hsplit, List.append_assoc, List.singleton_append]⟩
    have h := hfull _ hpre (by simp) ((hlast _ _ hpre _).trans hzero)
    simp only [hlast _ _ hpre] at h
    exact h
  · intro hle pre hpre hne hzero
    obtain rfl | ⟨pre, b, rfl⟩ := List.eq_nil_or_concat' pre
    · exact absurd rfl hne
    rw [hlast _ _ hpre] at hzero
    simp only [hlast _ _ hpre]
    have hmem := (bounds_create labels bounds).mem_iff.mp
      (List.mem_map_of_mem (hpre.subset (by simp : b ∈ pre ++ [b])))
    exact hle b.le hmem hzero

/-- No histogram is full before `2 ^ 53` samples. -/
theorem not_zeroFull (labels : LabelSet) {bounds : List Double}
    (hbounds : ∀ le ∈ bounds, le ≠ Double.nan) {samples : List Double}
    (hlength : samples.length < 2 ^ 53) :
    ¬ ZeroFull samples (create labels bounds).buckets := by
  intro hfull
  have hzero : (Double.ofInt 0).le (.infinite false) = true := by
    rw [Double.ofInt_exact (n := 0) (by norm_num)]
    rfl
  have hinf := (zeroFull_iff labels hbounds samples).mp hfull (.infinite false) (by simp) hzero
  have hcount : atMost samples (.infinite false) ≤ samples.length := List.countP_le_length
  omega

/-! ## Runs with payloads without a number -/

/-- A payload without a number changes a histogram, and a run with such payloads
ends in other buckets than the run without them, unless every bucket that a 0
reaches is full. -/
theorem invalid_samples_iff (labels : LabelSet) (bounds : List Double) (payloads : List Str)
    {payload : Str} (hpayload : hasNumber payload = false) :
    (((create labels bounds).run payloads).newSample payload = (create labels bounds).run payloads ↔
        ZeroFull (payloads.map sampleOf) (create labels bounds).buckets) ∧
      (((create labels bounds).run payloads).buckets =
          ((create labels bounds).run (payloads.filter hasNumber)).buckets ↔
        (∀ p ∈ payloads, hasNumber p = true) ∨
          ZeroFull ((payloads.filter hasNumber).map sampleOf) (create labels bounds).buckets) :=
  ⟨newSample_invalid labels bounds payloads hpayload, run_invalid labels bounds payloads⟩

/-- The sample `ON` is counted in the last bucket. -/
theorem invalid_sample_counted : hasNumber "ON".toList = false ∧
    ((create .empty []).run []).newSample "ON".toList ≠ (create .empty []).run [] := by
  have hinvalid : hasNumber "ON".toList = false := by decide
  refine ⟨hinvalid, fun h => ?_⟩
  have hfull := (newSample_invalid .empty [] [] hinvalid).mp h
  exact not_zeroFull .empty (by simp) (by norm_num) hfull

theorem invalid_samples_iff_two :
    ((create .empty []).run [Double.showInt 1, "ON".toList]).buckets ≠
      ((create .empty []).run ([Double.showInt 1, "ON".toList].filter hasNumber)).buckets := by
  have hinvalid : hasNumber "ON".toList = false := by decide
  intro h
  rcases (invalid_samples_iff .empty [] [Double.showInt 1, "ON".toList] hinvalid).2.mp h with
    hall | hfull
  · rw [hall "ON".toList (by simp)] at hinvalid
    cases hinvalid
  · refine not_zeroFull .empty (by simp) ?_ hfull
    calc (([Double.showInt 1, "ON".toList].filter hasNumber).map sampleOf).length
        ≤ 2 := by simpa using List.length_filter_le hasNumber [Double.showInt 1, "ON".toList]
      _ < 2 ^ 53 := by norm_num

end Histogram

end MqttExporter
