import MqttExporter.Base.FixedPoint
import MqttExporter.HistogramCounts

/-!
# The labels of the buckets

The points of a histogram differ in their label `le` only, which is inserted
beside the labels of the series: `+Inf`, or the bound with six decimals.
-/

namespace MqttExporter

namespace Histogram

/-- What the value of a label `le` stands for. -/
def denoted (text : Str) : Option Double :=
  if text = "+Inf".toList then some (.infinite false) else Double.fromChars text

/-- The label sets of the buckets differ, and each names the bound of its bucket. -/
def Distinguishable (h : Histogram) : Prop :=
  (h.buckets.map Bucket.labelSet).Nodup ∧
    ∀ b ∈ h.buckets, ∃ text, b.labelSet.find? "le".toList = some text ∧ denoted text = some b.le

/-- The double is the nearest one to a number with six decimals. -/
def SixDecimals (le : Double) : Prop := ∃ n : ℤ, Double.ofRat (n / 10 ^ 6) = le

theorem le_emplaced {labels : LabelSet} (h : labels.find? "le".toList = none) (le : Double) :
    (Bucket.create labels le).labelSet.find? "le".toList = some (leText le) := by
  rw [Bucket.create, OrderedMap.find?_emplace, if_pos ⟨rfl, h⟩]

/-- A label `le` of the series stays, and all buckets have it. -/
theorem emplace_le {labels : LabelSet} {text : Str} (h : labels.find? "le".toList = some text)
    (le : Double) : (Bucket.create labels le).labelSet = labels := by
  apply OrderedMap.ext_find
  intro k
  rw [Bucket.create, OrderedMap.find?_emplace, if_neg]
  rintro ⟨-, hnone⟩
  rw [h] at hnone
  cases hnone

theorem denoted_infinite : denoted (leText (.infinite false)) = some (.infinite false) := rfl

theorem toFixed_ne_inf {x : ℚ} (hx : IsBinary64 x) :
    (Double.finite x hx).toFixed ≠ "+Inf".toList := by
  intro h
  have hnumeral := Decimal.numeral_showFixed 6 x 'I' (by
    change Decimal.showFixed 6 x = _ at h
    rw [h]
    decide)
  revert hnumeral
  decide

theorem denoted_finite {x : ℚ} (hx : IsBinary64 x) :
    denoted (leText (.finite x hx)) = some (.finite x hx) ↔ SixDecimals (.finite x hx) := by
  have htext : leText (.finite x hx) = (Double.finite x hx).toFixed := if_neg fun h => by cases h
  rw [denoted, htext, if_neg (toFixed_ne_inf hx)]
  exact Double.toFixed_reads_iff hx

/-! ## The points of a new histogram -/

def Finite (le : Double) : Prop := ∃ x h, le = .finite x h

theorem labelSets_create (labels : LabelSet) (bounds : List Double) :
    ((create labels bounds).buckets.map Bucket.labelSet).Perm
      ((bounds ++ [Double.infinite false]).map fun le => (Bucket.create labels le).labelSet) :=
  map_create labels bounds Bucket.labelSet

/-- With a label `le` of their own the series have one label set for all buckets. -/
theorem distinguishable_le {labels : LabelSet} {text : Str}
    (hlabels : labels.find? "le".toList = some text) (bounds : List Double) :
    Distinguishable (create labels bounds) ↔
      bounds = [] ∧ denoted text = some (.infinite false) := by
  have hsets := labelSets_create labels bounds
  simp only [emplace_le hlabels] at hsets
  constructor
  · rintro ⟨hnodup, hdenoted⟩
    rw [hsets.nodup_iff] at hnodup
    have hnil : bounds = [] := by
      cases bounds with
      | nil => rfl
      | cons le bounds => simp at hnodup
    obtain ⟨text', htext, hdenotes⟩ := hdenoted _ (mem_create.mpr ⟨.infinite false, by simp, rfl⟩)
    rw [emplace_le hlabels, hlabels] at htext
    cases htext
    exact ⟨hnil, hdenotes⟩
  · rintro ⟨rfl, hdenotes⟩
    refine ⟨hsets.nodup_iff.mpr (List.nodup_singleton _), fun b hb => ⟨text, ?_⟩⟩
    obtain ⟨le, hle, rfl⟩ := mem_create.mp hb
    cases List.mem_singleton.mp hle
    exact ⟨by rw [emplace_le hlabels, hlabels], hdenotes⟩

theorem denotes_create {labels : LabelSet} (hlabels : labels.find? "le".toList = none)
    {bounds : List Double} (hfinite : ∀ le ∈ bounds, Finite le) :
    (∀ b ∈ (create labels bounds).buckets, ∃ text,
        b.labelSet.find? "le".toList = some text ∧ denoted text = some b.le) ↔
      ∀ le ∈ bounds, SixDecimals le := by
  constructor
  · intro h le hle
    obtain ⟨text, htext, hdenotes⟩ :=
      h _ (mem_create.mpr ⟨le, List.mem_append_left _ hle, rfl⟩)
    rw [le_emplaced hlabels] at htext
    cases htext
    obtain ⟨x, hx, rfl⟩ := hfinite le hle
    exact (denoted_finite hx).mp hdenotes
  · intro h b hb
    obtain ⟨le, hle, rfl⟩ := mem_create.mp hb
    refine ⟨leText le, le_emplaced hlabels le, ?_⟩
    rcases List.mem_append.mp hle with hle | hle
    · obtain ⟨x, hx, rfl⟩ := hfinite le hle
      exact (denoted_finite hx).mpr (h _ hle)
    · rw [List.mem_singleton.mp hle]
      exact denoted_infinite

/-- Label sets that name the bounds differ as the bounds do. -/
theorem nodup_of_denotes {labels : LabelSet} {bounds : List Double}
    (hfinite : ∀ le ∈ bounds, Finite le) (hdistinct : bounds.Nodup)
    (h : ∀ b ∈ (create labels bounds).buckets, ∃ text,
      b.labelSet.find? "le".toList = some text ∧ denoted text = some b.le) :
    ((create labels bounds).buckets.map Bucket.labelSet).Nodup := by
  have hall : (bounds ++ [Double.infinite false]).Nodup := by
    refine List.nodup_append.mpr ⟨hdistinct, List.nodup_singleton _, fun a ha b hb heq => ?_⟩
    obtain ⟨x, hx, rfl⟩ := hfinite a ha
    rw [List.mem_singleton.mp hb] at heq
    cases heq
  have hbounds : ((create labels bounds).buckets.map Bucket.le).Nodup :=
    (bounds_create labels bounds).nodup_iff.mpr hall
  apply (List.Nodup.of_map Bucket.le hbounds).map_on
  intro b hb b' hb' heq
  obtain ⟨text, htext, hdenotes⟩ := h b hb
  obtain ⟨text', htext', hdenotes'⟩ := h b' hb'
  rw [heq, htext'] at htext
  cases htext
  rw [hdenotes] at hdenotes'
  exact List.inj_on_of_nodup_map hbounds hb hb' (Option.some.inj hdenotes')

/-- The buckets can be told apart exactly if the series have no label `le` of
their own and no bound has more than six decimals, or there are no bounds and
the label of the series happens to be right. -/
theorem distinguishable_iff (labels : LabelSet) {bounds : List Double}
    (hfinite : ∀ le ∈ bounds, Finite le) (hdistinct : bounds.Nodup) :
    Distinguishable (create labels bounds) ↔
      (labels.find? "le".toList = none ∧ ∀ le ∈ bounds, SixDecimals le) ∨
        (bounds = [] ∧ ∃ text, labels.find? "le".toList = some text ∧
          denoted text = some (.infinite false)) := by
  cases hlabels : labels.find? "le".toList with
  | none =>
    constructor
    · rintro ⟨-, hdenotes⟩
      exact Or.inl ⟨rfl, (denotes_create hlabels hfinite).mp hdenotes⟩
    · rintro (⟨-, hsix⟩ | ⟨-, text, htext, -⟩)
      · have hdenotes := (denotes_create hlabels hfinite).mpr hsix
        exact ⟨nodup_of_denotes hfinite hdistinct hdenotes, hdenotes⟩
      · cases htext
  | some text =>
    rw [distinguishable_le hlabels]
    constructor
    · rintro ⟨hnil, hdenotes⟩
      exact Or.inr ⟨hnil, text, rfl, hdenotes⟩
    · rintro (⟨hnone, -⟩ | ⟨hnil, text', htext, hdenotes⟩)
      · cases hnone
      · cases htext
        exact ⟨hnil, hdenotes⟩

theorem sixDecimals_ofInt (n : ℤ) : SixDecimals (Double.ofInt n) := by
  refine ⟨n * 10 ^ 6, ?_⟩
  rw [Double.ofInt]
  norm_num

theorem finite_ofInt {n : ℤ} (h : |n| ≤ 2 ^ 53) : Finite (Double.ofInt n) :=
  ⟨n, _, Double.ofInt_exact h⟩

theorem distinguishable_two :
    Distinguishable (create .empty [Double.ofInt 1, Double.ofInt 2]) := by
  have hfinite : ∀ le ∈ [Double.ofInt 1, Double.ofInt 2], Finite le := by
    simp [finite_ofInt (n := 1) (by norm_num), finite_ofInt (n := 2) (by norm_num)]
  have hdistinct : [Double.ofInt 1, Double.ofInt 2].Nodup := by
    simp [Double.ofInt_exact (n := 1) (by norm_num), Double.ofInt_exact (n := 2) (by norm_num)]
  refine (distinguishable_iff .empty hfinite hdistinct).mpr (Or.inl ⟨rfl, ?_⟩)
  simp [sixDecimals_ofInt]

/-- All bounds below half a millionth are written in the same way. -/
theorem leText_small {x : ℚ} (hx : IsBinary64 x) (h0 : 0 ≤ x) (hsmall : x * 10 ^ 6 < 1 / 2) :
    leText (.finite x hx) = "0.000000".toList := by
  have hclose : |x * 10 ^ 6 - ((0 : ℤ) : ℚ)| < 1 / 2 := by
    rw [Int.cast_zero, sub_zero, abs_of_nonneg (by positivity)]
    exact hsmall
  have hunits := Decimal.eq_of_close (Decimal.abs_roundHalfEven_sub (x * 10 ^ 6)) hclose
  have htext : leText (.finite x hx) = Decimal.showFixedPositive 6 x := by
    rw [leText, if_neg (fun h => by cases h), Double.toFixed, Decimal.showFixed, if_neg h0.not_gt]
  rw [htext, Decimal.showFixedPositive, hunits]
  clear * -
  decide

/-- `2 ^ -k`. -/
def fraction (k : ℕ) : Double := Double.ofRat (2 ^ (-k : ℤ))

theorem isBinary64_fraction {k : ℕ} (hk : k ≤ 1074) : IsBinary64 (2 ^ (-k : ℤ)) := by
  refine ⟨⟨1, -k, by norm_num, by omega, by norm_num⟩, ?_⟩
  rw [abs_of_pos (Double.two_zpow_pos _), ← zpow_natCast]
  exact zpow_lt_zpow_right₀ (by norm_num) (by omega)

theorem fraction_eq {k : ℕ} (hk : k ≤ 1074) : fraction k = .finite _ (isBinary64_fraction hk) :=
  Double.ofRat_exact (isBinary64_fraction hk)

/-- Both bounds are written `0.000000`. -/
theorem same_bucket :
    (∀ le ∈ [fraction 30, fraction 31], Finite le) ∧ [fraction 30, fraction 31].Nodup ∧
      ¬ Distinguishable (create .empty [fraction 30, fraction 31]) := by
  have h₁ := fraction_eq (k := 30) (by norm_num)
  have h₂ := fraction_eq (k := 31) (by norm_num)
  have hne : fraction 30 ≠ fraction 31 := by
    rw [h₁, h₂]
    intro h
    have hvalue := Double.finite.inj h
    norm_num at hvalue
  have htext : leText (fraction 30) = leText (fraction 31) := by
    rw [h₁, h₂, leText_small _ (by positivity) (by norm_num),
      leText_small _ (by positivity) (by norm_num)]
  refine ⟨?_, by simp [hne], ?_⟩
  · intro le hle
    rcases List.mem_pair.mp hle with rfl | rfl
    · exact ⟨_, _, h₁⟩
    · exact ⟨_, _, h₂⟩
  · rintro ⟨hnodup, -⟩
    rw [(labelSets_create .empty [fraction 30, fraction 31]).nodup_iff] at hnodup
    simp [Bucket.create, htext] at hnodup

end Histogram

end MqttExporter
