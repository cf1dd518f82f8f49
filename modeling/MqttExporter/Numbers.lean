import MqttExporter.Base.Text
import MqttExporter.Metric

/-!
# Numbers on the lines

A line ends with its value, printed with six significant digits.

* `count_samples`: a counter has counted its samples, up to `2 ^ 53`;
* `integer_on_line_iff`: which integers can be read back from a line;
* `number_on_line`: how close a line is to the value, whatever it is.
-/

namespace MqttExporter

open Decimal Double

/-- The number at the end of a line. -/
def numberOnLine (line : Str) : Option ℚ := readNumber (Text.lastField ' ' line)

theorem lastField_stringify (p : IPoint) : Text.lastField ' ' p.stringify = p.value.text := by
  rw [IPoint.stringify_eq, Text.lastField_append (p.value.text_no_break (by decide))]

/-- What is read back is the value rounded to six digits. -/
theorem numberOnLine_int {n : ℤ} (hn : |n| ≤ 2 ^ 53) {p : IPoint} (hp : p.value = ofInt n) :
    numberOnLine p.stringify = some (roundSignificant 6 n) := by
  rw [numberOnLine, lastField_stringify, hp, ofInt_exact hn]
  exact read_showGeneral (by norm_num) n

theorem numberOnLine_eq_iff {n : ℤ} (hn : |n| ≤ 2 ^ 53) {p : IPoint} (hp : p.value = ofInt n) :
    numberOnLine p.stringify = some (n : ℚ) ↔ HasSignificant 6 n := by
  rw [numberOnLine_int hn hp, Option.some.injEq]
  exact roundSignificant_eq_iff (by norm_num) n

/-! ## Counters and gauges -/

def Counter.run (labels : LabelSet) (payloads : List Str) : Counter :=
  payloads.foldl Counter.newSample (Counter.create labels)

theorem count_samples (labels : LabelSet) {payloads : List Str} (h : payloads.length ≤ 2 ^ 53) :
    (Counter.run labels payloads).value = ofInt payloads.length := by
  induction payloads using List.reverseRecOn with
  | nil => rfl
  | append_singleton ps p ih =>
    rw [List.length_append, List.length_singleton] at h
    have hrun : Counter.run labels (ps ++ [p]) = (Counter.run labels ps).newSample p := by
      rw [Counter.run, List.foldl_append]
      rfl
    rw [hrun, Counter.newSample, ih (by omega), succ_exact (by omega), List.length_append,
      List.length_singleton]

/-- An integer on a line of a counter or a gauge can be read back exactly if it
has at most six significant digits. -/
theorem integer_on_line_iff (n : ℤ) (hn : |n| ≤ 2 ^ 53) (lib : Libraries) (fullname : Str) :
    (∀ labels payloads, (payloads.length : ℤ) = n →
      ∀ p ∈ (Counter.run labels payloads).points fullname,
        (numberOnLine p.stringify = some (n : ℚ) ↔ HasSignificant 6 n)) ∧
    (∀ (gauge : Gauge) payload, fromChars payload = some (ofInt n) →
      ∀ p ∈ (gauge.newSample payload).points lib fullname,
        (numberOnLine p.stringify = some (n : ℚ) ↔ HasSignificant 6 n)) := by
  constructor
  · rintro labels payloads rfl p hp
    have hlen : payloads.length ≤ 2 ^ 53 := by
      rw [Nat.abs_cast] at hn
      exact_mod_cast hn
    cases List.mem_singleton.mp hp
    exact numberOnLine_eq_iff hn (count_samples labels hlen)
  · intro gauge payload hpayload p hp
    cases List.mem_singleton.mp hp
    exact numberOnLine_eq_iff hn (by simp [Gauge.newSample, hpayload])

theorem integer_on_line_42 :
    numberOnLine (IPoint.mk "energy".toList .empty (ofInt (-42))).stringify = some (-42) := by
  have h := (integer_on_line_iff (-42) (by norm_num) simpleLibraries "energy".toList).2
    (Gauge.create .empty) (showInt (-42)) (fromChars_showInt (by norm_num)) _
    (List.mem_singleton.mpr rfl)
  have hvalue : (Gauge.newSample (Gauge.create .empty) (showInt (-42))).value =
      some (ofInt (-42)) := by
    simp [Gauge.newSample, fromChars_showInt]
  rw [hvalue] at h
  have hread := h.mpr ⟨-42, 0, by norm_num, by norm_num⟩
  exact_mod_cast hread

/-- The seventh digit of a count is lost. -/
theorem integer_on_line_inexact :
    ¬ ∀ (n : ℤ), |n| ≤ 2 ^ 53 → ∀ labels payloads fullname, (payloads.length : ℤ) = n →
      ∀ p ∈ (Counter.run labels payloads).points fullname,
        numberOnLine p.stringify = some (n : ℚ) := by
  intro h
  obtain ⟨payloads, hlen⟩ : ∃ payloads : List Str, payloads.length = 1234567 :=
    ⟨List.replicate 1234567 [], List.length_replicate⟩
  have hvalue : (Counter.run .empty payloads).value = ofInt 1234567 := by
    rw [count_samples .empty (by rw [hlen]; norm_num), hlen]
    rfl
  have hread := h 1234567 (by norm_num) .empty payloads [] (by rw [hlen]; rfl) _
    (List.mem_singleton.mpr rfl)
  rw [numberOnLine_int (by norm_num) hvalue, Option.some.injEq] at hread
  revert hread
  decide +kernel

/-! ## All values -/

theorem numberOnLine_finite {p : IPoint} {x : ℚ} {hx : IsBinary64 x}
    (hp : p.value = .finite x hx) :
    numberOnLine p.stringify = some (roundSignificant 6 x) := by
  rw [numberOnLine, lastField_stringify, hp]
  exact read_showGeneral (by norm_num) x

theorem numberOnLine_eq_some {p : IPoint} {x' : ℚ} (h : numberOnLine p.stringify = some x') :
    ∃ x hx, p.value = .finite x hx ∧ x' = roundSignificant 6 x := by
  cases hvalue : p.value with
  | finite x hx =>
    rw [numberOnLine_finite hvalue] at h
    exact ⟨x, hx, rfl, (Option.some.inj h).symm⟩
  | infinite negative =>
    have hnone : numberOnLine p.stringify = none := by
      rw [numberOnLine, lastField_stringify, hvalue]
      cases negative <;> decide +kernel
    rw [hnone] at h
    cases h
  | nan =>
    have hnone : numberOnLine p.stringify = none := by
      rw [numberOnLine, lastField_stringify, hvalue]
      decide +kernel
    rw [hnone] at h
    cases h

/-- A line has a number if its value is finite. The number is off by at most five
millionths of the value, by nothing if six digits suffice, and it is never the
smaller one for the larger value. -/
theorem number_on_line (p : IPoint) :
    ((numberOnLine p.stringify).isSome ↔ ∃ x hx, p.value = .finite x hx) ∧
    (∀ x hx, p.value = .finite x hx → ∃ x', numberOnLine p.stringify = some x' ∧
      |x' - x| ≤ 5 / 10 ^ 6 * |x| ∧ (x' = x ↔ HasSignificant 6 x)) ∧
    ∀ (q : IPoint) (x' y' : ℚ), p.value.le q.value = true →
      numberOnLine p.stringify = some x' → numberOnLine q.stringify = some y' → x' ≤ y' := by
  refine ⟨⟨fun hsome => ?_, fun ⟨x, hx, hp⟩ => ?_⟩, fun x hx hp => ?_, fun q x' y' hle hp hq => ?_⟩
  · obtain ⟨x', hx'⟩ := Option.isSome_iff_exists.mp hsome
    obtain ⟨x, hx, hp, -⟩ := numberOnLine_eq_some hx'
    exact ⟨x, hx, hp⟩
  · rw [numberOnLine_finite hp]
    rfl
  · refine ⟨_, numberOnLine_finite hp, ?_, roundSignificant_eq_iff (by norm_num) x⟩
    have herror := roundSignificant_error (p := 6) (by norm_num) x
    norm_num at herror ⊢
    exact herror
  · obtain ⟨x, hx, hpvalue, rfl⟩ := numberOnLine_eq_some hp
    obtain ⟨y, hy, hqvalue, rfl⟩ := numberOnLine_eq_some hq
    rw [hpvalue, hqvalue] at hle
    exact roundSignificant_mono (by norm_num) (by simpa [Double.le] using hle)

end MqttExporter
