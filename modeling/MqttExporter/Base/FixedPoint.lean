import MqttExporter.Base.Double

/-!
# Fixed notation

A number printed with a fixed number of decimals, and what that text reads back
as.

* `fromChars_toFixed`: the text is the number rounded to six decimals;
* `toFixed_reads_iff`: it reads back as the number it was printed from exactly if
  that number is the nearest double to one with six decimals.
-/

namespace Decimal

theorem abs_roundHalfEven_sub (q : ℚ) : |(roundHalfEven q : ℚ) - q| ≤ 1 / 2 := by
  have hlo := Int.floor_le q
  have hhi := Int.lt_floor_add_one q
  unfold roundHalfEven
  simp only
  rw [abs_le]
  split
  · constructor <;> linarith
  · split
    · push_cast
      constructor <;> linarith
    · split
      · constructor <;> linarith
      · push_cast
        constructor <;> linarith

/-- No two whole numbers are this close to the same value. -/
theorem eq_of_close {a n : ℤ} {q : ℚ} (ha : |(a : ℚ) - q| ≤ 1 / 2) (hn : |q - n| < 1 / 2) :
    a = n := by
  have hclose : |(a : ℚ) - n| < 1 := by
    calc |(a : ℚ) - n|
        = |(a - q) + (q - n)| := by rw [sub_add_sub_cancel]
      _ ≤ |(a : ℚ) - q| + |q - n| := abs_add_le _ _
      _ < 1 / 2 + 1 / 2 := add_lt_add_of_le_of_lt ha hn
      _ = 1 := by norm_num
  have hint : |a - n| < 1 := by exact_mod_cast hclose
  have hzero := Int.abs_lt_one_iff.mp hint
  omega

/-- `q` in units of the last of `p` decimals. -/
def fixedUnits (p : ℕ) (q : ℚ) : ℤ :=
  if q < 0 then -roundHalfEven (-q * 10 ^ p) else roundHalfEven (q * 10 ^ p)

/-- `q` rounded to `p` decimals. -/
def roundFixed (p : ℕ) (q : ℚ) : ℚ := fixedUnits p q / 10 ^ p

theorem abs_fixedUnits_sub (p : ℕ) (q : ℚ) : |(fixedUnits p q : ℚ) - q * 10 ^ p| ≤ 1 / 2 := by
  unfold fixedUnits
  split
  · have h := abs_roundHalfEven_sub (-q * 10 ^ p)
    rw [← abs_neg] at h
    push_cast
    convert h using 2
    ring
  · exact abs_roundHalfEven_sub (q * 10 ^ p)

theorem fixedUnits_eq {p : ℕ} {q : ℚ} {n : ℤ} (h : |q * 10 ^ p - n| < 1 / 2) :
    fixedUnits p q = n :=
  eq_of_close (abs_fixedUnits_sub p q) h

theorem roundFixed_exact {p : ℕ} {q : ℚ} {n : ℤ} (h : q * 10 ^ p = n) : roundFixed p q = q := by
  have hunits : fixedUnits p q = n := fixedUnits_eq (by rw [h]; norm_num)
  rw [roundFixed, hunits, ← h, mul_div_cancel_right₀ q (by positivity)]

theorem abs_roundFixed_sub (p : ℕ) (q : ℚ) : |roundFixed p q - q| ≤ 1 / (2 * 10 ^ p) := by
  have hpos : (0 : ℚ) < 10 ^ p := by positivity
  have h := abs_fixedUnits_sub p q
  have hscale : roundFixed p q - q = (fixedUnits p q - q * 10 ^ p) / 10 ^ p := by
    rw [roundFixed]
    field_simp
  rw [hscale, abs_div, abs_of_pos hpos, div_le_div_iff₀ hpos (by positivity)]
  nlinarith

/-! ## The text -/

/-- The fraction is filled up to `p` digits. -/
theorem fraction_spec {p : ℕ} (hp : 0 < p) (n : ℕ) :
    let fp := List.replicate (p - (Nat.toDigits 10 (n % 10 ^ p)).length) '0' ++
      Nat.toDigits 10 (n % 10 ^ p)
    AllDigits fp ∧ fp.length = p ∧ digitsValue fp = n % 10 ^ p := by
  have hlt : n % 10 ^ p < 10 ^ p := Nat.mod_lt n (by positivity)
  have hle := (Nat.length_toDigits_le_iff (by decide : 1 < 10) hp).mpr hlt
  refine ⟨(allDigits_zeros _).append (allDigits_toDigits _), ?_, ?_⟩
  · rw [List.length_append, List.length_replicate]
    omega
  · rw [digitsValue_zeros, digitsValue, Nat.ofDigitChars_ten_toDigits]

theorem scanUnsigned_showFixedPositive {p : ℕ} (hp : 0 < p) {q : ℚ} (hq : 0 ≤ q) :
    scanUnsigned (showFixedPositive p q) =
      some ((roundHalfEven (q * 10 ^ p) : ℚ) / 10 ^ p, []) := by
  have hnonneg : 0 ≤ roundHalfEven (q * 10 ^ p) := le_roundHalfEven (by push_cast; positivity)
  obtain ⟨n, hn⟩ := Int.eq_ofNat_of_zero_le hnonneg
  obtain ⟨hdigits, hlength, hvalue⟩ := fraction_spec hp n
  have hscan := scanMantissa_withPoint (s := []) (allDigits_toDigits (n / 10 ^ p))
    Nat.toDigits_ne_nil hdigits (by simp [NoDigitAhead]) (by simp)
  rw [List.append_nil] at hscan
  rw [showFixedPositive, hn, Int.toNat_natCast, scanUnsigned, hscan, Option.map_some]
  have hexponent : scanExponent [] = (0, []) := rfl
  have hsplit : digitsValue (Nat.toDigits 10 (n / 10 ^ p)) * 10 ^ p + n % 10 ^ p = n := by
    rw [digitsValue, Nat.ofDigitChars_ten_toDigits]
    exact Nat.div_add_mod' n (10 ^ p)
  simp only [hexponent, digitsValue_append, hlength, hvalue, hsplit]
  rw [zero_sub, zpow_neg, zpow_natCast, ← div_eq_mul_inv]
  push_cast
  rfl

end Decimal

namespace Double

open Decimal

/-- The text with six decimals reads as the number rounded to six decimals. -/
theorem fromChars_toFixed {x : ℚ} (hx : IsBinary64 x) :
    fromChars (toFixed (.finite x hx)) = inRange (roundFixed 6 x) := by
  rw [toFixed, showFixed, roundFixed, fixedUnits]
  split
  · rename_i hneg
    have h := scanUnsigned_showFixedPositive (p := 6) (by norm_num) (neg_pos.mpr hneg).le
    rw [(fromChars_of_unsigned h).2]
    push_cast
    rw [neg_div]
  · rename_i hneg
    have h := scanUnsigned_showFixedPositive (p := 6) (by norm_num) (not_lt.mp hneg)
    rw [(fromChars_of_unsigned h).1]

/-! ## Close to a rounded value -/

theorem unscale (q : ℚ) (e : ℤ) : q * 2 ^ (-e) * 2 ^ e = q := by
  rw [mul_assoc, ← zpow_add₀ (by norm_num), neg_add_cancel, zpow_zero, mul_one]

theorem abs_roundBinary64_sub (q : ℚ) : |roundBinary64 q - q| ≤ 2 ^ (lastBit q - 1) := by
  have hunits := abs_roundHalfEven_sub (q * 2 ^ (-lastBit q))
  have hdiff : roundBinary64 q - q =
      ((roundHalfEven (q * 2 ^ (-lastBit q)) : ℚ) - q * 2 ^ (-lastBit q)) * 2 ^ lastBit q := by
    rw [sub_mul, unscale]
    rfl
  rw [hdiff, abs_mul, abs_of_pos (two_zpow_pos _), zpow_sub_one₀ (by norm_num)]
  calc _ ≤ 1 / 2 * (2 : ℚ) ^ lastBit q :=
        mul_le_mul_of_nonneg_right hunits (two_zpow_pos _).le
    _ = 2 ^ lastBit q * 2⁻¹ := by ring

theorem le_abs_roundHalfEven {a : ℤ} {q : ℚ} (h : (a : ℚ) ≤ |q|) : a ≤ |roundHalfEven q| := by
  rcases le_total 0 q with hq | hq
  · rw [abs_of_nonneg hq] at h
    exact (le_roundHalfEven h).trans (le_abs_self _)
  · rw [abs_of_nonpos hq] at h
    have hle : roundHalfEven q ≤ -a := roundHalfEven_le (by push_cast; linarith)
    exact (le_neg.mpr hle).trans (neg_le_abs _)

theorem lastBit_eq {y : ℚ} {e : ℤ} (he : -1074 ≤ e) (hlo : 2 ^ (52 + e) ≤ |y|)
    (hhi : |y| < 2 ^ (53 + e)) : lastBit y = e := by
  have hpos : 0 < |y| := (two_zpow_pos _).trans_le hlo
  have h₁ := (Int.zpow_le_iff_le_log (b := 2) (by norm_num) hpos).mp (by exact_mod_cast hlo)
  have h₂ := (Int.lt_zpow_iff_log_lt (b := 2) (by norm_num) hpos).mp (by exact_mod_cast hhi)
  unfold lastBit
  omega

/-- Away from the subnormal numbers the rounded value has all 53 bits, or is the
next power of two. -/
theorem significand_bounds {q : ℚ} (hq : q ≠ 0) (hbit : -1074 < lastBit q) :
    2 ^ 52 ≤ |roundHalfEven (q * 2 ^ (-lastBit q))| ∧
      |roundHalfEven (q * 2 ^ (-lastBit q))| ≤ 2 ^ 53 := by
  have hlog : Int.log 2 |q| = 52 + lastBit q := by
    unfold lastBit at hbit ⊢
    omega
  constructor
  · apply le_abs_roundHalfEven
    have hlow := Int.zpow_log_le_self (b := 2) (by norm_num) (abs_pos.mpr hq)
    rw [hlog] at hlow
    push_cast at hlow ⊢
    rw [abs_mul, abs_of_pos (two_zpow_pos _)]
    calc (2 : ℚ) ^ 52 = 2 ^ (52 + lastBit q) * 2 ^ (-lastBit q) := by
          rw [← zpow_add₀ (by norm_num), add_neg_cancel_right]
          norm_num
      _ ≤ |q| * 2 ^ (-lastBit q) := mul_le_mul_of_nonneg_right hlow (two_zpow_pos _).le
  · obtain ⟨hlo, hhi⟩ := abs_le.mp (scaled_le q)
    apply abs_le.mpr
    constructor
    · exact le_roundHalfEven (by push_cast; exact hlo)
    · exact roundHalfEven_le (by push_cast; exact hhi)

theorem abs_roundBinary64 (q : ℚ) : |roundBinary64 q| =
    (|roundHalfEven (q * 2 ^ (-lastBit q))| : ℤ) * 2 ^ lastBit q := by
  rw [roundBinary64, abs_mul, abs_of_pos (two_zpow_pos _)]
  push_cast
  rfl

section

variable {x y : ℚ} {m e : ℤ}

/-- Between two powers of two the units stay the same close by. -/
theorem lastBit_near (he : -1074 ≤ e) (hx : x = m * 2 ^ e) (hlo : 2 ^ 52 < |m|)
    (hhi : |m| < 2 ^ 53) (hnear : |y - x| < 2 ^ (e - 1)) : lastBit y = e := by
  have hpos := two_zpow_pos e
  have hm : (2 ^ 52 + 1 : ℚ) ≤ (|m| : ℤ) ∧ ((|m| : ℤ) : ℚ) ≤ 2 ^ 53 - 1 := by
    have hint : 2 ^ 52 + 1 ≤ |m| ∧ |m| ≤ 2 ^ 53 - 1 := by omega
    exact ⟨by exact_mod_cast hint.1, by exact_mod_cast hint.2⟩
  have habs : |x| = (|m| : ℤ) * 2 ^ e := by
    rw [hx, abs_mul, abs_of_pos hpos]
    push_cast
    rfl
  rw [zpow_sub_one₀ (by norm_num)] at hnear
  obtain ⟨hbelow, habove⟩ := abs_lt.mp ((abs_abs_sub_abs_le y x).trans_lt hnear)
  rw [habs] at hbelow habove
  apply lastBit_eq he
  · rw [zpow_add₀ (by norm_num)]
    norm_num
    nlinarith [mul_le_mul_of_nonneg_right hm.1 hpos.le]
  · rw [zpow_add₀ (by norm_num)]
    norm_num
    nlinarith [mul_le_mul_of_nonneg_right hm.2 hpos.le]

theorem roundHalfEven_near (hx : x = m * 2 ^ e) (hnear : |y - x| < 2 ^ (e - 1)) :
    roundHalfEven (y * 2 ^ (-e)) = m := by
  have hdiff : y * 2 ^ (-e) - m = (y - x) * 2 ^ (-e) := by
    rw [hx, sub_mul, mul_assoc, ← zpow_add₀ (by norm_num), add_neg_cancel, zpow_zero, mul_one]
  have hscaled : |y * 2 ^ (-e) - m| < 1 / 2 := by
    rw [zpow_sub_one₀ (by norm_num)] at hnear
    rw [hdiff, abs_mul, abs_of_pos (two_zpow_pos _)]
    calc |y - x| * 2 ^ (-e)
        < 2 ^ e * 2⁻¹ * 2 ^ (-e) := mul_lt_mul_of_pos_right hnear (two_zpow_pos _)
      _ = 1 / 2 := by
        rw [mul_right_comm, ← zpow_add₀ (by norm_num), add_neg_cancel, zpow_zero]
        norm_num
  exact eq_of_close (abs_roundHalfEven_sub _) hscaled

end

/-- What is closer to a rounded value than half a unit of its last bit rounds to
it as well. Only below a power of two the units are smaller. -/
theorem roundBinary64_near {q y : ℚ} (hq : q ≠ 0) (hbit : -1074 < lastBit q)
    (hnear : |y - roundBinary64 q| < 2 ^ (lastBit q - 1))
    (hpower : (∃ k : ℤ, |roundBinary64 q| = 2 ^ k) → y = roundBinary64 q) :
    roundBinary64 y = roundBinary64 q := by
  obtain ⟨hlo, hhi⟩ := significand_bounds hq hbit
  have habs := abs_roundBinary64 q
  have hround : roundBinary64 q = roundHalfEven (q * 2 ^ (-lastBit q)) * 2 ^ lastBit q := rfl
  generalize lastBit q = e at *
  generalize roundHalfEven (q * 2 ^ (-e)) = m at *
  by_cases hends : |m| = 2 ^ 52 ∨ |m| = 2 ^ 53
  · have hpow : ∃ k : ℤ, |roundBinary64 q| = 2 ^ k := by
      rw [habs]
      rcases hends with hm | hm
      · exact ⟨52 + e, by rw [hm, zpow_add₀ (by norm_num)]; norm_num⟩
      · exact ⟨53 + e, by rw [hm, zpow_add₀ (by norm_num)]; norm_num⟩
    rw [hpower hpow]
    exact roundBinary64_exact hhi hbit.le hround
  · have hbit' := lastBit_near hbit.le hround (by omega) (by omega) hnear
    rw [roundBinary64, hbit', roundHalfEven_near hround hnear, hround]

/-! ## Six decimals -/

theorem ofRat_eq_finite {q x : ℚ} (h : IsBinary64 x) :
    ofRat q = .finite x h ↔ roundBinary64 q = x := by
  constructor
  · intro hq
    unfold ofRat at hq
    split at hq
    · cases hq
      rfl
    · cases hq
  · intro hq
    have hlt := h.2
    simp only [ofRat, hq, hlt, dif_pos]

/-- The units are so small that the six decimals can be told. -/
theorem roundFixed_fine {q : ℚ} {n : ℤ} (hn : q * 10 ^ 6 = n) (hbit : lastBit q ≤ -20) :
    roundFixed 6 (roundBinary64 q) = q := by
  have herror : |roundBinary64 q * 10 ^ 6 - n| < 1 / 2 := by
    rw [← hn, ← sub_mul, abs_mul, abs_of_pos (by norm_num : (0 : ℚ) < 10 ^ 6)]
    calc |roundBinary64 q - q| * 10 ^ 6
        ≤ 2 ^ (lastBit q - 1) * 10 ^ 6 :=
          mul_le_mul_of_nonneg_right (abs_roundBinary64_sub q) (by norm_num)
      _ ≤ 2 ^ (-21 : ℤ) * 10 ^ 6 := by
          apply mul_le_mul_of_nonneg_right _ (by norm_num)
          exact zpow_le_zpow_right₀ (by norm_num) (by omega)
      _ < 1 / 2 := by norm_num
  rw [roundFixed, fixedUnits_eq herror, ← hn, mul_div_cancel_right₀ q (by norm_num)]

theorem two_zpow_le_roundBinary64 {q : ℚ} (hq : q ≠ 0) {e : ℤ} (he : -1074 < e)
    (hbit : e ≤ lastBit q) : 2 ^ (52 + e) ≤ |roundBinary64 q| := by
  have hlo : ((2 ^ 52 : ℤ) : ℚ) ≤ (|roundHalfEven (q * 2 ^ (-lastBit q))| : ℤ) := by
    exact_mod_cast (significand_bounds hq (by omega)).1
  rw [abs_roundBinary64]
  calc (2 : ℚ) ^ (52 + e) = ((2 ^ 52 : ℤ) : ℚ) * 2 ^ e := by
        rw [zpow_add₀ (by norm_num)]
        norm_num
    _ ≤ (|roundHalfEven (q * 2 ^ (-lastBit q))| : ℤ) * 2 ^ lastBit q :=
      mul_le_mul hlo (zpow_le_zpow_right₀ (by norm_num) hbit) (two_zpow_pos _).le
        (by exact_mod_cast abs_nonneg _)

/-- A power of two that is not below one has no decimals. -/
theorem roundFixed_two_zpow {x : ℚ} {k : ℤ} (hk : 0 ≤ k) (hx : |x| = 2 ^ k) :
    roundFixed 6 x = x := by
  obtain ⟨j, rfl⟩ := Int.eq_ofNat_of_zero_le hk
  rw [zpow_natCast] at hx
  rcases (abs_eq (by positivity)).mp hx with hx | hx
  · exact roundFixed_exact (n := 2 ^ j * 10 ^ 6) (by rw [hx]; push_cast; rfl)
  · exact roundFixed_exact (n := -(2 ^ j * 10 ^ 6)) (by rw [hx]; push_cast; ring)

/-- The nearest double to a number with six decimals is printed as that number,
or its neighbours are further apart than six decimals can tell. -/
theorem roundBinary64_roundFixed {q : ℚ} {n : ℤ} (hn : q * 10 ^ 6 = n) :
    roundBinary64 (roundFixed 6 (roundBinary64 q)) = roundBinary64 q := by
  rcases le_or_gt (lastBit q) (-20) with hfine | hcoarse
  · rw [roundFixed_fine hn hfine]
  · have hq : q ≠ 0 := by
      rintro rfl
      simp [lastBit] at hcoarse
    apply roundBinary64_near hq (by omega)
    · calc |roundFixed 6 (roundBinary64 q) - roundBinary64 q|
          ≤ 1 / (2 * 10 ^ 6) := abs_roundFixed_sub 6 _
        _ < 2 ^ (-20 : ℤ) := by norm_num
        _ ≤ 2 ^ (lastBit q - 1) := zpow_le_zpow_right₀ (by norm_num) (by omega)
    · rintro ⟨k, hk⟩
      have hsize := two_zpow_le_roundBinary64 hq (e := -19) (by norm_num) (by omega)
      rw [hk] at hsize
      have hpos := (zpow_le_zpow_iff_right₀ (by norm_num : (1 : ℚ) < 2)).mp hsize
      exact roundFixed_two_zpow (by omega) hk

/-- The text reads back as the double it was printed from exactly if that is the
nearest one to a number with six decimals. -/
theorem toFixed_reads_iff {x : ℚ} (hx : IsBinary64 x) :
    fromChars (toFixed (.finite x hx)) = some (.finite x hx) ↔
      ∃ n : ℤ, ofRat (n / 10 ^ 6) = .finite x hx := by
  rw [fromChars_toFixed]
  constructor
  · intro h
    refine ⟨fixedUnits 6 x, ?_⟩
    change ofRat (roundFixed 6 x) = _
    unfold inRange at h
    cases hd : ofRat (roundFixed 6 x) with
    | nan =>
      rw [hd] at h
      cases h
    | infinite negative =>
      rw [hd] at h
      cases h
    | finite y hy =>
      rw [hd, checkRange] at h
      split at h
      · cases h
      · exact Option.some.inj h
  · rintro ⟨n, hn⟩
    have hround := (ofRat_eq_finite hx).mp hn
    have hback := roundBinary64_roundFixed (q := n / 10 ^ 6) (n := n) (by field_simp)
    rw [hround] at hback
    rw [inRange, (ofRat_eq_finite hx).mpr hback, checkRange, if_neg]
    rintro ⟨rfl, hne⟩
    exact hne (roundFixed_exact (n := 0) (by norm_num))

end Double
