import Mathlib.Algebra.Order.Field.Rat
import Mathlib.Data.Bool.AllAny
import Mathlib.Logic.Function.Iterate
import Mathlib.Order.WithBot
import MqttExporter.Base.Decimal

/-!
# Double precision numbers

Binary64 as exact rationals: a finite value carries the proof that the format
has it, and an operation rounds its exact result to the nearest even value.
The two zeros are one value here, and the values that are no number are another,
so their signs are not printed.

* `ofRat_exact`: a value of the format is not changed by rounding, so integers
  up to `2 ^ 53` are exact (`ofInt_exact`);
* `succ_exact`: counting by one is exact up to there, and stops there
  (`iterate_succ`);
* `le_iff_rank`: on numbers, comparison is a linear order;
* `fromChars_showInt`: reading the decimal text of such an integer.
-/

/-- The finite values of the format. -/
def IsBinary64 (x : ℚ) : Prop :=
  (∃ m e : ℤ, |m| ≤ 2 ^ 53 ∧ -1074 ≤ e ∧ x = m * 2 ^ e) ∧ |x| < 2 ^ 1024

inductive Double where
  | finite (x : ℚ) (h : IsBinary64 x)
  | infinite (negative : Bool)
  | nan
  deriving DecidableEq

namespace Double

open Decimal

/-! ## Rounding -/

/-- The exponent of the last bit of the values around `q`. -/
def lastBit (q : ℚ) : ℤ := max (Int.log 2 |q| - 52) (-1074)

def roundBinary64 (q : ℚ) : ℚ := roundHalfEven (q * 2 ^ (-lastBit q)) * 2 ^ lastBit q

theorem two_zpow_pos (k : ℤ) : (0 : ℚ) < 2 ^ k := zpow_pos (by norm_num) k

theorem scaled_le (q : ℚ) : |q * 2 ^ (-lastBit q)| ≤ 2 ^ 53 := by
  have hlt := Int.lt_zpow_succ_log_self (b := 2) (by norm_num) |q|
  push_cast at hlt
  rw [abs_mul, abs_of_pos (two_zpow_pos _)]
  calc |q| * 2 ^ (-lastBit q)
      ≤ 2 ^ (Int.log 2 |q| + 1) * 2 ^ (-lastBit q) :=
        mul_le_mul_of_nonneg_right hlt.le (two_zpow_pos _).le
    _ = 2 ^ (Int.log 2 |q| + 1 + -lastBit q) := (zpow_add₀ (by norm_num) _ _).symm
    _ ≤ 2 ^ (53 : ℤ) := by
        apply zpow_le_zpow_right₀ (by norm_num)
        unfold lastBit
        omega
    _ = 2 ^ 53 := by norm_num

/-- Rounding lands on a value with 53 bits. -/
theorem roundBinary64_bits (q : ℚ) :
    ∃ m e : ℤ, |m| ≤ 2 ^ 53 ∧ -1074 ≤ e ∧ roundBinary64 q = m * 2 ^ e := by
  obtain ⟨hlo, hhi⟩ := abs_le.mp (scaled_le q)
  refine ⟨_, lastBit q, abs_le.mpr ⟨le_roundHalfEven ?_, roundHalfEven_le ?_⟩, ?_, rfl⟩
  · push_cast
    exact hlo
  · push_cast
    exact hhi
  · exact le_max_right _ _

theorem lastBit_le {x : ℚ} {m e : ℤ} (hm0 : m ≠ 0) (hm : |m| < 2 ^ 53) (he : -1074 ≤ e)
    (hx : x = m * 2 ^ e) : lastBit x ≤ e := by
  have habs : |x| = |m| * 2 ^ e := by
    rw [hx, abs_mul, abs_of_pos (two_zpow_pos e)]
    norm_cast
  have hxpos : 0 < |x| := by
    rw [habs]
    exact mul_pos (by exact_mod_cast abs_pos.mpr hm0) (two_zpow_pos e)
  have hlog := Int.zpow_log_le_self (b := 2) (by norm_num) hxpos
  push_cast at hlog
  have hxlt : |x| < 2 ^ (53 + e) := by
    rw [habs, zpow_add₀ (by norm_num)]
    apply mul_lt_mul_of_pos_right _ (two_zpow_pos e)
    norm_num
    exact_mod_cast hm
  have := (zpow_lt_zpow_iff_right₀ (by norm_num : (1 : ℚ) < 2)).mp (hlog.trans_lt hxlt)
  unfold lastBit
  omega

theorem lastBit_two_zpow {x : ℚ} {k : ℤ} (hx : |x| = 2 ^ k) (hk : -1074 ≤ k) : lastBit x ≤ k := by
  have hlog : Int.log 2 |x| = k := by
    rw [hx]
    exact_mod_cast Int.log_zpow (R := ℚ) (b := 2) (by norm_num) k
  unfold lastBit
  omega

theorem roundBinary64_exact {x : ℚ} {m e : ℤ} (hm : |m| ≤ 2 ^ 53) (he : -1074 ≤ e)
    (hx : x = m * 2 ^ e) : roundBinary64 x = x := by
  -- the scaled value is an integer, so rounding keeps it
  have hint : ∃ n : ℤ, x * 2 ^ (-lastBit x) = n := by
    rcases eq_or_ne m 0 with rfl | hm0
    · exact ⟨0, by simp [hx]⟩
    rcases lt_or_eq_of_le hm with hlt | heq
    · have hbit := lastBit_le hm0 hlt he hx
      obtain ⟨n, hn⟩ := scaled_int (b := 2) (c := 2) (by norm_num) (by norm_num) m
        (k := e) (l := -lastBit x) (by omega)
      exact ⟨n, by rw [← hn, ← hx]⟩
    · -- `2 ^ 53` itself has one more binary digit, and its last one is zero
      obtain ⟨s, hs, hs1⟩ : ∃ s : ℤ, m = s * 2 ^ 53 ∧ |s| = 1 := by
        rcases abs_eq (by norm_num : (0 : ℤ) ≤ 2 ^ 53) |>.mp heq with h | h
        · exact ⟨1, by rw [h]; norm_num, rfl⟩
        · exact ⟨-1, by rw [h]; norm_num, rfl⟩
      have hx' : x = s * 2 ^ (53 + e) := by
        rw [hx, hs, zpow_add₀ (by norm_num)]
        push_cast
        ring
      have habs : |x| = 2 ^ (53 + e) := by
        rw [hx', abs_mul, abs_of_pos (two_zpow_pos _)]
        norm_cast
        rw [hs1]
        simp
      have hbit := lastBit_two_zpow habs (by omega)
      obtain ⟨n, hn⟩ := scaled_int (b := 2) (c := 2) (by norm_num) (by norm_num) s
        (k := 53 + e) (l := -lastBit x) (by omega)
      exact ⟨n, by rw [← hn, ← hx']⟩
  obtain ⟨n, hn⟩ := hint
  rw [roundBinary64, hn, roundHalfEven_intCast, ← hn, mul_assoc, ← zpow_add₀ (by norm_num),
    neg_add_cancel, zpow_zero, mul_one]

/-- The value of the format that an exact result rounds to. -/
def ofRat (q : ℚ) : Double :=
  if h : |roundBinary64 q| < 2 ^ 1024 then .finite (roundBinary64 q) ⟨roundBinary64_bits q, h⟩
  else .infinite (q < 0)

theorem ofRat_exact {x : ℚ} (h : IsBinary64 x) : ofRat x = .finite x h := by
  obtain ⟨⟨m, e, hm, he, hx⟩, hlt⟩ := h
  have hr := roundBinary64_exact hm he hx
  simp only [ofRat, hr, hlt, dif_pos]

theorem isBinary64_int {n : ℤ} (h : |n| ≤ 2 ^ 53) : IsBinary64 n := by
  refine ⟨⟨n, 0, h, by norm_num, by simp⟩, ?_⟩
  calc |(n : ℚ)| ≤ 2 ^ 53 := by exact_mod_cast h
    _ < 2 ^ 1024 := pow_lt_pow_right₀ (by norm_num) (by norm_num)

def ofInt (n : ℤ) : Double := ofRat n

theorem ofInt_exact {n : ℤ} (h : |n| ≤ 2 ^ 53) : ofInt n = .finite n (isBinary64_int h) :=
  ofRat_exact (isBinary64_int h)

/-! ## Arithmetic and comparison -/

/-- `++d`. -/
def succ : Double → Double
  | .finite x _ => ofRat (x + 1)
  | d => d

theorem abs_natCast_le {n : ℕ} (h : n ≤ 2 ^ 53) : |(n : ℤ)| ≤ 2 ^ 53 := by
  rw [Nat.abs_cast]
  exact_mod_cast h

theorem ofInt_natCast {n : ℕ} (h : n ≤ 2 ^ 53) :
    ofInt n = .finite (n : ℤ) (isBinary64_int (abs_natCast_le h)) :=
  ofInt_exact (abs_natCast_le h)

theorem succ_exact {n : ℕ} (h : n < 2 ^ 53) : (ofInt n).succ = ofInt (n + 1 : ℕ) := by
  rw [ofInt_natCast h.le, succ, ofInt]
  push_cast
  rfl

/-- `a <= b`: false when either is not a number. -/
def le : Double → Double → Bool
  | .nan, _ => false
  | _, .nan => false
  | .infinite true, _ => true
  | _, .infinite false => true
  | .infinite false, _ => false
  | _, .infinite true => false
  | .finite x _, .finite y _ => x ≤ y

def lt (a b : Double) : Bool := a.le b && !b.le a

/-! ## Order -/

/-- The place of a number among the numbers, the infinite ones included. -/
def rank : Double → WithBot (WithTop ℚ)
  | .finite x _ => ((x : WithTop ℚ) : WithBot (WithTop ℚ))
  | .infinite true => ⊥
  | .infinite false => ((⊤ : WithTop ℚ) : WithBot (WithTop ℚ))
  | .nan => ⊥

theorem le_iff_rank {a b : Double} (ha : a ≠ .nan) (hb : b ≠ .nan) :
    a.le b = true ↔ a.rank ≤ b.rank := by
  cases a with
  | nan => exact absurd rfl ha
  | finite x hx =>
    cases b with
    | nan => exact absurd rfl hb
    | finite y hy => simp [le, rank]
    | infinite negative => cases negative <;> simp [le, rank]
  | infinite negative =>
    cases b with
    | nan => exact absurd rfl hb
    | finite y hy => cases negative <;> simp [le, rank]
    | infinite negative' => cases negative <;> cases negative' <;> simp [le, rank]

theorem le_trans_rank {a b c : Double} (hb : b ≠ .nan) (hc : c ≠ .nan) (hab : a.le b = true)
    (hbc : b.rank ≤ c.rank) : a.le c = true := by
  have ha : a ≠ .nan := by
    rintro rfl
    cases hab
  exact (le_iff_rank ha hc).mpr (((le_iff_rank ha hb).mp hab).trans hbc)

/-! ## Counting -/

theorem roundBinary64_limit : roundBinary64 (2 ^ 53 + 1) = 2 ^ 53 := by
  have hlog : Int.log 2 |(2 ^ 53 + 1 : ℚ)| = 53 := by
    have hcast : |(2 ^ 53 + 1 : ℚ)| = ((2 ^ 53 + 1 : ℕ) : ℚ) := by
      rw [abs_of_pos (by positivity)]
      norm_num
    have hnat : Nat.log 2 (2 ^ 53 + 1) = 53 := by
      rw [Nat.log_eq_iff (Or.inl (by norm_num))]
      norm_num
    rw [hcast, Int.log_natCast, hnat]
    rfl
  have hround : roundHalfEven ((2 ^ 53 + 1) * 2 ^ (-1 : ℤ)) = 2 ^ 52 := by
    norm_num [roundHalfEven]
  have hbit : lastBit (2 ^ 53 + 1) = 1 := by
    rw [lastBit, hlog]
    norm_num
  rw [roundBinary64, hbit, hround]
  norm_num

/-- `2 ^ 53` is the first whole number that one more does not change. -/
theorem succ_limit {n : ℕ} (h : n = 2 ^ 53) : (ofInt n).succ = ofInt n := by
  have hbound := abs_natCast_le h.le
  have hround : roundBinary64 ((n : ℤ) + 1 : ℚ) = (n : ℤ) := by
    rw [h]
    exact_mod_cast roundBinary64_limit
  have hlt := (isBinary64_int hbound).2
  rw [ofInt_exact hbound, succ]
  simp only [ofRat, hround, hlt, dif_pos]

/-- One more, as far as counting goes. -/
theorem succ_count (n : ℕ) :
    (ofInt (min n (2 ^ 53) : ℕ)).succ = ofInt (min (n + 1) (2 ^ 53) : ℕ) := by
  rcases Nat.lt_or_ge n (2 ^ 53) with h | h
  · rw [min_eq_left h.le, min_eq_left (show n + 1 ≤ 2 ^ 53 from h), succ_exact h]
  · rw [min_eq_right h, min_eq_right (h.trans (Nat.le_succ n)), succ_limit rfl]

theorem iterate_succ (n : ℕ) : succ^[n] (ofInt 0) = ofInt (min n (2 ^ 53) : ℕ) := by
  induction n with
  | zero => rfl
  | succ n ih => rw [Function.iterate_succ_apply', ih, succ_count]

theorem ofInt_le {m n : ℕ} (hm : m ≤ n) (hn : n ≤ 2 ^ 53) : (ofInt m).le (ofInt n) = true := by
  rw [ofInt_natCast (hm.trans hn), ofInt_natCast hn]
  simpa [le] using hm

/-- Counted up from zero. -/
def IsCount (d : Double) : Prop := ∃ n, d = succ^[n] (ofInt 0)

def Rises (d d' : Double) : Prop := ∃ k, d' = succ^[k] d

theorem rises_refl (d : Double) : Rises d d := ⟨0, rfl⟩

theorem Rises.trans {a b c : Double} (hab : Rises a b) (hbc : Rises b c) : Rises a c := by
  obtain ⟨k, rfl⟩ := hab
  obtain ⟨l, rfl⟩ := hbc
  exact ⟨l + k, (Function.iterate_add_apply succ l k a).symm⟩

theorem rises_succ (d : Double) : Rises d d.succ := ⟨1, rfl⟩

theorem IsCount.succ {d : Double} (h : IsCount d) : IsCount d.succ := by
  obtain ⟨n, rfl⟩ := h
  exact ⟨n + 1, (Function.iterate_succ_apply' Double.succ n _).symm⟩

theorem IsCount.le_of_rises {d d' : Double} (h : IsCount d) (hr : Rises d d') :
    d.le d' = true := by
  obtain ⟨n, rfl⟩ := h
  obtain ⟨k, rfl⟩ := hr
  rw [← Function.iterate_add_apply, iterate_succ, iterate_succ]
  apply ofInt_le
  · omega
  · exact min_le_right _ _

theorem roundBinary64_pos {n : ℕ} (h : n ≠ 0) : 0 < roundBinary64 n := by
  have hone : (1 : ℚ) ≤ n := by exact_mod_cast Nat.one_le_iff_ne_zero.mpr h
  have hpos : (0 : ℚ) < n := zero_lt_one.trans_le hone
  have hlog : 0 ≤ Int.log 2 (n : ℚ) := by
    rw [Int.log_natCast]
    exact Int.natCast_nonneg _
  -- the last bit is not above the first, so the scaled value is at least one
  have hbit : (2 : ℚ) ^ lastBit n ≤ n := by
    calc (2 : ℚ) ^ lastBit n ≤ 2 ^ Int.log 2 (n : ℚ) := by
          apply zpow_le_zpow_right₀ (by norm_num)
          rw [lastBit, abs_of_pos hpos]
          omega
      _ ≤ n := by exact_mod_cast Int.zpow_log_le_self (b := 2) (by norm_num) hpos
  have hscaled : ((1 : ℤ) : ℚ) ≤ n * 2 ^ (-lastBit n) := by
    rw [zpow_neg, ← div_eq_mul_inv, Int.cast_one]
    exact (one_le_div (two_zpow_pos _)).mpr hbit
  have hround := le_roundHalfEven hscaled
  exact mul_pos (by exact_mod_cast hround) (two_zpow_pos _)

theorem ofInt_eq_zero {n : ℕ} : ofInt n = ofInt 0 ↔ n = 0 := by
  constructor
  · intro h
    by_contra hn
    have hpos := roundBinary64_pos hn
    have hzero : ofInt 0 = .finite (0 : ℤ) (isBinary64_int (by norm_num)) :=
      ofInt_exact (by norm_num)
    rw [hzero, ofInt, ofRat] at h
    split at h
    · simp only [finite.injEq, Int.cast_natCast, Int.cast_zero] at h
      exact absurd h hpos.ne'
    · cases h
  · rintro rfl
    rfl

/-- The even numbers behind it are there, but counting does not reach them. -/
theorem ofInt_past_limit {n : ℕ} (h : n = 2 ^ 53) : ofInt (n + 2 : ℕ) ≠ ofInt n := by
  have hnext : IsBinary64 ((n + 2 : ℕ) : ℤ) := by
    refine ⟨⟨2 ^ 52 + 1, 1, by norm_num, by norm_num, ?_⟩, ?_⟩
    · rw [h]
      norm_num
    · rw [h]
      calc |(((2 ^ 53 + 2 : ℕ) : ℤ) : ℚ)| ≤ 2 ^ 54 := by
            rw [abs_of_nonneg (by positivity)]
            norm_num
        _ < 2 ^ 1024 := pow_lt_pow_right₀ (by norm_num) (by norm_num)
  rw [ofInt_natCast h.le, ofInt, ofRat_exact hnext]
  simp

/-! ## Text -/

/-- `stream << d` with the default precision of six. -/
def text : Double → List Char
  | .finite x _ => showGeneral 6 x
  | .infinite negative => if negative then "-inf".toList else "inf".toList
  | .nan => "nan".toList

/-- `std::to_string(d)`: six decimals. -/
def toFixed : Double → List Char
  | .finite x _ => showFixed 6 x
  | d => d.text

/-- No text of a number contains one of these. -/
def IsBreak (c : Char) : Prop := c ∈ " \n\"".toList

instance (c : Char) : Decidable (IsBreak c) := inferInstanceAs (Decidable (c ∈ _))

theorem no_break_of_numeral {s : List Char} (h : Numeral s) {c : Char} (hc : IsBreak c) :
    c ∉ s := by
  have hall : ∀ d ∈ " \n\"".toList, d.isDigit = false ∧ d ∉ "-+.e".toList :=
    List.all_iff_forall_prop.mp (by decide)
  intro hm
  obtain ⟨hdigit, hmark⟩ := hall c hc
  rcases h c hm with hd | hd
  · rw [hdigit] at hd
    cases hd
  · exact hmark hd

theorem text_no_break (d : Double) {c : Char} (hc : IsBreak c) : c ∉ d.text := by
  cases d with
  | finite x h => exact no_break_of_numeral (numeral_showGeneral 6 x) hc
  | infinite negative =>
    have hall : ∀ d ∈ " \n\"".toList, ∀ b, d ∉ (Double.infinite b).text :=
      List.all_iff_forall_prop.mp (by decide)
    exact hall c hc negative
  | nan =>
    have hall : ∀ d ∈ " \n\"".toList, d ∉ Double.nan.text :=
      List.all_iff_forall_prop.mp (by decide)
    exact hall c hc

theorem toFixed_no_break (d : Double) {c : Char} (hc : IsBreak c) : c ∉ d.toFixed := by
  cases d with
  | finite x h => exact no_break_of_numeral (numeral_showFixed 6 x) hc
  | infinite negative => exact text_no_break (.infinite negative) hc
  | nan => exact text_no_break .nan hc

/-- Out of range, overflow or underflow, leaves the target unmodified. -/
def checkRange (x : ℚ) : Double → Option Double
  | .finite y h => if y = 0 ∧ x ≠ 0 then none else some (.finite y h)
  | _ => none

def inRange (x : ℚ) : Option Double := checkRange x (ofRat x)

def fromCharsUnsigned (negative : Bool) (s : List Char) : Option Double :=
  match scanUnsigned s with
  | some (x, _) => inRange (if negative then -x else x)
  | none =>
    if "inf".toList.isPrefixOf (s.map Char.toLower) then some (.infinite negative)
    else if "nan".toList.isPrefixOf (s.map Char.toLower) then some .nan
    else none

/-- `std::from_chars`: the number at the front of a text, or none, and then the
target keeps its value. A minus sign is read, a plus sign or a blank is not. -/
def fromChars (s : List Char) : Option Double :=
  match s with
  | '-' :: r => fromCharsUnsigned true r
  | _ => fromCharsUnsigned false s

/-- The decimal text of an integer. -/
def showInt (n : ℤ) : List Char :=
  if n < 0 then '-' :: Nat.toDigits 10 n.natAbs else Nat.toDigits 10 n.natAbs

theorem scanUnsigned_toDigits (n : ℕ) : scanUnsigned (Nat.toDigits 10 n) = some ((n : ℚ), []) := by
  have h := @scanUnsigned_withPoint _ [] [] (allDigits_toDigits n) Nat.toDigits_ne_nil
    (by simp [AllDigits]) (by simp [NoDigitAhead]) (by simp)
  simpa [trimZeros, withPoint, scanExponent] using h

theorem inRange_int {n : ℤ} (h : |n| ≤ 2 ^ 53) : inRange n = some (ofInt n) := by
  have hr := ofRat_exact (isBinary64_int h)
  rw [inRange, ofInt, hr, checkRange]
  split
  · rename_i hc
    exact absurd hc.1 hc.2
  · rfl

theorem fromChars_of_unsigned {s r : List Char} {x : ℚ} (h : scanUnsigned s = some (x, r)) :
    fromChars s = inRange x ∧ fromChars ('-' :: s) = inRange (-x) := by
  constructor
  · have hminus : fromChars s = fromCharsUnsigned false s := by
      unfold fromChars
      split
      · rw [scanUnsigned_minus] at h
        cases h
      · rfl
    rw [hminus, fromCharsUnsigned, h]
    rfl
  · rw [fromChars, fromCharsUnsigned, h]
    rfl

theorem fromChars_showInt {n : ℤ} (h : |n| ≤ 2 ^ 53) : fromChars (showInt n) = some (ofInt n) := by
  obtain ⟨hplus, hminus⟩ := fromChars_of_unsigned (scanUnsigned_toDigits n.natAbs)
  unfold showInt
  split
  · rename_i hneg
    have habs : -((n.natAbs : ℕ) : ℚ) = (n : ℤ) := by
      rw [Nat.cast_natAbs, abs_of_neg hneg]
      push_cast
      ring
    rw [hminus, habs, inRange_int h]
  · rename_i hneg
    have habs : ((n.natAbs : ℕ) : ℚ) = (n : ℤ) := by
      rw [Nat.cast_natAbs, abs_of_nonneg (not_lt.mp hneg)]
    rw [hplus, habs, inRange_int h]

end Double
