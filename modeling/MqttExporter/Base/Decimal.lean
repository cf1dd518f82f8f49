import Mathlib.Data.Int.Log
import Mathlib.Data.Rat.Floor
import Mathlib.Data.List.DropRight
import Mathlib.Tactic.Linarith
import Mathlib.Tactic.NormNum
import Mathlib.Tactic.Positivity
import Mathlib.Tactic.FieldSimp
import Mathlib.Tactic.Ring

/-!
# Decimal text

Reading decimal numbers, and printing them with a limited number of
significant digits, as the general format of C and C++ does:

* `roundHalfEven`: to the nearest integer, ties to even;
* `readNumber`: the exact value of a decimal text;
* `showGeneral`: the general format, positional or with an exponent, without
  trailing zeros;
* `read_showGeneral`: what is printed reads back as the value rounded to that
  many significant digits, `roundSignificant`;
* `roundSignificant_error`, `roundSignificant_mono`: that is close to the value,
  and keeps the order.
-/

namespace Decimal

/-! ## Rounding -/

def roundHalfEven (q : ℚ) : ℤ :=
  let f := ⌊q⌋
  if 2 * (q - f) < 1 then f
  else if 1 < 2 * (q - f) then f + 1
  else if f % 2 = 0 then f else f + 1

theorem roundHalfEven_floor (q : ℚ) :
    roundHalfEven q = ⌊q⌋ ∨ (roundHalfEven q = ⌊q⌋ + 1 ∧ (⌊q⌋ : ℚ) < q) := by
  unfold roundHalfEven
  have hf := Int.floor_le q
  simp only
  split
  · exact Or.inl rfl
  · rename_i h
    have hlt : (⌊q⌋ : ℚ) < q := by linarith
    split
    · exact Or.inr ⟨rfl, hlt⟩
    · split
      · exact Or.inl rfl
      · exact Or.inr ⟨rfl, hlt⟩

@[simp] theorem roundHalfEven_intCast (n : ℤ) : roundHalfEven n = n := by
  simp [roundHalfEven]

theorem le_roundHalfEven {a : ℤ} {q : ℚ} (h : (a : ℚ) ≤ q) : a ≤ roundHalfEven q := by
  have hf : a ≤ ⌊q⌋ := Int.le_floor.mpr h
  rcases roundHalfEven_floor q with hr | ⟨hr, _⟩ <;> omega

theorem roundHalfEven_le {b : ℤ} {q : ℚ} (h : q ≤ (b : ℚ)) : roundHalfEven q ≤ b := by
  rcases roundHalfEven_floor q with hr | ⟨hr, hlt⟩
  · rw [hr]
    exact_mod_cast (Int.floor_le q).trans h
  · have : ⌊q⌋ < b := by exact_mod_cast hlt.trans_le h
    omega

theorem roundHalfEven_error (q : ℚ) : |(roundHalfEven q : ℚ) - q| ≤ 1 / 2 := by
  have hlo := Int.floor_le q
  have hhi := Int.lt_floor_add_one q
  rw [abs_le]
  unfold roundHalfEven
  simp only
  split
  · constructor <;> linarith
  · split
    · push_cast
      constructor <;> linarith
    · split
      · constructor <;> linarith
      · push_cast
        constructor <;> linarith

theorem roundHalfEven_mono {a b : ℚ} (h : a ≤ b) : roundHalfEven a ≤ roundHalfEven b := by
  rcases (Int.floor_mono h).lt_or_eq with hlt | heq
  · have hstep : ((⌊a⌋ + 1 : ℤ) : ℚ) ≤ b := by
      exact (Int.cast_le.mpr hlt).trans (Int.floor_le b)
    have hupper : roundHalfEven a ≤ ⌊a⌋ + 1 := by
      rcases roundHalfEven_floor a with hr | ⟨hr, -⟩ <;> omega
    exact hupper.trans (le_roundHalfEven hstep)
  · -- between the same integers: the fractions decide
    unfold roundHalfEven
    simp only [heq]
    split_ifs <;> first | omega | (exfalso; linarith)

/-! ## Digits -/

abbrev digitsValue (ds : List Char) : ℕ := Nat.ofDigitChars 10 ds 0

def AllDigits (ds : List Char) : Prop := ∀ c ∈ ds, c.isDigit = true

/-- No digit follows: the end of the text or another character. -/
def NoDigitAhead (s : List Char) : Prop := ∀ c ∈ s.head?, c.isDigit = false

theorem digitsValue_append (as bs : List Char) :
    digitsValue (as ++ bs) = digitsValue as * 10 ^ bs.length + digitsValue bs := by
  rw [digitsValue, Nat.ofDigitChars_append, Nat.ofDigitChars_eq_ofDigitChars_zero, Nat.mul_comm]

theorem digitsValue_zeros (n : ℕ) (ds : List Char) :
    digitsValue (List.replicate n '0' ++ ds) = digitsValue ds := by
  simp [digitsValue, Nat.ofDigitChars_append]

theorem allDigits_toDigits (n : ℕ) : AllDigits (Nat.toDigits 10 n) :=
  fun _ h => Nat.isDigit_of_mem_toDigits (by decide) (by decide) h

theorem AllDigits.append {as bs : List Char} (ha : AllDigits as) (hb : AllDigits bs) :
    AllDigits (as ++ bs) := by
  intro c hc
  rcases List.mem_append.mp hc with h | h
  · exact ha c h
  · exact hb c h

theorem AllDigits.sublist {as bs : List Char} (hb : AllDigits bs) (h : as.Sublist bs) :
    AllDigits as := fun c hc => hb c (h.subset hc)

theorem allDigits_zeros (n : ℕ) : AllDigits (List.replicate n '0') := by
  intro c hc
  rw [List.eq_of_mem_replicate hc]
  rfl

/-- The digits at the front of a text, and what follows them. -/
def scanDigits (s : List Char) : List Char × List Char := s.span Char.isDigit

theorem scanDigits_append {ds s : List Char} (hd : AllDigits ds) (hs : NoDigitAhead s) :
    scanDigits (ds ++ s) = (ds, s) := by
  rw [scanDigits, List.span_eq_takeWhile_dropWhile, List.takeWhile_append_of_pos hd,
    List.dropWhile_append_of_pos hd]
  cases s with
  | nil => simp
  | cons c s =>
    have hc : ¬ c.isDigit = true := by simpa [NoDigitAhead] using hs
    rw [List.takeWhile_cons_of_neg hc, List.dropWhile_cons_of_neg hc, List.append_nil]

/-! ## Reading -/

/-- Digits, then a point and digits when there is one: at least one digit. -/
def scanMantissa (s : List Char) : Option (List Char × List Char × List Char) :=
  let (ip, r) := scanDigits s
  match r with
  | '.' :: r =>
    let (fp, r') := scanDigits r
    if ip = [] ∧ fp = [] then none else some (ip, fp, r')
  | _ => if ip = [] then none else some (ip, [], r)

/-- The digits of an exponent; without any, the exponent is not there. -/
def scanExponentDigits (sign : ℤ) (whole r : List Char) : ℤ × List Char :=
  let (ds, r') := scanDigits r
  if ds = [] then (0, whole) else (sign * digitsValue ds, r')

def scanExponent (s : List Char) : ℤ × List Char :=
  match s with
  | c :: r =>
    if c = 'e' ∨ c = 'E' then
      match r with
      | '+' :: r => scanExponentDigits 1 s r
      | '-' :: r => scanExponentDigits (-1) s r
      | _ => scanExponentDigits 1 s r
    else (0, s)
  | [] => (0, [])

def scanUnsigned (s : List Char) : Option (ℚ × List Char) :=
  (scanMantissa s).map fun (ip, fp, r) =>
    let (e, r') := scanExponent r
    (digitsValue (ip ++ fp) * 10 ^ (e - fp.length), r')

/-- The longest number at the front of a text, and what follows it. -/
def scanNumber (s : List Char) : Option (ℚ × List Char) :=
  match s with
  | '-' :: r => (scanUnsigned r).map fun (x, r') => (-x, r')
  | _ => scanUnsigned s

/-- The value of a text that is a number as a whole. -/
def readNumber (s : List Char) : Option ℚ :=
  match scanNumber s with
  | some (x, []) => some x
  | _ => none

/-! ## Printing -/

/-- The `p` significant digits of `q > 0` as a number, and the exponent of the
first of them. Rounding up to `10 ^ p` moves the exponent. -/
def significand (p : ℕ) (q : ℚ) : ℕ × ℤ :=
  let x := Int.log 10 q
  let m := (roundHalfEven (q * 10 ^ (p - 1 - x))).toNat
  if m = 10 ^ p then (10 ^ (p - 1), x + 1) else (m, x)

/-- `q` rounded to `p` significant digits. -/
def roundSignificant (p : ℕ) (q : ℚ) : ℚ :=
  if q = 0 then 0
  else if q < 0 then -((significand p (-q)).1 * 10 ^ ((significand p (-q)).2 - (p - 1)))
  else (significand p q).1 * 10 ^ ((significand p q).2 - (p - 1))

def trimZeros (ds : List Char) : List Char := ds.rdropWhile (· = '0')

def withPoint (ip fp : List Char) : List Char := if fp = [] then ip else ip ++ '.' :: fp

/-- At least two digits. -/
def twoDigits (n : ℕ) : List Char :=
  if n < 10 then '0' :: Nat.toDigits 10 n else Nat.toDigits 10 n

def showExponent (x : ℤ) : List Char :=
  'e' :: (if x < 0 then '-' else '+') :: twoDigits x.natAbs

/-- Lay out the digits `ds` with exponent `x` for the precision `p`. -/
def layout (p : ℕ) (ds : List Char) (x : ℤ) : List Char :=
  if x < -4 ∨ p ≤ x then
    withPoint (ds.take 1) (trimZeros (ds.drop 1)) ++ showExponent x
  else if 0 ≤ x then
    withPoint (ds.take (x.toNat + 1)) (trimZeros (ds.drop (x.toNat + 1)))
  else
    withPoint ['0'] (trimZeros (List.replicate ((-x).toNat - 1) '0' ++ ds))

def showPositive (p : ℕ) (q : ℚ) : List Char :=
  layout p (Nat.toDigits 10 (significand p q).1) (significand p q).2

def showGeneral (p : ℕ) (q : ℚ) : List Char :=
  if q = 0 then ['0'] else if q < 0 then '-' :: showPositive p (-q) else showPositive p q

/-- Fixed notation with `p` decimals. -/
def showFixedPositive (p : ℕ) (q : ℚ) : List Char :=
  let n := (roundHalfEven (q * 10 ^ p)).toNat
  let fp := Nat.toDigits 10 (n % 10 ^ p)
  withPoint (Nat.toDigits 10 (n / 10 ^ p)) (List.replicate (p - fp.length) '0' ++ fp)

def showFixed (p : ℕ) (q : ℚ) : List Char :=
  if q < 0 then '-' :: showFixedPositive p (-q) else showFixedPositive p q

/-! ## The characters of a printed number -/

def Numeral (s : List Char) : Prop := ∀ c ∈ s, c.isDigit = true ∨ c ∈ "-+.e".toList

theorem AllDigits.numeral {ds : List Char} (h : AllDigits ds) : Numeral ds :=
  fun c hc => Or.inl (h c hc)

theorem Numeral.append {s t : List Char} (hs : Numeral s) (ht : Numeral t) : Numeral (s ++ t) :=
  fun c hc => (List.mem_append.mp hc).elim (hs c) (ht c)

theorem Numeral.cons {c : Char} {s : List Char} (hc : c ∈ "-+.e".toList) (hs : Numeral s) :
    Numeral (c :: s) := by
  intro d hd
  rcases List.mem_cons.mp hd with rfl | hd
  · exact Or.inr hc
  · exact hs d hd

theorem numeral_withPoint {ip fp : List Char} (hi : AllDigits ip) (hf : AllDigits fp) :
    Numeral (withPoint ip fp) := by
  unfold withPoint
  split
  · exact hi.numeral
  · exact hi.numeral.append (hf.numeral.cons (by decide))

theorem numeral_showExponent (x : ℤ) : Numeral (showExponent x) := by
  have hd : Numeral (twoDigits x.natAbs) := by
    unfold twoDigits
    split
    · exact AllDigits.numeral (List.forall_mem_cons.mpr ⟨rfl, allDigits_toDigits _⟩)
    · exact (allDigits_toDigits _).numeral
  refine Numeral.cons (by decide) (Numeral.cons ?_ hd)
  split <;> decide

theorem numeral_layout {p : ℕ} {ds : List Char} (hd : AllDigits ds) (x : ℤ) :
    Numeral (layout p ds x) := by
  have htrim : ∀ {es}, AllDigits es → AllDigits (trimZeros es) :=
    fun he => he.sublist (List.rdropWhile_prefix _ _).sublist
  unfold layout
  split
  · exact (numeral_withPoint (hd.sublist (List.take_sublist _ _))
      (htrim (hd.sublist (List.drop_sublist _ _)))).append (numeral_showExponent x)
  · split
    · exact numeral_withPoint (hd.sublist (List.take_sublist _ _))
        (htrim (hd.sublist (List.drop_sublist _ _)))
    · exact numeral_withPoint (by simp [AllDigits]) (htrim ((allDigits_zeros _).append hd))

theorem numeral_showGeneral (p : ℕ) (q : ℚ) : Numeral (showGeneral p q) := by
  have hpos : ∀ q, Numeral (showPositive p q) := fun q => numeral_layout (allDigits_toDigits _) _
  unfold showGeneral
  split
  · exact AllDigits.numeral (by simp [AllDigits])
  · split
    · exact (hpos (-q)).cons (by decide)
    · exact hpos q

theorem numeral_showFixed (p : ℕ) (q : ℚ) : Numeral (showFixed p q) := by
  have hpos : ∀ q, Numeral (showFixedPositive p q) := fun q =>
    numeral_withPoint (allDigits_toDigits _) ((allDigits_zeros _).append (allDigits_toDigits _))
  unfold showFixed
  split
  · exact (hpos (-q)).cons (by decide)
  · exact hpos q

/-! ## What is printed reads back -/

theorem trimZeros_append (ds : List Char) :
    ∃ k, ds = trimZeros ds ++ List.replicate k '0' := by
  refine ⟨(ds.rtakeWhile (· = '0')).length, ?_⟩
  have hz : ds.rtakeWhile (· = '0') = List.replicate (ds.rtakeWhile (· = '0')).length '0' := by
    apply List.eq_replicate_of_mem
    intro c hc
    simpa using List.mem_rtakeWhile_imp hc
  rw [← hz]
  exact List.rdropWhile_append_rtakeWhile.symm

/-- Trailing zeros of the fraction do not change the value. -/
theorem value_trimZeros (ip fp : List Char) (e : ℤ) :
    (digitsValue (ip ++ trimZeros fp) : ℚ) * 10 ^ (e - (trimZeros fp).length) =
      digitsValue (ip ++ fp) * 10 ^ (e - fp.length) := by
  obtain ⟨k, hk⟩ := trimZeros_append fp
  have hv : digitsValue (ip ++ fp) = digitsValue (ip ++ trimZeros fp) * 10 ^ k := by
    conv_lhs => rw [hk]
    have hz : digitsValue (List.replicate k '0') = 0 := by simp
    rw [← List.append_assoc, digitsValue_append, hz, List.length_replicate, Nat.add_zero]
  have hl : (fp.length : ℤ) = (trimZeros fp).length + k := by
    conv_lhs => rw [hk]
    simp
  rw [hv, hl]
  push_cast
  rw [mul_assoc, ← zpow_natCast, ← zpow_add₀ (by norm_num : (10 : ℚ) ≠ 0)]
  congr 2
  ring

theorem scanMantissa_withPoint {ip fp s : List Char} (hip : AllDigits ip) (hne : ip ≠ [])
    (hfp : AllDigits fp) (hs : NoDigitAhead s) (hpoint : s.head? ≠ some '.') :
    scanMantissa (withPoint ip fp ++ s) = some (ip, fp, s) := by
  unfold withPoint
  split
  · rename_i h
    rw [scanMantissa, scanDigits_append hip hs, h]
    cases s with
    | nil => simp [hne]
    | cons c s =>
      have hc : c ≠ '.' := by simpa using hpoint
      simp only [hne, if_false]
      split
      · rename_i heq
        exact absurd (List.cons.inj heq).1 hc
      · rfl
  · have hahead : NoDigitAhead ('.' :: (fp ++ s)) := by
      intro c hc
      rw [List.head?_cons, Option.mem_def, Option.some.injEq] at hc
      subst hc
      rfl
    rw [scanMantissa, List.append_assoc, List.cons_append, scanDigits_append hip hahead]
    simp only [scanDigits_append hfp hs, hne, false_and, if_false]

theorem twoDigits_spec (n : ℕ) :
    AllDigits (twoDigits n) ∧ twoDigits n ≠ [] ∧ digitsValue (twoDigits n) = n := by
  unfold twoDigits
  split
  · refine ⟨(allDigits_zeros 1).append (allDigits_toDigits n), by simp, ?_⟩
    have := digitsValue_zeros 1 (Nat.toDigits 10 n)
    rwa [digitsValue, digitsValue, Nat.ofDigitChars_ten_toDigits] at this
  · exact ⟨allDigits_toDigits n, Nat.toDigits_ne_nil, Nat.ofDigitChars_ten_toDigits⟩

theorem scanExponent_show (x : ℤ) : scanExponent (showExponent x) = (x, []) := by
  obtain ⟨hall, hne, hval⟩ := twoDigits_spec x.natAbs
  have hscan : scanDigits (twoDigits x.natAbs) = (twoDigits x.natAbs, []) := by
    simpa using scanDigits_append hall (s := []) (by simp [NoDigitAhead])
  have hdigits : ∀ sign whole, scanExponentDigits sign whole (twoDigits x.natAbs) =
      (sign * (x.natAbs : ℤ), []) := by
    intro sign whole
    simp only [scanExponentDigits, hscan, hne, if_false, hval]
  unfold showExponent scanExponent
  by_cases hx : x < 0
  · simp only [hx, if_true, true_or, hdigits, Prod.mk.injEq, and_true]
    omega
  · simp only [hx, if_false, true_or, if_true, hdigits, Prod.mk.injEq, and_true]
    omega

theorem scanUnsigned_withPoint {ip fp s : List Char} (hip : AllDigits ip) (hne : ip ≠ [])
    (hfp : AllDigits fp) (hs : NoDigitAhead s) (hpoint : s.head? ≠ some '.') :
    scanUnsigned (withPoint ip (trimZeros fp) ++ s) =
      some ((digitsValue (ip ++ fp) : ℚ) * 10 ^ ((scanExponent s).1 - fp.length),
        (scanExponent s).2) := by
  have htrim : AllDigits (trimZeros fp) := hfp.sublist (List.rdropWhile_prefix _ _).sublist
  rw [scanUnsigned, scanMantissa_withPoint hip hne htrim hs hpoint, Option.map_some]
  simp only [value_trimZeros]

theorem showExponent_ahead (x : ℤ) :
    NoDigitAhead (showExponent x) ∧ (showExponent x).head? ≠ some '.' := by
  refine ⟨?_, by simp [showExponent]⟩
  intro c hc
  rw [showExponent, List.head?_cons, Option.mem_def, Option.some.injEq] at hc
  subst hc
  rfl

theorem scanUnsigned_layout {p : ℕ} {ds : List Char} (hd : AllDigits ds) (hl : ds.length = p)
    (hp : 0 < p) (x : ℤ) :
    scanUnsigned (layout p ds x) = some ((digitsValue ds : ℚ) * 10 ^ (x - (p - 1)), []) := by
  have hnil : NoDigitAhead [] ∧ ([] : List Char).head? ≠ some '.' := by simp [NoDigitAhead]
  have hne : ∀ n, 0 < n → ds.take n ≠ [] := by
    intro n hn h
    have := congrArg List.length h
    rw [List.length_take, List.length_nil] at this
    omega
  unfold layout
  split
  · rw [scanUnsigned_withPoint (hd.sublist (List.take_sublist 1 ds)) (hne 1 Nat.one_pos)
      (hd.sublist (List.drop_sublist 1 ds)) (showExponent_ahead x).1 (showExponent_ahead x).2,
      scanExponent_show, List.take_append_drop, List.length_drop, hl, Nat.cast_sub hp,
      Nat.cast_one]
  · rename_i hx
    split
    · rename_i hx0
      have h := scanUnsigned_withPoint (hd.sublist (List.take_sublist (x.toNat + 1) ds))
        (hne (x.toNat + 1) x.toNat.succ_pos) (hd.sublist (List.drop_sublist (x.toNat + 1) ds))
        hnil.1 hnil.2
      rw [List.append_nil, List.take_append_drop, List.length_drop, hl,
        Nat.cast_sub (by omega)] at h
      rw [h]
      congr 4
      push_cast
      rw [scanExponent]
      omega
    · have h := scanUnsigned_withPoint (allDigits_zeros 1) (by simp)
        ((allDigits_zeros ((-x).toNat - 1)).append hd) hnil.1 hnil.2
      rw [List.append_nil, digitsValue_zeros, digitsValue_zeros, List.length_append,
        List.length_replicate, hl] at h
      rw [show ['0'] = List.replicate 1 '0' from rfl, h]
      congr 4
      rw [scanExponent]
      omega

/-- A sign is not part of an unsigned number. -/
theorem scanUnsigned_minus (r : List Char) : scanUnsigned ('-' :: r) = none := by
  have hd : scanDigits ('-' :: r) = ([], '-' :: r) :=
    @scanDigits_append [] ('-' :: r) (by simp [AllDigits]) (by simp [NoDigitAhead])
  simp [scanUnsigned, scanMantissa, hd]

theorem readNumber_of_unsigned {s : List Char} {x : ℚ} (h : scanUnsigned s = some (x, [])) :
    readNumber s = some x ∧ readNumber ('-' :: s) = some (-x) := by
  constructor
  · have hn : scanNumber s = scanUnsigned s := by
      unfold scanNumber
      split
      · rw [scanUnsigned_minus] at h
        cases h
      · rfl
    rw [readNumber, hn, h]
  · rw [readNumber, scanNumber, h, Option.map_some]

/-! ## Significant digits -/

theorem ten_zpow_pos (k : ℤ) : (0 : ℚ) < 10 ^ k := zpow_pos (by norm_num) k

/-- The scaled value lies between two powers of ten. -/
theorem scaled_bounds (p : ℕ) {q : ℚ} (hq : 0 < q) :
    (10 : ℚ) ^ ((p : ℤ) - 1) ≤ q * 10 ^ (p - 1 - Int.log 10 q) ∧
      q * 10 ^ (p - 1 - Int.log 10 q) < 10 ^ (p : ℤ) := by
  have hlo := Int.zpow_log_le_self (b := 10) (by norm_num) hq
  have hhi := Int.lt_zpow_succ_log_self (b := 10) (by norm_num) q
  push_cast at hlo hhi
  have hpos := ten_zpow_pos (p - 1 - Int.log 10 q)
  have h10 : (10 : ℚ) ≠ 0 := by norm_num
  constructor
  · calc (10 : ℚ) ^ ((p : ℤ) - 1)
        = 10 ^ Int.log 10 q * 10 ^ (p - 1 - Int.log 10 q) := by
          rw [← zpow_add₀ h10]; congr 1; ring
      _ ≤ _ := mul_le_mul_of_nonneg_right hlo hpos.le
  · calc q * 10 ^ (p - 1 - Int.log 10 q)
        < 10 ^ (Int.log 10 q + 1) * 10 ^ (p - 1 - Int.log 10 q) :=
          mul_lt_mul_of_pos_right hhi hpos
      _ = 10 ^ (p : ℤ) := by rw [← zpow_add₀ h10]; congr 1; ring

theorem rounded_bounds {p : ℕ} (hp : 0 < p) {q : ℚ} (hq : 0 < q) :
    (10 : ℤ) ^ (p - 1) ≤ roundHalfEven (q * 10 ^ (p - 1 - Int.log 10 q)) ∧
      roundHalfEven (q * 10 ^ (p - 1 - Int.log 10 q)) ≤ 10 ^ p := by
  obtain ⟨hlo, hhi⟩ := scaled_bounds p hq
  constructor
  · apply le_roundHalfEven
    push_cast
    rwa [← zpow_natCast, Nat.cast_sub hp]
  · apply roundHalfEven_le
    push_cast
    rw [← zpow_natCast]
    exact hhi.le

/-- The significand has exactly `p` digits. -/
theorem significand_digits {p : ℕ} (hp : 0 < p) {q : ℚ} (hq : 0 < q) :
    10 ^ (p - 1) ≤ (significand p q).1 ∧ (significand p q).1 < 10 ^ p := by
  obtain ⟨hlo, hhi⟩ := rounded_bounds hp hq
  have hstep : 10 ^ (p - 1) < 10 ^ p := Nat.pow_lt_pow_right (by decide) (by omega)
  unfold significand
  simp only
  split
  · exact ⟨le_refl _, hstep⟩
  · rename_i hne
    obtain ⟨m, hm⟩ := Int.eq_ofNat_of_zero_le ((by positivity : (0 : ℤ) ≤ 10 ^ (p - 1)).trans hlo)
    rw [hm, Int.toNat_natCast] at hne ⊢
    rw [hm] at hlo hhi
    exact ⟨by exact_mod_cast hlo, lt_of_le_of_ne (by exact_mod_cast hhi) hne⟩

theorem length_significand {p : ℕ} (hp : 0 < p) {q : ℚ} (hq : 0 < q) :
    (Nat.toDigits 10 (significand p q).1).length = p := by
  obtain ⟨hlo, hhi⟩ := significand_digits hp hq
  have hle := (Nat.length_toDigits_le_iff (by decide) hp).mpr hhi
  have hpos := Nat.length_toDigits_pos (b := 10) (n := (significand p q).1)
  by_contra hne
  have hk : 0 < p - 1 := by omega
  have := (Nat.length_toDigits_le_iff (n := (significand p q).1) (by decide : 1 < 10) hk).mp
    (by omega)
  omega

theorem scanUnsigned_showPositive {p : ℕ} (hp : 0 < p) {q : ℚ} (hq : 0 < q) :
    scanUnsigned (showPositive p q) =
      some (((significand p q).1 : ℚ) * 10 ^ ((significand p q).2 - (p - 1)), []) := by
  rw [showPositive, scanUnsigned_layout (allDigits_toDigits _) (length_significand hp hq) hp,
    digitsValue, Nat.ofDigitChars_ten_toDigits]

/-- What is printed reads back as the rounded value. -/
theorem read_showGeneral {p : ℕ} (hp : 0 < p) (q : ℚ) :
    readNumber (showGeneral p q) = some (roundSignificant p q) := by
  unfold showGeneral roundSignificant
  split
  · decide +kernel
  · rename_i h0
    split
    · rename_i hneg
      exact (readNumber_of_unsigned (scanUnsigned_showPositive hp (neg_pos.mpr hneg))).2
    · rename_i hneg
      have hpos : 0 < q := lt_of_le_of_ne (not_lt.mp hneg) (Ne.symm h0)
      exact (readNumber_of_unsigned (scanUnsigned_showPositive hp hpos)).1

/-- `q` is an integer of less than `p` digits, scaled by a power of ten. -/
def HasSignificant (p : ℕ) (q : ℚ) : Prop := ∃ m k : ℤ, |m| < 10 ^ p ∧ q = m * 10 ^ k

theorem roundSignificant_pos {p : ℕ} {q : ℚ} (hq : 0 < q) :
    roundSignificant p q = (significand p q).1 * 10 ^ ((significand p q).2 - ((p : ℤ) - 1)) := by
  rw [roundSignificant, if_neg hq.ne', if_neg hq.not_gt]

theorem roundSignificant_neg (p : ℕ) (q : ℚ) : roundSignificant p (-q) = -roundSignificant p q := by
  unfold roundSignificant
  rcases lt_trichotomy q 0 with h | h | h
  · simp [h, h.ne, h.le, neg_eq_zero]
  · simp [h]
  · simp [h, h.ne', h.not_gt, neg_eq_zero]

/-- A multiple of a power is a whole number of smaller powers. -/
theorem scaled_int {b : ℚ} {c : ℤ} (hb : b = c) (hc : c ≠ 0) (s : ℤ) {k l : ℤ} (h : 0 ≤ k + l) :
    ∃ n : ℤ, (s : ℚ) * b ^ k * b ^ l = n := by
  have hb0 : b ≠ 0 := by
    rw [hb]
    exact_mod_cast hc
  obtain ⟨j, hj⟩ := Int.eq_ofNat_of_zero_le h
  refine ⟨s * c ^ j, ?_⟩
  rw [mul_assoc, ← zpow_add₀ hb0, hj, zpow_natCast, hb]
  push_cast
  rfl

/-- The exponent of a value with at most `p` digits. -/
theorem log_lt_of_digits {p : ℕ} {q : ℚ} (hq : 0 < q) {m k : ℤ} (hm : |m| < 10 ^ p)
    (he : q = m * 10 ^ k) : Int.log 10 q < p + k := by
  have hlt : q < 10 ^ ((p : ℤ) + k) := by
    rw [he, zpow_add₀ (by norm_num)]
    apply mul_lt_mul_of_pos_right _ (ten_zpow_pos k)
    rw [zpow_natCast]
    exact_mod_cast (le_abs_self m).trans_lt hm
  have hlog := Int.zpow_log_le_self (b := 10) (by norm_num) hq
  push_cast at hlog
  exact (zpow_lt_zpow_iff_right₀ (by norm_num : (1 : ℚ) < 10)).mp (hlog.trans_lt hlt)

/-- A value whose scaled value is an integer is not rounded. -/
theorem roundSignificant_of_int {p : ℕ} {q : ℚ} (hq : 0 < q) {z : ℤ}
    (hint : q * 10 ^ (p - 1 - Int.log 10 q) = z) : roundSignificant p q = q := by
  obtain ⟨-, hhi⟩ := scaled_bounds p hq
  have hpos : (0 : ℤ) ≤ z := by
    have : (0 : ℚ) ≤ (z : ℚ) := by
      rw [← hint]
      exact (mul_pos hq (ten_zpow_pos _)).le
    exact_mod_cast this
  obtain ⟨n, rfl⟩ := Int.eq_ofNat_of_zero_le hpos
  have hne : n ≠ 10 ^ p := by
    rintro rfl
    rw [hint, zpow_natCast] at hhi
    push_cast at hhi
    exact lt_irrefl _ hhi
  have hs : significand p q = (n, Int.log 10 q) := by
    simp only [significand, hint, roundHalfEven_intCast, Int.toNat_natCast, hne, if_false]
  rw [roundSignificant_pos hq, hs]
  have hq' : q = (n : ℚ) * 10 ^ (-(p - 1 - Int.log 10 q)) := by
    have : q * 10 ^ (p - 1 - Int.log 10 q) = (n : ℚ) := hint
    rw [← this, mul_assoc, ← zpow_add₀ (by norm_num), add_neg_cancel, zpow_zero, mul_one]
  conv_rhs => rw [hq']
  congr 2
  ring

/-- Rounding a value that already has at most `p` significant digits keeps it. -/
theorem significand_exact {p : ℕ} {q : ℚ} (hq : 0 < q) {m k : ℤ} (hm : |m| < 10 ^ p)
    (he : q = m * 10 ^ k) : roundSignificant p q = q := by
  have hlog := log_lt_of_digits hq hm he
  obtain ⟨z, hz⟩ := scaled_int (b := 10) (c := 10) (by norm_num) (by norm_num) m
    (k := k) (l := p - 1 - Int.log 10 q) (by omega)
  rw [← he] at hz
  exact roundSignificant_of_int hq hz

/-- Rounding to `p` significant digits is exact on the values that have at
most that many, and on no other. -/
theorem roundSignificant_eq_iff {p : ℕ} (hp : 0 < p) (q : ℚ) :
    roundSignificant p q = q ↔ HasSignificant p q := by
  constructor
  · intro h
    rcases lt_trichotomy q 0 with hq | hq | hq
    · have hpos := neg_pos.mpr hq
      have he : -q = (significand p (-q)).1 * 10 ^ ((significand p (-q)).2 - ((p : ℤ) - 1)) := by
        rw [← roundSignificant_pos hpos, roundSignificant_neg, h]
      refine ⟨-((significand p (-q)).1 : ℤ), (significand p (-q)).2 - (p - 1), ?_,
        neg_injective (he.trans ?_)⟩
      · rw [abs_neg, Nat.abs_cast]
        exact_mod_cast (significand_digits hp hpos).2
      · push_cast
        rw [neg_mul, neg_neg]
    · exact ⟨0, 0, by positivity, by simp [hq]⟩
    · have he := roundSignificant_pos (p := p) hq
      rw [h] at he
      refine ⟨((significand p q).1 : ℤ), _, ?_, he⟩
      rw [Nat.abs_cast]
      exact_mod_cast (significand_digits hp hq).2
  · rintro ⟨m, k, hm, he⟩
    rcases lt_trichotomy q 0 with hq | hq | hq
    · have := significand_exact (neg_pos.mpr hq) (m := -m) (k := k) (by rwa [abs_neg])
        (by rw [he]; push_cast; ring)
      rw [roundSignificant_neg] at this
      exact neg_injective this
    · simp [roundSignificant, hq]
    · exact significand_exact hq hm he

/-! ## The rounding error -/

/-- The rounded value, before its digits are taken apart. -/
theorem roundSignificant_scaled {p : ℕ} (hp : 0 < p) {q : ℚ} (hq : 0 < q) :
    roundSignificant p q = roundHalfEven (q * 10 ^ (p - 1 - Int.log 10 q)) *
      10 ^ (Int.log 10 q - ((p : ℤ) - 1)) := by
  obtain ⟨hlo, -⟩ := rounded_bounds hp hq
  obtain ⟨n, hn⟩ := Int.eq_ofNat_of_zero_le ((by positivity : (0 : ℤ) ≤ 10 ^ (p - 1)).trans hlo)
  rw [roundSignificant_pos hq, significand]
  simp only [hn, Int.toNat_natCast, Int.cast_natCast]
  split
  · rename_i hcarry
    -- the digits 10..0 with one digit more
    have h10 : (10 : ℚ) ≠ 0 := by norm_num
    rw [hcarry]
    push_cast
    rw [← zpow_natCast, ← zpow_natCast, ← zpow_add₀ h10, ← zpow_add₀ h10, Nat.cast_sub hp]
    congr 1
    push_cast
    ring
  · rfl

/-- Rounding moves a value by at most half a unit of its last digit. -/
theorem roundSignificant_error_pos {p : ℕ} (hp : 0 < p) {q : ℚ} (hq : 0 < q) :
    |roundSignificant p q - q| ≤ 1 / 2 * 10 ^ (1 - (p : ℤ)) * q := by
  have h10 : (10 : ℚ) ≠ 0 := by norm_num
  let unit : ℚ := 10 ^ (Int.log 10 q - ((p : ℤ) - 1))
  have hunit : 0 < unit := ten_zpow_pos _
  have hscaled : q = q * 10 ^ (p - 1 - Int.log 10 q) * unit := by
    rw [mul_assoc, ← zpow_add₀ h10]
    have : (p : ℤ) - 1 - Int.log 10 q + (Int.log 10 q - ((p : ℤ) - 1)) = 0 := by ring
    rw [this, zpow_zero, mul_one]
  have hdiff : roundSignificant p q - q =
      (roundHalfEven (q * 10 ^ (p - 1 - Int.log 10 q)) - q * 10 ^ (p - 1 - Int.log 10 q)) *
        unit := by
    rw [roundSignificant_scaled hp hq, sub_mul, ← hscaled]
  have hlast : unit ≤ 10 ^ (1 - (p : ℤ)) * q := by
    have hlog := Int.zpow_log_le_self (b := 10) (by norm_num) hq
    push_cast at hlog
    calc unit = 10 ^ (1 - (p : ℤ)) * 10 ^ Int.log 10 q := by
          have hexp : Int.log 10 q - ((p : ℤ) - 1) = 1 - p + Int.log 10 q := by ring
          rw [← zpow_add₀ h10, ← hexp]
      _ ≤ 10 ^ (1 - (p : ℤ)) * q := mul_le_mul_of_nonneg_left hlog (ten_zpow_pos _).le
  rw [hdiff, abs_mul, abs_of_pos hunit]
  calc _ ≤ 1 / 2 * unit := mul_le_mul_of_nonneg_right (roundHalfEven_error _) hunit.le
    _ ≤ 1 / 2 * (10 ^ (1 - (p : ℤ)) * q) := mul_le_mul_of_nonneg_left hlast (by norm_num)
    _ = _ := by ring

theorem roundSignificant_error {p : ℕ} (hp : 0 < p) (q : ℚ) :
    |roundSignificant p q - q| ≤ 1 / 2 * 10 ^ (1 - (p : ℤ)) * |q| := by
  rcases lt_trichotomy q 0 with hq | hq | hq
  · have herror := roundSignificant_error_pos hp (neg_pos.mpr hq)
    rw [roundSignificant_neg, neg_sub_neg, abs_sub_comm] at herror
    rwa [abs_of_neg hq]
  · simp [hq, roundSignificant]
  · rw [abs_of_pos hq]
    exact roundSignificant_error_pos hp hq

theorem roundSignificant_nonneg {p : ℕ} {q : ℚ} (hq : 0 ≤ q) : 0 ≤ roundSignificant p q := by
  rcases hq.lt_or_eq with hq | rfl
  · rw [roundSignificant_pos hq]
    exact mul_nonneg (Nat.cast_nonneg _) (ten_zpow_pos _).le
  · simp [roundSignificant]

theorem roundSignificant_mono_pos {p : ℕ} (hp : 0 < p) {a b : ℚ} (ha : 0 < a) (h : a ≤ b) :
    roundSignificant p a ≤ roundSignificant p b := by
  have hb := ha.trans_le h
  have h10 : (10 : ℚ) ≠ 0 := by norm_num
  rw [roundSignificant_scaled hp ha, roundSignificant_scaled hp hb]
  rcases (Int.log_mono_right (b := 10) ha h).lt_or_eq with hlog | hlog
  · -- the power of ten between the two is rounded to itself
    obtain ⟨-, hahi⟩ := rounded_bounds hp ha
    obtain ⟨hblo, -⟩ := rounded_bounds hp hb
    have hupper : (roundHalfEven (a * 10 ^ (p - 1 - Int.log 10 a)) : ℚ) ≤ 10 ^ (p : ℤ) := by
      rw [zpow_natCast]
      exact_mod_cast hahi
    have hlower : (10 : ℚ) ^ ((p : ℤ) - 1) ≤ roundHalfEven (b * 10 ^ (p - 1 - Int.log 10 b)) := by
      have hcast : (10 : ℚ) ^ ((p : ℤ) - 1) = ((10 ^ (p - 1) : ℤ) : ℚ) := by
        push_cast
        rw [← zpow_natCast, Nat.cast_sub hp, Nat.cast_one]
      rw [hcast]
      exact_mod_cast hblo
    calc _ ≤ (10 : ℚ) ^ (p : ℤ) * 10 ^ (Int.log 10 a - ((p : ℤ) - 1)) :=
          mul_le_mul_of_nonneg_right hupper (ten_zpow_pos _).le
      _ = 10 ^ (Int.log 10 a + 1) := by
          rw [← zpow_add₀ h10]
          congr 1
          ring
      _ ≤ 10 ^ Int.log 10 b := zpow_le_zpow_right₀ (by norm_num) hlog
      _ = 10 ^ ((p : ℤ) - 1) * 10 ^ (Int.log 10 b - ((p : ℤ) - 1)) := by
          rw [← zpow_add₀ h10]
          congr 1
          ring
      _ ≤ _ := mul_le_mul_of_nonneg_right hlower (ten_zpow_pos _).le
  · rw [hlog]
    apply mul_le_mul_of_nonneg_right _ (ten_zpow_pos _).le
    have hround := roundHalfEven_mono
      (mul_le_mul_of_nonneg_right h (ten_zpow_pos (p - 1 - Int.log 10 b)).le)
    exact_mod_cast hround

theorem roundSignificant_mono {p : ℕ} (hp : 0 < p) {a b : ℚ} (h : a ≤ b) :
    roundSignificant p a ≤ roundSignificant p b := by
  rcases lt_or_ge 0 a with ha | ha
  · exact roundSignificant_mono_pos hp ha h
  · rcases lt_or_ge b 0 with hb | hb
    · have hneg := roundSignificant_mono_pos hp (neg_pos.mpr hb) (neg_le_neg h)
      rw [roundSignificant_neg, roundSignificant_neg] at hneg
      exact neg_le_neg_iff.mp hneg
    · have hsmall : roundSignificant p a ≤ 0 := by
        have := roundSignificant_nonneg (p := p) (neg_nonneg.mpr ha)
        rwa [roundSignificant_neg, neg_nonneg] at this
      exact hsmall.trans (roundSignificant_nonneg hb)

end Decimal
