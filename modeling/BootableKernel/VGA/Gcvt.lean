import BootableKernel.VGA.Directives
import Mathlib.Algebra.Order.Floor.Semifield
import Mathlib.Data.Rat.Floor

/-!
# Printing fractions

`gcvt` prints a number with a fixed number of digits after the point. The digits of the
fraction go through a scratch array that has room for just these digits, while `itoa`
writes a terminator after them. So there is room for the terminator only when the fraction
starts with a zero.

Floating-point arithmetic is taken as exact arithmetic of rational numbers.
-/

namespace BootableKernel
namespace Gcvt

/-- The conversion of a floating-point number to an integer drops the fraction. -/
def trunc (x : ℚ) : ℤ := if x < 0 then ⌈x⌉ else ⌊x⌋

def dpow (value : ℚ) (power : ℤ) : ℚ :=
  if power ≤ 0 then 1
  else (List.range (power - 1).toNat).foldl (fun ret _ => ret * value) value

/-- `strlen` of these bytes. -/
def strlen (s : List (BitVec 8)) : ℕ := (s.takeWhile (· ≠ 0)).length

/-- What `strcpy` writes. -/
def strcpy (s : List (BitVec 8)) : List (BitVec 8) := s.takeWhile (· ≠ 0) ++ [0]

/-- What `gcvt` writes: to `buf`, from its first byte on, and to its array `tmp`. -/
structure Written where
  buf : List (BitVec 8)
  tmp : List (BitVec 8)

def gcvt (value : ℚ) (ndigits : ℤ) : Written :=
  let sign := if value < 0 then [0x2d#8] else []
  let value := if value < 0 then value * -1 else value
  -- print decimal part
  let dec := BitVec.ofInt 32 (trunc value)
  let whole := itoa (dec.signExtend 64) 10
  -- print fractional part
  let frac := value - dec.toInt
  let tmp := itoa (BitVec.ofInt 64 (trunc (frac * dpow 10 ndigits))) 10 ++ [0]
  let zeros := BitVec.ofInt 32 (ndigits - strlen tmp)
  { buf := sign ++ whole ++ [0x2e#8] ++ List.replicate zeros.toNat 0x30#8 ++ strcpy tmp
    tmp := tmp }

/-! ## What should be printed -/

/-- The first `n` decimal digits of a fraction. -/
def fractionDigits (x : ℚ) (n : ℕ) : List (BitVec 8) :=
  (List.range n).map fun i => digitChar (⌊x * 10 ^ (i + 1)⌋₊ % 10)

/-- A number with `n` digits after the point, and a terminator. -/
def fixedPoint (value : ℚ) (n : ℕ) : List (BitVec 8) :=
  (if value < 0 then [0x2d#8] else []) ++ numeral 10 ⌊|value|⌋₊ ++ [0x2e#8] ++
    fractionDigits (Int.fract |value|) n ++ [0]

/-- The text is right, and no byte is written beyond the `n` bytes of `tmp`. -/
def Prints (value : ℚ) (n : ℕ) : Prop :=
  (gcvt value n).buf = fixedPoint value n ∧ (gcvt value n).tmp.length ≤ n

/-! ## Numerals with leading zeros -/

theorem numeral_of_lt {d : ℕ} (h : d < 10) : numeral 10 d = [digitChar d] := by
  rw [numeral, Nat.toDigits_of_lt_base h, List.map_singleton, ofNat_digitChar (by omega)]

theorem numeral_of_le {d : ℕ} (h : 10 ≤ d) :
    numeral 10 d = numeral 10 (d / 10) ++ [digitChar (d % 10)] := by
  rw [numeral, Nat.toDigits_eq_if (by decide), if_neg (by omega), List.map_append,
    List.map_singleton, ofNat_digitChar (by omega), numeral]

theorem length_numeral_le_iff {d k : ℕ} (hk : 0 < k) :
    (numeral 10 d).length ≤ k ↔ d < 10 ^ k := by
  rw [numeral, List.length_map]
  exact Nat.length_toDigits_le_iff (by decide) hk

theorem length_numeral_pos (d : ℕ) : 0 < (numeral 10 d).length := by
  rw [numeral, List.length_map]
  exact Nat.length_toDigits_pos

/-- A numeral with zeros in front, up to length `n`. -/
def padded (n d : ℕ) : List (BitVec 8) :=
  List.replicate (n - (numeral 10 d).length) 0x30#8 ++ numeral 10 d

/-- One digit more. -/
theorem padded_succ {n d : ℕ} (hn : 0 < n) (hd : d / 10 < 10 ^ n) :
    padded (n + 1) d = padded n (d / 10) ++ [digitChar (d % 10)] := by
  by_cases h : d < 10
  · have hzero : d / 10 = 0 := Nat.div_eq_of_lt h
    rw [padded, padded, hzero, numeral_of_lt h, numeral_of_lt (by decide), Nat.mod_eq_of_lt h]
    have hrep : List.replicate n 0x30#8 = List.replicate (n - 1) 0x30#8 ++ [0x30#8] := by
      rw [← List.replicate_succ', Nat.sub_add_cancel hn]
    simp only [List.length_singleton, Nat.add_sub_cancel]
    rw [hrep]
    rfl
  · have hlen := (length_numeral_le_iff hn).mpr hd
    rw [padded, padded, numeral_of_le (by omega), List.length_append, List.length_singleton,
      Nat.add_sub_add_right, List.append_assoc]

/-- The digits of a padded numeral. -/
theorem padded_eq_digits {n d : ℕ} (hn : 0 < n) (hd : d < 10 ^ n) :
    padded n d = (List.range n).map fun i => digitChar (d / 10 ^ (n - 1 - i) % 10) := by
  induction n, hn using Nat.le_induction generalizing d with
  | base =>
      rw [padded, numeral_of_lt (by simpa using hd)]
      simp [List.range_one, Nat.mod_eq_of_lt (show d < 10 by simpa using hd)]
  | succ n hn ih =>
      have hdiv : d / 10 < 10 ^ n := by
        rw [Nat.div_lt_iff_lt_mul (by decide), ← Nat.pow_succ]
        exact hd
      rw [padded_succ hn hdiv, ih hdiv, List.range_succ, List.map_append, List.map_singleton]
      congr 1
      · apply List.map_congr_left
        intro i hi
        rw [List.mem_range] at hi
        have hexp : n + 1 - 1 - i = n - 1 - i + 1 := by omega
        rw [hexp, Nat.pow_succ', Nat.div_div_eq_div_mul]
      · simp

/-- The first digits of a fraction are those of the number that is printed for it. -/
theorem fractionDigits_eq {x : ℚ} (n : ℕ) :
    fractionDigits x n =
      (List.range n).map fun i => digitChar (⌊x * 10 ^ n⌋₊ / 10 ^ (n - 1 - i) % 10) := by
  apply List.map_congr_left
  intro i hi
  rw [List.mem_range] at hi
  have hpow : (10 : ℚ) ^ n = 10 ^ (i + 1) * 10 ^ (n - 1 - i) := by
    rw [← pow_add]
    congr 1
    omega
  have hsplit : x * 10 ^ (i + 1) = x * 10 ^ n / (10 ^ (n - 1 - i) : ℕ) := by
    rw [hpow]
    push_cast
    rw [← mul_assoc, mul_div_cancel_right₀ _ (by positivity)]
  rw [hsplit, Nat.floor_div_natCast]

/-! ## `gcvt` -/

theorem dpow_natCast (value : ℚ) {n : ℕ} (hn : 0 < n) : dpow value n = value ^ n := by
  have hloop : ∀ k : ℕ, (List.range k).foldl (fun ret _ => ret * value) value =
      value ^ (k + 1) := by
    intro k
    induction k with
    | zero => simp
    | succ k ih => rw [List.range_succ, List.foldl_append, ih, List.foldl_cons, List.foldl_nil,
        ← pow_succ]
  rw [dpow, if_neg (by omega), hloop]
  congr 1
  omega

theorem trunc_of_nonneg {x : ℚ} (h : 0 ≤ x) : trunc x = ⌊x⌋₊ := by
  rw [trunc, if_neg (not_lt.mpr h), Int.natCast_floor_eq_floor h]

theorem mul_neg_one_eq_abs (value : ℚ) :
    (if value < 0 then value * -1 else value) = |value| := by
  split
  · rename_i h
    rw [abs_of_neg h, mul_neg_one]
  · rename_i h
    rw [abs_of_nonneg (not_lt.mp h)]

/-- Digits are not NUL. -/
theorem ne_zero_of_mem_numeral {d : ℕ} {c : BitVec 8} (h : c ∈ numeral 10 d) : c ≠ 0 := by
  have hdigit : ∀ k < 10, digitChar k ≠ 0 := by decide
  rw [numeral_eq_positional (by decide) (by decide)] at h
  obtain ⟨k, hk, rfl⟩ := Positional.exists_of_mem_numeral (by decide) h
  exact hdigit k hk

theorem takeWhile_numeral (d : ℕ) : (numeral 10 d ++ [0]).takeWhile (· ≠ 0) = numeral 10 d := by
  rw [List.takeWhile_append_of_pos]
  · simp
  · intro c hc
    exact decide_eq_true (ne_zero_of_mem_numeral hc)

/-- The integer part as `itoa` gets it. -/
theorem toInt_whole {k : ℕ} (hk : k < 2 ^ 31) : (BitVec.ofInt 32 k).toInt = k := by
  rw [BitVec.toInt_ofInt]
  exact Int.bmod_eq_of_le (by omega) (by omega)

theorem itoa_whole {k : ℕ} (hk : k < 2 ^ 31) :
    itoa ((BitVec.ofInt 32 k).signExtend 64) 10 = numeral 10 k := by
  rw [itoa_eq_signedDecimal, BitVec.toInt_signExtend_of_le (by decide), toInt_whole hk,
    signedDecimal_natCast]

theorem itoa_digits {d : ℕ} (hd : d < 2 ^ 63) : itoa (BitVec.ofInt 64 d) 10 = numeral 10 d := by
  rw [itoa_eq_signedDecimal, BitVec.toInt_ofInt, Int.bmod_eq_of_le (by omega) (by omega),
    signedDecimal_natCast]

/-- The number that is printed for the fraction. -/
def printed (value : ℚ) (n : ℕ) : ℕ := ⌊Int.fract |value| * 10 ^ n⌋₊

theorem printed_lt (value : ℚ) (n : ℕ) : printed value n < 10 ^ n := by
  have hfract := Int.fract_lt_one |value|
  have hnonneg := Int.fract_nonneg |value|
  rw [printed, Nat.floor_lt (by positivity)]
  push_cast
  exact mul_lt_of_lt_one_left (by positivity) hfract

section Bounded

variable {value : ℚ} {n : ℕ}

/-- The fraction that `gcvt` multiplies is the fraction of the absolute value. -/
theorem frac_eq (h : ⌊|value|⌋₊ < 2 ^ 31) :
    |value| - ((BitVec.ofInt 32 (trunc |value|)).toInt : ℚ) = Int.fract |value| := by
  rw [trunc_of_nonneg (abs_nonneg value), toInt_whole h,
    Int.natCast_floor_eq_floor (abs_nonneg value), Int.self_sub_floor]

theorem zeros_eq {d : ℕ} (hn : 0 < n) (hn' : n ≤ 9) (hd : d < 10 ^ n) :
    (BitVec.ofInt 32 ((n : ℤ) - ((numeral 10 d).length : ℕ))).toNat =
      n - (numeral 10 d).length := by
  have hlen := (length_numeral_le_iff hn).mpr hd
  rw [BitVec.toNat_ofInt]
  omega

/-- What `gcvt` writes, in terms of numerals. -/
theorem gcvt_eq (h : ⌊|value|⌋₊ < 2 ^ 31) (hn : 0 < n) (hn' : n ≤ 9) :
    gcvt value n =
      { buf := (if value < 0 then [0x2d#8] else []) ++ numeral 10 ⌊|value|⌋₊ ++ [0x2e#8] ++
          padded n (printed value n) ++ [0]
        tmp := numeral 10 (printed value n) ++ [0] } := by
  have hlt := printed_lt value n
  have hpow : 10 ^ n ≤ 10 ^ 9 := Nat.pow_le_pow_right (by decide) hn'
  have hnonneg : 0 ≤ Int.fract |value| * 10 ^ n := by
    have := Int.fract_nonneg |value|
    positivity
  have htmp : itoa (BitVec.ofInt 64 (trunc (Int.fract |value| * dpow 10 n))) 10 =
      numeral 10 (printed value n) := by
    rw [dpow_natCast 10 hn, trunc_of_nonneg hnonneg]
    exact itoa_digits (show printed value n < 2 ^ 63 by omega)
  have hwhole : itoa ((BitVec.ofInt 32 (trunc |value|)).signExtend 64) 10 =
      numeral 10 ⌊|value|⌋₊ := by
    rw [trunc_of_nonneg (abs_nonneg value), itoa_whole h]
  simp only [gcvt, mul_neg_one_eq_abs, frac_eq h, htmp, hwhole, strlen, strcpy,
    takeWhile_numeral, zeros_eq hn hn' hlt, padded, List.append_assoc]

/-- The text is always right. -/
theorem buf_gcvt (h : ⌊|value|⌋₊ < 2 ^ 31) (hn : 0 < n) (hn' : n ≤ 9) :
    (gcvt value n).buf = fixedPoint value n := by
  rw [gcvt_eq h hn hn', fixedPoint, fractionDigits_eq, padded_eq_digits hn (printed_lt value n)]
  rfl

/-- The number has a digit less than `n` exactly if the fraction is below a tenth. -/
theorem printed_lt_iff (hn : 0 < n) :
    printed value n < 10 ^ (n - 1) ↔ Int.fract |value| < 1 / 10 := by
  have hnonneg := Int.fract_nonneg |value|
  have hpow : (10 : ℚ) ^ n = 10 ^ (n - 1) * 10 := by
    rw [← pow_succ]
    congr 1
    omega
  have hpos : (0 : ℚ) < 10 ^ (n - 1) := by positivity
  rw [printed, Nat.floor_lt (by positivity), hpow]
  push_cast
  constructor
  · intro hlt
    nlinarith
  · intro hlt
    nlinarith

/-- The digits and the terminator fit `tmp` exactly if there are at least two digits and the
first one is a zero. -/
theorem tmp_gcvt_le_iff (h : ⌊|value|⌋₊ < 2 ^ 31) (hn : 0 < n) (hn' : n ≤ 9) :
    (gcvt value n).tmp.length ≤ n ↔ 2 ≤ n ∧ Int.fract |value| < 1 / 10 := by
  have hpos := length_numeral_pos (printed value n)
  rw [gcvt_eq h hn hn', List.length_append, List.length_singleton]
  constructor
  · intro hle
    have h2 : 2 ≤ n := by omega
    refine ⟨h2, (printed_lt_iff hn).mp ?_⟩
    exact (length_numeral_le_iff (by omega)).mp (by omega)
  · rintro ⟨h2, hfract⟩
    have hle := (length_numeral_le_iff (d := printed value n) (show 0 < n - 1 by omega)).mpr
      ((printed_lt_iff hn).mpr hfract)
    omega

/-- For numbers whose integer part fits an `int` and up to nine digits: the text is right
and stays within `tmp` exactly if at least two digits are asked for and the fraction is
below a tenth. -/
theorem gcvt_prints_iff (h : ⌊|value|⌋₊ < 2 ^ 31) (hn : 1 ≤ n) (hn' : n ≤ 9) :
    Prints value n ↔ 2 ≤ n ∧ Int.fract |value| < 1 / 10 := by
  rw [Prints, tmp_gcvt_le_iff h hn hn']
  constructor
  · intro hprint
    exact hprint.2
  · intro hcond
    exact ⟨buf_gcvt h hn hn', hcond⟩

end Bounded

theorem floor_abs_lt {value : ℚ} (h0 : 0 ≤ value) (h1 : value < 1) : ⌊|value|⌋₊ < 2 ^ 31 := by
  rw [abs_of_nonneg h0, Nat.floor_eq_zero.mpr h1]
  decide

theorem fract_abs_of_lt {value : ℚ} (h0 : 0 ≤ value) (h1 : value < 1) :
    Int.fract |value| = value := by
  rw [abs_of_nonneg h0]
  exact Int.fract_eq_self.mpr ⟨h0, h1⟩

/-- One half with the five digits of `%f`: five digits and a terminator, in five bytes. -/
theorem gcvt_half_overflows : ¬ Prints (1 / 2) 5 := by
  intro h
  have hcond := (tmp_gcvt_le_iff (floor_abs_lt (by norm_num) (by norm_num)) (by decide)
    (by decide)).mp h.2
  rw [fract_abs_of_lt (by norm_num) (by norm_num)] at hcond
  norm_num at hcond

/-- One twentieth, `0.05000`, stays within `tmp`. -/
theorem gcvt_twentieth_prints : Prints (1 / 20) 5 := by
  apply (gcvt_prints_iff (floor_abs_lt (by norm_num) (by norm_num)) (by decide)
    (by decide)).mpr
  rw [fract_abs_of_lt (by norm_num) (by norm_num)]
  norm_num

end Gcvt
end BootableKernel
