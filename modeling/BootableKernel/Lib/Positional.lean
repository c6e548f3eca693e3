import Mathlib.Data.Nat.Digits.Lemmas

/-!
# Positional numerals

A number is written in a base with the most significant digit first and without leading
zeros; zero is a single digit. The characters of the digits are a parameter, and so is the
function that reads one of them back. When it does, parsing a numeral gives the number
(`parse_numeral`).

## Main definitions

* `numeral` — how a number is written.
* `parse` — the number that a string of digits stands for.
-/

namespace Positional

variable {C : Type*} (digit : ℕ → C) (value : C → Option ℕ) (base : ℕ)

/-- The digits of a number, the most significant one first. -/
def digitsOf (n : ℕ) : List ℕ := if n = 0 then [0] else (Nat.digits base n).reverse

/-- A number with the digits written as characters. -/
def numeral (n : ℕ) : List C := (digitsOf base n).map digit

/-- One more digit. -/
def next (n : ℕ) (c : C) : Option ℕ :=
  (value c).bind fun d => if d < base then some (n * base + d) else none

/-- The number that a string stands for. The empty string stands for none. -/
def parse (s : List C) : Option ℕ := if s.isEmpty then none else s.foldlM (next value base) 0

variable {digit value base}

theorem digitsOf_of_lt {n : ℕ} (h : n < base) : digitsOf base n = [n] := by
  by_cases hn : n = 0
  · rw [digitsOf, if_pos hn, hn]
  · rw [digitsOf, if_neg hn, Nat.digits_of_lt base n hn h]
    rfl

theorem digitsOf_of_le (hb : 1 < base) {n : ℕ} (h : base ≤ n) :
    digitsOf base n = digitsOf base (n / base) ++ [n % base] := by
  have hdiv : 0 < n / base := Nat.div_pos h (by omega)
  rw [digitsOf, digitsOf, if_neg (by omega), if_neg (by omega), Nat.digits_def' hb (by omega),
    List.reverse_cons]

/-- Digits are below the base. -/
theorem lt_of_mem_digitsOf (hb : 1 < base) {n d : ℕ} (h : d ∈ digitsOf base n) : d < base := by
  rw [digitsOf] at h
  split at h
  · rw [List.mem_singleton] at h
    omega
  · rw [List.mem_reverse] at h
    exact Nat.digits_lt_base hb h

theorem digitsOf_ne_nil (n : ℕ) : digitsOf base n ≠ [] := by
  rw [digitsOf]
  split
  · exact List.cons_ne_nil 0 []
  · rename_i hn
    simpa [Nat.digits_ne_nil_iff_ne_zero] using hn

/-- Only the digits of the base matter. -/
theorem numeral_congr (hb : 1 < base) {digit' : ℕ → C} (h : ∀ d < base, digit d = digit' d)
    (n : ℕ) : numeral digit base n = numeral digit' base n :=
  List.map_congr_left fun _ hd => h _ (lt_of_mem_digitsOf hb hd)

/-- The characters of a numeral are digits. -/
theorem exists_of_mem_numeral (hb : 1 < base) {n : ℕ} {c : C} (h : c ∈ numeral digit base n) :
    ∃ d < base, digit d = c := by
  obtain ⟨d, hd, hc⟩ := List.mem_map.mp h
  exact ⟨d, lt_of_mem_digitsOf hb hd, hc⟩

/-- Only zero starts with a zero. -/
theorem eq_zero_of_head {n : ℕ} (h : (digitsOf base n).head? = some 0) : n = 0 := by
  by_contra hn
  have hne := Nat.digits_ne_nil_iff_ne_zero (b := base).mpr hn
  rw [digitsOf, if_neg hn, List.head?_reverse, List.getLast?_eq_some_getLast hne,
    Option.some.injEq] at h
  exact Nat.getLast_digit_ne_zero base hn h

/-- A numeral that starts with the character of zero is that of zero. -/
theorem numeral_of_head (hvalue : ∀ d < base, value (digit d) = some d) (hb : 1 < base) {n : ℕ}
    (h : (numeral digit base n).head? = some (digit 0)) : numeral digit base n = [digit 0] := by
  rw [numeral, List.head?_map, Option.map_eq_some_iff] at h
  obtain ⟨d, hd, hdigit⟩ := h
  have hlt := lt_of_mem_digitsOf hb (List.mem_of_head? hd)
  have hzero : some d = some 0 := by
    rw [← hvalue d hlt, ← hvalue 0 (by omega), hdigit]
  rw [hzero] at hd
  rw [eq_zero_of_head hd]
  rfl

/-- Reading digits is the evaluation of their polynomial. -/
theorem foldlM_next (hvalue : ∀ d < base, value (digit d) = some d) {ds : List ℕ}
    (hds : ∀ d ∈ ds, d < base) :
    (ds.reverse.map digit).foldlM (next value base) 0 = some (Nat.ofDigits base ds) := by
  induction ds with
  | nil => rfl
  | cons d ds ih =>
      have hd : d < base := hds d List.mem_cons_self
      have hlast : next value base (Nat.ofDigits base ds) (digit d) =
          some (Nat.ofDigits base (d :: ds)) := by
        rw [next, hvalue d hd, Option.bind_some, if_pos hd, Nat.ofDigits_cons, Nat.mul_comm,
          Nat.add_comm]
      rw [List.reverse_cons, List.map_append, List.foldlM_append,
        ih fun e he => hds e (List.mem_cons_of_mem d he)]
      simpa using hlast

/-- Parsing undoes writing. -/
theorem parse_numeral (hb : 1 < base) (hvalue : ∀ d < base, value (digit d) = some d) (n : ℕ) :
    parse value base (numeral digit base n) = some n := by
  have hne : (numeral digit base n).isEmpty = false := by
    simpa [numeral] using digitsOf_ne_nil n
  rw [parse, hne, if_neg Bool.false_ne_true, numeral, digitsOf]
  split
  · rename_i hn
    have hlt : ∀ d ∈ [0], d < base := by
      intro d hd
      rw [List.mem_singleton] at hd
      omega
    rw [hn]
    simpa using foldlM_next hvalue hlt
  · rw [foldlM_next hvalue fun d hd => Nat.digits_lt_base hb hd, Nat.ofDigits_digits]

end Positional
