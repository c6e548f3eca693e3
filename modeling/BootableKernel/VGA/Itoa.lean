import BootableKernel.Lib.Countdown
import BootableKernel.Lib.Positional
import BootableKernel.VGA.Directives

/-!
# Printing numbers and reading them back

`itoa` in `itoa.c` on memory: it stores one character after the other, the digits on the way
back from a recursion over the quotients, and returns the address of the terminator.
`VGA.Format` has the text it writes; here it is stored (`itoaInto_eq`), compared with the
numeral of the number, and parsed.

Only base 10 knows about signs. The number is negated as a `long`, which leaves the least one
as it is, but the digits are those of an `unsigned long`, and there its value is right.
-/

namespace BootableKernel

/-- The bases that there are digits for. -/
structure Base where
  val : ℕ
  two_le : 2 ≤ val
  le : val ≤ 36

namespace Itoa

/-- Memory and the variable `buffer`. -/
structure Output where
  mem : ByteMemory
  buffer : BitVec 64

namespace Output

/-- `*buffer++ = c`. -/
def emit (c : BitVec 8) (o : Output) : Output :=
  ⟨Function.update o.mem o.buffer c, o.buffer + 1⟩

def emitAll (cs : List (BitVec 8)) (o : Output) : Output := cs.foldl (fun o c => o.emit c) o

end Output

/-- `itoa_rec`. -/
def itoaRecInto (base : Base) (num : ℕ) (o : Output) : Output :=
  if 0 < num then
    (itoaRecInto base (num / base.val) o).emit (digitChar (num % base.val))
  else o
termination_by num
decreasing_by
  rename_i h
  exact Nat.div_lt_self h base.two_le

/-- `itoa`, with the pointer it returns. -/
def itoaInto (num : BitVec 64) (o : Output) (base : Base) : Output :=
  let negative := base.val = 10 ∧ num.toInt < 0
  let o₁ := if negative then o.emit 0x2d#8 else o
  let num := if negative then num * -1 else num
  let o₂ := if base.val = 16 then (o₁.emit 0x30#8).emit 0x78#8 else o₁
  let o₃ := if num = 0 then o₂.emit 0x30#8 else itoaRecInto base num.toNat o₂
  { o₃ with mem := Function.update o₃.mem o₃.buffer 0 }

/-! ## What is stored -/

namespace Output

@[simp] theorem emitAll_append (cs ds : List (BitVec 8)) (o : Output) :
    o.emitAll (cs ++ ds) = (o.emitAll cs).emitAll ds :=
  List.foldl_append

@[simp] theorem buffer_emitAll (cs : List (BitVec 8)) (o : Output) :
    (o.emitAll cs).buffer = o.buffer + BitVec.ofNat 64 cs.length := by
  induction cs generalizing o with
  | nil => simp [emitAll]
  | cons c cs ih =>
      have hone : (o.emit c).buffer = o.buffer + BitVec.ofNat 64 1 := rfl
      change ((o.emit c).emitAll cs).buffer = _
      rw [ih, hone, ByteMemory.ofNat_add_assoc, List.length_cons, Nat.add_comm]

/-- Bytes behind the text stay. -/
theorem mem_emitAll_of_le {cs : List (BitVec 8)} {o : Output} {x : BitVec 64}
    (h : cs.length ≤ (x - o.buffer).toNat) : (o.emitAll cs).mem x = o.mem x := by
  induction cs generalizing o with
  | nil => rfl
  | cons c cs ih =>
      rw [List.length_cons] at h
      have hne : x ≠ o.buffer := by
        intro heq
        simp [heq] at h
      have hnext : cs.length ≤ (x - (o.emit c).buffer).toNat := by
        have hdist := ByteMemory.toNat_sub_le x o.buffer 1
        change (x - o.buffer).toNat ≤ (x - (o.emit c).buffer).toNat + 1 at hdist
        omega
      change ((o.emit c).emitAll cs).mem x = _
      rw [ih hnext]
      exact Function.update_of_ne hne c o.mem

/-- A text without NUL, stored with a terminator. -/
theorem holdsString_emitAll {cs : List (BitVec 8)} (hcs : ∀ c ∈ cs, c ≠ 0)
    (hlen : cs.length < 2 ^ 64) (o : Output) :
    HoldsString (o.emitAll (cs ++ [0])).mem o.buffer cs := by
  induction cs generalizing o with
  | nil => exact Function.update_self _ _ _
  | cons c cs ih =>
      rw [List.length_cons] at hlen
      refine ⟨?_, hcs c List.mem_cons_self, ?_⟩
      · -- the rest of the text does not come round to its first byte
        have hdist : (o.buffer - (o.emit c).buffer).toNat = 2 ^ 64 - 1 := by
          have hminus : o.buffer - (o.buffer + 1) = -1 := by bv_omega
          change (o.buffer - (o.buffer + 1)).toNat = _
          rw [hminus]
          rfl
        have hkeep : ((o.emit c).emitAll (cs ++ [0])).mem o.buffer = (o.emit c).mem o.buffer := by
          apply mem_emitAll_of_le
          rw [List.length_append, List.length_singleton, hdist]
          omega
        exact hkeep.trans (Function.update_self _ _ _)
      · exact ih (fun d hd => hcs d (List.mem_cons_of_mem c hd)) (by omega) (o.emit c)

end Output

/-- The recursion emits the digits in order. -/
theorem itoaRecInto_eq (base : Base) {n num : ℕ} (h : num < base.val ^ n) (o : Output) :
    itoaRecInto base num o = o.emitAll (itoaRec base.val n num) := by
  induction n generalizing num with
  | zero =>
      rw [Nat.pow_zero] at h
      rw [itoaRecInto, if_neg (by omega)]
      rfl
  | succ n ih =>
      rw [itoaRecInto, itoaRec]
      by_cases hnum : 0 < num
      · have hdiv : num / base.val < base.val ^ n := by
          have hbase := base.two_le
          rw [Nat.div_lt_iff_lt_mul (by omega), ← Nat.pow_succ]
          exact h
        rw [if_pos hnum, if_pos hnum, ih hdiv, Output.emitAll_append]
        rfl
      · rw [if_neg hnum, if_neg hnum]
        rfl

/-- A `long` has at most 64 digits. -/
theorem toNat_lt_pow (base : Base) (num : BitVec 64) : num.toNat < base.val ^ 64 :=
  num.isLt.trans_le (Nat.pow_le_pow_left base.two_le 64)

/-- An optional part of the text. -/
@[simp] theorem emitAll_ite (p : Prop) [Decidable p] (cs : List (BitVec 8)) (o : Output) :
    o.emitAll (if p then cs else []) = if p then o.emitAll cs else o := by
  split <;> rfl

/-- `itoa` stores its text and a terminator, and returns where the terminator is. -/
theorem itoaInto_eq (num : BitVec 64) (o : Output) (base : Base) :
    itoaInto num o base =
      { mem := (o.emitAll (itoa num base.val ++ [0])).mem
        buffer := o.buffer + BitVec.ofNat 64 (itoa num base.val).length } := by
  have hminus : num * -1 = -num := by
    rw [BitVec.mul_neg]
    simp
  have hbytes : bytes "0x" = [0x30#8, 0x78#8] := by decide
  have htext : ∀ (m : BitVec 64) (o : Output),
      (if m = 0 then o.emit 0x30#8 else itoaRecInto base m.toNat o) =
        o.emitAll (if m = 0 then [0x30#8] else itoaRec base.val 64 m.toNat) := by
    intro m o
    split
    · rfl
    · exact itoaRecInto_eq base (toNat_lt_pow base m) o
  have hlast : itoaInto num o base =
      let o' := o.emitAll (itoa num base.val)
      ⟨Function.update o'.mem o'.buffer 0, o'.buffer⟩ := by
    rw [itoa, Output.emitAll_append, Output.emitAll_append, emitAll_ite, emitAll_ite, ← htext,
      hbytes, ← hminus]
    rfl
  rw [hlast, Output.emitAll_append, ← Output.buffer_emitAll]
  rfl

/-! ## What the text says -/

/-- The digits `0` to `9` and `a` to `z`. -/
def alphabet : List (BitVec 8) := bytes "0123456789abcdefghijklmnopqrstuvwxyz"

def digit (d : ℕ) : BitVec 8 := alphabet.getD d 0

/-- The value of a digit. -/
def value (c : BitVec 8) : Option ℕ := alphabet.idxOf? c

/-- What comes before the digits: a sign in base 10, `0x` in base 16. -/
def lead (base : Base) (num : BitVec 64) : List (BitVec 8) :=
  if base.val = 10 ∧ num.toInt < 0 then bytes "-"
  else if base.val = 16 then bytes "0x"
  else []

/-- The number whose digits are printed. -/
def magnitude (base : Base) (num : BitVec 64) : ℕ :=
  if base.val = 10 then num.toInt.natAbs else num.toNat

/-- The number that is printed: a `long` in base 10, an `unsigned long` otherwise. -/
def printed (base : Base) (num : BitVec 64) : ℤ :=
  if base.val = 10 then num.toInt else num.toNat

/-- Read a text in a base. -/
def parse (base : Base) (s : List (BitVec 8)) : Option ℤ :=
  if base.val = 10 ∧ s.head? = some 0x2d#8 then
    (Positional.parse value 10 s.tail).map fun n : ℕ => -(n : ℤ)
  else if base.val = 16 then
    if s.take 2 = bytes "0x" then (Positional.parse value 16 (s.drop 2)).map Nat.cast else none
  else (Positional.parse value base.val s).map Nat.cast

theorem digitChar_eq_digit : ∀ d < 36, digitChar d = digit d := by decide +kernel

theorem value_digit : ∀ d < 36, value (digit d) = some d := by decide +kernel

theorem digit_ne : ∀ d < 36, digit d ≠ 0 ∧ digit d ≠ 0x2d#8 := by decide +kernel

section Text

variable (base : Base) (num : BitVec 64)

theorem value_digit_of_lt (d : ℕ) (hd : d < base.val) : value (digit d) = some d :=
  value_digit d (hd.trans_le base.le)

theorem parse_numeral (n : ℕ) :
    Positional.parse value base.val (Positional.numeral digit base.val n) = some n :=
  Positional.parse_numeral base.two_le (value_digit_of_lt base) n

/-- The text: an optional sign or `0x`, then a numeral. -/
theorem itoa_eq : itoa num base.val =
    lead base num ++ Positional.numeral digit base.val (magnitude base num) := by
  have hdigits (n : ℕ) : Positional.numeral digitChar base.val n =
      Positional.numeral digit base.val n :=
    Positional.numeral_congr base.two_le
      (fun d hd => digitChar_eq_digit d (hd.trans_le base.le)) n
  simp only [itoa, lead, magnitude, itoa_magnitude base.two_le, hdigits]
  by_cases h10 : base.val = 10
  · have h16 : base.val ≠ 16 := by omega
    simp only [h10, true_and, if_true, toNat_magnitude, if_neg (show ¬ 10 = 16 by decide),
      List.append_nil]
    rfl
  · simp only [h10, false_and, if_false, List.nil_append]

/-- No character of the text is a NUL. -/
theorem ne_zero_of_mem_itoa {c : BitVec 8} (h : c ∈ itoa num base.val) : c ≠ 0 := by
  rw [itoa_eq, List.mem_append] at h
  cases h with
  | inl hlead =>
      rw [lead] at hlead
      split_ifs at hlead
      · exact (show ∀ c ∈ bytes "-", c ≠ 0 by decide) c hlead
      · exact (show ∀ c ∈ bytes "0x", c ≠ 0 by decide) c hlead
      · cases hlead
  | inr hnumeral =>
      obtain ⟨d, hd, rfl⟩ := Positional.exists_of_mem_numeral base.two_le hnumeral
      exact (digit_ne d (hd.trans_le base.le)).1

theorem length_itoa_lt : (itoa num base.val).length < 2 ^ 64 := by
  have hbase := base.two_le
  have hrec (m : BitVec 64) : (itoaRec base.val 64 m.toNat).length ≤ 64 :=
    length_itoaRec_le (by omega) (toNat_lt_pow base m)
  have hlead : (bytes "0x").length = 2 := by decide
  have hrec' := hrec (if base.val = 10 ∧ num.toInt < 0 then -num else num)
  simp only [itoa, List.length_append]
  split_ifs at hrec' ⊢ <;> simp only [List.length_singleton, List.length_nil, hlead] <;> omega

/-- A numeral does not start with a sign. -/
theorem head_numeral_ne (n : ℕ) :
    (Positional.numeral digit base.val n).head? ≠ some 0x2d#8 := by
  intro h
  obtain ⟨d, hd, hdigit⟩ := Positional.exists_of_mem_numeral base.two_le (List.mem_of_head? h)
  exact (digit_ne d (hd.trans_le base.le)).2 hdigit

/-- Parsing the text gives the number, in base 10 … -/
theorem parse_itoa_ten (h10 : base.val = 10) :
    parse base (itoa num base.val) = some num.toInt := by
  have hmagnitude : magnitude base num = num.toInt.natAbs := if_pos h10
  have hparse := parse_numeral base num.toInt.natAbs
  rw [itoa_eq, hmagnitude]
  by_cases hneg : num.toInt < 0
  · have hlead : lead base num = [0x2d#8] := if_pos ⟨h10, hneg⟩
    rw [h10] at hparse
    rw [hlead, parse, if_pos ⟨h10, rfl⟩, List.singleton_append, List.tail_cons, h10, hparse,
      Option.map_some]
    congr 1
    omega
  · have hlead : lead base num = [] := by
      rw [lead, if_neg fun h => hneg h.2, if_neg (by omega)]
    have hhead := head_numeral_ne base num.toInt.natAbs
    rw [hlead, List.nil_append, parse, if_neg fun h => hhead h.2, if_neg (by omega), hparse,
      Option.map_some]
    congr 1
    omega

/-- … and in the other bases. -/
theorem parse_itoa_ne_ten (h10 : base.val ≠ 10) :
    parse base (itoa num base.val) = some (num.toNat : ℤ) := by
  have hmagnitude : magnitude base num = num.toNat := if_neg h10
  have hparse := parse_numeral base num.toNat
  rw [itoa_eq, hmagnitude, parse, if_neg fun h => h10 h.1]
  by_cases h16 : base.val = 16
  · have hlead : lead base num = bytes "0x" := by
      rw [lead, if_neg fun h => h10 h.1, if_pos h16]
    rw [h16] at hparse
    rw [hlead, if_pos h16, h16, List.take_left' (by decide), if_pos rfl,
      List.drop_left' (by decide), hparse]
    rfl
  · have hlead : lead base num = [] := by
      rw [lead, if_neg fun h => h10 h.1, if_neg h16]
    rw [hlead, if_neg h16, List.nil_append, hparse]
    rfl

theorem parse_itoa : parse base (itoa num base.val) = some (printed base num) := by
  rw [printed]
  split
  · exact parse_itoa_ten base num ‹_›
  · exact parse_itoa_ne_ten base num ‹_›

theorem printed_injective : Function.Injective (printed base) := by
  intro num num' h
  simp only [printed] at h
  split at h
  · exact BitVec.eq_of_toInt_eq h
  · exact BitVec.eq_of_toNat_eq (Int.ofNat_inj.mp h)

end Text

/-! ## Round trip -/

/-- The string in memory. -/
theorem holdsString_itoaInto (num : BitVec 64) (o : Output) (base : Base) :
    HoldsString (itoaInto num o base).mem o.buffer (itoa num base.val) := by
  rw [itoaInto_eq]
  exact Output.holdsString_emitAll (fun c hc => ne_zero_of_mem_itoa base num hc)
    (length_itoa_lt base num) o

theorem stringAt_itoaInto (num : BitVec 64) (o : Output) (base : Base) :
    stringAt (itoaInto num o base).mem o.buffer = itoa num base.val :=
  (holdsString_itoaInto num o base).stringAt_eq

/-- The numeral of the number: digits of the base, without leading zeros. -/
structure Numeral (base : Base) (n : ℕ) (s : List (BitVec 8)) : Prop where
  eq : s = Positional.numeral digit base.val n
  zero (h : n = 0) : s = bytes "0"
  head (h : s.head? = some 0x30#8) : s = bytes "0"

theorem digit_zero : [digit 0] = bytes "0" := by decide

theorem numeral_spec (base : Base) (n : ℕ) :
    Numeral base n (Positional.numeral digit base.val n) where
  eq := rfl
  zero h := by
    rw [h]
    exact digit_zero
  head h :=
    (Positional.numeral_of_head (value_digit_of_lt base) base.two_le h).trans digit_zero

/-- For every `long` and every base from 2 to 36, `itoa` stores a string and returns the
address of its terminator. The string is an optional sign or `0x` and a numeral without
leading zeros, and parsing it gives the number back; so different numbers give different
strings. -/
theorem itoaInto_round_trip (base : Base) (o : Output) :
    (∀ num : BitVec 64,
      let t := itoaInto num o base
      let text := stringAt t.mem o.buffer
      HoldsString t.mem o.buffer text ∧
        t.buffer = o.buffer + BitVec.ofNat 64 text.length ∧ t.mem t.buffer = 0 ∧
        (∃ s, text = lead base num ++ s ∧ Numeral base (magnitude base num) s) ∧
        parse base text = some (printed base num)) ∧
      Function.Injective fun num => stringAt (itoaInto num o base).mem o.buffer := by
  constructor
  · intro num t text
    have htext : text = itoa num base.val := stringAt_itoaInto num o base
    have hholds : HoldsString t.mem o.buffer (itoa num base.val) := holdsString_itoaInto num o base
    have hbuffer : t.buffer = o.buffer + BitVec.ofNat 64 (itoa num base.val).length :=
      congrArg Output.buffer (itoaInto_eq num o base)
    rw [htext]
    refine ⟨hholds, hbuffer, ?_, ⟨_, itoa_eq base num, numeral_spec base _⟩, parse_itoa base num⟩
    rw [hbuffer]
    exact (hholds.eq_zero_iff le_rfl).mpr rfl
  · intro num num' h
    simp only [stringAt_itoaInto] at h
    have hparse := parse_itoa base num
    rw [h, parse_itoa base num', Option.some.injEq] at hparse
    exact (printed_injective base hparse).symm

/-- The least `long` is printed with its sign and all of its digits. -/
example : itoa (BitVec.intMin 64) 10 = bytes "-9223372036854775808" := by decide +kernel

end Itoa
end BootableKernel
