import BootableKernel.Lib.Positional
import BootableKernel.VGA.Format
import Mathlib.Tactic.IntervalCases

/-!
# What a format says and what `vsprintf` writes

A format is a sequence of items: bytes that stand for themselves and directives, each with
the argument it takes. The rendering of an item is given here by the numerals of the
library and by the value of its argument; `vsprintf` sends every number through
`itoa(long, ...)` instead. The two are compared item by item.

The second part is about formats of any kind: which of them are read only up to their
terminator.
-/

namespace BootableKernel

/-! ## Numerals -/

/-- The numeral of `n` in a base, the most significant digit first. -/
def numeral (base n : ℕ) : List (BitVec 8) :=
  (Nat.toDigits base n).map fun c => BitVec.ofNat 8 c.toNat

/-- A decimal numeral with its sign. -/
def signedDecimal (z : ℤ) : List (BitVec 8) :=
  if z < 0 then 0x2d#8 :: numeral 10 z.natAbs else numeral 10 z.natAbs

theorem ofNat_digitChar {d : ℕ} (h : d < 16) :
    BitVec.ofNat 8 (Nat.digitChar d).toNat = digitChar d := by
  interval_cases d <;> rfl

theorem itoaRec_zero (base n : ℕ) : itoaRec base n 0 = [] := by
  cases n <;> simp [itoaRec]

/-- The library's numerals have the characters of `itoa`. -/
theorem numeral_eq_positional {base : ℕ} (hb : 1 < base) (hb' : base ≤ 16) (n : ℕ) :
    numeral base n = Positional.numeral digitChar base n := by
  induction n using Nat.strongRecOn with
  | ind n ih =>
      rw [numeral, Nat.toDigits_eq_if hb, Positional.numeral]
      split
      · rename_i hlt
        rw [Positional.digitsOf_of_lt hlt, List.map_singleton, List.map_singleton,
          ofNat_digitChar (hlt.trans_le hb')]
      · rename_i hle
        have hdigit : n % base < 16 := (Nat.mod_lt n (by omega)).trans_le hb'
        have hdiv := ih (n / base) (Nat.div_lt_self (by omega) hb)
        rw [Positional.digitsOf_of_le hb (by omega), List.map_append, List.map_append,
          List.map_singleton, List.map_singleton, ofNat_digitChar hdigit]
        exact congrArg (· ++ [digitChar (n % base)]) hdiv

theorem itoaRec_eq_numeral {base : ℕ} (hb : 1 < base) {n num : ℕ} (hpos : 0 < num)
    (h : num < base ^ n) : itoaRec base n num = Positional.numeral digitChar base num := by
  induction n generalizing num with
  | zero =>
      rw [Nat.pow_zero] at h
      omega
  | succ n ih =>
      rw [itoaRec, if_pos hpos, Positional.numeral]
      by_cases hlt : num < base
      · rw [Nat.div_eq_of_lt hlt, itoaRec_zero, Nat.mod_eq_of_lt hlt,
          Positional.digitsOf_of_lt hlt]
        rfl
      · have hdiv : num / base < base ^ n := by
          rw [Nat.div_lt_iff_lt_mul (by omega), ← Nat.pow_succ]
          exact h
        rw [ih (Nat.div_pos (by omega) (by omega)) hdiv,
          Positional.digitsOf_of_le hb (Nat.not_lt.mp hlt), List.map_append]
        rfl

/-- What `itoa` writes after the sign and the base. -/
theorem itoa_magnitude {base : ℕ} (hb : 1 < base) (num : BitVec 64) :
    (if num = 0 then [0x30#8] else itoaRec base 64 num.toNat) =
      Positional.numeral digitChar base num.toNat := by
  split
  · rename_i hzero
    rw [hzero]
    rfl
  · rename_i hne
    apply itoaRec_eq_numeral hb
    · exact Nat.pos_of_ne_zero fun hz => hne (BitVec.eq_of_toNat_eq hz)
    · exact num.isLt.trans_le (Nat.pow_le_pow_left hb 64)

theorem toNat_magnitude (num : BitVec 64) :
    (if num.toInt < 0 then -num else num).toNat = num.toInt.natAbs := by
  have hlt := num.isLt
  rw [apply_ite BitVec.toNat, BitVec.toNat_neg, BitVec.toInt_eq_toNat_cond]
  by_cases h : 2 * num.toNat < 2 ^ 64
  · rw [if_pos h, if_neg (by omega)]
    omega
  · rw [if_neg h, if_pos (by omega)]
    omega

theorem itoa_eq_signedDecimal (num : BitVec 64) : itoa num 10 = signedDecimal num.toInt := by
  simp only [itoa, true_and, if_neg (show ¬ 10 = 16 by decide), List.append_nil,
    itoa_magnitude (show 1 < 10 by decide)]
  rw [← numeral_eq_positional (by decide) (by decide), toNat_magnitude, signedDecimal]
  split <;> rfl

theorem itoa_eq_hex (num : BitVec 64) : itoa num 16 = bytes "0x" ++ numeral 16 num.toNat := by
  have hneg : ¬ (16 = 10 ∧ num.toInt < 0) := fun h => absurd h.1 (by decide)
  simp only [itoa, hneg, if_false, if_true, List.nil_append,
    itoa_magnitude (show 1 < 16 by decide)]
  rw [← numeral_eq_positional (by decide) (by decide)]

@[simp] theorem signedDecimal_natCast (n : ℕ) : signedDecimal n = numeral 10 n := by
  rw [signedDecimal, if_neg (by omega), Int.natAbs_natCast]

section Halves
variable (w : BitVec 64)

@[simp] theorem toNat_zeroExtend32 : (zeroExtend32 w).toNat = (w.setWidth 32).toNat :=
  BitVec.toNat_setWidth_of_le (by decide)

/-- As a `long`, an `unsigned int` is not negative. -/
@[simp] theorem toInt_zeroExtend32 : (zeroExtend32 w).toInt = (w.setWidth 32).toNat := by
  have hlt := (w.setWidth 32).isLt
  rw [BitVec.toInt_eq_toNat_cond, toNat_zeroExtend32, if_pos (by omega)]

@[simp] theorem itoa_signExtend32 :
    itoa (signExtend32 w) 10 = signedDecimal (w.setWidth 32).toInt := by
  rw [itoa_eq_signedDecimal, signExtend32, BitVec.toInt_signExtend_of_le (by decide)]

@[simp] theorem itoa_zeroExtend32 :
    itoa (zeroExtend32 w) 10 = numeral 10 (w.setWidth 32).toNat := by
  rw [itoa_eq_signedDecimal, toInt_zeroExtend32, signedDecimal_natCast]

@[simp] theorem itoa_zeroExtend32_hex :
    itoa (zeroExtend32 w) 16 = bytes "0x" ++ numeral 16 (w.setWidth 32).toNat := by
  rw [itoa_eq_hex, toNat_zeroExtend32]

end Halves

/-! ## Items -/

/-- The bytes from `a` on are the string `str`, which has no NUL, and its terminator. -/
def HoldsString (m : ByteMemory) : BitVec 64 → List (BitVec 8) → Prop
  | a, [] => m a = 0
  | a, c :: str => m a = c ∧ c ≠ 0 ∧ HoldsString m (a + 1) str

theorem HoldsString.stringUpTo_eq {m : ByteMemory} {a : BitVec 64} {str : List (BitVec 8)}
    (h : HoldsString m a str) {n : ℕ} (hn : str.length < n) : stringUpTo m n a = str := by
  induction str generalizing a n with
  | nil =>
      cases n with
      | zero => exact absurd hn (Nat.not_lt_zero _)
      | succ n => exact if_pos h
  | cons ch str ih =>
      cases n with
      | zero => exact absurd hn (Nat.not_lt_zero _)
      | succ n =>
          have hne : m a ≠ 0 := h.1 ▸ h.2.1
          rw [stringUpTo, if_neg hne, h.1, ih h.2.2 (Nat.lt_of_succ_lt_succ hn)]

/-- Within the string there is no NUL, and at its end there is one. -/
theorem HoldsString.eq_zero_iff {m : ByteMemory} {a : BitVec 64} {str : List (BitVec 8)}
    (h : HoldsString m a str) {i : ℕ} (hi : i ≤ str.length) :
    m (a + BitVec.ofNat 64 i) = 0 ↔ i = str.length := by
  induction str generalizing a i with
  | nil =>
      obtain rfl := Nat.le_zero.mp hi
      have hend : m a = 0 := h
      simpa using hend
  | cons ch str ih =>
      cases i with
      | zero =>
          have hne : m a ≠ 0 := h.1 ▸ h.2.1
          simpa using hne
      | succ i =>
          have hnext : a + BitVec.ofNat 64 (i + 1) = a + 1 + BitVec.ofNat 64 i := by
            rw [BitVec.add_assoc, Nat.add_comm i 1, BitVec.ofNat_add]
            rfl
          rw [hnext, ih h.2.2 (Nat.le_of_succ_le_succ hi), List.length_cons,
            Nat.add_right_cancel_iff]

/-- A string does not go round the address space. -/
theorem HoldsString.length_lt {m : ByteMemory} {a : BitVec 64} {str : List (BitVec 8)}
    (h : HoldsString m a str) : str.length < 2 ^ 64 := by
  by_contra hle
  have hmod := Nat.mod_lt str.length (show 0 < 2 ^ 64 by decide)
  have hend := (h.eq_zero_iff le_rfl).mpr rfl
  have hsame : BitVec.ofNat 64 (str.length % 2 ^ 64) = BitVec.ofNat 64 str.length := by
    apply BitVec.eq_of_toNat_eq
    rw [BitVec.toNat_ofNat, BitVec.toNat_ofNat, Nat.mod_mod]
  rw [← hsame, h.eq_zero_iff (by omega)] at hend
  omega

theorem HoldsString.stringAt_eq {m : ByteMemory} {a : BitVec 64} {str : List (BitVec 8)}
    (h : HoldsString m a str) : stringAt m a = str :=
  h.stringUpTo_eq h.length_lt

/-- An item of a format with its argument, which is given by the slot it is passed in: an
`int` or an `unsigned int` is the lower half of it. -/
inductive Item (m : ByteMemory) where
  | literal (ch : BitVec 8) (h : ch ≠ 0 ∧ ch ≠ 0x25#8)
  | percent
  | c (w : BitVec 64)
  | s (a : BitVec 64) (str : List (BitVec 8)) (h : HoldsString m a str)
  | d (w : BitVec 64)
  | u (w : BitVec 64)
  | x (w : BitVec 64)
  | p (w : BitVec 64)
  | ld (w : BitVec 64)
  | lu (w : BitVec 64)
  | lx (w : BitVec 64)

namespace Item
variable {m : ByteMemory}

/-- How the item is written in the format. -/
def text : Item m → List (BitVec 8)
  | literal ch _ => [ch]
  | percent => [0x25#8, 0x25#8]
  | c _ => [0x25#8, 0x63#8]
  | s .. => [0x25#8, 0x73#8]
  | d _ => [0x25#8, 0x64#8]
  | u _ => [0x25#8, 0x75#8]
  | x _ => [0x25#8, 0x78#8]
  | p _ => [0x25#8, 0x70#8]
  | ld _ => [0x25#8, 0x6c#8, 0x64#8]
  | lu _ => [0x25#8, 0x6c#8, 0x75#8]
  | lx _ => [0x25#8, 0x6c#8, 0x78#8]

/-- The slot of its argument, if it takes one. -/
def slot : Item m → Option (BitVec 64)
  | literal .. | percent => none
  | c w | s w .. | d w | u w | x w | p w | ld w | lu w | lx w => some w

/-- What the item stands for. -/
def rendering : Item m → List (BitVec 8)
  | literal ch _ => [ch]
  | percent => [0x25#8]
  | c w => [w.setWidth 8]
  | s _ str _ => str
  | d w => signedDecimal (w.setWidth 32).toInt
  | u w => numeral 10 (w.setWidth 32).toNat
  | x w => bytes "0x" ++ numeral 16 (w.setWidth 32).toNat
  | p w => bytes "0x" ++ numeral 16 w.toNat
  | ld w => signedDecimal w.toInt
  | lu w => numeral 10 w.toNat
  | lx w => bytes "0x" ++ numeral 16 w.toNat

/-- What `vsprintf` writes for it: `%lu` is printed as if it were `%ld`. -/
def written : Item m → List (BitVec 8)
  | lu w => signedDecimal w.toInt
  | i => i.rendering

/-- One item of a run of `vsprintf`. -/
theorem vsprintf_text_append (i : Item m) (fmt : List (BitVec 8)) (ws : List (BitVec 64))
    (ds : List (List (BitVec 8))) :
    vsprintf m (i.text ++ fmt) ⟨i.slot.toList ++ ws, ds⟩ =
      (vsprintf m fmt ⟨ws, ds⟩).map (i.written ++ ·) := by
  have hstep : ∀ {d : BitVec 8} {w : BitVec 64} {out : List (BitVec 8)}, d ≠ 0x6c#8 →
      directive m d ⟨w :: ws, ds⟩ = (out, ⟨ws, ds⟩) →
      vsprintf m (0x25#8 :: d :: fmt) ⟨w :: ws, ds⟩ =
        (vsprintf m fmt ⟨ws, ds⟩).map (out ++ ·) := fun hd h => by
    rw [vsprintf_directive m fmt _ hd, h]
  have hlong : ∀ {e : BitVec 8} {w : BitVec 64} {out : List (BitVec 8)},
      longDirective e ⟨w :: ws, ds⟩ = (out, ⟨ws, ds⟩) →
      vsprintf m (0x25#8 :: 0x6c#8 :: e :: fmt) ⟨w :: ws, ds⟩ =
        (vsprintf m fmt ⟨ws, ds⟩).map (out ++ ·) := fun h => by
    rw [vsprintf_long, h]
  cases i with
  | literal ch h => exact vsprintf_char m fmt _ h.1 h.2
  | percent => exact vsprintf_directive m fmt _ (by decide)
  | c w => exact hstep (by decide) rfl
  | s a str h => exact hstep (by decide) (congrArg (·, _) h.stringAt_eq)
  | d w => exact hstep (by decide) (congrArg (·, _) (itoa_signExtend32 w))
  | u w => exact hstep (by decide) (congrArg (·, _) (itoa_zeroExtend32 w))
  | x w => exact hstep (by decide) (congrArg (·, _) (itoa_zeroExtend32_hex w))
  | p w => exact hstep (by decide) (congrArg (·, _) (itoa_eq_hex w))
  | ld w => exact hlong (congrArg (·, _) (itoa_eq_signedDecimal w))
  | lu w => exact hlong (congrArg (·, _) (itoa_eq_signedDecimal w))
  | lx w => exact hlong (congrArg (·, _) (itoa_eq_hex w))

/-- A whole run. -/
theorem vsprintf_flatMap_text (items : List (Item m)) (rest : List (BitVec 8))
    (ws : List (BitVec 64)) (ds : List (List (BitVec 8))) :
    vsprintf m (items.flatMap text ++ 0 :: rest) ⟨items.filterMap slot ++ ws, ds⟩ =
      some (items.flatMap written) := by
  induction items with
  | nil => exact vsprintf_end m rest _
  | cons i items ih =>
      have hslots : (i :: items).filterMap slot ++ ws =
          i.slot.toList ++ (items.filterMap slot ++ ws) := by
        rw [← List.append_assoc]
        cases hi : i.slot <;> simp [hi]
      rw [List.flatMap_cons, List.flatMap_cons, hslots, List.append_assoc,
        vsprintf_text_append, ih, Option.map_some]

/-- No numeral starts with a sign, and none is empty. -/
theorem head_numeral_append_ne (n : ℕ) (l : List (BitVec 8)) :
    (numeral 10 n ++ l).head? ≠ some 0x2d#8 := by
  cases hdigits : Nat.toDigits 10 n with
  | nil => exact absurd hdigits Nat.toDigits_ne_nil
  | cons ch chs =>
      have hmem : ch ∈ Nat.toDigits 10 n := hdigits ▸ List.mem_cons_self
      have hdigit := Nat.isDigit_of_mem_toDigits (by decide) (by decide) hmem
      rw [Char.isDigit_iff_toNat] at hdigit
      rw [numeral, hdigits, List.map_cons, List.cons_append, List.head?_cons]
      intro hsign
      have hbyte := congrArg BitVec.toNat (Option.some.inj hsign)
      rw [BitVec.toNat_ofNat, BitVec.toNat_ofNat] at hbyte
      change 48 ≤ ch.toNat ∧ ch.toNat ≤ 57 at hdigit
      omega

/-- In the upper half of the range a sign stands where the first digit belongs. -/
theorem written_lu_append_ne {w : BitVec 64} (h : 2 ^ 63 ≤ w.toNat) (l l' : List (BitVec 8)) :
    written (lu w : Item m) ++ l ≠ rendering (lu w : Item m) ++ l' := by
  have hneg : w.toInt < 0 := by
    have hlt := w.isLt
    rw [BitVec.toInt_eq_toNat_cond, if_neg (by omega)]
    omega
  intro heq
  have hhead := congrArg List.head? heq
  rw [written, rendering, signedDecimal, if_pos hneg, List.cons_append, List.head?_cons] at hhead
  exact head_numeral_append_ne _ _ hhead.symm

theorem written_lu_eq {w : BitVec 64} (h : w.toNat < 2 ^ 63) :
    written (lu w : Item m) = rendering (lu w : Item m) := by
  rw [written, rendering, BitVec.toInt_eq_toNat_cond, if_pos (by omega), signedDecimal_natCast]

theorem flatMap_written_eq_iff (items : List (Item m)) :
    items.flatMap written = items.flatMap rendering ↔
      ∀ w, lu w ∈ items → w.toNat < 2 ^ 63 := by
  induction items with
  | nil => simp
  | cons i items ih =>
      rw [List.flatMap_cons, List.flatMap_cons]
      cases i with
      | lu w =>
          by_cases hw : w.toNat < 2 ^ 63
          · rw [written_lu_eq hw, List.append_cancel_left_eq, ih]
            simpa using fun _ => hw
          · constructor
            · exact fun h => absurd h (written_lu_append_ne (by omega) _ _)
            · exact fun h => absurd (h w List.mem_cons_self) hw
      | _ =>
          rw [written, List.append_cancel_left_eq, ih]
          · simp
          · exact nofun

end Item

/-- `vsprintf` writes the rendering of every item, in order, and one NUL, if and only if no
`unsigned long` that it prints in decimal is too large for a `long`. -/
theorem vsprintf_renders_iff (m : ByteMemory) (items : List (Item m)) (rest : List (BitVec 8))
    (ws : List (BitVec 64)) (ds : List (List (BitVec 8))) :
    (vsprintf m (items.flatMap Item.text ++ 0 :: rest)
        ⟨items.filterMap Item.slot ++ ws, ds⟩).map (· ++ [0]) =
      some (items.flatMap Item.rendering ++ [0]) ↔
    ∀ w, Item.lu w ∈ items → w.toNat < 2 ^ 63 := by
  rw [Item.vsprintf_flatMap_text, Option.map_some, Option.some.injEq,
    List.append_cancel_right_eq, Item.flatMap_written_eq_iff]

/-- `log("%lu", 1UL << 63)`: what is written is a negative number. -/
theorem vsprintf_lu_signed :
    (vsprintf (fun _ => 0) [0x25#8, 0x6c#8, 0x75#8, 0] ⟨[0x8000000000000000#64], []⟩).map
        (· ++ [0]) ≠
      some ([Item.lu 0x8000000000000000#64].flatMap (Item.rendering (m := fun _ => 0)) ++ [0]) := by
  intro h
  have hrun := Item.vsprintf_flatMap_text (m := fun _ => 0) [.lu 0x8000000000000000#64] [] [] []
  have heq := (congrArg (Option.map (· ++ [0])) hrun).symm.trans h
  rw [Option.map_some, Option.some.injEq, List.append_cancel_right_eq, List.flatMap_singleton,
    List.flatMap_singleton, ← List.append_nil (Item.written _), ← List.append_nil (Item.rendering _)]
    at heq
  exact Item.written_lu_append_ne (by decide) [] [] heq

/-! ## Formats of any kind -/

/-- The format does not break off inside a directive. -/
inductive Complete : List (BitVec 8) → Prop
  | nil : Complete []
  | char {ch : BitVec 8} {fmt : List (BitVec 8)} :
      ch ≠ 0x25#8 → Complete fmt → Complete (ch :: fmt)
  | directive {d : BitVec 8} {fmt : List (BitVec 8)} :
      d ≠ 0x6c#8 → Complete fmt → Complete (0x25#8 :: d :: fmt)
  | long (e : BitVec 8) {fmt : List (BitVec 8)} :
      Complete fmt → Complete (0x25#8 :: 0x6c#8 :: e :: fmt)

/-- A run that ends at the terminator, whatever the bytes behind it are. -/
theorem Complete.vsprintf_eq {fmt : List (BitVec 8)} (h : Complete fmt)
    (hz : (0 : BitVec 8) ∉ fmt) (m : ByteMemory) (arg : VaList) :
    ∃ out, ∀ rest, vsprintf m (fmt ++ 0 :: rest) arg = some out := by
  induction h generalizing arg with
  | nil => exact ⟨[], fun rest => vsprintf_end m rest arg⟩
  | @char ch fmt hch _ ih =>
      rw [List.mem_cons, not_or] at hz
      obtain ⟨out, hout⟩ := ih hz.2 arg
      refine ⟨ch :: out, fun rest => ?_⟩
      rw [List.cons_append, vsprintf_char m _ arg (Ne.symm hz.1) hch, hout, Option.map_some]
  | @directive d fmt hd _ ih =>
      rw [List.mem_cons, List.mem_cons, not_or, not_or] at hz
      obtain ⟨out, hout⟩ := ih hz.2.2 (BootableKernel.directive m d arg).2
      refine ⟨(BootableKernel.directive m d arg).1 ++ out, fun rest => ?_⟩
      rw [List.cons_append, List.cons_append, vsprintf_directive m _ arg hd, hout, Option.map_some]
  | @long e fmt _ ih =>
      rw [List.mem_cons, List.mem_cons, List.mem_cons, not_or, not_or, not_or] at hz
      obtain ⟨out, hout⟩ := ih hz.2.2.2 (longDirective e arg).2
      refine ⟨(longDirective e arg).1 ++ out, fun rest => ?_⟩
      rw [List.cons_append, List.cons_append, List.cons_append, vsprintf_long, hout,
        Option.map_some]

/-- What is read no further than the terminator breaks off nowhere. -/
theorem complete_of_vsprintf (m : ByteMemory) :
    ∀ (fmt : List (BitVec 8)) (arg : VaList), (0 : BitVec 8) ∉ fmt →
      (vsprintf m (fmt ++ [0]) arg).isSome = true → Complete fmt
  | [], _, _, _ => .nil
  | [ch], arg, _, h => by
      by_cases hch : ch = 0x25#8
      · -- The terminator is taken for the directive.
        rw [hch, List.singleton_append, vsprintf_directive m [] arg (by decide)] at h
        exact absurd h (by simp [vsprintf])
      · exact .char hch .nil
  | ch :: d :: fmt, arg, hz, h => by
      rw [List.mem_cons, not_or] at hz
      by_cases hch : ch = 0x25#8
      · rw [List.mem_cons, not_or] at hz
        rw [hch, List.cons_append, List.cons_append] at h
        rw [hch]
        by_cases hd : d = 0x6c#8
        · rw [hd] at h
          rw [hd]
          cases fmt with
          | nil =>
              rw [List.nil_append, vsprintf_long] at h
              exact absurd h (by simp [vsprintf])
          | cons e fmt =>
              rw [List.mem_cons, not_or] at hz
              rw [List.cons_append, vsprintf_long, Option.isSome_map] at h
              exact .long e (complete_of_vsprintf m fmt _ hz.2.2.2 h)
        · rw [vsprintf_directive m _ arg hd, Option.isSome_map] at h
          exact .directive hd (complete_of_vsprintf m fmt _ hz.2.2 h)
      · rw [List.cons_append, vsprintf_char m _ arg (Ne.symm hz.1) hch, Option.isSome_map] at h
        exact .char hch (complete_of_vsprintf m (d :: fmt) arg hz.2 h)

/-- `vsprintf` returns without reading behind the terminator of its format, if and only if
the format does not break off inside a directive. -/
theorem vsprintf_stops_iff (m : ByteMemory) (arg : VaList) {fmt : List (BitVec 8)}
    (hz : (0 : BitVec 8) ∉ fmt) :
    (∃ out, ∀ rest, vsprintf m (fmt ++ 0 :: rest) arg = some out) ↔ Complete fmt := by
  constructor
  · rintro ⟨out, hout⟩
    apply complete_of_vsprintf m fmt arg hz
    rw [hout [], Option.isSome_some]
  · exact fun h => h.vsprintf_eq hz m arg

/-- `"%d%%"` ends in a `%`, and is read to its end only. -/
theorem vsprintf_stops_percent :
    ∃ out, ∀ rest, vsprintf (fun _ => 0) ([0x25#8, 0x64#8, 0x25#8, 0x25#8] ++ 0 :: rest)
      ⟨[5], []⟩ = some out :=
  (vsprintf_stops_iff _ _ (by decide)).mpr
    (.directive (by decide) (.directive (by decide) .nil))

/-- A `%` at the end takes the terminator with it. -/
theorem vsprintf_percent_overruns :
    ¬ ∃ out, ∀ rest, vsprintf (fun _ => 0) ([0x25#8] ++ 0 :: rest) ⟨[], []⟩ = some out := by
  rintro ⟨out, hout⟩
  have h := hout []
  rw [List.singleton_append, vsprintf_directive _ _ _ (by decide)] at h
  exact absurd h (by simp [vsprintf])

end BootableKernel
