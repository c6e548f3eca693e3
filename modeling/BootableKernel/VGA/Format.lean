import BootableKernel.Lib.Stack
import Mathlib.Tactic.Ring

/-!
# Formatted text

`vsprintf` and what it uses of `lib/string`. Its output goes to a buffer whose size it
does not know; `log` gives it one of 512 bytes. The functions here return what is written,
so that the size can be compared with the room there is.

A format is given by the bytes from `fmt` on, its terminator included. `vsprintf` takes
the byte after a `%` without asking whether it is the terminator; where it would read past
the bytes given, the result is `none`.
-/

namespace BootableKernel

/-- The bytes of a string literal, without the terminator. -/
def bytes (s : String) : List (BitVec 8) := s.toList.map fun c => BitVec.ofNat 8 c.toNat

theorem bytes_ofList (l : List Char) :
    bytes (String.ofList l) = l.map fun c => BitVec.ofNat 8 c.toNat := by
  rw [bytes, String.toList_ofList]

/-! ## Strings -/

/-- The bytes before the first NUL, of at most `n` from `a` on. -/
def stringUpTo (m : ByteMemory) : ℕ → BitVec 64 → List (BitVec 8)
  | 0, _ => []
  | n + 1, a => if m a = 0 then [] else m a :: stringUpTo m n (a + 1)

/-- The string at address `a`: the bytes that `strcpy` copies before the NUL. -/
def stringAt (m : ByteMemory) (a : BitVec 64) : List (BitVec 8) := stringUpTo m (2 ^ 64) a

/-- `strcmp`, with the terminators left out: `*str1 - *str2` where the strings part. -/
def strcmp : List (BitVec 8) → List (BitVec 8) → ℤ
  | [], [] => 0
  | [], d :: _ => 0 - d.toInt
  | c :: _, [] => c.toInt - 0
  | c :: cs, d :: ds => if c = d then strcmp cs ds else c.toInt - d.toInt

/-! ## Numbers -/

/-- `digit <= 9 ? ('0' + digit) : ('a' + (digit - 10))`. -/
def digitChar (digit : ℕ) : BitVec 8 :=
  if digit ≤ 9 then BitVec.ofNat 8 (0x30 + digit) else BitVec.ofNat 8 (0x61 + (digit - 10))

/-- `itoa_rec`, to a depth of `n`. -/
def itoaRec (base : ℕ) : ℕ → ℕ → List (BitVec 8)
  | 0, _ => []
  | n + 1, num => if 0 < num then itoaRec base n (num / base) ++ [digitChar (num % base)] else []

/-- `itoa`. A `long` has at most 64 digits, so `itoa_rec` does not go deeper. -/
def itoa (num : BitVec 64) (base : ℕ) : List (BitVec 8) :=
  let negative := base = 10 ∧ num.toInt < 0
  let num := if negative then -num else num
  (if negative then [0x2d#8] else []) ++ (if base = 16 then bytes "0x" else []) ++
    if num = 0 then [0x30#8] else itoaRec base 64 num.toNat

/-! ## `vsprintf` -/

/-- A `va_list`: the slots of the arguments that are integers or pointers, and what `gcvt`
writes for those that are floating-point numbers. -/
structure VaList where
  words : List (BitVec 64)
  doubles : List (List (BitVec 8))

/-- `va_arg(arg, long)`; an `int` is the lower half of its slot. -/
def VaList.word (arg : VaList) : BitVec 64 := arg.words.headD 0

/-- What is left after `va_arg` of an integer or a pointer. -/
def VaList.tail (arg : VaList) : VaList := { arg with words := arg.words.tail }

/-- The lower half of a slot as an `unsigned int`, and as an `int`. -/
def zeroExtend32 (w : BitVec 64) : BitVec 64 := (w.setWidth 32).setWidth 64

def signExtend32 (w : BitVec 64) : BitVec 64 := (w.setWidth 32).signExtend 64

/-- What the directive `%d` writes, for a character `d` other than `l`, and the arguments
that remain. An unknown directive writes nothing. -/
def directive (m : ByteMemory) (d : BitVec 8) (arg : VaList) : List (BitVec 8) × VaList :=
  if d = 0x25#8 then ([0x25#8], arg)
  else if d = 0x63#8 then ([arg.word.setWidth 8], arg.tail)
  else if d = 0x73#8 then (stringAt m arg.word, arg.tail)
  else if d = 0x75#8 then (itoa (zeroExtend32 arg.word) 10, arg.tail)
  else if d = 0x64#8 then (itoa (signExtend32 arg.word) 10, arg.tail)
  else if d = 0x70#8 then (itoa arg.word 16, arg.tail)
  else if d = 0x78#8 then (itoa (zeroExtend32 arg.word) 16, arg.tail)
  else if d = 0x66#8 then (arg.doubles.headD [], { arg with doubles := arg.doubles.tail })
  else ([], arg)

/-- What the directive `%ld` writes, likewise. -/
def longDirective (d : BitVec 8) (arg : VaList) : List (BitVec 8) × VaList :=
  if d = 0x75#8 ∨ d = 0x64#8 then (itoa arg.word 10, arg.tail)
  else if d = 0x78#8 then (itoa arg.word 16, arg.tail)
  else ([], arg)

/-- `vsprintf`: what is written before the terminator. -/
def vsprintf (m : ByteMemory) : List (BitVec 8) → VaList → Option (List (BitVec 8))
  | [], _ => none
  | c :: fmt, arg =>
      if c = 0 then some []
      else if c = 0x25#8 then
        match fmt with
        | [] => none
        | d :: fmt =>
            if d = 0x6c#8 then
              match fmt with
              | [] => none
              | e :: fmt =>
                  (vsprintf m fmt (longDirective e arg).2).map ((longDirective e arg).1 ++ ·)
            else (vsprintf m fmt (directive m d arg).2).map ((directive m d arg).1 ++ ·)
      else (vsprintf m fmt arg).map (c :: ·)

section Branches
variable (m : ByteMemory) (fmt : List (BitVec 8)) (arg : VaList)

@[simp] theorem vsprintf_end : vsprintf m (0 :: fmt) arg = some [] := by
  unfold vsprintf
  exact if_pos rfl

theorem vsprintf_char {c : BitVec 8} (h₀ : c ≠ 0) (h₁ : c ≠ 0x25#8) :
    vsprintf m (c :: fmt) arg = (vsprintf m fmt arg).map (c :: ·) := by
  conv_lhs => unfold vsprintf
  exact (if_neg h₀).trans (if_neg h₁)

theorem vsprintf_directive {d : BitVec 8} (hd : d ≠ 0x6c#8) :
    vsprintf m (0x25#8 :: d :: fmt) arg =
      (vsprintf m fmt (directive m d arg).2).map ((directive m d arg).1 ++ ·) := by
  conv_lhs => unfold vsprintf
  exact ((if_neg (by decide)).trans (if_pos rfl)).trans (if_neg hd)

theorem vsprintf_long (e : BitVec 8) :
    vsprintf m (0x25#8 :: 0x6c#8 :: e :: fmt) arg =
      (vsprintf m fmt (longDirective e arg).2).map ((longDirective e arg).1 ++ ·) := by
  conv_lhs => unfold vsprintf
  exact ((if_neg (by decide)).trans (if_pos rfl)).trans (if_pos rfl)

end Branches

/-! ## How long the text is -/

theorem length_itoaRec_le {base : ℕ} (hb : 0 < base) {n num k : ℕ} (h : num < base ^ k) :
    (itoaRec base n num).length ≤ k := by
  induction n generalizing num k with
  | zero => exact Nat.zero_le _
  | succ n ih =>
      rw [itoaRec]
      split
      · cases k with
        | zero =>
            rw [Nat.pow_zero] at h
            omega
        | succ k =>
            have hdiv : num / base < base ^ k := by
              rw [Nat.div_lt_iff_lt_mul hb, ← Nat.pow_succ]
              exact h
            have := ih hdiv
            rw [List.length_append, List.length_singleton]
            omega
      · exact Nat.zero_le _

/-- The magnitude that `itoa` prints in base 10 has at most 19 digits. -/
theorem toNat_magnitude_lt (num : BitVec 64) :
    (if num.toInt < 0 then -num else num).toNat < 10 ^ 19 := by
  have hlt := num.isLt
  split
  · rename_i hneg
    rw [BitVec.toInt_eq_toNat_cond] at hneg
    rw [BitVec.toNat_neg]
    split at hneg <;> omega
  · rename_i hpos
    rw [BitVec.toInt_eq_toNat_cond] at hpos
    split at hpos <;> omega

theorem length_itoa_le (num : BitVec 64) {base : ℕ} (h : base = 10 ∨ base = 16) :
    (itoa num base).length ≤ 20 := by
  rcases h with rfl | rfl
  · have hrec := length_itoaRec_le (show 0 < 10 by decide) (n := 64) (toNat_magnitude_lt num)
    simp only [itoa, true_and, List.length_append]
    split_ifs at hrec ⊢ <;> simp only [List.length_cons, List.length_nil] <;> omega
  · have hrec := length_itoaRec_le (show 0 < 16 by decide) (n := 64) (k := 16) num.isLt
    simp only [itoa, List.length_append]
    have hneg : ¬ (16 = 10 ∧ num.toInt < 0) := fun h => absurd h.1 (by decide)
    simp only [hneg, if_false, if_true]
    split_ifs
    · decide
    · rw [List.length_nil, show (bytes "0x").length = 2 by decide]
      omega

/-- No directive of the format copies a string or a floating-point number. -/
def Numeric (fmt : List (BitVec 8)) : Prop :=
  ∀ p ∈ fmt.zip fmt.tail, p.1 = 0x25#8 → p.2 ≠ 0x73#8 ∧ p.2 ≠ 0x66#8

instance (fmt : List (BitVec 8)) : Decidable (Numeric fmt) :=
  -- Element by element; an instance search might run through all pairs of bytes.
  List.decidableBAll
    (fun p : BitVec 8 × BitVec 8 => p.1 = 0x25#8 → p.2 ≠ 0x73#8 ∧ p.2 ≠ 0x66#8) (fmt.zip fmt.tail)

theorem Numeric.tail {c : BitVec 8} {fmt : List (BitVec 8)} (h : Numeric (c :: fmt)) :
    Numeric fmt := by
  cases fmt with
  | nil => exact fun p hp => absurd hp (by simp)
  | cons d fmt => exact fun p hp => h p (List.mem_cons_of_mem _ hp)

theorem length_directive_le (m : ByteMemory) {d : BitVec 8} (hs : d ≠ 0x73#8) (hf : d ≠ 0x66#8)
    (arg : VaList) : (directive m d arg).1.length ≤ 20 := by
  unfold directive
  split_ifs
  · simp
  · simp
  · exact length_itoa_le _ (.inl rfl)
  · exact length_itoa_le _ (.inl rfl)
  · exact length_itoa_le _ (.inr rfl)
  · exact length_itoa_le _ (.inr rfl)
  · simp

theorem length_longDirective_le (d : BitVec 8) (arg : VaList) :
    (longDirective d arg).1.length ≤ 20 := by
  unfold longDirective
  split_ifs
  · exact length_itoa_le _ (.inl rfl)
  · exact length_itoa_le _ (.inr rfl)
  · simp

/-- Without strings, a format has a longest text, whatever the arguments. -/
theorem length_vsprintf_le {m : ByteMemory} {fmt out : List (BitVec 8)} {arg : VaList}
    (hn : Numeric fmt) (h : vsprintf m fmt arg = some out) :
    out.length ≤ fmt.length + 20 * fmt.count 0x25#8 := by
  fun_induction vsprintf m fmt arg generalizing out with
  | case1 arg => exact absurd h (by simp)
  | case2 fmt arg =>
      obtain rfl := Option.some.inj h
      simp
  | case3 arg => exact absurd h (by simp)
  | case4 arg => exact absurd h (by simp)
  | case5 arg e fmt _ ih =>
      obtain ⟨rest, hrest, rfl⟩ := Option.map_eq_some_iff.mp h
      have h₁ := ih hn.tail.tail.tail hrest
      have h₂ := length_longDirective_le e arg
      have h₃ := List.count_le_count_cons (a := 0x25#8) (b := e) (l := fmt)
      simp only [List.length_append, List.length_cons, List.count_cons_self,
        List.count_cons_of_ne (show (0x6c#8 : BitVec 8) ≠ 0x25#8 by decide)]
      omega
  | case6 arg d fmt _ _ ih =>
      obtain ⟨rest, hrest, rfl⟩ := Option.map_eq_some_iff.mp h
      obtain ⟨hs, hf⟩ := hn (0x25#8, d) (List.mem_cons_self ..) rfl
      have h₁ := ih hn.tail.tail hrest
      have h₂ : (directive m d arg).1.length ≤ 20 := length_directive_le m hs hf arg
      have h₃ := List.count_le_count_cons (a := 0x25#8) (b := d) (l := fmt)
      simp only [List.length_append, List.length_cons, List.count_cons_self]
      omega
  | case7 c fmt arg _ _ ih =>
      obtain ⟨rest, hrest, rfl⟩ := Option.map_eq_some_iff.mp h
      have h₁ := ih hn.tail hrest
      have h₂ := List.count_le_count_cons (a := 0x25#8) (b := c) (l := fmt)
      simp only [List.length_cons]
      omega

/-- Whether a format is read to its end is a matter of the format alone. -/
theorem isSome_vsprintf (m m' : ByteMemory) (fmt : List (BitVec 8)) (arg arg' : VaList) :
    (vsprintf m fmt arg).isSome = (vsprintf m' fmt arg').isSome := by
  fun_induction vsprintf m fmt arg generalizing arg' with
  | case1 arg => rfl
  | case2 fmt arg => rw [vsprintf_end]
  | case3 arg => rfl
  | case4 arg => rfl
  | case5 arg e fmt _ ih =>
      rw [vsprintf_long, Option.isSome_map, Option.isSome_map]
      exact ih _
  | case6 arg d fmt hd _ ih =>
      rw [vsprintf_directive _ _ _ hd, Option.isSome_map, Option.isSome_map]
      exact ih _
  | case7 c fmt arg h₀ h₁ ih =>
      rw [vsprintf_char _ _ _ h₀ h₁, Option.isSome_map, Option.isSome_map]
      exact ih _

/-- Literal text is copied. -/
theorem vsprintf_literal (m : ByteMemory) {l : List (BitVec 8)}
    (hl : ∀ c ∈ l, c ≠ 0 ∧ c ≠ 0x25#8) (fmt : List (BitVec 8)) (arg : VaList) :
    vsprintf m (l ++ fmt) arg = (vsprintf m fmt arg).map (l ++ ·) := by
  induction l with
  | nil => simp
  | cons c l ih =>
      obtain ⟨⟨h₀, h₁⟩, hl⟩ := List.forall_mem_cons.mp hl
      rw [List.cons_append, vsprintf_char _ _ _ h₀ h₁, ih hl, Option.map_map]
      rfl

theorem vsprintf_string (m : ByteMemory) (fmt : List (BitVec 8)) (arg : VaList) :
    vsprintf m (0x25#8 :: 0x73#8 :: fmt) arg =
      (vsprintf m fmt arg.tail).map (stringAt m arg.word ++ ·) :=
  vsprintf_directive m fmt arg (by decide)

/-! ## The buffer of `log` -/

/-- What `log(fmt, ...)` formats, for arguments that are integers and pointers. -/
def logText (m : ByteMemory) (fmt : String) (args : List (BitVec 64)) : Option (List (BitVec 8)) :=
  vsprintf m (bytes fmt ++ [0]) ⟨args, []⟩

/-- The text and its terminator fit in `char buffer[512]`. -/
def Fits (m : ByteMemory) (fmt : String) (args : List (BitVec 64)) : Prop :=
  ∃ text, logText m fmt args = some text ∧ text.length + 1 ≤ 512

/-- The format is complete, has no strings, and is short enough for any numbers. -/
def Short (fmt : List (BitVec 8)) : Prop :=
  (vsprintf (fun _ => 0) (fmt ++ [0]) ⟨[], []⟩).isSome = true ∧ Numeric (fmt ++ [0]) ∧
    fmt.length + 20 * fmt.count 0x25#8 ≤ 510

instance (fmt : List (BitVec 8)) : Decidable (Short fmt) :=
  inferInstanceAs (Decidable ((vsprintf (fun _ => 0) (fmt ++ [0]) ⟨[], []⟩).isSome = true ∧
    Numeric (fmt ++ [0]) ∧ fmt.length + 20 * fmt.count 0x25#8 ≤ 510))

theorem Short.fits {fmt : String} (h : Short (bytes fmt)) (m : ByteMemory)
    (args : List (BitVec 64)) : Fits m fmt args := by
  obtain ⟨hsome, hn, hlen⟩ := h
  rw [isSome_vsprintf _ m _ _ ⟨args, []⟩, Option.isSome_iff_exists] at hsome
  obtain ⟨text, htext⟩ := hsome
  refine ⟨text, htext, ?_⟩
  have := length_vsprintf_le hn htext
  rw [List.length_append, List.count_append, List.length_singleton,
    show List.count 0x25#8 [(0 : BitVec 8)] = 0 from rfl] at this
  omega

/-- A literal is a list of characters, on which the format is checked. -/
theorem short_ofList {l : List Char} (h : Short (l.map fun c => BitVec.ofNat 8 c.toNat)) :
    Short (bytes (String.ofList l)) := by
  rw [bytes_ofList]
  exact h

/-- The format quotes one string, with `n` bytes of text before it and `k` after it. -/
def Quotes (n k : ℕ) (fmt : List (BitVec 8)) : Prop :=
  fmt = fmt.take n ++ 0x25#8 :: 0x73#8 :: fmt.drop (n + 2) ∧ fmt.length = n + 2 + k ∧
    (∀ c ∈ fmt.take n, c ≠ 0 ∧ c ≠ 0x25#8) ∧ ∀ c ∈ fmt.drop (n + 2), c ≠ 0 ∧ c ≠ 0x25#8

instance (n k : ℕ) (fmt : List (BitVec 8)) : Decidable (Quotes n k fmt) :=
  @instDecidableAnd _ _ inferInstance (@instDecidableAnd _ _ inferInstance
    (@instDecidableAnd _ _ (List.decidableBAll _ _) (List.decidableBAll _ _)))

theorem quotes_ofList {n k : ℕ} {l : List Char}
    (h : Quotes n k (l.map fun c => BitVec.ofNat 8 c.toNat)) :
    Quotes n k (bytes (String.ofList l)) := by
  rw [bytes_ofList]
  exact h

/-- Such a message fits if the string leaves room for the rest. -/
theorem Quotes.fits_iff {n k : ℕ} {fmt : String} (h : Quotes n k (bytes fmt)) (m : ByteMemory)
    (a : BitVec 64) : Fits m fmt [a] ↔ n + (stringAt m a).length + k + 1 ≤ 512 := by
  obtain ⟨hfmt, hlen, hl, hr⟩ := h
  have htext : logText m fmt [a] =
      some ((bytes fmt).take n ++ (stringAt m a ++ (bytes fmt).drop (n + 2))) := by
    rw [logText, hfmt, List.append_assoc, ← hfmt, vsprintf_literal m hl, List.cons_append,
      List.cons_append, vsprintf_string, vsprintf_literal m hr, vsprintf_end]
    simp [VaList.word]
  rw [Fits, htext]
  simp only [Option.some.injEq, exists_eq_left', List.length_append, List.length_take,
    List.length_drop]
  omega

end BootableKernel
