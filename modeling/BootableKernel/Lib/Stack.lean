import Mathlib.Data.BitVec

/-!
# Byte memory and stacks

Memory is a function from 64-bit addresses to bytes, and words are stored in it with the
low byte first. Addresses wrap around, so two ranges are compared by the distance of
their starts.

A machine stack is described by the words it holds from the stack pointer up
(`Stack.Holds`). Pushing a word below the pointer extends the list, popping drops its
head, and code that leaves the bytes of the range alone keeps it.
-/

/-- Byte-addressed memory. -/
abbrev ByteMemory := BitVec 64 → BitVec 8

namespace ByteMemory

variable {w : ℕ}

/-! ## Addresses -/

theorem ofNat_add_assoc (a : BitVec 64) (i j : ℕ) :
    a + BitVec.ofNat 64 i + BitVec.ofNat 64 j = a + BitVec.ofNat 64 (i + j) := by
  rw [BitVec.ofNat_add, BitVec.add_assoc]

/-- An address from its distance. -/
theorem add_ofNat_sub (a x : BitVec 64) : a + BitVec.ofNat 64 (x - a).toNat = x := by
  rw [BitVec.ofNat_toNat, BitVec.setWidth_eq, BitVec.add_comm, BitVec.sub_add_cancel]

theorem sub_self_add {a : BitVec 64} {i : ℕ} (hi : i < 2 ^ 64) :
    (a + BitVec.ofNat 64 i - a).toNat = i := by
  rw [BitVec.add_comm, BitVec.add_sub_cancel, BitVec.toNat_ofNat, Nat.mod_eq_of_lt hi]

/-! ## Words -/

/-- The `n` bytes from address `a` on, low byte first, as a `w`-bit word. -/
def readBytes (w : ℕ) (m : ByteMemory) (a : BitVec 64) : ℕ → BitVec w
  | 0 => 0
  | n + 1 => (m a).setWidth w ||| readBytes w m (a + 1) n <<< 8

/-- The `w`-bit word at address `a`. -/
def read (w : ℕ) (m : ByteMemory) (a : BitVec 64) : BitVec w := readBytes w m a (w / 8)

/-- Store a word at address `a`. -/
def write (m : ByteMemory) (a : BitVec 64) (v : BitVec w) : ByteMemory :=
  fun x => if (x - a).toNat < w / 8 then v.extractLsb' (8 * (x - a).toNat) 8 else m x

theorem getLsbD_readBytes (m : ByteMemory) (a : BitVec 64) (n i : ℕ) (hi : i < w) :
    (readBytes w m a n).getLsbD i =
      (decide (i < 8 * n) && (m (a + BitVec.ofNat 64 (i / 8))).getLsbD (i % 8)) := by
  induction n generalizing a i with
  | zero => simp [readBytes]
  | succ n ih =>
      rw [readBytes, BitVec.getLsbD_or, BitVec.getLsbD_setWidth, BitVec.getLsbD_shiftLeft]
      by_cases h8 : i < 8
      · have hlt : i < 8 * (n + 1) := by omega
        simp [h8, hi, hlt, Nat.div_eq_of_lt h8, Nat.mod_eq_of_lt h8]
      · have hdiv : i / 8 = 1 + (i - 8) / 8 := by omega
        have hsub : a + 1 + BitVec.ofNat 64 ((i - 8) / 8) = a + BitVec.ofNat 64 (i / 8) := by
          rw [hdiv]
          exact ofNat_add_assoc a 1 _
        have hmod : (i - 8) % 8 = i % 8 := by omega
        have hlt : i - 8 < 8 * n ↔ i < 8 * (n + 1) := by omega
        rw [ih (a + 1) (i - 8) (by omega), hsub, hmod]
        simp [h8, hi, hlt, BitVec.getLsbD_of_ge (m a) i (Nat.not_lt.mp h8)]

/-- Bytes that agree give the same word. -/
theorem read_congr {m m' : ByteMemory} {a b : BitVec 64}
    (h : ∀ i < w / 8, m (a + BitVec.ofNat 64 i) = m' (b + BitVec.ofNat 64 i)) :
    read w m a = read w m' b := by
  apply BitVec.eq_of_getLsbD_eq
  intro i hi
  rw [read, read, getLsbD_readBytes m a _ i hi, getLsbD_readBytes m' b _ i hi]
  by_cases hlt : i < 8 * (w / 8)
  · rw [h (i / 8) (by omega)]
  · simp [hlt]

/-- A word just stored is read back. -/
theorem read_write_self (m : ByteMemory) (a : BitVec 64) (v : BitVec w) (hw : w % 8 = 0)
    (hw' : w < 2 ^ 64) : read w (write m a v) a = v := by
  apply BitVec.eq_of_getLsbD_eq
  intro i hi
  have h8 : 8 * (i / 8) + i % 8 = i := Nat.div_add_mod i 8
  rw [read, getLsbD_readBytes _ a _ i hi, write, sub_self_add (by omega),
    if_pos (by omega), BitVec.getLsbD_extractLsb', h8]
  simp [show i < 8 * (w / 8) by omega, Nat.mod_lt i (show 0 < 8 by decide)]

/-- A store does not change a byte outside its range. -/
theorem write_of_le {m : ByteMemory} {a x : BitVec 64} {v : BitVec w}
    (h : w / 8 ≤ (x - a).toNat) : write m a v x = m x :=
  if_neg (Nat.not_lt.mpr h)

end ByteMemory

namespace Stack

/-- The words from address `a` up are `ws`. -/
def Holds (m : ByteMemory) : BitVec 64 → List (BitVec 64) → Prop
  | _, [] => True
  | a, v :: ws => ByteMemory.read 64 m a = v ∧ Holds m (a + 8) ws

variable {m m' : ByteMemory} {a : BitVec 64} {ws : List (BitVec 64)}

theorem holds_cons {v : BitVec 64} :
    Holds m a (v :: ws) ↔ ByteMemory.read 64 m a = v ∧ Holds m (a + 8) ws := Iff.rfl

/-- Only the bytes of the range matter. -/
theorem Holds.congr (h : Holds m a ws)
    (hm : ∀ i < 8 * ws.length, m' (a + BitVec.ofNat 64 i) = m (a + BitVec.ofNat 64 i)) :
    Holds m' a ws := by
  induction ws generalizing a with
  | nil => trivial
  | cons v ws ih =>
      rw [List.length_cons] at hm
      constructor
      · rw [ByteMemory.read_congr (fun i hi => hm i (by omega))]
        exact h.1
      · apply ih h.2
        intro i hi
        have h8 : a + 8 + BitVec.ofNat 64 i = a + BitVec.ofNat 64 (8 + i) :=
          ByteMemory.ofNat_add_assoc a 8 i
        rw [h8]
        exact hm (8 + i) (by omega)

/-- A word of the stack. -/
theorem Holds.read_eq (h : Holds m a ws) {k : ℕ} {v : BitVec 64} (hk : ws[k]? = some v) :
    m.read 64 (a + BitVec.ofNat 64 (8 * k)) = v := by
  induction ws generalizing a k with
  | nil => simp at hk
  | cons v' ws ih =>
      cases k with
      | zero =>
          simp only [List.getElem?_cons_zero, Option.some.injEq] at hk
          simpa [← hk] using h.1
      | succ k =>
          have haddr : a + BitVec.ofNat 64 (8 * (k + 1)) = a + 8 + BitVec.ofNat 64 (8 * k) := by
            rw [Nat.mul_succ, Nat.add_comm]
            exact (ByteMemory.ofNat_add_assoc a 8 _).symm
          rw [haddr]
          exact ih h.2 hk

/-- A push. -/
theorem Holds.push (h : Holds m a ws) (v : BitVec 64) (hroom : 8 * ws.length + 8 ≤ 2 ^ 64) :
    Holds (ByteMemory.write m (a - 8) v) (a - 8) (v :: ws) := by
  have hback : a - 8 + 8 = a := BitVec.sub_add_cancel a 8
  constructor
  · exact ByteMemory.read_write_self m (a - 8) v (by decide) (by decide)
  · rw [hback]
    apply h.congr
    intro i hi
    have hdist : (a + BitVec.ofNat 64 i - (a - 8)).toNat = i + 8 := by
      have heq : a + BitVec.ofNat 64 i - (a - 8) = BitVec.ofNat 64 (i + 8) := by
        rw [BitVec.ofNat_add]
        bv_omega
      rw [heq, BitVec.toNat_ofNat, Nat.mod_eq_of_lt (by omega)]
    apply ByteMemory.write_of_le
    omega

end Stack
