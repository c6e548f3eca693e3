import Mathlib.Algebra.GroupWithZero.Nat
import Mathlib.Data.Nat.Notation
import Mathlib.Logic.Function.Basic
import Mathlib.Tactic.Set

/-!
# The physical memory manager

`PMM.c` keeps one bit per 4 KB frame in 512 words of 64 bits, all set at start-up.
Within a word the most significant bit stands for the lowest frame, so that `bsr`
finds the lowest free frame of the word. Frames are numbered here from
`reservedStart` on: frame `f` lies in word `f / 64`, at bit `63 - f % 64`.

The two allocators differ only in the word their scan starts from. Their common
specification, `allocatePageFrom_spec`, is that a call takes the lowest free frame of
the words it scans and no other, or returns the null pointer when these hold none.
-/

namespace BootableKernel

/-- `PAGE_SIZE`. -/
def pageSize : ℕ := 4096

/-- `MEM_START`: where frames for data are looked for. -/
def memStart : ℕ := 0x200000

/-- `PAGES`: the number of words of the bitmap. -/
def bitmapWords : ℕ := 128 * 4

/-- Number of frames the bitmap describes: 128 MB of them. -/
def frameCount : ℕ := 64 * bitmapWords

/-- The allocation bitmap; a set bit is a free frame. -/
abbrev Bitmap := ℕ → BitVec 64

namespace PMM

/-- The bitmap `pmm_init` leaves: `kmemset(bitmap, 0xff, sizeof(bitmap))`. -/
def init : Bitmap := fun _ => BitVec.allOnes 64

/-- The `bsr` instruction on a non-zero operand: the index of the highest set bit. -/
def bsr (x : BitVec 64) : ℕ := x.toNat.log2

/-- The scan of `allocate_page_from`, with `n` words left from word `i` on. -/
def scan (reservedStart : ℕ) (bitmap : Bitmap) : ℕ → ℕ → ℕ × Bitmap
  | 0, _ => (0, bitmap)
  | n + 1, i =>
      if bitmap i = 0 then scan reservedStart bitmap n (i + 1)
      else
        let firstSet := bsr (bitmap i)
        if firstSet ≠ 0 then
          (reservedStart + pageSize * (64 * i + (63 - firstSet)),
            Function.update bitmap i (bitmap i &&& ~~~(1#64 <<< firstSet)))
        else
          (reservedStart + pageSize * (64 * i + 63), Function.update bitmap i 0)

/-- The word a scan for frames at or above `start` begins with. The subtraction is
that of `uintptr_t`. -/
def firstWord (reservedStart start : ℕ) : ℕ :=
  (start + 2 ^ 64 - reservedStart) % 2 ^ 64 / pageSize / 64

/-- `allocate_page_from`: a frame address, or `0` for the null pointer. -/
def allocatePageFrom (reservedStart : ℕ) (bitmap : Bitmap) (start : ℕ) : ℕ × Bitmap :=
  let i := firstWord reservedStart start
  scan reservedStart bitmap (bitmapWords - i) i

/-- `pmm_allocate_page_table`. -/
def allocatePageTable (reservedStart : ℕ) (bitmap : Bitmap) : ℕ × Bitmap :=
  allocatePageFrom reservedStart bitmap reservedStart

/-- `pmm_allocate_page`. -/
def allocatePage (reservedStart : ℕ) (bitmap : Bitmap) : ℕ × Bitmap :=
  allocatePageFrom reservedStart bitmap memStart

/-! ## Frames -/

/-- Frame `f` has not been handed out. -/
def isFree (bitmap : Bitmap) (f : ℕ) : Bool := (bitmap (f / 64)).getLsbD (63 - f % 64)

/-- The physical address of frame `f`. -/
def frameAddr (reservedStart f : ℕ) : ℕ := reservedStart + pageSize * f

/-- Address `a` lies in one of the frames the bitmap describes. -/
def InFrames (reservedStart a : ℕ) : Prop :=
  reservedStart ≤ a ∧ a < reservedStart + pageSize * frameCount

@[simp] theorem isFree_init {f : ℕ} : isFree init f = true := by
  rw [isFree, init, BitVec.getLsbD_allOnes]
  exact decide_eq_true (by omega)

theorem bsr_lt (x : BitVec 64) (hx : x ≠ 0) : bsr x < 64 := by
  have hx' : x.toNat ≠ 0 := fun h => hx (BitVec.eq_of_toNat_eq (by simpa using h))
  exact (Nat.log2_lt hx').mpr x.isLt

theorem getLsbD_bsr {x : BitVec 64} (hx : x ≠ 0) : x.getLsbD (bsr x) = true := by
  have hx' : x.toNat ≠ 0 := fun h => hx (BitVec.eq_of_toNat_eq (by simpa using h))
  exact Nat.testBit_log2 hx'

/-- `bsr` returns the highest set bit. -/
theorem getLsbD_of_bsr_lt {x : BitVec 64} {k : ℕ} (hk : bsr x < k) : x.getLsbD k = false := by
  rw [← BitVec.testBit_toNat]
  apply Nat.testBit_lt_two_pow
  calc x.toNat < 2 ^ (bsr x + 1) := Nat.lt_log2_self
    _ ≤ 2 ^ k := Nat.pow_le_pow_right (by omega) hk

/-- Clearing the bit `bsr` found clears that bit only; this covers the branch for bit
`0`, where the code stores `0`. -/
theorem getLsbD_clear {x : BitVec 64} (hx : x ≠ 0) {k : ℕ} :
    (if bsr x ≠ 0 then x &&& ~~~(1#64 <<< bsr x) else 0).getLsbD k =
      (x.getLsbD k && decide (k ≠ bsr x)) := by
  have hb := bsr_lt x hx
  by_cases h0 : bsr x = 0
  · rw [if_neg (by simpa using h0)]
    by_cases hk : k = 0
    · simp [hk, h0]
    · have hz : x.getLsbD k = false := getLsbD_of_bsr_lt (by omega)
      simp [hz]
  · rw [if_pos h0]
    by_cases hk64 : k < 64
    · by_cases hkb : k = bsr x
      · subst hkb
        simp [hb]
      · have hne : (1#64 <<< bsr x).getLsbD k = false := by
          by_cases hlt : k < bsr x
          · simp [hlt]
          · have : k - bsr x ≠ 0 := by omega
            simp [this]
        rw [BitVec.getLsbD_and, BitVec.getLsbD_not, hne]
        simp [hk64, hkb]
    · have hz : x.getLsbD k = false := BitVec.getLsbD_of_ge x k (by omega)
      simp [hz]

/-- Taking the first free frame of word `i`. -/
theorem scan_hit {bitmap : Bitmap} (reservedStart : ℕ) {n i : ℕ} (h : bitmap i ≠ 0) :
    scan reservedStart bitmap (n + 1) i =
      (frameAddr reservedStart (64 * i + (63 - bsr (bitmap i))),
        Function.update bitmap i (if bsr (bitmap i) ≠ 0 then
          bitmap i &&& ~~~(1#64 <<< bsr (bitmap i)) else 0)) := by
  rw [scan, if_neg h]
  by_cases h0 : bsr (bitmap i) = 0
  · simp [h0, frameAddr]
  · simp [h0, frameAddr]

/-- A word that is zero has no free frame. -/
theorem isFree_of_word_zero {bitmap : Bitmap} {i : ℕ} (h : bitmap i = 0) {g : ℕ}
    (hlo : 64 * i ≤ g) (hhi : g < 64 * (i + 1)) : isFree bitmap g = false := by
  have hgi : g / 64 = i := by omega
  simp [isFree, hgi, h]

/-- A word that is not zero: the frame of its highest bit is taken, the lowest free one. -/
theorem scan_hit_spec {bitmap : Bitmap} (reservedStart : ℕ) {n i : ℕ} (h : bitmap i ≠ 0) :
    ∃ f, 64 * i ≤ f ∧ f < 64 * (i + 1) ∧ isFree bitmap f = true ∧
      (∀ g, 64 * i ≤ g → g < f → isFree bitmap g = false) ∧
      (scan reservedStart bitmap (n + 1) i).1 = frameAddr reservedStart f ∧
      ∀ g, isFree (scan reservedStart bitmap (n + 1) i).2 g =
        (isFree bitmap g && decide (g ≠ f)) := by
  have hb := bsr_lt _ h
  set f := 64 * i + (63 - bsr (bitmap i)) with hfdef
  have hfi : f / 64 = i := by omega
  have hfm : 63 - f % 64 = bsr (bitmap i) := by omega
  refine ⟨f, by omega, by omega, ?_, ?_, ?_, ?_⟩
  · rw [isFree, hfi, hfm]
    exact getLsbD_bsr h
  · intro g hg hgf
    have hgi : g / 64 = i := by omega
    rw [isFree, hgi]
    exact getLsbD_of_bsr_lt (by omega)
  · rw [scan_hit reservedStart h]
  · intro g
    rw [scan_hit reservedStart h]
    by_cases hgi : g / 64 = i
    · have hiff : (63 - g % 64 = bsr (bitmap i)) ↔ g = f := by omega
      simp only [isFree, hgi, Function.update_self]
      rw [getLsbD_clear h]
      simp [hiff]
    · have hgf : g ≠ f := by omega
      simp [isFree, Function.update_of_ne hgi, hgf]

/-- What a scan does: it takes the lowest free frame of its words and no other, or
finds them exhausted. -/
theorem scan_spec (reservedStart : ℕ) (bitmap : Bitmap) (n i : ℕ) :
    (∃ f, 64 * i ≤ f ∧ f < 64 * (i + n) ∧ isFree bitmap f = true ∧
      (∀ g, 64 * i ≤ g → g < f → isFree bitmap g = false) ∧
      (scan reservedStart bitmap n i).1 = frameAddr reservedStart f ∧
      ∀ g, isFree (scan reservedStart bitmap n i).2 g = (isFree bitmap g && decide (g ≠ f))) ∨
    ((∀ f, 64 * i ≤ f → f < 64 * (i + n) → isFree bitmap f = false) ∧
      scan reservedStart bitmap n i = (0, bitmap)) := by
  induction n generalizing i with
  | zero => right; exact ⟨fun f h₁ h₂ => by omega, rfl⟩
  | succ n ih =>
      by_cases h : bitmap i = 0
      · have hstep : scan reservedStart bitmap (n + 1) i = scan reservedStart bitmap n (i + 1) := by
          rw [scan, if_pos h]
        rw [hstep]
        rcases ih (i + 1) with ⟨f, h₁, h₂, hf, hmin, ha, hb⟩ | ⟨hnone, he⟩
        · refine .inl ⟨f, by omega, by omega, hf, fun g hg hgf => ?_, ha, hb⟩
          by_cases hgi : g < 64 * (i + 1)
          · exact isFree_of_word_zero h hg hgi
          · exact hmin g (by omega) hgf
        · refine .inr ⟨fun f h₁ h₂ => ?_, he⟩
          by_cases hfi : f < 64 * (i + 1)
          · exact isFree_of_word_zero h h₁ hfi
          · exact hnone f (by omega) (by omega)
      · left
        obtain ⟨f, h₁, h₂, hrest⟩ := scan_hit_spec reservedStart (n := n) h
        exact ⟨f, h₁, by omega, hrest⟩

theorem firstWord_of_le {reservedStart start : ℕ} (h : reservedStart ≤ start)
    (hs : start < 2 ^ 64) : firstWord reservedStart start = (start - reservedStart) / pageSize / 64 := by
  rw [firstWord, show start + 2 ^ 64 - reservedStart = start - reservedStart + 2 ^ 64 by omega,
    Nat.add_mod_right, Nat.mod_eq_of_lt (by omega)]

/-- The allocators' specification: the lowest free frame from the first scanned word
on is handed out and marked, or there is none and the null pointer is returned. -/
theorem allocatePageFrom_spec (reservedStart : ℕ) (bitmap : Bitmap) (start : ℕ) :
    (∃ f, 64 * firstWord reservedStart start ≤ f ∧ f < frameCount ∧ isFree bitmap f = true ∧
      (∀ g, 64 * firstWord reservedStart start ≤ g → g < f → isFree bitmap g = false) ∧
      (allocatePageFrom reservedStart bitmap start).1 = frameAddr reservedStart f ∧
      ∀ g, isFree (allocatePageFrom reservedStart bitmap start).2 g =
        (isFree bitmap g && decide (g ≠ f))) ∨
    ((∀ f, 64 * firstWord reservedStart start ≤ f → f < frameCount → isFree bitmap f = false) ∧
      allocatePageFrom reservedStart bitmap start = (0, bitmap)) := by
  have h := scan_spec reservedStart bitmap (bitmapWords - firstWord reservedStart start)
    (firstWord reservedStart start)
  rcases h with ⟨f, h₁, h₂, hrest⟩ | ⟨hnone, he⟩
  · exact .inl ⟨f, h₁, by simp only [frameCount]; omega, hrest⟩
  · exact .inr ⟨fun f h₁ h₂ => hnone f h₁ (by simp only [frameCount] at h₂; omega), he⟩

end PMM
end BootableKernel
