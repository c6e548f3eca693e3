import BootableKernel.Boot.Vesa
import BootableKernel.VGA.Copy
import Mathlib.Tactic.IntervalCases
import Mathlib.Tactic.Ring

/-!
# The size and the shape of the frame buffer

The firmware chooses how many bytes a line of the frame buffer has. `vga_init` computes
`fb_size` from it, and every copy of `swapBuffers` and `clearScreen` is of that size; but
the code that draws takes lines to be as long as their pixels. Two questions follow:
whether the size is one that `kmemcpy_128` can copy, and whether what it copies comes to
lie where the display looks for it.
-/

namespace BootableKernel

open Vesa

/-- `fb_size`: an `int` product, converted to `size_t`. -/
def VbeScreenInfo.fbSize (vbe : VbeScreenInfo) : BitVec 64 :=
  (vbe.height.setWidth 32 * vbe.bytesPerLine.setWidth 32).signExtend 64

/-- The bytes of the frame buffer. -/
def VbeScreenInfo.bytes (vbe : VbeScreenInfo) : ℕ := vbe.height.toNat * vbe.bytesPerLine.toNat

theorem VbeScreenInfo.bytes_lt (vbe : VbeScreenInfo) : vbe.bytes < 2 ^ 32 := by
  have hh := vbe.height.isLt
  have hp := vbe.bytesPerLine.isLt
  calc vbe.bytes ≤ (2 ^ 16 - 1) * (2 ^ 16 - 1) := Nat.mul_le_mul (by omega) (by omega)
    _ < 2 ^ 32 := by decide

theorem VbeScreenInfo.toNat_fbSize (vbe : VbeScreenInfo) :
    vbe.fbSize.toNat = if vbe.bytes < 2 ^ 31 then vbe.bytes else vbe.bytes + (2 ^ 64 - 2 ^ 32) := by
  have hlt := vbe.bytes_lt
  have hprod : (vbe.height.setWidth 32 * vbe.bytesPerLine.setWidth 32).toNat = vbe.bytes := by
    rw [BitVec.toNat_mul, BitVec.toNat_setWidth_of_le (by decide),
      BitVec.toNat_setWidth_of_le (by decide)]
    exact Nat.mod_eq_of_lt hlt
  rw [fbSize, BitVec.toNat_signExtend, BitVec.toNat_setWidth_of_le (by decide), hprod,
    BitVec.msb_eq_decide, hprod]
  split_ifs with h₁ h₂
  · simp only [decide_eq_true_eq] at h₁
    omega
  · rfl
  · rfl
  · simp only [decide_eq_true_eq] at h₁
    omega

/-! ## The copies -/

/-- How often the loop of `kmemcpy_128` runs for a count. -/
def rounds (count : BitVec 64) : ℕ := Copying.rounds ⟨fun _ => 0, fun _ => 0, 0, count >>> 7⟩

theorem rounds_eq (count : BitVec 64) :
    rounds count = if count.toNat < 128 then 2 ^ 64 else count.toNat / 128 := by
  have hdx : (count >>> 7).toNat = count.toNat / 128 := by
    rw [BitVec.toNat_ushiftRight, Nat.shiftRight_eq_div_pow]
  split
  · have hzero : count >>> 7 = 0 := BitVec.eq_of_toNat_eq (by
      rw [hdx]
      exact Nat.div_eq_of_lt ‹_›)
    rw [rounds, hzero]
    decide
  · rw [rounds, Copying.rounds_of_pos, hdx]
    intro hzero
    have hzero : count >>> 7 = 0 := hzero
    rw [hzero] at hdx
    have : 0 < count.toNat / 128 := Nat.div_pos (by omega) (by decide)
    simp at hdx
    omega

/-- What the comment on `kmemcpy_128` asks of its count, and what follows: the counter starts
above zero and the rounds copy the count. -/
structure Proper (count : BitVec 64) : Prop where
  ne_zero : count ≠ 0
  dvd : 128 ∣ count.toNat
  counter : count >>> 7 ≠ 0
  copied : 128 * rounds count = count.toNat

theorem proper_iff (count : BitVec 64) : Proper count ↔ 0 < count.toNat ∧ 128 ∣ count.toNat := by
  constructor
  · intro h
    refine ⟨Nat.pos_of_ne_zero fun hz => h.ne_zero (BitVec.eq_of_toNat_eq hz), h.dvd⟩
  · rintro ⟨hpos, hdvd⟩
    have hle := Nat.le_of_dvd hpos hdvd
    refine ⟨?_, hdvd, ?_, ?_⟩
    · rintro rfl
      exact absurd hpos (by decide)
    · intro hz
      have := congrArg BitVec.toNat hz
      rw [BitVec.toNat_ushiftRight, Nat.shiftRight_eq_div_pow] at this
      have : 0 < count.toNat / 128 := Nat.div_pos hle (by decide)
      simp at *
      omega
    · rw [rounds_eq, if_neg (by omega), Nat.mul_div_cancel' hdvd]

/-- What goes to the screen. -/
inductive Output
  | log (text : List (BitVec 8))
  | logN (buf : List (BitVec 8))
  | clearScreen

section Copies
variable (vbe : VbeScreenInfo)

/-- The counts of the calls of `kmemcpy_128` by `swapBuffers`. -/
def swapBuffersCounts : List (BitVec 64) := [vbe.fbSize]

/-- Those of the calls for an output; `vga_ready` matters to `clearScreen` only. -/
def Output.counts (ready : Bool) : Output → List (BitVec 64)
  | .log _ => swapBuffersCounts vbe
  | .logN _ => swapBuffersCounts vbe
  | .clearScreen => if !ready then [] else vbe.fbSize :: swapBuffersCounts vbe

/-- Those of all calls from `vga_init` on, for what is logged inside it, by the allocations it
makes once `fb_size` is set, and for what is put out after it. -/
def countsFrom (inside after : List Output) : List (BitVec 64) :=
  inside.flatMap (Output.counts vbe false) ++ after.flatMap (Output.counts vbe true)

variable {vbe}

theorem Output.eq_of_mem_counts {ready : Bool} {out : Output} {count : BitVec 64}
    (h : count ∈ out.counts vbe ready) : count = vbe.fbSize := by
  cases out with
  | log text => exact List.mem_singleton.mp h
  | logN buf => exact List.mem_singleton.mp h
  | clearScreen =>
      cases ready with
      | false => exact absurd h List.not_mem_nil
      | true =>
          rcases List.mem_cons.mp h with h | h
          · exact h
          · exact List.mem_singleton.mp h

theorem eq_of_mem_countsFrom {inside after : List Output} {count : BitVec 64}
    (h : count ∈ countsFrom vbe inside after) : count = vbe.fbSize := by
  rcases List.mem_append.mp h with h | h
  · obtain ⟨out, -, hout⟩ := List.mem_flatMap.mp h
    exact Output.eq_of_mem_counts hout
  · obtain ⟨out, -, hout⟩ := List.mem_flatMap.mp h
    exact Output.eq_of_mem_counts hout

end Copies

theorem proper_fbSize_iff {vbe : VbeScreenInfo} (h : LeftBehind vbe) :
    Proper vbe.fbSize ↔ vbe.bytesPerLine ≠ 0 ∧ 16 ∣ vbe.bytesPerLine.toNat := by
  have hne : vbe.bytesPerLine ≠ 0 ↔ vbe.bytesPerLine.toNat ≠ 0 := by
    rw [ne_eq, ne_eq, ← BitVec.toNat_inj]
    rfl
  rw [proper_iff, vbe.toNat_fbSize, hne]
  rcases (leftBehind_iff vbe).mp h with rfl | ⟨pitch, framebuffer, rfl⟩
  · decide
  · have hlt := pitch.isLt
    have hbytes : (save bootRequest ⟨pitch, 800, 600, 32, framebuffer⟩).bytes =
        600 * pitch.toNat := rfl
    rw [hbytes, if_pos (by omega)]
    change 0 < 600 * pitch.toNat ∧ 128 ∣ 600 * pitch.toNat ↔ pitch.toNat ≠ 0 ∧ 16 ∣ pitch.toNat
    omega

/-- Every copy from `vga_init` on has a count that `kmemcpy_128` can deal with, if and only if
the lines of the frame buffer have a multiple of 16 bytes, and not none. -/
theorem proper_counts_iff {vbe : VbeScreenInfo} (h : LeftBehind vbe) :
    (∀ inside after, ∀ count ∈ countsFrom vbe inside after, Proper count) ↔
      vbe.bytesPerLine ≠ 0 ∧ 16 ∣ vbe.bytesPerLine.toNat := by
  rw [← proper_fbSize_iff h]
  constructor
  · intro hall
    exact hall [] [.log []] _ (List.mem_singleton_self _)
  · intro hproper inside after count hcount
    rw [eq_of_mem_countsFrom hcount]
    exact hproper

/-- The mode of the emulator, with 3200 bytes a line. -/
theorem proper_counts_3200 :
    LeftBehind (save bootRequest ⟨3200, 800, 600, 32, 0xfd000000⟩) ∧
    ∀ inside after, ∀ count ∈
      countsFrom (save bootRequest ⟨3200, 800, 600, 32, 0xfd000000⟩) inside after, Proper count := by
  have h := (leftBehind_iff (save bootRequest ⟨3200, 800, 600, 32, 0xfd000000⟩)).mpr
    (.inr ⟨_, _, rfl⟩)
  exact ⟨h, (proper_counts_iff h).mpr (by decide)⟩

/-- Without a mode, the first copy has a count of zero. -/
theorem blank_not_proper :
    LeftBehind blank ∧
      ¬ ∀ inside after, ∀ count ∈ countsFrom blank inside after, Proper count := by
  refine ⟨(leftBehind_iff blank).mpr (.inl rfl), fun hall => ?_⟩
  exact (hall [] [.log []] _ (List.mem_singleton_self _)).ne_zero (by decide)

/-! ## Lines -/

/-- The byte at offset `k` of a buffer. -/
def bufferByte (buf : ℕ → Pixel) (k : ℕ) : BitVec 8 := (buf (k / 4)).extractLsb' (8 * (k % 4)) 8

/-- The four bytes from offset `o` on, the lowest first. -/
def bufferPixel (buf : ℕ → Pixel) (o : ℕ) : Pixel :=
  bufferByte buf (o + 3) ++ bufferByte buf (o + 2) ++ bufferByte buf (o + 1) ++ bufferByte buf o

/-- `swapBuffers`, if it returns: half the address space has `2 ^ 47` bytes, and a copy that
is longer traps behind them. -/
def swapped (vbe : VbeScreenInfo) (front back : ℕ → Pixel) (xmm : Xmm) : Option (ℕ → Pixel) :=
  if 128 * rounds vbe.fbSize < 2 ^ 47 then
    some (kmemcpy128 front back vbe.fbSize.toNat xmm).dst
  else none

/-- After `swapBuffers` the display shows the pixels that were drawn, whatever they are. -/
def Displays (vbe : VbeScreenInfo) : Prop :=
  ∀ front back xmm, ∃ shown, swapped vbe front back xmm = some shown ∧
    ∀ x < vbe.width.toNat, ∀ y < vbe.height.toNat,
      bufferPixel shown (y * vbe.bytesPerLine.toNat + 4 * x) = back (x + y * vbe.width.toNat)

theorem bufferPixel_four_mul (buf : ℕ → Pixel) (j : ℕ) : bufferPixel buf (4 * j) = buf j := by
  have hbyte : ∀ i < 4, bufferByte buf (4 * j + i) = (buf j).extractLsb' (8 * i) 8 := by
    intro i hi
    rw [bufferByte, Nat.mul_add_div (by decide), Nat.mul_add_mod, Nat.div_eq_of_lt hi,
      Nat.mod_eq_of_lt hi, Nat.add_zero]
  rw [bufferPixel, hbyte 3 (by decide), hbyte 2 (by decide), hbyte 1 (by decide),
    ← Nat.add_zero (4 * j), hbyte 0 (by decide)]
  ext i hi
  simp only [BitVec.getElem_append, BitVec.getElem_extractLsb']
  -- Bit `i` of the pixel, from whichever of the four bytes it is in.
  split_ifs
  · rw [Nat.mul_zero, Nat.zero_add, BitVec.getLsbD_eq_getElem hi]
  · rw [show 8 * 1 + (i - 8) = i by omega, BitVec.getLsbD_eq_getElem hi]
  · rw [show 8 * 2 + (i - 8 - 8) = i by omega, BitVec.getLsbD_eq_getElem hi]
  · rw [show 8 * 3 + (i - 8 - 8 - 8) = i by omega, BitVec.getLsbD_eq_getElem hi]

theorem extract_bufferPixel (buf : ℕ → Pixel) (o : ℕ) :
    (bufferPixel buf o).extractLsb' 0 8 = bufferByte buf o := by
  ext i hi
  rw [BitVec.getElem_extractLsb', Nat.zero_add, bufferPixel, BitVec.getLsbD_append, if_pos hi,
    BitVec.getLsbD_eq_getElem hi]

/-- A pixel that is drawn, and nothing else. -/
def dot (j : ℕ) : ℕ → Pixel := fun k => if k = j then 1 else 0

/-- A dot shows at its own place only. -/
theorem eq_of_bufferPixel_dot {j o : ℕ} {buf : ℕ → Pixel} (hbuf : ∀ k, buf k = dot j k ∨ buf k = 0)
    (h : bufferPixel buf o = 1) : o = 4 * j := by
  have hbyte : bufferByte buf o = 1 := by
    rw [← extract_bufferPixel, h]
    decide
  have hzero : (0 : Pixel).extractLsb' (8 * (o % 4)) 8 ≠ 1 := by
    rw [show (0 : Pixel) = 0#32 from rfl, BitVec.extractLsb'_zero]
    decide
  rw [bufferByte] at hbyte
  rcases hbuf (o / 4) with hdot | hnone
  · rw [hdot, dot] at hbyte
    split at hbyte
    · rename_i hj
      have hmod : o % 4 < 4 := Nat.mod_lt _ (by decide)
      interval_cases hr : o % 4
      · omega
      · exact absurd hbyte (by decide)
      · exact absurd hbyte (by decide)
      · exact absurd hbyte (by decide)
    · exact absurd hbyte hzero
  · rw [hnone] at hbyte
    exact absurd hbyte hzero

section Shown
variable {vbe : VbeScreenInfo}

/-- `swapBuffers` returns for sizes that are not too small and have a place in an `int`. -/
theorem rounds_fbSize_lt_iff :
    128 * rounds vbe.fbSize < 2 ^ 47 ↔ 128 ≤ vbe.bytes ∧ vbe.bytes < 2 ^ 31 := by
  have hlt := vbe.bytes_lt
  rw [rounds_eq, vbe.toNat_fbSize]
  split_ifs <;> omega

theorem swapped_eq (h : 128 ≤ vbe.bytes) (h' : vbe.bytes < 2 ^ 31) (front back : ℕ → Pixel)
    (xmm : Xmm) :
    swapped vbe front back xmm =
      some fun j => if j < 32 * (vbe.bytes / 128) then back j else front j := by
  rw [swapped, if_pos (rounds_fbSize_lt_iff.mpr ⟨h, h'⟩), vbe.toNat_fbSize, if_pos h']
  congr 1
  ext1 j
  exact dst_kmemcpy128 front back xmm h (by omega) j

theorem Displays.size (h : Displays vbe) : 128 ≤ vbe.bytes ∧ vbe.bytes < 2 ^ 31 := by
  obtain ⟨shown, hshown, -⟩ := h (fun _ => 0) (fun _ => 0) fun _ => 0
  by_contra hsize
  rw [swapped, if_neg (mt rounds_fbSize_lt_iff.mp hsize)] at hshown
  exact absurd hshown (by simp)

/-- A dot that is drawn is copied, and to its place. -/
theorem Displays.dot (h : Displays vbe) {x y : ℕ} (hx : x < vbe.width.toNat)
    (hy : y < vbe.height.toNat) :
    y * vbe.bytesPerLine.toNat + 4 * x = 4 * (x + y * vbe.width.toNat) ∧
      x + y * vbe.width.toNat < 32 * (vbe.bytes / 128) := by
  obtain ⟨shown, hshown, hpixel⟩ := h (fun _ => 0)
    (BootableKernel.dot (x + y * vbe.width.toNat)) fun _ => 0
  rw [swapped_eq h.size.1 h.size.2, Option.some.injEq] at hshown
  have hone := hpixel x hx y hy
  rw [BootableKernel.dot, if_pos rfl] at hone
  have hbuf : ∀ k, shown k = BootableKernel.dot (x + y * vbe.width.toNat) k ∨ shown k = 0 := by
    intro k
    rw [← hshown]
    dsimp only
    split
    · exact .inl rfl
    · exact .inr rfl
  have hplace := eq_of_bufferPixel_dot hbuf hone
  refine ⟨hplace, ?_⟩
  by_contra hlast
  rw [hplace, bufferPixel_four_mul, ← hshown] at hone
  exact absurd ((if_neg hlast).symm.trans hone) (by decide)

end Shown

/-- After `swapBuffers` the display shows what was drawn, for all pictures, if and only if the
copy returns and, if there are any pixels, there is at most one line or the lines are no
longer than their pixels, and whole blocks of 128 bytes cover all of them. -/
theorem displays_iff (vbe : VbeScreenInfo) :
    Displays vbe ↔ 128 ≤ vbe.bytes ∧ vbe.bytes < 2 ^ 31 ∧
      (vbe.width = 0 ∨
        (vbe.height.toNat ≤ 1 ∨ vbe.bytesPerLine.toNat = 4 * vbe.width.toNat) ∧
          4 * (vbe.width.toNat * vbe.height.toNat) ≤ 128 * (vbe.bytes / 128)) := by
  constructor
  · intro h
    refine ⟨h.size.1, h.size.2, or_iff_not_imp_left.mpr fun hwidth => ?_⟩
    have hw : 0 < vbe.width.toNat := Nat.pos_of_ne_zero fun hz => hwidth (BitVec.eq_of_toNat_eq hz)
    have hh : 0 < vbe.height.toNat := by
      by_contra hz
      have hsize := h.size.1
      rw [VbeScreenInfo.bytes, Nat.eq_zero_of_not_pos hz, Nat.zero_mul] at hsize
      exact absurd hsize (by decide)
    constructor
    · -- The first pixel of the second line.
      refine or_iff_not_imp_left.mpr fun hlines => ?_
      have hplace := (h.dot hw (show 1 < vbe.height.toNat by omega)).1
      omega
    · -- The last pixel.
      obtain ⟨w, hw'⟩ := Nat.exists_eq_add_of_lt hw
      obtain ⟨l, hl'⟩ := Nat.exists_eq_add_of_lt hh
      have hlast := (h.dot (x := w) (y := l) (by omega) (by omega)).2
      rw [hw', hl'] at *
      have hmul : (0 + w + 1) * (0 + l + 1) = w + l * (0 + w + 1) + 1 := by ring
      rw [hmul]
      omega
  · rintro ⟨hsize, hint, hcover⟩ front back xmm
    refine ⟨_, swapped_eq hsize hint front back xmm, fun x hx y hy => ?_⟩
    rcases hcover with hzero | ⟨hlines, hcover⟩
    · rw [hzero] at hx
      exact absurd hx (Nat.not_lt_zero _)
    · have hplace : y * vbe.bytesPerLine.toNat + 4 * x = 4 * (x + y * vbe.width.toNat) := by
        rcases hlines with hone | hline
        · obtain rfl : y = 0 := by omega
          simp
        · rw [hline]
          ring
      have hlt := Buffer.rowMajor_lt hx hy
      rw [hplace, bufferPixel_four_mul, if_pos (by omega)]

/-- 800 by 600 pixels, in lines padded to 3328 bytes. -/
def padded : VbeScreenInfo := ⟨800, 600, 32, 0xfd000000, 4, 3328, 99, 36⟩

/-- The second line is drawn where the display looks for the end of the first. -/
theorem not_displays_padded : 4 * padded.width.toNat ≤ padded.bytesPerLine.toNat ∧
    ¬ Displays padded := by
  refine ⟨by decide, fun h => ?_⟩
  exact absurd (h.dot (x := 0) (y := 1) (by decide) (by decide)).1 (by decide)

end BootableKernel
