import BootableKernel.Lib.Buffer
import Mathlib.Data.BitVec

/-!
# The block copy

`kmemcpy_128` in `memcpy.asm` copies 128 bytes in each round: eight loads into `xmm0` to
`xmm7`, then eight stores from them. The number of rounds is the byte count divided by
128, so a remainder is not copied, and the loop tests its counter at the end of a round,
so a count below 128 means `2 ^ 64` rounds rather than none.

The buffers are arrays of 32-bit pixels here, four of them to a vector register.
-/

namespace BootableKernel

/-- `PIXEL`. -/
abbrev Pixel := BitVec 32

/-- The vector registers `xmm0` to `xmm15`. -/
abbrev Xmm := Fin 16 → BitVec 128

instance instNeZeroXmm : NeZero 16 := ⟨by decide⟩

/-- `movdqa xmm, [src + i]`. -/
def movdqa (src : ℕ → Pixel) (i : ℕ) : BitVec 128 :=
  src (i + 3) ++ src (i + 2) ++ src (i + 1) ++ src i

/-- `movntdq [dst + i], xmm`. -/
def movntdq (dst : ℕ → Pixel) (i : ℕ) (v : BitVec 128) : ℕ → Pixel :=
  fun j => if i ≤ j ∧ j < i + 4 then v.extractLsb' (32 * (j - i)) 32 else dst j

theorem extract_movdqa (src : ℕ → Pixel) (i : ℕ) {k : ℕ} (hk : k < 4) :
    (movdqa src i).extractLsb' (32 * k) 32 = src (i + k) := by
  ext b hb
  rw [BitVec.getElem_extractLsb']
  simp only [movdqa, BitVec.getLsbD_append]
  obtain rfl | rfl | rfl | rfl : k = 0 ∨ k = 1 ∨ k = 2 ∨ k = 3 := by omega
  · simp [hb]
  · simp [show ¬ 32 + b < 32 by omega, show b < 32 by omega]
  · simp [show ¬ 64 + b < 32 by omega, show ¬ 64 + b - 32 < 32 by omega,
      show 64 + b - 32 - 32 = b by omega, hb]
  · simp [show ¬ 96 + b < 32 by omega, show ¬ 96 + b - 32 < 32 by omega,
      show ¬ 96 + b - 32 - 32 < 32 by omega, show 96 + b - 32 - 32 - 32 = b by omega,
      BitVec.getLsbD_eq_getElem hb]

/-- Storing four pixels just loaded from the same place copies them. -/
theorem movntdq_movdqa (dst src : ℕ → Pixel) (i j : ℕ) :
    movntdq dst i (movdqa src i) j = if i ≤ j ∧ j < i + 4 then src j else dst j := by
  rw [movntdq]
  split_ifs with h
  · rw [extract_movdqa src i (by omega), Nat.add_sub_cancel' h.1]
  · rfl

/-- Groups of four pixels, copied one after the other. -/
theorem foldl_movntdq (dst src : ℕ → Pixel) (i n j : ℕ) :
    (List.range n).foldl (fun dst k => movntdq dst (i + 4 * k) (movdqa src (i + 4 * k))) dst j =
      if i ≤ j ∧ j < i + 4 * n then src j else dst j := by
  induction n with
  | zero => rw [if_neg (by omega), List.range_zero, List.foldl_nil]
  | succ n ih =>
      rw [List.range_succ, List.foldl_append, List.foldl_cons, List.foldl_nil, movntdq_movdqa, ih]
      split_ifs <;> first | rfl | omega

/-- The state of `kmemcpy_128`: the destination, the vector registers, how far `rsi` and
`rdi` have advanced, and `rdx`. -/
structure Copying where
  dst : ℕ → Pixel
  xmm : Xmm
  offset : ℕ
  rdx : BitVec 64

namespace Copying

/-- One round of `.loop`, up to the jump. -/
def block (src : ℕ → Pixel) (s : Copying) : Copying :=
  let xmm : Xmm := fun r => if r.val < 8 then movdqa src (s.offset + 4 * r.val) else s.xmm r
  let dst := movntdq s.dst s.offset (xmm 0)
  let dst := movntdq dst (s.offset + 4) (xmm 1)
  let dst := movntdq dst (s.offset + 8) (xmm 2)
  let dst := movntdq dst (s.offset + 12) (xmm 3)
  let dst := movntdq dst (s.offset + 16) (xmm 4)
  let dst := movntdq dst (s.offset + 20) (xmm 5)
  let dst := movntdq dst (s.offset + 24) (xmm 6)
  let dst := movntdq dst (s.offset + 28) (xmm 7)
  ⟨dst, xmm, s.offset + 32, s.rdx - 1⟩

/-- `jnz .loop`. -/
def loop (src : ℕ → Pixel) (s : Copying) : Copying :=
  let t := s.block src
  if t.rdx = 0 then t else loop src t
termination_by (s.rdx - 1).toNat
decreasing_by
  rename_i h
  change s.rdx - 1 ≠ 0 at h
  change (s.rdx - 1 - 1).toNat < (s.rdx - 1).toNat
  bv_omega

theorem dst_block (src : ℕ → Pixel) (s : Copying) (j : ℕ) :
    (s.block src).dst j =
      if s.offset ≤ j ∧ j < s.offset + 32 then src j else s.dst j := by
  have hcopy : (s.block src).dst = (List.range 8).foldl
      (fun dst k => movntdq dst (s.offset + 4 * k) (movdqa src (s.offset + 4 * k))) s.dst := rfl
  rw [hcopy]
  exact foldl_movntdq s.dst src s.offset 8 j

theorem xmm_block (src : ℕ → Pixel) (s : Copying) (r : Fin 16) :
    (s.block src).xmm r =
      if r.val < 8 then movdqa src (s.offset + 4 * r.val) else s.xmm r := rfl

/-- The number of rounds. -/
def rounds (s : Copying) : ℕ := (s.rdx - 1).toNat + 1

theorem rounds_of_pos {s : Copying} (h : s.rdx ≠ 0) : s.rounds = s.rdx.toNat := by
  rw [rounds]
  bv_omega

theorem rounds_block {s : Copying} (src : ℕ → Pixel) (h : (s.block src).rdx ≠ 0) :
    s.rounds = (s.block src).rounds + 1 := by
  rw [rounds_of_pos h]
  rfl

/-- The loop copies 32 pixels a round. -/
theorem dst_loop (src : ℕ → Pixel) (s : Copying) (j : ℕ) :
    (s.loop src).dst j =
      if s.offset ≤ j ∧ j < s.offset + 32 * s.rounds then src j else s.dst j := by
  fun_induction loop src s with
  | case1 s t h =>
      have : s.rounds = 1 := by
        change s.rdx - 1 = 0 at h
        rw [rounds, h]
        rfl
      rw [this, dst_block]
  | case2 s t h ih =>
      have hr : s.rounds = t.rounds + 1 := rounds_block src h
      rw [ih, dst_block, hr]
      change (if s.offset + 32 ≤ j ∧ j < s.offset + 32 + 32 * t.rounds then _ else _) = _
      split_ifs <;> first | rfl | omega

/-- The loop leaves the last block it loaded in `xmm0` to `xmm7`. -/
theorem xmm_loop (src : ℕ → Pixel) (s : Copying) (r : Fin 16) :
    (s.loop src).xmm r =
      if r.val < 8 then movdqa src (s.offset + 32 * (s.rounds - 1) + 4 * r.val)
      else s.xmm r := by
  fun_induction loop src s with
  | case1 s t h =>
      have : s.rounds = 1 := by
        change s.rdx - 1 = 0 at h
        rw [rounds, h]
        rfl
      rw [this, xmm_block]
      rfl
  | case2 s t h ih =>
      have hn : s.rounds = t.rounds + 1 := rounds_block src h
      rw [ih, hn]
      split_ifs with hr
      · congr 1
        change s.offset + 32 + 32 * (t.rounds - 1) + _ = _
        have : 0 < t.rounds := Nat.succ_pos _
        omega
      · rw [xmm_block, if_neg hr]

end Copying

/-- `kmemcpy_128(dst, src, count)`: what the destination and the vector registers hold
after it. -/
def kmemcpy128 (dst src : ℕ → Pixel) (count : ℕ) (xmm : Xmm) : Copying :=
  Copying.loop src ⟨dst, xmm, 0, BitVec.ofNat 64 count >>> 7⟩

section Kmemcpy

variable (dst src : ℕ → Pixel) {count : ℕ} (xmm : Xmm)

theorem rounds_kmemcpy (h : 128 ≤ count) (hc : count < 2 ^ 64) :
    Copying.rounds ⟨dst, xmm, 0, BitVec.ofNat 64 count >>> 7⟩ = count / 128 := by
  have hdx : (BitVec.ofNat 64 count >>> 7).toNat = count / 128 := by
    rw [BitVec.toNat_ushiftRight, BitVec.toNat_ofNat, Nat.mod_eq_of_lt hc,
      Nat.shiftRight_eq_div_pow]
  have hpos : 0 < count / 128 := Nat.div_pos h (by omega)
  rw [Copying.rounds_of_pos, hdx]
  intro h0
  change BitVec.ofNat 64 count >>> 7 = 0 at h0
  rw [h0] at hdx
  simp at hdx
  omega

/-- Whole blocks of 128 bytes are copied; the rest of the destination stays. -/
theorem dst_kmemcpy128 (h : 128 ≤ count) (hc : count < 2 ^ 64) (j : ℕ) :
    (kmemcpy128 dst src count xmm).dst j =
      if j < 32 * (count / 128) then src j else dst j := by
  rw [kmemcpy128, Copying.dst_loop, rounds_kmemcpy dst xmm h hc]
  simp

/-- `xmm0` to `xmm7` end up with the last block copied. -/
theorem xmm_kmemcpy128 (h : 128 ≤ count) (hc : count < 2 ^ 64) (r : Fin 16) :
    (kmemcpy128 dst src count xmm).xmm r =
      if r.val < 8 then movdqa src (32 * (count / 128 - 1) + 4 * r.val) else xmm r := by
  rw [kmemcpy128, Copying.xmm_loop, rounds_kmemcpy dst xmm h hc]
  simp

end Kmemcpy

end BootableKernel
