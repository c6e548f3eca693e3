import BootableKernel.Lib.Buffer
import BootableKernel.Lib.Reflection
import Mathlib.Data.BitVec

/-!
# The bouncing square

`dvd_bounce` of the first program keeps a copy of the screen. For each frame it draws a square
on a copy of that copy, copies the result to the screen and moves the square by one pixel in both
directions. The square turns at the edges of a screen of 800 by 600 pixels.

The three buffers are at addresses that `mmap` and `malloc` return. The picture is the right one
if they do not overlap, and if all `FB_SIZE` bytes from `fb_ptr` on are mapped; the kernel's
`mmap` maps whole pages only, so that the last part of a page is missing, and `malloc` may well
get that page.

Memory is read as words of four bytes, which are the pixels, and so are the addresses.
-/

namespace BootableKernel
namespace Bounce

open Reflection

/-- `FB_SIZE`, in bytes. -/
def fbSize : ℕ := 800 * 600 * 4

/-- The words of the memory. -/
abbrev Words := ℕ → BitVec 32

/-- `fb_ptr`, `original` and `backbuffer`. -/
structure Pointers where
  fbPtr : ℕ
  original : ℕ
  backbuffer : ℕ

structure State where
  x : ℤ
  y : ℤ
  dx : ℤ
  dy : ℤ
  mem : Words

/-- `memcpy` of `n` bytes. -/
def memcpy (mem : Words) (dst src n : ℕ) : Words :=
  fun p => if dst ≤ p ∧ 4 * (p - dst) < n then mem (src + (p - dst)) else mem p

/-- The index of a pixel of the square at `x` and `y`. -/
def pixel (x y : ℤ) (i j : ℕ) : ℤ := (y + i) * 800 + (x + j)

def drawSquare (x y : ℤ) (backbuffer : ℕ) (mem : Words) : Words :=
  (List.range 100).foldl (fun mem i => (List.range 100).foldl
    (fun mem j => Function.update mem (backbuffer + pixel x y i j).toNat 0x0000ff) mem) mem

/-- The body of the loop. -/
def frame (b : Pointers) (s : State) : State :=
  -- copy original to backbuffer
  let mem := memcpy s.mem b.backbuffer b.original fbSize
  -- draw a square
  let mem := drawSquare s.x s.y b.backbuffer mem
  -- copy backbuffer to screen
  let mem := memcpy mem b.fbPtr b.backbuffer fbSize
  -- move the square
  let x := s.x + s.dx
  let y := s.y + s.dy
  -- bounce off the edges
  let dx := if 800 ≤ x + 100 ∨ x ≤ 0 then -s.dx else s.dx
  let dy := if 600 ≤ y + 100 ∨ y ≤ 0 then -s.dy else s.dy
  { x, y, dx, dy, mem }

/-- The state before the loop. -/
def start (b : Pointers) (mem : Words) : State :=
  { x := 0, y := 0, dx := 1, dy := 1, mem := memcpy mem b.original b.fbPtr fbSize }

/-- `dvd_bounce` at the frame `t`. -/
def dvdBounce (b : Pointers) (mem : Words) (t : ℕ) : State := (frame b)^[t] (start b mem)

/-- The pixels of a square with its upper left corner at `x` and `y`. -/
def Square (x y p : ℕ) : Prop :=
  (x ≤ p % 800 ∧ p % 800 < x + 100) ∧ y ≤ p / 800 ∧ p / 800 < y + 100

instance (x y p : ℕ) : Decidable (Square x y p) := inferInstanceAs (Decidable (_ ∧ _))

/-- Buffers of `FB_SIZE` bytes at `a` and `b` do not overlap. -/
def Disjoint (a b : ℕ) : Prop := 4 * a + fbSize ≤ 4 * b ∨ 4 * b + fbSize ≤ 4 * a

/-- The three buffers do not overlap. -/
structure Pointers.Apart (b : Pointers) : Prop where
  original : Disjoint b.fbPtr b.original
  backbuffer : Disjoint b.fbPtr b.backbuffer
  copies : Disjoint b.original b.backbuffer

theorem fbSize_eq : fbSize = 4 * 480000 := rfl

/-! ## Copies -/

section Copies
variable {mem : Words} {dst src p : ℕ}

theorem memcpy_inside (hp : p < 480000) :
    memcpy mem dst src fbSize (dst + p) = mem (src + p) := by
  rw [memcpy, if_pos ⟨Nat.le_add_right dst p, by rw [fbSize_eq]; omega⟩, Nat.add_sub_cancel_left]

theorem memcpy_outside (hp : p < dst ∨ dst + 480000 ≤ p) :
    memcpy mem dst src fbSize p = mem p :=
  if_neg (by rw [fbSize_eq]; omega)

end Copies

/-- What the nested loops draw. -/
theorem drawSquare_apply {x y : ℕ} (hx : x ≤ 700) (hy : y ≤ 500) (backbuffer : ℕ) (mem : Words)
    (p : ℕ) :
    drawSquare x y backbuffer mem p =
      if backbuffer ≤ p ∧ p < backbuffer + 480000 ∧ Square x y (p - backbuffer) then 0x0000ff
      else mem p := by
  have hpass : drawSquare x y backbuffer mem =
      Buffer.pass (fun _ _ => 0x0000ff)
        (Buffer.nest 100 100 fun i j => (backbuffer + pixel x y i j).toNat) mem :=
    Buffer.foldl_nest (fun _ _ => 0x0000ff) (fun _ _ _ _ _ => rfl) mem
  have hindex : ∀ i j : ℕ, (backbuffer + pixel x y i j).toNat =
      backbuffer + ((y + i) * 800 + (x + j)) := by
    intro i j
    rw [pixel]
    omega
  have hmem : p ∈ Buffer.nest 100 100 (fun i j => (backbuffer + pixel x y i j).toNat) ↔
      backbuffer ≤ p ∧ p < backbuffer + 480000 ∧ Square x y (p - backbuffer) := by
    rw [Buffer.mem_nest, Square]
    constructor
    · rintro ⟨i, hi, j, hj, rfl⟩
      rw [hindex]
      omega
    · intro h
      refine ⟨(p - backbuffer) / 800 - y, by omega, (p - backbuffer) % 800 - x, by omega, ?_⟩
      rw [hindex]
      omega
  rw [hpass, (Buffer.stable_const _ _).pass_apply]
  simp only [hmem]

section Run
variable (b : Pointers)

/-- The coordinates move as a point between two walls each. -/
theorem frame_coordinates (s : State) :
    ((frame b s).x, (frame b s).dx) = step 700 (s.x, s.dx) ∧
      ((frame b s).y, (frame b s).dy) = step 500 (s.y, s.dy) := by
  have hx : 800 ≤ s.x + s.dx + 100 ↔ ((700 : ℕ) : ℤ) ≤ s.x + s.dx := by omega
  have hy : 600 ≤ s.y + s.dy + 100 ↔ ((500 : ℕ) : ℤ) ≤ s.y + s.dy := by omega
  simp only [frame, step, hx, hy, and_self]

theorem coordinates (mem : Words) (t : ℕ) :
    (dvdBounce b mem t).x = position 700 t ∧ (dvdBounce b mem t).y = position 500 t := by
  have hboth : ∀ t, ((dvdBounce b mem t).x, (dvdBounce b mem t).dx) = (step 700)^[t] (0, 1) ∧
      ((dvdBounce b mem t).y, (dvdBounce b mem t).dy) = (step 500)^[t] (0, 1) := by
    intro t
    induction t with
    | zero => exact ⟨rfl, rfl⟩
    | succ t ih =>
        obtain ⟨hx, hy⟩ := frame_coordinates b (dvdBounce b mem t)
        rw [dvdBounce, Function.iterate_succ_apply', ← dvdBounce, hx, hy, ih.1, ih.2,
          Function.iterate_succ_apply', Function.iterate_succ_apply']
        exact ⟨rfl, rfl⟩
  obtain ⟨hx, hy⟩ := hboth t
  rw [step_iterate (by decide)] at hx hy
  exact ⟨congrArg Prod.fst hx, congrArg Prod.fst hy⟩

/-- What a frame leaves in memory, for a square inside the picture. -/
structure Drawn (x y : ℕ) (mem mem' : Words) : Prop where
  screen : ∀ p < 480000, mem' (b.fbPtr + p) =
    if Square x y p then 0x0000ff else mem (b.original + p)
  original : ∀ p < 480000, mem' (b.original + p) = mem (b.original + p)
  outside : ∀ p, (p < b.fbPtr ∨ b.fbPtr + 480000 ≤ p) →
    (p < b.backbuffer ∨ b.backbuffer + 480000 ≤ p) → mem' p = mem p

variable {b}

theorem frame_drawn (h : b.Apart) {s : State} {x y : ℕ} (hx : s.x = x) (hy : s.y = y)
    (hx' : x ≤ 700) (hy' : y ≤ 500) : Drawn b x y s.mem (frame b s).mem := by
  obtain ⟨hor, hback, hcopies⟩ := h
  simp only [Disjoint, fbSize_eq] at hor hback hcopies
  have hmem : (frame b s).mem = memcpy (drawSquare x y b.backbuffer
      (memcpy s.mem b.backbuffer b.original fbSize)) b.fbPtr b.backbuffer fbSize := by
    rw [← hx, ← hy]
    rfl
  rw [hmem]
  -- outside of the screen and the back buffer, all three steps change nothing
  have hout : ∀ p, (p < b.fbPtr ∨ b.fbPtr + 480000 ≤ p) →
      (p < b.backbuffer ∨ b.backbuffer + 480000 ≤ p) →
      memcpy (drawSquare x y b.backbuffer (memcpy s.mem b.backbuffer b.original fbSize)) b.fbPtr
        b.backbuffer fbSize p = s.mem p := by
    intro p hp hp'
    rw [memcpy_outside hp, drawSquare_apply hx' hy', if_neg (by omega), memcpy_outside hp']
  refine ⟨fun p hp => ?_, fun p hp => hout _ (by omega) (by omega), hout⟩
  rw [memcpy_inside hp, drawSquare_apply hx' hy', memcpy_inside hp, Nat.add_sub_cancel_left]
  congr 1
  rw [eq_iff_iff]
  exact ⟨fun hs => hs.2.2, fun hs => ⟨Nat.le_add_right _ _, by omega, hs⟩⟩

/-- The copy is what was on the screen, and outside of the buffers all is as before. -/
theorem kept (h : b.Apart) (mem : Words) (t : ℕ) :
    (∀ p < 480000, (dvdBounce b mem t).mem (b.original + p) = mem (b.fbPtr + p)) ∧
      ∀ p, (p < b.fbPtr ∨ b.fbPtr + 480000 ≤ p) → (p < b.original ∨ b.original + 480000 ≤ p) →
        (p < b.backbuffer ∨ b.backbuffer + 480000 ≤ p) → (dvdBounce b mem t).mem p = mem p := by
  induction t with
  | zero => exact ⟨fun p hp => memcpy_inside hp, fun p _ hp _ => memcpy_outside hp⟩
  | succ t ih =>
      obtain ⟨hx, hy⟩ := coordinates b mem t
      have hd := frame_drawn h hx hy (position_le 700 t) (position_le 500 t)
      rw [dvdBounce, Function.iterate_succ_apply', ← dvdBounce]
      exact ⟨fun p hp => (hd.original p hp).trans (ih.1 p hp),
        fun p hp hp' hp'' => (hd.outside p hp hp'').trans (ih.2 p hp hp' hp'')⟩

/-- **Every frame.** If the buffers do not overlap, all stores of the loop are in the back buffer,
the screen shows what was on it, with the square over it at a place that runs to and fro between
the edges, and nothing outside of the buffers changes. -/
theorem bounce_frame (h : b.Apart) (mem : Words) (t : ℕ) :
    (∀ i < 100, ∀ j < 100,
      0 ≤ pixel (dvdBounce b mem t).x (dvdBounce b mem t).y i j ∧
        4 * pixel (dvdBounce b mem t).x (dvdBounce b mem t).y i j + 4 ≤ fbSize) ∧
      (∀ p, 4 * p < fbSize → (dvdBounce b mem (t + 1)).mem (b.fbPtr + p) =
        if Square (position 700 t) (position 500 t) p then 0x0000ff else mem (b.fbPtr + p)) ∧
      ∀ p, (p < b.fbPtr ∨ 4 * b.fbPtr + fbSize ≤ 4 * p) →
        (p < b.original ∨ 4 * b.original + fbSize ≤ 4 * p) →
        (p < b.backbuffer ∨ 4 * b.backbuffer + fbSize ≤ 4 * p) →
        (dvdBounce b mem (t + 1)).mem p = mem p := by
  obtain ⟨hx, hy⟩ := coordinates b mem t
  have hx' := position_le 700 t
  have hy' := position_le 500 t
  simp only [fbSize_eq]
  refine ⟨fun i hi j hj => ?_, fun p hp => ?_, fun p h₁ h₂ h₃ => ?_⟩
  · rw [hx, hy, pixel]
    constructor <;> omega
  · rw [dvdBounce, Function.iterate_succ_apply', ← dvdBounce,
      (frame_drawn h hx hy hx' hy').screen p (by omega), (kept h mem t).1 p (by omega)]
  · exact (kept h mem (t + 1)).2 p (by omega) (by omega) (by omega)

/-- The buffers one after the other, with a page in between. -/
theorem bounce_frame_apart :
    Pointers.Apart ⟨0x90000, 0x106000, 0x17c000⟩ ∧ ∀ p, 4 * p < fbSize →
      (dvdBounce ⟨0x90000, 0x106000, 0x17c000⟩ (fun _ => 1) 1).mem (0x90000 + p) =
        if Square 0 0 p then 0x0000ff else 1 :=
  have h : Pointers.Apart ⟨0x90000, 0x106000, 0x17c000⟩ :=
    ⟨.inl (by decide), .inl (by decide), .inl (by decide)⟩
  ⟨h, (bounce_frame h (fun _ => 1) 0).2.1⟩

end Run

end Bounce
end BootableKernel
