import BootableKernel.VGA.Copy
import BootableKernel.VGA.Font
import Mathlib.Tactic.Ring

/-!
# The pixel console

The functions of `VGA.c` on three pixel buffers: text is drawn into `BACKBUFFER` over the
picture in `BACKGROUND`, and `swapBuffers` copies the result to `FRAMEBUFFER`. The buffers
are taken to have `fb_size` bytes each and not to overlap, which `vga_init` provides in some
modes only. They are functions of the pixel index, so a load past the end of a buffer has a
value, about which nothing is known.

`vga.rowMax` and `vga.colMax` are set once, from the mode; they are functions of the mode
here.
-/

namespace BootableKernel

/-- `TEXT_COLOR`. -/
def textColor : Pixel := 0x00ffffff

/-- `TAB_SIZE`. -/
def tabSize : ℕ := 4

/-- `vbe_info`: a mode with 32-bit pixels and room for at least one character. -/
structure Mode where
  width : ℕ
  height : ℕ
  bytesPerLine : ℕ
  width_ge : fontWidth ≤ width
  height_ge : fontHeight ≤ height
  /-- A line holds its pixels. -/
  pitch : 4 * width ≤ bytesPerLine
  /-- The size of the buffers fits the `int` it is computed in. -/
  size_lt : height * bytesPerLine < 2 ^ 31

namespace Mode

/-- The mode the boot loader asks for: 800 by 600. -/
def boot : Mode where
  width := 800
  height := 600
  bytesPerLine := 3200
  width_ge := by decide
  height_ge := by decide
  pitch := by decide
  size_lt := by decide

/-- `vga.colMax`. -/
def colMax (m : Mode) : ℕ := m.width / fontWidth

/-- `vga.rowMax`. -/
def rowMax (m : Mode) : ℕ := m.height / fontHeight

/-- `fb_size`. -/
def fbSize (m : Mode) : ℕ := m.height * m.bytesPerLine

theorem colMax_pos (m : Mode) : 0 < m.colMax := Nat.div_pos m.width_ge (by decide)

theorem rowMax_pos (m : Mode) : 0 < m.rowMax := Nat.div_pos m.height_ge (by decide)

theorem colMax_le (m : Mode) : m.colMax * fontWidth ≤ m.width := Nat.div_mul_le_self _ _

theorem rowMax_le (m : Mode) : m.rowMax * fontHeight ≤ m.height := Nat.div_mul_le_self _ _

theorem rowMax_mul (m : Mode) :
    m.rowMax * fontHeight = (m.rowMax - 1) * fontHeight + fontHeight := by
  rw [← Nat.succ_mul, Nat.succ_eq_add_one, Nat.sub_add_cancel m.rowMax_pos]

/-- The columns a row of characters leaves over are fewer than one character wide. -/
theorem width_lt (m : Mode) : m.width < (m.colMax + 1) * fontWidth :=
  (Nat.div_lt_iff_lt_mul (by decide)).mp (Nat.lt_succ_self _)

theorem fbSize_ge (m : Mode) : 4 * (m.width * m.height) ≤ m.fbSize := by
  calc 4 * (m.width * m.height) = m.height * (4 * m.width) := by ring
    _ ≤ m.height * m.bytesPerLine := Nat.mul_le_mul_left _ m.pitch

theorem fbSize_pos (m : Mode) : 128 ≤ m.fbSize := by
  have h : fontWidth * fontHeight ≤ m.width * m.height :=
    Nat.mul_le_mul m.width_ge m.height_ge
  have := m.fbSize_ge
  simp only [fontWidth, fontHeight] at h
  omega

theorem fbSize_lt (m : Mode) : m.fbSize < 2 ^ 64 := by
  have := m.size_lt
  rw [fbSize]
  omega

end Mode

/-- The pixel that `vga_init` puts into `BACKGROUND` for `x` and `y`: a checkerboard, and a
disc of stripes in the middle. `fsin y` tells whether the sine of `50 * y` comes out
positive. -/
def texture (width height : ℕ) (fsin : ℕ → Bool) (x y : ℕ) : Pixel :=
  let flag1 := (List.range (x + 1)).foldl (fun flag1 x => flag1 ^^ ((x + y) % 100 == 0)) false
  let dx : ℤ := x - width / 2
  let dy : ℤ := y - height / 2
  let flag2 := decide (dx * dx + dy * dy ≤ 10000) && fsin y
  if flag2 then 0xf37335 else if flag1 then 0x232526 else 0x414345

theorem texture_ne_textColor (width height : ℕ) (fsin : ℕ → Bool) (x y : ℕ) :
    texture width height fsin x y ≠ textColor := by
  rw [texture]
  split_ifs <;> decide

/-- The state of the console. -/
structure Screen where
  /-- `FRAMEBUFFER`. -/
  front : ℕ → Pixel
  /-- `BACKBUFFER`. -/
  back : ℕ → Pixel
  /-- `BACKGROUND`. -/
  background : ℕ → Pixel
  cursorX : ℕ
  cursorY : ℕ
  /-- `vga_ready`. -/
  ready : Bool
  /-- What went to the serial port, the latest byte first. -/
  com1 : List (BitVec 8)
  /-- What lies in memory around `FONT`. -/
  stray : ℤ → ℕ → ℕ
  xmm : Xmm

namespace Screen

variable (m : Mode)

def swapBuffers (σ : Screen) : Screen :=
  let c := kmemcpy128 σ.front σ.back m.fbSize σ.xmm
  { σ with front := c.dst, xmm := c.xmm }

def clearScreen (σ : Screen) : Screen :=
  if !σ.ready then σ
  else
    let c := kmemcpy128 σ.back σ.background m.fbSize σ.xmm
    swapBuffers m { σ with cursorX := 0, cursorY := 0, back := c.dst, xmm := c.xmm }

def scrollUp (σ : Screen) : Screen :=
  let back := (List.range ((m.rowMax - 1) * fontHeight)).foldl (fun back y =>
    (List.range ((m.colMax + 1) * fontWidth)).foldl (fun back x =>
      let lower := back (x + (y + fontHeight) * m.width)
      Function.update back (x + y * m.width)
        (if lower = textColor then textColor else σ.background (x + y * m.width)))
      back) σ.back
  -- Clear last line
  let back := (List.range fontHeight).foldl (fun back y =>
    (List.range (m.colMax * fontWidth)).foldl (fun back x =>
      let py := (m.rowMax - 1) * fontHeight + y
      Function.update back (x + py * m.width) (σ.background (x + py * m.width)))
      back) back
  { σ with back := back }

def ensureCursorInRange (σ : Screen) : Screen :=
  let σ := if m.colMax ≤ σ.cursorX then
      { σ with cursorX := 0, cursorY := σ.cursorY + 1 }
    else σ
  if m.rowMax ≤ σ.cursorY then
    { scrollUp m σ with cursorX := 0, cursorY := m.rowMax - 1 }
  else σ

def render (character : BitVec 8) (σ : Screen) : Screen :=
  { σ with back := (List.range fontWidth).foldl (fun back x =>
      (List.range fontHeight).foldl (fun back y =>
        let set := fontAt σ.stray (character.toInt - 32) (fontHeight - y - 1) &&&
          1 <<< (fontWidth - x - 1)
        let px := σ.cursorX * fontWidth + x
        let py := σ.cursorY * fontHeight + y
        Function.update back (px + py * m.width)
          (if set ≠ 0 then textColor else σ.background (px + py * m.width)))
        back) σ.back }

def putChar (c : BitVec 8) (σ : Screen) : Screen :=
  let σ := { σ with com1 := c :: σ.com1 }
  if !σ.ready then σ
  else if c = 0x0d#8 then -- '\r'
    ensureCursorInRange m { σ with cursorX := 0 }
  else if c = 0x08#8 then -- '\b'
    let σ := if σ.cursorX = 0 then
        if σ.cursorY ≠ 0 then
          { σ with cursorY := σ.cursorY - 1, cursorX := m.colMax - 1 }
        else σ
      else { σ with cursorX := σ.cursorX - 1 }
    ensureCursorInRange m (render m 0x20#8 σ)
  else if c = 0x0a#8 then -- '\n'
    ensureCursorInRange m { σ with cursorX := 0, cursorY := σ.cursorY + 1 }
  else if _h : c = 0x09#8 then -- '\t'
    let howMany := tabSize - σ.cursorX % tabSize
    ensureCursorInRange m
      ((List.range howMany).foldl (fun σ _ => putChar 0x20#8 σ) σ)
  else
    let σ := render m c σ
    ensureCursorInRange m { σ with cursorX := σ.cursorX + 1 }
termination_by if c = 0x09#8 then 1 else 0
decreasing_by
  rw [if_pos _h]
  decide

/-! ### The branches of `putChar` -/

/-- `outb` to the serial port. -/
def sent (c : BitVec 8) (σ : Screen) : Screen := { σ with com1 := c :: σ.com1 }

/-- The cursor movement of `'\\b'`. -/
def stepBack (σ : Screen) : Screen :=
  if σ.cursorX = 0 then
    if σ.cursorY ≠ 0 then
      { σ with cursorY := σ.cursorY - 1, cursorX := m.colMax - 1 }
    else σ
  else { σ with cursorX := σ.cursorX - 1 }

section Branches

variable {m} {σ : Screen}

theorem putChar_silent (h : σ.ready = false) (c : BitVec 8) : putChar m c σ = sent c σ := by
  rw [putChar]
  exact if_pos (by simp [h])

theorem putChar_return (h : σ.ready = true) :
    putChar m 0x0d#8 σ = ensureCursorInRange m { sent 0x0d#8 σ with cursorX := 0 } := by
  rw [putChar, if_neg (by simp [h]), if_pos rfl]
  rfl

theorem putChar_backspace (h : σ.ready = true) :
    putChar m 0x08#8 σ =
      ensureCursorInRange m (render m 0x20#8 (stepBack m (sent 0x08#8 σ))) := by
  rw [putChar, if_neg (by simp [h]), if_neg (by decide), if_pos rfl]
  rfl

theorem putChar_newline (h : σ.ready = true) :
    putChar m 0x0a#8 σ =
      ensureCursorInRange m
        { sent 0x0a#8 σ with cursorX := 0, cursorY := σ.cursorY + 1 } := by
  rw [putChar, if_neg (by simp [h]), if_neg (by decide), if_neg (by decide), if_pos rfl]
  rfl

theorem putChar_tab (h : σ.ready = true) :
    putChar m 0x09#8 σ =
      ensureCursorInRange m ((List.range (tabSize - σ.cursorX % tabSize)).foldl
        (fun σ _ => putChar m 0x20#8 σ) (sent 0x09#8 σ)) := by
  rw [putChar, if_neg (by simp [h]), if_neg (by decide), if_neg (by decide),
    if_neg (by decide), dif_pos rfl]
  rfl

/-- Characters without a meaning of their own. -/
def Ordinary (c : BitVec 8) : Prop := c ≠ 0x0d#8 ∧ c ≠ 0x08#8 ∧ c ≠ 0x0a#8 ∧ c ≠ 0x09#8

theorem putChar_ordinary (h : σ.ready = true) {c : BitVec 8} (hc : Ordinary c) :
    putChar m c σ =
      ensureCursorInRange m { render m c (sent c σ) with cursorX := σ.cursorX + 1 } := by
  rw [putChar, if_neg (by simp [h]), if_neg hc.1, if_neg hc.2.1, if_neg hc.2.2.1,
    dif_neg hc.2.2.2]
  rfl

/-- A property that the branches of `putChar` keep is kept by every character. -/
theorem putChar_induction {P : BitVec 8 → Screen → Prop}
    (silent : ∀ c σ, σ.ready = false → P c σ)
    (carriageReturn : ∀ σ, σ.ready = true → P 0x0d#8 σ)
    (backspace : ∀ σ, σ.ready = true → P 0x08#8 σ)
    (newline : ∀ σ, σ.ready = true → P 0x0a#8 σ)
    (ordinary : ∀ c σ, σ.ready = true → Ordinary c → P c σ)
    (tab : (∀ σ, P 0x20#8 σ) → ∀ σ, σ.ready = true → P 0x09#8 σ)
    (c : BitVec 8) (σ : Screen) : P c σ := by
  have hspace : ∀ σ, P 0x20#8 σ := by
    intro σ
    cases h : σ.ready with
    | false => exact silent _ σ h
    | true => exact ordinary _ σ h (by simp [Ordinary])
  cases h : σ.ready with
  | false => exact silent c σ h
  | true =>
      by_cases h1 : c = 0x0d#8
      · exact h1 ▸ carriageReturn σ h
      by_cases h2 : c = 0x08#8
      · exact h2 ▸ backspace σ h
      by_cases h3 : c = 0x0a#8
      · exact h3 ▸ newline σ h
      by_cases h4 : c = 0x09#8
      · exact h4 ▸ tab hspace σ h
      · exact ordinary c σ h ⟨h1, h2, h3, h4⟩

end Branches

/-- The text of a `log`, after formatting. -/
def log (text : List (BitVec 8)) (σ : Screen) : Screen :=
  swapBuffers m (text.foldl (fun σ c => putChar m c σ) σ)

def logN (buf : List (BitVec 8)) (σ : Screen) : Screen :=
  swapBuffers m (buf.foldl (fun σ c => putChar m c σ) σ)

end Screen

end BootableKernel
