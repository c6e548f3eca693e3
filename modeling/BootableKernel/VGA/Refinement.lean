import BootableKernel.VGA.Screen
import BootableKernel.Lib.Terminal
import Mathlib.Data.List.GetD
import Mathlib.Data.Nat.Bitwise

/-!
# The console shows a character terminal

The back buffer of `VGA.c` is a picture of a `Terminal` whose cells are printable
characters: a pixel of the text area has the text colour when the glyph of its cell has
that bit set, and every other pixel is the background's. Each key keeps this relation.
Scrolling is the delicate one. It works in place, recognises text by its colour, and its
inner loop runs past the end of the pixel row; the pixels it spoils there lie in the row
of characters that is cleared afterwards.

The relation has to start somewhere, and `clearScreen` establishes it only for the part
of the buffer that `kmemcpy_128` copies.
-/

namespace BootableKernel

/-- The characters with a glyph. -/
abbrev Glyph := {c : BitVec 8 // 32 ≤ c.toNat ∧ c.toNat ≤ 126}

namespace Glyph

def space : Glyph := ⟨0x20#8, by decide⟩

/-- Whether the glyph covers column `x`, line `y` of its cell. -/
def covers (g : Glyph) (x y : ℕ) : Bool :=
  ((FONT.getD (g.val.toNat - 32) []).getD (fontHeight - 1 - y) 0).testBit
    (fontWidth - 1 - x)

theorem fontAt_eq (stray : ℤ → ℕ → ℕ) (g : Glyph) (j : ℕ) :
    fontAt stray (g.val.toInt - 32) j = (FONT.getD (g.val.toNat - 32) []).getD j 0 := by
  have hi : g.val.toInt = g.val.toNat := by
    rw [BitVec.toInt_eq_toNat_of_lt]
    have := g.property.2
    omega
  have := g.property
  rw [fontAt, hi, if_pos (by omega)]
  congr 2
  omega

/-- The test of `render` is `covers`. -/
theorem set_iff (stray : ℤ → ℕ → ℕ) (g : Glyph) (x y : ℕ) :
    fontAt stray (g.val.toInt - 32) (fontHeight - y - 1) &&& 1 <<< (fontWidth - x - 1) ≠ 0 ↔
      g.covers x y = true := by
  rw [fontAt_eq, covers, Nat.sub_right_comm fontHeight, Nat.sub_right_comm fontWidth,
    Nat.one_shiftLeft, Nat.and_two_pow]
  cases Nat.testBit _ _ <;> simp

/-- A space covers nothing. -/
@[simp] theorem covers_space (x y : ℕ) : space.covers x y = false := by
  have h : ∀ j, (FONT.getD 0 []).getD j 0 = 0 := by
    intro j
    change (List.replicate 13 0).getD j 0 = 0
    exact List.getElem?_getD_replicate_default_eq 0 13 j
  simp only [covers, space]
  change ((FONT.getD 0 []).getD (fontHeight - 1 - y) 0).testBit _ = false
  rw [h, Nat.zero_testBit]

end Glyph

/-- The pixel at `(x, y)` of a picture of `cell` over `background`. -/
def shown (m : Mode) (background : ℕ → Pixel) (cell : ℕ → ℕ → Glyph) (x y : ℕ) : Pixel :=
  if x < m.colMax * fontWidth ∧ y < m.rowMax * fontHeight ∧
      (cell (y / fontHeight) (x / fontWidth)).covers (x % fontWidth) (y % fontHeight) then
    textColor
  else background (x + y * m.width)

theorem shown_blank (m : Mode) (background : ℕ → Pixel) {cell : ℕ → ℕ → Glyph} {x y : ℕ}
    (h : cell (y / fontHeight) (x / fontWidth) = Glyph.space) :
    shown m background cell x y = background (x + y * m.width) := by
  rw [shown, h, Glyph.covers_space]
  simp

namespace Screen

variable {m : Mode} {σ : Screen} {cell : ℕ → ℕ → Glyph}

/-- The back buffer shows `cell`. -/
def Drawn (m : Mode) (σ : Screen) (cell : ℕ → ℕ → Glyph) : Prop :=
  ∀ x < m.width, ∀ y < m.height,
    σ.back (x + y * m.width) = shown m σ.background cell x y

/-- No pixel of the background has the colour of text. -/
def Plain (m : Mode) (background : ℕ → Pixel) : Prop :=
  ∀ x < m.width, ∀ y < m.height, background (x + y * m.width) ≠ textColor

/-! ## Drawing a character -/

/-- `render` stores the pixels of one cell. -/
theorem back_render (g : Glyph) (hx : σ.cursorX < m.colMax) {x : ℕ} (hxw : x < m.width)
    (y : ℕ) :
    (render m g.val σ).back (x + y * m.width) =
      if x / fontWidth = σ.cursorX ∧ y / fontHeight = σ.cursorY then
        if g.covers (x % fontWidth) (y % fontHeight) then textColor
        else σ.background (x + y * m.width)
      else σ.back (x + y * m.width) := by
  have hcell : ∀ a < fontWidth, σ.cursorX * fontWidth + a < m.width := by
    intro a ha
    have h1 := m.colMax_le
    have h2 : (σ.cursorX + 1) * fontWidth ≤ m.colMax * fontWidth :=
      Nat.mul_le_mul_right _ hx
    rw [Nat.succ_mul] at h2
    omega
  -- the pixel stored at an index, found from the index alone
  let v : ℕ → Pixel := fun i =>
    if g.covers (i % m.width % fontWidth) (i / m.width % fontHeight) then textColor
    else σ.background i
  have hv : ∀ a < fontWidth, ∀ c < fontHeight, ∀ b : ℕ → Pixel,
      (if fontAt σ.stray (g.val.toInt - 32) (fontHeight - c - 1) &&&
          1 <<< (fontWidth - a - 1) ≠ 0 then textColor
        else σ.background (σ.cursorX * fontWidth + a + (σ.cursorY * fontHeight + c) * m.width)) =
      v (σ.cursorX * fontWidth + a + (σ.cursorY * fontHeight + c) * m.width) := by
    intro a ha c hc _
    simp only [v, Buffer.rowMajor_mod (hcell a ha), Buffer.rowMajor_div (hcell a ha),
      Nat.mul_add_mod_self_right, Nat.mod_eq_of_lt ha, Nat.mod_eq_of_lt hc, Glyph.set_iff]
  simp only [render]
  rw [Buffer.foldl_nest (fun i _ => v i) hv, (Buffer.stable_const v _).pass_apply]
  simp only [v, Buffer.rowMajor_mod hxw, Buffer.rowMajor_div hxw]
  congr 1
  rw [Buffer.mem_nest, eq_iff_iff]
  constructor
  · rintro ⟨a, ha, c, hc, h⟩
    obtain ⟨rfl, rfl⟩ := (Buffer.rowMajor_inj (hcell a ha) hxw).mp h
    exact ⟨by rw [Nat.mul_comm, Nat.mul_add_div (by decide), Nat.div_eq_of_lt ha, Nat.add_zero],
      by rw [Nat.mul_comm, Nat.mul_add_div (by decide), Nat.div_eq_of_lt hc, Nat.add_zero]⟩
  · rintro ⟨h1, h2⟩
    refine ⟨x % fontWidth, Nat.mod_lt _ (by decide), y % fontHeight,
      Nat.mod_lt _ (by decide), ?_⟩
    rw [← h1, ← h2, Nat.div_add_mod', Nat.div_add_mod']

theorem Drawn.render (h : Drawn m σ cell) (g : Glyph) (hx : σ.cursorX < m.colMax)
    (hy : σ.cursorY < m.rowMax) :
    Drawn m (render m g.val σ) (Terminal.store cell σ.cursorY σ.cursorX g) := by
  intro x hxw y hyh
  rw [back_render g hx hxw, h x hxw y hyh]
  simp only [shown, Terminal.store_apply]
  by_cases hc : x / fontWidth = σ.cursorX ∧ y / fontHeight = σ.cursorY
  · have hxc : x < m.colMax * fontWidth :=
      (Nat.div_lt_iff_lt_mul (by decide)).mp (hc.1 ▸ hx)
    have hyc : y < m.rowMax * fontHeight :=
      (Nat.div_lt_iff_lt_mul (by decide)).mp (hc.2 ▸ hy)
    simp only [hc, and_self, if_true, hxc, hyc, true_and]
    rfl
  · have hc' : ¬ (y / fontHeight = σ.cursorY ∧ x / fontWidth = σ.cursorX) :=
      fun h => hc h.symm
    simp only [if_neg hc, if_neg hc']
    rfl

/-! ## Scrolling -/

/-- The pixels `scrollUp` moves, by their index. -/
theorem back_scrollUp (x y : ℕ) :
    (scrollUp m σ).back (x + y * m.width) =
      if x + y * m.width ∈ Buffer.nest fontHeight (m.colMax * fontWidth)
          (fun y x => x + ((m.rowMax - 1) * fontHeight + y) * m.width) then
        σ.background (x + y * m.width)
      else if x + y * m.width ∈ Buffer.nest ((m.rowMax - 1) * fontHeight)
          ((m.colMax + 1) * fontWidth) (fun y x => x + y * m.width) then
        if σ.back (x + (y + fontHeight) * m.width) = textColor then textColor
        else σ.background (x + y * m.width)
      else σ.back (x + y * m.width) := by
  -- a pixel is taken from the line a character lower, which no earlier store has reached
  have hahead : (Buffer.nest ((m.rowMax - 1) * fontHeight) ((m.colMax + 1) * fontWidth)
      (fun y x => x + y * m.width)).Pairwise fun i j => i ≠ j + fontHeight * m.width := by
    have hw := m.width_ge
    have hc := m.colMax_le
    rw [Nat.succ_mul]
    have h13 : fontWidth + m.width ≤ fontHeight * m.width := by
      simp only [fontWidth, fontHeight] at hw ⊢
      omega
    apply Buffer.pairwise_nest
    · intro a _ c d hcd _
      omega
    · intro a b hab _ c hc' d _
      have : a * m.width ≤ b * m.width := Nat.mul_le_mul_right _ hab.le
      omega
  have hlow : ∀ x y, x + (y + fontHeight) * m.width =
      x + y * m.width + fontHeight * m.width := by
    intro x y
    ring
  simp only [scrollUp]
  rw [Buffer.foldl_nest (fun i _ => σ.background i) (fun _ _ _ _ _ => rfl),
    (Buffer.stable_const σ.background _).pass_apply]
  congr 1
  rw [Buffer.foldl_nest (fun i b => if b (i + fontHeight * m.width) = textColor then textColor
    else σ.background i) (fun _ _ _ _ _ => by rw [hlow]),
    (Buffer.stable_ahead (fun i p => if p = textColor then textColor else σ.background i)
      (fontHeight * m.width) hahead).pass_apply, hlow]

theorem mem_lastLine {x y : ℕ} (hx : x < m.width) :
    x + y * m.width ∈ Buffer.nest fontHeight (m.colMax * fontWidth)
        (fun y x => x + ((m.rowMax - 1) * fontHeight + y) * m.width) ↔
      x < m.colMax * fontWidth ∧ (m.rowMax - 1) * fontHeight ≤ y ∧
        y < m.rowMax * fontHeight := by
  have hrows := m.rowMax_mul
  have hcols := m.colMax_le
  rw [Buffer.mem_nest]
  constructor
  · rintro ⟨a, ha, b, hb, h⟩
    obtain ⟨rfl, rfl⟩ := (Buffer.rowMajor_inj (by omega) hx).mp h
    omega
  · rintro ⟨h1, h2, h3⟩
    refine ⟨y - (m.rowMax - 1) * fontHeight, by omega, x, h1, ?_⟩
    rw [Nat.add_sub_cancel' h2]

theorem mem_moved {x y : ℕ} (hx : x < m.width) (hy : y < (m.rowMax - 1) * fontHeight) :
    x + y * m.width ∈ Buffer.nest ((m.rowMax - 1) * fontHeight)
      ((m.colMax + 1) * fontWidth) (fun y x => x + y * m.width) := by
  rw [Buffer.mem_nest]
  exact ⟨y, hy, x, hx.trans m.width_lt, rfl⟩

/-- The inner loop runs into the next line of pixels, by less than a character. -/
theorem of_mem_moved {x y : ℕ} (hx : x < m.width)
    (h : x + y * m.width ∈ Buffer.nest ((m.rowMax - 1) * fontHeight)
      ((m.colMax + 1) * fontWidth) (fun y x => x + y * m.width)) :
    y < (m.rowMax - 1) * fontHeight ∨ y = (m.rowMax - 1) * fontHeight ∧ x < fontWidth := by
  obtain ⟨a, ha, b, hb, h⟩ := Buffer.mem_nest.mp h
  have hcols := m.colMax_le
  have hw := m.width_ge
  rw [Nat.succ_mul] at hb
  by_cases hbw : b < m.width
  · obtain ⟨-, rfl⟩ := (Buffer.rowMajor_inj hbw hx).mp h
    exact .inl ha
  · have hover : b - m.width + (a + 1) * m.width = x + y * m.width := by
      rw [Nat.succ_mul]
      omega
    obtain ⟨hxb, rfl⟩ := (Buffer.rowMajor_inj (by omega) hx).mp hover
    omega

/-- What the line a character lower shows is what the scrolled cells show here. -/
theorem shown_scroll {background : ℕ → Pixel} (hb : Plain m background) {x y : ℕ}
    (hx : x < m.width) (hy : y < (m.rowMax - 1) * fontHeight) :
    (if shown m background cell x (y + fontHeight) = textColor then textColor
      else background (x + y * m.width)) =
      shown m background (Terminal.scroll Glyph.space m.rowMax cell) x y := by
  have hrows := m.rowMax_mul
  have hheight := m.rowMax_le
  have hrow : y / fontHeight + 1 < m.rowMax := by
    exact Nat.add_lt_of_lt_sub ((Nat.div_lt_iff_lt_mul (by decide)).mpr hy)
  have hbg := hb x hx (y + fontHeight) (by omega)
  simp only [shown, Terminal.scroll, if_pos hrow, Nat.add_mod_right,
    Nat.add_div_right y (show 0 < fontHeight by decide),
    show y + fontHeight < m.rowMax * fontHeight by omega,
    show y < m.rowMax * fontHeight by omega, true_and]
  by_cases hc : x < m.colMax * fontWidth ∧
      (cell (y / fontHeight + 1) (x / fontWidth)).covers (x % fontWidth) (y % fontHeight) = true
  · simp only [if_pos hc, if_true]
  · simp only [if_neg hc, if_neg hbg]

theorem Drawn.scrollUp (h : Drawn m σ cell) (hb : Plain m σ.background) :
    Drawn m (scrollUp m σ) (Terminal.scroll Glyph.space m.rowMax cell) := by
  have hrows := m.rowMax_mul
  have hheight := m.rowMax_le
  intro x hx y hy
  simp only [back_scrollUp, mem_lastLine hx]
  change _ = shown m σ.background _ x y
  by_cases hmoved : y < (m.rowMax - 1) * fontHeight
  · rw [if_neg (by omega), if_pos (mem_moved hx hmoved), h x hx _ (by omega),
      shown_scroll hb hx hmoved]
  by_cases hlast : x < m.colMax * fontWidth ∧ y < m.rowMax * fontHeight
  · -- the row of characters that is cleared
    have hrow : y / fontHeight = m.rowMax - 1 := by
      rw [Nat.div_eq_iff (by decide)]
      omega
    rw [if_pos (by omega), shown_blank]
    rw [Terminal.scroll, if_neg (by omega)]
  · -- the margins
    have hcols : fontWidth ≤ m.colMax * fontWidth := Nat.le_mul_of_pos_left _ m.colMax_pos
    have hkept : ¬ x + y * m.width ∈ Buffer.nest ((m.rowMax - 1) * fontHeight)
        ((m.colMax + 1) * fontWidth) (fun y x => x + y * m.width) := by
      intro hmem
      have hpos : 0 < fontHeight := by decide
      have := of_mem_moved hx hmem
      omega
    rw [if_neg (by omega), if_neg hkept, h x hx y hy, shown, shown, if_neg (by tauto),
      if_neg (by tauto)]

/-! ## Keys -/

/-- The character a key sends. -/
def code : Terminal.Key Glyph → BitVec 8
  | .glyph g => g.val
  | .newline => 0x0a#8
  | .carriageReturn => 0x0d#8
  | .backspace => 0x08#8
  | .tab => 0x09#8

/-- The console shows the terminal `T` over `background`. -/
structure Shows (m : Mode) (background : ℕ → Pixel) (σ : Screen)
    (T : Terminal Glyph m.rowMax m.colMax) : Prop where
  ready : σ.ready = true
  background_eq : σ.background = background
  cursorX_eq : σ.cursorX = T.x
  cursorY_eq : σ.cursorY = T.y
  drawn : Drawn m σ T.cell

variable {background : ℕ → Pixel} {T : Terminal Glyph m.rowMax m.colMax}

theorem ensureCursorInRange_of_lt (hx : σ.cursorX < m.colMax) (hy : σ.cursorY < m.rowMax) :
    ensureCursorInRange m σ = σ := by
  simp [ensureCursorInRange, hx.not_ge, hy.not_ge]

theorem ensureCursorInRange_wrap (hx : m.colMax ≤ σ.cursorX) :
    ensureCursorInRange m σ =
      ensureCursorInRange m { σ with cursorX := 0, cursorY := σ.cursorY + 1 } := by
  simp [ensureCursorInRange, hx, m.colMax_pos.not_ge]

/-- The start of the next row, scrolling when there is none. -/
theorem Shows.lineFeed (hb : Plain m background) (hr : σ.ready = true)
    (hbg : σ.background = background) (hx : σ.cursorX = 0) (hy : σ.cursorY = T.y + 1)
    (hd : Drawn m σ T.cell) :
    Shows m background (ensureCursorInRange m σ) (T.lineFeed Glyph.space) := by
  have hcol : σ.cursorX < m.colMax := hx ▸ m.colMax_pos
  by_cases h : T.y + 1 < m.rowMax
  · rw [ensureCursorInRange_of_lt hcol (hy ▸ h), Terminal.lineFeed, dif_pos h]
    exact ⟨hr, hbg, hx, hy, hd⟩
  · have hlast : T.y = m.rowMax - 1 := by
      have := T.y_lt
      omega
    have hscroll : ensureCursorInRange m σ =
        { scrollUp m σ with cursorX := 0, cursorY := m.rowMax - 1 } := by
      simp [ensureCursorInRange, hcol.not_ge, hy, Nat.not_lt.mp h]
    rw [hscroll, Terminal.lineFeed, dif_neg h]
    exact ⟨hr, hbg, rfl, hlast.symm, hd.scrollUp (hbg ▸ hb)⟩

theorem Shows.sent (h : Shows m background σ T) (c : BitVec 8) :
    Shows m background (sent c σ) T :=
  ⟨h.ready, h.background_eq, h.cursorX_eq, h.cursorY_eq, h.drawn⟩

theorem Shows.cursorX_lt (h : Shows m background σ T) : σ.cursorX < m.colMax :=
  h.cursorX_eq ▸ T.x_lt

theorem Shows.cursorY_lt (h : Shows m background σ T) : σ.cursorY < m.rowMax :=
  h.cursorY_eq ▸ T.y_lt

/-- A cursor in range stays. -/
theorem Shows.inRange (h : Shows m background σ T) :
    Shows m background (ensureCursorInRange m σ) T := by
  rwa [ensureCursorInRange_of_lt h.cursorX_lt h.cursorY_lt]

/-- Drawing at the cursor stores in the cell at the cursor. -/
theorem Shows.render (h : Shows m background σ T) (g : Glyph) :
    Drawn m (render m g.val σ) (Terminal.store T.cell T.y T.x g) := by
  have := h.drawn.render g h.cursorX_lt h.cursorY_lt
  rwa [h.cursorX_eq, h.cursorY_eq] at this

theorem ordinary_glyph (g : Glyph) : Ordinary g.val := by
  have hne : ∀ c : BitVec 8, c.toNat < 32 → g.val ≠ c := by
    rintro c hc rfl
    have := g.property.1
    omega
  exact ⟨hne _ (by decide), hne _ (by decide), hne _ (by decide), hne _ (by decide)⟩

/-- The cell after the one just drawn, which may be in the next row. -/
theorem Shows.advance (hb : Plain m background) {g : Glyph} (hr : σ.ready = true)
    (hbg : σ.background = background) (hx : σ.cursorX = T.x + 1) (hy : σ.cursorY = T.y)
    (hd : Drawn m σ (Terminal.store T.cell T.y T.x g)) :
    Shows m background (ensureCursorInRange m σ) (T.put Glyph.space g) := by
  by_cases h : T.x + 1 < m.colMax
  · rw [ensureCursorInRange_of_lt (hx ▸ h) (hy ▸ T.y_lt), Terminal.put, dif_pos h]
    exact ⟨hr, hbg, hx, hy, hd⟩
  · rw [ensureCursorInRange_wrap (hx ▸ Nat.not_lt.mp h), Terminal.put, dif_neg h]
    apply Shows.lineFeed hb
    · exact hr
    · exact hbg
    · rfl
    · exact congrArg (· + 1) hy
    · exact hd

theorem Shows.put (hb : Plain m background) (h : Shows m background σ T) (g : Glyph) :
    Shows m background (putChar m g.val σ) (T.put Glyph.space g) := by
  have hc := h.sent g.val
  rw [putChar_ordinary h.ready (ordinary_glyph g)]
  exact Shows.advance hb hc.ready hc.background_eq (congrArg (· + 1) hc.cursorX_eq)
    hc.cursorY_eq (hc.render g)

/-- One cell back. -/
theorem Shows.back (h : Shows m background σ T) :
    Shows m background (stepBack m σ) T.back := by
  rw [Terminal.back, stepBack, h.cursorX_eq, h.cursorY_eq]
  by_cases hx : T.x = 0
  · by_cases hy : T.y = 0
    · simpa [hx, hy] using h
    · simp only [hx, hy, if_true, if_false, ne_eq, not_false_eq_true]
      exact ⟨h.ready, h.background_eq, rfl, rfl, h.drawn⟩
  · simp only [hx, if_false]
    exact ⟨h.ready, h.background_eq, rfl, rfl, h.drawn⟩

theorem Shows.spaces (hb : Plain m background) (n : ℕ) (h : Shows m background σ T) :
    Shows m background ((List.range n).foldl (fun σ _ => putChar m 0x20#8 σ) σ)
      ((Terminal.put Glyph.space Glyph.space)^[n] T) := by
  induction n with
  | zero => exact h
  | succ n ih =>
      rw [List.range_succ, List.foldl_append, Function.iterate_succ_apply']
      exact ih.put hb Glyph.space

/-- Every key keeps the picture. -/
theorem Shows.putChar (hb : Plain m background) (k : Terminal.Key Glyph)
    (h : Shows m background σ T) :
    Shows m background (putChar m (code k) σ) (T.press Glyph.space tabSize k) := by
  have hc := h.sent (code k)
  cases k with
  | glyph g => exact h.put hb g
  | newline =>
      rw [code, putChar_newline h.ready]
      apply Shows.lineFeed hb
      · exact hc.ready
      · exact hc.background_eq
      · rfl
      · exact congrArg (· + 1) hc.cursorY_eq
      · exact hc.drawn
  | carriageReturn =>
      rw [code, putChar_return h.ready]
      apply Shows.inRange
      exact ⟨hc.ready, hc.background_eq, rfl, hc.cursorY_eq, hc.drawn⟩
  | backspace =>
      have hback := hc.back
      rw [code, putChar_backspace h.ready]
      apply Shows.inRange
      exact ⟨hback.ready, hback.background_eq, hback.cursorX_eq, hback.cursorY_eq,
        hback.render Glyph.space⟩
  | tab =>
      rw [code, putChar_tab h.ready]
      apply Shows.inRange
      rw [Terminal.press, ← hc.cursorX_eq]
      exact hc.spaces hb _

/-! ## From a clear screen -/

theorem back_clearScreen (hr : σ.ready = true) (i : ℕ) :
    (clearScreen m σ).back i =
      if i < 32 * (m.fbSize / 128) then σ.background i else σ.back i := by
  simp only [clearScreen, hr, Bool.not_true, Bool.false_eq_true, if_false, swapBuffers]
  exact dst_kmemcpy128 _ _ _ m.fbSize_pos m.fbSize_lt i

/-- When the copy covers every pixel, the cleared screen shows the empty terminal. -/
theorem Shows.clear (hr : σ.ready = true)
    (hcopy : 4 * (m.width * m.height) ≤ 128 * (m.fbSize / 128)) :
    Shows m σ.background (clearScreen m σ)
      (Terminal.clear Glyph.space m.rowMax_pos m.colMax_pos) := by
  have hfields : (clearScreen m σ).ready = σ.ready ∧
      (clearScreen m σ).background = σ.background ∧
      (clearScreen m σ).cursorX = 0 ∧ (clearScreen m σ).cursorY = 0 := by
    simp [clearScreen, swapBuffers, hr]
  obtain ⟨h1, h2, h3, h4⟩ := hfields
  refine ⟨h1.trans hr, h2, h3, h4, ?_⟩
  intro x hx y hy
  have hlt : x + y * m.width < 32 * (m.fbSize / 128) := by
    have := Buffer.rowMajor_lt hx hy
    omega
  rw [back_clearScreen hr, if_pos hlt, h2]
  exact (shown_blank m σ.background rfl).symm

/-- The console after `clearScreen` and a sequence of keys. -/
def typed (m : Mode) (keys : List (Terminal.Key Glyph)) (σ : Screen) : Screen :=
  keys.foldl (fun σ k => putChar m (code k) σ) (clearScreen m σ)

/-- The terminal it should show. -/
def expected (m : Mode) (keys : List (Terminal.Key Glyph)) :
    Terminal Glyph m.rowMax m.colMax :=
  Terminal.type Glyph.space tabSize keys
    (Terminal.clear Glyph.space m.rowMax_pos m.colMax_pos)

/-- The console of a mode is a character terminal: whatever the buffers held, after any
sequence of keys the cursor is the terminal's, inside the grid, and every pixel is the
one it should show. -/
def IsTerminal (m : Mode) : Prop :=
  ∀ (σ : Screen) (keys : List (Terminal.Key Glyph)), σ.ready = true →
    Plain m σ.background →
    (typed m keys σ).cursorX < m.colMax ∧ (typed m keys σ).cursorY < m.rowMax ∧
    (typed m keys σ).cursorX = (expected m keys).x ∧
    (typed m keys σ).cursorY = (expected m keys).y ∧
    ∀ x < m.width, ∀ y < m.height,
      (typed m keys σ).back (x + y * m.width) =
        shown m σ.background (expected m keys).cell x y

/-- A console that has shown nothing yet, with the back buffer full of text-coloured
pixels. -/
def stale : Screen where
  front := fun _ => 0
  back := fun _ => textColor
  background := fun _ => 0
  cursorX := 0
  cursorY := 0
  ready := true
  com1 := []
  stray := fun _ _ => 0
  xmm := fun _ => 0

/-- When the copy stops before the last pixel, that pixel keeps what the back buffer held
before. -/
theorem not_isTerminal (hcopy : 128 * (m.fbSize / 128) < 4 * (m.width * m.height)) :
    ¬ IsTerminal m := by
  intro h
  have hw : 0 < m.width := lt_of_lt_of_le (show 0 < fontWidth by decide) m.width_ge
  have hh : 0 < m.height := lt_of_lt_of_le (show 0 < fontHeight by decide) m.height_ge
  have hplain : Plain m stale.background := by
    intro _ _ _ _
    change (0 : Pixel) ≠ textColor
    decide
  have hlast : m.width - 1 + (m.height - 1) * m.width = m.width * m.height - 1 := by
    rw [Nat.sub_mul, Nat.one_mul, Nat.mul_comm m.height]
    have := Nat.le_mul_of_pos_right m.width hh
    omega
  obtain ⟨-, -, -, -, hpixels⟩ := h stale [] rfl hplain
  have hpixel := hpixels (m.width - 1) (by omega) (m.height - 1) (by omega)
  rw [typed, List.foldl_nil, back_clearScreen rfl, hlast, if_neg (by omega),
    shown_blank m stale.background rfl] at hpixel
  exact absurd hpixel (show textColor ≠ 0 by decide)

/-- When the copy reaches the last pixel, the console is a terminal. -/
theorem isTerminal_of_le (hcopy : 4 * (m.width * m.height) ≤ 128 * (m.fbSize / 128)) :
    IsTerminal m := by
  intro σ keys hr hb
  have hs := Terminal.type_simulates Glyph.space (fun k σ => putChar m (code k) σ)
    (fun k σ T hT => Shows.putChar hb k hT) keys (Shows.clear hr hcopy)
  refine ⟨hs.cursorX_lt, hs.cursorY_lt, hs.cursorX_eq, hs.cursorY_eq, ?_⟩
  intro x hx y hy
  have hd := hs.drawn x hx y hy
  rw [hs.background_eq] at hd
  exact hd

/-- The console of a mode is a terminal exactly when the blocks of 128 bytes that
`kmemcpy_128` copies reach the last pixel. -/
theorem isTerminal_iff (m : Mode) :
    IsTerminal m ↔ 4 * (m.width * m.height) ≤ 128 * (m.fbSize / 128) := by
  constructor
  · intro h
    by_contra hcopy
    exact not_isTerminal (Nat.not_le.mp hcopy) h
  · exact isTerminal_of_le

/-- 1400 by 1050, with lines of exactly 1400 pixels: not a mode that the boot loader asks for,
but the property is about all modes. -/
def sxgaPlus : Mode where
  width := 1400
  height := 1050
  bytesPerLine := 5600
  width_ge := by decide
  height_ge := by decide
  pitch := by decide
  size_lt := by decide

/-- In this mode the last 16 pixels are never cleared. -/
theorem sxgaPlus_not_isTerminal : ¬ IsTerminal sxgaPlus :=
  not_isTerminal (by decide)

example : 4 * (Mode.boot.width * Mode.boot.height) ≤ 128 * (Mode.boot.fbSize / 128) := by
  decide

end Screen

end BootableKernel
