import BootableKernel.VGA.Screen
import Mathlib.Tactic.Linarith

/-!
# The array accesses of the console

Every access to `FONT`, `BACKBUFFER` and `BACKGROUND` that `putChar` makes, listed along
the functions of `VGA.c`. A store to `BACKBUFFER` and the load of `BACKGROUND` that may
precede it have the same index and are one item of the list.

Two things can go wrong. `render` indexes `FONT` with any character that is not one of
the four control characters, and `scrollUp` loads from a character below the line it
writes, up to a whole character past the end of the row.
-/

namespace BootableKernel

/-- An access to an array of the console. -/
inductive Access where
  /-- `FONT[i][j]`. -/
  | font (i : ℤ) (j : ℕ)
  /-- A pixel of `BACKBUFFER` or `BACKGROUND`. -/
  | pixel (i : ℕ)

/-- The index is inside the array. -/
def Access.InBounds (m : Mode) : Access → Prop
  | .font i j => 0 ≤ i ∧ i < 95 ∧ j < 13
  | .pixel i => i < m.fbSize / 4

namespace Screen

variable (m : Mode)

def scrollUpAccesses : List Access :=
  ((List.range ((m.rowMax - 1) * fontHeight)).flatMap fun y =>
    (List.range ((m.colMax + 1) * fontWidth)).flatMap fun x =>
      [.pixel (x + (y + fontHeight) * m.width), .pixel (x + y * m.width)]) ++
  ((List.range fontHeight).flatMap fun y =>
    (List.range (m.colMax * fontWidth)).map fun x =>
      .pixel (x + ((m.rowMax - 1) * fontHeight + y) * m.width))

def ensureAccesses (σ : Screen) : List Access :=
  let y := if m.colMax ≤ σ.cursorX then σ.cursorY + 1 else σ.cursorY
  if m.rowMax ≤ y then scrollUpAccesses m else []

def renderAccesses (character : BitVec 8) (σ : Screen) : List Access :=
  (List.range fontWidth).flatMap fun x => (List.range fontHeight).flatMap fun y =>
    [.font (character.toInt - 32) (fontHeight - y - 1),
      .pixel (σ.cursorX * fontWidth + x + (σ.cursorY * fontHeight + y) * m.width)]

def putCharAccesses (c : BitVec 8) (σ : Screen) : List Access :=
  let σ := sent c σ
  if !σ.ready then []
  else if c = 0x0d#8 then -- '\r'
    ensureAccesses m { σ with cursorX := 0 }
  else if c = 0x08#8 then -- '\b'
    renderAccesses m 0x20#8 (stepBack m σ) ++
      ensureAccesses m (render m 0x20#8 (stepBack m σ))
  else if c = 0x0a#8 then -- '\n'
    ensureAccesses m { σ with cursorX := 0, cursorY := σ.cursorY + 1 }
  else if _h : c = 0x09#8 then -- '\t'
    let howMany := tabSize - σ.cursorX % tabSize
    ((List.range howMany).flatMap fun i =>
      putCharAccesses 0x20#8 ((putChar m 0x20#8)^[i] σ)) ++
      ensureAccesses m ((putChar m 0x20#8)^[howMany] σ)
  else
    renderAccesses m c σ ++
      ensureAccesses m { render m c σ with cursorX := σ.cursorX + 1 }
termination_by if c = 0x09#8 then 1 else 0
decreasing_by
  rw [if_pos _h]
  decide

/-- Ready to print, with the cursor in the grid. -/
structure InRange (σ : Screen) : Prop where
  ready : σ.ready = true
  cursorX_lt : σ.cursorX < m.colMax
  cursorY_lt : σ.cursorY < m.rowMax

variable {m} {σ : Screen}

/-! ## The cursor -/

/-- The cursor as a number of cells from the origin. -/
def position (m : Mode) (σ : Screen) : ℕ := σ.cursorX + σ.cursorY * m.colMax

theorem InRange.sent (h : InRange m σ) (c : BitVec 8) : InRange m (sent c σ) :=
  ⟨h.ready, h.cursorX_lt, h.cursorY_lt⟩

theorem InRange.position_lt (h : InRange m σ) : position m σ < m.colMax * m.rowMax :=
  Buffer.rowMajor_lt h.cursorX_lt h.cursorY_lt

/-- The cursor that `ensureCursorInRange` leaves. -/
theorem cursor_ensure (σ : Screen) :
    (ensureCursorInRange m σ).ready = σ.ready ∧
      ((ensureCursorInRange m σ).cursorX, (ensureCursorInRange m σ).cursorY) =
        if m.colMax ≤ σ.cursorX then
          if m.rowMax ≤ σ.cursorY + 1 then (0, m.rowMax - 1) else (0, σ.cursorY + 1)
        else if m.rowMax ≤ σ.cursorY then (0, m.rowMax - 1) else (σ.cursorX, σ.cursorY) := by
  by_cases hx : m.colMax ≤ σ.cursorX
  · by_cases hy : m.rowMax ≤ σ.cursorY + 1
    · simp [ensureCursorInRange, hx, hy, scrollUp]
    · simp [ensureCursorInRange, hx, hy]
  · by_cases hy : m.rowMax ≤ σ.cursorY
    · simp [ensureCursorInRange, hx, hy, scrollUp]
    · simp [ensureCursorInRange, hx, hy]

/-- Whatever the cursor was, it is in range afterwards. -/
theorem inRange_ensure (h : σ.ready = true) : InRange m (ensureCursorInRange m σ) := by
  obtain ⟨hready, hcursor⟩ := cursor_ensure (m := m) σ
  have hc := m.colMax_pos
  have hr := m.rowMax_pos
  split_ifs at hcursor with hx hy hy
  all_goals
    obtain ⟨h1, h2⟩ := Prod.mk.inj hcursor
    refine ⟨hready.trans h, ?_, ?_⟩ <;> omega

theorem stepBack_inRange (h : InRange m σ) : InRange m (stepBack m σ) := by
  have hc := m.colMax_pos
  have hx := h.cursorX_lt
  have hy := h.cursorY_lt
  rw [stepBack]
  split_ifs with h1 h2
  · exact ⟨h.ready, by simp only; omega, by simp only; omega⟩
  · exact h
  · exact ⟨h.ready, by simp only; omega, hy⟩

theorem inRange_putChar (c : BitVec 8) (h : InRange m σ) : InRange m (putChar m c σ) := by
  induction c, σ using putChar_induction with
  | silent c σ hr => rw [h.ready] at hr; contradiction
  | carriageReturn σ hr => rw [putChar_return hr]; exact inRange_ensure hr
  | backspace σ hr =>
      rw [putChar_backspace hr]
      exact inRange_ensure (stepBack_inRange (h.sent _)).ready
  | newline σ hr => rw [putChar_newline hr]; exact inRange_ensure hr
  | ordinary c σ hr hc => rw [putChar_ordinary hr hc]; exact inRange_ensure hr
  | tab hspace σ hr =>
      rw [putChar_tab hr]
      apply inRange_ensure
      rw [List.foldl_const]
      exact (Function.Iterate.rec (InRange m) (h.sent _) (fun τ hτ => hspace τ hτ) _).ready

/-- One cell further, while there is one. -/
theorem position_ensure {τ : Screen} (h : InRange m σ) (hx : τ.cursorX = σ.cursorX + 1)
    (hy : τ.cursorY = σ.cursorY) (hlast : position m σ + 1 < m.colMax * m.rowMax) :
    position m (ensureCursorInRange m τ) = position m σ + 1 := by
  obtain ⟨-, hcursor⟩ := cursor_ensure (m := m) τ
  have hlt := h.cursorX_lt
  have hrow : m.colMax ≤ σ.cursorX + 1 → ¬ m.rowMax ≤ σ.cursorY + 1 := by
    intro hend hrows
    have hmul : m.colMax * m.rowMax ≤ m.colMax * (σ.cursorY + 1) :=
      Nat.mul_le_mul_left _ hrows
    rw [Nat.mul_succ, Nat.mul_comm m.colMax σ.cursorY] at hmul
    rw [position] at hlast
    omega
  simp only [hx, hy, h.cursorY_lt.not_ge, if_false] at hcursor
  rw [position, position]
  by_cases hend : m.colMax ≤ σ.cursorX + 1
  · simp only [hend, hrow hend, if_true, if_false, Prod.mk.injEq] at hcursor
    rw [hcursor.1, hcursor.2, Nat.succ_mul]
    omega
  · simp only [hend, if_false, Prod.mk.injEq] at hcursor
    rw [hcursor.1, hcursor.2]
    omega

theorem position_space (h : InRange m σ) (hlast : position m σ + 1 < m.colMax * m.rowMax) :
    position m (putChar m 0x20#8 σ) = position m σ + 1 := by
  rw [putChar_ordinary h.ready (by simp [Ordinary])]
  exact position_ensure h rfl rfl hlast

theorem inRange_spaces (h : InRange m σ) (n : ℕ) : InRange m ((putChar m 0x20#8)^[n] σ) :=
  Function.Iterate.rec (InRange m) h (fun _ hτ => inRange_putChar _ hτ) n

theorem position_spaces (h : InRange m σ) {n : ℕ}
    (hn : position m σ + n < m.colMax * m.rowMax) :
    position m ((putChar m 0x20#8)^[n] σ) = position m σ + n := by
  induction n with
  | zero => rfl
  | succ n ih =>
      have hpos := ih (by omega)
      rw [Function.iterate_succ_apply', position_space (inRange_spaces h n) (by omega), hpos]
      rfl

/-! ## Scrolling -/

/-- The loads of `scrollUp` stay inside the back buffer. -/
def ScrollFits (m : Mode) : Prop :=
  m.rowMax = 1 ∨
    (m.colMax + 1) * fontWidth + (m.rowMax * fontHeight - 1) * m.width ≤ m.fbSize / 4

/-- The character makes the console scroll. -/
def Scrolls (m : Mode) (c : BitVec 8) (σ : Screen) : Prop :=
  if c = 0x0a#8 then m.rowMax ≤ σ.cursorY + 1
  else if c = 0x09#8 then
    m.colMax * m.rowMax ≤ position m σ + (tabSize - σ.cursorX % tabSize)
  else if c = 0x0d#8 ∨ c = 0x08#8 then False
  else m.colMax * m.rowMax ≤ position m σ + 1

/-- All accesses of a list are inside their arrays. -/
def Safe (m : Mode) (as : List Access) : Prop := ∀ a ∈ as, a.InBounds m

@[simp] theorem safe_append {as bs : List Access} : Safe m (as ++ bs) ↔ Safe m as ∧ Safe m bs :=
  List.forall_mem_append

theorem pixels_le (m : Mode) : m.width * m.height ≤ m.fbSize / 4 := by
  have := m.fbSize_ge
  omega

theorem inBounds_pixel {x y : ℕ} (hx : x < m.width) (hy : y < m.height) :
    (Access.pixel (x + y * m.width)).InBounds m :=
  lt_of_lt_of_le (Buffer.rowMajor_lt hx hy) (pixels_le m)

theorem safe_scrollUp : Safe m (scrollUpAccesses m) ↔ ScrollFits m := by
  have hcols := m.colMax_le
  have hwidth := m.width_ge
  have hover : (m.colMax + 1) * fontWidth ≤ m.width + fontWidth := by
    rw [Nat.succ_mul]
    omega
  have hrows := m.rowMax_mul
  have hheight := m.rowMax_le
  have hpos := m.rowMax_pos
  have hsize := pixels_le m
  have hfh : 0 < fontHeight := by decide
  have hfw : 0 < (m.colMax + 1) * fontWidth := Nat.mul_pos (Nat.succ_pos _) (by decide)
  constructor
  · intro h
    by_contra hfits
    rw [ScrollFits, not_or, Nat.not_le] at hfits
    have hlines : 0 < (m.rowMax - 1) * fontHeight := Nat.mul_pos (by omega) hfh
    -- the last pixel of the last round is loaded from past the end
    have hlast := h (.pixel ((m.colMax + 1) * fontWidth - 1 +
      ((m.rowMax - 1) * fontHeight - 1 + fontHeight) * m.width)) (by
        apply List.mem_append_left
        refine List.mem_flatMap.mpr ⟨(m.rowMax - 1) * fontHeight - 1, ?_, ?_⟩
        · exact List.mem_range.mpr (by omega)
        refine List.mem_flatMap.mpr ⟨(m.colMax + 1) * fontWidth - 1, ?_, ?_⟩
        · exact List.mem_range.mpr (by omega)
        · exact List.mem_cons_self)
    have hline : (m.rowMax - 1) * fontHeight - 1 + fontHeight = m.rowMax * fontHeight - 1 := by
      omega
    rw [hline] at hlast
    change _ < m.fbSize / 4 at hlast
    omega
  · intro hfits a ha
    rcases List.mem_append.mp ha with ha | ha
    · obtain ⟨y, hy, ha⟩ := List.mem_flatMap.mp ha
      obtain ⟨x, hx, ha⟩ := List.mem_flatMap.mp ha
      rw [List.mem_range] at hy hx
      have hmany : m.rowMax ≠ 1 := by
        intro h1
        rw [h1] at hy
        simp at hy
      have hroom := hfits.resolve_left hmany
      have hload : (y + fontHeight) * m.width ≤ (m.rowMax * fontHeight - 1) * m.width :=
        Nat.mul_le_mul_right _ (by omega)
      have hstore : y * m.width ≤ (y + fontHeight) * m.width :=
        Nat.mul_le_mul_right _ (by omega)
      rw [List.mem_cons, List.mem_singleton] at ha
      rcases ha with rfl | rfl
      · change _ < m.fbSize / 4
        omega
      · change _ < m.fbSize / 4
        omega
    · obtain ⟨y, hy, ha⟩ := List.mem_flatMap.mp ha
      obtain ⟨x, hx, rfl⟩ := List.mem_map.mp ha
      rw [List.mem_range] at hy hx
      exact inBounds_pixel (by omega) (by omega)

/-- The characters `render` may be called with. -/
def Printable (c : BitVec 8) : Prop := 32 ≤ c.toNat ∧ c.toNat ≤ 126

theorem safe_render (h : InRange m σ) (c : BitVec 8) :
    Safe m (renderAccesses m c σ) ↔ Printable c := by
  have hglyph : (0 ≤ c.toInt - 32 ∧ c.toInt - 32 < 95) ↔ Printable c := by
    rw [Printable]
    have := c.isLt
    by_cases hneg : 2 * c.toNat < 2 ^ 8
    · rw [BitVec.toInt_eq_toNat_of_lt hneg]
      omega
    · have : c.toInt < 0 := by
        rw [BitVec.toInt_eq_toNat_cond, if_neg hneg]
        omega
      omega
  rw [← hglyph]
  constructor
  · intro hsafe
    have hfont := hsafe (.font (c.toInt - 32) 12) (by
      refine List.mem_flatMap.mpr ⟨0, by decide, ?_⟩
      refine List.mem_flatMap.mpr ⟨0, by decide, ?_⟩
      exact List.mem_cons_self)
    exact ⟨hfont.1, hfont.2.1⟩
  · rintro ⟨hlow, hhigh⟩ a ha
    obtain ⟨x, hx, ha⟩ := List.mem_flatMap.mp ha
    obtain ⟨y, hy, ha⟩ := List.mem_flatMap.mp ha
    rw [List.mem_range] at hx hy
    rw [List.mem_cons, List.mem_singleton] at ha
    rcases ha with rfl | rfl
    · exact ⟨hlow, hhigh, by simp only [fontHeight]; omega⟩
    · apply inBounds_pixel
      · have h1 : (σ.cursorX + 1) * fontWidth ≤ m.colMax * fontWidth :=
          Nat.mul_le_mul_right _ h.cursorX_lt
        have h2 := m.colMax_le
        rw [Nat.succ_mul] at h1
        omega
      · have h1 : (σ.cursorY + 1) * fontHeight ≤ m.rowMax * fontHeight :=
          Nat.mul_le_mul_right _ h.cursorY_lt
        have h2 := m.rowMax_le
        rw [Nat.succ_mul] at h1
        omega

theorem safe_ensure (σ : Screen) :
    Safe m (ensureAccesses m σ) ↔
      (m.rowMax ≤ (if m.colMax ≤ σ.cursorX then σ.cursorY + 1 else σ.cursorY) →
        ScrollFits m) := by
  by_cases hy : m.rowMax ≤ if m.colMax ≤ σ.cursorX then σ.cursorY + 1 else σ.cursorY
  · simp only [ensureAccesses, hy, if_true, true_imp_iff]
    exact safe_scrollUp
  · simp [ensureAccesses, hy, Safe]

theorem safe_ensure_inRange (h : InRange m σ) : Safe m (ensureAccesses m σ) := by
  rw [safe_ensure, if_neg h.cursorX_lt.not_ge]
  intro hy
  exact absurd hy h.cursorY_lt.not_ge

/-- Passing the last cell is passing the last row from the last column. -/
theorem passes_iff (h : InRange m σ) :
    (m.rowMax ≤ if m.colMax ≤ σ.cursorX + 1 then σ.cursorY + 1 else σ.cursorY) ↔
      m.colMax * m.rowMax ≤ position m σ + 1 := by
  have hx := h.cursorX_lt
  have hy := h.cursorY_lt
  have hrow : (σ.cursorY + 1) * m.colMax = σ.cursorY * m.colMax + m.colMax := Nat.succ_mul ..
  rw [position]
  by_cases hend : m.colMax ≤ σ.cursorX + 1
  · have hlast : σ.cursorX + σ.cursorY * m.colMax + 1 = m.colMax * (σ.cursorY + 1) := by
      rw [Nat.mul_comm m.colMax, hrow]
      omega
    rw [if_pos hend, hlast]
    exact (Nat.mul_le_mul_left_iff m.colMax_pos).symm
  · have hle : (σ.cursorY + 1) * m.colMax ≤ m.rowMax * m.colMax := Nat.mul_le_mul_right _ hy
    rw [if_neg hend, Nat.mul_comm m.colMax]
    omega

/-! ## One character -/

theorem accesses_ordinary (h : σ.ready = true) {c : BitVec 8} (hc : Ordinary c) :
    putCharAccesses m c σ = renderAccesses m c (sent c σ) ++
      ensureAccesses m { render m c (sent c σ) with cursorX := σ.cursorX + 1 } := by
  rw [putCharAccesses, if_neg (by simp [sent, h]), if_neg hc.1, if_neg hc.2.1,
    if_neg hc.2.2.1, dif_neg hc.2.2.2]
  rfl

theorem accesses_tab (h : σ.ready = true) :
    putCharAccesses m 0x09#8 σ =
      ((List.range (tabSize - σ.cursorX % tabSize)).flatMap fun i =>
        putCharAccesses m 0x20#8 ((putChar m 0x20#8)^[i] (sent 0x09#8 σ))) ++
        ensureAccesses m
          ((putChar m 0x20#8)^[tabSize - σ.cursorX % tabSize] (sent 0x09#8 σ)) := by
  rw [putCharAccesses, if_neg (by simp [sent, h]), if_neg (by decide), if_neg (by decide),
    if_neg (by decide), dif_pos rfl]
  rfl

/-- The characters the console supports. -/
def Supported (c : BitVec 8) : Prop :=
  c = 0x0d#8 ∨ c = 0x08#8 ∨ c = 0x0a#8 ∨ c = 0x09#8 ∨ Printable c

theorem safe_ordinary (h : InRange m σ) {c : BitVec 8} (hc : Ordinary c) :
    Safe m (putCharAccesses m c σ) ↔
      Printable c ∧ (m.colMax * m.rowMax ≤ position m σ + 1 → ScrollFits m) := by
  rw [accesses_ordinary h.ready hc, safe_append, safe_render (h.sent c), safe_ensure,
    ← passes_iff h]
  rfl

theorem safe_tab (h : InRange m σ) :
    Safe m (putCharAccesses m 0x09#8 σ) ↔
      (m.colMax * m.rowMax ≤ position m σ + (tabSize - σ.cursorX % tabSize) →
        ScrollFits m) := by
  have hs := h.sent 0x09#8
  have hpos : position m (sent 0x09#8 σ) = position m σ := rfl
  have hlt := h.position_lt
  generalize hn : tabSize - σ.cursorX % tabSize = n
  have hspace : ∀ i, Safe m (putCharAccesses m 0x20#8 ((putChar m 0x20#8)^[i] (sent 0x09#8 σ))) ↔
      (m.colMax * m.rowMax ≤ position m ((putChar m 0x20#8)^[i] (sent 0x09#8 σ)) + 1 →
        ScrollFits m) := by
    intro i
    rw [safe_ordinary (inRange_spaces hs i) (by simp [Ordinary])]
    exact and_iff_right (by simp [Printable])
  rw [accesses_tab h.ready, hn, safe_append,
    and_iff_left (safe_ensure_inRange (inRange_spaces hs n))]
  constructor
  · intro hsafe hpass
    -- the space that passes the last cell
    have hi : m.colMax * m.rowMax - 1 - position m σ < n := by omega
    have hlast := (hspace (m.colMax * m.rowMax - 1 - position m σ)).mp
      (fun a ha => hsafe a (List.mem_flatMap.mpr ⟨_, List.mem_range.mpr hi, ha⟩))
    rw [position_spaces hs (by rw [hpos]; omega), hpos] at hlast
    exact hlast (by omega)
  · intro hfits a ha
    obtain ⟨i, hi, ha⟩ := List.mem_flatMap.mp ha
    rw [List.mem_range] at hi
    refine (hspace i).mpr ?_ a ha
    intro hpass
    apply hfits
    by_contra hshort
    rw [position_spaces hs (by rw [hpos]; omega), hpos] at hpass
    omega

/-- A character is handled inside the arrays exactly when it is supported and, if it
makes the console scroll, scrolling stays inside the back buffer. -/
theorem safe_putChar (h : InRange m σ) (c : BitVec 8) :
    Safe m (putCharAccesses m c σ) ↔ Supported c ∧ (Scrolls m c σ → ScrollFits m) := by
  have hr : ∀ c, (!(sent c σ).ready) ≠ true := by simp [sent, h.ready]
  by_cases h1 : c = 0x0d#8
  · subst c
    rw [putCharAccesses, if_neg (hr _), if_pos rfl]
    have hin : InRange m { sent 0x0d#8 σ with cursorX := 0 } :=
      ⟨h.ready, m.colMax_pos, h.cursorY_lt⟩
    simp [safe_ensure_inRange hin, Supported, Scrolls]
  by_cases h2 : c = 0x08#8
  · subst c
    have hback := stepBack_inRange (h.sent 0x08#8)
    have hin : InRange m (render m 0x20#8 (stepBack m (sent 0x08#8 σ))) :=
      ⟨hback.ready, hback.cursorX_lt, hback.cursorY_lt⟩
    have hspace : Printable 0x20#8 := by simp [Printable]
    rw [putCharAccesses, if_neg (hr _), if_neg (by decide), if_pos rfl]
    simp [safe_render hback, safe_ensure_inRange hin, hspace, Supported, Scrolls]
  by_cases h3 : c = 0x0a#8
  · subst c
    rw [putCharAccesses, if_neg (hr _), if_neg (by decide), if_neg (by decide), if_pos rfl,
      safe_ensure]
    simp [m.colMax_pos.not_ge, Supported, Scrolls, sent]
  by_cases h4 : c = 0x09#8
  · subst c
    rw [safe_tab h]
    simp [Supported, Scrolls]
  · rw [safe_ordinary h ⟨h1, h2, h3, h4⟩]
    simp [Supported, Scrolls, h1, h2, h3, h4]

/-! ## Whole texts -/

/-- The accesses of printing a text. -/
def textAccesses (m : Mode) : List (BitVec 8) → Screen → List Access
  | [], _ => []
  | c :: cs, σ => putCharAccesses m c σ ++ textAccesses m cs (putChar m c σ)

/-- Every character of the text is supported, and scrolls only where that is safe. -/
def Harmless (m : Mode) : List (BitVec 8) → Screen → Prop
  | [], _ => True
  | c :: cs, σ =>
      (Supported c ∧ (Scrolls m c σ → ScrollFits m)) ∧ Harmless m cs (putChar m c σ)

/-- With room for scrolling, only the characters matter. -/
theorem harmless_of_fits (hm : ScrollFits m) {text : List (BitVec 8)} :
    Harmless m text σ ↔ ∀ c ∈ text, Supported c := by
  induction text generalizing σ with
  | nil => simp [Harmless]
  | cons c text ih => simp [Harmless, hm, ih]

/-- Printing a text stays inside the arrays exactly when the text is harmless. -/
theorem safe_text_iff (h : InRange m σ) (text : List (BitVec 8)) :
    (∀ a ∈ textAccesses m text σ, a.InBounds m) ↔ Harmless m text σ := by
  induction text generalizing σ with
  | nil => simp [textAccesses, Harmless]
  | cons c text ih =>
      rw [textAccesses, Harmless, ← safe_putChar h c, ← ih (inRange_putChar c h)]
      exact safe_append

/-- A console that has shown nothing yet, on a black background. -/
def fresh : Screen where
  front := fun _ => 0
  back := fun _ => 0
  background := fun _ => 0
  cursorX := 0
  cursorY := 0
  ready := true
  com1 := []
  stray := fun _ _ => 0
  xmm := fun _ => 0

theorem fresh_inRange (m : Mode) : InRange m fresh := ⟨rfl, m.colMax_pos, m.rowMax_pos⟩

theorem safe_text_newlines :
    InRange Mode.boot fresh ∧ ∀ n, ∀ a ∈ textAccesses Mode.boot (List.replicate n 0x0a#8) fresh,
      a.InBounds Mode.boot := by
  refine ⟨fresh_inRange _, ?_⟩
  intro n
  have hfits : ScrollFits Mode.boot := .inr (by decide)
  apply (safe_text_iff (fresh_inRange _) _).mpr
  rw [harmless_of_fits hfits]
  intro c hc
  rw [List.eq_of_mem_replicate hc]
  exact .inr (.inr (.inl rfl))

/-- Printing the byte 7 loads from `FONT[-25]`. -/
theorem bell_outOfBounds :
    ¬ ∀ a ∈ textAccesses Mode.boot [0x07#8] fresh, a.InBounds Mode.boot := by
  intro h
  have hbell := (safe_ordinary (fresh_inRange Mode.boot) (by simp [Ordinary])).mp
    (fun a ha => h a (List.mem_append_left _ ha))
  exact absurd hbell.1 (by simp [Printable])

end Screen

end BootableKernel
