import BootableKernel.VGA.Bounds

/-!
# The serial port

`putChar` sends every character to the serial port before it draws it, and it calls itself
for the spaces that a tab stands for on the screen. So the serial port receives those
spaces too. Here is what it receives, for any text and any state of the console.
-/

namespace BootableKernel
namespace Screen

variable {m : Mode} {σ : Screen}

/-! ## Drawing leaves the serial port alone -/

@[simp] theorem com1_ensureCursorInRange (σ : Screen) :
    (ensureCursorInRange m σ).com1 = σ.com1 := by
  unfold ensureCursorInRange
  dsimp only
  split <;> split <;> rfl

@[simp] theorem ready_ensureCursorInRange (σ : Screen) :
    (ensureCursorInRange m σ).ready = σ.ready := by
  unfold ensureCursorInRange
  dsimp only
  split <;> split <;> rfl

@[simp] theorem com1_stepBack (σ : Screen) : (stepBack m σ).com1 = σ.com1 := by
  unfold stepBack
  split
  · split <;> rfl
  · rfl

@[simp] theorem ready_stepBack (σ : Screen) : (stepBack m σ).ready = σ.ready := by
  unfold stepBack
  split
  · split <;> rfl
  · rfl

/-! ## One character -/

/-- What `putChar` sends, in order: a tab comes with the spaces it is drawn as. -/
def sends (c : BitVec 8) (σ : Screen) : List (BitVec 8) :=
  if c = 0x09#8 then c :: List.replicate (tabSize - σ.cursorX % tabSize) 0x20#8 else [c]

/-- A character other than a tab is sent once, and the console stays ready. -/
theorem putChar_sends_one (h : σ.ready = true) {c : BitVec 8} (hc : c ≠ 0x09#8) :
    (putChar m c σ).com1 = c :: σ.com1 ∧ (putChar m c σ).ready = true := by
  by_cases hr : c = 0x0d#8
  · rw [hr, putChar_return h, com1_ensureCursorInRange, ready_ensureCursorInRange]
    exact ⟨rfl, h⟩
  by_cases hb : c = 0x08#8
  · rw [hb, putChar_backspace h, com1_ensureCursorInRange, ready_ensureCursorInRange]
    exact ⟨com1_stepBack _, (ready_stepBack _).trans h⟩
  by_cases hn : c = 0x0a#8
  · rw [hn, putChar_newline h, com1_ensureCursorInRange, ready_ensureCursorInRange]
    exact ⟨rfl, h⟩
  · rw [putChar_ordinary h ⟨hr, hb, hn, hc⟩, com1_ensureCursorInRange, ready_ensureCursorInRange]
    exact ⟨rfl, h⟩

/-- The spaces of a tab. -/
theorem spaces_sends (h : σ.ready = true) (n : ℕ) :
    let τ := (List.range n).foldl (fun σ _ => putChar m 0x20#8 σ) σ
    τ.com1 = List.replicate n 0x20#8 ++ σ.com1 ∧ τ.ready = true := by
  induction n with
  | zero => exact ⟨rfl, h⟩
  | succ n ih =>
      have hspace := putChar_sends_one (m := m) ih.2 (show 0x20#8 ≠ 0x09#8 by decide)
      rw [List.range_succ, List.foldl_append, List.foldl_cons, List.foldl_nil]
      refine ⟨?_, hspace.2⟩
      rw [hspace.1, ih.1, List.replicate_succ, List.cons_append]

theorem putChar_sends (h : σ.ready = true) (c : BitVec 8) :
    (putChar m c σ).com1 = (sends c σ).reverse ++ σ.com1 ∧ (putChar m c σ).ready = true := by
  unfold sends
  split
  · rename_i hc
    have hspaces := spaces_sends (m := m) (σ := sent 0x09#8 σ) h (tabSize - σ.cursorX % tabSize)
    rw [hc, putChar_tab h, com1_ensureCursorInRange, ready_ensureCursorInRange]
    refine ⟨?_, hspaces.2⟩
    rw [hspaces.1, List.reverse_cons, List.reverse_replicate, List.append_assoc]
    rfl
  · rename_i hc
    exact putChar_sends_one h hc

/-! ## A text -/

/-- What the serial port receives of a text, in order. -/
def received (m : Mode) : List (BitVec 8) → Screen → List (BitVec 8)
  | [], _ => []
  | c :: buf, σ => sends c σ ++ received m buf (putChar m c σ)

theorem com1_foldl_putChar (h : σ.ready = true) (buf : List (BitVec 8)) :
    (buf.foldl (fun σ c => putChar m c σ) σ).com1 = (received m buf σ).reverse ++ σ.com1 := by
  induction buf generalizing σ with
  | nil => rfl
  | cons c buf ih =>
      have hput := putChar_sends (m := m) h c
      rw [List.foldl_cons, ih hput.2, hput.1, received, List.reverse_append, List.append_assoc]

theorem com1_logN (h : σ.ready = true) (buf : List (BitVec 8)) :
    (logN m buf σ).com1 = (received m buf σ).reverse ++ σ.com1 :=
  com1_foldl_putChar h buf

/-- A tab stands for at least one space. -/
theorem length_sends_tab (σ : Screen) : 2 ≤ (sends 0x09#8 σ).length := by
  have hlt := Nat.mod_lt σ.cursorX (show 0 < tabSize by decide)
  rw [sends, if_pos rfl, List.length_cons, List.length_replicate]
  omega

/-- The port receives at least one byte for each of the text, and more where there is a tab. -/
theorem length_le_received (buf : List (BitVec 8)) (σ : Screen) :
    buf.length ≤ (received m buf σ).length ∧
      (0x09#8 ∈ buf → buf.length < (received m buf σ).length) := by
  induction buf generalizing σ with
  | nil => exact ⟨le_rfl, fun h => absurd h List.not_mem_nil⟩
  | cons c buf ih =>
      have hrest := ih (putChar m c σ)
      rw [received, List.length_append, List.length_cons]
      by_cases hc : c = 0x09#8
      · have htab := length_sends_tab σ
        rw [hc] at hrest ⊢
        constructor
        · omega
        · intro _
          omega
      · rw [sends, if_neg hc, List.length_singleton, List.mem_cons]
        constructor
        · omega
        · rintro (rfl | hmem)
          · exact absurd rfl hc
          · have := hrest.2 hmem
            omega

theorem received_eq_iff (buf : List (BitVec 8)) (σ : Screen) :
    received m buf σ = buf ↔ 0x09#8 ∉ buf := by
  constructor
  · intro heq hmem
    have hlt := (length_le_received (m := m) buf σ).2 hmem
    rw [heq] at hlt
    exact lt_irrefl _ hlt
  · intro hmem
    induction buf generalizing σ with
    | nil => rfl
    | cons c buf ih =>
        rw [List.mem_cons, not_or] at hmem
        rw [received, sends, if_neg (Ne.symm hmem.1), ih _ hmem.2, List.singleton_append]

/-- `log_n` sends the bytes of its buffer, each once and in order, if and only if there is
no tab among them. -/
theorem com1_logN_eq_iff (m : Mode) {σ : Screen} (h : σ.ready = true) (buf : List (BitVec 8)) :
    (logN m buf σ).com1 = buf.reverse ++ σ.com1 ↔ 0x09#8 ∉ buf := by
  rw [com1_logN h, List.append_cancel_right_eq, List.reverse_inj, received_eq_iff]

/-- `"a\b\r\n"` is sent as it is. -/
theorem com1_logN_controls :
    (logN Mode.boot [0x61#8, 0x08#8, 0x0d#8, 0x0a#8] fresh).com1 =
      [0x0a#8, 0x0d#8, 0x08#8, 0x61#8] :=
  (com1_logN_eq_iff Mode.boot (σ := fresh) rfl [0x61#8, 0x08#8, 0x0d#8, 0x0a#8]).mpr (by decide)

/-- A tab in the first column is sent with four spaces. -/
theorem com1_logN_tab :
    fresh.ready = true ∧ (logN Mode.boot [0x09#8] fresh).com1 ≠ [0x09#8].reverse ++ fresh.com1 := by
  refine ⟨rfl, ?_⟩
  rw [com1_logN rfl]
  decide

end Screen
end BootableKernel
