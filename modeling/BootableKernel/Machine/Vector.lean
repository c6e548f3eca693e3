import BootableKernel.Machine.Syscall
import BootableKernel.VGA.Refinement

/-!
# Vector registers across kernel entries

`push_all` saves the general registers only. Interrupt handlers and system calls that
print end with `swapBuffers`, whose block copy goes through `xmm0` to `xmm7`, so the user
finds the tail of the back buffer in them. `KernelEntry.xmm_not_preserved` says that no entry
that prints keeps the vector registers of every user.

The C code is taken at the level of its source: apart from the block copy nothing in it
touches a vector register.
-/

namespace BootableKernel

/-- A string of characters, without its terminator. -/
abbrev Text := List (BitVec 8)

namespace Screen

variable {m : Mode}

/-- The console with other contents in the frame buffer and the vector registers. -/
def withCopy (σ : Screen) (front : ℕ → Pixel) (xmm : Xmm) : Screen :=
  { σ with front := front, xmm := xmm }

theorem ensureCursorInRange_withCopy (σ : Screen) (front : ℕ → Pixel) (xmm : Xmm) :
    ensureCursorInRange m (σ.withCopy front xmm) =
      (ensureCursorInRange m σ).withCopy front xmm := by
  by_cases hx : m.colMax ≤ σ.cursorX
  · by_cases hy : m.rowMax ≤ σ.cursorY + 1
    · simp only [ensureCursorInRange, withCopy, hx, hy, if_true]
      rfl
    · simp only [ensureCursorInRange, withCopy, hx, hy, if_true, if_false]
  · by_cases hy : m.rowMax ≤ σ.cursorY
    · simp only [ensureCursorInRange, withCopy, hx, hy, if_true, if_false]
      rfl
    · simp only [ensureCursorInRange, withCopy, hx, hy, if_false]

theorem stepBack_withCopy (σ : Screen) (front : ℕ → Pixel) (xmm : Xmm) :
    stepBack m (σ.withCopy front xmm) = (stepBack m σ).withCopy front xmm := by
  by_cases hx : σ.cursorX = 0
  · by_cases hy : σ.cursorY = 0
    · simp [stepBack, withCopy, hx, hy]
    · simp [stepBack, withCopy, hx, hy]
  · simp [stepBack, withCopy, hx]

theorem foldl_withCopy {ι : Type} (f : ι → Screen → Screen) (front : ℕ → Pixel) (xmm : Xmm)
    (hf : ∀ i σ, f i (σ.withCopy front xmm) = (f i σ).withCopy front xmm) (l : List ι)
    (σ : Screen) :
    l.foldl (fun σ i => f i σ) (σ.withCopy front xmm) =
      (l.foldl (fun σ i => f i σ) σ).withCopy front xmm := by
  induction l generalizing σ with
  | nil => rfl
  | cons i l ih => rw [List.foldl_cons, List.foldl_cons, hf, ih]

/-- Drawing neither reads nor writes the frame buffer and the vector registers. -/
theorem putChar_withCopy (c : BitVec 8) (σ : Screen) (front : ℕ → Pixel) (xmm : Xmm) :
    putChar m c (σ.withCopy front xmm) = (putChar m c σ).withCopy front xmm := by
  induction c, σ using putChar_induction with
  | silent c σ h =>
      rw [putChar_silent h, putChar_silent (show (σ.withCopy front xmm).ready = false from h)]
      rfl
  | carriageReturn σ h =>
      rw [putChar_return h, putChar_return (show (σ.withCopy front xmm).ready = true from h),
        ← ensureCursorInRange_withCopy]
      rfl
  | backspace σ h =>
      rw [putChar_backspace h,
        putChar_backspace (show (σ.withCopy front xmm).ready = true from h),
        ← ensureCursorInRange_withCopy]
      congr 1
      exact congrArg (render m 0x20#8) (stepBack_withCopy (sent 0x08#8 σ) front xmm)
  | newline σ h =>
      rw [putChar_newline h, putChar_newline (show (σ.withCopy front xmm).ready = true from h),
        ← ensureCursorInRange_withCopy]
      rfl
  | ordinary c σ h hc =>
      rw [putChar_ordinary h hc,
        putChar_ordinary (show (σ.withCopy front xmm).ready = true from h) hc,
        ← ensureCursorInRange_withCopy]
      rfl
  | tab hspace σ h =>
      rw [putChar_tab h, putChar_tab (show (σ.withCopy front xmm).ready = true from h),
        ← ensureCursorInRange_withCopy]
      congr 1
      exact foldl_withCopy (fun _ : ℕ => putChar m 0x20#8) front xmm (fun _ => hspace)
        (List.range (tabSize - σ.cursorX % tabSize)) (sent 0x09#8 σ)

/-- The console with the texts drawn but not shown. -/
def drawn (m : Mode) (texts : List Text) (σ : Screen) : Screen :=
  texts.foldl (fun σ text => text.foldl (fun σ c => putChar m c σ) σ) σ

/-- The last four pixels that the block copy takes through register `r`. -/
def lastCopied (m : Mode) (texts : List Text) (σ : Screen) (r : Fin 16) : BitVec 128 :=
  movdqa (drawn m texts σ).back (32 * (m.fbSize / 128 - 1) + 4 * r.val)

/-- After printing, `xmm0` to `xmm7` hold the tail of the back buffer. -/
theorem logs_spec (texts : List Text) (σ : Screen) (front : ℕ → Pixel) (xmm : Xmm) :
    ∃ front' xmm', texts.foldl (fun σ text => log m text σ) (σ.withCopy front xmm) =
        (drawn m texts σ).withCopy front' xmm' ∧
      ∀ r, xmm' r = if r.val < 8 ∧ texts ≠ [] then lastCopied m texts σ r else xmm r := by
  induction texts using List.reverseRecOn with
  | nil => exact ⟨front, xmm, rfl, by simp⟩
  | append_singleton texts text ih =>
      obtain ⟨front', xmm', heq, hxmm⟩ := ih
      have hdraw : drawn m (texts ++ [text]) σ =
          text.foldl (fun σ c => putChar m c σ) (drawn m texts σ) := by
        rw [drawn, List.foldl_append]
        rfl
      let c := kmemcpy128 front' (drawn m (texts ++ [text]) σ).back m.fbSize xmm'
      refine ⟨c.dst, c.xmm, ?_, ?_⟩
      · rw [List.foldl_append, heq, List.foldl_cons, List.foldl_nil, log,
          foldl_withCopy (fun c => putChar m c) front' xmm'
            (fun c σ => putChar_withCopy c σ front' xmm') text, ← hdraw]
        rfl
      · intro r
        rw [xmm_kmemcpy128 _ _ _ m.fbSize_pos m.fbSize_lt, hxmm]
        by_cases hr : r.val < 8
        · simp [hr, lastCopied]
        · simp [hr]

end Screen

namespace Instr

/-- Calls leave the stub. -/
def isCall : Instr → Bool
  | .call _ _ => true
  | _ => false

end Instr

namespace Cpu

/-- Only C code reaches the vector registers. -/
theorem xmm_exec {i : Instr} (h : i.isCall = false) (σ : Cpu) : (exec i σ).xmm = σ.xmm := by
  cases i with
  | call callee ret => simp [Instr.isCall] at h
  | _ => rfl

theorem xmm_run {is : List Instr} (h : ∀ i ∈ is, i.isCall = false) (σ : Cpu) :
    (run is σ).xmm = σ.xmm := by
  induction is generalizing σ with
  | nil => rfl
  | cons i is ih =>
      rw [run_cons, ih (fun j hj => h j (List.mem_cons_of_mem i hj)),
        xmm_exec (h i List.mem_cons_self)]

/-- What the processor pushes and loads when ring 3 is interrupted. -/
structure Gate where
  /-- The stack of ring 0. -/
  rsp0 : Word
  /-- The user's code selector. -/
  cs : Word
  /-- The user's stack selector. -/
  ss : Word

/-- The delivery of a hardware interrupt in ring 3. -/
def interrupt (g : Gate) (σ : Cpu) : Cpu :=
  let τ := σ.set .rsp (g.rsp0 &&& ~~~0xf)
  let τ := ((((τ.push g.ss).push (σ.regs .rsp)).push σ.rflags).push g.cs).push σ.rip
  { τ with rflags := σ.rflags &&& ~~~0x200 }

/-- `defhandler`. -/
def irqStub (handler : Cpu → Cpu) (ret : Word) : List Instr :=
  pushAll ++ [.call handler ret] ++ popAll ++ [.iretq]

/-- C code that prints the texts one after the other; `other` is what it does to the
general registers and to memory. -/
def printing (m : Mode) (s : Screen) (texts : List Text) (other : Cpu → Cpu) (σ : Cpu) :
    Cpu :=
  { other σ with
    xmm := (texts.foldl (fun s text => s.log m text) (s.withCopy s.front σ.xmm)).xmm }

theorem xmm_printing (m : Mode) (s : Screen) (texts : List Text) (other : Cpu → Cpu)
    (σ : Cpu) (r : Fin 16) :
    (printing m s texts other σ).xmm r =
      if r.val < 8 ∧ texts ≠ [] then s.lastCopied m texts r else σ.xmm r := by
  obtain ⟨front, xmm, heq, hxmm⟩ := Screen.logs_spec texts s s.front σ.xmm
  rw [printing, heq]
  exact hxmm r

/-- The stubs of this kernel around their call. -/
theorem isCall_stubs :
    (∀ i ∈ pushAll, i.isCall = false) ∧ (∀ i ∈ popAll ++ [.iretq], i.isCall = false) ∧
      (∀ i ∈ syscallEnter, i.isCall = false) ∧ ∀ i ∈ syscallLeave, i.isCall = false := by
  decide

/-- A stub with one call leaves the vector registers as the callee does. -/
theorem xmm_run_call (before after : List Instr) (hb : ∀ i ∈ before, i.isCall = false)
    (ha : ∀ i ∈ after, i.isCall = false) (callee : Cpu → Cpu) (ret : Word) (σ : Cpu) :
    ∃ τ : Cpu, τ.xmm = σ.xmm ∧
      (run (before ++ [.call callee ret] ++ after) σ).xmm = (callee τ).xmm := by
  refine ⟨(run before σ).push ret, xmm_run hb σ, ?_⟩
  rw [run_append, run_append, xmm_run ha]
  rfl

end Cpu

/-- The kernel entries that print. Formatted messages stand for themselves. -/
inductive KernelEntry where
  /-- An interrupt whose handler calls `log` at least once. -/
  | irq (first : Text) (others : List Text)
  /-- The log line of the system call, then the buffer. -/
  | write (message buf : Text)
  | writev (message : Text) (bufs : List Text)
  /-- With a second log line when the path is not `/dev/mem`. -/
  | openPath (message : Text) (refusal : Option Text)

namespace KernelEntry

/-- What an entry prints, piece by piece. -/
def texts : KernelEntry → List Text
  | .irq first others => first :: others
  | .write message buf => [message, buf]
  | .writev message bufs => message :: bufs
  | .openPath message refusal => message :: refusal.toList

/-- An entry, from the instruction of the user that it interrupts to the next one. -/
def perform (m : Mode) (s : Screen) (other : Cpu → Cpu) (g : Cpu.Gate) (ret : Word)
    (e : KernelEntry) (σ : Cpu) : Cpu :=
  match e with
  | .irq .. => Cpu.run (Cpu.irqStub (Cpu.printing m s e.texts other) ret) (σ.interrupt g)
  | _ => σ.systemCall (Cpu.printing m s e.texts other) ret

theorem texts_ne_nil (e : KernelEntry) : e.texts ≠ [] := by
  cases e <;> simp [texts]

/-- The vector registers after an entry. -/
theorem xmm_perform (m : Mode) (s : Screen) (other : Cpu → Cpu) (g : Cpu.Gate) (ret : Word)
    (e : KernelEntry) (σ : Cpu) (r : Fin 16) :
    (e.perform m s other g ret σ).xmm r =
      if r.val < 8 then s.lastCopied m e.texts r else σ.xmm r := by
  have hsystem : ∃ τ : Cpu, τ.xmm = σ.xmm ∧
      (σ.systemCall (Cpu.printing m s e.texts other) ret).xmm =
        (Cpu.printing m s e.texts other τ).xmm := by
    rw [Cpu.systemCall, Cpu.syscallHandler]
    exact Cpu.xmm_run_call Cpu.syscallEnter Cpu.syscallLeave Cpu.isCall_stubs.2.2.1
      Cpu.isCall_stubs.2.2.2 _ ret σ.syscall
  have hentry : ∃ τ : Cpu, τ.xmm = σ.xmm ∧
      (e.perform m s other g ret σ).xmm = (Cpu.printing m s e.texts other τ).xmm := by
    cases e with
    | irq first others =>
        rw [perform, Cpu.irqStub, List.append_assoc _ popAll]
        exact Cpu.xmm_run_call pushAll (popAll ++ [.iretq]) Cpu.isCall_stubs.1
          Cpu.isCall_stubs.2.1 _ ret (σ.interrupt g)
    | write message buf => exact hsystem
    | writev message bufs => exact hsystem
    | openPath message refusal => exact hsystem
  obtain ⟨τ, hτ, heq⟩ := hentry
  rw [heq, Cpu.xmm_printing, hτ]
  simp [e.texts_ne_nil]

/-- An entry preserves the vector registers of the user exactly when `xmm0` to `xmm7`
hold, before it, the last block of the back buffer with the entry's text drawn in. -/
theorem xmm_preserved_iff (m : Mode) (s : Screen) (other : Cpu → Cpu) (g : Cpu.Gate)
    (ret : Word) (e : KernelEntry) (σ : Cpu) :
    (e.perform m s other g ret σ).xmm = σ.xmm ↔
      ∀ r : Fin 16, r.val < 8 → σ.xmm r = s.lastCopied m e.texts r := by
  constructor
  · intro h r hr
    rw [← h, xmm_perform, if_pos hr]
  · intro h
    ext r : 1
    rw [xmm_perform]
    split_ifs with hr
    · exact (h r hr).symm
    · rfl

/-- **No entry preserves the vector registers.** Whatever the console holds, whatever is
printed and whatever else the user's state is, some values of the vector registers are lost. -/
theorem xmm_not_preserved (m : Mode) (s : Screen) (other : Cpu → Cpu) (g : Cpu.Gate)
    (ret : Word) (e : KernelEntry) (σ : Cpu) :
    ¬ ∀ xmm : Xmm, (e.perform m s other g ret { σ with xmm := xmm }).xmm = xmm := by
  intro h
  have hflip := (xmm_preserved_iff m s other g ret e _).mp
    (h fun r => ~~~ s.lastCopied m e.texts r) 0 (by decide)
  have hbit := congrArg (BitVec.getLsbD · 0) hflip
  simp at hbit

/-- The text of the clock handler for `clock = 0`. -/
def clockKeys : List (Terminal.Key Glyph) :=
  [.glyph ⟨0x43#8, by decide⟩, .glyph ⟨0x6c#8, by decide⟩, .glyph ⟨0x6f#8, by decide⟩,
    .glyph ⟨0x63#8, by decide⟩, .glyph ⟨0x6b#8, by decide⟩, .glyph ⟨0x3a#8, by decide⟩,
    .glyph Glyph.space, .glyph ⟨0x30#8, by decide⟩, .carriageReturn]

/-- The first tick of the clock. -/
def clockTick : KernelEntry := .irq (clockKeys.map Screen.code) []

/-- A user program with a live value in every vector register. -/
def vectorUser : Cpu := { Cpu.zeroed with xmm := fun _ => 1 }

/-- The console of the boot mode with the background of `vga_init`. -/
def textured (fsin : ℕ → Bool) : Screen :=
  { Screen.stale with background := fun i => texture 800 600 fsin (i % 800) (i / 800) }

theorem background_textured (fsin : ℕ → Bool) {x : ℕ} (hx : x < 800) (y : ℕ) :
    (textured fsin).background (x + y * 800) = texture 800 600 fsin x y := by
  have hmod : (x + y * 800) % 800 = x := by omega
  have hdiv : (x + y * 800) / 800 = y := by omega
  simp only [textured, hmod, hdiv]

/-- The last line of pixels in the boot mode is below the text. -/
theorem back_clockTick (fsin : ℕ → Bool) {x : ℕ} (hx : x < 800) :
    (Screen.drawn Mode.boot clockTick.texts
      (Screen.clearScreen Mode.boot (textured fsin))).back (x + 599 * 800) =
      texture 800 600 fsin x 599 := by
  have hdrawn : Screen.drawn Mode.boot clockTick.texts
      (Screen.clearScreen Mode.boot (textured fsin)) =
      Screen.typed Mode.boot clockKeys (textured fsin) := by
    rw [Screen.drawn, clockTick, texts, List.foldl_cons, List.foldl_nil, List.foldl_map]
    rfl
  have hplain : Screen.Plain Mode.boot (textured fsin).background :=
    fun _ _ _ _ => texture_ne_textColor 800 600 fsin _ _
  obtain ⟨-, -, -, -, hpixels⟩ := Screen.isTerminal_of_le (by decide) (textured fsin) clockKeys
    rfl hplain
  rw [hdrawn]
  refine (hpixels x hx 599 (by decide)).trans ?_
  rw [shown, if_neg (fun h => absurd h.2.1 (by decide))]
  exact background_textured fsin hx 599

/-- In the last line the checkerboard is in its second colour from `x = 701` on. -/
theorem texture_corner (fsin : ℕ → Bool) :
    ∀ k < 4, texture 800 600 fsin (768 + k) 599 = 0x414345 := by
  intro k hk
  have hflag : ∀ k < 4, (List.range (768 + k + 1)).foldl
      (fun flag1 x => flag1 ^^ ((x + 599) % 100 == 0)) false = false := by
    decide +kernel
  have hfar : ∀ k < 4, ¬ (((768 + k : ℕ) : ℤ) - ((800 : ℕ) : ℤ) / 2) *
      (((768 + k : ℕ) : ℤ) - ((800 : ℕ) : ℤ) / 2) +
      (((599 : ℕ) : ℤ) - ((600 : ℕ) : ℤ) / 2) * (((599 : ℕ) : ℤ) - ((600 : ℕ) : ℤ) / 2) ≤ 10000 := by
    decide
  rw [texture]
  simp only [hflag k hk, decide_eq_false (hfar k hk), Bool.false_and, Bool.false_eq_true, if_false]

theorem lastCopied_clockTick (fsin : ℕ → Bool) :
    (Screen.clearScreen Mode.boot (textured fsin)).lastCopied Mode.boot clockTick.texts 0 =
      0x00414345004143450041434500414345 := by
  have hlast : 32 * (Mode.boot.fbSize / 128 - 1) + 4 * (0 : Fin 16).val = 768 + 599 * 800 := by
    decide
  have hpixel : ∀ k < 4, (Screen.drawn Mode.boot clockTick.texts
      (Screen.clearScreen Mode.boot (textured fsin))).back (768 + 599 * 800 + k) = 0x414345 := by
    intro k hk
    rw [Nat.add_right_comm, back_clockTick fsin (by omega), texture_corner fsin k hk]
  have h0 := hpixel 0 (by decide)
  rw [Nat.add_zero] at h0
  rw [Screen.lastCopied, hlast, movdqa, hpixel 3 (by decide), hpixel 2 (by decide),
    hpixel 1 (by decide), h0]
  decide

/-- The clock interrupt overwrites the vector registers of this program, whatever the stripes
of the background are. -/
theorem clockTick_clobbers :
    ¬ ∃ fsin : ℕ → Bool, (clockTick.perform Mode.boot
      (Screen.clearScreen Mode.boot (textured fsin)) Cpu.returnZero
      ⟨0x9000, 0x1b, 0x23⟩ 0 vectorUser).xmm = vectorUser.xmm := by
  rintro ⟨fsin, h⟩
  have h0 := congrFun h 0
  rw [xmm_perform, if_pos (by decide), lastCopied_clockTick] at h0
  exact absurd h0 (show (0x00414345004143450041434500414345 : BitVec 128) ≠ 1 by decide)

end KernelEntry

end BootableKernel
