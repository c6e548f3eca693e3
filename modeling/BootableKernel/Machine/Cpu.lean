import BootableKernel.Lib.Stack
import BootableKernel.VGA.Copy
import Mathlib.Data.List.Basic

/-!
# The processor state of the assembly stubs

The sixteen general registers, memory, the vector registers and the three words in which
`ring3.asm` keeps stack pointers and a result, with the instructions that the stubs use.
Flags are not computed: the stubs never test one, and those of the user are kept in
`r11`, on the stack, or in `rflags` until the kernel is entered.

`push_all` and `pop_all` in `push_all.asm` are the interesting programs. They save and
restore all registers, `rsp` among them, which is pushed and popped in the middle of the
sequence.
-/

namespace BootableKernel

abbrev Word := BitVec 64

/-- The general registers. -/
inductive Reg where
  | rax | rbx | rcx | rdx | rsi | rdi | rbp | rsp
  | r8 | r9 | r10 | r11 | r12 | r13 | r14 | r15
  deriving DecidableEq

/-- The words in the data section of `ring3.asm`. -/
inductive SaveWord where
  | kernelStackSave | userStackSave | syscallRetval
  deriving DecidableEq

structure Cpu where
  regs : Reg → Word
  mem : ByteMemory
  saved : SaveWord → Word
  /-- In ring 3, the next instruction. -/
  rip : Word
  /-- In ring 3, the flags. -/
  rflags : Word
  xmm : Xmm

/-- The instructions of the stubs. -/
inductive Instr where
  | push (r : Reg)
  | pop (r : Reg)
  | pushf
  | mov (dst src : Reg)
  | movImm (dst : Reg) (value : Word)
  | addImm (dst : Reg) (value : Word)
  /-- `mov [word], src`. -/
  | store (word : SaveWord) (src : Reg)
  /-- `mov dst, [word]`. -/
  | load (dst : Reg) (word : SaveWord)
  /-- A call of C code up to its return. -/
  | call (callee : Cpu → Cpu) (ret : Word)
  | sysret
  | iretq

namespace Cpu

def set (σ : Cpu) (r : Reg) (v : Word) : Cpu := { σ with regs := Function.update σ.regs r v }

def push (σ : Cpu) (v : Word) : Cpu :=
  { σ with
    mem := σ.mem.write (σ.regs .rsp - 8) v
    regs := Function.update σ.regs .rsp (σ.regs .rsp - 8) }

@[simp] theorem regs_set (σ : Cpu) (r : Reg) (v : Word) (r' : Reg) :
    (σ.set r v).regs r' = if r' = r then v else σ.regs r' := by
  simp [set, Function.update_apply]

@[simp] theorem mem_set (σ : Cpu) (r : Reg) (v : Word) : (σ.set r v).mem = σ.mem := rfl

@[simp] theorem saved_set (σ : Cpu) (r : Reg) (v : Word) : (σ.set r v).saved = σ.saved := rfl

@[simp] theorem regs_push (σ : Cpu) (v : Word) (r : Reg) :
    (σ.push v).regs r = if r = .rsp then σ.regs .rsp - 8 else σ.regs r := by
  simp [push, Function.update_apply]

@[simp] theorem saved_push (σ : Cpu) (v : Word) : (σ.push v).saved = σ.saved := rfl

/-- The effect of an instruction. -/
def exec : Instr → Cpu → Cpu
  | .push r, σ => σ.push (σ.regs r)
  -- the stack pointer moves before the register is written
  | .pop r, σ => (σ.set .rsp (σ.regs .rsp + 8)).set r (σ.mem.read 64 (σ.regs .rsp))
  | .pushf, σ => σ.push σ.rflags
  | .mov dst src, σ => σ.set dst (σ.regs src)
  | .movImm dst value, σ => σ.set dst value
  | .addImm dst value, σ => σ.set dst (σ.regs dst + value)
  | .store word src, σ => { σ with saved := Function.update σ.saved word (σ.regs src) }
  | .load dst word, σ => σ.set dst (σ.saved word)
  | .call callee ret, σ => callee (σ.push ret)
  | .sysret, σ =>
      { σ with rip := σ.regs .rcx, rflags := (σ.regs .r11 &&& 0x3c7fd7) ||| 2 }
  -- rip, cs, rflags, rsp and ss, from the top of the stack
  | .iretq, σ =>
      { σ.set .rsp (σ.mem.read 64 (σ.regs .rsp + 24)) with
        rip := σ.mem.read 64 (σ.regs .rsp)
        rflags := σ.mem.read 64 (σ.regs .rsp + 16) }

@[simp] theorem exec_mov (dst src : Reg) (σ : Cpu) :
    exec (.mov dst src) σ = σ.set dst (σ.regs src) := rfl

@[simp] theorem exec_push (r : Reg) (σ : Cpu) : exec (.push r) σ = σ.push (σ.regs r) := rfl

@[simp] theorem exec_addImm (dst : Reg) (value : Word) (σ : Cpu) :
    exec (.addImm dst value) σ = σ.set dst (σ.regs dst + value) := rfl

@[simp] theorem exec_load (dst : Reg) (word : SaveWord) (σ : Cpu) :
    exec (.load dst word) σ = σ.set dst (σ.saved word) := rfl

@[simp] theorem regs_store (word : SaveWord) (src : Reg) (σ : Cpu) :
    (exec (.store word src) σ).regs = σ.regs := rfl

@[simp] theorem mem_store (word : SaveWord) (src : Reg) (σ : Cpu) :
    (exec (.store word src) σ).mem = σ.mem := rfl

@[simp] theorem saved_store (word : SaveWord) (src : Reg) (σ : Cpu) :
    (exec (.store word src) σ).saved = Function.update σ.saved word (σ.regs src) := rfl

@[simp] theorem regs_sysret (σ : Cpu) : (exec .sysret σ).regs = σ.regs := rfl

@[simp] theorem saved_sysret (σ : Cpu) : (exec .sysret σ).saved = σ.saved := rfl

@[simp] theorem rip_sysret (σ : Cpu) : (exec .sysret σ).rip = σ.regs .rcx := rfl

@[simp] theorem mem_pop (r : Reg) (σ : Cpu) : (exec (.pop r) σ).mem = σ.mem := rfl

/-- The effect of a sequence of instructions. -/
def run (is : List Instr) (σ : Cpu) : Cpu := is.foldl (fun σ i => exec i σ) σ

@[simp] theorem run_nil (σ : Cpu) : run [] σ = σ := rfl

@[simp] theorem run_cons (i : Instr) (is : List Instr) (σ : Cpu) :
    run (i :: is) σ = run is (exec i σ) := rfl

theorem run_append (is js : List Instr) (σ : Cpu) : run (is ++ js) σ = run js (run is σ) :=
  List.foldl_append ..

end Cpu

/-- Registers of `push_all` before `rsp`. -/
def pushedFirst : List Reg := [.rdi, .rsi, .rbp]

/-- Registers of `push_all` after `rsp`. -/
def pushedLast : List Reg :=
  [.rbx, .rdx, .rcx, .rax, .r8, .r9, .r10, .r11, .r12, .r13, .r14, .r15]

def pushAll : List Instr :=
  [.push .rdi, .push .rsi, .push .rbp, .push .rsp, .push .rbx, .push .rdx, .push .rcx,
    .push .rax, .push .r8, .push .r9, .push .r10, .push .r11, .push .r12, .push .r13,
    .push .r14, .push .r15]

def popAll : List Instr :=
  [.pop .r15, .pop .r14, .pop .r13, .pop .r12, .pop .r11, .pop .r10, .pop .r9, .pop .r8,
    .pop .rax, .pop .rcx, .pop .rdx, .pop .rbx, .pop .rsp, .pop .rbp, .pop .rsi, .pop .rdi]

namespace Cpu

variable {σ : Cpu} {ws : List Word}

/-- The stack holds `ws`, the top first. -/
def Holds (σ : Cpu) (ws : List Word) : Prop := Stack.Holds σ.mem (σ.regs .rsp) ws

/-- What pushing the registers `rs` one after the other does. -/
structure Pushed (rs : List Reg) (σ : Cpu) (ws : List Word) (τ : Cpu) : Prop where
  holds : τ.Holds ((rs.map σ.regs).reverse ++ ws)
  regs_eq : τ.regs = Function.update σ.regs .rsp (σ.regs .rsp - BitVec.ofNat 64 (8 * rs.length))
  frame : τ = { σ with regs := τ.regs, mem := τ.mem }

/-- What popping the registers `rs` one after the other does, when the stack holds the
values that `f` gives them. -/
structure Popped (rs : List Reg) (f : Reg → Word) (σ : Cpu) (ws : List Word) (τ : Cpu) :
    Prop where
  holds : τ.Holds ws
  popped : ∀ r ∈ rs, τ.regs r = f r
  kept : ∀ r ∉ rs, r ≠ .rsp → τ.regs r = σ.regs r
  rsp_eq : τ.regs .rsp = σ.regs .rsp + BitVec.ofNat 64 (8 * rs.length)
  frame : τ = { σ with regs := τ.regs }

theorem holds_nil (σ : Cpu) : σ.Holds [] := trivial

theorem Holds.set (h : σ.Holds ws) {r : Reg} (hr : r ≠ .rsp) (v : Word) :
    (σ.set r v).Holds ws := by
  rw [Holds, mem_set, regs_set, if_neg (Ne.symm hr)]
  exact h

theorem Holds.push (h : σ.Holds ws) (v : Word) (hroom : 8 * ws.length + 8 ≤ 2 ^ 64) :
    (σ.push v).Holds (v :: ws) := by
  have := Stack.Holds.push h v hroom
  simpa [Cpu.Holds, Cpu.push] using this

theorem run_push (rs : List Reg) (hrs : Reg.rsp ∉ rs) (h : σ.Holds ws)
    (hroom : 8 * (ws.length + rs.length) ≤ 2 ^ 64) :
    Pushed rs σ ws (run (rs.map .push) σ) := by
  induction rs generalizing σ ws with
  | nil => exact ⟨h, by simp, rfl⟩
  | cons r rs ih =>
      rw [List.mem_cons, not_or] at hrs
      rw [List.length_cons] at hroom
      have hmap : rs.map (σ.push (σ.regs r)).regs = rs.map σ.regs := by
        apply List.map_congr_left
        intro r' hr'
        exact Function.update_of_ne (ne_of_mem_of_not_mem hr' hrs.2) _ _
      obtain ⟨hholds, hregs, hframe⟩ := ih hrs.2 (h.push (σ.regs r) (by omega))
        (by rw [List.length_cons]; omega)
      rw [List.map_cons, run_cons]
      change Pushed _ _ _ (run (rs.map .push) (σ.push (σ.regs r)))
      constructor
      · rw [hmap] at hholds
        simpa using hholds
      · rw [hregs, List.length_cons]
        simp only [Cpu.push, Function.update_self, Function.update_idem]
        congr 1
        rw [Nat.mul_succ, BitVec.ofNat_add]
        bv_omega
      · exact hframe

theorem run_pop (rs : List Reg) (hrs : Reg.rsp ∉ rs) (f : Reg → Word)
    (h : σ.Holds (rs.map f ++ ws)) : Popped rs f σ ws (run (rs.map .pop) σ) := by
  induction rs generalizing σ with
  | nil => exact ⟨h, by simp, by simp, by simp, rfl⟩
  | cons r rs ih =>
      rw [List.mem_cons, not_or] at hrs
      obtain ⟨hread, hrest⟩ := h
      have hrsp : (exec (.pop r) σ).regs .rsp = σ.regs .rsp + 8 := by
        simp [exec, hrs.1]
      have hr : (exec (.pop r) σ).regs r = f r := by
        simp [exec, hread]
      have hother : ∀ r', r' ≠ r → r' ≠ .rsp → (exec (.pop r) σ).regs r' = σ.regs r' := by
        intro r' h1 h2
        simp [exec, h1, h2]
      have hstack : (exec (.pop r) σ).Holds (rs.map f ++ ws) := by
        rw [Holds, hrsp]
        exact hrest
      obtain ⟨hholds, hpopped, hkept, hrsp', hframe⟩ := ih hrs.2 hstack
      rw [List.map_cons, run_cons]
      constructor
      · exact hholds
      · intro r' hr'
        by_cases hmem : r' ∈ rs
        · exact hpopped r' hmem
        · obtain rfl := (List.mem_cons.mp hr').resolve_right hmem
          rw [hkept r' hmem (Ne.symm hrs.1), hr]
      · intro r' hr' hne
        rw [List.mem_cons, not_or] at hr'
        rw [hkept r' hr'.2 hne, hother r' hr'.1 hne]
      · rw [hrsp', hrsp, List.length_cons, Nat.mul_succ, BitVec.ofNat_add]
        bv_omega
      · exact hframe

/-! ## Saving and restoring all registers -/

/-- The stack that `push_all` leaves when the registers are `f` and the stack pointer was
`a`. -/
def savedRegs (f : Reg → Word) (a : Word) : List Word :=
  pushedLast.reverse.map f ++ (a - 24) :: pushedFirst.reverse.map f

theorem savedRegs_congr {f g : Reg → Word} (h : ∀ r ≠ .rsp, f r = g r) (a : Word) :
    savedRegs f a = savedRegs g a := by
  have hlast : pushedLast.reverse.map f = pushedLast.reverse.map g :=
    List.map_congr_left fun r hr => h r (ne_of_mem_of_not_mem hr (by decide))
  have hfirst : pushedFirst.reverse.map f = pushedFirst.reverse.map g :=
    List.map_congr_left fun r hr => h r (ne_of_mem_of_not_mem hr (by decide))
  rw [savedRegs, savedRegs, hlast, hfirst]

theorem pushAll_spec (h : σ.Holds ws) (hroom : 8 * ws.length + 128 ≤ 2 ^ 64) :
    (run pushAll σ).Holds (savedRegs σ.regs (σ.regs .rsp) ++ ws) ∧
      (∀ r, (run pushAll σ).regs r = if r = .rsp then σ.regs .rsp - 128 else σ.regs r) ∧
      (run pushAll σ).saved = σ.saved := by
  have hsplit : pushAll = pushedFirst.map .push ++ (.push .rsp :: pushedLast.map .push) := rfl
  rw [hsplit, run_append, run_cons]
  have h1 := run_push pushedFirst (by decide) h (by simp [pushedFirst]; omega)
  -- the state when `rsp` is pushed
  generalize run (pushedFirst.map .push) σ = τ at h1
  have hlen : ((pushedFirst.map σ.regs).reverse ++ ws).length = ws.length + 3 := by
    simp [pushedFirst]
  have h2 := run_push pushedLast (by decide) (h1.holds.push (τ.regs .rsp) (by omega))
    (by rw [List.length_cons, hlen]; simp [pushedLast]; omega)
  change Pushed pushedLast _ _ (run (pushedLast.map .push) (exec (.push .rsp) τ)) at h2
  generalize run (pushedLast.map .push) (exec (.push .rsp) τ) = υ at h2
  have hτ : ∀ r, τ.regs r = if r = .rsp then σ.regs .rsp - 24 else σ.regs r := by
    intro r
    rw [h1.regs_eq, Function.update_apply]
    rfl
  refine ⟨?_, ?_, ?_⟩
  · have hvals : pushedLast.map (τ.push (τ.regs .rsp)).regs = pushedLast.map σ.regs := by
      apply List.map_congr_left
      intro r hr
      have hne : r ≠ .rsp := ne_of_mem_of_not_mem hr (by decide)
      simp [hτ, hne]
    have h3 := h2.holds
    rw [hvals, hτ, if_pos rfl] at h3
    simpa [savedRegs, List.map_reverse] using h3
  · intro r
    rw [h2.regs_eq, Function.update_apply, regs_push, regs_push, if_pos rfl]
    by_cases hr : r = .rsp
    · simp only [hr, if_true, hτ, pushedLast, List.length_cons, List.length_nil]
      bv_omega
    · simp only [hr, if_false, hτ]
  · rw [h2.frame, h1.frame]
    rfl

theorem popAll_spec {f : Reg → Word} {a : Word} (ha : a = σ.regs .rsp + 128)
    (h : σ.Holds (savedRegs f a ++ ws)) :
    (run popAll σ).Holds ws ∧
      (∀ r, (run popAll σ).regs r = if r = .rsp then a else f r) ∧
      (run popAll σ).saved = σ.saved := by
  have hsplit : popAll = pushedLast.reverse.map .pop ++
      (.pop .rsp :: pushedFirst.reverse.map .pop) := rfl
  rw [hsplit, run_append, run_cons]
  rw [savedRegs, List.append_assoc] at h
  have h1 := run_pop pushedLast.reverse (by decide) f h
  generalize run (pushedLast.reverse.map .pop) σ = τ at h1
  have hτs := h1.holds
  rw [Holds, List.cons_append, Stack.holds_cons] at hτs
  obtain ⟨hread, hrest⟩ := hτs
  -- the popped stack pointer is where popping it leaves the stack
  have hhere : a - 24 = τ.regs .rsp + 8 := by
    rw [h1.rsp_eq, ha]
    simp only [pushedLast, List.length_reverse, List.length_cons, List.length_nil]
    bv_omega
  have hτ : ∀ r, (exec (.pop .rsp) τ).regs r = if r = .rsp then a - 24 else τ.regs r := by
    intro r
    by_cases hr : r = .rsp <;> simp [exec, hread, hr]
  have hstack : (exec (.pop .rsp) τ).Holds (pushedFirst.reverse.map f ++ ws) := by
    rw [Holds, hτ, if_pos rfl, hhere, mem_pop]
    exact hrest
  have h2 := run_pop pushedFirst.reverse (by decide) f hstack
  refine ⟨h2.holds, ?_, ?_⟩
  · intro r
    by_cases hr : r = .rsp
    · rw [hr, h2.rsp_eq, hτ, if_pos rfl, if_pos rfl]
      simp only [pushedFirst, List.length_reverse, List.length_cons, List.length_nil]
      bv_omega
    rw [if_neg hr]
    by_cases hfirst : r ∈ pushedFirst.reverse
    · exact h2.popped r hfirst
    · have hlast : r ∈ pushedLast.reverse := by
        revert hr hfirst
        cases r <;> decide
      rw [h2.kept r hfirst hr, hτ, if_neg hr, h1.popped r hlast]
  · rw [h2.frame]
    change τ.saved = σ.saved
    rw [h1.frame]

end Cpu

end BootableKernel
