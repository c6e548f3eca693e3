import BootableKernel.Machine.Cpu
import Mathlib.Logic.Relation

/-!
# System calls

`jump_usermode` parks the kernel stack pointer in `kernel_stack_save` and leaves for
ring 3; every `syscall` afterwards enters `syscall_handler`, which works on the parked
stack and parks it again on the way out. The C function it calls is any function that
keeps to the System V calling convention, and the user program may do anything between
two system calls except write the kernel's data.

`syscall_transparent` is the contract that the inline assembly of the C library relies
on.
-/

namespace BootableKernel

namespace Cpu

/-- The end of `jump_usermode`, after the model-specific and segment registers are set
up. -/
def jumpUsermode (osEntry : Word) : Cpu → Cpu :=
  run [.pushf, .pop .r11, .store .kernelStackSave .rsp, .load .rsp .userStackSave,
    .movImm .rcx osEntry, .sysret]

/-- What the processor does on `syscall`, with the interrupt flag in `SFMASK`. -/
def syscall (σ : Cpu) : Cpu :=
  { (σ.set .rcx σ.rip).set .r11 σ.rflags with rflags := σ.rflags &&& ~~~0x200 }

/-- `syscall_handler` up to the call. -/
def syscallEnter : List Instr :=
  [.store .userStackSave .rsp, .load .rsp .kernelStackSave] ++ [.push .r11, .push .rcx] ++
    pushAll ++ [.mov .rcx .r10, .push .rax]

/-- `syscall_handler` after the call. -/
def syscallLeave : List Instr :=
  [.store .syscallRetval .rax, .addImm .rsp 8] ++ popAll ++ [.pop .rcx, .pop .r11] ++
    [.store .kernelStackSave .rsp, .load .rsp .userStackSave, .load .rax .syscallRetval,
      .sysret]

def syscallHandler (handleSyscall : Cpu → Cpu) (ret : Word) : List Instr :=
  syscallEnter ++ [.call handleSyscall ret] ++ syscallLeave

/-- A system call, from the `syscall` instruction to the next instruction of the user. -/
def systemCall (handleSyscall : Cpu → Cpu) (ret : Word) (σ : Cpu) : Cpu :=
  run (syscallHandler handleSyscall ret) σ.syscall

/-- The state in which `handle_syscall` starts. -/
def atHandler (ret : Word) (σ : Cpu) : Cpu := (run syscallEnter σ.syscall).push ret

/-- Where a function of seven integer arguments finds them: six in registers, the last
above the return address. -/
def arguments (σ : Cpu) : List Word :=
  [σ.regs .rdi, σ.regs .rsi, σ.regs .rdx, σ.regs .rcx, σ.regs .r8, σ.regs .r9,
    σ.mem.read 64 (σ.regs .rsp + 8)]

/-- A function of seven integer arguments that keeps to the calling convention: it
returns with the stack balanced and the callee-saved registers in place, and on the stack
it writes below its return address or in its argument area only. The words of `ring3.asm`
are not visible to C code. -/
structure SystemV (callee : Cpu → Cpu) : Prop where
  balanced : ∀ σ, (callee σ).regs .rsp = σ.regs .rsp + 8
  preserved : ∀ σ, ∀ r ∈ [Reg.rbx, .rbp, .r12, .r13, .r14, .r15],
    (callee σ).regs r = σ.regs r
  stack : ∀ σ a, (a - (σ.regs .rsp + 16)).toNat <
    (σ.saved .kernelStackSave - (σ.regs .rsp + 16)).toNat → (callee σ).mem a = σ.mem a
  words : ∀ σ, (callee σ).saved = σ.saved

/-- What can happen once ring 3 runs. -/
inductive UserStep (ret : Word) : Cpu → Cpu → Prop
  /-- The user program computes: registers and memory change, the kernel's data do not. -/
  | compute {σ τ : Cpu} (h : τ.saved = σ.saved) : UserStep ret σ τ
  | systemCall {σ : Cpu} {callee : Cpu → Cpu} (h : SystemV callee) :
      UserStep ret σ (σ.systemCall callee ret)

/-- Runs of the user program. -/
def UserRun (ret : Word) : Cpu → Cpu → Prop := Relation.ReflTransGen (UserStep ret)

variable {σ : Cpu} {ret : Word}

/-- The kernel stack during a system call of `σ`: the saved registers, with the user's
instruction pointer and flags below them. -/
def kernelFrame (σ : Cpu) : List Word :=
  savedRegs σ.syscall.regs (σ.saved .kernelStackSave - 16) ++ [σ.rip, σ.rflags]

@[simp] theorem length_kernelFrame (σ : Cpu) : (kernelFrame σ).length = 18 := rfl

@[simp] theorem regs_syscall (σ : Cpu) (r : Reg) :
    σ.syscall.regs r = if r = .r11 then σ.rflags else if r = .rcx then σ.rip else σ.regs r := by
  simp [syscall]

/-- On the kernel stack, before anything is pushed. -/
def onKernelStack (σ : Cpu) : Cpu :=
  run [.store .userStackSave .rsp, .load .rsp .kernelStackSave] σ.syscall

@[simp] theorem regs_onKernelStack (σ : Cpu) (r : Reg) :
    (onKernelStack σ).regs r =
      if r = .rsp then σ.saved .kernelStackSave else σ.syscall.regs r := by
  rw [onKernelStack, run_cons, run_cons, run_nil, exec_load, regs_set, regs_store, saved_store,
    Function.update_of_ne (by decide)]
  rfl

@[simp] theorem saved_onKernelStack (σ : Cpu) :
    (onKernelStack σ).saved = Function.update σ.saved .userStackSave (σ.regs .rsp) := by
  rw [onKernelStack, run_cons, run_cons, run_nil, exec_load, saved_set, saved_store,
    regs_syscall]
  rfl

theorem enter_spec (σ : Cpu) :
    (run syscallEnter σ.syscall).Holds (σ.regs .rax :: kernelFrame σ) ∧
      (∀ r, (run syscallEnter σ.syscall).regs r =
        if r = .rsp then σ.saved .kernelStackSave - 152
        else if r = .rcx then σ.regs .r10 else σ.syscall.regs r) ∧
      (run syscallEnter σ.syscall).saved =
        Function.update σ.saved .userStackSave (σ.regs .rsp) := by
  have h1 := run_push [.r11, .rcx] (by decide) (holds_nil (onKernelStack σ)) (by decide)
  rw [syscallEnter, run_append, run_append, run_append, ← onKernelStack,
    show [Instr.push .r11, .push .rcx] = [Reg.r11, .rcx].map .push from rfl]
  generalize run ([Reg.r11, .rcx].map .push) (onKernelStack σ) = τ at h1
  have hτ : ∀ r, τ.regs r =
      if r = .rsp then σ.saved .kernelStackSave - 16 else σ.syscall.regs r := by
    intro r
    rw [h1.regs_eq, Function.update_apply, regs_onKernelStack, regs_onKernelStack, if_pos rfl]
    by_cases hr : r = .rsp
    · simp [hr]
    · simp [hr]
  obtain ⟨h2, hregs, hsaved⟩ := pushAll_spec h1.holds (by simp)
  generalize run pushAll τ = υ at h2 hregs hsaved
  have hframe : savedRegs τ.regs (τ.regs .rsp) ++
      (([Reg.r11, .rcx].map (onKernelStack σ).regs).reverse ++ []) = kernelFrame σ := by
    rw [hτ, if_pos rfl, savedRegs_congr (fun r hr => (hτ r).trans (if_neg hr)), kernelFrame]
    simp
  have hυ : ∀ r, r ≠ .rsp → υ.regs r = σ.syscall.regs r := by
    intro r hr
    rw [hregs, if_neg hr, hτ, if_neg hr]
  rw [hframe] at h2
  rw [run_cons, run_cons, run_nil, exec_push, exec_mov]
  refine ⟨?_, ?_, ?_⟩
  · have hrax : (υ.set .rcx (υ.regs .r10)).regs .rax = σ.regs .rax := by
      rw [regs_set, if_neg (by decide), hυ _ (by decide), regs_syscall]
      rfl
    rw [hrax]
    exact (h2.set (by decide) _).push _ (by rw [length_kernelFrame]; decide)
  · intro r
    rw [regs_push]
    by_cases hr : r = .rsp
    · rw [if_pos hr, if_pos hr, regs_set, if_neg (by decide), hregs, if_pos rfl, hτ, if_pos rfl]
      bv_omega
    · rw [if_neg hr, if_neg hr, regs_set, hυ r hr, hυ .r10 (by decide), regs_syscall σ .r10]
      rfl
  · rw [saved_push, saved_set, hsaved, h1.frame]
    exact saved_onKernelStack σ

/-- Popping what `syscall_handler` pushed. -/
theorem pop_kernelFrame {τ : Cpu} (hrsp : τ.regs .rsp = σ.saved .kernelStackSave - 144)
    (h : τ.Holds (kernelFrame σ)) :
    let ψ := run ([Reg.rcx, .r11].map .pop) (run popAll τ)
    (∀ r, ψ.regs r = if r = .rsp then σ.saved .kernelStackSave else σ.syscall.regs r) ∧
      ψ.saved = τ.saved := by
  obtain ⟨h1, hregs, hsaved⟩ := popAll_spec (by rw [hrsp]; bv_omega) h
  generalize run popAll τ = ω at h1 hregs hsaved
  have hwords : [σ.rip, σ.rflags] = [Reg.rcx, .r11].map σ.syscall.regs ++ [] := by
    simp
  rw [hwords] at h1
  have h2 := run_pop [.rcx, .r11] (by decide) σ.syscall.regs h1
  refine ⟨?_, ?_⟩
  · intro r
    by_cases hr : r = .rsp
    · rw [hr, h2.rsp_eq, hregs, if_pos rfl, if_pos rfl]
      simp only [List.length_cons, List.length_nil]
      bv_omega
    · rw [if_neg hr]
      by_cases hmem : r ∈ [Reg.rcx, .r11]
      · exact h2.popped r hmem
      · rw [h2.kept r hmem hr, hregs, if_neg hr]
  · rw [h2.frame, ← hsaved]

/-- From the return of `handle_syscall` on. -/
theorem leave_spec {υ : Cpu} (hrsp : υ.regs .rsp = σ.saved .kernelStackSave - 152)
    (hstack : Stack.Holds υ.mem (σ.saved .kernelStackSave - 144) (kernelFrame σ))
    (hsaved : υ.saved = Function.update σ.saved .userStackSave (σ.regs .rsp)) :
    (∀ r, (run syscallLeave υ).regs r =
        if r = .rax then υ.regs .rax else σ.syscall.regs r) ∧
      (run syscallLeave υ).saved .kernelStackSave = σ.saved .kernelStackSave ∧
      (run syscallLeave υ).rip = σ.rip := by
  rw [syscallLeave, run_append, run_append, run_append,
    show [Instr.pop .rcx, .pop .r11] = [Reg.rcx, .r11].map .pop from rfl]
  generalize hτ : run [.store .syscallRetval .rax, .addImm .rsp 8] υ = τ
  rw [run_cons, run_cons, run_nil, exec_addImm] at hτ
  have hτrsp : τ.regs .rsp = σ.saved .kernelStackSave - 144 := by
    rw [← hτ, regs_set, if_pos rfl, regs_store, hrsp]
    bv_omega
  have hτholds : τ.Holds (kernelFrame σ) := by
    rw [Holds, hτrsp, ← hτ, mem_set, mem_store]
    exact hstack
  have hτsaved : τ.saved = Function.update υ.saved .syscallRetval (υ.regs .rax) := by
    rw [← hτ, saved_set, saved_store]
  obtain ⟨hψ, hψsaved⟩ := pop_kernelFrame hτrsp hτholds
  rw [hτsaved] at hψsaved
  generalize run ([Reg.rcx, .r11].map .pop) (run popAll τ) = ψ at hψ hψsaved
  rw [run_cons, run_cons, run_cons, run_cons, run_nil, exec_load, exec_load, rip_sysret,
    saved_sysret, saved_set, saved_set, saved_set, saved_store]
  refine ⟨?_, ?_, ?_⟩
  · intro r
    rw [regs_sysret, regs_set, regs_set, regs_store]
    by_cases hrax : r = .rax
    · rw [if_pos hrax, if_pos hrax, Function.update_of_ne (by decide), hψsaved,
        Function.update_self]
    · rw [if_neg hrax, if_neg hrax]
      by_cases hr : r = .rsp
      · rw [if_pos hr, hr, Function.update_of_ne (by decide), hψsaved,
          Function.update_of_ne (by decide), hsaved, Function.update_self, regs_syscall]
        rfl
      · rw [if_neg hr, hψ, if_neg hr]
  · rw [Function.update_self, hψ, if_pos rfl]
  · rw [regs_set, regs_set, if_neg (by decide), if_neg (by decide), regs_store, hψ,
      if_neg (by decide), regs_syscall]
    rfl

/-- The kernel stack when `handle_syscall` starts. -/
theorem atHandler_spec (ret : Word) (σ : Cpu) :
    (atHandler ret σ).Holds (ret :: σ.regs .rax :: kernelFrame σ) ∧
      (∀ r, (atHandler ret σ).regs r =
        if r = .rsp then σ.saved .kernelStackSave - 160
        else if r = .rcx then σ.regs .r10 else σ.syscall.regs r) ∧
      (atHandler ret σ).saved = Function.update σ.saved .userStackSave (σ.regs .rsp) := by
  obtain ⟨hholds, hregs, hsaved⟩ := enter_spec σ
  refine ⟨hholds.push ret (by rw [List.length_cons, length_kernelFrame]; decide), ?_, ?_⟩
  · intro r
    rw [atHandler, regs_push, hregs, hregs, if_pos rfl]
    by_cases hr : r = .rsp
    · rw [if_pos hr, if_pos hr]
      bv_omega
    · rw [if_neg hr, if_neg hr, if_neg hr]
  · rw [atHandler, saved_push, hsaved]

/-- `handle_syscall` leaves the saved registers on the stack. -/
theorem holds_kernelFrame {callee : Cpu → Cpu} (h : SystemV callee) (ret : Word) (σ : Cpu) :
    Stack.Holds (callee (atHandler ret σ)).mem (σ.saved .kernelStackSave - 144)
      (kernelFrame σ) := by
  obtain ⟨hholds, hregs, hsaved⟩ := atHandler_spec ret σ
  have hrsp : (atHandler ret σ).regs .rsp = σ.saved .kernelStackSave - 160 := by
    rw [hregs, if_pos rfl]
  have hkernel : (atHandler ret σ).saved .kernelStackSave = σ.saved .kernelStackSave := by
    rw [hsaved, Function.update_of_ne (by decide)]
  have htop : σ.saved .kernelStackSave - 160 + 8 + 8 = σ.saved .kernelStackSave - 144 := by
    bv_omega
  rw [Holds, hrsp, Stack.holds_cons, Stack.holds_cons, htop] at hholds
  apply hholds.2.2.congr
  intro i hi
  rw [length_kernelFrame] at hi
  apply h.stack
  rw [hrsp, hkernel]
  have harea : σ.saved .kernelStackSave - 144 + BitVec.ofNat 64 i -
      (σ.saved .kernelStackSave - 160 + 16) = BitVec.ofNat 64 i := by
    bv_omega
  have hsize : σ.saved .kernelStackSave - (σ.saved .kernelStackSave - 160 + 16) = 144 := by
    bv_omega
  rw [harea, hsize, BitVec.toNat_ofNat, Nat.mod_eq_of_lt (by omega)]
  exact hi

theorem systemCall_spec {callee : Cpu → Cpu} (h : SystemV callee) (ret : Word) (σ : Cpu) :
    (∀ r, (σ.systemCall callee ret).regs r =
        if r = .rax then (callee (atHandler ret σ)).regs .rax else σ.syscall.regs r) ∧
      (σ.systemCall callee ret).saved .kernelStackSave = σ.saved .kernelStackSave ∧
      (σ.systemCall callee ret).rip = σ.rip := by
  obtain ⟨-, hregs, hsaved⟩ := atHandler_spec ret σ
  rw [systemCall, syscallHandler, run_append, run_append]
  apply leave_spec
  · change (callee (atHandler ret σ)).regs .rsp = _
    rw [h.balanced, hregs, if_pos rfl]
    bv_omega
  · exact holds_kernelFrame h ret σ
  · change (callee (atHandler ret σ)).saved = _
    rw [h.words, hsaved]

/-- The parked kernel stack pointer never moves. -/
theorem UserRun.kernelStackSave_eq {τ : Cpu} (h : UserRun ret σ τ) :
    τ.saved .kernelStackSave = σ.saved .kernelStackSave := by
  induction h with
  | refl => rfl
  | tail _ hstep ih =>
      cases hstep with
      | compute h => rw [h, ih]
      | systemCall h => rw [(systemCall_spec h ret _).2.1, ih]

/-- A system call made at any point of a run is transparent: the C function gets the
arguments of the call, the user gets back its stack pointer, its instruction pointer and
flags where `sysret` takes them from, the result, and every other register as it was; and
the kernel stack pointer is the one parked by `jump_usermode`. -/
theorem syscall_transparent {osEntry : Word} {σ₀ : Cpu}
    (hrun : UserRun ret (σ₀.jumpUsermode osEntry) σ) {callee : Cpu → Cpu}
    (h : SystemV callee) :
    (atHandler ret σ).arguments =
        [σ.regs .rdi, σ.regs .rsi, σ.regs .rdx, σ.regs .r10, σ.regs .r8, σ.regs .r9,
          σ.regs .rax] ∧
      (σ.systemCall callee ret).regs .rsp = σ.regs .rsp ∧
      (σ.systemCall callee ret).regs .rcx = σ.rip ∧
      (σ.systemCall callee ret).regs .r11 = σ.rflags ∧
      (σ.systemCall callee ret).regs .rax = (callee (atHandler ret σ)).regs .rax ∧
      (∀ r ∉ [Reg.rax, .rcx, .r11], (σ.systemCall callee ret).regs r = σ.regs r) ∧
      (σ.systemCall callee ret).rip = σ.rip ∧
      (σ.systemCall callee ret).saved .kernelStackSave =
        (σ₀.jumpUsermode osEntry).saved .kernelStackSave := by
  obtain ⟨hregs, hkernel, hrip⟩ := systemCall_spec h ret σ
  refine ⟨?_, ?_, ?_, ?_, ?_, ?_, hrip, ?_⟩
  · obtain ⟨hholds, hargs, -⟩ := atHandler_spec ret σ
    rw [Holds, Stack.holds_cons, Stack.holds_cons] at hholds
    rw [arguments, hholds.2.1]
    simp [hargs]
  · rw [hregs, if_neg (by decide), regs_syscall]
    rfl
  · rw [hregs, if_neg (by decide), regs_syscall]
    rfl
  · rw [hregs, if_neg (by decide), regs_syscall]
    rfl
  · rw [hregs, if_pos rfl]
  · intro r hr
    simp only [List.mem_cons, List.not_mem_nil, or_false, not_or] at hr
    rw [hregs, if_neg hr.1, regs_syscall, if_neg hr.2.2, if_neg hr.2.1]
  · rw [hkernel, hrun.kernelStackSave_eq]

/-- A C function that returns 0. -/
def returnZero (σ : Cpu) : Cpu := (σ.set .rsp (σ.regs .rsp + 8)).set .rax 0

theorem returnZero_systemV : SystemV returnZero := by
  constructor
  · intro σ
    simp [returnZero]
  · intro σ r hr
    have hrsp : r ≠ .rsp := ne_of_mem_of_not_mem hr (by decide)
    have hrax : r ≠ .rax := ne_of_mem_of_not_mem hr (by decide)
    simp [returnZero, hrsp, hrax]
  · intro σ a _
    rfl
  · intro σ
    rfl

/-- Everything zero. -/
def zeroed : Cpu := ⟨fun _ => 0, fun _ => 0, fun _ => 0, 0, 0, fun _ => 0⟩

/-- A user program that has made one system call and is about to make another, with the
registers as the first one left them. -/
def secondCall : Cpu := (zeroed.jumpUsermode 0x100000).systemCall returnZero 0

theorem secondCall_run : UserRun 0 (zeroed.jumpUsermode 0x100000) secondCall :=
  .single (.systemCall returnZero_systemV)

theorem syscall_transparent_second :
    UserRun 0 (zeroed.jumpUsermode 0x100000) secondCall ∧ SystemV returnZero ∧
      (secondCall.systemCall returnZero 0).regs .rsp = secondCall.regs .rsp ∧
      (secondCall.systemCall returnZero 0).regs .rcx = secondCall.rip ∧
      (secondCall.systemCall returnZero 0).saved .kernelStackSave =
        (zeroed.jumpUsermode 0x100000).saved .kernelStackSave := by
  obtain ⟨-, hrsp, hrcx, -, -, -, -, hkernel⟩ :=
    syscall_transparent secondCall_run returnZero_systemV
  exact ⟨secondCall_run, returnZero_systemV, hrsp, hrcx, hkernel⟩

end Cpu

end BootableKernel
