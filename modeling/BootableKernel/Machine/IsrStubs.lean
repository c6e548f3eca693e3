import BootableKernel.Machine.Exceptions
import Mathlib.Tactic.FinCases

/-!
# From the exception to its handler

When an exception is raised the processor pushes where it was, and for some vectors an
error code. The stub of the vector in `isr.asm` pushes its number, below a zero in place of
a missing error code, and `isr_common_stub` pushes all registers and the data segment. The
call of `isr_handler` then finds all of it above its return address, which is where a
structure passed by value is expected: `frame_handlerEntry` says that it is an `ISR_Frame`
of the interrupted state.

The way back is not the inverse: `exit_not_restored` says that one word too few is removed
from the stack.
-/

namespace BootableKernel
namespace IsrStubs

/-- The segment registers that the stub writes. -/
inductive Seg where
  | ds | es | fs | gs
  deriving DecidableEq

/-- The processor with its segment registers. `rip` and `rflags` of `cpu` are what an
exception pushes, so `rflags` includes the resume flag of a fault. -/
structure Machine where
  cpu : Cpu
  segs : Seg → BitVec 16
  cs : BitVec 16
  ss : BitVec 16

/-- The instructions of the stubs. -/
inductive Op where
  | cpu (i : Instr)
  | pushImm (v : Word)
  | cli
  | xorRax
  /-- `mov ax, seg`. -/
  | movAx (s : Seg)
  /-- `mov seg, ax`. -/
  | movSeg (s : Seg)

def exec : Op → Machine → Machine
  | .cpu i, σ => { σ with cpu := σ.cpu.exec i }
  | .pushImm v, σ => { σ with cpu := σ.cpu.push v }
  | .cli, σ => { σ with cpu.rflags := σ.cpu.rflags &&& ~~~0x200 }
  | .xorRax, σ => { σ with cpu := σ.cpu.set .rax 0 }
  -- the rest of `rax` stays
  | .movAx s, σ =>
      { σ with cpu := σ.cpu.set .rax ((σ.cpu.regs .rax).extractLsb' 16 48 ++ σ.segs s) }
  | .movSeg s, σ =>
      { σ with segs := Function.update σ.segs s ((σ.cpu.regs .rax).setWidth 16) }

def run (ops : List Op) (σ : Machine) : Machine := ops.foldl (fun σ op => exec op σ) σ

/-- `GDT64_Data` is the third descriptor of the table in `gdt.asm`. -/
def gdt64Data : Word := 0x10

/-- The macro `ISR_NOERRCODE`. -/
def isrNoErrCode (n : Word) : List Op := [.pushImm 0, .pushImm n]

/-- The macro `ISR_ERRCODE`. -/
def isrErrCode (n : Word) : List Op := [.pushImm n]

/-- The stubs of the vectors from 0 on, each up to its jump. -/
def isrStubs : List (List Op) :=
  [ isrNoErrCode 0, isrNoErrCode 1, isrNoErrCode 2, isrNoErrCode 3, isrNoErrCode 4,
    isrNoErrCode 5, isrNoErrCode 6, isrNoErrCode 7, isrErrCode 8, isrNoErrCode 9,
    isrErrCode 10, isrErrCode 11, isrErrCode 12, isrErrCode 13, isrErrCode 14,
    isrNoErrCode 15, isrNoErrCode 16, isrErrCode 17, isrNoErrCode 18, isrNoErrCode 19,
    isrNoErrCode 20 ]

@[simp] theorem length_isrStubs : isrStubs.length = 21 := rfl

def isr (v : Fin 21) : List Op := isrStubs.get (v.cast length_isrStubs.symm)

/-- The part of `isr_common_stub` that saves the data segment and loads that of the kernel. -/
def saveSegment : List Op :=
  [ .xorRax, .movAx .ds, .cpu (.push .rax),
    .cpu (.movImm .rax gdt64Data), .movSeg .ds, .movSeg .es, .movSeg .fs, .movSeg .gs ]

/-- `isr_common_stub` up to the call. -/
def isrCommonEntry : List Op := [.cli] ++ pushAll.map .cpu ++ saveSegment

/-- `isr_common_stub` from the return of the call up to `iretq`. -/
def isrCommonExit : List Op :=
  [ .cpu (.pop .rax), .movSeg .ds, .movSeg .es, .movSeg .fs, .movSeg .gs ] ++
    popAll.map .cpu ++ [.cpu (.addImm .rsp 8)]

/-! ## The processor -/

/-- Vectors with an error code. -/
def hasErrorCode (v : ℕ) : Bool := v ∈ [8, 10, 11, 12, 13, 14, 17]

/-- The stack an exception is delivered on: that of the task state segment when it comes
from ring 3. In 64-bit mode it is aligned first. -/
def deliveryStack (rsp0 : Word) (σ : Machine) : Word :=
  (if σ.cs &&& 3 = 0 then σ.cpu.regs .rsp else rsp0) &&& ~~~0xf

/-- What the processor pushes, the last one first. -/
def pushedContext (v : Fin 21) (errCode : Word) (σ : Machine) : List Word :=
  (if hasErrorCode v then [errCode] else []) ++
    [σ.cpu.rip, σ.cs.setWidth 64, σ.cpu.rflags, σ.cpu.regs .rsp, σ.ss.setWidth 64]

/-- The delivery of an exception. -/
def deliver (v : Fin 21) (rsp0 errCode : Word) (σ : Machine) : Machine :=
  { σ with
    cpu := (pushedContext v errCode σ).reverse.foldl Cpu.push
      (σ.cpu.set .rsp (deliveryStack rsp0 σ)) }

/-- The state in which `isr_handler` starts, with the return address of the call. -/
def handlerEntry (v : Fin 21) (rsp0 errCode ret : Word) (σ : Machine) : Machine :=
  let σ := run isrCommonEntry (run (isr v) (deliver v rsp0 errCode σ))
  { σ with cpu := σ.cpu.push ret }

/-- The `ISR_Frame` at an address. -/
def readFrame (m : ByteMemory) (a : Word) : IsrFrame :=
  let word (k : ℕ) : Word := m.read 64 (a + BitVec.ofNat 64 (8 * k))
  { ds := word 0
    r15 := word 1, r14 := word 2, r13 := word 3, r12 := word 4
    r11 := word 5, r10 := word 6, r9 := word 7, r8 := word 8
    ax := word 9, cx := word 10, dx := word 11, bx := word 12
    uselessSp := word 13, bp := word 14, si := word 15, di := word 16
    intNo := word 17
    errCode := word 18
    ip := word 19, cs := word 20, eFlags := word 21, sp := word 22, ss := word 23 }

/-- The frame that `isr_handler` receives: its argument is above the return address. -/
def receivedFrame (σ : Machine) : IsrFrame := readFrame σ.cpu.mem (σ.cpu.regs .rsp + 8)

/-- The frame of an interrupted state, field by field. -/
def frameOf (v : Fin 21) (errCode uselessSp : Word) (σ : Machine) : IsrFrame :=
  { ds := (σ.segs .ds).setWidth 64
    r15 := σ.cpu.regs .r15, r14 := σ.cpu.regs .r14, r13 := σ.cpu.regs .r13
    r12 := σ.cpu.regs .r12, r11 := σ.cpu.regs .r11, r10 := σ.cpu.regs .r10
    r9 := σ.cpu.regs .r9, r8 := σ.cpu.regs .r8
    ax := σ.cpu.regs .rax, cx := σ.cpu.regs .rcx, dx := σ.cpu.regs .rdx, bx := σ.cpu.regs .rbx
    uselessSp := uselessSp
    bp := σ.cpu.regs .rbp, si := σ.cpu.regs .rsi, di := σ.cpu.regs .rdi
    intNo := BitVec.ofNat 64 v
    errCode := if hasErrorCode v then errCode else 0
    ip := σ.cpu.rip
    cs := σ.cs.setWidth 64
    eFlags := σ.cpu.rflags
    sp := σ.cpu.regs .rsp
    ss := σ.ss.setWidth 64 }

/-! ## The stack -/

/-- The stub makes up for the error codes that the processor does not push. -/
theorem isr_eq (v : Fin 21) :
    isr v = if hasErrorCode v then isrErrCode (BitVec.ofNat 64 v)
      else isrNoErrCode (BitVec.ofNat 64 v) := by
  fin_cases v <;> rfl

@[simp] theorem run_append (ops ops' : List Op) (σ : Machine) :
    run (ops ++ ops') σ = run ops' (run ops σ) :=
  List.foldl_append

theorem run_cpu (is : List Instr) (σ : Machine) :
    run (is.map .cpu) σ = { σ with cpu := σ.cpu.run is } := by
  induction is generalizing σ with
  | nil => rfl
  | cons i is ih => exact ih _

/-- Pushing the words of a list, the last one first. -/
theorem holds_foldl_push {σ : Cpu} {ws : List Word} (h : σ.Holds ws) (vs : List Word)
    (hroom : 8 * (ws.length + vs.length) ≤ 2 ^ 64) :
    (vs.reverse.foldl Cpu.push σ).Holds (vs ++ ws) := by
  induction vs with
  | nil => exact h
  | cons v vs ih =>
      rw [List.length_cons] at hroom
      rw [List.reverse_cons, List.foldl_append, List.foldl_cons, List.foldl_nil]
      exact (ih (by omega)).push v (by rw [List.length_append]; omega)

theorem regs_foldl_push (σ : Cpu) (vs : List Word) {r : Reg} (hr : r ≠ .rsp) :
    (vs.foldl Cpu.push σ).regs r = σ.regs r := by
  induction vs generalizing σ with
  | nil => rfl
  | cons v vs ih => rw [List.foldl_cons, ih, Cpu.regs_push, if_neg hr]

/-- Above the registers: the vector, the error code or a zero, and where the exception was
raised. -/
def aboveRegs (v : Fin 21) (errCode : Word) (σ : Machine) : List Word :=
  [BitVec.ofNat 64 v, if hasErrorCode v then errCode else 0, σ.cpu.rip, σ.cs.setWidth 64,
    σ.cpu.rflags, σ.cpu.regs .rsp, σ.ss.setWidth 64]

/-- The processor and the stub together push these words. -/
theorem run_isr (v : Fin 21) (rsp0 errCode : Word) (σ : Machine) :
    run (isr v) (deliver v rsp0 errCode σ) =
      { σ with
        cpu := (aboveRegs v errCode σ).reverse.foldl Cpu.push
          (σ.cpu.set .rsp (deliveryStack rsp0 σ)) } := by
  rw [isr_eq]
  cases herr : hasErrorCode v with
  | true =>
      simp [deliver, pushedContext, aboveRegs, herr, isrErrCode, run, exec]
  | false =>
      simp [deliver, pushedContext, aboveRegs, herr, isrNoErrCode, run, exec]

theorem rsp_foldl_push (σ : Cpu) (vs : List Word) :
    (vs.foldl Cpu.push σ).regs .rsp = σ.regs .rsp - BitVec.ofNat 64 (8 * vs.length) := by
  induction vs generalizing σ with
  | nil => simp
  | cons v vs ih =>
      rw [List.foldl_cons, ih, Cpu.regs_push, if_pos rfl, List.length_cons, Nat.mul_succ,
        BitVec.ofNat_add]
      bv_omega

/-- The stack pointer at `isr_common_stub`: seven words were pushed. -/
def commonStack (rsp0 : Word) (σ : Machine) : Word := deliveryStack rsp0 σ - 56

/-- What the common stub finds. -/
theorem isr_spec (v : Fin 21) (rsp0 errCode : Word) (σ : Machine) :
    let τ := run (isr v) (deliver v rsp0 errCode σ)
    τ.cpu.Holds (aboveRegs v errCode σ) ∧
      (∀ r, τ.cpu.regs r = if r = .rsp then commonStack rsp0 σ else σ.cpu.regs r) ∧
      τ.segs = σ.segs := by
  intro τ
  have hτ : τ = _ := run_isr v rsp0 errCode σ
  rw [hτ]
  refine ⟨?_, ?_, rfl⟩
  · have hstack := holds_foldl_push (Cpu.holds_nil (σ.cpu.set .rsp (deliveryStack rsp0 σ)))
      (aboveRegs v errCode σ) (by simp [aboveRegs])
    rwa [List.append_nil] at hstack
  · intro r
    by_cases hr : r = .rsp
    · rw [hr, rsp_foldl_push, Cpu.regs_set, if_pos rfl, if_pos rfl]
      rfl
    · rw [regs_foldl_push _ _ hr, Cpu.regs_set, if_neg hr, if_neg hr]

theorem saveSegment_spec {σ : Machine} {ws : List Word} (h : σ.cpu.Holds ws)
    (hroom : 8 * ws.length + 8 ≤ 2 ^ 64) :
    (run saveSegment σ).cpu.Holds ((σ.segs .ds).setWidth 64 :: ws) ∧
      (run saveSegment σ).cpu.regs .rsp = σ.cpu.regs .rsp - 8 := by
  have hds : 0#48 ++ σ.segs .ds = (σ.segs .ds).setWidth 64 := by
    have hlt := (σ.segs .ds).isLt
    apply BitVec.eq_of_toNat_eq
    rw [BitVec.toNat_append, BitVec.toNat_setWidth, Nat.mod_eq_of_lt (by omega)]
    simp
  have hrax : Reg.rax ≠ .rsp := by decide
  have hpush := ((h.set hrax 0).set hrax ((σ.segs .ds).setWidth 64)).push
    ((σ.segs .ds).setWidth 64) hroom
  have hcpu : (run saveSegment σ).cpu =
      ((((σ.cpu.set .rax 0).set .rax ((σ.segs .ds).setWidth 64)).push
        ((σ.segs .ds).setWidth 64)).set .rax gdt64Data) := by
    simp [saveSegment, run, exec, Cpu.exec, hds]
  rw [hcpu]
  exact ⟨hpush.set hrax gdt64Data, by simp⟩

/-- The stack of the handler, below its return address. -/
def frameWords (v : Fin 21) (errCode sp : Word) (σ : Machine) : List Word :=
  (σ.segs .ds).setWidth 64 :: (Cpu.savedRegs σ.cpu.regs sp ++ aboveRegs v errCode σ)

theorem handlerEntry_spec (v : Fin 21) (rsp0 errCode ret : Word) (σ : Machine) :
    (handlerEntry v rsp0 errCode ret σ).cpu.Holds
        (ret :: frameWords v errCode (commonStack rsp0 σ) σ) ∧
      (handlerEntry v rsp0 errCode ret σ).cpu.regs .rsp = commonStack rsp0 σ - 144 := by
  obtain ⟨hstack, hregs, hsegs⟩ := isr_spec v rsp0 errCode σ
  rw [handlerEntry]
  generalize run (isr v) (deliver v rsp0 errCode σ) = τ at hstack hregs hsegs
  have hrsp : τ.cpu.regs .rsp = commonStack rsp0 σ := hregs .rsp
  have hcli : (run [.cli] τ).cpu.Holds (aboveRegs v errCode σ) := hstack
  obtain ⟨hsaved, hmoved, -⟩ := Cpu.pushAll_spec hcli (by simp [aboveRegs])
  have hregs' : Cpu.savedRegs (run [.cli] τ).cpu.regs (τ.cpu.regs .rsp) =
      Cpu.savedRegs σ.cpu.regs (commonStack rsp0 σ) := by
    rw [hrsp]
    exact Cpu.savedRegs_congr (fun r hr => (hregs r).trans (if_neg hr)) _
  have hsaved' : (run (pushAll.map .cpu) (run [.cli] τ)).cpu.Holds
      (Cpu.savedRegs σ.cpu.regs (commonStack rsp0 σ) ++ aboveRegs v errCode σ) := by
    rw [run_cpu, ← hregs']
    exact hsaved
  have hmoved' : (run (pushAll.map .cpu) (run [.cli] τ)).cpu.regs .rsp =
      commonStack rsp0 σ - 128 := by
    rw [run_cpu, ← hrsp]
    exact hmoved .rsp
  have hlen : (Cpu.savedRegs σ.cpu.regs (commonStack rsp0 σ) ++ aboveRegs v errCode σ).length =
      23 := rfl
  have hseg := saveSegment_spec hsaved' (by rw [hlen]; decide)
  have hds : (run (pushAll.map .cpu) (run [.cli] τ)).segs = σ.segs := by
    rw [run_cpu]
    exact hsegs
  rw [hds, hmoved'] at hseg
  rw [isrCommonEntry, run_append, run_append]
  constructor
  · exact hseg.1.push ret (by rw [List.length_cons, hlen]; decide)
  · rw [Cpu.regs_push, if_pos rfl, hseg.2]
    bv_omega

/-- For every vector and every interrupted state, the frame that `isr_handler` receives is
the frame of that state. -/
theorem frame_handlerEntry (v : Fin 21) (rsp0 errCode ret : Word) (σ : Machine) :
    ∃ uselessSp, receivedFrame (handlerEntry v rsp0 errCode ret σ) =
      frameOf v errCode uselessSp σ := by
  have hframe := (handlerEntry_spec v rsp0 errCode ret σ).1.2
  refine ⟨commonStack rsp0 σ - 24, ?_⟩
  have hword : ∀ {k : ℕ} {w : Word},
      (frameWords v errCode (commonStack rsp0 σ) σ)[k]? = some w → _ :=
    fun hk => hframe.read_eq hk
  simp only [receivedFrame, readFrame, frameOf, IsrFrame.mk.injEq]
  -- each field is the word at its place in the list
  and_intros <;> exact hword rfl

/-! ## The way back -/

/-- The bytes of an `ISR_Frame`. -/
def sizeofIsrFrame : ℕ := 24 * 8

/-- `isr_handler`, entered in `σ`, has returned in `τ` with its frame unmodified. Registers
and other memory may have changed. -/
structure Returned (σ τ : Machine) : Prop where
  rsp : τ.cpu.regs .rsp = σ.cpu.regs .rsp + 8
  frame (i : ℕ) (hi : i < sizeofIsrFrame) :
    τ.cpu.mem (τ.cpu.regs .rsp + BitVec.ofNat 64 i) =
      σ.cpu.mem (τ.cpu.regs .rsp + BitVec.ofNat 64 i)

/-- Where the return frame is that the processor pushed: above the error code. -/
def returnFrame (v : Fin 21) (rsp0 errCode : Word) (σ : Machine) : Word :=
  (deliver v rsp0 errCode σ).cpu.regs .rsp + if hasErrorCode v then 8 else 0

/-- The state `τ` at `iretq` is the interrupted state `σ` again. -/
structure Restored (v : Fin 21) (rsp0 errCode : Word) (σ τ : Machine) : Prop where
  rsp : τ.cpu.regs .rsp = returnFrame v rsp0 errCode σ
  regs (r : Reg) (hr : r ≠ .rsp) : τ.cpu.regs r = σ.cpu.regs r
  ds : τ.segs .ds = σ.segs .ds

theorem returnFrame_eq (v : Fin 21) (rsp0 errCode : Word) (σ : Machine) :
    returnFrame v rsp0 errCode σ = commonStack rsp0 σ + 16 := by
  have hdeliver : (deliver v rsp0 errCode σ).cpu.regs .rsp =
      deliveryStack rsp0 σ - BitVec.ofNat 64 (8 * (pushedContext v errCode σ).length) := by
    rw [deliver, rsp_foldl_push, List.length_reverse, Cpu.regs_set, if_pos rfl]
  rw [returnFrame, hdeliver, commonStack]
  cases herr : hasErrorCode v with
  | true =>
      simp only [pushedContext, herr, if_true, List.length_append, List.length_cons,
        List.length_nil]
      bv_omega
  | false =>
      simp only [pushedContext, herr, Bool.false_eq_true, if_false, List.length_append,
        List.length_cons, List.length_nil]
      bv_omega

/-- The handler leaves the stack as it found it. -/
theorem Returned.holds {σ τ : Machine} (h : Returned σ τ) {ret : Word} {ws : List Word}
    (hσ : σ.cpu.Holds (ret :: ws)) (hws : ws.length = 24) : τ.cpu.Holds ws := by
  have hrest : Stack.Holds σ.cpu.mem (τ.cpu.regs .rsp) ws := h.rsp ▸ hσ.2
  apply hrest.congr
  rw [hws]
  exact h.frame

/-- The pop of the data segment and the loads of the segment registers. -/
theorem restoreSegment_spec {σ : Machine} {ds : BitVec 16} {ws : List Word}
    (h : σ.cpu.Holds (ds.setWidth 64 :: ws)) :
    let τ := run [.cpu (.pop .rax), .movSeg .ds, .movSeg .es, .movSeg .fs, .movSeg .gs] σ
    τ.cpu.Holds ws ∧ τ.cpu.regs .rsp = σ.cpu.regs .rsp + 8 ∧ τ.segs .ds = ds := by
  intro τ
  have hcpu : τ.cpu = σ.cpu.exec (.pop .rax) := rfl
  have hrsp : τ.cpu.regs .rsp = σ.cpu.regs .rsp + 8 := by
    simp [hcpu, Cpu.exec]
  refine ⟨?_, hrsp, ?_⟩
  · rw [Cpu.Holds, hrsp]
    exact h.2
  · have hread : σ.cpu.mem.read 64 (σ.cpu.regs .rsp) = ds.setWidth 64 := h.1
    simp [τ, run, exec, Cpu.exec, hread]

/-- What the exit part does with the stack that the entry part left. -/
theorem exit_spec {v : Fin 21} {rsp0 errCode ret : Word} {σ τ : Machine}
    (h : Returned (handlerEntry v rsp0 errCode ret σ) τ) :
    let υ := run isrCommonExit τ
    υ.cpu.Holds (aboveRegs v errCode σ).tail ∧
      (∀ r, υ.cpu.regs r = if r = .rsp then commonStack rsp0 σ + 8 else σ.cpu.regs r) ∧
      υ.segs .ds = σ.segs .ds := by
  obtain ⟨hstack, hrsp⟩ := handlerEntry_spec v rsp0 errCode ret σ
  have hτ := h.holds hstack rfl
  have hτrsp : τ.cpu.regs .rsp = commonStack rsp0 σ - 136 := by
    rw [h.rsp, hrsp]
    bv_omega
  obtain ⟨hsaved, hpopped, hds⟩ := restoreSegment_spec hτ
  rw [hτrsp] at hpopped
  intro υ
  have hυ : υ = run isrCommonExit τ := rfl
  rw [isrCommonExit, run_append, run_append, run_cpu] at hυ
  generalize run [.cpu (.pop .rax), .movSeg .ds, .movSeg .es, .movSeg .fs, .movSeg .gs] τ = ρ
    at hsaved hpopped hds hυ
  have hback : commonStack rsp0 σ = ρ.cpu.regs .rsp + 128 := by
    rw [hpopped]
    bv_omega
  obtain ⟨habove, hregs, -⟩ := Cpu.popAll_spec hback hsaved
  have hcpu : υ.cpu = (ρ.cpu.run popAll).exec (.addImm .rsp 8) := by
    rw [hυ]
    rfl
  have hregs' : ∀ r, υ.cpu.regs r =
      if r = .rsp then commonStack rsp0 σ + 8 else σ.cpu.regs r := by
    intro r
    rw [hcpu, Cpu.exec_addImm, Cpu.regs_set, hregs, hregs, if_pos rfl]
    by_cases hr : r = .rsp <;> simp only [hr, if_true, if_false]
  refine ⟨?_, hregs', ?_⟩
  · rw [Cpu.Holds, hregs, if_pos rfl] at habove
    rw [Cpu.Holds, hregs', if_pos rfl, hcpu, Cpu.exec_addImm, Cpu.mem_set]
    exact habove.2
  · rw [hυ]
    exact hds

/-- One of the two words below the return frame is still on the stack. -/
theorem rsp_exit {v : Fin 21} {rsp0 errCode ret : Word} {σ τ : Machine}
    (h : Returned (handlerEntry v rsp0 errCode ret σ) τ) :
    (run isrCommonExit τ).cpu.regs .rsp = returnFrame v rsp0 errCode σ - 8 := by
  rw [(exit_spec h).2.1, if_pos rfl, returnFrame_eq]
  bv_omega

theorem not_restored_of_rsp {v : Fin 21} {rsp0 errCode : Word} {σ τ : Machine}
    (h : τ.cpu.regs .rsp = returnFrame v rsp0 errCode σ - 8) :
    ¬ Restored v rsp0 errCode σ τ := by
  intro hrestored
  have heq := hrestored.rsp
  rw [h] at heq
  bv_omega

/-- At `iretq` the registers and the data segment are restored, but the stack pointer is at
the error code below the return frame, which `iretq` takes for the address to return to. So
no interrupted state is restored. -/
theorem exit_not_restored (v : Fin 21) (rsp0 errCode ret : Word) {σ τ : Machine}
    (h : Returned (handlerEntry v rsp0 errCode ret σ) τ) :
    let υ := run isrCommonExit τ
    (∀ r ≠ .rsp, υ.cpu.regs r = σ.cpu.regs r) ∧ υ.segs .ds = σ.segs .ds ∧
      υ.cpu.regs .rsp = returnFrame v rsp0 errCode σ - 8 ∧
      (υ.cpu.exec .iretq).rip = (if hasErrorCode v then errCode else 0) ∧
      ¬ Restored v rsp0 errCode σ υ := by
  intro υ
  obtain ⟨hstack, hregs, hds⟩ := exit_spec h
  have hrsp := rsp_exit h
  refine ⟨?_, hds, hrsp, hstack.1, not_restored_of_rsp hrsp⟩
  intro r hr
  rw [hregs, if_neg hr]

/-- A handler that returns at once. -/
def returnAtOnce (σ : Machine) : Machine :=
  { σ with cpu := σ.cpu.set .rsp (σ.cpu.regs .rsp + 8) }

theorem returned_returnAtOnce (σ : Machine) : Returned σ (returnAtOnce σ) :=
  ⟨by simp [returnAtOnce], fun _ _ => rfl⟩

/-- The kernel with its stack at `0x9000`. -/
def sampleMachine : Machine where
  cpu :=
    { regs := fun r => if r = .rsp then 0x9000 else 0
      mem := fun _ => 0
      saved := fun _ => 0
      rip := 0x101000
      rflags := 0x202
      xmm := fun _ => 0 }
  segs := fun _ => 0x10
  cs := 0x08
  ss := 0x10

/-- A page fault with the error code 2: the registers come back, and `iretq` would jump to
address 2. -/
theorem exit_pageFault :
    Returned (handlerEntry 14 0x130000 2 0x101500 sampleMachine)
        (returnAtOnce (handlerEntry 14 0x130000 2 0x101500 sampleMachine)) ∧
      ((run isrCommonExit (returnAtOnce
        (handlerEntry 14 0x130000 2 0x101500 sampleMachine))).cpu.exec .iretq).rip = 2 := by
  have h := returned_returnAtOnce (handlerEntry 14 0x130000 2 0x101500 sampleMachine)
  exact ⟨h, (exit_not_restored 14 0x130000 2 0x101500 h).2.2.2.1⟩

/-- A division by zero, with a dummy error code: it stays on the stack as well. -/
theorem exit_divisionByZero :
    ¬ Restored 0 0x130000 0 sampleMachine (run isrCommonExit (returnAtOnce
      (handlerEntry 0 0x130000 0 0x101500 sampleMachine))) :=
  not_restored_of_rsp (rsp_exit (returned_returnAtOnce _))

end IsrStubs
end BootableKernel
