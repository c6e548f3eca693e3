import BootableKernel.Machine.Cpu
import Mathlib.Tactic.FinCases

/-!
# Asking the processor for features

`query_cpu` in `cpuid.asm` selects one of the four registers that `cpuid` answers in and
tests a bit of it. The caller in C takes the answer from `eax`, but what the routine
computes are the flags: it exchanges the mask and the register before the test, so `eax`
is left with the whole register.
-/

namespace BootableKernel
namespace Cpuid

/-- What `cpuid` answers. -/
structure Response where
  eax : BitVec 32
  ebx : BitVec 32
  ecx : BitVec 32
  edx : BitVec 32

/-- The answers of a processor by page and subpage. -/
abbrev Processor := BitVec 32 → BitVec 32 → Response

/-- The low half of a register. -/
def low (σ : Cpu) (r : Reg) : BitVec 32 := (σ.regs r).setWidth 32

/-- A write to the low half of a register clears the high half. -/
def setLow (σ : Cpu) (r : Reg) (v : BitVec 32) : Cpu := σ.set r (v.setWidth 64)

/-- The instruction. -/
def cpuid (p : Processor) (σ : Cpu) : Cpu :=
  let a := p (low σ .rax) (low σ .rcx)
  setLow (setLow (setLow (setLow σ .rax a.eax) .rbx a.ebx) .rcx a.ecx) .rdx a.edx

/-- `xchg`. -/
def xchg (r r' : Reg) (σ : Cpu) : Cpu := (σ.set r (σ.regs r')).set r' (σ.regs r)

/-- The selected register, in `r8`. Selectors above 2 fall through to `edx`. -/
def readSelected (σ : Cpu) : Cpu :=
  if low σ .rsi = 0 then Cpu.exec (.mov .r8 .rax) σ
  else if low σ .rsi = 1 then Cpu.exec (.mov .r8 .rbx) σ
  else if low σ .rsi = 2 then Cpu.exec (.mov .r8 .rcx) σ
  else Cpu.exec (.mov .r8 .rdx) σ

/-- From the entry to `cpuid`. -/
def ask (p : Processor) (σ : Cpu) : Cpu :=
  let σ := Cpu.run [.push .rbx, .push .rdx] σ
  let σ := setLow σ .rax (low σ .rdi)
  let σ := setLow σ .rcx 0
  cpuid p σ

/-- From the label `.process` to the test. -/
def process (σ : Cpu) : Cpu :=
  let σ := Cpu.exec (.pop .rcx) σ
  let σ := setLow σ .rax 1
  -- the count is taken from `cl`, modulo 32
  let σ := setLow σ .rax ((low σ .rax).rotateLeft (((σ.regs .rcx).setWidth 8).toNat % 32))
  xchg .rax .r8 σ

/-- `query_cpu` up to its `ret`, with the zero flag of its test. -/
def queryCpu (p : Processor) (σ : Cpu) : Cpu × Bool :=
  let σ := process (readSelected (ask p σ))
  (Cpu.exec (.pop .rbx) σ, decide (σ.regs .rax &&& σ.regs .r8 = 0))

/-- The registers with the arguments of a call. The high halves are whatever they were. -/
def withArguments (σ : Cpu) (page reg bit : BitVec 32) : Cpu :=
  let put (σ : Cpu) (r : Reg) (v : BitVec 32) : Cpu :=
    σ.set r ((σ.regs r).extractLsb' 32 32 ++ v)
  put (put (put σ .rdi page) .rsi reg) .rdx bit

/-- What the C code receives. -/
def callQueryCpu (p : Processor) (σ : Cpu) (page reg bit : BitVec 32) : BitVec 32 :=
  low (queryCpu p (withArguments σ page reg bit)).1 .rax

/-- The register of an answer by its number. -/
def Response.register (a : Response) : Fin 4 → BitVec 32
  | 0 => a.eax
  | 1 => a.ebx
  | 2 => a.ecx
  | 3 => a.edx

/-! ## The routine -/

@[simp] theorem regs_setLow (σ : Cpu) (r : Reg) (v : BitVec 32) (r' : Reg) :
    (setLow σ r v).regs r' = if r' = r then v.setWidth 64 else σ.regs r' :=
  Cpu.regs_set σ r (v.setWidth 64) r'

@[simp] theorem setWidth_low (v : BitVec 32) : (v.setWidth 64).setWidth 32 = v := by
  ext i hi
  simp

@[simp] theorem setWidth_append_low (high v : BitVec 32) : (high ++ v).setWidth 32 = v :=
  BitVec.setWidth_append_eq_right

theorem holds_setLow {σ : Cpu} {ws : List Word} (h : σ.Holds ws) {r : Reg} (hr : r ≠ .rsp)
    (v : BitVec 32) : (setLow σ r v).Holds ws :=
  h.set hr (v.setWidth 64)

/-- The arguments, where the routine finds them. -/
@[simp] theorem regs_withArguments (σ : Cpu) (page reg bit : BitVec 32) (r : Reg) :
    (withArguments σ page reg bit).regs r =
      if r = .rdx then (σ.regs .rdx).extractLsb' 32 32 ++ bit
      else if r = .rsi then (σ.regs .rsi).extractLsb' 32 32 ++ reg
      else if r = .rdi then (σ.regs .rdi).extractLsb' 32 32 ++ page
      else σ.regs r := by
  cases r <;> simp [withArguments]

/-- Before the selection the registers hold the answer. -/
@[simp] theorem regs_ask (p : Processor) (σ : Cpu) (r : Reg) :
    (ask p σ).regs r =
      if r = .rdx then (p (low σ .rdi) 0).edx.setWidth 64
      else if r = .rcx then (p (low σ .rdi) 0).ecx.setWidth 64
      else if r = .rbx then (p (low σ .rdi) 0).ebx.setWidth 64
      else if r = .rax then (p (low σ .rdi) 0).eax.setWidth 64
      else if r = .rsp then σ.regs .rsp - 8 - 8
      else σ.regs r := by
  cases r <;> simp [ask, cpuid, low]

/-- The stack holds the bit index and the `rbx` of the caller. -/
theorem holds_ask (p : Processor) (σ : Cpu) :
    (ask p σ).Holds [σ.regs .rdx, σ.regs .rbx] := by
  have hstack : (Cpu.run [.push .rbx, .push .rdx] σ).Holds [σ.regs .rdx, σ.regs .rbx] :=
    ((Cpu.holds_nil σ).push (σ.regs .rbx) (by decide)).push (σ.regs .rdx) (by simp)
  unfold ask cpuid
  refine holds_setLow (holds_setLow (holds_setLow (holds_setLow ?_ ?_ _) ?_ _) ?_ _) ?_ _
  · exact holds_setLow (holds_setLow hstack (by decide) _) (by decide) _
  all_goals decide

/-- The register with the given number is in `r8`, and nothing else changes. -/
theorem readSelected_ask (p : Processor) (σ : Cpu) (reg : Fin 4)
    (hreg : low σ .rsi = BitVec.ofNat 32 reg) :
    readSelected (ask p σ) =
      (ask p σ).set .r8 (((p (low σ .rdi) 0).register reg).setWidth 64) := by
  have hsel : low (ask p σ) .rsi = BitVec.ofNat 32 reg := by
    rw [← hreg]
    simp [low]
  unfold readSelected
  rw [hsel]
  fin_cases reg <;> simp [Response.register]

/-- The exchange leaves the register in `rax` and the mask in `r8`. -/
theorem regs_process {σ : Cpu} {index : Word} {ws : List Word} (h : σ.Holds (index :: ws)) :
    (process σ).regs .rax = σ.regs .r8 ∧
      (process σ).regs .r8 =
        ((1#32).rotateLeft ((index.setWidth 8).toNat % 32)).setWidth 64 := by
  have hindex : σ.mem.read 64 (σ.regs .rsp) = index := h.1
  constructor
  · simp [process, xchg, Cpu.exec]
  · simp [process, xchg, Cpu.exec, low, hindex]

theorem low_withArguments (σ : Cpu) (page reg bit : BitVec 32) :
    low (withArguments σ page reg bit) .rdi = page ∧
      low (withArguments σ page reg bit) .rsi = reg := by
  simp [low]

/-- At the test, `rax` holds the register and `r8` the mask. -/
theorem regs_test (p : Processor) (σ : Cpu) (page bit : BitVec 32) (reg : Fin 4) :
    let τ := process (readSelected (ask p
      (withArguments σ page (BitVec.ofNat 32 reg) bit)))
    τ.regs .rax = ((p page 0).register reg).setWidth 64 ∧
      τ.regs .r8 = ((1#32).rotateLeft ((bit.setWidth 8).toNat % 32)).setWidth 64 := by
  intro τ
  have hargs := low_withArguments σ page (BitVec.ofNat 32 reg) bit
  have hsel := readSelected_ask p (withArguments σ page (BitVec.ofNat 32 reg) bit) reg hargs.2
  have hstack := (holds_ask p (withArguments σ page (BitVec.ofNat 32 reg) bit)).set
    (show Reg.r8 ≠ .rsp by decide) (((p page 0).register reg).setWidth 64)
  have hindex : ((withArguments σ page (BitVec.ofNat 32 reg) bit).regs .rdx).setWidth 8 =
      bit.setWidth 8 := by
    rw [regs_withArguments, if_pos rfl]
    exact (BitVec.setWidth_append (x := (σ.regs .rdx).extractLsb' 32 32) (y := bit)).trans
      (dif_pos (by decide))
  rw [hargs.1] at hsel
  rw [← hsel] at hstack
  have hregs := regs_process hstack
  rw [hindex] at hregs
  refine ⟨?_, hregs.2⟩
  rw [hregs.1, hsel, Cpu.regs_set, if_pos rfl]

/-- The whole register is what C receives. -/
theorem callQueryCpu_eq (p : Processor) (σ : Cpu) (page bit : BitVec 32) (reg : Fin 4) :
    callQueryCpu p σ page (BitVec.ofNat 32 reg) bit = (p page 0).register reg := by
  have hrax := (regs_test p σ page bit reg).1
  rw [callQueryCpu, low, queryCpu]
  simp only [Cpu.exec, Cpu.regs_set, reduceCtorEq, if_false]
  rw [hrax, setWidth_low]

/-- The result answers the question exactly if the bit is set or the whole register is
zero. -/
theorem callQueryCpu_ne_zero_iff (p : Processor) (σ : Cpu) (page : BitVec 32) (reg : Fin 4)
    (bit : Fin 32) :
    (callQueryCpu p σ page (BitVec.ofNat 32 reg) (BitVec.ofNat 32 bit) ≠ 0 ↔
        ((p page 0).register reg).getLsbD bit = true) ↔
      ((p page 0).register reg).getLsbD bit = true ∨ (p page 0).register reg = 0 := by
  rw [callQueryCpu_eq]
  -- with a bit set the register is not zero
  have hset : (p page 0).register reg = 0 → ((p page 0).register reg).getLsbD bit = false := by
    intro h
    rw [h]
    exact BitVec.getLsbD_zero
  constructor
  · intro h
    by_cases hzero : (p page 0).register reg = 0
    · exact Or.inr hzero
    · exact Or.inl (h.mp hzero)
  · intro h
    constructor
    · intro hne
      exact h.resolve_right hne
    · intro hbit hzero
      rw [hset hzero] at hbit
      cases hbit

/-- A processor that has `SSE3`, bit 0 of `ecx`, and nothing else. It is said to have
`SSSE3` too, which is bit 9. -/
theorem callQueryCpu_ssse3 :
    ¬ (callQueryCpu (fun _ _ => ⟨0, 0, 1, 0⟩)
        ⟨fun _ => 0, fun _ => 0, fun _ => 0, 0, 0, fun _ => 0⟩ 1 2 9 ≠ 0 ↔
      ((⟨0, 0, 1, 0⟩ : Response).register 2).getLsbD 9 = true) := by
  intro h
  have hbit : ((⟨0, 0, 1, 0⟩ : Response).register 2).getLsbD 9 = true := by
    apply h.mp
    intro hzero
    have hreg := (callQueryCpu_eq _ _ 1 9 2).symm.trans hzero
    exact absurd hreg (by decide)
  exact absurd hbit (by decide)

end Cpuid
end BootableKernel
