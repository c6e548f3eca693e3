import Mathlib.Data.BitVec
import Mathlib.Data.List.FinRange

/-!
# Gates and the task state descriptor

Two tables of the processor split an address over several fields. `IDT.h` fills in the
interrupt gates and `Ring3.c` the descriptor of the task state segment. The processor puts
the fields together again, and the question is whether the address comes back.

It does for the task state segment, though the limit beside it is that of another
structure. It does not for every gate: the middle field is cut with a mask of twelve
bits, so bits 28 to 31 of a handler's address are lost, and whether a gate is right depends
on where the linker places its stub.
-/

namespace BootableKernel
namespace Descriptors

/-! ## Parts of an address -/

theorem getLsbD_mask {n i : ℕ} (hn : n ≤ 64) :
    (BitVec.ofNat 64 (2 ^ n - 1)).getLsbD i = decide (i < n) := by
  rw [BitVec.getLsbD_ofNat, Nat.testBit_two_pow_sub_one, ← Bool.decide_and]
  exact decide_eq_decide.mpr ⟨fun h => h.2, fun h => ⟨by omega, h⟩⟩

/-- A part of an address, stored in a field of `w` bits and moved back to its place. -/
theorem getLsbD_part {w n k i : ℕ} (x : BitVec 64) (hn : n ≤ w) (hk : k + n ≤ 64) :
    ((((x >>> k) &&& BitVec.ofNat 64 (2 ^ n - 1)).setWidth w).setWidth 64 <<< k).getLsbD i =
      (decide (k ≤ i ∧ i < k + n) && x.getLsbD i) := by
  simp only [BitVec.getLsbD_shiftLeft, BitVec.getLsbD_setWidth, BitVec.getLsbD_and,
    BitVec.getLsbD_ushiftRight, getLsbD_mask (show n ≤ 64 by omega)]
  by_cases hi : k ≤ i
  · have hback : k + (i - k) = i := by omega
    rw [hback]
    grind
  · simp [hi]

/-- The sign of a shifted address is not in the part. -/
theorem sshiftRight_and_mask {n k : ℕ} (x : BitVec 64) (hk : k + n ≤ 64) :
    x.sshiftRight k &&& BitVec.ofNat 64 (2 ^ n - 1) =
      (x >>> k) &&& BitVec.ofNat 64 (2 ^ n - 1) := by
  apply BitVec.eq_of_getLsbD_eq
  intro i hi
  simp only [BitVec.getLsbD_and, BitVec.getLsbD_sshiftRight, BitVec.getLsbD_ushiftRight,
    getLsbD_mask (show n ≤ 64 by omega)]
  grind

/-! ## Interrupt gates -/

structure IdtEntry where
  offset1 : BitVec 16
  selector : BitVec 16
  ist : BitVec 8
  typeAttr : BitVec 8
  offset2 : BitVec 16
  offset3 : BitVec 32
  zero : BitVec 32

abbrev Idt := Fin 256 → IdtEntry

/-- The table at boot. -/
def zeroTable : Idt := fun _ => ⟨0, 0, 0, 0, 0, 0, 0⟩

/-- The code segment of ring 0 is the second descriptor of the table in `gdt.asm`. -/
def gdt64Code : BitVec 64 := 8

/-- The entry that `register_with` writes; `irq_address` is a signed integer. -/
def gate (irq : BitVec 64) (flags : BitVec 8) : IdtEntry :=
  { offset1 := (irq &&& 0xffff).setWidth 16
    offset2 := (irq.sshiftRight 16 &&& 0xfff).setWidth 16
    offset3 := (irq.sshiftRight 32 &&& 0xffffffff).setWidth 32
    selector := gdt64Code.setWidth 16
    typeAttr := flags
    ist := 0
    zero := 0 }

def registerWith (irq : BitVec 64) (index : Fin 256) (flags : BitVec 8) (table : Idt) : Idt :=
  Function.update table index (gate irq flags)

def registerIsr (irq : BitVec 64) (index : Fin 256) : Idt → Idt := registerWith irq index 0x8f

def registerIrq (irq : BitVec 64) (index : Fin 256) : Idt → Idt := registerWith irq index 0x8e

/-- The address that the processor jumps to through a gate. -/
def IdtEntry.offset (e : IdtEntry) : BitVec 64 :=
  e.offset1.setWidth 64 ||| e.offset2.setWidth 64 <<< 16 ||| e.offset3.setWidth 64 <<< 32

/-- The gate leads to the handler, with the given flags, and no other entry changed. -/
def Registered (irq : BitVec 64) (index : Fin 256) (flags : BitVec 8) (table table' : Idt) :
    Prop :=
  (table' index).offset = irq ∧ (table' index).typeAttr = flags ∧
    ∀ j ≠ index, table' j = table j

/-- The part of an address that a gate loses is zero. -/
def Reachable (irq : BitVec 64) : Prop := ∀ i, 28 ≤ i → i < 32 → irq.getLsbD i = false

/-- The bits of the address that a gate keeps. -/
theorem getLsbD_offset_gate (irq : BitVec 64) (flags : BitVec 8) (i : ℕ) :
    (gate irq flags).offset.getLsbD i = (!decide (28 ≤ i ∧ i < 32) && irq.getLsbD i) := by
  have h1 := getLsbD_part (w := 16) (n := 16) (k := 0) (i := i) irq (by omega) (by omega)
  have h2 := getLsbD_part (w := 16) (n := 12) (k := 16) (i := i) irq (by omega) (by omega)
  have h3 := getLsbD_part (w := 32) (n := 32) (k := 32) (i := i) irq (by omega) (by omega)
  rw [← sshiftRight_and_mask irq (by omega)] at h2 h3
  have hbits : (gate irq flags).offset.getLsbD i =
      (decide (0 ≤ i ∧ i < 0 + 16) && irq.getLsbD i ||
        decide (16 ≤ i ∧ i < 16 + 12) && irq.getLsbD i ||
          decide (32 ≤ i ∧ i < 32 + 32) && irq.getLsbD i) := by
    rw [← h1, ← h2, ← h3]
    simp [gate, IdtEntry.offset]
  rw [hbits]
  grind

theorem offset_gate_iff (irq : BitVec 64) (flags : BitVec 8) :
    (gate irq flags).offset = irq ↔ Reachable irq := by
  constructor
  · intro h i hlo hhi
    have hbit := getLsbD_offset_gate irq flags i
    rw [h] at hbit
    simpa [hlo, hhi] using hbit
  · intro h
    apply BitVec.eq_of_getLsbD_eq
    intro i _
    rw [getLsbD_offset_gate]
    grind [Reachable]

/-- A gate leads to its handler exactly if bits 28 to 31 of the address are clear. -/
theorem registered_registerWith_iff (irq : BitVec 64) (index : Fin 256) (flags : BitVec 8)
    (table : Idt) :
    Registered irq index flags table (registerWith irq index flags table) ↔ Reachable irq := by
  rw [Registered, registerWith, Function.update_self, offset_gate_iff]
  constructor
  · intro h
    exact h.1
  · intro h
    refine ⟨h, rfl, ?_⟩
    intro j hj
    exact Function.update_of_ne hj _ _

/-- The first registration in a table that is still zero, with a handler at `0x10000000`:
the gate leads to address zero. -/
theorem registerWith_high_handler :
    ¬ Registered 0x10000000 0 0x8f zeroTable (registerWith 0x10000000 0 0x8f zeroTable) := by
  intro h
  have hoffset := h.1
  rw [registerWith, Function.update_self, offset_gate_iff] at hoffset
  have hbit := hoffset 28 (by decide) (by decide)
  exact absurd hbit (by decide)

/-! ## The table -/

/-- Where the linker places the stubs. -/
structure Stubs where
  isr : Fin 21 → BitVec 64
  irq : Fin 16 → BitVec 64

theorem isr_lt_table (i : Fin 21) : i.val < 256 := by omega

theorem irq_lt_table (i : Fin 16) : 32 + i.val < 256 := by omega

def isrIndex (i : Fin 21) : Fin 256 := ⟨i, isr_lt_table i⟩

/-- The requests of the controllers come after the exceptions. -/
def irqIndex (i : Fin 16) : Fin 256 := ⟨32 + i, irq_lt_table i⟩

/-- Handlers registered one after the other. -/
def registerAll {n : ℕ} (register : BitVec 64 → Fin 256 → Idt → Idt)
    (handler : Fin n → BitVec 64) (index : Fin n → Fin 256) (table : Idt) : Idt :=
  (List.finRange n).foldl (fun table i => register (handler i) (index i) table) table

structure IdtPointer where
  limit : BitVec 16
  base : BitVec 64

/-- The fields of `IDT_entry` have 2, 2, 1, 1, 2, 4 and 4 bytes. -/
def sizeofIdtEntry : ℕ := 16

/-- `IDT_init` up to the load of the table, which lies at `idtAddress`. -/
def idtInit (stubs : Stubs) (idtAddress : BitVec 64) (table : Idt) : Idt × IdtPointer :=
  let table := registerAll registerIsr stubs.isr isrIndex table
  let table := registerAll registerIrq stubs.irq irqIndex table
  (table, { limit := BitVec.ofNat 16 (sizeofIdtEntry * 256 - 1), base := idtAddress })

theorem irqIndex_injective : Function.Injective irqIndex := by
  intro i j h
  have hval := congrArg Fin.val h
  simp only [irqIndex] at hval
  omega

section RegisterAll

variable {n : ℕ} {handler : Fin n → BitVec 64} {index : Fin n → Fin 256} {flags : BitVec 8}

/-- An entry that no registration is for stays. -/
theorem foldl_registerWith_of_ne {k : Fin 256} (l : List (Fin n)) (h : ∀ i ∈ l, index i ≠ k)
    (table : Idt) :
    l.foldl (fun table i => registerWith (handler i) (index i) flags table) table k =
      table k := by
  induction l generalizing table with
  | nil => rfl
  | cons i l ih =>
      rw [List.foldl_cons, ih (fun j hj => h j (List.mem_cons_of_mem i hj))]
      exact Function.update_of_ne (h i List.mem_cons_self).symm _ _

/-- With one registration for each index, none overwrites another. -/
theorem foldl_registerWith (hindex : Function.Injective index) {l : List (Fin n)}
    (hl : l.Nodup) {i : Fin n} (hi : i ∈ l) (table : Idt) :
    l.foldl (fun table i => registerWith (handler i) (index i) flags table) table (index i) =
      gate (handler i) flags := by
  induction l generalizing table with
  | nil => exact absurd hi List.not_mem_nil
  | cons j l ih =>
      rw [List.nodup_cons] at hl
      rw [List.foldl_cons]
      by_cases hij : i = j
      · subst hij
        have hne : ∀ j ∈ l, index j ≠ index i := by
          intro j hj heq
          exact hl.1 (hindex heq ▸ hj)
        rw [foldl_registerWith_of_ne l hne]
        exact Function.update_self _ _ _
      · exact ih hl.2 ((List.mem_cons.mp hi).resolve_left hij) _

end RegisterAll

theorem idtInit_irq (stubs : Stubs) (idtAddress : BitVec 64) (table : Idt) (i : Fin 16) :
    (idtInit stubs idtAddress table).1 (irqIndex i) = gate (stubs.irq i) 0x8e :=
  foldl_registerWith irqIndex_injective (List.nodup_finRange 16) (List.mem_finRange i) _

/-! ## The task state segment -/

/-- The fields of `tss_t` in order. -/
inductive TssField where
  | reserved0 | rsp | reserved1 | ist | reserved2 | reserved3 | reserved4 | iopbOffset
  deriving DecidableEq

namespace TssField

/-- Bytes of a field; the structure is packed. -/
def size : TssField → ℕ
  | .reserved0 => 4
  | .rsp => 3 * 8
  | .reserved1 => 8
  | .ist => 7 * 8
  | .reserved2 => 4
  | .reserved3 => 4
  | .reserved4 => 2
  | .iopbOffset => 2

def all : List TssField :=
  [.reserved0, .rsp, .reserved1, .ist, .reserved2, .reserved3, .reserved4, .iopbOffset]

/-- The offset of a field: the fields before it. -/
def offset (f : TssField) : ℕ := ((all.takeWhile (· ≠ f)).map size).sum

end TssField

def sizeofTss : ℕ := (TssField.all.map TssField.size).sum

structure TssEntry where
  length : BitVec 16
  baseLow : BitVec 16
  baseMid : BitVec 8
  flags1 : BitVec 8
  flags2 : BitVec 8
  baseHigh : BitVec 8
  baseUpper : BitVec 32
  reserved : BitVec 32

/-- The fields of `tss_entry_t` have 2, 2, 1, 1, 1, 1, 4 and 4 bytes. -/
def sizeofTssEntry : ℕ := 16

/-- The part of `tss` that `setup_tss` writes. -/
structure Tss where
  rsp0 : BitVec 64
  iopbOffset : BitVec 16

/-- `setup_tss` with the addresses of `tss` and of `tss_stack_top`. -/
def setupTss (tss tssStackTop : BitVec 64) : TssEntry × Tss :=
  ({ length := BitVec.ofNat 16 (sizeofTssEntry - 1)
     baseLow := (tss &&& 0xffff).setWidth 16
     baseMid := (tss >>> 16 &&& 0xff).setWidth 8
     flags1 := 0x89
     flags2 := 0x20
     baseHigh := (tss >>> 24 &&& 0xff).setWidth 8
     baseUpper := (tss >>> 32).setWidth 32
     reserved := 0 },
   { rsp0 := tssStackTop
     iopbOffset := BitVec.ofNat 16 sizeofTss })

/-- What the processor loads from the descriptor. -/
structure Segment where
  base : BitVec 64
  limit : ℕ

/-- The low half of `flags2` are the high bits of the limit, its top bit is the unit. -/
def TssEntry.segment (e : TssEntry) : Segment :=
  let limit := ((e.flags2 &&& 0xf).setWidth 20 <<< 16 ||| e.length.setWidth 20).toNat
  { base := e.baseLow.setWidth 64 ||| e.baseMid.setWidth 64 <<< 16 |||
      e.baseHigh.setWidth 64 <<< 24 ||| e.baseUpper.setWidth 64 <<< 32
    limit := if e.flags2.getLsbD 7 then limit * 4096 + 4095 else limit }

/-- The segment is the `tss_t` object at an address: no field is beyond the limit. -/
structure Segment.Covers (s : Segment) (tss : BitVec 64) : Prop where
  base : s.base = tss
  limit : s.limit = sizeofTss - 1
  field (f : TssField) : f.offset + f.size ≤ s.limit + 1

/-- The address is put together again. -/
@[simp] theorem base_setupTss (tss tssStackTop : BitVec 64) :
    (setupTss tss tssStackTop).1.segment.base = tss := by
  apply BitVec.eq_of_getLsbD_eq
  intro i hi
  have h1 := getLsbD_part (w := 16) (n := 16) (k := 0) (i := i) tss (by omega) (by omega)
  have h2 := getLsbD_part (w := 8) (n := 8) (k := 16) (i := i) tss (by omega) (by omega)
  have h3 := getLsbD_part (w := 8) (n := 8) (k := 24) (i := i) tss (by omega) (by omega)
  have hbits : (setupTss tss tssStackTop).1.segment.base.getLsbD i =
      (decide (0 ≤ i ∧ i < 0 + 16) && tss.getLsbD i ||
        decide (16 ≤ i ∧ i < 16 + 8) && tss.getLsbD i ||
          decide (24 ≤ i ∧ i < 24 + 8) && tss.getLsbD i ||
            decide (32 ≤ i) && tss.getLsbD i) := by
    rw [← h1, ← h2, ← h3]
    simp [setupTss, TssEntry.segment]
    grind
  rw [hbits]
  grind

/-- The limit is that of the descriptor's own structure. -/
@[simp] theorem limit_setupTss (tss tssStackTop : BitVec 64) :
    (setupTss tss tssStackTop).1.segment.limit = 15 := by
  simp [setupTss, TssEntry.segment, sizeofTssEntry]

/-- The segment starts at the `tss_t` object and never covers it: the limit ends after the
first stack pointer, before the field `iopb_offset`. -/
theorem setupTss_not_covers (tss tssStackTop : BitVec 64) :
    (setupTss tss tssStackTop).1.segment.base = tss ∧
      (setupTss tss tssStackTop).1.segment.limit < TssField.iopbOffset.offset ∧
      ¬ (setupTss tss tssStackTop).1.segment.Covers tss := by
  have hlimit := limit_setupTss tss tssStackTop
  refine ⟨base_setupTss tss tssStackTop, ?_, ?_⟩
  · rw [hlimit]
    decide
  · intro h
    have hsize := h.limit
    rw [hlimit] at hsize
    exact absurd hsize (by decide)

/-- A `tss` at `0x120000` with the stack at `0x130000`: the limit is 15 and not 103. -/
theorem setupTss_limit_short :
    ¬ (setupTss 0x120000 0x130000).1.segment.Covers 0x120000 := by
  intro h
  have hsize := h.limit
  rw [limit_setupTss] at hsize
  exact absurd hsize (by decide)

end Descriptors
end BootableKernel
