import BootableKernel.Machine.Cpu
import BootableKernel.Memory.Mmu

/-!
# The exception handler

`isr_handler` prints what is known about an exception and stops. For a page fault it also
prints the entries of the four page tables that the faulting address goes through, each
read through a pointer made from the entry before. `follows_iff` says when these pointers
lead to page tables.

The handler is given as the list of what it does: the texts it logs, the table entries it
loads, and the table pointers it makes. Strings are passed by their text.
-/

namespace BootableKernel

/-- `ISR_Frame`. -/
structure IsrFrame where
  ds : Word
  r15 : Word
  r14 : Word
  r13 : Word
  r12 : Word
  r11 : Word
  r10 : Word
  r9 : Word
  r8 : Word
  ax : Word
  cx : Word
  dx : Word
  bx : Word
  uselessSp : Word
  bp : Word
  si : Word
  di : Word
  intNo : Word
  errCode : Word
  ip : Word
  cs : Word
  eFlags : Word
  sp : Word
  ss : Word

namespace Exceptions

/-- An argument of `log`. -/
inductive Arg
  | num (w : Word)
  | str (s : String)

/-- What the handler does. -/
inductive Action
  | log (fmt : String) (args : List Arg)
  /-- Load an entry of a page table. -/
  | load (table : ℕ) (i : Index)
  /-- Make a table pointer from an entry. -/
  | follow (e : Entry) (table : ℕ)

/-- `exceptions`. -/
def exceptions : List String :=
  ["Division By Zero", "Debug", "Non-maskable Interrupt", "Breakpoint", "Overflow",
    "Bound Range Exceeded", "Invalid Opcode", "Device Not Available", "Double Fault",
    "Coprocessor Segment Overrun", "Invalid TSS", "Segment Not Present", "Stack-Segment Fault",
    "General Protection Fault", "Page Fault", "Reserved", "x87 Floating-Point Exception",
    "Alignment Check", "Machine Check", "SIMD Floating-Point Exception",
    "Virtualization Exception"]

/-- `sources`. -/
def sources : List String := ["GDT", "IDT", "LDT", "IDT"]

/-- Print the exception type. -/
def header (intNo : Word) : List Action :=
  match exceptions[intNo.toNat]? with
  | some name => [.log "\nException: %s\n" [.str name]]
  | none => [.log "\nUnknown exception: %lu\n" [.num intNo]]

/-- Case 13. -/
def generalProtection (errCode : Word) : List Action :=
  if errCode = 0 then []
  else if errCode &&& 1 ≠ 0 then [.log "Exception of external origin\n" []]
  else
    [.log "Source: %s\n" [.str (sources.getD ((errCode >>> 1) &&& 0x3).toNat "")],
      .log "Selector index: %lu\n" [.num ((errCode >>> 3) &&& 0x1ffff)]]

/-- The texts of case 14. -/
def pageFault (errCode address : Word) : List Action :=
  [.log "Address: %lx (%lu)\n" [.num address, .num address],
    .log (if errCode &&& 1 ≠ 0 then "Page-protection violation\n" else "Non-present page\n") [],
    .log (if errCode &&& 2 ≠ 0 then "Write access\n" else "Read access\n") [],
    .log "Caused by process in ring %d\n" [.num (if errCode &&& 4 ≠ 0 then 3 else 0)]] ++
  (if errCode &&& 8 ≠ 0 then
    [.log "One or more page directory entries contain reserved bits which are set to 1\n" []]
  else []) ++
  if errCode &&& 16 ≠ 0 then [.log "Caused by an instruction fetch\n" []] else []

/-- Print an entry of a table. -/
def showEntry (fmt : String) (table : ℕ) (i : Index) (shown : Entry) : List Action :=
  [.load table i, .log fmt [.num (BitVec.ofNat 64 i.val), .num shown]]

section Trace
variable (P : Platform) (σ : Paging) (address : Word)

/-- Trace the paging structures. -/
def traceTables : List Action :=
  let i4 := pt4Index address.toNat
  let i3 := pt3Index address.toNat
  let i2 := pt2Index address.toNat
  let i1 := pageIndex address.toNat
  let p4 := P.pt4
  let p3 := (σ.mem p4 i4 &&& lowMask).toNat
  let p2 := (σ.mem p3 i3 &&& lowMask).toNat
  let p1 := (σ.mem p2 i2 &&& lowMask).toNat
  [.log "PML4T at: %p\n" [.num (BitVec.ofNat 64 p4)]] ++
    showEntry "PML4T entry %u : %lx\n" p4 i4 (σ.mem p4 i4) ++
    [.follow (σ.mem p4 i4) p3] ++
    showEntry "PDPT entry %u: %lx\n" p3 i3 (σ.mem p3 i3) ++
    [.follow (σ.mem p3 i3) p2] ++
    showEntry "PDT entry %u: %lx\n" p2 i2 (σ.mem p2 i2) ++
    [.follow (σ.mem p2 i2) p1] ++
    showEntry "PT entry %u: %lx\n" p1 i1 (σ.mem p1 i1 &&& 0xffffffffffff)

end Trace

/-- The register dump. -/
def registers (regs : IsrFrame) : List Action :=
  [.log "Registers:\nA: %lx | B: %lx | C: %lx | D: %lx\n"
      [.num regs.ax, .num regs.bx, .num regs.cx, .num regs.dx],
    .log "DI: %lx | SI: %lx\nIP: %lx\nBP: %lx | SP: %lx\n"
      [.num regs.di, .num regs.si, .num regs.ip, .num regs.bp, .num regs.sp],
    .log "CS: %lx | DS: %lx | SS: %lx | EFLAGS: %lx\n"
      [.num regs.cs, .num regs.ds, .num regs.ss, .num regs.eFlags],
    .log "R8: %lx | R9: %lx | R10: %lx | R11: %lx\n"
      [.num regs.r8, .num regs.r9, .num regs.r10, .num regs.r11],
    .log "R12: %lx | R13: %lx | R14: %lx | R15: %lx\n"
      [.num regs.r12, .num regs.r13, .num regs.r14, .num regs.r15]]

/-- The stack trace: ten words from the stack pointer on. -/
def stackTrace (m : ByteMemory) (sp : Word) : List Action :=
  .log "Stack trace:\n" [] :: (List.range 10).map fun i =>
    .log "%p | %lx\n" [.num (sp + BitVec.ofNat 64 (8 * i)),
      .num (ByteMemory.read 64 m (sp + BitVec.ofNat 64 (8 * i)))]

/-- `isr_handler`, up to its endless loop; `cr2` is the faulting address. -/
def isrHandler (P : Platform) (σ : Paging) (m : ByteMemory) (cr2 : Word) (regs : IsrFrame) :
    List Action :=
  header regs.intNo ++
    (if regs.intNo = 13 then generalProtection regs.errCode
    else if regs.intNo = 14 then pageFault regs.errCode cr2 ++ traceTables P σ cr2
    else []) ++
    registers regs ++ stackTrace m regs.sp

/-! ## Where the pointers lead -/

/-- Table pointers are made from present entries only and are the frame addresses of these,
and entries are loaded only through such pointers and from the root table. -/
def Follows (P : Platform) (as : List Action) : Prop :=
  (∀ e t, Action.follow e t ∈ as → isPresent e = true ∧ t = physicalFrame e) ∧
    ∀ t i, Action.load t i ∈ as → t = P.pt4 ∨ ∃ e, Action.follow e t ∈ as

/-- The table an entry designates to the processor. -/
def tableOf (e : Entry) : Option ℕ := if isPresent e then some (physicalFrame e) else none

/-- The entry at a path of the tables, as the processor walks them. -/
def entryAt (P : Platform) (σ : Paging) (x : List Index × Index) : Entry :=
  Radix.view tableOf 0 σ.mem P.pt4 x.1 x.2

/-- The entry is present, and no bit above its address is set. -/
def Plain (e : Entry) : Prop := isPresent e = true ∧ e.toNat < 2 ^ 52

theorem toNat_and_lowMask (e : Entry) : (e &&& lowMask).toNat = e.toNat / 4096 * 4096 := by
  have he := e.isLt
  rw [toNat_and_field e (show lowMask.toNat = (2 ^ 52 - 1) * 2 ^ 12 by decide)]
  omega

theorem plain_iff (e : Entry) :
    Plain e ↔ isPresent e = true ∧ (e &&& lowMask).toNat = physicalFrame e := by
  have hlt := e.isLt
  rw [Plain, toNat_and_lowMask, physicalFrame, pageBase]
  apply and_congr_right
  intro _
  omega

/-- A pointer made from a plain entry is what the processor follows. -/
theorem Plain.tableOf_eq {e : Entry} (h : Plain e) : tableOf e = some (e &&& lowMask).toNat := by
  obtain ⟨hp, hframe⟩ := (plain_iff e).mp h
  rw [tableOf, if_pos hp, hframe]

/-- Nothing but texts. -/
def Texts (as : List Action) : Prop := ∀ a ∈ as, ∃ fmt args, a = .log fmt args

theorem texts_append {as bs : List Action} (ha : Texts as) (hb : Texts bs) : Texts (as ++ bs) :=
  List.forall_mem_append.mpr ⟨ha, hb⟩

theorem texts_header (intNo : Word) : Texts (header intNo) := by
  unfold header
  split
  · exact List.forall_mem_singleton.mpr ⟨_, _, rfl⟩
  · exact List.forall_mem_singleton.mpr ⟨_, _, rfl⟩

theorem texts_pageFault (errCode address : Word) : Texts (pageFault errCode address) := by
  refine texts_append (texts_append ?_ ?_) ?_
  · simp [Texts]
  · split <;> simp [Texts]
  · split <;> simp [Texts]

theorem texts_registers (regs : IsrFrame) : Texts (registers regs) := by
  simp [Texts, registers]

theorem texts_stackTrace (m : ByteMemory) (sp : Word) : Texts (stackTrace m sp) := by
  refine List.forall_mem_cons.mpr ⟨⟨_, _, rfl⟩, fun a ha => ?_⟩
  obtain ⟨i, -, rfl⟩ := List.mem_map.mp ha
  exact ⟨_, _, rfl⟩

/-- Texts do not touch the tables. -/
theorem follows_between {P : Platform} {as bs cs : List Action} (ha : Texts as) (hc : Texts cs) :
    Follows P (as ++ bs ++ cs) ↔ Follows P bs := by
  have hmem : ∀ a : Action, (∀ fmt args, a ≠ .log fmt args) → (a ∈ as ++ bs ++ cs ↔ a ∈ bs) := by
    intro a hno
    rw [List.mem_append, List.mem_append]
    constructor
    · rintro ((h | h) | h)
      · obtain ⟨fmt, args, he⟩ := ha a h
        exact absurd he (hno fmt args)
      · exact h
      · obtain ⟨fmt, args, he⟩ := hc a h
        exact absurd he (hno fmt args)
    · exact fun h => .inl (.inr h)
  have hfollow : ∀ e t, Action.follow e t ∈ as ++ bs ++ cs ↔ Action.follow e t ∈ bs :=
    fun e t => hmem _ (by simp)
  have hload : ∀ t i, Action.load t i ∈ as ++ bs ++ cs ↔ Action.load t i ∈ bs :=
    fun t i => hmem _ (by simp)
  simp only [Follows, hfollow, hload]

section Trace
variable {P : Platform} {σ : Paging} {address : Word}

/-- The three pointers of the trace. -/
theorem follows_traceTables :
    Follows P (traceTables P σ address) ↔
      let e4 := σ.mem P.pt4 (pt4Index address.toNat)
      let e3 := σ.mem (e4 &&& lowMask).toNat (pt3Index address.toNat)
      let e2 := σ.mem (e3 &&& lowMask).toNat (pt2Index address.toNat)
      Plain e4 ∧ Plain e3 ∧ Plain e2 := by
  simp only [plain_iff]
  constructor
  · intro h
    refine ⟨h.1 _ _ ?_, h.1 _ _ ?_, h.1 _ _ ?_⟩ <;> simp [traceTables]
  · rintro ⟨h4, h3, h2⟩
    constructor
    · intro e t h
      simp only [traceTables, showEntry, List.cons_append, List.nil_append, List.mem_cons,
        Action.follow.injEq, reduceCtorEq, false_or, List.not_mem_nil, or_false] at h
      rcases h with ⟨rfl, rfl⟩ | ⟨rfl, rfl⟩ | ⟨rfl, rfl⟩
      · exact h4
      · exact h3
      · exact h2
    · intro t i h
      simp only [traceTables, showEntry, List.cons_append, List.nil_append, List.mem_cons,
        Action.load.injEq, Action.follow.injEq, reduceCtorEq, false_or, List.not_mem_nil,
        or_false] at h ⊢
      rcases h with ⟨rfl, -⟩ | ⟨rfl, -⟩ | ⟨rfl, -⟩ | ⟨rfl, -⟩
      · exact .inl rfl
      · exact .inr ⟨_, .inl ⟨rfl, rfl⟩⟩
      · exact .inr ⟨_, .inr (.inl ⟨rfl, rfl⟩)⟩
      · exact .inr ⟨_, .inr (.inr ⟨rfl, rfl⟩)⟩

/-- As long as the entries are plain, the handler sees what the processor sees. -/
theorem plain_dirs_iff :
    (∀ x ∈ Paging.dirsOf address.toNat, Plain (entryAt P σ x)) ↔
      let e4 := σ.mem P.pt4 (pt4Index address.toNat)
      let e3 := σ.mem (e4 &&& lowMask).toNat (pt3Index address.toNat)
      let e2 := σ.mem (e3 &&& lowMask).toNat (pt2Index address.toNat)
      Plain e4 ∧ Plain e3 ∧ Plain e2 := by
  simp only [Paging.dirsOf, List.forall_mem_cons, List.not_mem_nil, false_imp_iff, implies_true,
    and_true]
  apply and_congr_right
  intro h4
  have h4 : Plain (σ.mem P.pt4 (pt4Index address.toNat)) := h4
  have hwalk4 : Radix.walk tableOf σ.mem P.pt4 [pt4Index address.toNat] =
      some (σ.mem P.pt4 (pt4Index address.toNat) &&& lowMask).toNat := by
    rw [Radix.walk, h4.tableOf_eq, Option.bind_some, Radix.walk_nil]
  have he3 : entryAt P σ ([pt4Index address.toNat], pt3Index address.toNat) =
      σ.mem (σ.mem P.pt4 (pt4Index address.toNat) &&& lowMask).toNat (pt3Index address.toNat) :=
    Radix.view_of_walk hwalk4 _
  rw [he3]
  apply and_congr_right
  intro h3
  have hwalk3 : Radix.walk tableOf σ.mem P.pt4 [pt4Index address.toNat, pt3Index address.toNat] =
      some (σ.mem (σ.mem P.pt4 (pt4Index address.toNat) &&& lowMask).toNat
        (pt3Index address.toNat) &&& lowMask).toNat := by
    rw [Radix.walk, h4.tableOf_eq, Option.bind_some, Radix.walk, h3.tableOf_eq, Option.bind_some,
      Radix.walk_nil]
  have he2 : entryAt P σ ([pt4Index address.toNat, pt3Index address.toNat],
        pt2Index address.toNat) =
      σ.mem (σ.mem (σ.mem P.pt4 (pt4Index address.toNat) &&& lowMask).toNat
        (pt3Index address.toNat) &&& lowMask).toNat (pt2Index address.toNat) :=
    Radix.view_of_walk hwalk3 _
  rw [he2]

end Trace

/-- For a page fault, only the trace touches the tables. -/
theorem follows_isrHandler (P : Platform) (σ : Paging) (m : ByteMemory) (cr2 : Word)
    {regs : IsrFrame} (h : regs.intNo = 14) :
    Follows P (isrHandler P σ m cr2 regs) ↔ Follows P (traceTables P σ cr2) := by
  have hne : regs.intNo ≠ 13 := by
    rw [h]
    decide
  have hsplit : isrHandler P σ m cr2 regs =
      header regs.intNo ++ pageFault regs.errCode cr2 ++ traceTables P σ cr2 ++
        (registers regs ++ stackTrace m regs.sp) := by
    rw [isrHandler, if_neg hne, if_pos h]
    simp only [List.append_assoc]
  rw [hsplit]
  apply follows_between
  · exact texts_append (texts_header _) (texts_pageFault _ _)
  · exact texts_append (texts_registers _) (texts_stackTrace _ _)

/-- For a page fault, the handler follows pointers to page tables only, if and only if the
directory entries that the faulting address goes through are present and have no bit set
above their address. -/
theorem follows_iff (P : Platform) (σ : Paging) (m : ByteMemory) (cr2 : Word) {regs : IsrFrame}
    (h : regs.intNo = 14) :
    Follows P (isrHandler P σ m cr2 regs) ↔
      ∀ x ∈ Paging.dirsOf cr2.toNat, Plain (entryAt P σ x) := by
  rw [follows_isrHandler P σ m cr2 h, follows_traceTables, plain_dirs_iff]

/-- A frame for exception 14, with all registers clear. -/
def sampleFrame (errCode : Word) : IsrFrame where
  ds := 0
  r15 := 0
  r14 := 0
  r13 := 0
  r12 := 0
  r11 := 0
  r10 := 0
  r9 := 0
  r8 := 0
  ax := 0
  cx := 0
  dx := 0
  bx := 0
  uselessSp := 0
  bp := 0
  si := 0
  di := 0
  intNo := 14
  errCode := errCode
  ip := 0
  cs := 0
  eFlags := 0
  sp := 0
  ss := 0

/-- The directories of the small image: entry `0` leads to the next table. -/
theorem sample_mem {d : ℕ} (hd : d < 3) (i : Index) :
    Boot.sample.paging.mem (0x10000 + 0x1000 * d) i =
      if i = 0 then BitVec.ofNat 64 (0x10000 + 0x1000 * (d + 1)) ||| mapFlags true else 0 :=
  Boot.sample.mem_table hd i

/-- A write to a page of the kernel image with the tables of the boot. -/
theorem follows_kernel_page :
    (sampleFrame 3).intNo = 14 ∧
      Follows Boot.sample.platform (isrHandler Boot.sample.platform Boot.sample.paging
        (fun _ => 0) 0x18000 (sampleFrame 3)) := by
  have h4 : Boot.sample.paging.mem 0x10000 0 = 0x11003 := sample_mem (d := 0) (by decide) 0
  have h3 : Boot.sample.paging.mem 0x11000 0 = 0x12003 := sample_mem (d := 1) (by decide) 0
  have h2 : Boot.sample.paging.mem 0x12000 0 = 0x13003 := sample_mem (d := 2) (by decide) 0
  have hplain : Plain 0x11003 ∧ Plain 0x12003 ∧ Plain 0x13003 := by
    unfold Plain
    decide
  refine ⟨rfl, (follows_iff _ _ _ _ rfl).mpr (plain_dirs_iff.mpr ?_)⟩
  have i4 : pt4Index (0x18000 : Word).toNat = 0 := by decide
  have i3 : pt3Index (0x18000 : Word).toNat = 0 := by decide
  have i2 : pt2Index (0x18000 : Word).toNat = 0 := by decide
  have f4 : ((0x11003 : Entry) &&& lowMask).toNat = 0x11000 := by decide
  have f3 : ((0x12003 : Entry) &&& lowMask).toNat = 0x12000 := by decide
  have hroot : Boot.sample.platform.pt4 = 0x10000 := rfl
  simp only [i4, i3, i2, hroot, h4, f4, h3, f3, h2]
  exact hplain

/-- At 1 GB nothing is mapped: the second entry of the second table is clear, and the handler
takes address `0` for the next table. -/
theorem not_follows_gigabyte :
    ¬ Follows Boot.sample.platform (isrHandler Boot.sample.platform Boot.sample.paging
      (fun _ => 0) 0x40000000 (sampleFrame 0)) := by
  rw [follows_isrHandler _ _ _ _ rfl, follows_traceTables]
  have h4 : Boot.sample.paging.mem 0x10000 0 = 0x11003 := sample_mem (d := 0) (by decide) 0
  have h3 : Boot.sample.paging.mem 0x11000 1 = 0 := sample_mem (d := 1) (by decide) 1
  have i4 : pt4Index (0x40000000 : Word).toNat = 0 := by decide
  have i3 : pt3Index (0x40000000 : Word).toNat = 1 := by decide
  have f4 : ((0x11003 : Entry) &&& lowMask).toNat = 0x11000 := by decide
  have hroot : Boot.sample.platform.pt4 = 0x10000 := rfl
  simp only [i4, i3, hroot, h4, f4, h3]
  intro h
  exact absurd h.2.1.1 (by decide)

end Exceptions
end BootableKernel
