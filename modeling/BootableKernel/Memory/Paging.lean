import BootableKernel.Lib.Radix
import BootableKernel.Memory.PMM

/-!
# Page tables

The four-level page tables of `VMM.c`: the walk of `vmm_map_memory` with its table
allocations, the mapping loop `ensure_pages_mapped`, and `set_page_permission`.

Physical memory is a map from frame addresses to frames of 512 words. The kernel
follows a table pointer by dereferencing the physical address it finds in an entry,
which is what the identity map of the first 2 MB is for, so a table is named by its
frame address throughout. A page-table allocation that fails yields the null pointer,
and the code goes on with it: the model then uses the frame at address `0`.

Interrupts are disabled around each walk and restored after it; the state here is
that of a single uninterrupted walk. `obtained` and `flushed` record the calls of the
frame allocators and the operands of `invlpg`.
-/

namespace BootableKernel

/-- A page-table entry, `uint64_t`. -/
abbrev Entry := BitVec 64

/-- An index into a table of 512 entries. -/
abbrev Index := Fin 512

instance instNeZeroIndex : NeZero 512 := ⟨by decide⟩

def presentBit : Entry := 0x1
def readWriteBit : Entry := 0x2
def userAccessBit : Entry := 0x4
/-- `NO_EXEC_BIT`, `1UL << 63`. -/
def noExecBit : Entry := 0x8000000000000000
def addressMask : Entry := 0xfffffff000
/-- `~0xfff`, an `int` that is sign-extended to 64 bits. -/
def lowMask : Entry := 0xfffffffffffff000
def directoryDefaults : Entry := readWriteBit ||| presentBit

/-- `HEAP_START`: the heap begins at 2 MB virtual. -/
def heapStart : ℕ := 0x200000

/-- `MAX_HEAP_SIZE`, in pages. -/
def maxHeapSize : ℕ := 256 * 126

/-- The first address past the heap. -/
def heapEnd : ℕ := heapStart + maxHeapSize * pageSize

def isPresent (e : Entry) : Bool := e &&& presentBit != 0
def isUser (e : Entry) : Bool := e &&& userAccessBit != 0
def isNoExec (e : Entry) : Bool := e &&& noExecBit != 0

/-- The frame address an entry holds. -/
def frameOf (e : Entry) : ℕ := (e &&& addressMask).toNat

/-- The frame a present entry designates. -/
def target (e : Entry) : Option ℕ := if isPresent e then some (frameOf e) else none

/-! ## Virtual addresses -/

/-- `(virtual >> shift) & 0x1ff`. -/
def indexAt (shift v : ℕ) : Index := ⟨v / 2 ^ shift % 512, Nat.mod_lt _ (by decide)⟩

def pt4Index (v : ℕ) : Index := indexAt 39 v
def pt3Index (v : ℕ) : Index := indexAt 30 v
def pt2Index (v : ℕ) : Index := indexAt 21 v
def pageIndex (v : ℕ) : Index := indexAt 12 v

/-- The path to the table that holds the leaf entry of `v`. -/
def tablePath (v : ℕ) : List Index := [pt4Index v, pt3Index v, pt2Index v]

/-! ## State -/

/-- What is fixed at boot: the root table (`cr3`) and the first free page. -/
structure Platform where
  pt4 : ℕ
  reservedStart : ℕ

/-- A frame asked for from the physical memory manager; frame `0` is a failed call. -/
inductive Obtained
  /-- For a page table. -/
  | table (frame : ℕ)
  /-- To back the page at `virtual`. -/
  | page (frame virtual : ℕ)
  deriving DecidableEq, Repr

/-- The frame a call returned. -/
def Obtained.frame : Obtained → ℕ
  | .table frame => frame
  | .page frame _ => frame

/-- The paging state. -/
structure Paging where
  bitmap : Bitmap
  /-- Physical memory by frame address and word. -/
  mem : ℕ → Index → Entry
  /-- The calls of the frame allocators, most recent first. -/
  obtained : List Obtained
  /-- The operands of `invlpg`, most recent first. -/
  flushed : List ℕ

namespace Paging
variable (P : Platform)

/-- `table->entries[i] = e`. -/
def store (σ : Paging) (table : ℕ) (i : Index) (e : Entry) : Paging :=
  { σ with mem := Radix.setEntry σ.mem table i e }

/-- `flush_tlb`. -/
def flushTlb (σ : Paging) (addr : ℕ) : Paging := { σ with flushed := addr :: σ.flushed }

/-- `allocate_page_table`: take a frame and clear it. -/
def allocatePageTable (σ : Paging) : ℕ × Paging :=
  let r := PMM.allocatePageTable P.reservedStart σ.bitmap
  (r.1, { σ with
    bitmap := r.2
    mem := Function.update σ.mem r.1 fun _ => 0
    obtained := .table r.1 :: σ.obtained })

/-- The frame behind a leaf that is being created: the caller's, or a fresh one. -/
def backingFrame (σ : Paging) (physical virtual : ℕ) : ℕ × Paging :=
  if physical = 0 then
    let r := PMM.allocatePage P.reservedStart σ.bitmap
    (r.1, { σ with bitmap := r.2, obtained := .page r.1 virtual :: σ.obtained })
  else (physical, σ)

/-- One directory level of `vmm_map_memory`: create the next table if the entry is
absent, else give the entry the new flags. -/
def ensureTable (σ : Paging) (table : ℕ) (i : Index) (flags : Entry) : Paging :=
  if isPresent (σ.mem table i) then
    σ.store table i ((σ.mem table i &&& lowMask) ||| flags)
  else
    let r := σ.allocatePageTable P
    r.2.store table i (BitVec.ofNat 64 r.1 ||| flags)

/-- The last level of `vmm_map_memory`. A leaf that is present keeps its frame,
whatever `physical` is. -/
def mapLeaf (σ : Paging) (table : ℕ) (physical virtual : ℕ) (flags : Entry) : Paging :=
  let i := pageIndex virtual
  if isPresent (σ.mem table i) then
    (σ.store table i ((σ.mem table i &&& lowMask) ||| flags ||| noExecBit)).flushTlb physical
  else
    let r := σ.backingFrame P physical virtual
    (r.2.store table i (BitVec.ofNat 64 r.1 ||| flags ||| noExecBit)).flushTlb r.1

/-- `vmm_map_memory`. -/
def vmmMapMemory (σ : Paging) (physical virtual : ℕ) (flags : Entry) : Paging :=
  let σ := σ.ensureTable P P.pt4 (pt4Index virtual) flags
  let pt3 := frameOf (σ.mem P.pt4 (pt4Index virtual))
  let σ := σ.ensureTable P pt3 (pt3Index virtual) flags
  let pt2 := frameOf (σ.mem pt3 (pt3Index virtual))
  let σ := σ.ensureTable P pt2 (pt2Index virtual) flags
  let pageTable := frameOf (σ.mem pt2 (pt2Index virtual))
  σ.mapLeaf P pageTable physical virtual flags

/-- `physical += PAGE_SIZE` of the mapping loop, a `uintptr_t`; a null `physical`
stays null. -/
def nextPhysical (physical : ℕ) : ℕ :=
  if physical = 0 then 0 else (physical + pageSize) % 2 ^ 64

/-- `ensure_pages_mapped`, with `pages` pages left to map from `vstart` on. -/
def ensurePagesMapped (flags : Entry) : ℕ → ℕ → ℕ → Paging → Paging
  | 0, _, _, σ => σ
  | pages + 1, physical, vstart, σ =>
      ensurePagesMapped flags pages (nextPhysical physical) (vstart + pageSize)
        (σ.vmmMapMemory P physical vstart flags)

/-- The `SET_FLAGS` macro of `set_page_permission`. -/
def setFlags (isOs : Bool) (e : Entry) : Entry :=
  (e &&& addressMask) ||| directoryDefaults ||| (if isOs then userAccessBit else 0)

/-- The flags `set_page_permission` leaves in the leaf. -/
def leafFlags (isOs isWritable isExecutable : Bool) (e : Entry) : Entry :=
  let e := setFlags isOs e
  let e := if isExecutable then e else e ||| noExecBit
  if isWritable then e else e &&& ~~~readWriteBit

/-- `set_page_permission`. -/
def setPagePermission (σ : Paging) (addr : ℕ) (isOs isWritable isExecutable : Bool) : Paging :=
  let i4 := pt4Index addr
  let i3 := pt3Index addr
  let i2 := pt2Index addr
  let i1 := pageIndex addr
  let σ := σ.store P.pt4 i4 (setFlags isOs (σ.mem P.pt4 i4))
  let pt3 := frameOf (σ.mem P.pt4 i4)
  let σ := σ.store pt3 i3 (setFlags isOs (σ.mem pt3 i3))
  let pt2 := frameOf (σ.mem pt3 i3)
  let σ := σ.store pt2 i2 (setFlags isOs (σ.mem pt2 i2))
  let pageTable := frameOf (σ.mem pt2 i2)
  let σ := σ.store pageTable i1
    (leafFlags isOs isWritable isExecutable (σ.mem pageTable i1))
  σ.flushTlb (σ.mem pageTable i1).toNat

/-! ## What the processor sees -/

/-- The entry at a path of the tables; `0`, which is not present, where the path is
broken. -/
def pte (σ : Paging) (p : List Index) (i : Index) : Entry :=
  Radix.view target 0 σ.mem P.pt4 p i

/-- The leaf entry of the page of `v`. -/
def leaf (σ : Paging) (v : ℕ) : Entry := σ.pte P (tablePath v) (pageIndex v)

/-- The frame the page of `v` translates to, through the four levels. -/
def translate (σ : Paging) (v : ℕ) : Option ℕ := target (σ.leaf P v)

/-- Present and open to ring 3. -/
def opens (e : Entry) : Bool := isPresent e && isUser e

/-- The page of `v` is accessible from ring 3: the user bit is set at all four levels. -/
def userAccessible (σ : Paging) (v : ℕ) : Bool :=
  opens (σ.pte P [] (pt4Index v)) &&
  opens (σ.pte P [pt4Index v] (pt3Index v)) &&
  opens (σ.pte P [pt4Index v, pt3Index v] (pt2Index v)) &&
  opens (σ.leaf P v)

end Paging
end BootableKernel
