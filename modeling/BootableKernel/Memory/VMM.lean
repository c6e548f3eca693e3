import BootableKernel.Lib.FreeList
import BootableKernel.Lib.LinkedList
import BootableKernel.Memory.PageTables

/-!
# The virtual memory manager

`VMM.c` hands out ranges of heap pages from a doubly linked list of free blocks, the
`blockchain`. A block is a `free_block` record that `kmalloc` supplies, and `kmalloc`
gets its own pages from `vmm_mmap`: the first call of `vmm_mmap` therefore runs
`vmm_mmap` a second time from inside itself, and so may any call of `vmm_free_pages`
that needs a new record.

`kmalloc` is a parameter of the two entry points. `Supply` lists what it can do: hand
out a record at once, or take pages from `vmm_mmap` first. An access through the null
pointer or to a record that was released is a fault.

The field `calls` is a record of the completed calls, which the kernel writes to its
log; everything that is said about outstanding ranges is read off it.
-/

namespace BootableKernel

open LinkedList

/-- A completed call of the allocator. -/
inductive Call
  /-- `vmm_mmap(physical, pages, is_kernel)` returned `start`. -/
  | mapped (start pages physical : ℕ) (isKernel : Bool)
  /-- `vmm_free_pages(start, pages)`. -/
  | freed (start pages : ℕ)
  deriving DecidableEq, Repr

/-- The ranges that were returned and not freed since; calls are listed most recent
first. -/
def outstanding : List Call → List Span
  | [] => []
  | .mapped start pages _ _ :: cs => ⟨start, pages⟩ :: outstanding cs
  | .freed start pages :: cs => (outstanding cs).erase ⟨start, pages⟩

/-- The state of the memory manager. -/
structure Vmm where
  paging : Paging
  /-- The live `free_block` records. -/
  nodes : Heap Span
  /-- `blockchain`; `0` is the null pointer. -/
  blockchain : ℕ
  firstAlloc : Bool
  allocatingBase : Bool
  pagesAllocatedForBlockchain : ℕ
  /-- The completed calls, most recent first. -/
  calls : List Call

/-- `kmalloc(sizeof(free_block))`: the address it returns, and the state it leaves. -/
abbrev KMalloc := Vmm → Except Fault (ℕ × Vmm)

namespace Vmm
variable (P : Platform)

/-! ## `vmm_mmap` -/

/-- The block at `p` is there and passes `test`. -/
def passes (nodes : Heap Span) (p : ℕ) (test : Span → Bool) : Except Fault Bool :=
  if p = 0 then .ok false
  else do
    let n ← load nodes p
    .ok (test n.val)

/-- The branch of `vmm_mmap` that serves the `kmalloc` of the first block. -/
def mapBase (σ : Vmm) (pages : ℕ) : ℕ × Vmm :=
  (heapStart, { σ with
    allocatingBase := false
    firstAlloc := false
    pagesAllocatedForBlockchain := pages
    paging := σ.paging.ensurePagesMapped P directoryDefaults pages 0 heapStart
    calls := .mapped heapStart pages 0 true :: σ.calls })

/-- The branch of `vmm_mmap` that allocates the first block. -/
def allocateBlockchain (kmalloc : KMalloc) (σ : Vmm) : Except Fault Vmm := do
  let (block, σ) ← kmalloc { σ with allocatingBase := true }
  let base := σ.pagesAllocatedForBlockchain
  let nodes ← create σ.nodes block
    ⟨⟨heapStart + base * pageSize, maxHeapSize - base⟩, 0, 0⟩
  .ok { σ with nodes := nodes, blockchain := block }

/-- Unlink an empty block and release it. -/
def deleteBlock (σ : Vmm) (block : ℕ) : Except Fault Vmm := do
  let n ← load σ.nodes block
  let nodes ← setNext σ.nodes n.prev n.next
  let nodes ← setPrev nodes n.next n.prev
  .ok { σ with
    nodes := nodes.erase block
    blockchain := if block = σ.blockchain then n.next else σ.blockchain }

/-- `block->start += pages * PAGE_SIZE; block->size -= pages`. -/
def shrink (pages : ℕ) (n : Node Span) : Node Span :=
  { n with val := ⟨n.val.start + pages * pageSize, n.val.size - pages⟩ }

/-- `vmm_mmap` from the search for a block on: first fit. -/
def takePages (σ : Vmm) (physical pages : ℕ) (isKernel : Bool) : Except Fault (ℕ × Vmm) := do
  let block ← find σ.nodes (fun b => pages ≤ b.size) σ.blockchain
  if block = 0 then .ok (0, σ)
  else do
    let n ← load σ.nodes block
    let spanStart := n.val.start
    let paging := σ.paging.ensurePagesMapped P (mapFlags isKernel) pages physical spanStart
    let nodes ← modify σ.nodes block (shrink pages)
    let isEmpty ← passes nodes block (fun b => b.size = 0)
    let σ := { σ with paging := paging, nodes := nodes }
    let σ ← if isEmpty then σ.deleteBlock block else .ok σ
    .ok (spanStart, { σ with calls := .mapped spanStart pages physical isKernel :: σ.calls })

/-- `vmm_mmap`. -/
def vmmMmap (kmalloc : KMalloc) (σ : Vmm) (physical pages : ℕ) (isKernel : Bool) :
    Except Fault (ℕ × Vmm) :=
  if σ.blockchain = 0 then
    if σ.firstAlloc then
      if σ.allocatingBase then .ok (σ.mapBase P pages)
      else do
        let σ ← σ.allocateBlockchain kmalloc
        σ.takePages P physical pages isKernel
    else .ok (0, σ)
  else σ.takePages P physical pages isKernel

/-! ## `vmm_free_pages` -/

/-- `print_blockchain`, which also moves `blockchain` back to the first block. The sum
it computes is only logged. -/
def printBlockchain (σ : Vmm) : Except Fault Vmm := do
  let block ← rewind σ.nodes σ.blockchain
  let _total ← total σ.nodes Span.size block
  .ok { σ with blockchain := block }

/-- The free blocks to the left and to the right of `start`, or null. -/
def neighbours (σ : Vmm) (start : ℕ) : Except Fault (ℕ × ℕ) := do
  let b ← load σ.nodes σ.blockchain
  if start < b.val.start then .ok (0, σ.blockchain)
  else do
    let left ← advance σ.nodes (fun b => b.start < start) σ.blockchain
    let n ← load σ.nodes left
    .ok (left, n.next)

/-- `block->size += pages`. -/
def extend (pages : ℕ) (n : Node Span) : Node Span :=
  { n with val := ⟨n.val.start, n.val.size + pages⟩ }

/-- `block->size += pages; block->start -= pages * PAGE_SIZE`. -/
def extendDown (pages : ℕ) (n : Node Span) : Node Span :=
  { n with val := ⟨n.val.start - pages * pageSize, n.val.size + pages⟩ }

/-- Extend the left block, and merge it with the right one if they now touch. -/
def extendLeft (nodes : Heap Span) (left right pages : ℕ) : Except Fault (Heap Span) := do
  let nodes ← modify nodes left (extend pages)
  let l ← load nodes left
  if ← passes nodes right (fun b => l.val.stop pageSize = b.start) then do
    let r ← load nodes right
    let nodes ← modify nodes left (extend r.val.size)
    let nodes ← setNext nodes left r.next
    let nodes ← setPrev nodes r.next left
    .ok (nodes.erase right)
  else .ok nodes

/-- Insert a new block between two others. -/
def insertBlock (kmalloc : KMalloc) (σ : Vmm) (left right start pages : ℕ) :
    Except Fault Vmm := do
  let (new, σ) ← kmalloc σ
  let nodes ← create σ.nodes new ⟨⟨start, pages⟩, left, right⟩
  let nodes ← setNext nodes left new
  let nodes ← setPrev nodes right new
  .ok { σ with nodes := nodes }

/-- Return a range to the list, between the blocks found for it. -/
def returnRange (kmalloc : KMalloc) (σ : Vmm) (left right start pages : ℕ) :
    Except Fault Vmm := do
  if ← passes σ.nodes left (fun b => start = b.stop pageSize) then
    let nodes ← extendLeft σ.nodes left right pages
    .ok { σ with nodes := nodes }
  else if ← passes σ.nodes right (fun b => start + pages * pageSize = b.start) then
    let nodes ← modify σ.nodes right (extendDown pages)
    .ok { σ with nodes := nodes }
  else σ.insertBlock kmalloc left right start pages

/-- The branch of `vmm_free_pages` for a heap without free blocks. -/
def firstBlock (kmalloc : KMalloc) (σ : Vmm) (start pages : ℕ) : Except Fault Vmm := do
  let (block, σ) ← kmalloc σ
  let nodes ← create σ.nodes block ⟨⟨start, pages⟩, 0, 0⟩
  .ok { σ with nodes := nodes, blockchain := block }

/-- `vmm_free_pages`. -/
def vmmFreePages (kmalloc : KMalloc) (σ : Vmm) (start pages : ℕ) : Except Fault Vmm := do
  let σ ←
    if σ.blockchain = 0 then σ.firstBlock kmalloc start pages
    else do
      let (left, right) ← σ.neighbours start
      σ.returnRange kmalloc left right start pages
  { σ with calls := .freed start pages :: σ.calls }.printBlockchain

/-! ## `kmalloc` -/

/-- How a call of `kmalloc` is served. -/
inductive Supply
  /-- From pages `kmalloc` already has. -/
  | atOnce (node : ℕ)
  /-- After `liballoc_alloc(pages)`; `nested` serves the calls of `kmalloc` that one
  makes in turn. -/
  | grow (pages : ℕ) (nested : Supply) (node : ℕ)
  deriving Repr

/-- The record a supply ends up handing out. -/
def Supply.node : Supply → ℕ
  | .atOnce node => node
  | .grow _ _ node => node

/-- `kmalloc(sizeof(free_block))`. `liballoc_alloc(pages)` is
`vmm_mmap(NULL, pages, true)`; when that returns null, so does `kmalloc`. -/
def Supply.kmalloc : Supply → KMalloc
  | .atOnce node, σ => .ok (node, σ)
  | .grow pages nested node, σ => do
      let (p, σ) ← σ.vmmMmap P nested.kmalloc 0 pages true
      .ok (if p = 0 then 0 else node, σ)

/-! ## Bootstrap -/

/-- The state before the first call. -/
def initial (paging : Paging) : Vmm := ⟨paging, ∅, 0, true, false, 0, []⟩

end Vmm
end BootableKernel
