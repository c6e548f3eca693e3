import BootableKernel.Machine.Cpu
import BootableKernel.Memory.Tlb
import BootableKernel.VGA.Format

/-!
# The system calls

`syscalls.c`: `handle_syscall` and the handlers it dispatches to. Arguments are whole
64-bit words, as the caller left them in its registers, and each handler narrows them as
its parameters say.

What a call does besides its result is a list of events in the order in which they happen:
texts it has printed, and stores through a pointer of the caller. `vmm_mmap` is the only
part that changes the state of the memory manager. A call need not return: a store to a
page that is not mapped or not writable traps, also in the kernel, since `CR0.WP` is set.

Memory is read through `m`, the bytes as the kernel sees them.
-/

namespace BootableKernel

open LinkedList

/-- `vbe_info`, as far as the handlers read it. -/
structure VbeInfo where
  width : BitVec 16
  height : BitVec 16
  physicalBuffer : BitVec 32
  xCurMax : BitVec 16
  yCurMax : BitVec 16

/-- A screen of 800 by 600 pixels. -/
def VbeInfo.sample : VbeInfo := ⟨800, 600, 0xfd000000, 99, 36⟩

/-- What can be observed of a system call. -/
inductive Event
  /-- `log(fmt, ...)`. -/
  | log (fmt : String) (args : List Word)
  /-- `log_n` of these bytes. -/
  | logN (buf : List (BitVec 8))
  /-- A store through a pointer of the caller. -/
  | store (addr : Word) (value : List (BitVec 8))

/-- Why a system call does not return. -/
inductive Trap
  | pageFault (addr : Word)
  /-- An access of the memory manager to a list node that is not there. -/
  | fault (f : Fault)

/-- How a system call is served. -/
structure Served (α : Type) where
  events : List Event
  result : Except Trap α

namespace Served

/-- The same, with some events before. -/
def after {α : Type} (es : List Event) (s : Served α) : Served α := { s with events := es ++ s.events }

/-- Convert the result. -/
def map {α β : Type} (f : α → β) (s : Served α) : Served β := ⟨s.events, s.result.map f⟩

@[simp] theorem events_after {α : Type} (es : List Event) (s : Served α) :
    (s.after es).events = es ++ s.events := rfl

@[simp] theorem events_map {α β : Type} (f : α → β) (s : Served α) :
    (s.map f).events = s.events := rfl

end Served

/-! ## Memory as the kernel accesses it -/

/-- The `n` bytes from `a` on. -/
def blockAt (m : ByteMemory) (a : Word) (n : ℕ) : List (BitVec 8) :=
  (List.range n).map fun i => m (a + BitVec.ofNat 64 i)

namespace Paging

/-- A store of the kernel to `a` does not trap: the page is mapped and, as `CR0.WP` is set,
writable on all four levels. -/
def storable (P : Platform) (σ : Paging) (a : Word) : Bool :=
  canonical a.toNat && (σ.translate P a.toNat).isSome && (σ.rights P a.toNat).writable

/-- Ring 3 can access the byte at `a`. -/
def accessible (P : Platform) (σ : Paging) (a : Word) : Bool :=
  canonical a.toNat && σ.userAccessible P a.toNat

end Paging

namespace Syscalls

/-! ## The handlers -/

section Handlers
variable (m : ByteMemory) (vbe : VbeInfo) (P : Platform) (kmalloc : KMalloc)

/-- `write`. -/
def write (buf count : Word) : Served (BitVec 32) :=
  ⟨[.logN (blockAt m buf count.toNat)], .ok (count.setWidth 32)⟩

/-- The bytes of a `winsize`: four `unsigned short`, the low byte of each first. -/
def winsize (row col xpixel ypixel : BitVec 16) : List (BitVec 8) :=
  [row, col, xpixel, ypixel].flatMap fun x => [x.extractLsb' 0 8, x.extractLsb' 8 8]

/-- `ioctl`, with its one variable argument. The `winsize` is stored as a whole. -/
def ioctl (σ : Paging) (request : BitVec 32) (arg : Word) : Served (BitVec 32) :=
  if request = 0x5413 then
    if (List.range 8).all fun i => σ.storable P (arg + BitVec.ofNat 64 i) then
      ⟨[.store arg (winsize vbe.yCurMax vbe.xCurMax vbe.width vbe.height)], .ok 0⟩
    else ⟨[], .error (.pageFault arg)⟩
  else ⟨[.log "Unknown IOCTL request %x\n" [request.setWidth 64]], .ok (-1)⟩

/-- The loop of `writev`, with `n` buffers left from `iov` on. -/
def writevLoop : ℕ → Word → BitVec 32 → Served (BitVec 32)
  | 0, _, written => ⟨[], .ok written⟩
  | n + 1, iov, written =>
      let base := ByteMemory.read 64 m iov
      let len := ByteMemory.read 64 m (iov + 8)
      (writevLoop n (iov + 16) (written + len.setWidth 32)).after (write m base len).events

/-- `writev`. -/
def writev (iov : Word) (iovcnt : BitVec 32) : Served (BitVec 32) :=
  writevLoop m iovcnt.toInt.toNat iov 0

/-- `brk`. -/
def brk : Served (BitVec 32) := ⟨[], .ok (-1)⟩

/-- `open`, which is a keyword here. -/
def openPath (pathname : Word) : Served (BitVec 32) :=
  if strcmp (stringAt m pathname) (bytes "/dev/mem") ≠ 0 then
    ⟨[.log "open: pathname must be \"/dev/mem\", got \"%s\"\n" [pathname]], .ok (-1)⟩
  else ⟨[], .ok 0xdeadbeef⟩

/-- What `vmm_mmap(physical, pages, is_kernel)` logs when it returns `start`. -/
def vmmMmapLogs (σ : Vmm) (physical pages start : ℕ) (isKernel : Bool) : List Event :=
  let vstart := BitVec.ofNat 64 start
  let count := BitVec.ofNat 64 pages
  let flags := mapFlags isKernel
  if start = 0 then
    if σ.blockchain = 0 ∧ σ.firstAlloc = false then [.log "[VMM] No free space left\n" []]
    else [.log "[VMM] Not enough space to allocate %lu pages\n" [count]]
  else
    -- `ensure_pages_mapped` tests the address it has counted up.
    [if Paging.physicalAt physical pages = 0 then
      .log "[VMM] Mapped fresh pages to %p (%lu pages) (flags: %x)\n" [vstart, count, flags]
    else
      .log "[VMM] Mapped %p to %p (%lu pages) (flags: %x)\n"
        [BitVec.ofNat 64 physical, vstart, count, flags],
    .log "[VMM] Allocated %lu pages at %p\n" [count, vstart]]

/-- `vmm_mmap(physical, pages, false)`, and the address with the offset added. -/
def mapPages (physical pages : ℕ) (offset : Word) (σ : Vmm) : Served (Word × Vmm) :=
  match σ.vmmMmap P kmalloc physical pages false with
  | .error f => ⟨[], .error (.fault f)⟩
  | .ok (start, σ') =>
      ⟨vmmMmapLogs σ physical pages start false, .ok (BitVec.ofNat 64 start + offset, σ')⟩

/-- `mmap`; `prot` and `flags` are not used. -/
def mmap (addr length : Word) (fd : BitVec 32) (offset : Word) (σ : Vmm) : Served (Word × Vmm) :=
  let pages := length.toNat / pageSize
  if fd = -1 ∧ addr = 0 then mapPages P kmalloc 0 pages offset σ
  else if addr.toNat % pageSize ≠ 0 then
    ⟨[.log "[VMM] mmap: addr must be page-aligned, got %x\n" [addr]], .ok (-1, σ)⟩
  else if fd ≠ 0xdeadbeef then
    ⟨[.log "[VMM] mmap: fd must be -1 (malloc) or 0xdeadbeef (\"/dev/mem\"), got %x\n"
      [fd.signExtend 64]], .ok (-1, σ)⟩
  else
    let physical := (vbe.physicalBuffer &&& 0xfffff000).toNat
    if addr = 0 then mapPages P kmalloc physical pages offset σ
    else ⟨[], .ok (addr + offset, σ)⟩

end Handlers

/-! ## Dispatch -/

/-- The system call numbers of `syscall.h.in`. -/
def nrWrite : Word := 1
def nrOpen : Word := 2
def nrMmap : Word := 9
def nrBrk : Word := 12
def nrIoctl : Word := 16
def nrWritev : Word := 20

/-- `handle_syscall`. The result of `mmap` is cut down to an `int` as well. -/
def handleSyscall (m : ByteMemory) (vbe : VbeInfo) (P : Platform) (kmalloc : KMalloc)
    (a b c d e f n : Word) (σ : Vmm) : Served (BitVec 32 × Vmm) :=
  if n = nrWrite then
    ((write m b c).map (·, σ)).after [.log "SYSCALL: [write] %ld bytes to FD %ld\n" [c, a]]
  else if n = nrIoctl then
    ((ioctl vbe P σ.paging (b.setWidth 32) c).map (·, σ)).after
      [.log "SYSCALL: [ioctl] for FD %ld, request %lx\n" [a, b]]
  else if n = nrWritev then
    ((writev m b (c.setWidth 32)).map (·, σ)).after
      [.log "SYSCALL: [writev] %ld buffers to FD %ld\n" [c, a]]
  else if n = nrOpen then
    ((openPath m a).map (·, σ)).after [.log "SYSCALL: [open] %s\n" [a]]
  else if n = nrMmap then
    ((mmap vbe P kmalloc a b (e.setWidth 32) f σ).map fun r => (r.1.setWidth 32, r.2)).after
      [.log "SYSCALL: [mmap] %ld bytes at %lx with offset %ld of file %ld\n" [b, a, f, e]]
  else if n = nrBrk then
    (brk.map (·, σ)).after [.log "SYSCALL: [brk] %lx\n" [a]]
  else
    ⟨[.log "UNHANDLED SYSCALL %ld with args %ld %ld %ld %ld %ld %ld\n" [n, a, b, c, d, e, f]],
      .ok (-1, σ)⟩

end Syscalls
end BootableKernel
