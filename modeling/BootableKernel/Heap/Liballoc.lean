import BootableKernel.Lib.Records

/-!
# The kernel heap

`liballoc_1_1.c` is the kernel's `kmalloc`. It takes runs of pages from the page hooks
(`liballoc_alloc`, `liballoc_free`), puts a `liballoc_major` record at the start of each,
and cuts the rest into allocations, each behind a `liballoc_minor` record. The majors form
a doubly linked list from `l_memRoot` on, and the minors of a major another one, in the
order of their addresses. All records are in the memory they manage.

Addresses are natural numbers; the code subtracts them as 64-bit numbers and stores sizes
in 32 bits, and so does the model. A pointer walk takes a bound on its steps, and gives no
result if the bound is too small. The two page hooks are parameters that see the whole
state, because the kernel's hooks use the heap themselves.
-/

namespace BootableKernel

namespace Liballoc

/-- `sizeof(struct liballoc_major)`, which is also `sizeof(struct liballoc_minor)`. -/
def recordSize : ℕ := 40

/-! ## The records -/

namespace Major

/-- `struct liballoc_major *prev`. -/
def prev : Member 40 := ⟨0, 8, Nat.le_of_ble_eq_true rfl⟩
/-- `struct liballoc_major *next`. -/
def next : Member 40 := ⟨8, 8, Nat.le_of_ble_eq_true rfl⟩
/-- `unsigned int pages`. -/
def pages : Member 40 := ⟨16, 4, Nat.le_of_ble_eq_true rfl⟩
/-- `unsigned int size`. -/
def size : Member 40 := ⟨20, 4, Nat.le_of_ble_eq_true rfl⟩
/-- `unsigned int usage`. -/
def usage : Member 40 := ⟨24, 4, Nat.le_of_ble_eq_true rfl⟩
/-- `struct liballoc_minor *first`, after four bytes of padding. -/
def first : Member 40 := ⟨32, 8, Nat.le_of_ble_eq_true rfl⟩

end Major

namespace Minor

/-- `struct liballoc_minor *prev`. -/
def prev : Member 40 := ⟨0, 8, Nat.le_of_ble_eq_true rfl⟩
/-- `struct liballoc_minor *next`. -/
def next : Member 40 := ⟨8, 8, Nat.le_of_ble_eq_true rfl⟩
/-- `struct liballoc_major *block`. -/
def block : Member 40 := ⟨16, 8, Nat.le_of_ble_eq_true rfl⟩
/-- `unsigned int magic`. -/
def magic : Member 40 := ⟨24, 4, Nat.le_of_ble_eq_true rfl⟩
/-- `unsigned int size`. -/
def size : Member 40 := ⟨28, 4, Nat.le_of_ble_eq_true rfl⟩
/-- `unsigned int req_size`, before four bytes of padding. -/
def reqSize : Member 40 := ⟨32, 4, Nat.le_of_ble_eq_true rfl⟩

end Minor

/-- `LIBALLOC_MAGIC`. -/
def magicLive : ℕ := 0xc001c0de

/-- `LIBALLOC_DEAD`. -/
def magicDead : ℕ := 0xdeaddead

/-- `l_pageSize`. -/
def pageBytes : ℕ := 4096

/-- `l_pageCount`. -/
def pageCount : ℕ := 16

/-! ## The state -/

/-- The globals of `liballoc_1_1.c`, the memory, and the state `σ` of the page hooks. -/
structure Heap (σ : Type) where
  mem : Bytes
  /-- `l_memRoot`. -/
  memRoot : ℕ
  /-- `l_bestBet`. -/
  bestBet : ℕ
  /-- `l_allocated`. -/
  allocated : ℕ
  /-- `l_inuse`. -/
  inuse : ℕ
  /-- `l_warningCount`. -/
  warningCount : ℕ
  /-- `l_errorCount`. -/
  errorCount : ℕ
  /-- `l_possibleOverruns`. -/
  possibleOverruns : ℕ
  pager : σ

/-- `liballoc_alloc(pages)` and `liballoc_free(start, pages)`. -/
structure Hooks (σ : Type) where
  alloc : ℕ → Heap σ → ℕ × Heap σ
  free : ℕ → ℕ → Heap σ → Heap σ

variable {σ : Type}

/-- Subtraction of 64-bit numbers. -/
def sub64 (a b : ℕ) : ℕ := (a + (2 ^ 64 - b % 2 ^ 64)) % 2 ^ 64

/-- Subtraction of 32-bit numbers. -/
def sub32 (a b : ℕ) : ℕ := (a + (2 ^ 32 - b % 2 ^ 32)) % 2 ^ 32

/-! ## `ALIGN` and `UNALIGN` -/

/-- `ALIGNMENT`, and also `ALIGN_INFO`. -/
def alignment : ℕ := 16

/-- The bytes that `ALIGN` skips: its information, and what is missing to the alignment. -/
def alignSkip (p : ℕ) : ℕ :=
  let diff := (p + alignment) % alignment
  (if diff ≠ 0 then alignment - diff else 0) + alignment

/-- `ALIGN(ptr)`: the pointer after it. -/
def align (p : ℕ) : ℕ := p + alignSkip p

/-- `ALIGN(ptr)`: the memory after it. The number of bytes skipped is noted right before
the pointer. -/
def alignNote (m : Bytes) (p : ℕ) : Bytes := m.store 1 (align p - alignment) (alignSkip p)

/-- `UNALIGN(ptr)`. The note is a `char`, and so it is extended with its sign. -/
def unalign (m : Bytes) (p : ℕ) : ℕ :=
  let diff := ((m.byte (sub64 p alignment)).signExtend 64).toNat
  if diff < alignment + alignment then sub64 p diff else p

/-! ## `allocate_new_page` -/

/-- The pages that `allocate_new_page(size)` asks for, in 32-bit arithmetic. -/
def pagesFor (size : ℕ) : ℕ :=
  let st := (size % 2 ^ 32 + recordSize) % 2 ^ 32
  let st := (st + recordSize) % 2 ^ 32
  let st := if st % pageBytes = 0 then st / pageBytes else st / pageBytes + 1
  if st < pageCount then pageCount else st

/-- The record of a new major. -/
def majorRecord (m : Bytes) (maj st : ℕ) : Bytes :=
  let m := Major.prev.set m maj 0
  let m := Major.next.set m maj 0
  let m := Major.pages.set m maj st
  let m := Major.size.set m maj (st * pageBytes)
  let m := Major.usage.set m maj recordSize
  Major.first.set m maj 0

/-- `allocate_new_page(size)`. -/
def allocateNewPage (K : Hooks σ) (size : ℕ) (s : Heap σ) : ℕ × Heap σ :=
  let st := pagesFor size
  let (maj, s) := K.alloc st s
  if maj = 0 then (0, { s with warningCount := s.warningCount + 1 })
  else
    let m := majorRecord s.mem maj st
    (maj, { s with mem := m, allocated := (s.allocated + Major.size.get m maj) % 2 ^ 64 })

/-! ## `kmalloc` -/

/-- `l_inuse += size`, and the pointer behind the minor at `min`, aligned. -/
def handOut (size min : ℕ) (m : Bytes) (s : Heap σ) : ℕ × Heap σ :=
  let p := min + recordSize
  (align p, { s with mem := alignNote m p, inuse := (s.inuse + size) % 2 ^ 64 })

/-- `maj->usage += size + sizeof(struct liballoc_minor)`. -/
def addUsage (m : Bytes) (maj size : ℕ) : Bytes :=
  Major.usage.set m maj (Major.usage.get m maj + (size + recordSize))

/-- Case 2: a block without a minor. -/
def caseNew (size req maj : ℕ) (s : Heap σ) : ℕ × Heap σ :=
  let m := Major.first.set s.mem maj (maj + recordSize)
  let first := Major.first.get m maj
  let m := Minor.magic.set m first magicLive
  let m := Minor.prev.set m first 0
  let m := Minor.next.set m first 0
  let m := Minor.block.set m first maj
  let m := Minor.size.set m first size
  let m := Minor.reqSize.set m first req
  handOut size first (addUsage m maj size) s

/-- Case 3: before the first minor of a block. -/
def caseFront (size req maj : ℕ) (s : Heap σ) : ℕ × Heap σ :=
  let first := Major.first.get s.mem maj
  let m := Minor.prev.set s.mem first (maj + recordSize)
  let m := Minor.next.set m (Minor.prev.get m first) first
  let m := Major.first.set m maj (Minor.prev.get m first)
  let first := Major.first.get m maj
  let m := Minor.magic.set m first magicLive
  let m := Minor.prev.set m first 0
  let m := Minor.block.set m first maj
  let m := Minor.size.set m first size
  let m := Minor.reqSize.set m first req
  handOut size first (addUsage m maj size) s

/-- Case 4.1: behind the last minor of a block. -/
def caseEnd (size req maj min : ℕ) (s : Heap σ) : ℕ × Heap σ :=
  let m := Minor.next.set s.mem min (min + recordSize + Minor.size.get s.mem min)
  let m := Minor.prev.set m (Minor.next.get m min) min
  let min := Minor.next.get m min
  let m := Minor.next.set m min 0
  let m := Minor.magic.set m min magicLive
  let m := Minor.block.set m min maj
  let m := Minor.size.set m min size
  let m := Minor.reqSize.set m min req
  handOut size min (addUsage m maj size) s

/-- Case 4.2: between a minor and the next. -/
def caseBetween (size req maj min : ℕ) (s : Heap σ) : ℕ × Heap σ :=
  let newMin := min + recordSize + Minor.size.get s.mem min
  let m := Minor.magic.set s.mem newMin magicLive
  let m := Minor.next.set m newMin (Minor.next.get m min)
  let m := Minor.prev.set m newMin min
  let m := Minor.size.set m newMin size
  let m := Minor.reqSize.set m newMin req
  let m := Minor.block.set m newMin maj
  let m := Minor.prev.set m (Minor.next.get m min) newMin
  let m := Minor.next.set m min newMin
  handOut size newMin (addUsage m maj size) s

/-- What a request needs: `size + sizeof(struct liballoc_minor)`. -/
def need (size : ℕ) : ℕ := (size + recordSize) % 2 ^ 64

/-- The loop of case 4 over the minors of a block. The inner `none` means that no gap of
the block is large enough. -/
def searchMinors (size req maj : ℕ) : (fuel min : ℕ) → Heap σ → Option (Option (ℕ × Heap σ))
  | 0, _, _ => none
  | fuel + 1, min, s =>
      if min = 0 then some none
      else
        let next := Minor.next.get s.mem min
        let stop := if next = 0 then maj + Major.size.get s.mem maj else next
        let diff := sub64 (sub64 (sub64 stop min) recordSize) (Minor.size.get s.mem min)
        if need size ≤ diff then
          some (some (if next = 0 then caseEnd size req maj min s
            else caseBetween size req maj min s))
        else searchMinors size req maj fuel next s

/-- Cases 2, 3 and 4: a place in the block at `maj`. -/
def placeIn (size req fuel maj : ℕ) (s : Heap σ) : Option (Option (ℕ × Heap σ)) :=
  let first := Major.first.get s.mem maj
  if first = 0 then some (some (caseNew size req maj s))
  else if need size ≤ sub64 (sub64 first maj) recordSize then
    some (some (caseFront size req maj s))
  else searchMinors size req maj fuel first s

/-- `maj->next = allocate_new_page(size)`, and its link back. -/
def growAt (K : Hooks σ) (size maj : ℕ) (s : Heap σ) : ℕ × Heap σ :=
  let (new, s) := allocateNewPage K size s
  let m := Major.next.set s.mem maj new
  if new = 0 then (0, { s with mem := m })
  else (new, { s with mem := Major.prev.set m new maj })

/-- Cases 2 to 5 for the block at `maj`; `again` is the next turn of the loop. -/
def settle (K : Hooks σ) (size req fuel : ℕ) (startedBet : Bool)
    (again : ℕ → Bool → Heap σ → Option (ℕ × Heap σ)) (maj : ℕ) (s : Heap σ) :
    Option (ℕ × Heap σ) :=
  match placeIn size req fuel maj s with
  | none => none
  | some (some result) => some result
  | some none =>
      let next := Major.next.get s.mem maj
      if next ≠ 0 then again next startedBet s
      else if startedBet then again s.memRoot false s
      else
        let (new, s) := growAt K size maj s
        if new = 0 then some (0, s) else again new startedBet s

/-- The free memory of the block at `maj`: `maj->size - maj->usage`. -/
def freeIn (s : Heap σ) (maj : ℕ) : ℕ :=
  sub32 (Major.size.get s.mem maj) (Major.usage.get s.mem maj)

/-- Cases 1 to 5 for the block at `maj`. In case 1 there is not enough space in the block. -/
def visit (K : Hooks σ) (size req fuel : ℕ) (startedBet : Bool)
    (again : ℕ → Bool → Heap σ → Option (ℕ × Heap σ)) (maj : ℕ) (s : Heap σ) :
    Option (ℕ × Heap σ) :=
  if freeIn s maj < need size then
    let next := Major.next.get s.mem maj
    if next ≠ 0 then again next startedBet s
    else if startedBet then again s.memRoot false s
    else
      let (new, s) := growAt K size maj s
      if new = 0 then some (0, s) else settle K size req fuel startedBet again new s
  else settle K size req fuel startedBet again maj s

/-- The loop over the majors. A block with more memory than the best bet so far becomes the
best bet. -/
def searchMajors (K : Hooks σ) (size req : ℕ) :
    (fuel maj : ℕ) → Bool → ℕ → Heap σ → Option (ℕ × Heap σ)
  | 0, _, _, _, _ => none
  | fuel + 1, maj, startedBet, bestSize, s =>
      if maj = 0 then some (0, s)
      else if bestSize < freeIn s maj then
        visit K size req fuel startedBet
          (fun next startedBet t =>
            searchMajors K size req fuel next startedBet (freeIn s maj) t)
          maj { s with bestBet := maj }
      else
        visit K size req fuel startedBet
          (fun next startedBet t => searchMajors K size req fuel next startedBet bestSize t)
          maj s

/-- Where the loop starts: at the best bet if it has room, else at the root. -/
def searchFrom (K : Hooks σ) (fuel size req : ℕ) (s : Heap σ) : Option (ℕ × Heap σ) :=
  if s.bestBet = 0 then searchMajors K size req fuel s.memRoot false 0 s
  else
    let bestSize := freeIn s s.bestBet
    if need size < bestSize then searchMajors K size req fuel s.bestBet true bestSize s
    else searchMajors K size req fuel s.memRoot false bestSize s

/-- `kmalloc` of `req` bytes, which take `size` bytes with the space for the alignment. -/
def kmallocSized (K : Hooks σ) (fuel size req : ℕ) (s : Heap σ) : Option (ℕ × Heap σ) :=
  if s.memRoot = 0 then
    let (root, s) := allocateNewPage K size s
    let s := { s with memRoot := root }
    if root = 0 then some (0, s) else searchFrom K fuel size req s
  else searchFrom K fuel size req s

/-- The bytes that a request takes: with the space for the alignment. -/
def sizeFor (req : ℕ) : ℕ := (req + (alignment + alignment)) % 2 ^ 64

/-- `kmalloc(req_size)`. -/
def kmalloc (K : Hooks σ) (fuel req : ℕ) (s : Heap σ) : Option (ℕ × Heap σ) :=
  if sizeFor req = 0 then
    kmallocSized K fuel (sizeFor 1) 1 { s with warningCount := s.warningCount + 1 }
  else kmallocSized K fuel (sizeFor req) req s

/-! ## `kfree` -/

/-- The counters after a pointer without `LIBALLOC_MAGIC` before it. -/
def complain (magic : ℕ) (s : Heap σ) : Heap σ :=
  let overrun := magic % 2 ^ 24 = magicLive % 2 ^ 24 ∨ magic % 2 ^ 16 = magicLive % 2 ^ 16 ∨
    magic % 2 ^ 8 = magicLive % 2 ^ 8
  { s with
    errorCount := s.errorCount + 1
    possibleOverruns := if overrun then s.possibleOverruns + 1 else s.possibleOverruns }

/-- Take the minor at `min` out of its block. -/
def unlinkMinor (m : Bytes) (min : ℕ) : Bytes :=
  let maj := Minor.block.get m min
  let m := Major.usage.set m maj
    (sub32 (Major.usage.get m maj) (Minor.size.get m min + recordSize))
  let m := Minor.magic.set m min magicDead
  let next := Minor.next.get m min
  let m := if next ≠ 0 then Minor.prev.set m next (Minor.prev.get m min) else m
  let prev := Minor.prev.get m min
  let m := if prev ≠ 0 then Minor.next.set m prev (Minor.next.get m min) else m
  if Minor.prev.get m min = 0 then Major.first.set m maj (Minor.next.get m min) else m

/-- Take the block at `maj` out of the list and give its pages back. -/
def releaseMajor (K : Hooks σ) (maj : ℕ) (s : Heap σ) : Heap σ :=
  let memRoot := if s.memRoot = maj then Major.next.get s.mem maj else s.memRoot
  let bestBet := if s.bestBet = maj then 0 else s.bestBet
  let m := s.mem
  let prev := Major.prev.get m maj
  let m := if prev ≠ 0 then Major.next.set m prev (Major.next.get m maj) else m
  let next := Major.next.get m maj
  let m := if next ≠ 0 then Major.prev.set m next (Major.prev.get m maj) else m
  let allocated := sub64 s.allocated (Major.size.get m maj)
  K.free maj (Major.pages.get m maj)
    { s with mem := m, memRoot := memRoot, bestBet := bestBet, allocated := allocated }

/-- A 32-bit number as an `int`. -/
def toInt (a : ℕ) : ℤ := if a < 2 ^ 31 then a else (a : ℤ) - 2 ^ 32

/-- The best bet after memory was returned to the block at `maj`. -/
def reconsider (maj : ℕ) (s : Heap σ) : Heap σ :=
  if s.bestBet = 0 then s
  else if toInt (freeIn s s.bestBet) < toInt (freeIn s maj) then { s with bestBet := maj }
  else s

/-- `kfree(ptr)`. -/
def kfree (K : Hooks σ) (ptr : ℕ) (s : Heap σ) : Heap σ :=
  if ptr = 0 then { s with warningCount := s.warningCount + 1 }
  else
    let min := sub64 (unalign s.mem ptr) recordSize
    if Minor.magic.get s.mem min ≠ magicLive then complain (Minor.magic.get s.mem min) s
    else
      let maj := Minor.block.get s.mem min
      let s := { s with
        inuse := sub64 s.inuse (Minor.size.get s.mem min)
        mem := unlinkMinor s.mem min }
      if Major.first.get s.mem maj = 0 then releaseMajor K maj s else reconsider maj s

/-! ## `kcalloc` and `krealloc` -/

/-- `liballoc_memset(s, c, n)`. -/
def memset (m : Bytes) (a c : ℕ) : ℕ → Bytes
  | 0 => m
  | n + 1 => (memset m a c n).store 1 (a + n) c

/-- `kcalloc(nobj, size)`. -/
def kcalloc (K : Hooks σ) (fuel nobj size : ℕ) (s : Heap σ) : Option (ℕ × Heap σ) := do
  let realSize := nobj * size % 2 ^ 64
  let (p, s) ← kmalloc K fuel realSize s
  if p = 0 then some (0, s)
  else some (p, { s with mem := memset s.mem p 0 realSize })

/-- The first loop of `liballoc_memcpy`: `k` words of four bytes. -/
def copyWords : (k : ℕ) → Bytes → (dst src : ℕ) → Bytes
  | 0, m, _, _ => m
  | k + 1, m, dst, src => copyWords k (m.store 4 dst (m.load 4 src)) (dst + 4) (src + 4)

/-- The second loop of `liballoc_memcpy`: `k` single bytes. -/
def copyBytes : (k : ℕ) → Bytes → (dst src : ℕ) → Bytes
  | 0, m, _, _ => m
  | k + 1, m, dst, src => copyBytes k (m.store 1 dst (m.load 1 src)) (dst + 1) (src + 1)

/-- `liballoc_memcpy(s1, s2, n)`: words while there are four bytes left. -/
def memcpy (m : Bytes) (dst src n : ℕ) : Bytes :=
  copyBytes (n % 4) (copyWords (n / 4) m dst src) (dst + 4 * (n / 4)) (src + 4 * (n / 4))

/-- `krealloc(p, size)`. -/
def krealloc (K : Hooks σ) (fuel p size : ℕ) (s : Heap σ) : Option (ℕ × Heap σ) :=
  if size = 0 then some (0, kfree K p s)
  else if p = 0 then kmalloc K fuel size s
  else
    let min := sub64 (unalign s.mem p) recordSize
    if Minor.magic.get s.mem min ≠ magicLive then
      some (0, complain (Minor.magic.get s.mem min) s)
    else
      let realSize := Minor.reqSize.get s.mem min
      if size ≤ realSize then some (p, { s with mem := Minor.reqSize.set s.mem min size })
      else do
        let (ptr, s) ← kmalloc K fuel size s
        if ptr = 0 then some (0, s)
        else some (ptr, kfree K p { s with mem := memcpy s.mem ptr p realSize })

end Liballoc

end BootableKernel
