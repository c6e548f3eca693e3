import BootableKernel.Heap.Liballoc
import BootableKernel.Lib.Arena
import BootableKernel.Lib.Links

/-!
# What the heap's memory holds

The abstract heap is a list of blocks, each with its cells in the order of their addresses.
A `Cell` is an allocation together with its record, and a `Block` a run of pages; both carry
the facts about sizes that keep 32-bit arithmetic exact. `Holds s Bs` says that the records
in memory describe the blocks `Bs` and that the globals agree with them.

The bytes that `Holds` depends on are the records and the notes of `ALIGN`. Everything else
belongs to the callers of the heap.
-/

namespace BootableKernel

namespace Liballoc

open Arena Links

/-- An allocation: where its record is, the bytes behind the record, and the bytes that
were asked for. -/
structure Cell where
  addr : ℕ
  size : ℕ
  req : ℕ
  room : req + (alignment + alignment) ≤ size
  small : size < 2 ^ 32

namespace Cell

/-- The bytes of a cell, with its record. -/
def len (c : Cell) : ℕ := recordSize + c.size

/-- The pointer that `kmalloc` returned. -/
def ptr (c : Cell) : ℕ := align (c.addr + recordSize)

end Cell

/-- A run of pages: its record is at `addr`, and its cells lie behind it. -/
structure Block where
  addr : ℕ
  pages : ℕ
  cells : List Cell
  pos : 0 < addr
  small : pages * pageBytes < 2 ^ 32
  bound : addr + pages * pageBytes ≤ 2 ^ 64
  packed : Packed Cell.addr Cell.len (addr + recordSize) cells (addr + pages * pageBytes)

namespace Block

/-- The first address behind the block. -/
def stop (b : Block) : ℕ := b.addr + b.pages * pageBytes

/-- `usage`: the bytes of the records and cells. -/
def usage (b : Block) : ℕ := recordSize + used Cell.len b.cells

/-- The blocks share no page. -/
def Apart (a b : Block) : Prop := a.stop ≤ b.addr ∨ b.stop ≤ a.addr

/-- The cells of the block are `l` and `r`, and `c` fits in between. -/
structure Around (b : Block) (l r : List Cell) (c : Cell) : Prop where
  cells : b.cells = l ++ r
  packed : Packed Cell.addr Cell.len (b.addr + recordSize) (l ++ c :: r) b.stop

/-- The block with a cell more. -/
def insert (b : Block) (l r : List Cell) (c : Cell) (h : b.Around l r c) : Block :=
  { b with cells := l ++ c :: r, packed := h.packed }

/-- The block with fewer cells. -/
def keep (b : Block) (cs : List Cell) (h : cs.Sublist b.cells) : Block :=
  { b with cells := cs, packed := b.packed.sublist h }

/-- The bytes of the block that the allocator itself uses. -/
def Reserved (b : Block) (x : ℕ) : Prop :=
  (b.addr ≤ x ∧ x < b.addr + recordSize) ∨ ∃ c ∈ b.cells, c.addr ≤ x ∧ x < c.ptr

end Block

/-- The addresses of the cells. -/
abbrev cellAddrs (cs : List Cell) : List ℕ := cs.map Cell.addr

/-- The addresses of the blocks. -/
abbrev blockAddrs (Bs : List Block) : List ℕ := Bs.map Block.addr

/-! ## In memory -/

/-- The record of a cell of the block at `maj`, apart from its links. -/
structure Cell.In (m : Bytes) (maj : ℕ) (c : Cell) : Prop where
  block : Minor.block.get m c.addr = maj
  magic : Minor.magic.get m c.addr = magicLive
  size : Minor.size.get m c.addr = c.size
  reqSize : Minor.reqSize.get m c.addr = c.req
  note : m.byte (c.ptr - alignment) = BitVec.ofNat 8 (alignSkip (c.addr + recordSize))

/-- The record of a block, apart from its links, and the records of its cells. -/
structure Block.In (m : Bytes) (b : Block) : Prop where
  pages : Major.pages.get m b.addr = b.pages
  size : Major.size.get m b.addr = b.pages * pageBytes
  usage : Major.usage.get m b.addr = b.usage
  first : Major.first.get m b.addr = head 0 (cellAddrs b.cells)
  minors : Linked (Minor.next.get m) (Minor.prev.get m) 0 (cellAddrs b.cells) 0
  cells : ∀ c ∈ b.cells, c.In m b.addr

/-- The bytes taken from the page hooks. -/
def footprint (Bs : List Block) : ℕ := (Bs.map fun b => b.pages * pageBytes).sum

/-- The bytes handed out, with the space for their alignment. -/
def handedOut (Bs : List Block) : ℕ := (Bs.map fun b => (b.cells.map Cell.size).sum).sum

/-- The heap consists of the blocks `Bs`. -/
structure Holds {σ : Type} (s : Heap σ) (Bs : List Block) : Prop where
  apart : Bs.Pairwise Block.Apart
  root : s.memRoot = head 0 (blockAddrs Bs)
  majors : Linked (Major.next.get s.mem) (Major.prev.get s.mem) 0 (blockAddrs Bs) 0
  records : ∀ b ∈ Bs, b.In s.mem
  bet : s.bestBet = 0 ∨ s.bestBet ∈ blockAddrs Bs
  allocated : s.allocated = footprint Bs % 2 ^ 64
  inuse : s.inuse = handedOut Bs % 2 ^ 64

/-! ## Arithmetic -/

@[simp] theorem recordSize_eq : recordSize = 40 := rfl
@[simp] theorem alignment_eq : alignment = 16 := rfl
@[simp] theorem pageBytes_eq : pageBytes = 4096 := rfl

theorem sub64_eq {a b : ℕ} (hab : b ≤ a) (ha : a < b + 2 ^ 64) : sub64 a b = a - b := by
  rw [sub64]
  omega

theorem sub32_eq {a b : ℕ} (hab : b ≤ a) (ha : a < 2 ^ 32) : sub32 a b = a - b := by
  rw [sub32]
  omega

theorem alignSkip_eq (p : ℕ) : alignSkip p = (16 - p % 16) % 16 + 16 := by
  simp only [alignSkip, alignment_eq, Nat.add_mod_right]
  by_cases h : p % 16 = 0
  · simp [h]
  · rw [if_pos h]
    omega

theorem alignSkip_bounds (p : ℕ) : 16 ≤ alignSkip p ∧ alignSkip p < 32 := by
  rw [alignSkip_eq]
  omega

/-- `ALIGN` aligns. -/
theorem align_mod (p : ℕ) : align p % 16 = 0 := by
  rw [align, alignSkip_eq]
  omega

namespace Cell

@[simp] theorem len_eq (c : Cell) : c.len = 40 + c.size := rfl

theorem room_le (c : Cell) : c.req + 32 ≤ c.size := by
  simpa [← Nat.add_assoc] using c.room

/-- The pointer lies in the cell, with room for the bytes that were asked for. -/
theorem ptr_bounds (c : Cell) : c.addr + 56 ≤ c.ptr ∧ c.ptr + c.req ≤ c.addr + c.len := by
  have hskip := alignSkip_bounds (c.addr + recordSize)
  have hroom := c.room_le
  simp only [ptr, align, len_eq, recordSize_eq] at hskip ⊢
  omega

theorem ptr_lt (c : Cell) : c.ptr < c.addr + 72 := by
  have hskip := alignSkip_bounds (c.addr + recordSize)
  simp only [ptr, align, recordSize_eq] at hskip ⊢
  omega

end Cell

namespace Block

/-- Where a cell of a block lies. -/
theorem cell_bounds (b : Block) {c : Cell} (h : c ∈ b.cells) :
    b.addr + 40 ≤ c.addr ∧ c.addr + c.len ≤ b.stop :=
  b.packed.bounds h

/-- Two cells of a block are the same, or they lie apart. -/
theorem cells_apart (b : Block) {c d : Cell} (hc : c ∈ b.cells) (hd : d ∈ b.cells) :
    c = d ∨ c.addr + c.len ≤ d.addr ∨ d.addr + d.len ≤ c.addr :=
  b.packed.apart hc hd

theorem nodup_cellAddrs (b : Block) : (cellAddrs b.cells).Nodup := by
  rw [List.nodup_iff_pairwise_ne, List.pairwise_map]
  refine b.packed.pairwise.imp fun {c d} h hne => ?_
  rw [Cell.len_eq] at h
  omega

theorem usage_le (b : Block) : b.usage ≤ b.pages * pageBytes := by
  have h := b.packed.used_le
  simp only [usage, recordSize_eq] at h ⊢
  omega

end Block

/-! ## What the records depend on -/

/-- The record of a cell is in the bytes before its pointer; the first sixteen are links. -/
theorem Cell.In.congr {m m' : Bytes} {maj : ℕ} {c : Cell} (h : c.In m maj)
    (hm : ∀ x, c.addr + 16 ≤ x → x < c.ptr → m'.byte x = m.byte x) : c.In m' maj := by
  have hptr := c.ptr_bounds.1
  have hfield : ∀ f : Member 40, 16 ≤ f.off → f.get m' c.addr = f.get m c.addr := by
    intro f hoff
    have hfits := f.fits
    apply Member.get_congr
    intro x hx hx'
    exact hm x (by omega) (by omega)
  constructor
  · rw [hfield Minor.block (by decide), h.block]
  · rw [hfield Minor.magic (by decide), h.magic]
  · rw [hfield Minor.size (by decide), h.size]
  · rw [hfield Minor.reqSize (by decide), h.reqSize]
  · rw [hm _ (by rw [alignment_eq]; omega) (by rw [alignment_eq]; omega), h.note]

/-- The records of a block are in the bytes that are reserved; the first sixteen are links. -/
theorem Block.In.congr {m m' : Bytes} {b : Block} (h : b.In m)
    (hm : ∀ x, b.Reserved x → b.addr + 16 ≤ x → m'.byte x = m.byte x) : b.In m' := by
  have hmajor : ∀ f : Member 40, 16 ≤ f.off → f.get m' b.addr = f.get m b.addr := by
    intro f hoff
    have hfits := f.fits
    apply Member.get_congr
    intro x hx hx'
    exact hm x (.inl ⟨by omega, by rw [recordSize_eq]; omega⟩) (by omega)
  have hminor : ∀ c ∈ b.cells, ∀ f : Member 40, f.get m' c.addr = f.get m c.addr := by
    intro c hc f
    have hfits := f.fits
    have hptr := c.ptr_bounds.1
    have hb := (b.cell_bounds hc).1
    apply Member.get_congr
    intro x hx hx'
    exact hm x (.inr ⟨c, hc, by omega, by omega⟩) (by omega)
  constructor
  · rw [hmajor _ (by decide), h.pages]
  · rw [hmajor _ (by decide), h.size]
  · rw [hmajor _ (by decide), h.usage]
  · rw [hmajor _ (by decide), h.first]
  · apply h.minors.congr
    · simp only [List.forall_mem_map]
      exact fun c hc => hminor c hc _
    · simp only [List.forall_mem_map]
      exact fun c hc => hminor c hc _
  · intro c hc
    have hb := (b.cell_bounds hc).1
    apply (h.cells c hc).congr
    intro x hx hx'
    exact hm x (.inr ⟨c, hc, by omega, hx'⟩) (by omega)

end Liballoc

end BootableKernel
