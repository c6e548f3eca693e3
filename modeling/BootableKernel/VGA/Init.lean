import BootableKernel.Heap.Startup
import BootableKernel.Heap.Supplies
import BootableKernel.Memory.Allocation
import BootableKernel.VGA.Pitch
import BootableKernel.VGA.Screen

/-!
# `vga_init`

`vga_init` is the first code to allocate memory. It maps the frame buffer with
`vmm_mmap(physical_buffer & ~0xfff, fb_size / PAGE_SIZE, true)`, takes two buffers of
`fb_size` bytes from `kmalloc`, and draws the background into the second.

The memory manager logs what it does, and every call of `log` ends with `swapBuffers`, which
copies `fb_size` bytes from `BACKBUFFER` to `FRAMEBUFFER` whatever these are at the time:
null at first, when only the pages of the kernel and the first ones of the heap are mapped.
There is no interrupt table yet, so an access to any other page stops the processor.

The heap is that of `liballoc_1_1.c`, with `vmm_mmap` for its hook. Addresses of its memory
are virtual; the frame buffer is the display's memory, and no page of the heap has a frame
of it.
-/

namespace BootableKernel

namespace Paging
variable (P : Platform)

/-- The `n` bytes from `a` on are mapped. -/
def reaches (σ : Paging) (a n : ℕ) : Bool := (List.range n).all fun k => (σ.byteAt P (a + k)).isSome

/-- `n` rounds of `kmemcpy_128`: each loads 128 bytes and then stores them. -/
def copyRounds (σ : Paging) : (n dst src : ℕ) → Bytes → Option Bytes
  | 0, _, _, m => some m
  | n + 1, dst, src, m =>
      if σ.reaches P src 128 && σ.reaches P dst 128 then
        copyRounds σ n (dst + 128) (src + 128) (m.copy 128 dst src)
      else none

/-- The first `n` stores of the loops in `vga_init`, line by line. -/
def drawBackground (σ : Paging) (width height : ℕ) (fsin : ℕ → Bool) (background : ℕ) :
    (n : ℕ) → Bytes → Option Bytes
  | 0, m => some m
  | n + 1, m => do
      let m ← drawBackground σ width height fsin background n m
      if σ.reaches P (background + 4 * n) 4 then
        some (m.store 4 (background + 4 * n)
          (texture width height fsin (n % width) (n / width)).toNat)
      else none

end Paging

namespace Vmm
open Paging

/-- The heap and, behind its hooks, the memory manager: `none` once the processor has
stopped. -/
abbrev Memory := Liballoc.Heap (Option Vmm)

/-- The heap before its first request. -/
def startHeap (mem : Bytes) (σ : Vmm) : Memory := ⟨mem, 0, 0, 0, 0, 0, 0, 0, some σ⟩

/-- `FRAMEBUFFER`, `BACKBUFFER` and `fb_size`. -/
structure Buffers where
  front : ℕ
  back : ℕ
  size : BitVec 64

section
variable (P : Platform) (f : Buffers)

/-- `swapBuffers`. It is all that a call of `log` does to the memory as long as `vga_ready` is
not set: the text only goes to the serial port. -/
def swapBuffers (s : Memory) : Memory :=
  match s.pager with
  | none => s
  | some σ =>
      match σ.paging.copyRounds P (rounds f.size) f.front f.back s.mem with
      | none => { s with pager := none }
      | some m => { s with mem := m }

/-- `vmm_mmap` without its bootstrap. `ensure_pages_mapped` logs that the pages are mapped, and
then `vmm_mmap` that they are allocated, but for the first pages of the heap; or it only logs
that there is no room. A block of the chain that is used up is passed to `kfree`, but the
first calls are far from that. -/
def mmapLogged (physical pages : ℕ) (s : Memory) : ℕ × Memory :=
  match s.pager with
  | none => (0, s)
  | some σ =>
      match σ.vmmMmap P (fun _ => .error .null) physical pages true with
      | .error _ => (0, { s with pager := none })
      | .ok (p, τ) =>
          let s := swapBuffers P f { s with pager := some τ }
          let s := if σ.allocatingBase ∨ p = 0 then s else swapBuffers P f s
          (if s.pager.isSome then p else 0, s)

/-- The hooks of the heap; `vga_init` frees nothing. -/
def hooks : Liballoc.Hooks (Option Vmm) where
  alloc pages s := mmapLogged P f 0 pages s
  free _ _ s := s

/-- The first call of `vmm_mmap`: `kmalloc(sizeof(free_block))`, with a call of `vmm_mmap`
inside it, is the first request to the heap and gives the place for the first free block. -/
def mmapFirst (fuel physical pages : ℕ) (mem : Bytes) (paging : Paging) : Option (ℕ × Memory) := do
  let σ := initial paging
  let (block, s) ← Liballoc.kmalloc (hooks P f) fuel Liballoc.freeBlockSize
    (startHeap mem { σ with allocatingBase := true })
  match s.pager with
  | none => some (0, s)
  | some τ =>
      match σ.allocateBlockchain fun _ => .ok (block, τ) with
      | .error _ => some (0, { s with pager := none })
      | .ok τ => some (mmapLogged P f physical pages { s with pager := some τ })

end

section
variable (P : Platform) (vbe : VbeScreenInfo)

/-- `vga_init` up to `FRAMEBUFFER`, and the memory then. -/
def mapFrameBuffer (fuel : ℕ) (mem : Bytes) (paging : Paging) : Option (ℕ × Memory) :=
  mmapFirst P ⟨0, 0, vbe.fbSize⟩ fuel (vbe.physicalBuffer.toNat / pageSize * pageSize)
    (vbe.fbSize.toNat / pageSize) mem paging

/-- The pointers that `vga_init` sets. -/
structure Pointers where
  /-- `FRAMEBUFFER`. -/
  front : ℕ
  /-- `BACKBUFFER`. -/
  back : ℕ
  /-- `BACKGROUND`. -/
  background : ℕ

/-- The loops that fill `BACKGROUND`. -/
def drawn (fsin : ℕ → Bool) (background : ℕ) (s : Memory) : Memory :=
  match s.pager with
  | none => s
  | some σ =>
      match σ.paging.drawBackground P vbe.width.toNat vbe.height.toNat fsin background
          (vbe.width.toNat * vbe.height.toNat) s.mem with
      | none => { s with pager := none }
      | some m => { s with mem := m }

/-- `vga_init`. There is no result if a walk through the heap takes more than `fuel` steps. -/
def vgaInit (fsin : ℕ → Bool) (fuel : ℕ) (mem : Bytes) (paging : Paging) :
    Option (Pointers × Memory) := do
  let size := vbe.fbSize.toNat
  let (front, s) ← mapFrameBuffer P vbe fuel mem paging
  let (back, s) ← Liballoc.kmalloc (hooks P ⟨front, 0, vbe.fbSize⟩) fuel size s
  let (background, s) ← Liballoc.kmalloc (hooks P ⟨front, back, vbe.fbSize⟩) fuel size s
  some (⟨front, back, background⟩, drawn P vbe fsin background s)

end

end Vmm
/-! ## Accesses -/

namespace Paging
variable {P : Platform} {σ : Paging}

theorem reaches_iff {a n : ℕ} :
    σ.reaches P a n = true ↔ ∀ k < n, (σ.byteAt P (a + k)).isSome := by
  simp [reaches]

/-- Access to two ranges, one after the other, is access to both as one. -/
theorem reaches_add {a n k : ℕ} :
    σ.reaches P a (n + k) = true ↔ σ.reaches P a n = true ∧ σ.reaches P (a + n) k = true := by
  simp only [reaches_iff]
  constructor
  · intro h
    refine ⟨fun i hi => h i (by omega), fun i hi => ?_⟩
    rw [Nat.add_assoc]
    exact h (n + i) (by omega)
  · rintro ⟨h, h'⟩ i hi
    by_cases hin : i < n
    · exact h i hin
    · have := h' (i - n) (by omega)
      rwa [Nat.add_assoc, Nat.add_sub_cancel' (by omega)] at this

theorem reaches_mono {a b n k : ℕ} (h : σ.reaches P a n = true) (ha : a ≤ b)
    (hk : b + k ≤ a + n) : σ.reaches P b k = true := by
  rw [reaches_iff] at h ⊢
  intro i hi
  have := h (b - a + i) (by omega)
  rwa [← Nat.add_assoc, Nat.add_sub_cancel' ha] at this

/-- A copy is carried out if all bytes that it reads and writes are mapped, and it changes
those that it writes only. -/
theorem copyRounds_some {n : ℕ} : ∀ {dst src : ℕ} (m : Bytes),
    σ.reaches P src (128 * n) = true → σ.reaches P dst (128 * n) = true →
      ∃ m', σ.copyRounds P n dst src m = some m' ∧
        ∀ x, x < dst ∨ dst + 128 * n ≤ x → m'.byte x = m.byte x := by
  induction n with
  | zero => exact fun m _ _ => ⟨m, rfl, fun _ _ => rfl⟩
  | succ n ih =>
      intro dst src m hsrc hdst
      rw [Nat.mul_succ, Nat.add_comm, reaches_add] at hsrc hdst
      obtain ⟨m', heq, hframe⟩ := ih (m.copy 128 dst src) hsrc.2 hdst.2
      refine ⟨m', ?_, fun x hx => ?_⟩
      · rw [copyRounds, hsrc.1, hdst.1]
        exact heq
      · rw [hframe x (by omega), Bytes.copy_of_outside (by omega)]

/-- A copy that is carried out writes mapped bytes. -/
theorem reaches_of_copyRounds {n : ℕ} : ∀ {dst src : ℕ} {m m' : Bytes},
    σ.copyRounds P n dst src m = some m' → σ.reaches P dst (128 * n) = true := by
  induction n with
  | zero => exact fun _ => by simp [reaches_iff]
  | succ n ih =>
      intro dst src m m' h
      rw [copyRounds] at h
      split at h
      · rename_i hboth
        rw [Bool.and_eq_true] at hboth
        rw [Nat.mul_succ, Nat.add_comm, reaches_add]
        exact ⟨hboth.2, ih h⟩
      · exact absurd h (by simp)

/-- A copy in place changes nothing. -/
theorem copyRounds_self {n a : ℕ} {m m' : Bytes} (h : σ.copyRounds P n a a m = some m') :
    m' = m := by
  induction n generalizing a m with
  | zero => exact (Option.some.inj h).symm
  | succ n ih =>
      rw [copyRounds] at h
      split at h
      · rw [ih h, Bytes.copy_self]
      · exact absurd h (by simp)

/-- The background is drawn if and only if there is memory for all of its pixels. -/
theorem drawBackground_isSome_iff {width height background n : ℕ} (fsin : ℕ → Bool) (m : Bytes) :
    (σ.drawBackground P width height fsin background n m).isSome ↔
      σ.reaches P background (4 * n) = true := by
  induction n with
  | zero => simp [drawBackground, reaches_iff]
  | succ n ih =>
      rw [Nat.mul_succ, reaches_add, ← ih, drawBackground]
      cases hdrawn : σ.drawBackground P width height fsin background n m with
      | none => simp
      | some m' => simp

end Paging

namespace Vmm
open Paging
variable {P : Platform}

/-! ## The first pages of the heap -/

@[simp] theorem isSome_byteAt (σ : Paging) (a : ℕ) :
    (σ.byteAt P a).isSome = (σ.translate P a).isSome := Option.isSome_map

/-- The addresses below `e`, and no pages of the heap from there on, are mapped. -/
structure MappedTo (P : Platform) (σ : Paging) (e : ℕ) : Prop where
  kept : Kept P σ
  reached : σ.reaches P 0 e = true
  unmapped : ∀ v, UpperPage v → e ≤ v → σ.translate P v = none

theorem mappedTo_boot (B : Boot) : MappedTo B.platform B.paging heapStart := by
  refine ⟨kept_boot B, reaches_iff.mpr fun k hk => ?_, fun v hv _ => ?_⟩
  · rw [isSome_byteAt, Nat.zero_add, (identity_boot B).low k hk]
    rfl
  · rw [Paging.translate, leaf_boot B hv, target_zero]

/-- The next pages are mapped. -/
theorem MappedTo.ensure {σ : Paging} {e n : ℕ} (hP : P.Valid) (h : MappedTo P σ e)
    (hr : HeapRange e n) (physical : ℕ) (k : Bool) :
    MappedTo P (σ.ensurePagesMapped P (mapFlags k) n physical e) (e + n * pageSize) := by
  have hf := h.kept.frames
  refine ⟨h.kept.ensure hP hr physical k, ?_, fun v hv hge => ?_⟩
  · rw [reaches_add, Nat.zero_add]
    constructor
    · have hold := h.reached
      rw [reaches_iff] at hold ⊢
      intro j hj
      obtain ⟨a, ha⟩ := Option.isSome_iff_exists.mp (isSome_byteAt σ _ ▸ hold j hj)
      rw [isSome_byteAt, hf.ensure_kept hP hr physical k ha]
      rfl
    · rw [reaches_iff]
      intro j hj
      have hi : j / pageSize < n := Nat.div_lt_of_lt_mul (Nat.mul_comm n pageSize ▸ hj)
      obtain ⟨a, ha, -⟩ := hf.ensure_backing hP hr physical k hi
      have hbyte := byteAt_add (hr _ hi).aligned (Nat.mod_lt j pageSize_pos) ha
      rw [Nat.add_assoc, Nat.div_add_mod'] at hbyte
      rw [hbyte]
      rfl
  · rw [Paging.translate, hf.ensure_other hP hr physical k, ← Paging.translate]
    · exact h.unmapped v hv (by omega)
    · intro i hi he
      have := leafOf_injective hv.aligned (hr i hi).aligned hv.lt (hr i hi).upper.lt he
      simp only [pageSize] at this hge
      omega

/-- The first `k` pages of the heap are in use and mapped, and the others are one free block
that is not. -/
structure Filled (P : Platform) (σ : Vmm) (k : ℕ) : Prop where
  ledger : ∃ node, Ledger σ [(node, ⟨heapStart + k * pageSize, maxHeapSize - k⟩)]
  paging : MappedTo P σ.paging (heapStart + k * pageSize)

/-- After the bootstrap `vmm_mmap` calls no `kmalloc`. -/
theorem vmmMmap_kmalloc {σ : Vmm} (h : σ.firstAlloc = false) (kmalloc kmalloc' : KMalloc)
    (physical n : ℕ) (isKernel : Bool) :
    σ.vmmMmap P kmalloc physical n isKernel = σ.vmmMmap P kmalloc' physical n isKernel := by
  simp only [vmmMmap, h, Bool.false_eq_true, if_false]

/-- The next pages are handed out. -/
theorem Filled.mmap {σ : Vmm} {k n : ℕ} (hP : P.Valid) (h : Filled P σ k)
    (hn : k + n < maxHeapSize) (physical : ℕ) :
    ∃ σ', (∀ kmalloc, σ.vmmMmap P kmalloc physical n true = .ok (heapStart + k * pageSize, σ')) ∧
      Filled P σ' (k + n) ∧ HeapRange (heapStart + k * pageSize) n ∧
      σ'.calls = .mapped (heapStart + k * pageSize) n physical true :: σ.calls ∧
      σ'.paging = σ.paging.ensurePagesMapped P (mapFlags true) n physical
        (heapStart + k * pageSize) := by
  obtain ⟨node, hl⟩ := h.ledger
  have htake : FreeList.take pageSize n
      (blocks [(node, ⟨heapStart + k * pageSize, maxHeapSize - k⟩)]) =
        some (heapStart + k * pageSize,
          [⟨heapStart + k * pageSize + n * pageSize, maxHeapSize - k - n⟩]) := by
    rw [blocks, List.map_singleton, FreeList.take, if_pos (by simp only; omega), FreeList.rest,
      if_neg (by simp only; omega)]
    rfl
  obtain ⟨σ', ys, hr, hl', hys, -, hcalls, hpaging⟩ := hl.mmap_some (P := P)
    (fun _ => .error .null) physical true htake
  have hrange := hl.heapRange_take htake
  have hstart : heapStart + (k + n) * pageSize = heapStart + k * pageSize + n * pageSize := by
    rw [Nat.add_mul, Nat.add_assoc]
  refine ⟨σ', fun kmalloc => ?_, ⟨?_, ?_⟩, hrange, hcalls, hpaging⟩
  · rw [vmmMmap_kmalloc hl.booted kmalloc, hr]
  · obtain ⟨⟨node', b⟩, rfl, rfl⟩ := List.map_eq_singleton_iff.mp hys
    rw [hstart, Nat.sub_add_eq]
    exact ⟨node', hl'⟩
  · rw [hstart, hpaging]
    exact h.paging.ensure hP hrange physical true

/-! ## Requests of the heap -/

/-- What `swapBuffers` copies is mapped. -/
def Shows (P : Platform) (f : Buffers) (σ : Paging) : Prop :=
  σ.reaches P f.front (128 * rounds f.size) = true ∧ σ.reaches P f.back (128 * rounds f.size) = true

/-- The memory but for the `n` bytes from `a` on is as before; all of it if the copy was in
place. -/
structure Swapped (f : Buffers) (m m' : Bytes) : Prop where
  frame : ∀ x, x < f.front ∨ f.front + 128 * rounds f.size ≤ x → m'.byte x = m.byte x
  self : f.front = f.back → m' = m

theorem Swapped.trans {f : Buffers} {m m' m'' : Bytes} (h : Swapped f m m')
    (h' : Swapped f m' m'') : Swapped f m m'' :=
  ⟨fun x hx => (h'.frame x hx).trans (h.frame x hx), fun hf => (h'.self hf).trans (h.self hf)⟩

theorem swapBuffers_some {f : Buffers} {σ : Vmm} (h : Shows P f σ.paging) (m : Bytes) :
    ∃ m', Swapped f m m' ∧ ∀ s : Memory, s.pager = some σ → s.mem = m →
      swapBuffers P f s = { s with mem := m' } := by
  obtain ⟨m', heq, hframe⟩ := copyRounds_some m h.2 h.1
  refine ⟨m', ⟨hframe, fun hf => ?_⟩, fun s hs hm => ?_⟩
  · rw [hf] at heq
    exact copyRounds_self heq
  · rw [swapBuffers, hs, hm]
    simp only [heq]

theorem swapBuffers_none {f : Buffers} {σ : Vmm} (h : σ.paging.reaches P f.front
    (128 * rounds f.size) = false) {s : Memory} (hs : s.pager = some σ) :
    (swapBuffers P f s).pager = none := by
  rw [swapBuffers, hs]
  dsimp only
  split
  · rfl
  · rename_i hcopy
    rw [reaches_of_copyRounds hcopy] at h
    exact absurd h (by simp)

/-- `vmm_mmap` with its calls of `log`. -/
theorem mmapLogged_some {f : Buffers} {σ τ : Vmm} {physical n p : ℕ}
    (hok : σ.vmmMmap P (fun _ => .error .null) physical n true = .ok (p, τ)) (h0 : p ≠ 0)
    (h : Shows P f τ.paging) (m : Bytes) :
    ∃ m', Swapped f m m' ∧ ∀ s : Memory, s.pager = some σ → s.mem = m →
      mmapLogged P f physical n s = (p, { s with mem := m', pager := some τ }) := by
  obtain ⟨m₁, hm₁, hswap₁⟩ := swapBuffers_some h m
  obtain ⟨m₂, hm₂, hswap₂⟩ := swapBuffers_some h m₁
  cases hbase : σ.allocatingBase with
  | true =>
      refine ⟨m₁, hm₁, fun s hs hm => ?_⟩
      rw [mmapLogged, hs]
      simp only [hok, hbase, hswap₁ { s with pager := some τ } rfl hm]
      simp
  | false =>
      refine ⟨m₂, hm₁.trans hm₂, fun s hs hm => ?_⟩
      rw [mmapLogged, hs]
      simp only [hok, hbase, hswap₁ { s with pager := some τ } rfl hm, Bool.false_eq_true, h0,
        or_self, if_false, hswap₂ { s with mem := m₁, pager := some τ } rfl rfl]
      simp

theorem swapBuffers_stopped {f : Buffers} {s : Memory} (hs : s.pager = none) :
    swapBuffers P f s = s := by
  rw [swapBuffers, hs]

/-- The first call of `log` in `vmm_mmap` stops the processor. -/
theorem mmapLogged_none {f : Buffers} {σ τ : Vmm} {physical n p : ℕ}
    (hok : σ.vmmMmap P (fun _ => .error .null) physical n true = .ok (p, τ))
    (h : τ.paging.reaches P f.front (128 * rounds f.size) = false) {s : Memory}
    (hs : s.pager = some σ) :
    ∃ s', mmapLogged P f physical n s = (0, s') ∧ s'.pager = none := by
  have hnone := swapBuffers_none h (s := { s with pager := some τ }) rfl
  refine ⟨_, ?_, hnone⟩
  rw [mmapLogged, hs]
  simp only [hok, swapBuffers_stopped hnone, ite_self, hnone, Option.isSome_none,
    Bool.false_eq_true, if_false]

/-- The copies to `FRAMEBUFFER` do no harm to the blocks of the heap. -/
def Clear (f : Buffers) (Bs : List Liballoc.Block) : Prop :=
  f.front = f.back ∨ ∀ b ∈ Bs, b.stop ≤ f.front ∨ f.front + 128 * rounds f.size ≤ b.addr

theorem Swapped.blocks {f : Buffers} {m m' : Bytes} {Bs : List Liballoc.Block} (h : Swapped f m m')
    (hf : Clear f Bs) : ∀ b ∈ Bs, ∀ x, b.addr ≤ x → x < b.stop → m'.byte x = m.byte x := by
  intro b hb x hx hx'
  rcases hf with hself | hap
  · rw [h.self hself]
  · apply h.frame
    have := hap b hb
    omega

/-- `kmalloc` of `req` bytes for which the heap has no room: it asks `vmm_mmap` for pages, and
these are the next ones. -/
theorem kmalloc_hooks {f : Buffers} {σ : Vmm} {k req fuel : ℕ} {s : Memory}
    {Bs : List Liballoc.Block} (hP : P.Valid) (h : Liballoc.Holds s Bs) (hne : Bs ≠ [])
    (hlack : ∀ b ∈ Bs, b.Lacks (req + 32)) (hbelow : ∀ b ∈ Bs, b.stop ≤ heapStart + k * pageSize)
    (hs : s.pager = some σ) (hσ : Filled P σ k) (hreq : req + 32 ≤ Liballoc.maxSize)
    (hroom : k + Liballoc.pagesFor (req + 32) < maxHeapSize)
    (hshows : ∀ τ, MappedTo P τ (heapStart + (k + Liballoc.pagesFor (req + 32)) * pageSize) →
      Shows P f τ)
    (hclear : Clear f Bs) (hfuel : Bs.length ≤ fuel) :
    ∃ s' τ nb, Liballoc.kmalloc (hooks P f) fuel req s =
        some (heapStart + k * pageSize + 96, s') ∧
      Liballoc.ServedNew s' Bs (req + 32) (heapStart + k * pageSize) (some τ) nb ∧
      (∀ kmalloc, σ.vmmMmap P kmalloc 0 (Liballoc.pagesFor (req + 32)) true =
        .ok (heapStart + k * pageSize, τ)) ∧
      Filled P τ (k + Liballoc.pagesFor (req + 32)) := by
  obtain ⟨τ, hok, hτ, -, -, -⟩ := hσ.mmap hP hroom 0
  have h0 : heapStart + k * pageSize ≠ 0 := by
    rw [heapStart]
    omega
  obtain ⟨m, hm, halloc⟩ := mmapLogged_some (hok _) h0 (hshows _ hτ.paging) s.mem
  have hsize : Liballoc.sizeFor req = req + 32 := by
    rw [Liballoc.maxSize] at hreq
    rw [Liballoc.sizeFor, Liballoc.alignment_eq]
    omega
  have hfresh : Liballoc.Fresh Bs (heapStart + k * pageSize) (Liballoc.pagesFor (req + 32)) := by
    refine ⟨?_, fun b hb => .inr (hbelow b hb)⟩
    rw [Liballoc.pageBytes_eq]
    simp only [heapStart, pageSize, maxHeapSize] at hroom ⊢
    omega
  obtain ⟨s', nb, hkmalloc, hserved⟩ := Liballoc.kmallocSized_grow (K := hooks P f) h hne hlack
    (show req + (Liballoc.alignment + Liballoc.alignment) ≤ req + 32 from le_rfl) hreq
    (fun bet => halloc { s with bestBet := bet } hs rfl)
    (hm.blocks hclear) h0 (by simp only [heapStart, pageSize]; omega) hfresh hfuel
  refine ⟨s', τ, nb, ?_, hserved, hok, hτ⟩
  rw [Liballoc.kmalloc, hsize, if_neg (by omega)]
  exact hkmalloc

/-! ## The first call -/

/-- The memory manager when `kmalloc` asks for the first pages. -/
abbrev asking (paging : Paging) : Vmm := { initial paging with allocatingBase := true }

theorem mappedTo_base (B : Boot) :
    MappedTo B.platform ((asking B.paging).mapBase B.platform 16).2.paging
      (heapStart + 16 * pageSize) := by
  have hrange : HeapRange heapStart 16 := by
    intro i hi
    refine ⟨Nat.le_add_right _ _, ?_, ?_⟩
    · rw [heapEnd_eq]
      simp only [heapStart, pageSize]
      omega
    · simp only [heapStart, pageSize]
      omega
  have h := (mappedTo_boot B).ensure B.platform_valid hrange 0 true
  rwa [mapFlags_true] at h

/-- There is no list of free pages yet, so that the answer is the start of the heap. -/
theorem vmmMmap_asking (B : Boot) :
    (asking B.paging).vmmMmap B.platform (fun _ => .error .null) 0 16 true =
      .ok (heapStart, ((asking B.paging).mapBase B.platform 16).2) :=
  rfl

/-- The first pages are mapped, and sixteen of them are the first block of the heap. -/
theorem allocateBlockchain_asking (B : Boot) {node : ℕ} (hnode : node ≠ 0) :
    ∃ σ₀, (initial B.paging).allocateBlockchain
        (fun _ => .ok (node, ((asking B.paging).mapBase B.platform 16).2)) = .ok σ₀ ∧
      Bootstrapped B.platform B.paging σ₀ ∧ Filled B.platform σ₀ 16 := by
  have h := @allocateBlockchain_initial B.platform B.paging 16 node (.atOnce 0) hnode
  refine ⟨_, ?_, ⟨16, .atOnce 0, node, by decide, by decide, hnode, h⟩, ?_, ?_⟩
  · simp [allocateBlockchain, initial, mapBase, LinkedList.create, hnode, mapFlags_true, bind,
      Except.bind]
  · obtain ⟨node', base, -, -, hl, hcalls, -⟩ :=
      ledger_bootstrapped ⟨16, .atOnce 0, node, by decide, by decide, hnode, h⟩
    obtain rfl : 16 = base := by simpa using hcalls
    exact ⟨node', hl⟩
  · dsimp only
    rw [mapFlags_true]
    exact mappedTo_base B

theorem holds_startHeap (mem : Bytes) (σ : Vmm) : Liballoc.Holds (startHeap mem σ) [] :=
  ⟨List.Pairwise.nil, rfl, trivial, fun _ hb => absurd hb List.not_mem_nil, .inl rfl, rfl, rfl⟩

section
variable {B : Boot} {vbe : VbeScreenInfo}

/-- `FRAMEBUFFER`: behind the sixteen pages of the bootstrap. -/
def frontStart : ℕ := heapStart + 16 * pageSize

/-- The frame buffer is mapped: `σ₀` is the memory manager after its bootstrap and `σ₁` when
`vmm_mmap` returns. -/
structure FrameMapped (B : Boot) (vbe : VbeScreenInfo) (σ₀ σ₁ : Vmm) : Prop where
  bootstrapped : Bootstrapped B.platform B.paging σ₀
  before : Filled B.platform σ₀ 16
  mapped : ∀ kmalloc, σ₀.vmmMmap B.platform kmalloc
    (vbe.physicalBuffer.toNat / pageSize * pageSize) (vbe.fbSize.toNat / pageSize) true =
      .ok (frontStart, σ₁)
  after : Filled B.platform σ₁ (16 + vbe.fbSize.toNat / pageSize)
  range : HeapRange frontStart (vbe.fbSize.toNat / pageSize)
  calls_eq : σ₁.calls = .mapped frontStart (vbe.fbSize.toNat / pageSize)
    (vbe.physicalBuffer.toNat / pageSize * pageSize) true :: σ₀.calls
  paging_eq : σ₁.paging = σ₀.paging.ensurePagesMapped B.platform (mapFlags true)
    (vbe.fbSize.toNat / pageSize) (vbe.physicalBuffer.toNat / pageSize * pageSize) frontStart

/-- The copies from null to null are in the part of memory that is mapped. -/
def Startable (size : BitVec 64) : Prop := 128 * rounds size ≤ frontStart

theorem MappedTo.shows {P : Platform} {σ : Paging} {e : ℕ} {f : Buffers} (h : MappedTo P σ e)
    (hfront : f.front + 128 * rounds f.size ≤ e) (hback : f.back + 128 * rounds f.size ≤ e) :
    Shows P f σ :=
  ⟨reaches_mono h.reached (Nat.zero_le _) (by omega),
    reaches_mono h.reached (Nat.zero_le _) (by omega)⟩

/-- `vga_init` up to `FRAMEBUFFER`, if the copies do not stop it. -/
theorem mapFrameBuffer_some (h : Startable vbe.fbSize)
    (hroom : 16 + vbe.fbSize.toNat / pageSize < maxHeapSize) {fuel : ℕ} (hfuel : 0 < fuel)
    (mem : Bytes) :
    ∃ σ₀ σ₁ s₁ nb, mapFrameBuffer B.platform vbe fuel mem B.paging = some (frontStart, s₁) ∧
      FrameMapped B vbe σ₀ σ₁ ∧ Liballoc.ServedNew s₁ [] 64 heapStart (some σ₁) nb := by
  have hP := B.platform_valid
  set f : Buffers := ⟨0, 0, vbe.fbSize⟩ with hf
  have hfit : ∀ k, 16 ≤ k → 0 + 128 * rounds f.size ≤ heapStart + k * pageSize := by
    intro k hk
    have hle := Nat.mul_le_mul_right pageSize hk
    rw [Startable, frontStart] at h
    simp only [hf]
    omega
  -- the bootstrap
  have hbase := mappedTo_base B
  obtain ⟨m, hm, halloc⟩ := mmapLogged_some (f := f) (vmmMmap_asking B) (by decide)
    (hbase.shows (hfit 16 le_rfl) (hfit 16 le_rfl)) mem
  obtain ⟨s, nb, hkmalloc, hserved⟩ := Liballoc.kmallocSized_start (K := hooks B.platform f)
    (holds_startHeap mem (asking B.paging))
    (show 32 + (Liballoc.alignment + Liballoc.alignment) ≤ 64 by decide) (by decide)
    (p := heapStart) (halloc (startHeap mem (asking B.paging)) rfl rfl) (by decide) (by decide)
    ⟨by decide, fun b hb => absurd hb List.not_mem_nil⟩ hfuel
  obtain ⟨σ₀, hchain, hboot, hσ₀⟩ := allocateBlockchain_asking B
    (show heapStart + 96 ≠ 0 by decide)
  -- the call itself
  obtain ⟨σ₁, hok, hσ₁, hrange, hcalls, hpaging⟩ := hσ₀.mmap hP hroom
    (vbe.physicalBuffer.toNat / pageSize * pageSize)
  obtain ⟨m₁, hm₁, hmap⟩ := mmapLogged_some (f := f) (hok _) (by decide)
    (hσ₁.paging.shows (hfit _ (Nat.le_add_right 16 _)) (hfit _ (Nat.le_add_right 16 _))) s.mem
  refine ⟨σ₀, σ₁, _, nb, ?_, ⟨hboot, hσ₀, hok, hσ₁, hrange, hcalls, hpaging⟩,
    hserved.holds.outside (m := m₁) ?_ (some σ₁), hserved.addr, hserved.pages, hserved.usage, rfl⟩
  · have hkmalloc' : Liballoc.kmalloc (hooks B.platform f) fuel Liballoc.freeBlockSize
        (startHeap mem (asking B.paging)) = some (heapStart + 96, s) := hkmalloc
    have hpager : s.pager = some ((asking B.paging).mapBase B.platform 16).2 := hserved.pager
    have hlast := hmap { s with pager := some σ₀ } rfl rfl
    rw [mapFrameBuffer, mmapFirst]
    simp only [← hf, hkmalloc', hpager, Option.bind_eq_bind, Option.bind_some]
    rw [hchain]
    exact congrArg some hlast
  · rw [hm₁.self rfl]
    exact fun _ _ _ _ _ => rfl

/-- Otherwise the first call of `log` stops the processor. -/
theorem mapFrameBuffer_none (h : ¬ Startable vbe.fbSize) (fuel : ℕ) (mem : Bytes) :
    ∃ s, mapFrameBuffer B.platform vbe fuel mem B.paging = some (0, s) ∧ s.pager = none := by
  set f : Buffers := ⟨0, 0, vbe.fbSize⟩ with hf
  have hbase := mappedTo_base B
  have hstop : ((asking B.paging).mapBase B.platform 16).2.paging.reaches B.platform f.front
      (128 * rounds f.size) = false := by
    by_contra hc
    rw [Bool.not_eq_false, reaches_iff] at hc
    have hlast := hc frontStart (by rw [Startable] at h; simp only [hf]; omega)
    rw [isSome_byteAt, show f.front + frontStart = frontStart from Nat.zero_add _,
      hbase.unmapped frontStart ⟨by decide, by decide, by decide⟩ le_rfl] at hlast
    exact absurd hlast (by simp)
  obtain ⟨s, hs, hnone⟩ := mmapLogged_none (f := f) (vmmMmap_asking B) hstop
    (s := startHeap mem (asking B.paging)) rfl
  have hnew : Liballoc.allocateNewPage (hooks B.platform f) 64
      (startHeap mem (asking B.paging)) =
        (0, { s with warningCount := s.warningCount + 1 }) := Liballoc.allocateNewPage_refused hs
  have hkmalloc : Liballoc.kmalloc (hooks B.platform f) fuel Liballoc.freeBlockSize
      (startHeap mem (asking B.paging)) =
        some (0, { s with warningCount := s.warningCount + 1, memRoot := 0 }) := by
    have hroot : (startHeap mem (asking B.paging)).memRoot = 0 := rfl
    rw [Liballoc.kmalloc, if_neg (by decide), Liballoc.kmallocSized, if_pos hroot,
      show Liballoc.sizeFor Liballoc.freeBlockSize = 64 from rfl, hnew]
    rfl
  refine ⟨{ s with warningCount := s.warningCount + 1, memRoot := 0 }, ?_, hnone⟩
  rw [mapFrameBuffer, mmapFirst]
  simp only [← hf, hkmalloc, Option.bind_eq_bind, Option.bind_some, hnone]

/-! ## The rest -/

/-- The size is that of `n` pages, enough for the heap to have no room for a buffer, and few
enough for the first copies. -/
structure Whole (size : BitVec 64) (n : ℕ) : Prop where
  eq : size.toNat = n * pageSize
  ge : 16 ≤ n
  le : n * pageSize ≤ frontStart

variable {n : ℕ}

theorem Whole.rounds_eq (h : Whole vbe.fbSize n) : 128 * rounds vbe.fbSize = n * pageSize := by
  have hge := h.ge
  rw [BootableKernel.rounds_eq, h.eq, pageSize, if_neg (by omega)]
  omega

theorem Whole.lt (h : Whole vbe.fbSize n) : n < 529 := by
  have hle := h.le
  simp only [frontStart, heapStart, pageSize] at hle
  omega

/-- A buffer takes a page more than its size, for the records and the alignment. -/
theorem Whole.pagesFor_eq (h : Whole vbe.fbSize n) :
    Liballoc.pagesFor (vbe.fbSize.toNat + 32) = n + 1 := by
  have hge := h.ge
  have hlt := h.lt
  rw [h.eq, pageSize]
  have hst : ((n * 4096 + 32) % 2 ^ 32 + 40) % 2 ^ 32 = n * 4096 + 72 := by omega
  have hst' : (n * 4096 + 72 + 40) % 2 ^ 32 = n * 4096 + 112 := by omega
  simp only [Liballoc.pagesFor, Liballoc.recordSize_eq, Liballoc.pageBytes_eq, Liballoc.pageCount,
    hst, hst']
  rw [if_neg (show ¬ (n * 4096 + 112) % 4096 = 0 by omega), if_neg (by omega)]
  omega

/-- The three ranges that `vga_init` takes: `σ₁`, `σ₂` and `σ₃` are the states of the memory
manager after them. -/
structure Laid (B : Boot) (vbe : VbeScreenInfo) (n : ℕ) (σ₀ σ₁ σ₂ σ₃ : Vmm) : Prop
    extends FrameMapped B vbe σ₀ σ₁ where
  back : ∀ kmalloc, σ₁.vmmMmap B.platform kmalloc 0 (n + 1) true =
    .ok (heapStart + (16 + n) * pageSize, σ₂)
  background : ∀ kmalloc, σ₂.vmmMmap B.platform kmalloc 0 (n + 1) true =
    .ok (heapStart + (16 + n + (n + 1)) * pageSize, σ₃)
  filled : Filled B.platform σ₃ (16 + n + (n + 1) + (n + 1))

theorem drawn_pager {P : Platform} {fsin : ℕ → Bool} {background : ℕ} {s : Memory} {σ : Vmm}
    (hs : s.pager = some σ) :
    (drawn P vbe fsin background s).pager =
      if σ.paging.reaches P background (4 * (vbe.width.toNat * vbe.height.toNat)) then some σ
      else none := by
  rw [drawn, hs]
  dsimp only
  split
  · rename_i hnone
    rw [if_neg]
    rw [← drawBackground_isSome_iff fsin s.mem, hnone]
    exact Bool.false_ne_true
  · rename_i hsome
    rw [if_pos]
    rw [← drawBackground_isSome_iff fsin s.mem, hsome]
    rfl

/-- The blocks of the heap when the first `k` pages are in use: none has room for a buffer, and
none is in the way of the copies to `FRAMEBUFFER`. -/
structure Taken (Bs : List Liballoc.Block) (n k : ℕ) : Prop where
  lacks : ∀ b ∈ Bs, b.Lacks (n * pageSize + 32)
  below : ∀ b ∈ Bs, b.stop ≤ heapStart + k * pageSize
  clear : ∀ b ∈ Bs, b.stop ≤ frontStart ∨ frontStart + n * pageSize ≤ b.addr

theorem Taken.concat {Bs : List Liballoc.Block} {k : ℕ} (h : Taken Bs n k) (hk : 16 + n ≤ k)
    {nb : Liballoc.Block} (haddr : nb.addr = heapStart + k * pageSize) (hpages : nb.pages = n + 1)
    (husage : nb.usage = n * pageSize + 112) (hge : 16 ≤ n) :
    Taken (Bs ++ [nb]) n (k + (n + 1)) := by
  have hstop : nb.stop = heapStart + (k + (n + 1)) * pageSize := by
    rw [Liballoc.Block.stop, haddr, hpages, Liballoc.pageBytes_eq]
    simp only [pageSize]
    omega
  refine ⟨fun b hb => ?_, fun b hb => ?_, fun b hb => ?_⟩
  · rcases List.mem_append.mp hb with hb | hb
    · exact h.lacks b hb
    · obtain rfl := List.mem_singleton.mp hb
      rw [Liballoc.Block.Lacks, hpages, husage, Liballoc.pageBytes_eq]
      simp only [pageSize]
      omega
  · rcases List.mem_append.mp hb with hb | hb
    · have hle := Nat.mul_le_mul_right pageSize (Nat.le_add_right k (n + 1))
      exact (h.below b hb).trans (Nat.add_le_add_left hle heapStart)
    · obtain rfl := List.mem_singleton.mp hb
      exact hstop.le
  · rcases List.mem_append.mp hb with hb | hb
    · exact h.clear b hb
    · obtain rfl := List.mem_singleton.mp hb
      right
      rw [haddr, frontStart]
      simp only [pageSize]
      omega

/-- A buffer of `fb_size` bytes takes the next `n + 1` pages. -/
theorem Whole.kmalloc {P : Platform} {k fuel : ℕ} {s : Memory} {σ : Vmm}
    {Bs : List Liballoc.Block} (h : Whole vbe.fbSize n) (back : ℕ) (hP : P.Valid)
    (hs : Liballoc.Holds s Bs)
    (hne : Bs ≠ []) (hT : Taken Bs n k) (hpager : s.pager = some σ) (hσ : Filled P σ k)
    (hk : 16 + n ≤ k) (hroom : k + (n + 1) < maxHeapSize)
    (hback : back + n * pageSize ≤ heapStart + (k + (n + 1)) * pageSize)
    (hfuel : Bs.length ≤ fuel) :
    ∃ s' τ nb, Liballoc.kmalloc (hooks P ⟨frontStart, back, vbe.fbSize⟩) fuel vbe.fbSize.toNat s =
        some (heapStart + k * pageSize + 96, s') ∧
      Liballoc.Holds s' (Bs ++ [nb]) ∧ Taken (Bs ++ [nb]) n (k + (n + 1)) ∧ s'.pager = some τ ∧
      (∀ kmalloc, σ.vmmMmap P kmalloc 0 (n + 1) true = .ok (heapStart + k * pageSize, τ)) ∧
      Filled P τ (k + (n + 1)) := by
  have hlt := h.lt
  have hrounds := h.rounds_eq
  have hpages := h.pagesFor_eq
  have hlacks : ∀ b ∈ Bs, b.Lacks (vbe.fbSize.toNat + 32) := h.eq ▸ hT.lacks
  obtain ⟨s', τ, nb, hkmalloc, hnb, hok, hτ⟩ := kmalloc_hooks (f := ⟨frontStart, back, vbe.fbSize⟩)
    hP hs hne hlacks hT.below hpager hσ
    (by rw [h.eq, pageSize, Liballoc.maxSize]; omega) (by rw [hpages]; exact hroom)
    (fun τ hτ => hτ.shows
      (by simp only [hrounds, hpages, frontStart, pageSize]; omega)
      (by simp only [hrounds, hpages]; exact hback))
    (.inr (by rw [hrounds]; exact hT.clear)) hfuel
  rw [hpages] at hok hτ
  exact ⟨s', τ, nb, hkmalloc, hnb.holds, hT.concat hk hnb.addr (hnb.pages.trans hpages)
    (by rw [hnb.usage, h.eq]) h.ge, hnb.pager, hok, hτ⟩

/-- `vga_init`, for a size of whole pages. It returns if there is memory for the pixels of the
background. -/
theorem vgaInit_whole (h : Whole vbe.fbSize n) (fsin : ℕ → Bool) {fuel : ℕ} (hfuel : 2 ≤ fuel)
    (mem : Bytes) :
    ∃ σ₀ σ₁ σ₂ σ₃ s₁ s₃, Laid B vbe n σ₀ σ₁ σ₂ σ₃ ∧
      mapFrameBuffer B.platform vbe fuel mem B.paging = some (frontStart, s₁) ∧
      s₁.pager = some σ₁ ∧
      vgaInit B.platform vbe fsin fuel mem B.paging =
        some (⟨frontStart, heapStart + (16 + n) * pageSize + 96,
          heapStart + (16 + n + (n + 1)) * pageSize + 96⟩, s₃) ∧
      s₃.pager = if σ₃.paging.reaches B.platform (heapStart + (16 + n + (n + 1)) * pageSize + 96)
        (4 * (vbe.width.toNat * vbe.height.toNat)) then some σ₃ else none := by
  have hP := B.platform_valid
  have hge := h.ge
  have hlt := h.lt
  have hdiv : vbe.fbSize.toNat / pageSize = n := by
    rw [h.eq]
    exact Nat.mul_div_cancel n pageSize_pos
  obtain ⟨σ₀, σ₁, s₁, nb, hmap, hframe, hnb⟩ := mapFrameBuffer_some (B := B)
    (show Startable vbe.fbSize by rw [Startable, h.rounds_eq]; exact h.le)
    (by rw [hdiv, maxHeapSize]; omega) (show 0 < fuel by omega) mem
  have hσ₁ := hframe.after
  rw [hdiv] at hσ₁
  have hstop : nb.stop = frontStart := by
    rw [Liballoc.Block.stop, hnb.addr, hnb.pages]
    rfl
  have hT : Taken [nb] n (16 + n) := by
    simp only [frontStart] at hstop
    refine ⟨?_, ?_, ?_⟩
    · simp only [List.mem_singleton, forall_eq, Liballoc.Block.Lacks, hnb.pages, hnb.usage]
      rw [show Liballoc.pagesFor 64 = 16 from rfl, Liballoc.pageBytes_eq, pageSize]
      omega
    · simp only [List.mem_singleton, forall_eq, hstop, pageSize]
      omega
    · simp only [List.mem_singleton, forall_eq, hstop, frontStart]
      omega
  obtain ⟨s₂, σ₂, nb₂, hback, hs₂, hT₂, hpager₂, hok₂, hσ₂⟩ := h.kmalloc 0 hP hnb.holds
    (List.cons_ne_nil nb []) hT hnb.pager hσ₁ le_rfl (by rw [maxHeapSize]; omega)
    (by simp only [pageSize]; omega) (show [nb].length ≤ fuel by simp; omega)
  obtain ⟨s₃, σ₃, nb₃, hbackground, -, -, hpager₃, hok₃, hσ₃⟩ := h.kmalloc
    (heapStart + (16 + n) * pageSize + 96) hP hs₂ (by simp) hT₂ hpager₂ hσ₂
    (Nat.le_add_right _ _) (by rw [maxHeapSize]; omega) (by simp only [pageSize]; omega)
    (show ([nb] ++ [nb₂]).length ≤ fuel by simp; omega)
  refine ⟨σ₀, σ₁, σ₂, σ₃, s₁, drawn B.platform vbe fsin _ s₃,
    { hframe with back := hok₂, background := hok₃, filled := hσ₃ }, hmap, hnb.pager, ?_,
    drawn_pager hpager₃⟩
  simp only [vgaInit, hmap, hback, hbackground, Option.bind_eq_bind, Option.bind_some]

end

end Vmm

end BootableKernel
