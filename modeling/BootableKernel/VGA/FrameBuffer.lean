import BootableKernel.Heap.Fuel
import BootableKernel.VGA.Init

/-!
# The mapping of the frame buffer

`vga_init` maps `fb_size / PAGE_SIZE` pages from `physical_buffer & ~0xfff` on, and goes on to
use `fb_size` bytes from the address it gets. The division drops the part of a page at the
end, and the mask the offset of the buffer in its first page. The next pages are those of
`BACKBUFFER`.

`framebuffer_iff` says for which modes `vga_init` returns, with the `fb_size` bytes from
`FRAMEBUFFER` on those of the frame buffer and out of the way of every other allocation.
-/

namespace BootableKernel

open LinkedList

namespace Vmm
open Paging Vesa
variable {P : Platform}

/-- The requests that follow: of any kind, but the frame buffer is never freed. -/
def KeepsBuffer (x : Span) (_ : Vmm) : Request → Prop
  | .mmap _ _ _ _ => True
  | .free start pages _ => (⟨start, pages⟩ : Span) ≠ x
  | .setPermission addr _ _ _ => addr < heapStart

/-- `FRAMEBUFFER` is `fb`. `σ` is the memory manager right after that was mapped, and `σ'` at
the end of `vga_init`. -/
structure OwnsBuffer (P : Platform) (σ σ' : Vmm) (fb size buffer : ℕ) : Prop where
  /-- The requests in between. -/
  run : Run P (KeepsBuffer ⟨fb, size / pageSize⟩) σ σ'
  /-- From the end of `vga_init` on, the bytes from `fb` are those of the frame buffer. -/
  bytes : ∀ τ, Run P (KeepsBuffer ⟨fb, size / pageSize⟩) σ' τ →
    ∀ k < size, τ.paging.byteAt P (fb + k) = some (buffer + k)
  /-- No call of `vmm_mmap` after the first returns any of them. -/
  apart : ∀ τ, Run P (KeepsBuffer ⟨fb, size / pageSize⟩) σ τ →
    ∀ kmalloc physical n isKernel s τ',
      τ.vmmMmap P kmalloc physical n isKernel = .ok (s, τ') → s ≠ 0 →
      ∀ a, ¬ ((s ≤ a ∧ a < s + n * pageSize) ∧ fb ≤ a ∧ a < fb + size)

/-- `vga_init` returns, and the frame buffer is where the kernel writes. -/
def Initialises (B : Boot) (vbe : VbeScreenInfo) (fsin : ℕ → Bool) (mem : Bytes) : Prop :=
  ∃ fuel p s₁ σ₁ s σ, mapFrameBuffer B.platform vbe fuel mem B.paging = some (p.front, s₁) ∧
    s₁.pager = some σ₁ ∧ vgaInit B.platform vbe fsin fuel mem B.paging = some (p, s) ∧
    s.pager = some σ ∧
    OwnsBuffer B.platform σ₁ σ p.front vbe.fbSize.toNat vbe.physicalBuffer.toNat

/-- A range that is never freed stays outstanding. -/
theorem outstanding_kept {x : Span} {σ τ : Vmm} (hx : x ∈ outstanding σ.calls)
    (hl : ∃ xs, Ledger σ xs) (hrun : Run P (KeepsBuffer x) σ τ) :
    x ∈ outstanding τ.calls ∧ ∃ xs, Ledger τ xs := by
  induction hrun with
  | refl => exact ⟨hx, hl⟩
  | tail _ hs ih =>
      obtain ⟨hmem, xs, h⟩ := ih
      refine ⟨?_, h.step hs⟩
      cases h.effect hs with
      | refused _ hc => exact hc ▸ hmem
      | mapped _ _ _ _ _ _ _ _ hc =>
          rw [hc]
          exact List.mem_cons_of_mem _ hmem
      | freed y _ hy _ _ hc =>
          rw [hc, outstanding_freed]
          exact (List.mem_erase_of_ne (Ne.symm hy)).mpr hmem
      | freedGrown y _ _ _ hy _ _ _ hc =>
          rw [hc, outstanding_freed]
          exact (List.mem_erase_of_ne (Ne.symm hy)).mpr (List.mem_cons_of_mem _ hmem)
      | permitted _ _ _ _ _ _ hc => exact hc ▸ hmem

theorem keepsBuffer_low (x : Span) : LowPermissions (KeepsBuffer x) := fun _ _ _ _ _ h => h

/-- Every frame address is a page boundary. -/
theorem translate_aligned {σ : Paging} {v f : ℕ} (h : σ.translate P v = some f) :
    f % pageSize = 0 := by
  rw [Paging.translate, target_of_present (present_of_translate h), Option.some.injEq] at h
  rw [← h, frameOf_eq, pageSize]
  omega

/-- A granted request is a step. -/
theorem step_mmap {σ σ' : Vmm} {physical n s : ℕ}
    (h : ∀ kmalloc, σ.vmmMmap P kmalloc physical n true = .ok (s, σ')) (x : Span) :
    Step P (KeepsBuffer x) σ σ' :=
  ⟨.mmap physical n true (.atOnce 0), trivial, trivial, Request.perform_mmap_iff.mpr ⟨s, h _⟩⟩

section Mapped
variable {B : Boot} {vbe : VbeScreenInfo} {σ₀ σ₁ σ₂ σ₃ : Vmm} {n : ℕ}

theorem FrameMapped.mem (h : FrameMapped B vbe σ₀ σ₁) :
    (⟨frontStart, vbe.fbSize.toNat / pageSize⟩ : Span) ∈ outstanding σ₁.calls := by
  rw [h.calls_eq]
  exact List.mem_cons_self

/-- The pages of the frame buffer were not mapped before. -/
theorem FrameMapped.fresh (h : FrameMapped B vbe σ₀ σ₁) {i : ℕ}
    (hi : i < vbe.fbSize.toNat / pageSize) :
    σ₀.paging.translate B.platform (frontStart + i * pageSize) = none :=
  h.before.paging.unmapped _ (h.range i hi).upper (Nat.le_add_right _ _)

/-- The next call of `vmm_mmap` returns the last part of a page, if there is one. -/
theorem FrameMapped.whole (h : FrameMapped B vbe σ₀ σ₁)
    (hroom : 16 + vbe.fbSize.toNat / pageSize + 1 < maxHeapSize)
    (ho : ∀ kmalloc physical n isKernel s τ',
      σ₁.vmmMmap B.platform kmalloc physical n isKernel = .ok (s, τ') → s ≠ 0 →
      ∀ a, ¬ ((s ≤ a ∧ a < s + n * pageSize) ∧ frontStart ≤ a ∧
        a < frontStart + vbe.fbSize.toNat)) :
    vbe.fbSize.toNat % pageSize = 0 := by
  by_contra hc
  obtain ⟨σ₂, hok, -⟩ := h.after.mmap B.platform_valid hroom 0
  refine ho _ _ _ _ _ _ (hok fun _ => .error .null) ?_
    (heapStart + (16 + vbe.fbSize.toNat / pageSize) * pageSize) ?_
  · simp only [heapStart]
    omega
  · simp only [frontStart, heapStart, pageSize] at hc ⊢
    omega

/-- Whole pages at a page boundary: the bytes are those of the buffer, and stay so. -/
theorem Laid.owns (h : Laid B vbe n σ₀ σ₁ σ₂ σ₃) (hn : Whole vbe.fbSize n)
    (hal : vbe.physicalBuffer.toNat % pageSize = 0) (hpos : 0 < vbe.physicalBuffer.toNat) :
    OwnsBuffer B.platform σ₁ σ₃ frontStart vbe.fbSize.toNat vbe.physicalBuffer.toNat := by
  have hP := B.platform_valid
  have hlt := vbe.physicalBuffer.isLt
  have hpage : vbe.physicalBuffer.toNat / pageSize * pageSize = vbe.physicalBuffer.toNat :=
    Nat.div_mul_cancel (Nat.dvd_of_mod_eq_zero hal)
  have hsize := hn.eq
  have hge := hn.ge
  have hle := hn.lt
  have hdiv : vbe.fbSize.toNat / pageSize = n := by
    rw [hsize]
    exact Nat.mul_div_cancel n pageSize_pos
  have hrun : Run B.platform (KeepsBuffer ⟨frontStart, vbe.fbSize.toNat / pageSize⟩) σ₁ σ₃ :=
    .tail (.single (step_mmap h.back _)) (step_mmap h.background _)
  refine ⟨hrun, fun τ hτ k hk => ?_, fun τ hτ kmalloc physical m isKernel s τ' hm hs a => ?_⟩
  · have hi : k / pageSize < vbe.fbSize.toNat / pageSize := by
      simp only [pageSize] at *
      omega
    have ht := h.before.paging.kept.frames.ensure_translate hP h.range
      (p := vbe.physicalBuffer.toNat) hpos hal
      (by rw [hdiv, pageSize]; omega) true (fun i hi => .inl (h.fresh hi)) _ hi
    rw [← hpage, ← h.paging_eq, hpage] at ht
    have hkept := translate_of_run B (keepsBuffer_low _) h.bootstrapped
      (.single (step_mmap h.mapped _)) (hrun.trans hτ) ht
    have hbyte := byteAt_add (h.range _ hi).aligned (Nat.mod_lt k pageSize_pos) hkept
    rwa [Nat.add_assoc _ (k / pageSize * pageSize), Nat.add_assoc vbe.physicalBuffer.toNat,
      Nat.div_add_mod'] at hbyte
  · rintro ⟨⟨h₁, h₂⟩, h₃, h₄⟩
    obtain ⟨node, hledger⟩ := h.after.ledger
    obtain ⟨hmem, xs, hl⟩ := outstanding_kept h.mem ⟨_, hledger⟩ hτ
    have hm0 : 0 < m := by
      by_contra hc
      obtain rfl : m = 0 := by omega
      omega
    have hap := hl.mmap_apart hm hs hm0 hmem (by dsimp only; omega)
    rw [Span.stop, hdiv, ← hsize] at hap
    dsimp only at hap
    omega

/-- What the property says about the address of the buffer. -/
theorem Laid.of_owns (h : Laid B vbe n σ₀ σ₁ σ₂ σ₃) (hn : Whole vbe.fbSize n)
    (ho : OwnsBuffer B.platform σ₁ σ₃ frontStart vbe.fbSize.toNat vbe.physicalBuffer.toNat) :
    vbe.physicalBuffer.toNat % pageSize = 0 ∧ 0 < vbe.physicalBuffer.toNat := by
  have hP := B.platform_valid
  have hge := hn.ge
  have hdiv : vbe.fbSize.toNat / pageSize = n := by
    rw [hn.eq]
    exact Nat.mul_div_cancel n pageSize_pos
  have hpages : 0 < vbe.fbSize.toNat / pageSize := by omega
  -- the first page: it has a frame since the first call, and that is where the buffer starts
  obtain ⟨a, ha, hor⟩ := h.before.paging.kept.frames.ensure_backing hP h.range
    (vbe.physicalBuffer.toNat / pageSize * pageSize) true hpages
  rw [← h.paging_eq, Nat.zero_mul, Nat.add_zero] at ha hor
  have ha₃ := translate_of_run B (keepsBuffer_low _) h.bootstrapped
    (.single (step_mmap h.mapped _)) ho.run ha
  have hfirst := ho.bytes σ₃ .refl 0 (by rw [hn.eq, pageSize]; omega)
  rw [Nat.add_zero, byteAt, ha₃] at hfirst
  obtain rfl : a = vbe.physicalBuffer.toNat := Option.some.inj hfirst
  refine ⟨translate_aligned ha, Nat.pos_of_ne_zero fun hzero => ?_⟩
  -- Without an address the pages get frames of the allocator.
  have hfresh := h.fresh hpages
  rw [Nat.zero_mul, Nat.add_zero] at hfresh
  rcases hor with hold | hdrawn | ⟨hphys, -⟩
  · rw [hfresh] at hold
    exact absurd hold (by simp)
  · have hk := h.after.paging.kept.frames
    obtain ⟨-, -, j, -, hj⟩ := hk.pages _ hdrawn
    have := hP.pos
    simp only [frame, PMM.frameAddr] at hj
    omega
  · rw [hzero] at hphys
    exact hphys rfl

/-- The pixels of the background fit behind its record if and only if its pages reach so far. -/
theorem Laid.reaches_iff (h : Laid B vbe n σ₀ σ₁ σ₂ σ₃) (hn : Whole vbe.fbSize n) {k : ℕ} :
    σ₃.paging.reaches B.platform (heapStart + (16 + n + (n + 1)) * pageSize + 96) k = true ↔
      96 + k ≤ (n + 1) * pageSize := by
  have hlt := hn.lt
  have hfilled := h.filled.paging
  constructor
  · intro hr
    by_contra hc
    have hpage : 96 < (n + 1) * pageSize := by
      rw [pageSize]
      omega
    have hlast := (Paging.reaches_iff.mp hr) ((n + 1) * pageSize - 96) (by omega)
    have hend : heapStart + (16 + n + (n + 1)) * pageSize + 96 + ((n + 1) * pageSize - 96) =
        heapStart + (16 + n + (n + 1) + (n + 1)) * pageSize := by
      simp only [pageSize]
      omega
    have hupper : UpperPage (heapStart + (16 + n + (n + 1) + (n + 1)) * pageSize) := by
      refine ⟨Nat.le_add_right _ _, ?_, ?_⟩
      · simp only [heapStart, pageSize]
        omega
      · simp only [heapStart, pageSize]
        omega
    rw [isSome_byteAt, hend, hfilled.unmapped _ hupper le_rfl] at hlast
    exact absurd hlast (by simp)
  · intro hle
    refine reaches_mono hfilled.reached (Nat.zero_le _) ?_
    simp only [pageSize] at hle ⊢
    omega

end Mapped

/-! ## The bound on the turns -/

section
variable {vbe : VbeScreenInfo} {fuel fuel' : ℕ}

theorem mapFrameBuffer_extends (hle : fuel ≤ fuel') (mem : Bytes) (paging : Paging) :
    Liballoc.Extends (mapFrameBuffer P vbe fuel mem paging)
      (mapFrameBuffer P vbe fuel' mem paging) :=
  (Liballoc.kmalloc_extends hle _ _).bind fun _ => .refl _

theorem vgaInit_extends (hle : fuel ≤ fuel') (fsin : ℕ → Bool) (mem : Bytes) (paging : Paging) :
    Liballoc.Extends (vgaInit P vbe fsin fuel mem paging) (vgaInit P vbe fsin fuel' mem paging) :=
  (mapFrameBuffer_extends hle mem paging).bind fun _ =>
    (Liballoc.kmalloc_extends hle _ _).bind fun _ =>
      (Liballoc.kmalloc_extends hle _ _).bind fun _ => .refl _

end

/-! ## Which modes -/

theorem startable_iff (size : BitVec 64) :
    Startable size ↔ 128 ≤ size.toNat ∧ 128 * (size.toNat / 128) ≤ frontStart := by
  have hstart : frontStart < 2 ^ 64 := by decide
  rw [Startable, rounds_eq]
  split
  · omega
  · exact ⟨fun h => ⟨by omega, h⟩, And.right⟩

/-- What the loader leaves: no mode, or lines for 800 by 600 pixels. -/
theorem size_of_leftBehind {vbe : VbeScreenInfo} (h : LeftBehind vbe) :
    vbe.fbSize.toNat = vbe.bytes ∧ (vbe.bytes = 0 ∨
      vbe.bytes = 600 * vbe.bytesPerLine.toNat ∧ vbe.width.toNat = 800 ∧ vbe.height.toNat = 600) := by
  rcases (leftBehind_iff vbe).mp h with rfl | ⟨pitch, framebuffer, rfl⟩
  · exact ⟨by decide, .inl (by decide)⟩
  · have hlt := pitch.isLt
    have hbytes : (save bootRequest ⟨pitch, 800, 600, 32, framebuffer⟩).bytes =
        600 * pitch.toNat := rfl
    refine ⟨?_, .inr ⟨hbytes, rfl, rfl⟩⟩
    rw [VbeScreenInfo.toNat_fbSize, hbytes, if_pos (by omega)]

/-- Lines of pixels that make whole pages. -/
theorem whole_of_bytes {vbe : VbeScreenInfo} (hsize : vbe.fbSize.toNat = vbe.bytes)
    (hbytes : vbe.bytes = 600 * vbe.bytesPerLine.toNat) (hpos : 0 < vbe.bytes)
    (hwhole : vbe.bytes % pageSize = 0) (hle : vbe.bytes ≤ frontStart) :
    Whole vbe.fbSize (vbe.bytes / pageSize) := by
  have hmul := Nat.div_mul_cancel (Nat.dvd_of_mod_eq_zero hwhole)
  refine ⟨hsize.trans hmul.symm, ?_, hmul.le.trans hle⟩
  simp only [pageSize] at hwhole ⊢
  omega

namespace Initialises
variable {B : Boot} {vbe : VbeScreenInfo} {fsin : ℕ → Bool} {mem : Bytes} {n : ℕ}

/-- The first call of `log` returns. -/
theorem startable (h : Initialises B vbe fsin mem) : Startable vbe.fbSize := by
  by_contra hc
  obtain ⟨fuel, p, s₁, σ₁, s, σ, hmap, hs₁, -, -, -⟩ := h
  obtain ⟨t, ht, hnone⟩ := mapFrameBuffer_none (B := B) hc fuel mem
  obtain ⟨-, rfl⟩ := Prod.mk.inj (Option.some.inj (hmap.symm.trans ht))
  rw [hs₁] at hnone
  exact absurd hnone (by simp)

/-- The next call of `vmm_mmap` returns what is behind the pages of the buffer. -/
theorem whole_pages (h : Initialises B vbe fsin mem)
    (hroom : 16 + vbe.fbSize.toNat / pageSize + 1 < maxHeapSize) :
    vbe.fbSize.toNat % pageSize = 0 := by
  have hstart := h.startable
  obtain ⟨fuel, p, s₁, σ₁, s, σ, hmap, hs₁, -, -, ho⟩ := h
  have hmap' := mapFrameBuffer_extends (Nat.le_succ fuel) mem B.paging _ hmap
  obtain ⟨σ₀, τ₁, t₁, nb, heq, hframe, hserved⟩ := mapFrameBuffer_some (B := B) hstart (by omega)
    fuel.succ_pos mem
  obtain ⟨hfront, rfl⟩ := Prod.mk.inj (Option.some.inj (hmap'.symm.trans heq))
  obtain rfl : σ₁ = τ₁ := Option.some.inj (hs₁.symm.trans hserved.pager)
  rw [hfront] at ho
  exact hframe.whole hroom (ho.apart σ₁ .refl)

/-- The three ranges are where they are for every such size, and the background was drawn. -/
theorem laid (h : Initialises B vbe fsin mem) (hn : Whole vbe.fbSize n) :
    ∃ σ₀ σ₁ σ₂ σ₃, Laid B vbe n σ₀ σ₁ σ₂ σ₃ ∧
      OwnsBuffer B.platform σ₁ σ₃ frontStart vbe.fbSize.toNat vbe.physicalBuffer.toNat ∧
      σ₃.paging.reaches B.platform (heapStart + (16 + n + (n + 1)) * pageSize + 96)
        (4 * (vbe.width.toNat * vbe.height.toNat)) = true := by
  obtain ⟨fuel, p, s₁, σ₁, s, σ, hmap, hs₁, hinit, hs, ho⟩ := h
  have hmap' := mapFrameBuffer_extends (Nat.le_add_right fuel 2) mem B.paging _ hmap
  have hinit' := vgaInit_extends (Nat.le_add_right fuel 2) fsin mem B.paging _ hinit
  obtain ⟨σ₀, τ₁, σ₂, σ₃, t₁, s₃, hlaid, heq, ht, heq', hpager⟩ :=
    vgaInit_whole (B := B) hn fsin (show 2 ≤ fuel + 2 by omega) mem
  obtain ⟨hfront, rfl⟩ := Prod.mk.inj (Option.some.inj (hmap'.symm.trans heq))
  obtain rfl : σ₁ = τ₁ := Option.some.inj (hs₁.symm.trans ht)
  obtain ⟨-, rfl⟩ := Prod.mk.inj (Option.some.inj (hinit'.symm.trans heq'))
  rw [hfront] at ho
  rw [hs] at hpager
  split at hpager
  · rename_i hreach
    obtain rfl := Option.some.inj hpager
    exact ⟨σ₀, σ₁, σ₂, σ, hlaid, ho, hreach⟩
  · exact absurd hpager (by simp)

end Initialises

/-- **When the kernel owns the frame buffer.** For every mode the loader can leave, `vga_init`
returns with the `fb_size` bytes from `FRAMEBUFFER` on those of the frame buffer, and clear of
all later allocations, exactly when the buffer starts on a page boundary other than `0`, its
size is a number of whole pages, but not more than is mapped when the first call of `log`
copies it from null to null, and its lines are as long as their pixels. -/
theorem framebuffer_iff (B : Boot) (fsin : ℕ → Bool) (mem : Bytes) {vbe : VbeScreenInfo}
    (h : LeftBehind vbe) :
    Initialises B vbe fsin mem ↔
      (vbe.physicalBuffer.toNat % pageSize = 0 ∧ 0 < vbe.physicalBuffer.toNat) ∧
      (vbe.bytes % pageSize = 0 ∧ 0 < vbe.bytes ∧ vbe.bytes ≤ heapStart + 16 * pageSize) ∧
      4 * vbe.width.toNat ≤ vbe.bytesPerLine.toNat := by
  obtain ⟨hsize, hshape⟩ := size_of_leftBehind h
  constructor
  · intro hinit
    obtain ⟨hfirst, hcopies⟩ := (startable_iff _).mp hinit.startable
    rw [hsize] at hfirst hcopies
    have hpages : vbe.bytes / pageSize < 529 := by
      simp only [frontStart, heapStart, pageSize] at hcopies ⊢
      omega
    have hwhole := hinit.whole_pages (by rw [hsize, maxHeapSize]; omega)
    rw [hsize] at hwhole
    have hle : vbe.bytes ≤ frontStart := by
      simp only [pageSize] at hwhole
      omega
    obtain ⟨hbytes, hwidth, hheight⟩ := hshape.resolve_left (by omega)
    have hn := whole_of_bytes hsize hbytes (by omega) hwhole hle
    obtain ⟨σ₀, σ₁, σ₂, σ₃, hlaid, ho, hreach⟩ := hinit.laid hn
    have hdrawn := (hlaid.reaches_iff hn).mp hreach
    refine ⟨hlaid.of_owns hn ho, ⟨hwhole, by omega, hle⟩, ?_⟩
    rw [hwidth, hheight] at hdrawn
    simp only [pageSize] at hwhole hdrawn
    omega
  · rintro ⟨⟨hal, hpos⟩, ⟨hwhole, hbytes, hle⟩, hline⟩
    obtain ⟨hshape, hwidth, hheight⟩ := hshape.resolve_left (by omega)
    have hn := whole_of_bytes hsize hshape hbytes hwhole hle
    obtain ⟨σ₀, σ₁, σ₂, σ₃, s₁, s₃, hlaid, hmap, hs₁, hinit, hpager⟩ :=
      vgaInit_whole (B := B) hn fsin (le_refl 2) mem
    refine ⟨2, _, s₁, σ₁, s₃, σ₃, hmap, hs₁, hinit, ?_, hlaid.owns hn hal hpos⟩
    rw [hpager, if_pos]
    rw [hlaid.reaches_iff hn, hwidth, hheight]
    simp only [pageSize] at hwhole ⊢
    omega

/-- In the mode of the emulator, of 3200 bytes a line, the buffer has 468 pages and three
quarters of another: the last 3072 bytes are not mapped. -/
theorem framebuffer_boot_fails :
    LeftBehind (save bootRequest ⟨3200, 800, 600, 32, 0xfd000000⟩) ∧
      ¬ Initialises Boot.sample (save bootRequest ⟨3200, 800, 600, 32, 0xfd000000⟩)
        (fun _ => false) ⟨fun _ => 0⟩ := by
  have h : LeftBehind (save bootRequest ⟨3200, 800, 600, 32, 0xfd000000⟩) :=
    (leftBehind_iff _).mpr (.inr ⟨_, _, rfl⟩)
  refine ⟨h, fun hinit => ?_⟩
  obtain ⟨-, ⟨hwhole, -⟩, -⟩ := (framebuffer_iff Boot.sample (fun _ => false) ⟨fun _ => 0⟩ h).mp hinit
  exact absurd hwhole (by decide)

/-- Lines of 3584 bytes make 525 pages. -/
theorem framebuffer_3584 :
    Initialises Boot.sample (save bootRequest ⟨3584, 800, 600, 32, 0xfd000000⟩)
      (fun _ => false) ⟨fun _ => 0⟩ :=
  (framebuffer_iff Boot.sample (fun _ => false) ⟨fun _ => 0⟩
    ((leftBehind_iff _).mpr (.inr ⟨_, _, rfl⟩))).mpr
      ⟨⟨by decide, by decide⟩, ⟨by decide, by decide, by decide⟩, by decide⟩

end Vmm
end BootableKernel
