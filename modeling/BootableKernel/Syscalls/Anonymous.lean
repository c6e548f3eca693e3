import BootableKernel.Memory.Contents
import BootableKernel.Syscalls.Mmap

/-!
# What anonymous memory contains

Anonymous memory should be clear when user code gets it. `mmap` does not clear it: a page
keeps the frame it had from an earlier allocation of the kernel, or gets one that was never
used, and in either case it shows what the frame contained. `anonymous_clean_iff` compares
the runs of a call from states that user code cannot tell apart.
-/

namespace BootableKernel

open LinkedList Paging Vmm

/-! ## Reading memory -/

/-- The byte of a frame at an offset, the low byte of each word first. -/
def byteOf (words : Index → Entry) (offset : ℕ) : BitVec 8 :=
  (words (Fin.ofNat 512 (offset / 8))).extractLsb' (offset % 8 * 8) 8

/-- What user code reads at `a`, unless it faults. -/
def Paging.readUser (P : Platform) (σ : Paging) (a : Word) : Option (BitVec 8) :=
  if σ.accessible P a then
    (σ.translate P a.toNat).map fun f => byteOf (σ.mem f) (a.toNat % pageSize)
  else none

namespace Syscalls
variable {I : Image} {vbe : VbeInfo} {kmalloc : KMalloc}

/-- A call for anonymous memory that succeeds gets pages of a free block. -/
theorem anonymous_steps {σ σ' : Vmm} {xs : List (ℕ × Span)} (hxs : Ordered σ xs)
    {addr length p : Word}
    (hr : (mmap vbe I.platform kmalloc addr length (-1) 0 σ).result = .ok (p, σ'))
    (herr : p ≠ -1) (hnull : p ≠ 0) :
    addr = 0 ∧ ∃ s l, FreeList.take pageSize (length.toNat / pageSize) (blocks xs) = some (s, l) ∧
      p = BitVec.ofNat 64 s ∧ HeapPage s ∧ HeapRange s (length.toNat / pageSize) ∧
      σ'.paging = σ.paging.ensurePagesMapped I.platform (mapFlags false)
        (length.toNat / pageSize) 0 s := by
  by_cases haddr : addr = 0
  · refine ⟨haddr, ?_⟩
    rw [mmap, if_pos ⟨rfl, haddr⟩] at hr
    rcases mapPages_result hxs hr with
      ⟨rfl, -, -⟩ | ⟨s, l, -, rfl, -, htake, hs, hrange, -, -, -, hpaging⟩
    · exact absurd rfl hnull
    · exact ⟨s, l, htake, rfl, hs, hrange, hpaging⟩
  · -- With an address the call fails, whether or not it is aligned.
    rw [mmap, if_neg fun hc => haddr hc.2] at hr
    split at hr
    · exact absurd (congrArg Prod.fst (Except.ok.inj hr)).symm herr
    · rw [if_pos (by decide)] at hr
      exact absurd (congrArg Prod.fst (Except.ok.inj hr)).symm herr

/-- The first byte of a page is what its frame, which was hidden before, contained. -/
theorem readUser_first {σ σ' : Vmm} (h : I.Steady σ) {addr length p : Word}
    (hr : (mmap vbe I.platform kmalloc addr length (-1) 0 σ).result = .ok (p, σ'))
    (herr : p ≠ -1) (hnull : p ≠ 0) (hlen : pageSize ≤ length.toNat) :
    ∃ f, Hidden I.platform σ.paging f ∧
      σ'.paging.readUser I.platform p = some (byteOf (σ.paging.mem f) 0) := by
  obtain ⟨xs, hxs⟩ := h.ordered
  obtain ⟨-, s, l, htake, rfl, hs, hrange, hpaging⟩ := anonymous_steps hxs hr herr hnull
  have hpos : 0 < length.toNat / pageSize := Nat.div_pos hlen pageSize_pos
  obtain ⟨f, hf, hhidden, hmem⟩ := h.backing hxs.toLedger htake
    (v := s) ((Span.covers_iff pageSize_pos).mpr ⟨0, hpos, by simp⟩)
  have hP : I.platform.Valid := I.boot.platform_valid
  have hopen := h.isolated.kept.frames.ensure_accessible hP hrange (Nat.zero_mod _) hpos
  rw [Nat.zero_mul, Nat.add_zero] at hopen
  refine ⟨f, hhidden, ?_⟩
  rw [hpaging, readUser, accessible, hs.toNat_ofNat, hf, hs.aligned, Option.map_some, hmem,
    if_pos]
  have hlt := hs.lt_two_pow
  rw [canonical_of_lt (by omega), hopen]
  rfl

/-- A request for less than a page is given an address where nothing can be read. -/
theorem readUser_short {σ σ' : Vmm} (h : I.Steady σ) {addr length p : Word}
    (hr : (mmap vbe I.platform kmalloc addr length (-1) 0 σ).result = .ok (p, σ'))
    (herr : p ≠ -1) (hnull : p ≠ 0) (hlen : length.toNat < pageSize) {k : ℕ}
    (hk : k < length.toNat) : σ'.paging.readUser I.platform (p + BitVec.ofNat 64 k) = none := by
  obtain ⟨xs, hxs⟩ := h.ordered
  obtain ⟨-, s, l, htake, rfl, hs, -, hpaging⟩ := anonymous_steps hxs hr herr hnull
  rw [Nat.div_eq_of_lt hlen, ensurePagesMapped] at hpaging
  have haddr : (BitVec.ofNat 64 s + BitVec.ofNat 64 k).toNat = s + k := by
    have h₁ := hs.lt_two_pow
    have h₂ : pageSize < 2 ^ 46 := by decide
    rw [toNat_add_ofNat, hs.toNat_ofNat]
    rw [hs.toNat_ofNat]
    omega
  rw [readUser, if_neg]
  rw [hpaging, accessible, haddr, userAccessible_add hs.aligned (by omega),
    h.closed hxs.toLedger hs (covered_take_start hxs htake), Bool.and_false]
  exact Bool.false_ne_true

/-- What user code reads in the range that a call returned before it writes there is zero,
and it is the same whatever the frames that are hidden from it contained before. -/
def Clean (vbe : VbeInfo) (P : Platform) (kmalloc : KMalloc) (addr length : Word) (σ : Vmm)
    (p : Word) (σ' : Vmm) : Prop :=
  ∀ mem, Alike P σ.paging mem →
    ∃ τ', (mmap vbe P kmalloc addr length (-1) 0 (σ.withMem mem)).result = .ok (p, τ') ∧
      ∀ k < length.toNat,
        τ'.paging.readUser P (p + BitVec.ofNat 64 k) =
          σ'.paging.readUser P (p + BitVec.ofNat 64 k) ∧
        ∀ b, σ'.paging.readUser P (p + BitVec.ofNat 64 k) = some b → b = 0

open Classical in
/-- The same memory with all hidden frames full of ones. -/
noncomputable def painted (P : Platform) (σ : Paging) : ℕ → Index → Entry :=
  fun f => if Hidden P σ f then fun _ => -1 else σ.mem f

theorem painted_alike (P : Platform) (σ : Paging) : Alike P σ (painted P σ) := by
  intro f hf
  rw [painted, if_neg hf]

/-- From painted memory a call for a page or more hands out ones. -/
theorem readUser_painted {σ τ' : Vmm} (h : I.Steady σ) {addr length p : Word}
    (hr : (mmap vbe I.platform kmalloc addr length (-1) 0
      (σ.withMem (painted I.platform σ.paging))).result = .ok (p, τ'))
    (herr : p ≠ -1) (hnull : p ≠ 0) (hlen : pageSize ≤ length.toNat) :
    τ'.paging.readUser I.platform p = some 0xff := by
  have hsame := (painted_alike I.platform σ.paging).sameTables
  obtain ⟨f, hf, hread⟩ := readUser_first (h.withMem hsame) hr herr hnull hlen
  have hones : (σ.withMem (painted I.platform σ.paging)).paging.mem f = fun _ => -1 :=
    if_pos (hsame.hidden_iff.mp hf)
  rw [hread, hones]
  rfl

theorem not_clean {σ σ' : Vmm} (h : I.Steady σ) {addr length p : Word} (herr : p ≠ -1)
    (hnull : p ≠ 0) (hlen : pageSize ≤ length.toNat) :
    ¬ Clean vbe I.platform kmalloc addr length σ p σ' := by
  intro hclean
  obtain ⟨τ', hr, hall⟩ := hclean _ (painted_alike I.platform σ.paging)
  obtain ⟨hsame, hzero⟩ := hall 0 (lt_of_lt_of_le pageSize_pos hlen)
  have hread := readUser_painted h hr herr hnull hlen
  rw [show p + BitVec.ofNat 64 0 = p from BitVec.add_zero _] at hsame hzero
  exact absurd (hzero _ (hsame ▸ hread)) (by decide)

/-- **Anonymous memory.** In every live state a call for anonymous memory that succeeds is
clean exactly if it is for less than a page, and so maps nothing. -/
theorem anonymous_clean_iff {σ σ' : Vmm} (h : I.Live σ) {addr length p : Word}
    (hr : (mmap vbe I.platform kmalloc addr length (-1) 0 σ).result = .ok (p, σ'))
    (herr : p ≠ -1) (hnull : p ≠ 0) :
    Clean vbe I.platform kmalloc addr length σ p σ' ↔ length.toNat < pageSize := by
  have hs := h.steady
  obtain ⟨xs, hxs⟩ := hs.ordered
  obtain ⟨rfl, s, l, htake, rfl, -⟩ := anonymous_steps hxs hr herr hnull
  constructor
  · intro hclean
    by_contra hlen
    exact not_clean hs herr hnull (Nat.le_of_not_lt hlen) hclean
  · intro hlen mem hmem
    have hs' := hs.withMem hmem.sameTables
    obtain ⟨τ', -, hr', -⟩ := anonymous_result vbe I.platform kmalloc (hxs.withMem mem).toLedger htake
    refine ⟨τ', hr', fun k hk => ?_⟩
    rw [readUser_short hs hr herr hnull hlen hk, readUser_short hs' hr' herr hnull hlen hk]
    exact ⟨rfl, fun b hb => absurd hb (by simp)⟩

/-! ## On the sample image -/

theorem sampleStart_live : Image.sample.Live sampleStart :=
  .boot [] (by simp) sampleStart_bootstrapped

/-- A request for a byte. -/
theorem anonymous_clean_iff_sample : ∃ σ',
    (mmap VbeInfo.sample Image.sample.platform (fun σ => .ok (0, σ)) 0 1 (-1) 0 sampleStart).result =
      .ok (0x210000, σ') ∧
    Clean VbeInfo.sample Image.sample.platform (fun σ => .ok (0, σ)) 0 1 sampleStart 0x210000 σ' := by
  obtain ⟨node, h₀⟩ := sampleStart_ledger
  have hroom : (1 : Word).toNat / pageSize ≤ sampleBlock.size := by decide
  obtain ⟨σ', -, hr, -⟩ := anonymous_result VbeInfo.sample Image.sample.platform
    (fun σ => .ok (0, σ)) h₀ (sampleBlock_take hroom)
  exact ⟨σ', hr, (anonymous_clean_iff sampleStart_live hr (by decide) (by decide)).mpr (by decide)⟩

/-- A request for a page, once with memory clear and once with hidden frames painted. -/
theorem anonymous_leaks : ∃ σ' τ',
    (mmap VbeInfo.sample Image.sample.platform (fun σ => .ok (0, σ)) 0 0x1000 (-1) 0
      sampleStart).result = .ok (0x210000, σ') ∧
    (mmap VbeInfo.sample Image.sample.platform (fun σ => .ok (0, σ)) 0 0x1000 (-1) 0
      (sampleStart.withMem (painted Image.sample.platform sampleStart.paging))).result =
        .ok (0x210000, τ') ∧
    τ'.paging.readUser Image.sample.platform 0x210000 = some 0xff ∧
    ¬ Clean VbeInfo.sample Image.sample.platform (fun σ => .ok (0, σ)) 0 0x1000 sampleStart
      0x210000 σ' := by
  obtain ⟨node, h₀⟩ := sampleStart_ledger
  have hroom : (0x1000 : Word).toNat / pageSize ≤ sampleBlock.size := by decide
  obtain ⟨σ', -, hr, -⟩ := anonymous_result VbeInfo.sample Image.sample.platform
    (fun σ => .ok (0, σ)) h₀ (sampleBlock_take hroom)
  obtain ⟨τ', -, hr', -⟩ := anonymous_result VbeInfo.sample Image.sample.platform
    (fun σ => .ok (0, σ)) (h₀.withMem (painted Image.sample.platform sampleStart.paging))
    (sampleBlock_take hroom)
  have hs := sampleStart_live.steady
  refine ⟨σ', τ', hr, hr', ?_, ?_⟩
  · exact readUser_painted hs hr' (by decide) (by decide) (by decide)
  · exact not_clean hs (by decide) (by decide) (by decide)

end Syscalls
end BootableKernel
