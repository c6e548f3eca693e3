import BootableKernel.Memory.Supply

/-!
# Where an explicit mapping leads

`vmm_mmap(p, n, k)` with an address `p` is meant to make its pages translate to the
frames from `p` on. But `vmm_free_pages` leaves the leaf entries of the pages it takes
back in place, and `vmm_map_memory` keeps the frame of a leaf that is there. So the
result depends on the history of the pages the first fit happens to hand out:
`vmmMmap_translates_iff` says that it is right exactly when none of them was mapped to
another frame before.
-/

namespace BootableKernel

open LinkedList

namespace Paging
variable {P : Platform}

/-- A page of a mapped range translates to the frame that was asked for, unless it was
mapped to another one before. -/
theorem Frames.ensure_translate {σ : Paging} (hP : P.Valid) (h : Frames P σ) {v n p : ℕ}
    (hv : HeapRange v n) (hp : 0 < p) (hal : p % pageSize = 0) (hlt : p + n * pageSize ≤ 2 ^ 40)
    (k : Bool)
    (hfree : ∀ i < n, σ.translate P (v + i * pageSize) = none ∨
      σ.translate P (v + i * pageSize) = some (p + i * pageSize)) :
    ∀ i < n, (σ.ensurePagesMapped P (mapFlags k) n p v).translate P (v + i * pageSize) =
      some (p + i * pageSize) := by
  intro i hi
  obtain ⟨τ, hτ, hold, hnew, -⟩ := h.ensure_page hP hv p k hi
  obtain ⟨-, s, -⟩ := hτ.map hP (hv i hi) (physicalAt p i) k
  have hbound : p + i * pageSize + pageSize ≤ p + n * pageSize := by
    have : (i + 1) * pageSize ≤ n * pageSize := Nat.mul_le_mul_right _ hi
    rw [Nat.add_mul, Nat.one_mul] at this
    omega
  have hpos : 0 < pageSize := by decide
  have hphys : physicalAt p i = p + i * pageSize := physicalAt_eq hp (by omega)
  rw [translate, hnew]
  rcases hfree i hi with hnone | hsome
  · have habs : isPresent (τ.leaf P (v + i * pageSize)) = false := by
      rw [hold]
      exact target_eq_none.mp hnone
    rw [target_of_present s.present, s.given habs (by omega), frameOf_or_noExec, frameOf_or_flags,
      hphys, frameOf_ofNat ?_ (by omega)]
    simp only [pageSize] at hal ⊢
    omega
  · apply s.translate_kept
    rw [translate, hold]
    exact hsome

end Paging

namespace Vmm
open Paging
variable {P : Platform}

/-- The requests of this section: mappings of any kind, and releases. -/
def AnyMapping (_ : Vmm) : Request → Prop
  | .mmap _ _ _ _ => True
  | .free _ _ _ => True
  | .setPermission _ _ _ _ => False

/-- **When an explicit mapping is right.** In every reachable state, for every
page-aligned `p > 0` with `p + n * PAGE_SIZE ≤ 2^40`: what `vmm_mmap(p, n, k)` returns
translates to the frames from `p` on exactly when no page that first fit hands out was
mapped to another frame before. -/
theorem vmmMmap_translates_iff (B : Boot) {σ₀ σ : Vmm}
    (h₀ : Bootstrapped B.platform B.paging σ₀) (hrun : Run B.platform AnyMapping σ₀ σ)
    {xs : List (ℕ × Span)} (hxs : Chain σ.nodes σ.blockchain xs) (kmalloc : KMalloc) {p n : ℕ}
    (hp : 0 < p) (hal : p % pageSize = 0) (hlt : p + n * pageSize ≤ 2 ^ 40) (k : Bool) :
    (∀ s σ', σ.vmmMmap B.platform kmalloc p n k = .ok (s, σ') → s ≠ 0 →
      ∀ i < n, σ'.paging.translate B.platform (s + i * pageSize) = some (p + i * pageSize)) ↔
    ∀ s l, FreeList.take pageSize n (blocks xs) = some (s, l) →
      ∀ i < n, σ.paging.translate B.platform (s + i * pageSize) = none ∨
        σ.paging.translate B.platform (s + i * pageSize) = some (p + i * pageSize) := by
  have hP := B.platform_valid
  have hk := (kept_of_run B (fun _ _ _ _ _ h => h.elim) h₀ hrun).frames
  obtain ⟨ys, hl⟩ := ledger_of_run h₀ hrun
  obtain rfl := hl.chain.unique hxs
  obtain ⟨⟨s, σ'⟩, hr⟩ := hl.mmap_ok (P := B.platform) kmalloc p n k
  have hstart : heapStart ≠ 0 := by decide
  rcases hl.mmap hr with ⟨rfl, -, htake⟩ | ⟨zs, -, htake, hs, -, hpaging⟩
  · constructor
    · intro _ s l hc
      rw [htake] at hc
      exact absurd hc (by simp)
    · intro _ s σ' hc hs
      rw [hr, Except.ok.injEq, Prod.mk.injEq] at hc
      exact absurd hc.1.symm hs
  · have hrange := hl.heapRange_take htake
    constructor
    · intro h s' l hc i hi
      rw [htake, Option.some.injEq, Prod.mk.injEq] at hc
      obtain ⟨rfl, -⟩ := hc
      have hnew := h s σ' hr (by omega) i hi
      cases hold : σ.paging.translate B.platform (s + i * pageSize) with
      | none => exact .inl rfl
      | some a =>
          right
          have := hk.ensure_kept hP hrange p k hold
          rw [← hpaging, hnew] at this
          exact this.symm
    · intro h s' τ hc _ i hi
      rw [hr, Except.ok.injEq, Prod.mk.injEq] at hc
      obtain ⟨rfl, rfl⟩ := hc
      rw [hpaging]
      exact hk.ensure_translate hP hrange hp hal hlt k (h s _ htake) i hi

/-- In the sample, the page after the bootstrap pages is not mapped. -/
theorem sampleStart_unmapped :
    sampleStart.paging.translate Boot.sample.platform (heapStart + 16 * pageSize) = none := by
  have hpage : HeapPage (heapStart + 16 * pageSize) := ⟨by decide, by decide, by decide⟩
  obtain ⟨node, h⟩ := sampleStart_ledger
  have hrange : HeapRange heapStart 16 :=
    h.heapRange (x := ⟨heapStart, 16⟩) (by simp [sampleStart, outstanding])
  have hleaf := (frames_boot Boot.sample).ensure_other Boot.sample.platform_valid hrange 0 true
    (w := heapStart + 16 * pageSize) fun i hi he => by
      have := leafOf_injective hpage.aligned (hrange i hi).aligned hpage.upper.lt
        (hrange i hi).upper.lt he
      simp only [pageSize] at this
      omega
  rw [leaf_boot Boot.sample hpage.upper] at hleaf
  have hpaging : sampleStart.paging = Boot.sample.paging.ensurePagesMapped Boot.sample.platform
      (mapFlags true) 16 0 heapStart := by rw [sampleStart]
  rw [Paging.translate, hpaging, hleaf, target_zero]

/-- A page that was mapped to a device at `0xfd000000` and freed: when it is handed out
again for `0xe0000000`, it still leads to the first device. -/
theorem vmmMmap_translates_fails :
    ∃ σ, Run Boot.sample.platform AnyMapping sampleStart σ ∧
      ∃ s σ', σ.vmmMmap Boot.sample.platform ((Supply.atOnce 0).kmalloc Boot.sample.platform)
          0xe0000000 1 false = .ok (s, σ') ∧ s ≠ 0 ∧
        σ'.paging.translate Boot.sample.platform s = some 0xfd000000 := by
  have hP := Boot.sample.platform_valid
  have hpage : HeapPage (heapStart + 16 * pageSize) := ⟨by decide, by decide, by decide⟩
  -- The page is mapped to the first device,
  obtain ⟨σ₁, ys, hrun₁, hl₁, hys, hcalls₁, hp₁⟩ := sampleStart_mmap AnyMapping
    0xfd000000 1 false trivial (by decide)
  have hrange₁ : HeapRange (heapStart + 16 * pageSize) 1 := by
    intro i hi
    obtain rfl : i = 0 := by omega
    simpa using hpage
  have hlow : LowPermissions AnyMapping := fun _ _ _ _ _ h => h.elim
  have hstart := (kept_of_run Boot.sample hlow sampleStart_bootstrapped .refl).frames
  have ht₁ : σ₁.paging.translate Boot.sample.platform (heapStart + 16 * pageSize) =
      some 0xfd000000 := by
    have := hstart.ensure_translate hP hrange₁ (p := 0xfd000000) (by decide) (by decide) (by decide)
      false (fun i hi => by
        obtain rfl : i = 0 := by omega
        simpa using .inl sampleStart_unmapped) 0 (by decide)
    rw [hp₁]
    simpa using this
  -- freed,
  obtain ⟨node, hf⟩ := exists_fresh σ₁
  obtain ⟨σ₂, zs, hok₂, hrel⟩ := vmmFreePages_atOnce (P := Boot.sample.platform) hl₁.chain hf
    ⟨heapStart + 16 * pageSize, 1⟩
  have hmem : (⟨heapStart + 16 * pageSize, 1⟩ : Span) ∈ outstanding σ₁.calls := by
    rw [hcalls₁]
    simp [outstanding]
  have hl₂ := hl₁.released hmem hrel
  have hzs : blocks zs = [⟨heapStart + 16 * pageSize, maxHeapSize - 16⟩] := by
    rw [hrel.blocks_eq, hys]
    decide
  have hrun₂ : Run Boot.sample.platform AnyMapping sampleStart σ₂ :=
    hrun₁.tail ⟨.free (heapStart + 16 * pageSize) 1 (.atOnce node), trivial, ⟨hmem, hf⟩, hok₂⟩
  have ht₂ : σ₂.paging.translate Boot.sample.platform (heapStart + 16 * pageSize) =
      some 0xfd000000 := by
    rw [hrel.paging_eq]
    exact ht₁
  -- and handed out again.
  obtain ⟨σ₃, -, hok₃, -, -, hs, -, hp₃⟩ := hl₂.mmap_some (P := Boot.sample.platform)
    ((Supply.atOnce 0).kmalloc Boot.sample.platform) 0xe0000000 false
    (show FreeList.take pageSize 1 (blocks zs) = some (heapStart + 16 * pageSize, _) by
      rw [hzs]; rfl)
  refine ⟨σ₂, hrun₂, heapStart + 16 * pageSize, σ₃, hok₃, by decide, ?_⟩
  rw [hp₃]
  exact (kept_of_run Boot.sample hlow sampleStart_bootstrapped hrun₂).frames.ensure_kept hP hrange₁ _ false ht₂

/-- Right after the bootstrap nothing stands in the way. -/
theorem vmmMmap_translates_sample :
    sampleStart.paging.translate Boot.sample.platform (heapStart + 16 * pageSize) = none ∧
    ∀ s σ', sampleStart.vmmMmap Boot.sample.platform
        ((Supply.atOnce 0).kmalloc Boot.sample.platform) 0xfd000000 1 false = .ok (s, σ') → s ≠ 0 →
      ∀ i < 1, σ'.paging.translate Boot.sample.platform (s + i * pageSize) =
        some (0xfd000000 + i * pageSize) := by
  obtain ⟨node, h⟩ := sampleStart_ledger
  refine ⟨sampleStart_unmapped, (vmmMmap_translates_iff Boot.sample sampleStart_bootstrapped .refl
    h.chain _ (by decide) (by decide) (by decide) false).mpr ?_⟩
  intro s l ht i hi
  obtain rfl : i = 0 := by omega
  obtain rfl : heapStart + 16 * pageSize = s := by
    have : FreeList.take pageSize 1 [(⟨heapStart + 16 * pageSize, maxHeapSize - 16⟩ : Span)] =
        some (heapStart + 16 * pageSize,
          [⟨heapStart + 16 * pageSize + 1 * pageSize, maxHeapSize - 16 - 1⟩]) := rfl
    exact congrArg Prod.fst (Option.some.inj (this.symm.trans ht))
  exact .inl (by simpa using sampleStart_unmapped)

end Vmm
end BootableKernel
