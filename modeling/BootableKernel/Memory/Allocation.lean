import BootableKernel.Memory.Mapping
import BootableKernel.Memory.Translation

/-!
# What an allocation gives

The pages that a call of `vmm_mmap` returns overlap no range that is outstanding, and a
page that had no frame before is backed by the address asked for or by a frame of the
physical memory manager. Addresses are resolved to the byte here.
-/

namespace BootableKernel

open LinkedList

namespace Paging
variable {P : Platform}

/-- The physical address that the address `a` translates to. -/
def byteAt (P : Platform) (σ : Paging) (a : ℕ) : Option ℕ :=
  (σ.translate P a).map fun f => f + a % pageSize

/-- All bytes of a page share its leaf. -/
theorem leaf_add (σ : Paging) {v r : ℕ} (hv : v % pageSize = 0) (hr : r < pageSize) :
    σ.leaf P (v + r) = σ.leaf P v := by
  apply leaf_congr
  rw [leafOf_eq_iff]
  simp only [pageNumber, pageSize] at *
  omega

theorem byteAt_add {σ : Paging} {v r f : ℕ} (hv : v % pageSize = 0) (hr : r < pageSize)
    (h : σ.translate P v = some f) : σ.byteAt P (v + r) = some (f + r) := by
  have hmod : (v + r) % pageSize = r := by
    simp only [pageSize] at *
    omega
  rw [byteAt, translate, leaf_add σ hv hr, ← translate, h, hmod]
  rfl

/-- A page of a mapped range keeps its frame. If it had none, it is given one of the
physical memory manager, or the one the caller asked for. -/
theorem Frames.ensure_backing {σ : Paging} (hP : P.Valid) (h : Frames P σ) {v n : ℕ}
    (hv : HeapRange v n) (physical : ℕ) (k : Bool) {i : ℕ} (hi : i < n) :
    ∃ a, (σ.ensurePagesMapped P (mapFlags k) n physical v).translate P (v + i * pageSize) = some a ∧
      (σ.translate P (v + i * pageSize) = some a ∨ (a, v + i * pageSize) ∈
          pagesOf (σ.ensurePagesMapped P (mapFlags k) n physical v).obtained ∨
        (physicalAt physical i ≠ 0 ∧ σ.translate P (v + i * pageSize) = none ∧
          a = frameOf (BitVec.ofNat 64 (physicalAt physical i)))) := by
  obtain ⟨τ, hτ, hold, hnew, hsub⟩ := h.ensure_page hP hv physical k hi
  obtain ⟨-, s, hd⟩ := hτ.map hP (hv i hi) (physicalAt physical i) k
  refine ⟨_, by rw [translate, hnew]; exact target_of_present s.present, ?_⟩
  rw [translate, ← hold]
  cases hp : isPresent (τ.leaf P (v + i * pageSize)) with
  | true =>
      left
      rw [target_of_present hp, (s.kept hp).1]
  | false =>
      right
      rcases hd with ⟨-, hor⟩ | ⟨-, -, he⟩
      · have hphys : physicalAt physical i ≠ 0 := by simpa [hp] using hor
        refine .inr ⟨hphys, target_eq_none.mpr hp, ?_⟩
        rw [s.given hp hphys, frameOf_or_noExec, frameOf_or_flags]
      · left
        apply hsub
        rw [he]
        exact List.mem_cons_self ..

end Paging

namespace Vmm
open Paging
variable {P : Platform}

/-- What is returned overlaps no outstanding range. -/
theorem Ledger.mmap_apart {σ σ' : Vmm} {xs : List (ℕ × Span)} (h : Ledger σ xs)
    {kmalloc : KMalloc} {physical n s : ℕ} {k : Bool}
    (hm : σ.vmmMmap P kmalloc physical n k = .ok (s, σ')) (hs : s ≠ 0) (hn : 0 < n) {x : Span}
    (hx : x ∈ outstanding σ.calls) (hpos : 0 < x.size) :
    s + n * pageSize ≤ x.start ∨ x.stop pageSize ≤ s := by
  rcases h.mmap hm with ⟨rfl, -⟩ | ⟨ys, hl, -, -, hcalls, -⟩
  · exact absurd rfl hs
  · have hperm : (blocks ys ++ outstanding σ'.calls).Perm
        (⟨s, n⟩ :: x :: ((outstanding σ.calls).erase x ++ blocks ys)) := by
      rw [hcalls, outstanding]
      exact List.perm_append_comm.trans (((List.perm_cons_erase hx).cons _).append_right _)
    exact Tiles.apart pageSize_pos (h := hl.tiles.perm hperm) hn hpos

end Vmm
end BootableKernel
