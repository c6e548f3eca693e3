import BootableKernel.Memory.Runs

/-!
# Freeing undoes allocating

The free list is kept coalesced, and a coalesced list is determined by the pages it
covers. So the list after some calls does not depend on how the calls split and merged
its blocks: returning a range right after taking it restores the list, and two ranges
can be returned in either order.
-/

namespace BootableKernel

open LinkedList

namespace Vmm
variable {P : Platform}

/-- The free list of `σ` consists of the blocks `l`. -/
def Lists (σ : Vmm) (l : List Span) : Prop :=
  ∃ xs, Chain σ.nodes σ.blockchain xs ∧ blocks xs = l

/-- `vmm_free_pages` of the range `x`, with a `kmalloc` that succeeds without calling
back, does not fault and leads to a state with `Q`. -/
def Frees (P : Platform) (σ : Vmm) (x : Span) (Q : Vmm → Prop) : Prop :=
  ∀ node, (Supply.atOnce node).Fresh σ →
    ∃ σ', σ.vmmFreePages ((Supply.atOnce node).kmalloc P) x.start x.size = .ok σ' ∧ Q σ'

theorem Frees.mono {σ : Vmm} {x : Span} {Q Q' : Vmm → Prop} (h : Frees P σ x Q)
    (hQ : ∀ σ', Q σ' → Q' σ') : Frees P σ x Q' := by
  intro node hf
  obtain ⟨σ', hok, hq⟩ := h node hf
  exact ⟨σ', hok, hQ σ' hq⟩

/-- A release puts its range into the list. -/
theorem frees_put {σ : Vmm} {l : List Span} (h : Lists σ l) (x : Span) :
    Frees P σ x fun σ' => Lists σ' (FreeList.put pageSize x l) := by
  obtain ⟨xs, hc, rfl⟩ := h
  intro node hf
  obtain ⟨σ', ys, hok, hr⟩ := vmmFreePages_atOnce (P := P) hc hf x
  exact ⟨σ', hok, ys, hr.chain, hr.blocks_eq⟩

/-- Returning what was just taken. -/
theorem put_take {n s : ℕ} {l l' : List Span} (h : FreeList.Coalesced pageSize l) (hn : 1 ≤ n)
    (ht : FreeList.take pageSize n l = some (s, l')) : FreeList.put pageSize ⟨s, n⟩ l' = l := by
  have hl' := h.take ht
  have hput := hl'.put pageSize_pos (x := ⟨s, n⟩) hn (h.apart_take ht)
  refine hput.unique pageSize_pos h fun a => ?_
  rw [FreeList.countP_put pageSize_pos, FreeList.countP_take pageSize_pos ht]

/-- Returning two ranges in either order. -/
theorem put_comm {x y : Span} {l : List Span} (h : FreeList.Coalesced pageSize l)
    (hx : 0 < x.size) (hy : 0 < y.size) (hxy : FreeList.Apart pageSize x y)
    (hxl : ∀ b ∈ l, FreeList.Apart pageSize x b) (hyl : ∀ b ∈ l, FreeList.Apart pageSize y b) :
    FreeList.put pageSize y (FreeList.put pageSize x l) =
      FreeList.put pageSize x (FreeList.put pageSize y l) := by
  have hyx : FreeList.Apart pageSize y x := hxy.symm
  have h₁ := (h.put pageSize_pos hx hxl).put pageSize_pos hy
    (FreeList.apart_put pageSize_pos hy (List.forall_mem_cons.mpr ⟨hyx, hyl⟩))
  have h₂ := (h.put pageSize_pos hy hyl).put pageSize_pos hx
    (FreeList.apart_put pageSize_pos hx (List.forall_mem_cons.mpr ⟨hxy, hxl⟩))
  refine h₁.unique pageSize_pos h₂ fun a => ?_
  simp only [FreeList.countP_put pageSize_pos, List.countP_cons]
  omega

/-- **Freeing undoes allocating.** Take any state after the bootstrap whose free list `l`
is coalesced. If `vmm_mmap` returns pages, `vmm_free_pages` of these pages restores the
list; and two ranges that overlap neither each other nor the list can be freed in either
order, with the same list as the result. -/
theorem vmmFreePages_undoes {σ : Vmm} {l : List Span} (hl : Lists σ l)
    (hco : FreeList.Coalesced pageSize l) (hfirst : σ.firstAlloc = false) :
    (∀ kmalloc physical n k s σ', 1 ≤ n → σ.vmmMmap P kmalloc physical n k = .ok (s, σ') → s ≠ 0 →
      Frees P σ' ⟨s, n⟩ fun τ => Lists τ l) ∧
    ∀ x y : Span, 0 < x.size → 0 < y.size → FreeList.Apart pageSize x y →
      (∀ b ∈ l, FreeList.Apart pageSize x b) → (∀ b ∈ l, FreeList.Apart pageSize y b) →
      ∃ l', (Frees P σ x fun τ => Frees P τ y fun τ' => Lists τ' l') ∧
        Frees P σ y fun τ => Frees P τ x fun τ' => Lists τ' l' := by
  refine ⟨fun kmalloc physical n k s σ' hn hm hs => ?_, fun x y hx hy hxy hxl hyl => ?_⟩
  · obtain ⟨xs, hc, rfl⟩ := hl
    rcases vmmMmap_spec (P := P) kmalloc hc hfirst physical n k with
      ⟨-, e⟩ | ⟨l₁, x, r, rfl, hl₁, hx, nodes, head, e, hc', -⟩
    · rw [e, Except.ok.injEq, Prod.mk.injEq] at hm
      exact absurd hm.1.symm hs
    · rw [e, Except.ok.injEq, Prod.mk.injEq] at hm
      obtain ⟨rfl, rfl⟩ := hm
      have hput := put_take hco hn (take_blocks hl₁ hx)
      exact (frees_put ⟨_, hc', rfl⟩ _).mono fun τ hτ => hput ▸ hτ
  · refine ⟨FreeList.put pageSize y (FreeList.put pageSize x l), ?_, ?_⟩
    · exact (frees_put hl x).mono fun τ hτ => frees_put hτ y
    · rw [put_comm hco hx hy hxy hxl hyl]
      exact (frees_put hl y).mono fun τ hτ => frees_put hτ x

/-- Two outstanding ranges that touch each other and, the second, the only free block. -/
theorem vmmFreePages_undoes_nearlyFull :
    ∃ l', (Frees Boot.sample.platform nearlyFull ⟨heapStart + 16 * pageSize, 1⟩ fun τ =>
        Frees Boot.sample.platform τ ⟨heapStart + 17 * pageSize, 32223⟩ fun τ' => Lists τ' l') ∧
      Frees Boot.sample.platform nearlyFull ⟨heapStart + 17 * pageSize, 32223⟩ fun τ =>
        Frees Boot.sample.platform τ ⟨heapStart + 16 * pageSize, 1⟩ fun τ' => Lists τ' l' := by
  refine (vmmFreePages_undoes ⟨_, nearlyFull_listed.chain, rfl⟩ nearlyFull_listed.coalesced rfl).2
    _ _ (by decide) (by decide) (.inl (by decide)) nearlyFull_apart ?_
  intro b hb
  rw [blocks, List.map_singleton, List.mem_singleton] at hb
  subst hb
  exact .inl (by decide)

end Vmm
end BootableKernel
