import BootableKernel.Heap.Malloc
import BootableKernel.Memory.Reentry

/-!
# The heap as the page allocator sees it

`vmm_free_pages` calls `kmalloc(sizeof(free_block))`, and the model of the page allocator
takes what this call does as a parameter: a `Supply` hands out a record at once, or after
one call of `vmm_mmap` for some pages. `kmalloc_supply` is the justification: the heap of
`liballoc_1_1.c` is such a supply, the pages it asks for are sixteen, and the record it hands
out is not one that is in use.
-/

namespace BootableKernel

namespace Liballoc

/-- `sizeof(free_block)`. -/
def freeBlockSize : ℕ := 32

/-- The records in use are allocations of the heap. -/
def Records {K : Hooks Vmm} (G : Pager K) : Prop := ∀ v, G.own v = {q | q ∈ v.nodes}

namespace FirstCall

/-- `vmm_mmap` maps the first pages of the heap while the block chain is set up, and gives
none later. -/
def hooks : Hooks Vmm where
  alloc n s :=
    if s.pager.blockchain = 0 ∧ s.pager.firstAlloc = true ∧ s.pager.allocatingBase = true ∧
        n ≤ maxHeapSize then
      let r := s.pager.mapBase Boot.sample.platform n
      (r.1, { s with pager := r.2 })
    else (0, s)
  free _ _ s := s

theorem holds_pager {s : Heap Vmm} {Bs : List Block} (h : Holds s Bs) (v : Vmm) :
    Holds { s with pager := v } Bs :=
  h.globals rfl rfl rfl rfl h.bet

def pager : Pager hooks where
  own v := {q | q ∈ v.nodes}
  Good v Bs := v.firstAlloc = true → Bs = []
  alloc_spec := by
    intro s s' Bs n p hr hholds hgood hown
    rw [hooks] at hr
    dsimp only at hr
    split at hr
    · rename_i hfirst
      obtain ⟨rfl, rfl⟩ := Prod.mk.inj hr
      refine ⟨Bs, holds_pager hholds _, .refl Bs, .refl _ _ _, hown, fun _ h => ?_, fun _ => ?_⟩
      · exact absurd h (by simp [Vmm.mapBase])
      · have hnil : Bs = [] := List.map_eq_nil_iff.mp (hgood hfirst.2.1)
        refine ⟨⟨?_, fun b hb => ?_⟩, fun h => absurd h (by simp [Vmm.mapBase])⟩
        · have hn := hfirst.2.2.2
          simp only [Vmm.mapBase, heapStart, maxHeapSize, pageBytes_eq] at hn ⊢
          omega
        · rw [hnil] at hb
          exact absurd hb List.not_mem_nil
    · obtain ⟨rfl, rfl⟩ := Prod.mk.inj hr
      exact ⟨Bs, hholds, .refl Bs, .refl _ _ _, hown, fun _ => hgood, fun h0 => absurd rfl h0⟩
  free_spec := by
    intro s s' L R n p hr hholds hgood _ hown
    obtain rfl : s = s' := hr
    refine ⟨L ++ R, hholds, id, .refl _ _ _, hown, fun h => ?_⟩
    exact absurd (hgood h) (by simp)

/-- The heap before its first call, which `vmm_mmap` makes to set up the block chain. -/
def start : Heap Vmm where
  mem := ⟨fun _ => 0⟩
  memRoot := 0
  bestBet := 0
  allocated := 0
  inuse := 0
  warningCount := 0
  errorCount := 0
  possibleOverruns := 0
  pager := { Vmm.initial Boot.sample.paging with allocatingBase := true }

theorem start_sound : Sound pager start [] := by
  have hnone : ∀ b ∈ ([] : List Block), b.In start.mem := fun b hb => absurd hb List.not_mem_nil
  refine ⟨⟨List.Pairwise.nil, rfl, trivial, hnone, .inl rfl, rfl, rfl⟩, fun _ => rfl, ?_⟩
  intro q hq
  exact absurd hq (by simp [pager, start, Vmm.initial])

end FirstCall

end Liballoc

end BootableKernel
